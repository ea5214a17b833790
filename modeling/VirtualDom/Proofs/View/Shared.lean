import VirtualDom.Proofs.Template.Spots
import VirtualDom.Proofs.View.Run

/-!
This module contains blocks whose children are texts, also of templates that name one child at several
places. Mounting puts the child at each of them, but the block keeps the nodes of the last one only, and
a patch uses the next child up at the first one.
-/

namespace VirtualDom.View

open Engine
open Document (Place Shows)
open Template (Marked Opening ChildSlot)

variable {alloc : Allocations} {pl : Place} {h : Host}

section Texts

variable {value old : Value} {x : NodeId}

theorem mountText_yields (value : Value) (sole : Bool) (hd : h.document.Shows pl .nil)
    : ((ofText value).mountAs sole pl.node pl.after.head?).Yields h fun w h' => ∃ x,
        w = .text value (some x) (some pl.node) ∧
          h'.document.Shows pl (.leaf (x, .text value.text)) := by
  rw [ofText, mountAs]
  refine Yields.bind (createText_yields hd value.text) ?_
  intro x h₁ hd
  refine Yields.bind (insert_yields (A := .nil) (B := .nil) hd rfl) ?_
  intro _ h₂ hd
  exact Yields.pure ⟨x, rfl, hd⟩

theorem patchText_yields (hvalue : value.From alloc) (hold : old.From alloc) (sole : Bool)
    (parent : Option NodeId) (hd : h.document.Shows pl (.leaf (x, .text old.text)))
    : ((ofText value).patchAs sole (.text old (some x) parent)).Yields h fun w h' => ∃ shown,
        w = .text shown (some x) parent ∧ shown.From alloc ∧ shown.text = value.text ∧
          h'.document.Shows pl (.leaf (x, .text value.text)) := by
  rw [ofText, patchAs]
  by_cases hsame : old.same value
  . have htext := Value.text_eq_of_same hold hvalue hsame
    simp only [hsame, if_true]
    exact Yields.pure ⟨old, rfl, hold, htext, htext ▸ hd⟩
  . simp only [hsame]
    refine Yields.bind (setText_yields hd value.text) ?_
    intro _ h' hd
    exact Yields.pure ⟨value, rfl, hvalue, rfl, hd⟩

theorem tearDownText_yields (value : Value) (parent : Option NodeId) {c : Content}
    (hd : h.document.Shows pl (.leaf (x, c)))
    : (View.text value (some x) parent).tearDown.Yields h fun _ h' => h'.document.Shows pl .nil := by
  refine Yields.bind (beforeRemove_yields h _) ?_
  intro _ h₁ heq
  rw [remove]
  refine Yields.bind (discard_whole_yields (F := .leaf (x, c)) (heq ▸ hd) rfl) ?_
  intro _ h₂ hd
  exact Yields.pure hd

end Texts

section Slots

variable {t : Template} {root : NodeId} {references : List NodeId} {S : Marked} {held : NodeId → Content}

theorem slots_walk {σ : Type} (copied : t.Copied root references S) {step : σ → ChildSlot → Engine σ}
    (Done : List Opening → σ → (NodeId → Forest (NodeId × Content)) → Prop)
    (hstep : ∀ done o rest slot state guests (h : Host), S.openings pl.node = done ++ o :: rest →
      slot.resolve references = some o → Done done state guests →
      h.document.Shows pl (S.settled held guests) → (step state slot).Yields h fun state' h' =>
        ∃ guests', Done (done ++ [o]) state' guests' ∧ h'.document.Shows pl (S.settled held guests'))
    {state : σ} {guests : NodeId → Forest (NodeId × Content)} (hstart : Done [] state guests)
    (hd : h.document.Shows pl (S.settled held guests))
    : (t.wiring.slots.foldlM step state).Yields h fun state' h' => ∃ guests',
        Done (S.openings pl.node) state' guests' ∧ h'.document.Shows pl (S.settled held guests') := by
  have loop : ∀ (ss : List ChildSlot) (done rest : List Opening),
      ss.map (·.resolve references) = rest.map some → S.openings pl.node = done ++ rest →
      ∀ (h : Host) state guests, Done done state guests → h.document.Shows pl (S.settled held guests) →
      (ss.foldlM step state).Yields h fun state' h' => ∃ guests',
        Done (S.openings pl.node) state' guests' ∧ h'.document.Shows pl (S.settled held guests') := by
    intro ss
    induction ss with
    | nil =>
      intro done rest hrest hall h state guests hdone hd
      cases rest with
      | cons _ _ => cases hrest
      | nil =>
        rw [List.append_nil] at hall
        exact Yields.pure ⟨guests, hall ▸ hdone, hd⟩
    | cons slot ss ih =>
      intro done rest hrest hall h state guests hdone hd
      cases rest with
      | nil => cases hrest
      | cons o rest =>
        simp only [List.map_cons, List.cons.injEq] at hrest
        rw [List.foldlM_cons]
        refine Yields.bind (hstep done o rest slot state guests h hall hrest.1 hdone hd) ?_
        rintro state' h' ⟨guests', hdone, hd⟩
        exact ih (done ++ [o]) rest hrest.2 (by simpa using hall) h' state' guests' hdone hd
  exact loop _ [] _ (copied.openings pl.node) rfl h state guests hstart hd

/-- The node that shows a child, or nothing if the child is absent. -/
def Displays : Option Value → Forest (NodeId × Content) → Prop
  | none, F => F = .nil
  | some value, F => ∃ x, F = .leaf (x, .text value.text)

variable {os done rest : List Opening} {o o' : Opening}

theorem update_spot {γ : Type} (hnd : (os.map (·.spot)).Nodup) (ho : o ∈ os) (ho' : o' ∈ os)
    (hne : o' ≠ o) (guests : NodeId → γ) (G : γ)
    : Function.update guests o.spot G o'.spot = guests o'.spot :=
  Function.update_of_ne (fun heq => hne (List.inj_on_of_nodup_map hnd ho' ho heq)) _ _

theorem exists_place_of_spot (copied : t.Copied root references S) (held : NodeId → Content)
    (guests : NodeId → Forest (NodeId × Content)) (ho : o ∈ S.openings pl.node)
    : ∃ place : Place, place.node = o.parent ∧ place.after.head? = o.anchor ∧
        ∀ (h : Host) G, h.document.Shows place G ↔
          h.document.Shows pl (S.settled held (Function.update guests o.spot G)) := by
  obtain ⟨place, hnode, hanchor, hplace⟩ := Marked.exists_spot held guests copied.tidy copied.nodup ho
  exact ⟨place, hnode, hanchor, fun h G => by rw [Shows, hplace, Shows]⟩

theorem not_mem_done (hnd : (os.map (·.spot)).Nodup) (hall : os = done ++ o :: rest) : o ∉ done := by
  intro hmem
  have := hnd.of_map
  rw [hall, List.nodup_middle, List.nodup_cons] at this
  exact this.1 (List.mem_append_left _ hmem)

/-- The openings that are done have their children, of which the last of each is kept. -/
structure Hung (c : Nat → Option Value) (os done : List Opening)
    (children : List (Option View)) (guests : NodeId → Forest (NodeId × Content)) : Prop where
  capacity : ∀ o ∈ os, o.index < children.length
  shown : ∀ o ∈ os, Displays (if o ∈ done then c o.index else none) (guests o.spot)
  absent : ∀ o ∈ os, c o.index = none → children[o.index]?.join = none
  kept : ∀ o ∈ done, ∀ value, c o.index = some value → ∃ last ∈ done, last.index = o.index ∧
    ∃ x parent, children[o.index]?.join = some (.text value (some x) parent) ∧
      guests last.spot = .leaf (x, .text value.text)

theorem join_getElem?_map {β γ : Type} (f : β → γ) (xs : List (Option β)) (i : Nat)
    : (xs.map (·.map f))[i]?.join = xs[i]?.join.map f := by
  rw [List.getElem?_map]
  cases xs[i]? <;> rfl

theorem mem_done_iff (hne : o' ≠ o) : o' ∈ done ++ [o] ↔ o' ∈ done := by
  simp [hne]

namespace Hung

variable {c : Nat → Option Value} {shown : List (Option View)}
  {guests : NodeId → Forest (NodeId × Content)}

theorem empty (hung : Hung c os done shown guests) (ho : o ∈ os) (hnot : o ∉ done)
    : guests o.spot = .nil := by
  have := hung.shown o ho
  rwa [if_neg hnot] at this

theorem skip (hung : Hung c os done shown guests) (ho : o ∈ os) (hnot : o ∉ done)
    (hc : c o.index = none) : Hung c os (done ++ [o]) shown guests := by
  refine ⟨hung.capacity, ?_, hung.absent, ?_⟩
  . intro o' ho'
    by_cases heq : o' = o
    . subst heq
      rw [hc, ite_self]
      exact hung.empty ho hnot
    . simpa only [mem_done_iff heq] using hung.shown o' ho'
  . intro o' ho' value hvalue
    have heq : o' ≠ o := by
      rintro rfl
      cases hc.symm.trans hvalue
    obtain ⟨last, hlast, h⟩ := hung.kept o' ((mem_done_iff heq).1 ho') value hvalue
    exact ⟨last, List.mem_append_left _ hlast, h⟩

theorem hang (hung : Hung c os done shown guests) (hnd : (os.map (·.spot)).Nodup) (hsub : done ⊆ os)
    (ho : o ∈ os) {value : Value} (hc : c o.index = some value) (x : NodeId) (parent : Option NodeId)
    : Hung c os (done ++ [o]) (shown.set o.index (some (.text value (some x) parent)))
        (Function.update guests o.spot (.leaf (x, .text value.text))) := by
  refine ⟨by simpa using hung.capacity, ?_, ?_, ?_⟩
  . intro o' ho'
    by_cases heq : o' = o
    . subst heq
      rw [if_pos (by simp), hc, Function.update_self]
      exact ⟨x, rfl⟩
    . rw [update_spot hnd ho ho' heq]
      simpa only [mem_done_iff heq] using hung.shown o' ho'
  . intro o' ho' hnone
    have hne : o.index ≠ o'.index := by
      intro heq
      cases hc.symm.trans (heq ▸ hnone)
    rw [List.getElem?_set_ne hne]
    exact hung.absent o' ho' hnone
  . intro o' ho' value' hvalue'
    by_cases hi : o'.index = o.index
    . cases hc.symm.trans (hi ▸ hvalue')
      refine ⟨o, by simp, hi.symm, x, parent, ?_, Function.update_self ..⟩
      rw [hi, List.getElem?_set_self (hung.capacity o ho)]
      rfl
    . have heq : o' ≠ o := fun h => hi (congrArg _ h)
      obtain ⟨last, hlast, hlasti, y, parent', hy, hguest⟩ :=
        hung.kept o' ((mem_done_iff heq).1 ho') value' hvalue'
      have hne : last ≠ o := fun h => hi (hlasti ▸ congrArg _ h)
      refine ⟨last, List.mem_append_left _ hlast, hlasti, y, parent', ?_, ?_⟩
      . rwa [List.getElem?_set_ne (Ne.symm hi)]
      . rwa [update_spot hnd ho (hsub hlast) hne]

end Hung

theorem mountSlot_hangs {c : Nat → Option Value} {children shown : List (Option View)}
    (hchildren : ∀ i, children[i]?.join = (c i).map ofText) (copied : t.Copied root references S)
    {slot : ChildSlot} {guests : NodeId → Forest (NodeId × Content)}
    (hall : S.openings pl.node = done ++ o :: rest) (hso : slot.resolve references = some o)
    (hung : Hung c (S.openings pl.node) done shown guests)
    (hd : h.document.Shows pl (S.settled held guests))
    : (mountSlot references (mountings children) shown slot).Yields h fun shown' h' => ∃ guests',
        Hung c (S.openings pl.node) (done ++ [o]) shown' guests' ∧
          h'.document.Shows pl (S.settled held guests') := by
  have hnd := Marked.spots_nodup (p := pl.node) copied.tidy copied.nodup
  have ho : o ∈ S.openings pl.node := by simp [hall]
  have hsub : done ⊆ S.openings pl.node := by simp [hall]
  have hnot := not_mem_done hnd hall
  obtain ⟨hindex, hslot, hparent, -⟩ := Template.ChildSlot.resolve_eq_some hso
  unfold mountSlot
  rw [hindex, hslot, mountings_eq_map, join_getElem?_map, hchildren]
  cases hc : c o.index with
  | none => exact Yields.pure ⟨guests, hung.skip ho hnot hc, hd⟩
  | some value =>
    refine Yields.bind_ok (Template.Wiring.reference_eq_ok hparent) ?_
    refine Yields.bind_ok (Template.anchor_eq_ok hso) ?_
    obtain ⟨place, hnode, hanchor, hplace⟩ := exists_place_of_spot copied held guests ho
    have hd : h.document.Shows place .nil := by
      rwa [hplace, ← hung.empty ho hnot, Function.update_eq_self]
    rw [← hnode, ← hanchor]
    refine Yields.bind (mountText_yields value o.sole hd) ?_
    rintro w h' ⟨x, rfl, hd⟩
    rw [hplace] at hd
    exact Yields.pure ⟨_, hung.hang hnd hsub ho hc x (some place.node), hd⟩

theorem mountSlots_hang {c : Nat → Option Value} {children : List (Option View)}
    (hchildren : ∀ i, children[i]?.join = (c i).map ofText) (copied : t.Copied root references S)
    (capacity : ∀ slot ∈ t.wiring.slots, slot.index < children.length)
    (hd : h.document.Shows pl (S.settled held fun _ => .nil))
    : (t.wiring.slots.foldlM (mountSlot references (mountings children)) children).Yields h
        fun shown h' => ∃ guests, Hung c (S.openings pl.node) (S.openings pl.node) shown guests ∧
          h'.document.Shows pl (S.settled held guests) := by
  refine slots_walk copied (Hung c (S.openings pl.node)) ?_ ⟨?_, ?_, ?_, nofun⟩ hd
  . intro done o rest slot shown guests h hall hso hung hd
    exact mountSlot_hangs hchildren copied hall hso hung hd
  . intro o ho
    obtain ⟨slot, hs, hi⟩ := copied.exists_slot ho
    exact hi ▸ capacity slot hs
  . intro o ho
    rw [if_neg List.not_mem_nil]
    rfl
  . intro o ho hnone
    rw [hchildren, hnone]
    rfl

/-- The child is for one opening only, or it is absent both before and after a patch. -/
def Unshared (os : List Opening) (c c' : Nat → Option Value) (i : Nat) : Prop :=
  (∀ o ∈ os, ∀ o' ∈ os, o.index = i → o'.index = i → o = o') ∨ c i = none ∧ c' i = none

theorem Unshared.displays_update {c c' : Nat → Option Value} (hunshared : Unshared os c c' o.index)
    {own : Opening} (hown : own ∈ os) (hi : own.index = o.index) {value : Value}
    (hc' : c' o.index = some value) (guests : NodeId → Forest (NodeId × Content)) (x : NodeId)
    (ho' : o' ∈ os) (hi' : o'.index = o.index)
    : Displays (c' o.index)
        (Function.update guests own.spot (.leaf (x, .text value.text)) o'.spot) := by
  rcases hunshared with hone | ⟨-, hnone⟩
  . rw [hone o' ho' own hown hi' hi, Function.update_self, hc']
    exact ⟨x, rfl⟩
  . cases hc'.symm.trans hnone

/--
The openings that are done have used up their next children. Every child that is mounted is at one of
its openings, and those of unshared children show what is next for them.
-/
structure Patched (alloc : Allocations) (c c' : Nat → Option Value) (os done : List Opening)
    (children : List (Option View)) (incoming : List (Option Incoming))
    (guests : NodeId → Forest (NodeId × Content)) : Prop where
  capacity : ∀ o ∈ os, o.index < children.length
  used : ∀ o ∈ done, incoming[o.index]?.join = none
  kept : ∀ o ∈ os, ∀ w, children[o.index]?.join = some w → ∃ own ∈ os, own.index = o.index ∧
    ∃ value x parent, w = .text value (some x) parent ∧ value.From alloc ∧
      guests own.spot = .leaf (x, .text value.text)
  left : ∀ o ∈ os, (∀ o' ∈ done, o'.index ≠ o.index) →
    incoming[o.index]?.join = (c' o.index).map (fun value => ⟨ofText value, (ofText value).patchAs⟩) ∧
      (children[o.index]?.join = none ↔ c o.index = none) ∧ (c o.index = none → guests o.spot = .nil)
  shown : ∀ o ∈ os, ∀ o' ∈ done, o'.index = o.index → Unshared os c c' o.index →
    Displays (c' o.index) (guests o.spot)

theorem Hung.patched {c c' : Nat → Option Value} {children next : List (Option View)}
    {guests : NodeId → Forest (NodeId × Content)} (hung : Hung c os os children guests)
    (hnext : ∀ i, next[i]?.join = (c' i).map ofText) (hfrom : ∀ i value, c i = some value → value.From alloc)
    : Patched alloc c c' os [] children (incomingChildren next) guests := by
  have hkept : ∀ o ∈ os, ∀ w, children[o.index]?.join = some w → ∃ value, c o.index = some value ∧
      ∃ last ∈ os, last.index = o.index ∧ ∃ x parent, w = .text value (some x) parent ∧
        guests last.spot = .leaf (x, .text value.text) := by
    intro o ho w hw
    cases hc : c o.index with
    | none => cases hw.symm.trans (hung.absent o ho hc)
    | some value =>
      obtain ⟨last, hlast, hi, x, parent, hx, hguest⟩ := hung.kept o ho value hc
      cases hw.symm.trans hx
      exact ⟨value, rfl, last, hlast, hi, x, parent, rfl, hguest⟩
  refine ⟨hung.capacity, nofun, ?_, ?_, nofun⟩
  . intro o ho w hw
    obtain ⟨value, hvalue, last, hlast, hi, x, parent, hx, hguest⟩ := hkept o ho w hw
    exact ⟨last, hlast, hi, value, x, parent, hx, hfrom _ _ hvalue, hguest⟩
  . intro o ho _
    refine ⟨?_, ⟨?_, hung.absent o ho⟩, ?_⟩
    . rw [incomingChildren_eq_map, join_getElem?_map, hnext, Option.map_map]
      rfl
    . intro hnone
      cases hc : c o.index with
      | none => rfl
      | some value =>
        obtain ⟨_, _, _, _, _, hx, -⟩ := hung.kept o ho value hc
        cases hnone.symm.trans hx
    . intro hnone
      have := hung.shown o ho
      rwa [if_pos ho, hnone] at this

namespace Patched

variable {c c' : Nat → Option Value} {children : List (Option View)} {incoming : List (Option Incoming)}
  {guests : NodeId → Forest (NodeId × Content)}

theorem advance (hp : Patched alloc c c' os done children incoming guests)
    (hnd : (os.map (·.spot)).Nodup) (ho : o ∈ os) {own : Opening} (hown : own ∈ os)
    (hi : own.index = o.index) {w : Option View} {G : Forest (NodeId × Content)}
    (hw : ∀ v, w = some v → ∃ value x parent, v = .text value (some x) parent ∧ value.From alloc ∧
      G = .leaf (x, .text value.text))
    (hshown : Unshared os c c' o.index → ∀ o' ∈ os, o'.index = o.index →
      Displays (c' o.index) (Function.update guests own.spot G o'.spot))
    : Patched alloc c c' os (done ++ [o]) (children.set o.index w) (incoming.set o.index none)
        (Function.update guests own.spot G) := by
  have hkeep : ∀ {o'}, o' ∈ os → o'.index ≠ o.index →
      Function.update guests own.spot G o'.spot = guests o'.spot := by
    intro o' ho' hne
    refine update_spot hnd hown ho' ?_ guests G
    rintro rfl
    exact hne hi
  refine ⟨by simpa using hp.capacity, ?_, ?_, ?_, ?_⟩
  . intro o' ho'
    by_cases heq : o'.index = o.index
    . rw [heq, List.getElem?_set_self']
      cases incoming[o.index]? <;> rfl
    . rw [List.getElem?_set_ne (Ne.symm heq)]
      exact hp.used o' ((mem_done_iff fun h => heq (congrArg _ h)).1 ho')
  . intro o' ho' v hv
    by_cases heq : o'.index = o.index
    . rw [heq, List.getElem?_set_self (hp.capacity o ho)] at hv
      obtain ⟨value, x, parent, hx, hfrom, rfl⟩ := hw v hv
      exact ⟨own, hown, hi.trans heq.symm, value, x, parent, hx, hfrom, Function.update_self ..⟩
    . rw [List.getElem?_set_ne (Ne.symm heq)] at hv
      obtain ⟨own', hown', hi', h⟩ := hp.kept o' ho' v hv
      refine ⟨own', hown', hi', ?_⟩
      rwa [hkeep hown' (hi' ▸ heq)]
  . intro o' ho' hleft
    have hne : o'.index ≠ o.index := fun heq => hleft o (by simp) heq.symm
    rw [List.getElem?_set_ne hne.symm, List.getElem?_set_ne hne.symm, hkeep ho' hne]
    exact hp.left o' ho' fun o'' ho'' => hleft o'' (List.mem_append_left _ ho'')
  . intro o' ho' o'' ho'' heq hunshared
    by_cases hio : o'.index = o.index
    . rw [hio] at hunshared ⊢
      exact hshown hunshared o' ho' hio
    . rw [hkeep ho' hio]
      have hne : o'' ≠ o := by
        rintro rfl
        exact hio heq.symm
      exact hp.shown o' ho' o'' ((mem_done_iff hne).1 ho'') heq hunshared

theorem of_next (hp : Patched alloc c c' os done children incoming guests) (ho : o ∈ os)
    {next : Incoming} (hnext : incoming[o.index]?.join = some next)
    : (∀ o' ∈ done, o'.index ≠ o.index) ∧ ∃ value, c' o.index = some value ∧
        next = ⟨ofText value, (ofText value).patchAs⟩ := by
  have hnew : ∀ o' ∈ done, o'.index ≠ o.index := by
    intro o' ho' heq
    cases hnext.symm.trans (heq ▸ hp.used o' ho')
  obtain ⟨value, hc', rfl⟩ := Option.map_eq_some_iff.1 (hnext ▸ (hp.left o ho hnew).1).symm
  exact ⟨hnew, value, hc', rfl⟩

theorem of_no_next (hp : Patched alloc c c' os done children incoming guests) (ho : o ∈ os)
    (hnext : incoming[o.index]?.join = none) (hnew : ∀ o' ∈ done, o'.index ≠ o.index)
    : c' o.index = none :=
  Option.map_eq_none_iff.1 (hnext ▸ (hp.left o ho hnew).1).symm

theorem displays_taken (hp : Patched alloc c c' os done children incoming guests) (ho : o ∈ os)
    (hsub : done ⊆ os) (hnot : o ∉ done) {own : Opening} (hown : own ∈ os) (hi : own.index = o.index)
    {w : View} {label : NodeId × Content} (hchild : children[o.index]?.join = some w)
    (hguest : guests own.spot = .leaf label) (hnext : incoming[o.index]?.join = none)
    (hunshared : Unshared os c c' o.index) (ho' : o' ∈ os) (hi' : o'.index = o.index)
    : Displays (c' o.index) (Function.update guests own.spot .nil o'.spot) := by
  rcases hunshared with hone | ⟨hbefore, hafter⟩
  . have hnew : ∀ o' ∈ done, o'.index ≠ o.index :=
      fun o' hdone heq => hnot (hone o' (hsub hdone) o ho heq rfl ▸ hdone)
    rw [hone o' ho' own hown hi' hi, Function.update_self, hp.of_no_next ho hnext hnew]
    rfl
  . by_cases hnew : ∀ o' ∈ done, o'.index ≠ o.index
    . cases hchild.symm.trans ((hp.left o ho hnew).2.1.2 hbefore)
    . obtain ⟨o'', hdone, heq⟩ : ∃ o' ∈ done, o'.index = o.index := by simpa using hnew
      have := hp.shown own hown o'' hdone (heq.trans hi.symm) (hi ▸ .inr ⟨hbefore, hafter⟩)
      rw [hi, hafter, hguest] at this
      cases this

theorem displays_absent (hp : Patched alloc c c' os done children incoming guests) (ho : o ∈ os)
    (hchild : children[o.index]?.join = none) (hnext : incoming[o.index]?.join = none)
    (hunshared : Unshared os c c' o.index) (ho' : o' ∈ os) (hi' : o'.index = o.index)
    : Displays (c' o.index) (guests o'.spot) := by
  by_cases hnew : ∀ o' ∈ done, o'.index ≠ o.index
  . have hbefore := (hp.left o ho hnew).2.1.1 hchild
    rw [hp.of_no_next ho hnext hnew, (hp.left o' ho' (hi' ▸ hnew)).2.2 (hi' ▸ hbefore)]
    rfl
  . obtain ⟨o'', hdone, heq⟩ : ∃ o' ∈ done, o'.index = o.index := by simpa using hnew
    exact hi' ▸ hp.shown o' ho' o'' hdone (heq.trans hi'.symm) (hi' ▸ hunshared)

end Patched

theorem patchSlot_advances {c c' : Nat → Option Value} {children : List (Option View)}
    {incoming : List (Option Incoming)} {guests : NodeId → Forest (NodeId × Content)}
    (copied : t.Copied root references S) {slot : ChildSlot}
    (hall : S.openings pl.node = done ++ o :: rest) (hso : slot.resolve references = some o)
    (hfrom : ∀ i value, c' i = some value → value.From alloc)
    (hp : Patched alloc c c' (S.openings pl.node) done children incoming guests)
    (hd : h.document.Shows pl (S.settled held guests))
    : (patchSlot references (children, incoming) slot).Yields h fun state h' => ∃ guests',
        Patched alloc c c' (S.openings pl.node) (done ++ [o]) state.1 state.2 guests' ∧
          h'.document.Shows pl (S.settled held guests') := by
  have hnd := Marked.spots_nodup (p := pl.node) copied.tidy copied.nodup
  have ho : o ∈ S.openings pl.node := by simp [hall]
  have hnot := not_mem_done hnd hall
  have hsub : done ⊆ S.openings pl.node := by simp [hall]
  obtain ⟨hindex, hslot, hparent, -⟩ := Template.ChildSlot.resolve_eq_some hso
  unfold patchSlot
  simp only [hindex, hslot]
  cases hchild : children[o.index]?.join with
  | some w =>
    obtain ⟨own, hown, hi, value, x, parent, rfl, hvalue, hguest⟩ := hp.kept o ho w hchild
    obtain ⟨place, -, -, hplace⟩ := exists_place_of_spot copied held guests hown
    have hd : h.document.Shows place (.leaf (x, .text value.text)) := by
      rwa [hplace, ← hguest, Function.update_eq_self]
    cases hnext : incoming[o.index]?.join with
    | some next =>
      obtain ⟨-, value', hc', rfl⟩ := hp.of_next ho hnext
      refine Yields.bind (patchText_yields (hfrom _ _ hc') hvalue o.sole parent hd) ?_
      rintro _ h' ⟨shown, rfl, hshown, htext, hd⟩
      rw [hplace] at hd
      refine Yields.pure ⟨_, hp.advance hnd ho hown hi ?_ ?_, hd⟩
      . rintro _ ⟨⟩
        exact ⟨shown, x, parent, rfl, hshown, by rw [htext]⟩
      . exact fun hunshared o' ho' hi' => hunshared.displays_update hown hi hc' guests x ho' hi'
    | none =>
      refine Yields.bind (tearDownText_yields value parent hd) ?_
      intro _ h' hd
      rw [hplace] at hd
      refine Yields.pure ⟨_, hp.advance hnd ho hown hi (by simp) ?_, hd⟩
      exact fun hunshared o' ho' hi' =>
        hp.displays_taken ho hsub hnot hown hi hchild hguest hnext hunshared ho' hi'
  | none =>
    cases hnext : incoming[o.index]?.join with
    | some next =>
      obtain ⟨hnew, value', hc', rfl⟩ := hp.of_next ho hnext
      obtain ⟨-, habsent, hempty⟩ := hp.left o ho hnew
      obtain ⟨place, hnode, hanchor, hplace⟩ := exists_place_of_spot copied held guests ho
      have hd : h.document.Shows place .nil := by
        rwa [hplace, ← hempty (habsent.1 hchild), Function.update_eq_self]
      refine Yields.bind_ok (Template.Wiring.reference_eq_ok hparent) ?_
      refine Yields.bind_ok (Template.anchor_eq_ok hso) ?_
      rw [← hnode, ← hanchor]
      refine Yields.bind (mountText_yields value' o.sole hd) ?_
      rintro _ h' ⟨x, rfl, hd⟩
      rw [hplace] at hd
      refine Yields.pure ⟨_, hp.advance hnd ho ho rfl ?_ ?_, hd⟩
      . rintro _ ⟨⟩
        exact ⟨value', x, some place.node, rfl, hfrom _ _ hc', rfl⟩
      . exact fun hunshared o' ho' hi' => hunshared.displays_update ho rfl hc' guests x ho' hi'
    | none =>
      -- The state stays as it is, which is to say that the guest is exchanged for itself.
      have hsame : children.set o.index none = children := by
        have hlt := hp.capacity o ho
        have habsent := hchild
        rw [List.getElem?_eq_getElem hlt, Option.join_some] at habsent
        rw [← habsent, List.set_getElem_self]
      have hadvance := hp.advance (w := none) (G := guests o.spot) hnd ho ho rfl (by simp)
        fun hunshared o' ho' hi' => by
          rw [Function.update_eq_self]
          exact hp.displays_absent ho hchild hnext hunshared ho' hi'
      rw [hsame, Function.update_eq_self] at hadvance
      exact Yields.pure ⟨guests, hadvance, hd⟩

theorem patchSlots_advance {c c' : Nat → Option Value} {children next : List (Option View)}
    {guests : NodeId → Forest (NodeId × Content)} (copied : t.Copied root references S)
    (hung : Hung c (S.openings pl.node) (S.openings pl.node) children guests)
    (hnext : ∀ i, next[i]?.join = (c' i).map ofText)
    (hfrom : ∀ i value, c i = some value ∨ c' i = some value → value.From alloc)
    (hd : h.document.Shows pl (S.settled held guests))
    : (t.wiring.slots.foldlM (patchSlot references) (children, incomingChildren next)).Yields h
        fun _ h' => ∃ guests', (∀ o ∈ S.openings pl.node, Unshared (S.openings pl.node) c c' o.index →
          Displays (c' o.index) (guests' o.spot)) ∧ h'.document.Shows pl (S.settled held guests') := by
  have hstart : Patched alloc c c' (S.openings pl.node) [] children (incomingChildren next) guests :=
    hung.patched hnext fun i value hvalue => hfrom i value (.inl hvalue)
  refine (slots_walk copied (fun done state guests =>
    Patched alloc c c' (S.openings pl.node) done state.1 state.2 guests) ?_ hstart hd).mono ?_
  . rintro done o rest slot ⟨children, incoming⟩ guests h hall hso hp hd
    exact patchSlot_advances copied hall hso (fun i value hvalue => hfrom i value (.inr hvalue)) hp hd
  . rintro state h' ⟨guests', hp, hd⟩
    exact ⟨guests', fun o ho => hp.shown o ho o ho rfl, hd⟩

end Slots

section Block

variable {t : Template} {source : String} {normalize : Bool} {data data' : Data}
  {c c' : Nat → Option Value} {children next : List (Option View)}

/-- The copy is at the place with the data in it, and with guests at its spots. -/
structure Holding (t : Template) (data : Data) (pl : Place) (anchorage : Anchorage) (S : Marked)
    (held : NodeId → Content) (guests : NodeId → Forest (NodeId × Content)) (h : Host) : Prop where
  copied : t.Copied anchorage.root anchorage.references S
  inscribed : ∀ l ∈ S.labels, held l.1.1 = Template.inscribed data l.2 l.1.2
  shows : h.document.Shows pl (S.settled held guests)

variable {anchorage : Anchorage} {S : Marked} {held : NodeId → Content}
  {guests : NodeId → Forest (NodeId × Content)}

theorem mountTexts_yields (compiled : t.Compiled source normalize)
    (hchildren : ∀ i, children[i]?.join = (c i).map ofText)
    (capacity : ∀ slot ∈ t.wiring.slots, slot.index < children.length)
    (hd : h.document.Shows pl .nil)
    : ((View.block t data children none).mount pl.node pl.after.head?).Yields h fun w h' =>
        ∃ shown anchorage S held guests, w = .block t data shown (some anchorage) ∧
          Hung c (S.openings pl.node) (S.openings pl.node) shown guests ∧
            Holding t data pl anchorage S held guests h' := by
  rw [mount, mountAs, mountBlock_eq]
  refine Yields.bind (plantBlock_inscribes compiled data hd) ?_
  rintro anchorage h₁ ⟨S, held, copied, inscribed, hd⟩
  rw [← Marked.settled_nil] at hd
  refine Yields.bind (mountSlots_hang hchildren copied capacity hd) ?_
  rintro shown h₂ ⟨guests, hung, hd⟩
  exact Yields.pure ⟨shown, anchorage, S, held, guests, rfl, hung, copied, inscribed, hd⟩

/-- Both blocks have one array of data, or equal arrays of values that are the same as themselves. -/
structure Repeats (data' data : Data) : Prop where
  values : data'.values = data.values
  same : data'.identity = data.identity ∨ ∀ v ∈ data.values, v.same v

namespace Repeats

theorem at_eq (hdata : Repeats data' data) (i : Nat) : data'.at i = data.at i := by
  rw [Data.at, hdata.values, Data.at]

theorem inscribed_eq (hdata : Repeats data' data) (marks : List Template.Mark) (content : Content)
    : Template.inscribed data' marks content = Template.inscribed data marks content := by
  unfold Template.inscribed
  simp only [hdata.at_eq]

theorem updateLocations_eq (hdata : Repeats data' data) (hne : data.identity ≠ data'.identity)
    (references : List NodeId) : updateLocations t references data' data = pure () := by
  have hvalues := hdata.same.resolve_left (Ne.symm hne)
  have hsame : ∀ i, (data.at i).same (data'.at i) := by
    intro i
    rw [hdata.at_eq, Data.at]
    cases hi : data.values[i]? with
    | none => rfl
    | some v => exact hvalues v (List.mem_of_getElem? hi)
  unfold updateLocations
  generalize t.wiring.locations = locations
  induction locations with
  | nil => rfl
  | cons location rest ih =>
    simp only [List.forM_eq_forM, List.forM_cons, hsame, Bool.not_true, Bool.false_eq_true, if_false,
      pure_bind] at ih ⊢
    exact ih

theorem patch_eq (hdata : Repeats data' data) (anchorage : Anchorage) (children next : List (Option View))
    : patch (.block t data children (some anchorage)) (.block t data' next none) = (do
        let state ← t.wiring.slots.foldlM (patchSlot anchorage.references) (children, incomingChildren next)
        return .block t data' state.1 (some anchorage)) := by
  rw [patch, patchAs]
  simp only [ne_eq, not_true_eq_false, if_false]
  split
  . next hne =>
    rw [hdata.updateLocations_eq hne]
    rfl
  . rfl

end Repeats

theorem patchTexts_yields (holding : Holding t data pl anchorage S held guests h)
    (hung : Hung c (S.openings pl.node) (S.openings pl.node) children guests)
    (hdata : Repeats data' data) (hnext : ∀ i, next[i]?.join = (c' i).map ofText)
    (hfrom : ∀ i value, c i = some value ∨ c' i = some value → value.From alloc)
    : (patch (.block t data children (some anchorage)) (.block t data' next none)).Yields h fun w h' =>
        ∃ shown guests', w = .block t data' shown (some anchorage) ∧
          (∀ o ∈ S.openings pl.node, Unshared (S.openings pl.node) c c' o.index →
            Displays (c' o.index) (guests' o.spot)) ∧ Holding t data' pl anchorage S held guests' h' := by
  rw [hdata.patch_eq]
  refine Yields.bind (patchSlots_advance holding.copied hung hnext hfrom holding.shows) ?_
  rintro state h' ⟨guests', hshown, hd⟩
  refine Yields.pure ⟨state.1, guests', rfl, hshown, holding.copied, fun l hl => ?_, hd⟩
  rw [holding.inscribed l hl, hdata.inscribed_eq]

theorem tearDownTexts_yields (compiled : t.Compiled source normalize)
    (holding : Holding t data pl anchorage S held guests h) (children : List (Option View))
    : (View.block t data children (some anchorage)).tearDown.Yields h fun _ h' =>
        h'.document.Shows pl .nil := by
  refine Yields.bind (beforeRemove_yields h _) ?_
  intro _ h₁ heq
  rw [remove]
  refine Yields.bind (discard_whole_yields (heq ▸ holding.shows)
    (compiled.rootIds_settled holding.copied held guests)) ?_
  intro _ h₂ hd
  refine Yields.bind (releaseCallbacks_yields _ _ h₂) ?_
  intro _ h₃ heq
  exact Yields.pure (heq ▸ hd)

def textContents : Option Value → Forest Content
  | none => .nil
  | some value => .leaf (.text value.text)

theorem Holding.contents_eq (holding : Holding t data pl anchorage S held guests h)
    (hshown : ∀ o ∈ S.openings pl.node, Displays (c o.index) (guests o.spot))
    : (S.settled held guests).map (·.2) = Template.fill (fun n => Template.inscribed data n.2 n.1)
        (fun i => textContents (c i)) t.sketch := by
  have hguests : ∀ o ∈ S.openings pl.node,
      (guests o.spot).map (·.2) = textContents (c o.index) := by
    intro o ho
    have := hshown o ho
    cases hc : c o.index with
    | none =>
      rw [hc] at this
      rw [show guests o.spot = .nil from this]
      rfl
    | some value =>
      rw [hc] at this
      obtain ⟨x, hx⟩ := this
      rw [hx]
      rfl
  rw [Marked.map_settled (·.2) (fun i => textContents (c i)) hguests,
    Template.fill_congr (g := fun l => Template.inscribed data l.2 l.1.2) holding.inscribed,
    ← holding.copied.sketch, Template.fill_sketch]

def texts (values : List (Option Value)) : List (Option View) :=
  values.map (·.map ofText)

theorem ofTemplate_texts {values : List (Option Value)} {w : View}
    (h : ofTemplate t data (texts values) = .ok w)
    : ∃ children, w = .block t data children none ∧
        (∀ i : Nat, children[i]?.join = values[i]?.join.map ofText) ∧
          ∀ slot ∈ t.wiring.slots, slot.index < children.length := by
  obtain ⟨children, rfl, -, capacity⟩ := ofTemplate_eq_ok h
  refine ⟨children, rfl, fun i => ?_, capacity⟩
  unfold ofTemplate at h
  obtain ⟨room, -, h⟩ := bind_eq_ok.1 h
  split at h
  . cases h
  . cases h
    rw [← join_getElem?_map, texts]
    by_cases hi : i < (values.map (·.map ofText)).length
    . rw [List.getElem?_append_left hi]
    . rw [List.getElem?_append_right (Nat.le_of_not_lt hi), List.getElem?_eq_none (Nat.le_of_not_lt hi),
        List.getElem?_replicate]
      split <;> rfl

theorem eq_of_length_lt_two {β : Type} {xs : List β} (h : xs.length < 2) {a b : β} (ha : a ∈ xs)
    (hb : b ∈ xs) : a = b := by
  match xs, h with
  | [x], _ => exact (List.mem_singleton.1 ha).trans (List.mem_singleton.1 hb).symm
  | _ :: _ :: _, h => exact absurd h (by simp)

theorem unshared_of_count {root : NodeId} {references : List NodeId} (copied : t.Copied root references S)
    {p : NodeId} {i : Nat}
    (h : 2 ≤ (t.wiring.slots.map (·.index)).count i → c i = none ∧ c' i = none)
    : Unshared (S.openings p) c c' i := by
  by_cases hcount : 2 ≤ (t.wiring.slots.map (·.index)).count i
  . exact .inr (h hcount)
  . refine .inl fun o ho o' ho' hi hi' => ?_
    rw [← copied.indices_eq p, List.count_eq_countP, List.countP_map, List.countP_eq_length_filter] at hcount
    have hmem : ∀ {o}, o ∈ S.openings p → o.index = i →
        o ∈ (S.openings p).filter ((· == i) ∘ (·.index)) :=
      fun ho hi => List.mem_filter.2 ⟨ho, beq_iff_eq.2 hi⟩
    exact eq_of_length_lt_two (Nat.lt_of_not_le hcount) (hmem ho hi) (hmem ho' hi')

end Block

section Theorems

variable {t : Template} {source : String} {normalize : Bool} {data data' : Data}
  {values values' : List (Option Value)} {first next : View} {parent : NodeId} {above : Option NodeId}
  {content : Content} {before after : List NodeId}

/--
A block of a template with texts as children that is patched by one with other texts, and the same data,
looks as this one does when it is mounted at once, unless a child that several places are for is there
before or after. In any case no node of it is left when it is taken out.
-/
theorem patch_texts (compiled : t.Compiled source normalize) (hwf : h.document.WellFormed)
    (hparent : h.document.standing? parent = some ⟨above, before ++ after, content⟩)
    (hfrom : ∀ value, some value ∈ values ++ values' → value.From alloc) (hdata : Repeats data' data)
    (hfirst : ofTemplate t data (texts values) = .ok first)
    (hnext : ofTemplate t data' (texts values') = .ok next)
    : ∃ v₁ h₁ v₂ h₂ v₃ h₃ F₁ F₂,
        run first [next] parent after.head? h = .ok v₁ h₁ ∧
        next.mount parent after.head? h = .ok v₂ h₂ ∧
        h₁.document.below parent = .ok F₁ ∧ h₂.document.below parent = .ok F₂ ∧
        ((∀ i, 2 ≤ (t.wiring.slots.map (·.index)).count i →
          values[i]?.join = none ∧ values'[i]?.join = none) → F₁.map (·.2) = F₂.map (·.2)) ∧
        v₁.tearDown h₁ = .ok v₃ h₃ ∧ h₃.document.WellFormed ∧
        (∀ id, h₃.document.standing? id = h.document.standing? id) ∧
        h₃.document.size = h.document.size := by
  obtain ⟨M, hd⟩ := hwf.exists_place hparent
  obtain ⟨A, B, hbelow⟩ := hd.exists_below
  obtain ⟨children, rfl, hchildren, capacity⟩ := ofTemplate_texts hfirst
  obtain ⟨children', rfl, hchildren', capacity'⟩ := ofTemplate_texts hnext
  have hvalues : ∀ (i : Nat) (value : Value), values[i]?.join = some value ∨ values'[i]?.join = some value →
      value.From alloc := by
    intro i value hvalue
    apply hfrom value
    rw [List.mem_append]
    exact hvalue.imp (fun h => List.mem_of_getElem? (Option.join_eq_some_iff.1 h))
      fun h => List.mem_of_getElem? (Option.join_eq_some_iff.1 h)
  obtain ⟨_, h₀, hmount, shown, anchorage, S, held, guests, rfl, hung, holding⟩ :=
    mountTexts_yields compiled hchildren capacity hd
  obtain ⟨_, h₁, hpatch, shown₁, guests₁, rfl, hshown₁, holding₁⟩ :=
    patchTexts_yields holding hung hdata hchildren' hvalues
  obtain ⟨_, h₂, hfresh, shown₂, anchorage₂, S₂, held₂, guests₂, rfl, hung₂, holding₂⟩ :=
    mountTexts_yields compiled hchildren' capacity' hd
  obtain ⟨v₃, h₃, hdown, hd₃⟩ := tearDownTexts_yields compiled holding₁ shown₁
  refine ⟨_, h₁, _, h₂, v₃, h₃, _, _, ?_, hfresh, hbelow _ _ holding₁.shows, hbelow _ _ holding₂.shows,
    ?_, hdown, hd₃.wellFormed, Document.Holds.standing?_eq hd hd₃,
    (Document.Holds.size_eq hd₃).trans (Document.Holds.size_eq hd).symm⟩
  . refine (bind_run hmount).trans ?_
    rw [List.foldlM_cons]
    exact bind_run hpatch
  . intro hshared
    have hpatched := holding₁.contents_eq (c := fun i => values'[i]?.join) fun o ho =>
      hshown₁ o ho (unshared_of_count holding₁.copied fun hcount => hshared _ hcount)
    have hmounted := holding₂.contents_eq (c := fun i => values'[i]?.join) fun o ho => by
      have := hung₂.shown o ho
      rwa [if_pos ho] at this
    rw [Forest.map_append, Forest.map_append, Forest.map_append, Forest.map_append, hpatched, hmounted]

def madeTexts (t : Template) (values values' : List (Option Value)) (test : View → View → Bool) : Bool :=
  match ofTemplate t ⟨0, []⟩ (texts values), ofTemplate t ⟨1, []⟩ (texts values') with
  | .ok first, .ok next => test first next
  | _, _ => false

theorem exists_madeTexts {test : View → View → Bool} (hmade : madeTexts t values values' test)
    : ∃ first next, ofTemplate t ⟨0, []⟩ (texts values) = .ok first ∧
        ofTemplate t ⟨1, []⟩ (texts values') = .ok next ∧ test first next := by
  unfold madeTexts at hmade
  split at hmade
  . next first next hfirst hnext => exact ⟨first, next, hfirst, hnext, hmade⟩
  . cases hmade

/-- The child that there is has one place, and two places are for the child that there is not. -/
theorem patch_texts_lone
    : ∃ d t first next, d.children ⟨0, 0⟩ = .ok [⟨1, 0⟩] ∧
        t.Compiled "<div><block-child-0/><b><block-child-1/></b><block-child-0/></div>" true ∧
        ofTemplate t ⟨0, []⟩ (texts [none, some (.str "a")]) = .ok first ∧
        ofTemplate t ⟨1, []⟩ (texts [none, some (.str "b")]) = .ok next ∧
        ∃ v₁ h₁ v₂ h₂ v₃ h₃ F₁ F₂,
          run first [next] ⟨0, 0⟩ (some ⟨1, 0⟩) ⟨d, []⟩ = .ok v₁ h₁ ∧
          next.mount ⟨0, 0⟩ (some ⟨1, 0⟩) ⟨d, []⟩ = .ok v₂ h₂ ∧
          h₁.document.below ⟨0, 0⟩ = .ok F₁ ∧ h₂.document.below ⟨0, 0⟩ = .ok F₂ ∧
          F₁.map (·.2) = F₂.map (·.2) ∧ v₁.tearDown h₁ = .ok v₃ h₃ ∧
          h₃.document.size = d.size := by
  obtain ⟨d, c, hrun, hchildren, hparent⟩ := Document.Run.exists_paragraph
  have hparent : d.standing? ⟨0, 0⟩ = some ⟨none, [] ++ [⟨1, 0⟩], c⟩ := hparent
  have hmakes : Template.makes "<div><block-child-0/><b><block-child-1/></b><block-child-0/></div>" true
      fun t => t.wiring.slots.map (·.index) = [0, 1, 0] &&
        madeTexts t [none, some (.str "a")] [none, some (.str "b")] fun _ _ => true := by
    decide +kernel
  obtain ⟨t, ht, htest⟩ := Template.exists_compiled hmakes
  rw [Bool.and_eq_true] at htest
  obtain ⟨hindices, hmade⟩ := htest
  obtain ⟨first, next, hfirst, hnext, -⟩ := exists_madeTexts hmade
  have hfrom : ∀ value : Value, some value ∈ [none, some (.str "a")] ++ [none, some (.str "b")] →
      value.From noData := by
    simp [Value.From]
  have hdata : Repeats ⟨1, []⟩ ⟨0, []⟩ := ⟨rfl, .inr (by simp)⟩
  obtain ⟨v₁, h₁, v₂, h₂, v₃, h₃, F₁, F₂, hpatch, hmount, hF₁, hF₂, hagree, hdown, -, -, hsize⟩ :=
    patch_texts (h := ⟨d, []⟩) ht hrun.wellFormed_and_capacity.1 hparent hfrom hdata hfirst hnext
  refine ⟨d, t, first, next, hchildren, ht, hfirst, hnext, v₁, h₁, v₂, h₂, v₃, h₃, F₁, F₂, hpatch,
    hmount, hF₁, hF₂, hagree ?_, hdown, hsize⟩
  intro i hi
  rw [of_decide_eq_true hindices] at hi
  match i, hi with
  | 0, _ => exact ⟨rfl, rfl⟩
  | 1, hi => simp at hi
  | i + 2, hi => simp at hi

def htmlAfter (x : Engine View) : Option String :=
  match x ⟨(Document.createElement {} "div").2, []⟩ with
  | .ok _ h => (h.document.innerHtml ⟨0, 0⟩).toOption
  | .error _ _ => none

/-- Of two places for one child, a patch leaves the first as it was, and clears the second. -/
theorem patch_texts_shared
    : ∃ t first next, t.Compiled "<div><block-child-0/><p></p><block-child-0/></div>" true ∧
        ofTemplate t ⟨0, []⟩ (texts [some (.str "a")]) = .ok first ∧
        ofTemplate t ⟨1, []⟩ (texts [some (.str "b")]) = .ok next ∧
        htmlAfter (run first [next] ⟨0, 0⟩ none) = some "<div>a<p></p></div>" ∧
        htmlAfter (next.mount ⟨0, 0⟩ none) = some "<div>b<p></p>b</div>" := by
  have hmakes : Template.makes "<div><block-child-0/><p></p><block-child-0/></div>" true
      fun t => madeTexts t [some (.str "a")] [some (.str "b")] fun first next =>
        htmlAfter (run first [next] ⟨0, 0⟩ none) = some "<div>a<p></p></div>" &&
          htmlAfter (next.mount ⟨0, 0⟩ none) = some "<div>b<p></p>b</div>" := by
    decide +kernel
  obtain ⟨t, ht, htest⟩ := Template.exists_compiled hmakes
  obtain ⟨first, next, hfirst, hnext, htest⟩ := exists_madeTexts htest
  rw [Bool.and_eq_true, decide_eq_true_eq, decide_eq_true_eq] at htest
  exact ⟨t, first, next, ht, hfirst, hnext, htest.1, htest.2⟩

end Theorems

end VirtualDom.View
