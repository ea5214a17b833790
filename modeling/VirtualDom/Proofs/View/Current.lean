import VirtualDom.Proofs.View.Revise
import VirtualDom.Proofs.View.Run

/-!
This module contains the proof that blocks stay current: after any run, their nodes hold what they would
hold if the last block had been mounted at once, although only the values that have changed are written.
-/

namespace VirtualDom.View

open Engine
open Document (Place Shows)
open Template (Mark Marked Separate inscribed revised)

variable {alloc : Allocations} {maps : Nat → List (String × Value)} {t : Template} {source : String}
  {normalize : Bool} {pl : Place} {h : Host} {datas : List Data}

/--
The blocks that a render makes of a template with some of the data. Where two places are for one child,
there are no children.
-/
inductive BlockOf (alloc : Allocations) (t : Template) (datas : List Data) : View → Prop
  | made {data : Data} {children : List (Option View)} {view : View} (mem : data ∈ datas)
      (data_from : data.From alloc) (child : ∀ child, some child ∈ children → Built alloc child)
      (places : (t.wiring.slots.map (·.index)).Nodup ∨ ∀ child ∈ children, child = none)
      (made : View.ofTemplate t data children = .ok view) : BlockOf alloc t datas view

/-- A mounted block and its children have all that is at the place, and `Q` is true of its own nodes. -/
def Keeps (alloc : Allocations) (t : Template) (data : Data) (children : List (Option View))
    (Q : Content × List Mark → Content → Prop) (pl : Place) (v : View) (h : Host) : Prop :=
  ∃ root references S held guests shown,
    v = .block t data shown (some ⟨root, references⟩) ∧ t.Copied root references S ∧
      (∀ l ∈ S.labels, Q (l.1.2, l.2) (held l.1.1)) ∧ Housed alloc S pl.node guests shown children ∧
        h.document.Shows pl (S.filled held guests)

section Steps

variable {data old : Data} {children oldChildren shown : List (Option View)} {v : View}
  {Q Q' : Content × List Mark → Content → Prop} {root : NodeId} {references : List NodeId} {S : Marked}
  {held : NodeId → Content} {guests : Nat → Forest (NodeId × Content)}

theorem getElem?_eq_none (copied : t.Copied root references S) (absent : ∀ child ∈ children, child = none)
    (capacity : ∀ slot ∈ t.wiring.slots, slot.index < children.length) (p : NodeId)
    : ∀ o ∈ S.openings p, children[o.index]? = some none := by
  intro o ho
  obtain ⟨slot, hs, hi⟩ := copied.exists_slot ho
  have hlt := hi ▸ capacity slot hs
  rw [List.getElem?_eq_getElem hlt, absent _ (List.getElem_mem hlt)]

theorem mount_keeps (compiled : t.Compiled source normalize)
    (hchild : ∀ w, some w ∈ children → Built alloc w)
    (capacity : ∀ slot ∈ t.wiring.slots, slot.index < children.length)
    (places : (t.wiring.slots.map (·.index)).Nodup ∨ ∀ child ∈ children, child = none)
    (hd : h.document.Shows pl .nil)
    : ((block t data children none).mount pl.node pl.after.head?).Yields h
        (Keeps alloc t data children (fun n c => c = inscribed data n.2 n.1) pl) := by
  unfold mount
  rw [mountAs, mountBlock_eq]
  refine Yields.bind (plantBlock_inscribes compiled data hd) ?_
  rintro ⟨root, references⟩ h₁ ⟨S, held, copied, hheld, hd⟩
  rcases places with indices | absent
  . refine Yields.bind
      (mountSlots_yields copied indices (fun w hw => (hchild w hw).mounts) capacity hd) ?_
    rintro shown h₂ ⟨guests, hosts, hd⟩
    exact Yields.pure ⟨root, references, S, held, guests, shown, rfl, copied, hheld, hosts, hd⟩
  . rw [mountSlots_absent absent]
    have hnone := getElem?_eq_none copied absent capacity pl.node
    exact Yields.pure ⟨root, references, S, held, _, children, rfl, copied, hheld,
      fun o ho => ⟨none, none, hnone o ho, hnone o ho, .absent⟩, hd⟩

theorem patchSlots_keeps (copied : t.Copied root references S)
    (hosts : Housed alloc S pl.node guests shown oldChildren)
    (hchild : ∀ w, some w ∈ children → Built alloc w)
    (capacity : ∀ slot ∈ t.wiring.slots, slot.index < children.length)
    (places : (t.wiring.slots.map (·.index)).Nodup ∨
      (∀ child ∈ oldChildren, child = none) ∧ ∀ child ∈ children, child = none)
    (hcompatible : Compatible (.block t old oldChildren none) (.block t data children none))
    (hd : h.document.Shows pl (S.filled held guests))
    : (t.wiring.slots.foldlM (patchSlot references) (shown, incomingChildren children)).Yields h
        fun state h' => ∃ guests', Housed alloc S pl.node guests' state.1 children ∧
          h'.document.Shows pl (S.filled held guests') := by
  rcases places with indices | ⟨oldAbsent, absent⟩
  . have hmeets : ∀ slot ∈ t.wiring.slots, ∀ (a b : View), shown[slot.index]? = some (some a) →
        children[slot.index]? = some (some b) → Meets True a b := by
      intro slot hs a b ha hb
      obtain ⟨o, ho, hi⟩ := copied.exists_opening hs pl.node
      obtain ⟨w, hw, alike⟩ := hosts.alike ho (hi ▸ ha)
      cases hcompatible with
      | replaced kind => exact absurd rfl kind
      | block hchildren => exact .of_alike alike (hchildren slot hs w b (hi ▸ hw) hb).meets
    exact (patchSlots_gives copied indices
      (fun w hw => ⟨(hchild w hw).mounts, (hchild w hw).patches True⟩) capacity (hosts.capacity copied)
      (fun o ho v hv => (hosts.draws ho hv).1) (fun o ho v hv => (hosts.draws ho hv).2)
      (fun o ho hv => hosts.eq_nil ho hv) hmeets hd).yields trivial
  . have oldNone : ∀ o ∈ S.openings pl.node, shown[o.index]? = some none := by
      intro o ho
      obtain ⟨v, w, hv, hw, hosted⟩ := hosts o ho
      obtain rfl := oldAbsent w (List.mem_of_getElem? hw)
      cases v with
      | none => exact hv
      | some v => cases hosted
    have hnone := getElem?_eq_none copied absent capacity pl.node
    have hslots : ∃ rest, t.wiring.slots.foldlM (patchSlot references)
        (shown, incomingChildren children) = pure (shown, rest) := by
      refine patchSlots_absent ?_ ?_
      . intro slot hs
        obtain ⟨o, ho, hi⟩ := copied.exists_opening hs pl.node
        rw [hi, oldNone o ho]
        rfl
      . intro i
        rw [incomingChildren_getElem?]
        cases hi : children[i]? with
        | none => rfl
        | some child =>
          rw [absent child (List.mem_of_getElem? hi)]
          rfl
    obtain ⟨rest, hrest⟩ := hslots
    rw [hrest]
    refine Yields.pure ⟨guests, fun o ho => ?_, hd⟩
    exact ⟨none, none, oldNone o ho, hnone o ho, hosts.eq_nil ho (oldNone o ho) ▸ .absent⟩

theorem patch_keeps (hkeeps : Keeps alloc t old oldChildren Q pl v h)
    (hchild : ∀ w, some w ∈ children → Built alloc w)
    (capacity : ∀ slot ∈ t.wiring.slots, slot.index < children.length)
    (places : (t.wiring.slots.map (·.index)).Nodup ∨
      (∀ child ∈ oldChildren, child = none) ∧ ∀ child ∈ children, child = none)
    (hcompatible : Compatible (.block t old oldChildren none) (.block t data children none))
    (hkept : ∀ n c, old.identity = data.identity → Q n c → Q' n c)
    (hrevised : ∀ root references S, t.Copied root references S → ∀ l ∈ S.labels, ∀ c,
      Q (l.1.2, l.2) c → Q' (l.1.2, l.2) (revised data old l.2 c))
    : (patch v (.block t data children none)).Yields h (Keeps alloc t data children Q' pl) := by
  obtain ⟨root, references, S, held, guests, shown, rfl, copied, hheld, hosts, hd⟩ := hkeeps
  unfold patch
  rw [patchAs]
  simp only [ne_eq, not_true_eq_false, if_false]
  split
  . refine Yields.bind (updateLocations_revises copied data old hd) ?_
    rintro _ h₁ ⟨held', hheld', hd⟩
    refine Yields.bind (patchSlots_keeps copied hosts hchild capacity places hcompatible hd) ?_
    rintro ⟨shown', rest⟩ h₂ ⟨guests', hosts', hd⟩
    refine Yields.pure ⟨root, references, S, held', guests', shown', rfl, copied, ?_, hosts', hd⟩
    intro l hl
    rw [hheld' l hl]
    exact hrevised root references S copied l hl _ (hheld l hl)
  . next hsame =>
    refine Yields.bind (patchSlots_keeps copied hosts hchild capacity places hcompatible hd) ?_
    rintro ⟨shown', rest⟩ h₂ ⟨guests', hosts', hd⟩
    exact Yields.pure ⟨root, references, S, held, guests', shown', rfl, copied,
      fun l hl => hkept _ _ (not_not.1 hsame) (hheld l hl), hosts', hd⟩

end Steps

section Runs

variable {v w first : View} {later : List View}

theorem BlockOf.exists_eq (hw : BlockOf alloc t datas w)
    : ∃ data children, w = .block t data children none ∧ data ∈ datas ∧ data.From alloc ∧
        (∀ w, some w ∈ children → Built alloc w) ∧
        (∀ slot ∈ t.wiring.slots, slot.index < children.length) ∧
        ((t.wiring.slots.map (·.index)).Nodup ∨ ∀ child ∈ children, child = none) := by
  obtain ⟨mem, data_from, child, places, made⟩ := hw
  obtain ⟨children', rfl, hmem, capacity⟩ := ofTemplate_eq_ok made
  refine ⟨_, children', rfl, mem, data_from, fun w hw => child w (hmem w hw), capacity, ?_⟩
  refine places.imp_right fun absent c hc => ?_
  cases c with
  | none => rfl
  | some w => exact absent _ (hmem w hc)

/-- The nodes of the mounted block agree with those of `w`, had that been mounted instead. -/
def Current (alloc : Allocations) (t : Template) (w : View) (pl : Place) (v : View) (h : Host) : Prop :=
  ∃ data children, w = .block t data children none ∧
    Keeps alloc t data children (fun n c => c.Agrees (inscribed data n.2 n.1)) pl v h

variable (hmaps : ∀ data ∈ datas, ∀ v ∈ data.values, v.MapFrom alloc maps)
  (separate : ∀ n ∈ t.sketch.labels, ∀ e, n.1 = .element e → Separate datas e (Mark.sources n.2))

theorem mount_current (compiled : t.Compiled source normalize) (hw : BlockOf alloc t datas w)
    (hd : h.document.Shows pl .nil) : (w.mount pl.node pl.after.head?).Yields h (Current alloc t w pl) := by
  obtain ⟨data, children, rfl, -, -, hchild, capacity, places⟩ := hw.exists_eq
  refine (mount_keeps compiled hchild capacity places hd).mono ?_
  rintro v h' ⟨root, references, S, held, guests, shown, rfl, copied, hheld, hosts, hd⟩
  refine ⟨data, children, rfl, root, references, S, held, guests, shown, rfl, copied, ?_, hosts, hd⟩
  intro l hl
  rw [hheld l hl]
  exact .refl _

include hmaps separate

theorem patch_current (hv : Current alloc t w pl v h) (hw : BlockOf alloc t datas w) {next : View}
    (hnext : BlockOf alloc t datas next) (hcompatible : Compatible w next)
    : (patch v next).Yields h (Current alloc t next pl) := by
  obtain ⟨old, oldChildren, rfl, hkeeps⟩ := hv
  obtain ⟨_, _, heq, old_mem, old_from, -, -, oldPlaces⟩ := hw.exists_eq
  cases heq
  obtain ⟨data, children, rfl, mem, data_from, hchild, capacity, places⟩ := hnext.exists_eq
  have hmaps : ∀ data ∈ datas, ∀ i, (data.at i).MapFrom alloc maps := by
    intro data hdata i
    unfold Data.at
    cases hi : data.values[i]? with
    | none => trivial
    | some v => exact hmaps data hdata v (List.mem_of_getElem? hi)
  refine (patch_keeps hkeeps hchild capacity ?_ hcompatible ?_ ?_).mono fun v h' hkeeps =>
    ⟨data, children, rfl, hkeeps⟩
  . rcases oldPlaces with indices | oldAbsent
    . exact .inl indices
    . exact places.imp_right fun absent => ⟨oldAbsent, absent⟩
  . intro n c heq hc
    have hat := old_from.at_eq data_from heq
    simpa only [inscribed, hat] using hc
  . intro root references S copied l hl c hc
    exact Template.revised_agrees copied.tidy hl data_from old_from (hmaps data mem) (hmaps old old_mem)
      mem old_mem (separate _ (copied.mem_labels hl)) hc

theorem run_yields_current (compiled : t.Compiled source normalize)
    (hblocks : ∀ w ∈ first :: later, BlockOf alloc t datas w)
    (hchain : (first :: later).IsChain Compatible) (hd : h.document.Shows pl .nil)
    : (run first later pl.node pl.after.head?).Yields h (Current alloc t (later.getLastD first) pl) := by
  refine Yields.bind (mount_current compiled (hblocks first List.mem_cons_self) hd) ?_
  intro v h' hv
  clear hd
  induction later generalizing first v h' with
  | nil => exact Yields.pure hv
  | cons next later ih =>
    obtain ⟨hcompatible, hchain⟩ := List.isChain_cons_cons.1 hchain
    obtain ⟨hfirst, hlater⟩ := List.forall_mem_cons.1 hblocks
    rw [List.foldlM_cons, List.getLastD_cons]
    refine Yields.bind (patch_current hmaps separate hv hfirst (hlater next List.mem_cons_self)
      hcompatible) ?_
    intro v' h'' hv
    exact ih hlater hchain v' h'' hv

end Runs

section Theorems

variable {first : View} {later : List View} {parent : NodeId} {above : Option NodeId} {content : Content}
  {before after : List NodeId}

/--
After any run of blocks of a template, each of their nodes agrees with the one that would be in its place
if the last block had been mounted at once, where values do not get in each other's way.
-/
theorem run_agrees_mount (compiled : t.Compiled source normalize) (hwf : h.document.WellFormed)
    (hparent : h.document.standing? parent = some ⟨above, before ++ after, content⟩)
    (hmaps : ∀ data ∈ datas, ∀ v ∈ data.values, v.MapFrom alloc maps)
    (separate : ∀ n ∈ t.sketch.labels, ∀ e, n.1 = .element e → Separate datas e (Mark.sources n.2))
    (hblocks : ∀ w ∈ first :: later, BlockOf alloc t datas w)
    (hchain : (first :: later).IsChain Compatible)
    : ∃ v₁ h₁ v₂ h₂ A B, ∃ S₁ S₂ : Marked, ∃ held₁ held₂ guests₁ guests₂,
        run first later parent after.head? h = .ok v₁ h₁ ∧
        (later.getLastD first).mount parent after.head? h = .ok v₂ h₂ ∧
        h₁.document.below parent = .ok (A ++ S₁.filled held₁ guests₁ ++ B) ∧
        h₂.document.below parent = .ok (A ++ S₂.filled held₂ guests₂ ++ B) ∧
        S₁.sketch = t.sketch ∧ S₂.sketch = t.sketch ∧
        List.Forall₂ (fun l₁ l₂ => (held₁ l₁.1.1).Agrees (held₂ l₂.1.1)) S₁.labels S₂.labels := by
  obtain ⟨M, hd⟩ := hwf.exists_place hparent
  obtain ⟨A, B, hbelow⟩ := hd.exists_below
  have hlast : BlockOf alloc t datas (later.getLastD first) := hblocks _ List.getLastD_mem_cons
  obtain ⟨v₁, h₁, hrun, data, children, heq, _, _, S₁, held₁, guests₁, _, -, copied₁, hheld₁, -, hd₁⟩ :=
    run_yields_current hmaps separate compiled hblocks hchain hd
  obtain ⟨_, _, heq₂, -, -, hchild, capacity, places⟩ := hlast.exists_eq
  cases heq.symm.trans heq₂
  have hmount : ((later.getLastD first).mount parent after.head?).Yields h _ :=
    heq ▸ mount_keeps compiled hchild capacity places hd
  obtain ⟨v₂, h₂, hmount, _, _, S₂, held₂, guests₂, _, -, copied₂, hheld₂, -, hd₂⟩ := hmount
  refine ⟨v₁, h₁, v₂, h₂, A, B, S₁, S₂, held₁, held₂, guests₁, guests₂, hrun, hmount, hbelow _ _ hd₁,
    hbelow _ _ hd₂, copied₁.sketch, copied₂.sketch, ?_⟩
  have hlabels := congrArg Forest.labels (copied₁.sketch.trans copied₂.sketch.symm)
  rw [Marked.sketch, Marked.sketch, Forest.labels_map, Forest.labels_map] at hlabels
  refine forall₂_of_map_eq hlabels fun l₁ hl₁ l₂ hl₂ heq => ?_
  have heq : (l₁.1.2, l₁.2) = (l₂.1.2, l₂.2) := heq
  rw [hheld₂ l₂ hl₂, ← heq]
  exact hheld₁ l₁ hl₁

def attire : List Data :=
  [⟨0, [.str "b", .map 0 [("lang", .str "en")], .handler 0 "go"]⟩,
    ⟨1, [.map 1 [("c", .bool true)], .null, .handler 1 "went"]⟩]

def attireData : Allocations where
  items := fun _ => []
  display := fun _ => ""
  data := fun i => (attire[i]?.map Data.values).getD []

def attireMaps (i : Nat) : List (String × Value) :=
  if i = 0 then [("lang", .str "en")] else [("c", .bool true)]

theorem separate_attire {e : Element} (he : e.attributes = [("class", "a")])
    : Separate attire e [(0, .classes), (1, .bag), (2, .handler "click")] := by
  have hclasses : e.classes = ["a"] := by
    rw [Element.classes, he]
    decide +kernel
  have htokens : ∀ data ∈ attire, ∀ token ∈ (data.at 0).classTokens, token ≠ "a" := by
    decide +kernel
  refine ⟨by decide, ?_⟩
  simp only [List.forall_mem_cons]
  refine ⟨fun data hdata token ht hmem => htokens data hdata token ht ?_, ?_, fun _ _ => trivial, by simp⟩
  . simpa [hclasses] using hmem
  . simp [attire, Template.Binding.Fits, Value.IsNullOrMap, Template.Binding.bagEntries, Dict.keys, he,
      Dict.get?, Data.at]

def dresses (t : Template) : Bool :=
  t.wiring.slots.isEmpty && t.sketch.labels.all fun n =>
    match n.1 with
    | .element e => e.attributes = [("class", "a")] &&
      Mark.sources n.2 = [(0, .classes), (1, .bag), (2, .handler "click")]
    | _ => true

theorem run_agrees_mount_attire
    : ∃ t : Template,
        t.Compiled "<p class='a' block-attribute-0='class' block-attributes='1' block-handler-2='click'/>"
          true ∧
        ∃ data₁ data₂, attire = [data₁, data₂] ∧
        ∃ v₁ h₁ v₂ h₂ A B, ∃ S₁ S₂ : Marked, ∃ held₁ held₂ guests₁ guests₂,
          run (.block t data₁ [] none) [.block t data₂ [] none] ⟨0, 0⟩ none .paragraph = .ok v₁ h₁ ∧
          (View.block t data₂ [] none).mount ⟨0, 0⟩ none .paragraph = .ok v₂ h₂ ∧
          h₁.document.below ⟨0, 0⟩ = .ok (A ++ S₁.filled held₁ guests₁ ++ B) ∧
          h₂.document.below ⟨0, 0⟩ = .ok (A ++ S₂.filled held₂ guests₂ ++ B) ∧
          S₁.sketch = t.sketch ∧ S₂.sketch = t.sketch ∧
          List.Forall₂ (fun l₁ l₂ => (held₁ l₁.1.1).Agrees (held₂ l₂.1.1)) S₁.labels S₂.labels := by
  have hmakes : Template.makes
      "<p class='a' block-attribute-0='class' block-attributes='1' block-handler-2='click'/>" true
      dresses := by
    decide +kernel
  obtain ⟨t, ht, htest⟩ := Template.exists_compiled hmakes
  rw [dresses, Bool.and_eq_true, List.isEmpty_iff] at htest
  obtain ⟨hslots, hlabels⟩ := htest
  have hfrom : ∀ data ∈ attire, data.From attireData := by
    have hvalues : ∀ data ∈ attire, data.values = attireData.data data.identity ∧
        ∀ v ∈ data.values, v.From attireData := by
      simp [attire, attireData, Value.From]
    exact fun data hdata => ⟨(hvalues data hdata).1, (hvalues data hdata).2⟩
  have hblock : ∀ data ∈ attire, BlockOf attireData t attire (.block t data [] none) := by
    intro data hdata
    have hmade : ofTemplate t data [] = .ok (.block t data [] none) := by
      simp [ofTemplate, Template.Wiring.childCapacity, hslots, childLimit]
      rfl
    exact .made hdata (hfrom data hdata) (by simp) (.inr (by simp)) hmade
  have hmaps : ∀ data ∈ attire, ∀ v ∈ data.values, v.MapFrom attireData attireMaps := by
    simp [attire, Value.MapFrom, attireMaps, Dict.keys, Value.From]
  have separate : ∀ n ∈ t.sketch.labels, ∀ e, n.1 = .element e →
      Separate attire e (Mark.sources n.2) := by
    intro n hn e he
    have hlabel := List.all_eq_true.1 hlabels n hn
    simp only [he, Bool.and_eq_true, decide_eq_true_eq] at hlabel
    obtain ⟨hattributes, hsources⟩ := hlabel
    rw [hsources]
    exact separate_attire hattributes
  have hblocks : ∀ w ∈ [View.block t attire[0] [] none, View.block t attire[1] [] none],
      BlockOf attireData t attire w :=
    List.forall_mem_cons.2 ⟨hblock _ (List.getElem_mem _), by simpa using hblock _ (List.getElem_mem _)⟩
  have hchain : [View.block t attire[0] [] none, View.block t attire[1] [] none].IsChain Compatible :=
    .cons_cons (.block (by simp)) (.singleton _)
  have hwf := Host.paragraph_run.wellFormed_and_capacity.1
  have hparent : Host.paragraph.document.standing? ⟨0, 0⟩
      = some ⟨none, [] ++ [], .element { tag := "p" }⟩ := rfl
  exact ⟨t, ht, attire[0], attire[1], rfl,
    run_agrees_mount ht hwf hparent hmaps separate hblocks hchain⟩

def mixes (t : Template) : Bool :=
  t.wiring.locations.map (·.binding) = [.handler "click", .handler "click"] &&
    match run (.block t ⟨0, [.str "a", .str "b"]⟩ [] none) [.block t ⟨1, [.str "c", .str "b"]⟩ [] none]
        ⟨0, 0⟩ none .paragraph,
      (View.block t ⟨1, [.str "c", .str "b"]⟩ [] none).mount ⟨0, 0⟩ none .paragraph with
    | .ok v₁ h₁, .ok v₂ h₂ =>
      v₁.firstNode = some ⟨1, 0⟩ && v₂.firstNode = some ⟨1, 0⟩ &&
        match h₁.document.handler? ⟨1, 0⟩ "click", h₂.document.handler? ⟨1, 0⟩ "click" with
        | .ok (some (.str s₁)), .ok (some (.str s₂)) => s₁ = "c" && s₂ = "b"
        | _, _ => false
    | _, _ => false

/--
Where two payloads are for one event, the one that has changed last is there after a run, but the one that
is written last after a mount.
-/
theorem run_mixes_payloads
    : ∃ t : Template,
        t.Compiled "<p block-handler-0='click' block-handler-1='click'></p>" true ∧
        t.wiring.locations.map (·.binding) = [.handler "click", .handler "click"] ∧
        ∃ v₁ h₁ v₂ h₂,
          run (.block t ⟨0, [.str "a", .str "b"]⟩ [] none) [.block t ⟨1, [.str "c", .str "b"]⟩ [] none]
            ⟨0, 0⟩ none .paragraph = .ok v₁ h₁ ∧
          (View.block t ⟨1, [.str "c", .str "b"]⟩ [] none).mount ⟨0, 0⟩ none .paragraph = .ok v₂ h₂ ∧
          v₁.firstNode = some ⟨1, 0⟩ ∧ v₂.firstNode = some ⟨1, 0⟩ ∧
          h₁.document.handler? ⟨1, 0⟩ "click" = .ok (some (.str "c")) ∧
          h₂.document.handler? ⟨1, 0⟩ "click" = .ok (some (.str "b")) := by
  have hmakes : Template.makes "<p block-handler-0='click' block-handler-1='click'></p>" true mixes := by
    decide +kernel
  obtain ⟨t, ht, htest⟩ := Template.exists_compiled hmakes
  unfold mixes at htest
  rw [Bool.and_eq_true] at htest
  obtain ⟨hlocations, htest⟩ := htest
  split at htest
  . next v₁ h₁ v₂ h₂ hrun hmount =>
    simp only [Bool.and_eq_true, decide_eq_true_eq] at htest
    obtain ⟨⟨hfirst₁, hfirst₂⟩, htest⟩ := htest
    split at htest
    . next s₁ s₂ hclick₁ hclick₂ =>
      simp only [Bool.and_eq_true, decide_eq_true_eq] at htest
      obtain ⟨rfl, rfl⟩ := htest
      exact ⟨t, ht, of_decide_eq_true hlocations, v₁, h₁, v₂, h₂, hrun, hmount, hfirst₁, hfirst₂,
        hclick₁, hclick₂⟩
    . cases htest
  . cases htest

end Theorems

end VirtualDom.View
