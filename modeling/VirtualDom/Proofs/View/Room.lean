import Mathlib.Logic.Relation
import VirtualDom.Proofs.View.Bag
import VirtualDom.Proofs.View.Data
import VirtualDom.Proofs.View.Ledger
import VirtualDom.Proofs.View.Matching

/-!
This module contains the room that blocks have for their children: one more than the largest index of a
slot, if that is an index. No slot is out of range in any later use of a block that was made with it.
-/

namespace VirtualDom

open Engine

namespace Engine

/-- Every result of the action has `P`, whatever host it runs in. -/
def Returns {α : Type} (x : Engine α) (P : α → Prop) : Prop :=
  ∀ h a h', x h = .ok a h' → P a

namespace Returns

variable {α β γ : Type} {x : Engine α} {f : α → Engine β} {P : α → Prop} {Q : β → Prop}

theorem pure {a : α} (ha : P a) : Returns (Pure.pure a) P := by
  rintro h _ h' ⟨⟩
  exact ha

theorem throw (e : Fault) : Returns (MonadExcept.throw e : Engine α) P :=
  nofun

theorem bind (hx : Returns x P) (hf : ∀ a, P a → Returns (f a) Q) : Returns (x >>= f) Q := by
  intro h b h' hrun
  obtain ⟨a, t, ha, hb⟩ := bind_eq_result.1 hrun
  exact hf a (hx h a t ha) t b h' hb

theorem after (hf : ∀ a, Returns (f a) Q) : Returns (x >>= f) Q :=
  bind (P := fun _ => True) (fun _ _ _ _ => trivial) fun a _ => hf a

theorem bind_congr {g : α → Engine β} (hx : Returns x P) (hfg : ∀ a, P a → f a = g a) : x >>= f = x >>= g := by
  funext h
  simp only [Bind.bind, EStateM.bind]
  cases hr : x h with
  | error e h' => rfl
  | ok a h' => exact congrFun (hfg a (hx h a h' hr)) h'

theorem foldlM {g : α → γ → Engine α} {xs : List γ} {a : α} (ha : P a)
    (hg : ∀ x ∈ xs, ∀ a, P a → Returns (g a x) P) : Returns (xs.foldlM g a) P := by
  induction xs generalizing a with
  | nil => exact pure ha
  | cons x xs ih =>
    rw [List.foldlM_cons]
    exact (hg x List.mem_cons_self a ha).bind fun a ha => ih ha fun y hy => hg y (List.mem_cons_of_mem _ hy)

end Returns
end Engine

namespace Template

variable {t : Template} {source : String} {normalize : Bool}

theorem index_lt {digits marker : String} {n : Nat} (h : index digits marker = .ok n) : n < indexLimit := by
  unfold index at h
  dsimp only at h
  split at h
  . cases h
  . next hgood =>
    cases h
    simp only [Bool.or_eq_true, decide_eq_true_eq, not_or] at hgood
    omega

theorem MarksChild.index_lt {m : Markup} {n : Nat} (h : MarksChild m n) : n < indexLimit := by
  obtain ⟨tag, -, -, hchild⟩ := h
  unfold tagMarker? at hchild
  split at hchild
  . next digits _ =>
    cases hindex : index digits tag with
    | error e => simp [hindex, Except.map] at hchild
    | ok n => simp [hindex, Except.map] at hchild
  . split at hchild
    . next digits _ =>
      cases hindex : index digits tag with
      | error e => simp [hindex, Except.map] at hchild
      | ok k =>
        simp only [hindex, Except.map, Function.comp_apply, Except.ok.injEq, Option.some.injEq,
          TagMarker.child.injEq] at hchild
        exact hchild ▸ Template.index_lt hindex
    . cases hchild

theorem Compiled.slot_index_lt (compiled : t.Compiled source normalize)
    : ∀ slot ∈ t.wiring.slots, slot.index < indexLimit := by
  obtain ⟨item, children, hm, -⟩ := compiled.drafts
  exact fun slot hs => (compiled.marksChild hm slot hs).index_lt

namespace Wiring

/-- One more than the largest index of the slots, or zero if there is none. -/
def IsCapacity (slots : List ChildSlot) (n : Nat) : Prop :=
  (slots = [] ∧ n = 0) ∨
    ∃ slot ∈ slots, n = slot.index + 1 ∧ ∀ other ∈ slots, other.index ≤ slot.index

variable {w : Wiring} {slots : List ChildSlot} {n : Nat}

theorem IsCapacity.lt (h : IsCapacity slots n) : ∀ slot ∈ slots, slot.index < n := by
  intro slot hs
  rcases h with ⟨rfl, -⟩ | ⟨last, -, rfl, hlast⟩
  . cases hs
  . exact Nat.lt_succ_of_le (hlast slot hs)

theorem IsCapacity.unique {n' : Nat} (h : IsCapacity slots n) (h' : IsCapacity slots n') : n = n' := by
  rcases h with ⟨rfl, rfl⟩ | ⟨last, hs, rfl, hlast⟩
  . rcases h' with ⟨-, rfl⟩ | ⟨_, hs, -⟩
    . rfl
    . cases hs
  . rcases h' with ⟨rfl, -⟩ | ⟨last', hs', rfl, hlast'⟩
    . cases hs
    . have := hlast last' hs'
      have := hlast' last hs
      omega

theorem isCapacity_foldl (slots : List ChildSlot)
    : IsCapacity slots ((slots.map (·.index + 1)).foldl max 0) := by
  by_cases hne : slots.map (·.index + 1) = []
  . exact .inl ⟨List.map_eq_nil_iff.1 hne, by rw [hne]; rfl⟩
  . have hmax : (slots.map (·.index + 1)).foldl max 0 = (slots.map (·.index + 1)).max hne := by
      rw [List.foldl_max_eq_max hne, Nat.zero_max]
    obtain ⟨slot, hs, hslot⟩ := List.mem_map.1 (List.max_mem hne)
    refine .inr ⟨slot, hs, hmax.trans hslot.symm, ?_⟩
    intro other ho
    have hle := List.le_max_of_mem (List.mem_map_of_mem (f := (·.index + 1)) ho)
    rw [← hslot] at hle
    omega

theorem childCapacity_eq_ok
    : w.childCapacity = .ok n
        ↔ (∀ slot ∈ w.slots, slot.index + 1 < indexLimit) ∧ IsCapacity w.slots n := by
  unfold childCapacity
  split
  . next hany =>
    obtain ⟨slot, hs, hlarge⟩ := List.any_eq_true.1 hany
    simp only [reduceCtorEq, false_iff, not_and]
    intro hsmall
    exact absurd (hsmall slot hs) (Nat.not_lt.2 (of_decide_eq_true hlarge))
  . next hany =>
    have hsmall : ∀ slot ∈ w.slots, slot.index + 1 < indexLimit := by
      intro slot hs
      have := List.any_eq_false.1 (Bool.not_eq_true _ ▸ hany) slot hs
      simpa using this
    constructor
    . intro h
      cases h
      exact ⟨hsmall, isCapacity_foldl w.slots⟩
    . rintro ⟨-, h⟩
      rw [h.unique (isCapacity_foldl w.slots)]

theorem childCapacity_eq_error
    : w.childCapacity = .error .indexOverflow ↔ ∃ slot ∈ w.slots, indexLimit ≤ slot.index + 1 := by
  unfold childCapacity
  split
  . next hany => simpa using hany
  . next hany => simpa using hany

end Wiring
end Template

/-- Templates that are told by their sources, as those of a session are. -/
structure Library where
  Has : Template → Prop
  eq_of_source : ∀ s t, Has s → Has t → s.source = t.source → s = t

namespace View

open Template (ChildSlot)

/-- All blocks in the view are of known templates, and have a place among their children for each slot. -/
inductive Roomy (lib : Library) : View → Prop
  | text {value : Value} {node parent : Option NodeId} : Roomy lib (.text value node parent)
  | html {markup : String} {content : List NodeId} {parent : Option NodeId} :
      Roomy lib (.html markup content parent)
  | list {items : List (Key × View)} {anchor parent : Option NodeId} {sole : Bool}
      (item : ∀ i ∈ items, Roomy lib i.2) : Roomy lib (.list items anchor parent sole)
  | multi {children : List (Option View)} {standIns : List (Option NodeId)} {parent : Option NodeId}
      {sole : Bool} (child : ∀ v, some v ∈ children → Roomy lib v) :
      Roomy lib (.multi children standIns parent sole)
  | toggler {key : Key} {child : View} {parent : Option NodeId} (inner : Roomy lib child) :
      Roomy lib (.toggler key child parent)
  | component {name : String} {child : Option View} {node : Option NodeId}
      (inner : ∀ v, child = some v → Roomy lib v) : Roomy lib (.component name child node)
  | ghost : Roomy lib .ghost
  | block {template : Template} {data : Data} {children : List (Option View)}
      {mounted : Option Anchorage} (known : lib.Has template)
      (room : ∀ slot ∈ template.wiring.slots, slot.index < children.length)
      (child : ∀ v, some v ∈ children → Roomy lib v) :
      Roomy lib (.block template data children mounted)

variable {lib : Library} {v w : View} {items : List (Key × View)}
  {children : List (Option View)} {parent : NodeId} {anchor : Option NodeId} {n : Nat}

theorem Roomy.withSole (hv : Roomy lib v) (sole : Bool) : Roomy lib (v.withSole sole) := by
  cases hv with
  | list item => exact .list item
  | multi child => exact .multi child
  | text => exact .text
  | html => exact .html
  | toggler inner => exact .toggler inner
  | component inner => exact .component inner
  | ghost => exact .ghost
  | block known room child => exact .block known room child

/-- There are `n` places of children, with roomy views in them. -/
structure RoomyChildren (lib : Library) (n : Nat) (children : List (Option View)) : Prop where
  length : children.length = n
  child : ∀ v, some v ∈ children → Roomy lib v

theorem RoomyChildren.set {new : Option View} (h : RoomyChildren lib n children)
    (hnew : ∀ v, new = some v → Roomy lib v) (index : Nat)
    : RoomyChildren lib n (children.set index new) := by
  constructor
  . rw [List.length_set, h.length]
  . intro v hv
    rcases List.mem_or_eq_of_mem_set hv with hv | hv
    . exact h.child v hv
    . exact hnew v hv.symm

section Mount

theorem mountSlots_roomy {references : List NodeId} {mountings : List (Option Mounting)}
    (hm : ∀ m, some m ∈ mountings → ∀ sole parent anchor, Returns (m sole parent anchor) (Roomy lib))
    (slots : List ChildSlot) (h : RoomyChildren lib n children)
    : Returns (slots.foldlM (mountSlot references mountings) children) (RoomyChildren lib n) := by
  refine .foldlM h fun slot _ children h => ?_
  unfold mountSlot
  split
  . exact .pure h
  . next m hslot =>
    have hmem : some m ∈ mountings := List.mem_of_getElem? (Option.join_eq_some_iff.1 hslot)
    refine .after fun parent => .after fun anchor => ?_
    refine (hm m hmem slot.sole parent anchor).bind fun child hchild => .pure (h.set ?_ _)
    rintro _ ⟨⟩
    exact hchild

mutual

theorem mountAs_roomy : ∀ {v : View}, Roomy lib v → ∀ (sole : Bool) (parent : NodeId)
    (anchor : Option NodeId), Returns (v.mountAs sole parent anchor) (Roomy lib)
  | .block template data children _, hv, _, parent, anchor => by
    cases hv with
    | block known room child =>
    rw [mountAs]
    unfold mountBlock
    refine .after fun nodes => ?_
    cases nodes with
    | nil => exact .throw _
    | cons root _ =>
      refine .after fun _ => .after fun references => .after fun _ => ?_
      refine (mountSlots_roomy (mountings_roomy child) _ ⟨rfl, child⟩).bind fun children' h => .pure ?_
      exact .block known (fun slot hs => h.length ▸ room slot hs) h.child
  | .text value _ _, _, _, parent, anchor => by
    rw [mountAs]
    exact .after fun _ => .after fun _ => .pure .text
  | .html markup _ _, _, _, parent, anchor => by
    rw [mountAs]
    exact .after fun _ => .after fun _ => .pure .html
  | .list items _ _ _, hv, _, parent, anchor => by
    cases hv with
    | list item =>
    rw [mountAs]
    exact .after fun _ => (mountItems_roomy item _ _).bind fun _ h => .pure (.list h)
  | .multi children _ _ _, hv, _, parent, anchor => by
    cases hv with
    | multi child =>
    rw [mountAs]
    exact (mountChildren_roomy child _ _).bind fun _ h => .pure (.multi h)
  | .toggler key child _, hv, _, parent, anchor => by
    cases hv with
    | toggler inner =>
    rw [mountAs]
    exact (mountAs_roomy inner _ _ _).bind fun _ h => .pure (.toggler h)
  | .component name none _, _, _, parent, anchor => by
    rw [mountAs]
    exact .after fun _ => .after fun _ => .after fun _ => .after fun _ => .pure (.component (by simp))
  | .component name (some child) _, hv, _, parent, anchor => by
    cases hv with
    | component inner =>
    rw [mountAs]
    refine .after fun node => .after fun _ => .after fun _ => .after fun _ => ?_
    refine (mountAs_roomy (inner child rfl) _ node none).bind fun _ h => .pure (.component ?_)
    rintro _ ⟨⟩
    exact h
  | .ghost, _, _, _, _ => by
    rw [mountAs]
    exact .after fun _ => .pure .ghost

theorem mountings_roomy : ∀ {children : List (Option View)},
    (∀ v, some v ∈ children → Roomy lib v) → ∀ m, some m ∈ mountings children →
      ∀ sole parent anchor, Returns (m sole parent anchor) (Roomy lib)
  | [], _, m, hm => nomatch hm
  | none :: rest, hchildren, m, hm => by
    rw [mountings, List.mem_cons] at hm
    exact mountings_roomy (fun v hv => hchildren v (List.mem_cons_of_mem _ hv)) m (hm.resolve_left nofun)
  | some child :: rest, hchildren, m, hm => by
    rw [mountings, List.mem_cons] at hm
    rcases hm with hm | hm
    . cases hm
      exact mountAs_roomy (hchildren child List.mem_cons_self)
    . exact mountings_roomy (fun v hv => hchildren v (List.mem_cons_of_mem _ hv)) m hm

theorem mountItems_roomy : ∀ {items : List (Key × View)}, (∀ i ∈ items, Roomy lib i.2) →
    ∀ parent anchor, Returns (mountItems parent anchor items) fun items' => ∀ i ∈ items', Roomy lib i.2
  | [], _, _, _ => by
    rw [mountItems]
    exact .pure nofun
  | (key, item) :: rest, hitems, parent, anchor => by
    rw [mountItems]
    refine (mountAs_roomy (hitems _ List.mem_cons_self) _ _ _).bind fun item hitem => ?_
    refine (mountItems_roomy (fun i hi => hitems i (List.mem_cons_of_mem _ hi)) _ _).bind fun items h => ?_
    exact .pure (List.forall_mem_cons.2 ⟨hitem, h⟩)

theorem mountChildren_roomy : ∀ {children : List (Option View)},
    (∀ v, some v ∈ children → Roomy lib v) → ∀ parent anchor,
      Returns (mountChildren parent anchor children) fun places => ∀ v, some v ∈ places.1 → Roomy lib v
  | [], _, _, _ => by
    rw [mountChildren]
    exact .pure nofun
  | none :: rest, hchildren, parent, anchor => by
    rw [mountChildren]
    refine .after fun node => ?_
    have hrest := mountChildren_roomy (fun v hv => hchildren v (List.mem_cons_of_mem _ hv)) parent anchor
    refine hrest.bind fun places h => .pure fun v hv => ?_
    exact h v ((List.mem_cons.1 hv).resolve_left nofun)
  | some child :: rest, hchildren, parent, anchor => by
    rw [mountChildren]
    refine (mountAs_roomy (hchildren child List.mem_cons_self) _ _ _).bind fun child hchild => ?_
    have hrest := mountChildren_roomy (fun v hv => hchildren v (List.mem_cons_of_mem _ hv)) parent anchor
    refine hrest.bind fun places h => .pure fun v hv => ?_
    rcases List.mem_cons.1 hv with hv | hv
    . cases hv
      exact hchild
    . exact h v hv

end

theorem Roomy.mount (hv : Roomy lib v) (parent : NodeId) (anchor : Option NodeId)
    : Returns (v.mount parent anchor) (Roomy lib) :=
  mountAs_roomy hv _ _ _

end Mount

section Remove

mutual

theorem remove_roomy : ∀ {v : View}, Roomy lib v → Returns v.remove (Roomy lib)
  | .block template data children mounted, hv => by
    cases hv with
    | block known room child =>
    rw [remove.eq_def]
    cases mounted with
    | none => exact .pure (.block known room child)
    | some anchorage => exact .after fun _ => .after fun _ => .pure (.block known room child)
  | .text value node parent, _ => by
    rw [remove]
    exact .after fun _ => .pure .text
  | .html markup content parent, _ => by
    rw [remove]
    exact .after fun _ => .pure .html
  | .list items anchor parent sole, hv => by
    cases hv with
    | list item =>
    rw [remove.eq_def]
    dsimp only
    split
    . split
      . exact .after fun _ => .pure (.list item)
      . exact (removeItems_roomy item).bind fun _ h => .after fun _ => .pure (.list h)
    . exact .pure (.list item)
  | .multi children standIns parent sole, hv => by
    cases hv with
    | multi child =>
    rw [remove.eq_def]
    dsimp only
    split
    . split
      . exact .after fun _ => .pure (.multi child)
      . exact (removeChildren_roomy child standIns).bind fun _ h => .pure (.multi h)
    . exact .pure (.multi child)
  | .toggler key child parent, hv => by
    cases hv with
    | toggler inner =>
    rw [remove]
    exact (remove_roomy inner).bind fun _ h => .pure (.toggler h)
  | .component name child node, hv => by
    rw [remove]
    cases hv with
    | component inner => exact .after fun _ => .after fun _ => .pure (.component inner)
  | .ghost, _ => by
    rw [remove]
    exact .after fun _ => .pure .ghost

theorem removeItems_roomy : ∀ {items : List (Key × View)}, (∀ i ∈ items, Roomy lib i.2) →
    Returns (removeItems items) fun items' => ∀ i ∈ items', Roomy lib i.2
  | [], _ => by
    rw [removeItems]
    exact .pure nofun
  | (key, item) :: rest, hitems => by
    rw [removeItems]
    refine (remove_roomy (hitems _ List.mem_cons_self)).bind fun item hitem => ?_
    refine (removeItems_roomy fun i hi => hitems i (List.mem_cons_of_mem _ hi)).bind fun items h => ?_
    exact .pure (List.forall_mem_cons.2 ⟨hitem, h⟩)

theorem removeChildren_roomy : ∀ {children : List (Option View)},
    (∀ v, some v ∈ children → Roomy lib v) → ∀ standIns : List (Option NodeId),
      Returns (removeChildren children standIns) fun children' => ∀ v, some v ∈ children' → Roomy lib v
  | [], _, _ => by
    rw [removeChildren.eq_def]
    exact .pure nofun
  | child :: rest, hchildren, [] => by
    rw [removeChildren.eq_def]
    cases child <;> exact .pure hchildren
  | none :: rest, hchildren, standIn :: standIns => by
    rw [removeChildren]
    refine .after fun _ => ?_
    have hrest := removeChildren_roomy (fun v hv => hchildren v (List.mem_cons_of_mem _ hv)) standIns
    refine hrest.bind fun children h => .pure fun v hv => ?_
    exact h v ((List.mem_cons.1 hv).resolve_left nofun)
  | some child :: rest, hchildren, _ :: standIns => by
    rw [removeChildren]
    refine (remove_roomy (hchildren child List.mem_cons_self)).bind fun child hchild => ?_
    have hrest := removeChildren_roomy (fun v hv => hchildren v (List.mem_cons_of_mem _ hv)) standIns
    refine hrest.bind fun children h => .pure fun v hv => ?_
    rcases List.mem_cons.1 hv with hv | hv
    . cases hv
      exact hchild
    . exact h v hv

end

theorem Roomy.tearDown (hv : Roomy lib v) : Returns v.tearDown (Roomy lib) :=
  .after fun _ => remove_roomy hv

end Remove

section Reconcile

structure Incoming.Roomy (lib : Library) (incoming : Incoming) : Prop where
  view : View.Roomy lib incoming.view
  patchAs : ∀ sole old, View.Roomy lib old → Returns (incoming.patchAs sole old) (View.Roomy lib)

namespace Reconcile

theorem mountAll_roomy {new : List (Key × Incoming)} (hnew : ∀ e ∈ new, e.2.Roomy lib)
    : Returns (mountAll parent anchor new) fun items => ∀ i ∈ items, Roomy lib i.2 := by
  induction new with
  | nil => exact .pure nofun
  | cons e new ih =>
    refine ((hnew e List.mem_cons_self).view.mount parent anchor).bind fun view hview => ?_
    refine (ih fun e he => hnew e (List.mem_cons_of_mem _ he)).bind fun items h => ?_
    exact .pure (List.forall_mem_cons.2 ⟨hview, h⟩)

structure RoomyGap (lib : Library) (old : Old) (new : List (Key × Incoming))
    (front back : List (Key × View)) : Prop where
  old : ∀ i, some i ∈ old → Roomy lib i.view
  new : ∀ e ∈ new, e.2.Roomy lib
  front : ∀ i ∈ front, Roomy lib i.2
  back : ∀ i ∈ back, Roomy lib i.2

section Gap

variable {old old' : Old} {new new' : List (Key × Incoming)} {front back : List (Key × View)}
  {key : Key} {known : Option Positions} {anchor : NodeId}

namespace RoomyGap

theorem patch (h : RoomyGap lib old new front back) {e : Key × Incoming} (he : e ∈ new)
    {item : View} (hitem : Roomy lib item) : Returns (e.2.patch item) (Roomy lib) :=
  (h.new e he).patchAs _ _ hitem

theorem mono (h : RoomyGap lib old new front back) (hold : ∀ i, some i ∈ old' → some i ∈ old)
    (hnew : ∀ e ∈ new', e ∈ new) : RoomyGap lib old' new' front back :=
  ⟨fun i hi => h.old i (hold i hi), fun e he => h.new e (hnew e he), h.front, h.back⟩

theorem at_front (h : RoomyGap lib old new front back) (hv : Roomy lib v)
    : RoomyGap lib old new ((key, v) :: front) back :=
  ⟨h.old, h.new, List.forall_mem_cons.2 ⟨hv, h.front⟩, h.back⟩

theorem at_back (h : RoomyGap lib old new front back) (hv : Roomy lib v)
    : RoomyGap lib old new front ((key, v) :: back) :=
  ⟨h.old, h.new, h.front, List.forall_mem_cons.2 ⟨hv, h.back⟩⟩

end RoomyGap

theorem loop_roomy (h : RoomyGap lib old new front back)
    : Returns (loop parent anchor known old new front back) fun items => ∀ i ∈ items, Roomy lib i.2 := by
  induction hn : old.length + new.length using Nat.strong_induction_on
    generalizing known old new front back with
  | _ n ih =>
  revert hn h
  apply loop_cases (P := fun old new x => RoomyGap lib old new front back →
    old.length + new.length = n → Returns x fun items => ∀ i ∈ items, Roomy lib i.2)
  case no_old =>
    intro new h _
    refine (mountAll_roomy h.new).bind fun fresh hfresh => .pure fun i hi => ?_
    simp only [List.mem_append, List.mem_reverse] at hi
    exact hi.elim (·.elim (h.front i) (hfresh i)) (h.back i)
  case no_new =>
    intro old h _
    refine .after fun _ => .pure fun i hi => ?_
    simp only [List.mem_append, List.mem_reverse] at hi
    exact hi.elim (h.front i) (h.back i)
  case first_hole =>
    rintro old new h rfl
    exact ih _ (by simp) (h.mono (fun _ => List.mem_cons_of_mem _) fun _ he => he) rfl
  case last_hole =>
    rintro old new h rfl
    exact ih _ (by simp) (h.mono (fun _ => List.mem_append_left _) fun _ he => he) rfl
  case first_first =>
    rintro first old e new - h rfl
    refine (h.patch (by simp) (h.old first (by simp))).bind fun view hview => ?_
    have h := h.mono (fun _ => List.mem_cons_of_mem _) fun _ => List.mem_cons_of_mem _
    exact ih _ (by simp; omega) (h.at_front hview) rfl
  case last_last =>
    rintro last old e new - h rfl
    refine (h.patch (by simp) (h.old last (by simp))).bind fun view hview => ?_
    have h := h.mono (fun _ => List.mem_append_left _) fun _ => List.mem_append_left _
    exact ih _ (by simp; omega) (h.at_back hview) rfl
  case first_last =>
    rintro first _ old e new - - - h rfl
    refine (h.patch (by simp) (h.old first (by simp))).bind fun view hview => .after fun _ => ?_
    have h := h.mono (fun _ => List.mem_cons_of_mem _) fun _ => List.mem_append_left _
    exact ih _ (by simp; omega) (h.at_back hview) rfl
  case last_first =>
    rintro first last old e new - h rfl
    refine (h.patch (by simp) (h.old last (by simp))).bind fun view hview => .after fun _ => ?_
    have h := h.mono (fun _ => List.mem_append_left _) fun _ => List.mem_cons_of_mem _
    exact ih _ (by simp; omega) (h.at_front hview) rfl
  case between =>
    rintro first old e new - x hfound hmissing h rfl
    refine .after fun ks => ?_
    cases hl : lookUp? ks e.1 (some first :: old) with
    | some found =>
      obtain ⟨item, rest⟩ := found
      have hlength := length_of_lookUp? hl
      obtain ⟨_, -, ht⟩ := Option.bind_eq_some_iff.1 hl
      rw [hfound ks item rest hl]
      refine .after fun _ => (h.patch (by simp) (h.old item (mem_of_take? ht))).bind fun view hview => ?_
      have h := h.mono (subset_of_take? ht) fun _ => List.mem_cons_of_mem _
      exact ih _ (by simp at hlength ⊢; omega) (h.at_front hview) rfl
    | none =>
      rw [hmissing ks hl]
      refine ((h.new e List.mem_cons_self).view.mount _ _).bind fun view hview => ?_
      have h := h.mono (fun _ hi => hi) fun _ => List.mem_cons_of_mem _
      exact ih _ (by simp) (h.at_front hview) rfl

end Gap

end Reconcile

theorem reconcile_roomy {parent anchor : NodeId} {new : List (Key × Incoming)}
    (hitems : ∀ i ∈ items, Roomy lib i.2) (hnew : ∀ e ∈ new, e.2.Roomy lib)
    : Returns (reconcile parent anchor items new) fun items' => ∀ i ∈ items', Roomy lib i.2 := by
  refine Reconcile.loop_roomy ⟨?_, hnew, List.forall_mem_nil _, List.forall_mem_nil _⟩
  intro i hi
  obtain ⟨⟨⟨key, view⟩, position⟩, hmem, heq⟩ := List.mem_map.1 hi
  cases heq
  exact hitems _ (List.fst_mem_of_mem_zipIdx hmem)

end Reconcile

section Patch

theorem replace_roomy (hnew : Roomy lib w) (sole : Bool) (old : View)
    : Returns (replace w sole old) (Roomy lib) := by
  refine .after fun parent => ?_
  cases parent with
  | none => exact .pure (hnew.withSole sole)
  | some parent => exact (mountAs_roomy hnew _ _ _).bind fun mounted h => .after fun _ => .pure h

abbrev AllRoomy (lib : Library) (incoming : List (Option Incoming)) : Prop :=
  ∀ next, some next ∈ incoming → next.Roomy lib

theorem patchSlot_roomy {incoming : List (Option Incoming)} (hnew : AllRoomy lib incoming)
    (references : List NodeId) (slot : ChildSlot) (h : RoomyChildren lib n children)
    : Returns (patchSlot references (children, incoming) slot) fun state =>
        RoomyChildren lib n state.1 ∧ AllRoomy lib state.2 := by
  have hrest : AllRoomy lib (incoming.set slot.index none) := fun next hnext =>
    hnew next ((List.mem_or_eq_of_mem_set hnext).resolve_right (Option.some_ne_none next))
  have hset : ∀ {child : View}, Roomy lib child →
      RoomyChildren lib n (children.set slot.index (some child)) := by
    intro child hchild
    refine h.set ?_ _
    rintro _ ⟨⟩
    exact hchild
  unfold patchSlot
  dsimp only
  cases hnext : incoming[slot.index]?.join with
  | some next =>
    have hmem : some next ∈ incoming := List.mem_of_getElem? (Option.join_eq_some_iff.1 hnext)
    cases hchild : children[slot.index]?.join with
    | some child =>
      have hold : Roomy lib child :=
        h.child child (List.mem_of_getElem? (Option.join_eq_some_iff.1 hchild))
      exact ((hnew next hmem).patchAs _ _ hold).bind fun child hchild => .pure ⟨hset hchild, hrest⟩
    | none =>
      refine .after fun parent => .after fun anchor => ?_
      exact (mountAs_roomy (hnew next hmem).view _ _ _).bind fun child hchild =>
        .pure ⟨hset hchild, hrest⟩
  | none =>
    cases children[slot.index]?.join with
    | some child =>
      have hclear : RoomyChildren lib n (children.set slot.index none) := h.set (by simp) _
      exact .after fun _ => .pure ⟨hclear, hrest⟩
    | none => exact .pure ⟨h, hrest⟩

theorem patchSlots_roomy {incoming : List (Option Incoming)} (hnew : AllRoomy lib incoming)
    (references : List NodeId) (slots : List ChildSlot) (h : RoomyChildren lib n children)
    : Returns (slots.foldlM (patchSlot references) (children, incoming)) fun state =>
        RoomyChildren lib n state.1 ∧ AllRoomy lib state.2 :=
  .foldlM ⟨h, hnew⟩ fun slot _ _ hstate => patchSlot_roomy hstate.2 references slot hstate.1

theorem patchPlace_roomy {child : Option View} {next : Option Incoming}
    (hchild : ∀ v, child = some v → Roomy lib v) (hnext : ∀ n, next = some n → n.Roomy lib)
    (parent : NodeId) (standIn : Option NodeId)
    : Returns (patchPlace parent standIn child next) fun place =>
        ∀ v, place.1 = some v → Roomy lib v := by
  have hsome : ∀ {w : View}, Roomy lib w → ∀ v, some w = some v → Roomy lib v := by
    rintro w hw _ ⟨⟩
    exact hw
  cases next with
  | some next =>
    cases child with
    | some child =>
      exact ((hnext next rfl).patchAs _ _ (hchild child rfl)).bind fun _ h => .pure (hsome h)
    | none =>
      exact ((hnext next rfl).view.mount _ _).bind fun _ h => .after fun _ => .pure (hsome h)
  | none =>
    cases child with
    | some child => exact .after fun _ => .after fun _ => .pure nofun
    | none => exact .pure nofun

theorem patchChildren_roomy {incoming : List (Option Incoming)}
    (hchildren : ∀ v, some v ∈ children → Roomy lib v) (hnew : AllRoomy lib incoming)
    (parent : NodeId) (standIns : List (Option NodeId))
    : Returns (patchChildren parent children standIns incoming) fun places =>
        ∀ v, some v ∈ places.1 → Roomy lib v := by
  induction incoming generalizing children standIns with
  | nil =>
    rw [patchChildren.eq_def]
    cases children <;> cases standIns <;> exact .pure hchildren
  | cons next incoming ih =>
    cases children with
    | nil => exact .pure hchildren
    | cons child children =>
      cases standIns with
      | nil => exact .pure hchildren
      | cons standIn standIns =>
        rw [patchChildren]
        have hhead : ∀ v, child = some v → Roomy lib v := fun v hv => hchildren v (hv ▸ List.mem_cons_self)
        have hnext : ∀ n, next = some n → n.Roomy lib := fun n hn => hnew n (hn ▸ List.mem_cons_self)
        refine (patchPlace_roomy hhead hnext parent standIn).bind fun place hplace => ?_
        refine (ih (fun v hv => hchildren v (List.mem_cons_of_mem _ hv))
          (fun n hn => hnew n (List.mem_cons_of_mem _ hn)) standIns).bind fun places h => .pure ?_
        intro v hv
        rcases List.mem_cons.1 hv with hv | hv
        . exact hplace v hv.symm
        . exact h v hv

variable {new old : View} {sole : Bool}

theorem patchAs_roomy_of_kind (hnew : Roomy lib new)
    (hsame : old.kind = new.kind → Returns (new.patchAs sole old) (Roomy lib))
    : Returns (new.patchAs sole old) (Roomy lib) :=
  patchAs_of_kind (P := fun x => Returns x (Roomy lib)) (replace_roomy hnew sole old) hsame

theorem patchBlock_roomy {template : Template} {data : Data} {mounted : Option Anchorage}
    (known : lib.Has template) (room : ∀ slot ∈ template.wiring.slots, slot.index < children.length)
    (child : ∀ v, some v ∈ children → Roomy lib v) (hincoming : AllRoomy lib (incomingChildren children))
    (hold : Roomy lib old)
    : Returns ((View.block template data children mounted).patchAs sole old) (Roomy lib) := by
  refine patchAs_roomy_of_kind (.block known room child) fun hkind => ?_
  cases hold with
  | @block oldTemplate oldData oldChildren oldMounted known' room' child' =>
    rw [patchAs.eq_def]
    dsimp only
    split
    . exact .throw _
    . next hsource =>
      rw [ne_eq, not_not] at hsource
      cases lib.eq_of_source _ _ known' known hsource
      split
      . exact .pure (.block known room child)
      . next anchorage =>
        have hslots := patchSlots_roomy hincoming anchorage.references template.wiring.slots ⟨rfl, child'⟩
        have hresult : ∀ state : List (Option View) × List (Option Incoming),
            RoomyChildren lib oldChildren.length state.1 ∧ AllRoomy lib state.2 →
            Roomy lib (.block template data state.1 (some anchorage)) := fun _ h =>
          .block known (fun slot hs => h.1.length ▸ room' slot hs) h.1.child
        split
        . exact .after fun _ => hslots.bind fun state h => .pure (hresult state h)
        . exact hslots.bind fun state h => .pure (hresult state h)
  | _ => exact absurd hkind (by simp [kind])

theorem patchText_roomy {value : Value} {node parent : Option NodeId}
    : Returns ((View.text value node parent).patchAs sole old) (Roomy lib) := by
  refine patchAs_roomy_of_kind .text fun hkind => ?_
  cases old with
  | text =>
    rw [patchAs]
    split
    . exact .pure .text
    . exact .after fun _ => .pure .text
  | _ => exact absurd hkind (by simp [kind])

theorem patchHtml_roomy {markup : String} {content : List NodeId} {parent : Option NodeId}
    : Returns ((View.html markup content parent).patchAs sole old) (Roomy lib) := by
  refine patchAs_roomy_of_kind .html fun hkind => ?_
  cases old with
  | html =>
    rw [patchAs.eq_def]
    dsimp only
    split
    . exact .pure .html
    . split
      . exact .pure .html
      . exact .after fun _ => .after fun _ => .after fun _ => .pure .html
  | _ => exact absurd hkind (by simp [kind])

theorem patchList_roomy {anchor parent : Option NodeId} {itsSole : Bool}
    (hitems : ∀ i ∈ items, Roomy lib i.2) (hincoming : ∀ e ∈ incomingItems items, e.2.Roomy lib)
    (hold : Roomy lib old)
    : Returns ((View.list items anchor parent itsSole).patchAs sole old) (Roomy lib) := by
  refine patchAs_roomy_of_kind (.list hitems) fun hkind => ?_
  cases hold with
  | list item' =>
    rw [patchAs.eq_def]
    dsimp only
    split
    . split
      . exact .pure (.list item')
      . split
        . refine .after fun _ => .after fun _ => .after fun _ => .after fun _ => .pure (.list ?_)
          simp
        . exact (reconcile_roomy item' hincoming).bind fun _ h => .pure (.list h)
    . exact .pure (.list hitems)
  | _ => exact absurd hkind (by simp [kind])

theorem patchMulti_roomy {standIns : List (Option NodeId)} {parent : Option NodeId} {itsSole : Bool}
    (hchildren : ∀ v, some v ∈ children → Roomy lib v)
    (hincoming : AllRoomy lib (incomingChildren children)) (hold : Roomy lib old)
    : Returns ((View.multi children standIns parent itsSole).patchAs sole old) (Roomy lib) := by
  refine patchAs_roomy_of_kind (.multi hchildren) fun hkind => ?_
  cases hold with
  | multi child' =>
    rw [patchAs.eq_def]
    dsimp only
    split
    . exact .pure (.multi hchildren)
    . split
      . exact .throw _
      . exact (patchChildren_roomy child' hincoming _ _).bind fun _ h => .pure (.multi h)
  | _ => exact absurd hkind (by simp [kind])

theorem patchToggler_roomy {key : Key} {child : View} {parent : Option NodeId}
    (hchild : Incoming.Roomy lib ⟨child, child.patchAs⟩) (hold : Roomy lib old)
    : Returns ((View.toggler key child parent).patchAs sole old) (Roomy lib) := by
  refine patchAs_roomy_of_kind (.toggler hchild.view) fun hkind => ?_
  cases hold with
  | toggler inner' =>
    rw [patchAs.eq_def]
    dsimp only
    split
    . exact (hchild.patchAs _ _ inner').bind fun _ h => .pure (.toggler h)
    . split
      . exact .pure (.toggler hchild.view)
      . exact (hchild.view.mount _ _).bind fun _ h => .after fun _ => .pure (.toggler h)
  | _ => exact absurd hkind (by simp [kind])

theorem patchComponent_roomy {name : String} {child : Option View} {node : Option NodeId}
    (hchild : ∀ v, child = some v → Incoming.Roomy lib ⟨v, v.patchAs⟩) (hold : Roomy lib old)
    : Returns ((View.component name child node).patchAs sole old) (Roomy lib) := by
  have inner : ∀ v, child = some v → Roomy lib v := fun v hv => (hchild v hv).view
  refine patchAs_roomy_of_kind (.component inner) fun hkind => ?_
  cases hold with
  | @component _ oldChild _ inner' =>
    rw [patchAs.eq_def]
    refine .after fun _ => ?_
    cases oldChild with
    | none => exact .pure (.component inner)
    | some oldChild =>
      cases child with
      | none => exact .pure (.component (by simp))
      | some child =>
        refine ((hchild child rfl).patchAs _ _ (inner' oldChild rfl)).bind fun _ h => ?_
        refine .pure (.component ?_)
        rintro _ ⟨⟩
        exact h
  | ghost =>
    rw [patchAs]
    exact .after fun _ => .pure .ghost
  | _ => exact absurd hkind (by simp [kind])

theorem patchGhost_roomy : Returns (View.ghost.patchAs sole old) (Roomy lib) := by
  refine patchAs_roomy_of_kind .ghost fun hkind => ?_
  cases old with
  | component =>
    rw [patchAs]
    exact .throw _
  | ghost =>
    rw [patchAs]
    exact .after fun _ => .pure .ghost
  | _ => exact absurd hkind (by simp [kind])

mutual

theorem patchAs_roomy : ∀ {new : View}, Roomy lib new → ∀ (sole : Bool) (old : View), Roomy lib old →
    Returns (new.patchAs sole old) (Roomy lib)
  | .block _ _ _ _, .block known room child, _, _, hold =>
    patchBlock_roomy known room child (incomingChildren_roomy child) hold
  | .text _ _ _, _, _, _, _ => patchText_roomy
  | .html _ _ _, _, _, _, _ => patchHtml_roomy
  | .list _ _ _ _, .list item, _, _, hold => patchList_roomy item (incomingItems_roomy item) hold
  | .multi _ _ _ _, .multi child, _, _, hold => patchMulti_roomy child (incomingChildren_roomy child) hold
  | .toggler _ _ _, .toggler inner, _, _, hold => patchToggler_roomy ⟨inner, patchAs_roomy inner⟩ hold
  | .component _ none _, .component _, _, _, hold => patchComponent_roomy (by simp) hold
  | .component _ (some child) _, .component inner, _, _, hold => by
    have hchild : Incoming.Roomy lib ⟨child, child.patchAs⟩ :=
      ⟨inner child rfl, patchAs_roomy (inner child rfl)⟩
    refine patchComponent_roomy ?_ hold
    rintro _ ⟨⟩
    exact hchild
  | .ghost, _, _, _, _ => patchGhost_roomy

theorem incomingChildren_roomy : ∀ {children : List (Option View)},
    (∀ v, some v ∈ children → Roomy lib v) → AllRoomy lib (incomingChildren children)
  | [], _, _, hnext => nomatch hnext
  | none :: rest, hchildren, next, hnext => by
    rw [incomingChildren, List.mem_cons] at hnext
    exact incomingChildren_roomy (fun v hv => hchildren v (List.mem_cons_of_mem _ hv)) next
      (hnext.resolve_left nofun)
  | some child :: rest, hchildren, next, hnext => by
    rw [incomingChildren, List.mem_cons] at hnext
    rcases hnext with hnext | hnext
    . cases hnext
      have hchild := hchildren child List.mem_cons_self
      exact ⟨hchild, patchAs_roomy hchild⟩
    . exact incomingChildren_roomy (fun v hv => hchildren v (List.mem_cons_of_mem _ hv)) next hnext

theorem incomingItems_roomy : ∀ {items : List (Key × View)}, (∀ i ∈ items, Roomy lib i.2) →
    ∀ e ∈ incomingItems items, e.2.Roomy lib
  | [], _, _, he => nomatch he
  | (key, item) :: rest, hitems, e, he => by
    rw [incomingItems, List.mem_cons] at he
    rcases he with rfl | he
    . have hitem := hitems _ List.mem_cons_self
      exact ⟨hitem, patchAs_roomy hitem⟩
    . exact incomingItems_roomy (fun i hi => hitems i (List.mem_cons_of_mem _ hi)) e he

end

theorem Roomy.patch (hv : Roomy lib v) (hw : Roomy lib w) : Returns (patch v w) (Roomy lib) :=
  patchAs_roomy hw _ _ hv

end Patch

section Uses

/-- The views that are made by renders whose blocks have templates of the library. -/
inductive Rendered (lib : Library) : View → Prop
  | text (value : Value) : Rendered lib (.ofText value)
  | html (markup : String) : Rendered lib (.ofMarkup markup)
  | list {items : List (Key × View)} (item : ∀ i ∈ items, Rendered lib i.2) :
      Rendered lib (.ofItems items)
  | multi {children : List (Option View)} (child : ∀ v, some v ∈ children → Rendered lib v) :
      Rendered lib (.ofChildren children)
  | toggler {key : Key} {child : View} (inner : Rendered lib child) : Rendered lib (.ofKey key child)
  | component {name : String} {child : Option View} (inner : ∀ v, child = some v → Rendered lib v) :
      Rendered lib (.ofName name child)
  | ghost : Rendered lib .ghost
  | block {template : Template} {data : Data} {children : List (Option View)} {view : View}
      (known : lib.Has template) (child : ∀ v, some v ∈ children → Rendered lib v)
      (made : ofTemplate template data children = .ok view) : Rendered lib view

theorem Rendered.roomy (h : Rendered lib v) : Roomy lib v := by
  induction h with
  | text => exact .text
  | html => exact .html
  | list _ ih => exact .list ih
  | multi _ ih => exact .multi ih
  | toggler _ ih => exact .toggler ih
  | component _ ih => exact .component ih
  | ghost => exact .ghost
  | block known _ made ih =>
    obtain ⟨children', rfl, hmem, room⟩ := ofTemplate_eq_ok made
    exact .block known room fun v hv => ih v (hmem v hv)

inductive Uses (lib : Library) : View → View → Prop
  | mount {v w : View} {parent : NodeId} {anchor : Option NodeId} {h h' : Host}
      (run : v.mount parent anchor h = .ok w h') : Uses lib v w
  | patch {v w next : View} {h h' : Host} (rendered : Rendered lib next)
      (run : v.patch next h = .ok w h') : Uses lib v w
  | tearDown {v w : View} {h h' : Host} (run : v.tearDown h = .ok w h') : Uses lib v w

theorem Uses.roomy (h : Uses lib v w) (hv : Roomy lib v) : Roomy lib w := by
  cases h with
  | mount run => exact hv.mount _ _ _ _ _ run
  | patch rendered run => exact hv.patch rendered.roomy _ _ _ run
  | tearDown run => exact hv.tearDown _ _ _ run

def patchSlotInRange (references : List NodeId) (state : List (Option View) × List (Option Incoming))
    (slot : ChildSlot) : Engine (List (Option View) × List (Option Incoming)) :=
  if slot.index < state.1.length then patchSlot references state slot else throw .strayStep

theorem patchSlot_length (references : List NodeId) (incoming : List (Option Incoming)) (slot : ChildSlot)
    : Returns (patchSlot references (children, incoming) slot) fun state =>
        state.1.length = children.length := by
  unfold patchSlot
  dsimp only
  split
  . exact .after fun _ => .pure List.length_set
  . exact .after fun _ => .pure List.length_set
  . exact .after fun _ => .after fun _ => .after fun _ => .pure List.length_set
  . exact .pure rfl

theorem patchSlots_inRange {slots : List ChildSlot} (h : ∀ slot ∈ slots, slot.index < children.length)
    (references : List NodeId) (incoming : List (Option Incoming))
    : slots.foldlM (patchSlotInRange references) (children, incoming)
        = slots.foldlM (patchSlot references) (children, incoming) := by
  induction slots generalizing children incoming with
  | nil => rfl
  | cons slot slots ih =>
    rw [List.foldlM_cons, List.foldlM_cons, patchSlotInRange, if_pos (h slot List.mem_cons_self)]
    apply Returns.bind_congr (patchSlot_length references incoming slot)
    rintro ⟨children', incoming'⟩ hlength
    exact ih (fun slot hs => hlength ▸ h slot (List.mem_cons_of_mem _ hs)) incoming'

end Uses

/--
Room for children can be told unless the last index is used, and is one more than the largest index of a
slot. A block that is made with it is never asked for a child out of range, and neither is any block in
it, whatever it is mounted in and patched by.
-/
theorem ofTemplate_room {t : Template} {source : String} {normalize : Bool}
    (compiled : t.Compiled source normalize)
    : (t.wiring.childCapacity = .error .indexOverflow
          ↔ ∃ slot ∈ t.wiring.slots, slot.index + 1 = Template.indexLimit) ∧
        (∀ n, t.wiring.childCapacity = .ok n
          ↔ (∀ slot ∈ t.wiring.slots, slot.index + 1 < Template.indexLimit) ∧
              Template.Wiring.IsCapacity t.wiring.slots n) ∧
        ∀ (lib : Library), lib.Has t → ∀ data children, (∀ v, some v ∈ children → Rendered lib v) →
          ∀ v w, ofTemplate t data children = .ok v → Relation.ReflTransGen (Uses lib) v w →
            Roomy lib w ∧
              ∀ t' data' children' mounted, w = .block t' data' children' mounted →
                ∀ references incoming,
                  t'.wiring.slots.foldlM (patchSlotInRange references) (children', incoming)
                    = t'.wiring.slots.foldlM (patchSlot references) (children', incoming) := by
  refine ⟨?_, fun n => Template.Wiring.childCapacity_eq_ok, ?_⟩
  . rw [Template.Wiring.childCapacity_eq_error]
    constructor
    . rintro ⟨slot, hs, hlarge⟩
      exact ⟨slot, hs, by have := compiled.slot_index_lt slot hs; omega⟩
    . rintro ⟨slot, hs, heq⟩
      exact ⟨slot, hs, heq.ge⟩
  . intro lib known data children hchildren v w made huses
    have hroomy : Roomy lib w := by
      induction huses with
      | refl => exact (Rendered.block known hchildren made).roomy
      | tail _ huse ih => exact huse.roomy ih
    refine ⟨hroomy, ?_⟩
    rintro t' data' children' mounted rfl references incoming
    cases hroomy with
    | block known room child => exact patchSlots_inRange room references incoming

def takesSecond (t : Template) : Bool :=
  decide (t.wiring.slots.map (·.index) = [1] ∧ t.wiring.childCapacity = .ok 2) &&
    match ofTemplate t ⟨0, []⟩ [], ofTemplate t ⟨0, []⟩ [none, some (.ofText (.str "a"))] with
    | .ok v, .ok next =>
      match v.mount ⟨0, 0⟩ none .paragraph with
      | .ok w h => match w.patch next h with
        | .ok _ _ => true
        | .error _ _ => false
      | .error _ _ => false
    | _, _ => false

theorem ofTemplate_room_pair
    : ∃ (t : Template) (lib : Library) (v v' next w : View) (h h' : Host),
        t.Compiled "<p><block-child-1/></p>" true ∧ lib.Has t ∧ t.wiring.slots.map (·.index) = [1] ∧
          t.wiring.childCapacity = .ok 2 ∧ ofTemplate t ⟨0, []⟩ [] = .ok v ∧
          ofTemplate t ⟨0, []⟩ [none, some (.ofText (.str "a"))] = .ok next ∧
          v.mount ⟨0, 0⟩ none .paragraph = .ok v' h ∧ v'.patch next h = .ok w h' ∧
          Roomy lib w ∧
          ∀ t' data' children' mounted, w = .block t' data' children' mounted →
            ∀ references incoming,
              t'.wiring.slots.foldlM (patchSlotInRange references) (children', incoming)
                = t'.wiring.slots.foldlM (patchSlot references) (children', incoming) := by
  have hmakes : Template.makes "<p><block-child-1/></p>" true takesSecond := by
    decide +kernel
  obtain ⟨t, ht, htest⟩ := Template.exists_compiled hmakes
  unfold takesSecond at htest
  rw [Bool.and_eq_true, decide_eq_true_eq] at htest
  obtain ⟨⟨hslots, hcapacity⟩, htest⟩ := htest
  split at htest
  . next v next hv hnext =>
    split at htest
    . next v' h hmount =>
      split at htest
      . next w h' hpatch =>
        let lib : Library := ⟨(· = t), by rintro _ _ rfl rfl -; rfl⟩
        have child : ∀ x, some x ∈ [none, some (View.ofText (.str "a"))] → Rendered lib x := by
          intro x hx
          have heq : x = .ofText (.str "a") := by simpa using hx
          exact heq ▸ .text _
        have huses : Relation.ReflTransGen (Uses lib) v w :=
          (Relation.ReflTransGen.single (.mount hmount)).tail
            (.patch (.block rfl child hnext) hpatch)
        exact ⟨t, lib, v, v', next, w, h, h', ht, rfl, hslots, hcapacity, hv, hnext, hmount, hpatch,
          (ofTemplate_room ht).2.2 lib rfl ⟨0, []⟩ [] (by simp) v w hv huses⟩
      . cases htest
    . cases htest
  . cases htest

/-- Blocks cannot be made of a template that uses the last index there is. -/
theorem ofTemplate_overflows
    : ∃ t : Template,
        t.Compiled "<p><block-child-18446744073709551615/></p>" true ∧
          t.wiring.childCapacity = .error .indexOverflow ∧
          ∀ data children, ofTemplate t data children = .error .indexOverflow := by
  have hmakes : Template.makes "<p><block-child-18446744073709551615/></p>" true
      fun t => t.wiring.childCapacity = .error .indexOverflow := by
    decide +kernel
  obtain ⟨t, ht, htest⟩ := Template.exists_compiled hmakes
  have hcapacity := of_decide_eq_true htest
  refine ⟨t, ht, hcapacity, fun data children => ?_⟩
  simp only [ofTemplate, hcapacity, bind, Except.bind]

end View

end VirtualDom
