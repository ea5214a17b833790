import VirtualDom.Proofs.View.Run

/-!
This module contains what a patch does that has nothing to write: where each place of the new view says
what the old one shows there, the host stays as it is.
-/

namespace VirtualDom

theorem Value.same_right {v w : Value} (h : v.same w) : w.same w := by
  cases v <;> cases w <;> simp_all [same, Number.same]

namespace View

open Engine

/--
The new view, second, has the shape of the old one and says the same at each place that is written
to. Data of one allocation is not looked into.
-/
inductive Matches : View → View → Prop
  | text {value value' : Value} {node node' parent parent' : Option NodeId}
      (same : value.same value') : Matches (.text value node parent) (.text value' node' parent')
  | html {markup : String} {content content' : List NodeId} {parent parent' : Option NodeId} :
      Matches (.html markup content parent) (.html markup content' parent')
  | list {items items' : List (Key × View)} {anchor anchor' parent parent' : Option NodeId}
      {sole sole' : Bool} (keys : items.map (·.1) = items'.map (·.1))
      (item : ∀ (i : Nat) (a b : Key × View), items[i]? = some a → items'[i]? = some b →
        Matches a.2 b.2) :
      Matches (.list items anchor parent sole) (.list items' anchor' parent' sole')
  | multi {children children' : List (Option View)} {standIns standIns' : List (Option NodeId)}
      {parent parent' : Option NodeId} {sole sole' : Bool}
      (isSome : children.map (·.isSome) = children'.map (·.isSome))
      (child : ∀ (i : Nat) (a b : View), children[i]? = some (some a) → children'[i]? = some (some b) →
        Matches a b) :
      Matches (.multi children standIns parent sole) (.multi children' standIns' parent' sole')
  | toggler {key : Key} {child child' : View} {parent parent' : Option NodeId}
      (inner : Matches child child') : Matches (.toggler key child parent) (.toggler key child' parent')
  | block {template : Template} {data data' : Data} {children children' : List (Option View)}
      {mounted mounted' : Option Anchorage}
      (indices : (template.wiring.slots.map (·.index)).Nodup)
      (same : data.identity = data'.identity ∨
        ∀ l ∈ template.wiring.locations, (data.at l.dataIndex).same (data'.at l.dataIndex))
      (isSome : ∀ slot ∈ template.wiring.slots,
        children[slot.index]?.join.isSome = children'[slot.index]?.join.isSome)
      (child : ∀ slot ∈ template.wiring.slots, ∀ (a b : View), children[slot.index]?.join = some a →
        children'[slot.index]?.join = some b → Matches a b) :
      Matches (.block template data children mounted) (.block template data' children' mounted')

/-- A view that matches an old one matches itself; where a value is not a number, neither holds. -/
theorem Matches.right {old new : View} (h : Matches old new) : Matches new new := by
  induction h with
  | text same => exact .text (Value.same_right same)
  | html => exact .html
  | @list items items' _ _ _ _ _ _ keys _ ih =>
    refine .list rfl fun i a b ha hb => ?_
    obtain rfl : a = b := Option.some.inj (ha.symm.trans hb)
    have hi : i < items.length := by
      have := congrArg List.length keys
      simp only [List.length_map] at this
      exact this ▸ (List.getElem?_eq_some_iff.1 ha).1
    exact ih i _ a (List.getElem?_eq_getElem hi) ha
  | @multi children children' _ _ _ _ _ _ isSome _ ih =>
    refine .multi rfl fun i a b ha hb => ?_
    obtain rfl : a = b := Option.some.inj (Option.some.inj (ha.symm.trans hb))
    have hi := congrArg (·[i]?) isSome
    simp only [List.getElem?_map, ha] at hi
    obtain ⟨c, hc, hsome⟩ := Option.map_eq_some_iff.1 hi
    obtain ⟨c, rfl⟩ := Option.isSome_iff_exists.1 hsome
    exact ih i c a hc ha
  | toggler _ ih => exact .toggler ih
  | block indices _ isSome _ ih =>
    refine .block indices (.inl rfl) (fun _ _ => rfl) fun slot hs a b ha hb => ?_
    obtain rfl : a = b := Option.some.inj (ha.symm.trans hb)
    have hi := isSome slot hs
    rw [ha] at hi
    obtain ⟨c, hc⟩ := Option.isSome_iff_exists.1 hi
    exact ih slot hs c a hc ha

theorem Matches.of_items {items items' : List (Key × View)} {anchor anchor' parent parent' : Option NodeId}
    {sole sole' : Bool} (h : List.Forall₂ (fun a b => a.1 = b.1 ∧ Matches a.2 b.2) items items')
    : Matches (.list items anchor parent sole) (.list items' anchor' parent' sole') := by
  refine .list ?_ fun i a b ha hb => ?_
  . rw [← List.forall₂_eq_eq_eq, List.forall₂_map_left_iff, List.forall₂_map_right_iff]
    exact h.imp fun _ _ h => h.1
  . obtain ⟨hi, rfl⟩ := List.getElem?_eq_some_iff.1 ha
    obtain ⟨hi', rfl⟩ := List.getElem?_eq_some_iff.1 hb
    exact (h.get hi hi').2

theorem Matches.of_children {children children' : List (Option View)}
    {standIns standIns' : List (Option NodeId)} {parent parent' : Option NodeId} {sole sole' : Bool}
    (h : List.Forall₂ (Option.Rel Matches) children children')
    : Matches (.multi children standIns parent sole) (.multi children' standIns' parent' sole') := by
  refine .multi ?_ fun i a b ha hb => ?_
  . rw [← List.forall₂_eq_eq_eq, List.forall₂_map_left_iff, List.forall₂_map_right_iff]
    refine h.imp fun _ _ h => ?_
    cases h <;> rfl
  . obtain ⟨hi, ha⟩ := List.getElem?_eq_some_iff.1 ha
    obtain ⟨hi', hb⟩ := List.getElem?_eq_some_iff.1 hb
    have hpair := h.get hi hi'
    rw [List.get_eq_getElem, List.get_eq_getElem, ha, hb] at hpair
    cases hpair with
    | some hm => exact hm

/-- Patching `old` by `new` gives a view that `new` matches again, and changes nothing else. -/
def Skips (old new : View) : Prop :=
  ∀ (sole : Bool) (h : Host), ∃ v, new.patchAs sole old h = .ok v h ∧ Matches v new

section Lists

/-- Old and new items pair off from the front, so that no item is moved, made or taken out. -/
theorem loop_unchanged {parent anchor : NodeId} {known : Option Reconcile.Positions}
    {old : List Reconcile.OldItem} {new : List (Key × View)}
    (hpairs : List.Forall₂ (fun i item => i.key = item.1 ∧ Skips i.view item.2) old new)
    (front : List (Key × View)) (h : Host)
    : ∃ items, Reconcile.loop parent anchor known (old.map some) (incomingItems new) front [] h
        = .ok (front.reverse ++ items) h ∧
        List.Forall₂ (fun item item' => item.1 = item'.1 ∧ Matches item.2 item'.2) items new := by
  induction hpairs generalizing front with
  | nil =>
    refine ⟨[], ?_, .nil⟩
    simp only [List.map_nil, incomingItems, Reconcile.loop, Reconcile.mountAll, pure_bind,
      List.append_nil]
    rfl
  | @cons i item old new hpair _ ih =>
    obtain ⟨key, w⟩ := item
    obtain ⟨hkey, hskips⟩ := hpair
    obtain ⟨v, hpatch, hv⟩ := hskips w.isSole h
    obtain ⟨items, hloop, hitems⟩ := ih ((i.key, v) :: front)
    have hlast : (some i :: old.map some).getLast (List.cons_ne_nil _ _)
        = some ((i :: old).getLast (List.cons_ne_nil _ _)) :=
      List.getLast_map (l := i :: old) (by simp)
    refine ⟨(i.key, v) :: items, ?_, .cons ⟨hkey, hv⟩ hitems⟩
    rw [List.map_cons, incomingItems, Reconcile.loop.eq_5 _ _ _ _ _ _ _ _ _ _ hlast, if_pos hkey]
    refine (bind_run (hpatch :)).trans ?_
    rw [hloop]
    simp

theorem forall₂_of_keys {R : View → View → Prop} {items items' : List (Key × View)}
    (keys : items.map (·.1) = items'.map (·.1))
    (item : ∀ (i : Nat) (a b : Key × View), items[i]? = some a → items'[i]? = some b → R a.2 b.2)
    : List.Forall₂ (fun a b => a.1 = b.1 ∧ R a.2 b.2) items items' := by
  have hlength := congrArg List.length keys
  simp only [List.length_map] at hlength
  refine List.forall₂_iff_get.2 ⟨hlength, fun i hi hi' => ⟨?_, ?_⟩⟩
  . have := congrArg (·[i]?) keys
    simpa [hi, hi'] using this
  . exact item i _ _ (List.getElem?_eq_getElem hi) (List.getElem?_eq_getElem hi')

theorem reconcile_unchanged {items items' : List (Key × View)}
    (hpairs : List.Forall₂ (fun a b => a.1 = b.1 ∧ Skips a.2 b.2) items items')
    (parent anchor : NodeId) (h : Host)
    : ∃ result, reconcile parent anchor items (incomingItems items') h = .ok result h ∧
        List.Forall₂ (fun a b => a.1 = b.1 ∧ Matches a.2 b.2) result items' := by
  have hold : Reconcile.Old.ofItems items = (items.zipIdx.map fun entry =>
      (⟨entry.2, entry.1.1, entry.1.2⟩ : Reconcile.OldItem)).map some := by
    rw [List.map_map]
    rfl
  unfold reconcile
  rw [hold]
  refine loop_unchanged ?_ [] h
  clear hold
  generalize 0 = position
  induction hpairs generalizing position with
  | nil => exact .nil
  | cons hpair _ ih => exact .cons hpair (ih _)

end Lists

section Children

theorem patchPlace_unchanged {child next : Option View} (hpair : Option.Rel Skips child next)
    (parent : NodeId) (standIn : Option NodeId) (h : Host)
    : ∃ child', patchPlace parent standIn child (next.map fun w => ⟨w, w.patchAs⟩) h
        = .ok (child', standIn) h ∧ Option.Rel Matches child' next := by
  cases hpair with
  | none => exact ⟨none, rfl, .none⟩
  | @some old w hskips =>
    obtain ⟨v, hpatch, hv⟩ := hskips w.isSole h
    exact ⟨some v, bind_run (hpatch :), .some hv⟩

theorem patchChildren_unchanged {children next : List (Option View)}
    (hpairs : List.Forall₂ (Option.Rel fun a b => Matches a b ∧ Skips a b) children next)
    (parent : NodeId) (standIns : List (Option NodeId)) (h : Host)
    : ∃ children', patchChildren parent children standIns (incomingChildren next) h
        = .ok (children', standIns) h ∧ List.Forall₂ (Option.Rel Matches) children' next := by
  have hmatches : ∀ {x y : Option View}, Option.Rel (fun a b => Matches a b ∧ Skips a b) x y →
      Option.Rel Matches x y ∧ Option.Rel Skips x y := by
    rintro _ _ (⟨hm, hs⟩ | _)
    . exact ⟨.some hm, .some hs⟩
    . exact ⟨.none, .none⟩
  induction hpairs generalizing standIns with
  | nil => exact ⟨[], by rw [patchChildren] <;> simp [pure, EStateM.pure], .nil⟩
  | @cons child w children next hpair hpairs ih =>
    cases standIns with
    | nil =>
      refine ⟨child :: children, ?_, ?_⟩
      . rw [patchChildren] <;> simp [pure, EStateM.pure]
      . exact .cons (hmatches hpair).1 (hpairs.imp fun _ _ h => (hmatches h).1)
    | cons standIn standIns =>
      obtain ⟨child', hplace, hchild'⟩ := patchPlace_unchanged (hmatches hpair).2 parent standIn h
      obtain ⟨children', hrest, hchildren'⟩ := ih standIns
      refine ⟨child' :: children', ?_, .cons hchild' hchildren'⟩
      rw [incomingChildren_eq_map] at hrest ⊢
      rw [List.map_cons, patchChildren]
      refine (bind_run hplace).trans ?_
      exact (bind_run hrest).trans rfl

theorem forall₂_of_isSome {R : View → View → Prop} {children next : List (Option View)}
    (isSome : children.map (·.isSome) = next.map (·.isSome))
    (child : ∀ (i : Nat) (a b : View), children[i]? = some (some a) → next[i]? = some (some b) →
      R a b)
    : List.Forall₂ (Option.Rel R) children next := by
  have hlength := congrArg List.length isSome
  simp only [List.length_map] at hlength
  refine List.forall₂_iff_get.2 ⟨hlength, fun i hi hi' => ?_⟩
  have hsome := congrArg (·[i]?) isSome
  simp only [List.getElem?_map, List.getElem?_eq_getElem hi, List.getElem?_eq_getElem hi'] at hsome
  have hpair := child i
  rw [List.getElem?_eq_getElem hi, List.getElem?_eq_getElem hi'] at hpair
  rw [List.get_eq_getElem, List.get_eq_getElem]
  cases ha : children[i] <;> cases hb : next[i] <;> simp only [ha, hb] at hpair hsome
  . exact .none
  . cases hsome
  . cases hsome
  . exact .some (hpair _ _ rfl rfl)

theorem patchSlot_unchanged (references : List NodeId) {slot : Template.ChildSlot}
    {children : List (Option View)} {incoming : List (Option Incoming)} {next : Option View}
    (hnext : incoming[slot.index]?.join = next.map fun w => ⟨w, w.patchAs⟩)
    (hpair : Option.Rel Skips children[slot.index]?.join next) (h : Host)
    : ∃ children' incoming', patchSlot references (children, incoming) slot h
        = .ok (children', incoming') h ∧ Option.Rel Matches children'[slot.index]?.join next ∧
        ∀ i, i ≠ slot.index → children'[i]? = children[i]? ∧ incoming'[i]? = incoming[i]? := by
  unfold patchSlot
  generalize hchild : children[slot.index]?.join = child at hpair
  simp only [hnext, hchild]
  cases hpair with
  | none =>
    refine ⟨children, _, rfl, ?_, fun i hi => ⟨rfl, List.getElem?_set_ne hi.symm⟩⟩
    rw [hchild]
    exact .none
  | @some old w hskips =>
    obtain ⟨v, hpatch, hv⟩ := hskips slot.sole h
    refine ⟨_, _, bind_run (hpatch :), ?_, fun i hi =>
      ⟨List.getElem?_set_ne hi.symm, List.getElem?_set_ne hi.symm⟩⟩
    have hlt : slot.index < children.length := by
      exact (List.getElem?_eq_some_iff.1 (Option.join_eq_some_iff.1 hchild)).1
    rw [List.getElem?_set_self hlt]
    exact .some hv

theorem patchSlots_unchanged (references : List NodeId) {slots : List Template.ChildSlot}
    (indices : (slots.map (·.index)).Nodup) {children next : List (Option View)}
    {incoming : List (Option Incoming)}
    (hnext : ∀ slot ∈ slots, incoming[slot.index]?.join
      = next[slot.index]?.join.map fun w => ⟨w, w.patchAs⟩)
    (hpair : ∀ slot ∈ slots, Option.Rel Skips children[slot.index]?.join next[slot.index]?.join)
    (h : Host)
    : ∃ children' incoming', slots.foldlM (patchSlot references) (children, incoming) h
        = .ok (children', incoming') h ∧
        (∀ slot ∈ slots, Option.Rel Matches children'[slot.index]?.join next[slot.index]?.join) ∧
        ∀ i, i ∉ slots.map (·.index) → children'[i]? = children[i]? := by
  induction slots generalizing children incoming with
  | nil => exact ⟨children, incoming, rfl, by simp, fun _ _ => rfl⟩
  | cons slot slots ih =>
    rw [List.map_cons, List.nodup_cons] at indices
    obtain ⟨children₁, incoming₁, hslot, hmatches, hkeep⟩ := patchSlot_unchanged
      references (hnext slot List.mem_cons_self) (hpair slot List.mem_cons_self) h
    have hne : ∀ other ∈ slots, other.index ≠ slot.index := by
      intro other ho heq
      exact indices.1 (heq ▸ List.mem_map_of_mem ho)
    obtain ⟨children₂, incoming₂, hslots, hall, hrest⟩ := ih indices.2
      (fun other ho => by
        rw [(hkeep _ (hne other ho)).2]
        exact hnext other (List.mem_cons_of_mem _ ho))
      (fun other ho => by
        rw [(hkeep _ (hne other ho)).1]
        exact hpair other (List.mem_cons_of_mem _ ho))
    refine ⟨children₂, incoming₂, (bind_run hslot).trans hslots, ?_, ?_⟩
    . refine List.forall_mem_cons.2 ⟨?_, hall⟩
      rw [hrest _ indices.1]
      exact hmatches
    . intro i hi
      rw [List.map_cons, List.mem_cons, not_or] at hi
      exact (hrest i hi.2).trans (hkeep i hi.1).1

end Children

theorem updateLocations_unchanged {template : Template} {references : List NodeId} {data old : Data}
    (same : ∀ l ∈ template.wiring.locations, (old.at l.dataIndex).same (data.at l.dataIndex)) (h : Host)
    : updateLocations template references data old h = .ok () h := by
  unfold updateLocations
  generalize template.wiring.locations = locations at same
  induction locations with
  | nil => rfl
  | cons l locations ih =>
    obtain ⟨hl, hrest⟩ := List.forall_mem_cons.1 same
    simp only [List.forM_eq_forM, List.forM_cons, hl, Bool.not_true, Bool.false_eq_true, if_false, pure_bind]
    exact ih hrest

section Block

variable {template : Template} {data data' : Data} {children children' : List (Option View)}

theorem patchBlock_unchanged (indices : (template.wiring.slots.map (·.index)).Nodup)
    (same : data.identity = data'.identity ∨
      ∀ l ∈ template.wiring.locations, (data.at l.dataIndex).same (data'.at l.dataIndex))
    (hpair : ∀ slot ∈ template.wiring.slots,
      Option.Rel Skips children[slot.index]?.join children'[slot.index]?.join)
    (mounted' : Option Anchorage) (anchorage : Anchorage) (sole : Bool) (h : Host)
    : ∃ v, (block template data' children' mounted').patchAs sole
        (.block template data children (some anchorage)) h = .ok v h ∧
        Matches v (.block template data' children' mounted') := by
  have hnext : ∀ slot ∈ template.wiring.slots, (incomingChildren children')[slot.index]?.join
      = children'[slot.index]?.join.map fun w => ⟨w, w.patchAs⟩ := by
    intro slot _
    rw [incomingChildren_getElem?]
    rcases children'[slot.index]? with _ | _ | _ <;> rfl
  obtain ⟨result, incoming, hslots, hmatches, -⟩ :=
    patchSlots_unchanged anchorage.references indices hnext hpair h
  refine ⟨.block template data' result (some anchorage), ?_, ?_⟩
  . rw [patchAs]
    simp only [ne_eq, not_true_eq_false, if_false]
    split
    . next hne =>
      refine (bind_run (updateLocations_unchanged (same.resolve_left hne) h)).trans ?_
      exact bind_run hslots
    . exact bind_run hslots
  . refine .block indices (.inl rfl) (fun slot hs => ?_) fun slot hs a b ha hb => ?_
    . have := hmatches slot hs
      generalize result[slot.index]?.join = x, children'[slot.index]?.join = y at this
      cases this <;> rfl
    . have := hmatches slot hs
      rw [ha, hb] at this
      cases this with
      | some hm => exact hm

end Block

theorem relates_of_isSome {R : View → View → Prop} {x y : Option View} (isSome : x.isSome = y.isSome)
    (child : ∀ a b, x = some a → y = some b → R a b) : Option.Rel R x y := by
  cases x <;> cases y
  . exact .none
  . cases isSome
  . cases isSome
  . exact .some (child _ _ rfl rfl)

theorem Matches.skips {old new : View} (hm : Matches old new) : Skips old new := by
  induction hm with
  | text same =>
    intro sole h
    rw [patchAs, if_pos same]
    exact ⟨_, rfl, .text same⟩
  | @html _ _ _ parent =>
    intro sole h
    cases parent <;>
    . rw [patchAs, if_pos rfl]
      exact ⟨_, rfl, .html⟩
  | @list items items' anchor anchor' parent parent' _ sole' keys item ih =>
    intro sole h
    have hself : ∀ node above alone,
        Matches (.list items' node above alone) (.list items' anchor' parent' sole') := by
      intro node above alone
      have hm : Matches (.ofItems items) (.ofItems items') := .list keys item
      cases hm.right with
      | list keys item => exact .list keys item
    match parent, anchor with
    | none, anchor => exact ⟨_, by rw [patchAs]; rfl; nofun, hself _ _ _⟩
    | some parent, none => exact ⟨_, by rw [patchAs]; rfl; nofun, hself _ _ _⟩
    | some parent, some anchor =>
      have hpairs := forall₂_of_keys keys ih
      rw [patchAs]
      split
      . exact ⟨_, rfl, .list keys item⟩
      split
      . next hne hempty =>
        rw [Bool.and_eq_true, List.isEmpty_iff] at hempty
        obtain ⟨rfl, -⟩ := hempty
        -- There are as few old items as new ones, a case that was dealt with before.
        rw [List.forall₂_nil_right_iff] at hpairs
        exact absurd (by simp [hpairs]) hne
      . obtain ⟨result, hreconcile, hresult⟩ := reconcile_unchanged hpairs parent anchor h
        exact ⟨_, bind_run hreconcile, .of_items hresult⟩
  | @multi children children' standIns _ parent parent' _ sole' isSome child ih =>
    intro sole h
    cases parent with
    | none =>
      rw [patchAs]
      have hm : Matches (.ofChildren children) (.ofChildren children') := .multi isSome child
      refine ⟨_, rfl, ?_⟩
      cases hm.right with
      | multi isSome child => exact .multi isSome child
    | some parent =>
      have hlength := congrArg List.length isSome
      rw [List.length_map, List.length_map] at hlength
      obtain ⟨result, hpatch, hresult⟩ := patchChildren_unchanged
        (forall₂_of_isSome isSome fun i a b ha hb => ⟨child i a b ha hb, ih i a b ha hb⟩) parent
        standIns h
      rw [patchAs, if_neg (not_not.2 hlength)]
      exact ⟨_, bind_run hpatch, .of_children hresult⟩
  | @toggler _ _ _ parent _ _ ih =>
    intro sole h
    obtain ⟨v, hpatch, hv⟩ := ih _ h
    cases parent <;>
    . rw [patchAs, if_pos rfl]
      exact ⟨_, bind_run hpatch, .toggler hv⟩
  | @block template data data' children children' mounted mounted' indices same isSome child ih =>
    intro sole h
    cases mounted with
    | none =>
      rw [patchAs, if_neg (not_not.2 rfl)]
      have hm : Matches (.block template data children none) (.block template data' children' mounted') :=
        .block indices same isSome child
      exact ⟨_, rfl, hm.right⟩
    | some anchorage =>
      exact patchBlock_unchanged indices same
        (fun slot hs => relates_of_isSome (isSome slot hs) (ih slot hs)) mounted' anchorage sole h

/--
A patch by a view that says what is there already leaves all of the host as it is: the nodes, their
content and their places, the counters and the trace. The view that is there afterwards can meet the
same patch again.
-/
theorem patch_unchanged {old new : View} (hm : Matches old new) (h : Host)
    : ∃ v, patch old new h = .ok v h ∧ Matches v new :=
  hm.skips new.isSole h

def paragraphsAgain (t : Template) : View :=
  .ofItems [(.int 2, .ofMarkup "<i/>"), (.int 1, .block t ⟨2, [.str "z"]⟩ [some (.ofItems [])] none)]

theorem Built.indices {alloc : Allocations} {t : Template} {data : Data} {children : List (Option View)}
    {mounted : Option Anchorage} (h : Built alloc (.block t data children mounted))
    : (t.wiring.slots.map (·.index)).Nodup := by
  cases h with
  | block _ indices _ _ made =>
    obtain ⟨_, heq, -⟩ := ofTemplate_eq_ok made
    cases heq
    exact indices

theorem Built.of_mem {alloc : Allocations} {items : List (Key × View)} (h : Built alloc (.ofItems items))
    {item : Key × View} (hi : item ∈ items) : Built alloc item.2 := by
  cases h with
  | list hitem => exact hitem item hi
  | block _ _ _ _ made =>
    obtain ⟨_, heq, -⟩ := ofTemplate_eq_ok made
    cases heq

theorem isSome_join {x y : Option (Option View)} (h : x.map (·.isSome) = y.map (·.isSome))
    : x.join.isSome = y.join.isSome := by
  match x, y, h with
  | none, none, _ => rfl
  | some x, some y, h => exact Option.some.inj h

theorem matches_paragraphsAgain {t : Template} {v : View}
    (indices : (t.wiring.slots.map (·.index)).Nodup)
    (halike : Alike v ((paragraphs t).getLastD (.ofText (.str "a")))) : Matches v (paragraphsAgain t) := by
  have hsame : ∀ i, (Data.at ⟨1, [.str "z"]⟩ i).same (Data.at ⟨2, [.str "z"]⟩ i) := by
    intro i
    cases i <;> rfl
  cases halike with
  | list keys item =>
    refine .list keys fun i a b ha hb => ?_
    match i with
    | 0 =>
      cases hb
      have halike := item 0 a _ ha rfl
      generalize a.2 = a at halike
      cases halike with
      | html => exact .html
    | 1 =>
      cases hb
      have halike := item 1 a _ ha rfl
      generalize a.2 = a at halike
      cases halike with
      | block isSome child =>
        refine .block indices (.inr fun l _ => hsame l.dataIndex) (fun slot hs => ?_)
          fun slot hs a b ha hb => ?_
        . exact isSome_join (isSome slot hs)
        . have hb := Option.join_eq_some_iff.1 hb
          cases List.mem_singleton.1 (List.mem_of_getElem? hb)
          cases child slot hs a _ (Option.join_eq_some_iff.1 ha) hb with
          | list keys item => exact .list keys fun i a b _ hb => by cases hb

theorem patch_unchanged_paragraphs
    : ∃ d t v h v', t.Compiled "<p>a<b><block-child-0/></b><block-text-0/></p>" true ∧
        run (.ofText (.str "a")) (paragraphs t) ⟨0, 0⟩ (some ⟨1, 0⟩) ⟨d, []⟩ = .ok v h ∧
        Matches v (paragraphsAgain t) ∧ patch v (paragraphsAgain t) h = .ok v' h ∧
        Matches v' (paragraphsAgain t) := by
  obtain ⟨d, c, hrun, hchildren, hparent⟩ := Document.Run.exists_paragraph
  have hparent : d.standing? ⟨0, 0⟩ = some ⟨none, [] ++ [⟨1, 0⟩], c⟩ := hparent
  obtain ⟨t, ht, hbuilt, hchain⟩ := exists_paragraphs
  obtain ⟨M, hd⟩ := hrun.wellFormed_and_capacity.1.exists_place hparent
  obtain ⟨v, h, hv, F, -, halike, -⟩ := run_yields (h := ⟨d, []⟩) hbuilt hchain hd
  have hblock : Built paragraphData (.block t ⟨1, [.str "z"]⟩ [some (.ofItems [])] none) :=
    (hbuilt _ List.getLastD_mem_cons).of_mem (List.mem_cons_of_mem _ List.mem_cons_self)
  have hm := matches_paragraphsAgain hblock.indices halike
  obtain ⟨v', hpatch, hv'⟩ := patch_unchanged hm h
  exact ⟨d, t, v, h, v', ht, hv, hm, hpatch, hv'⟩

end View
end VirtualDom
