import Mathlib.Algebra.BigOperators.Intervals
import Mathlib.Algebra.Order.BigOperators.Group.List
import Mathlib.Data.Multiset.OrderedMonoid
import VirtualDom.Proofs.Ownership.Owns
import VirtualDom.Proofs.View.Remove

/-!
This module contains the views in mounted ones: each has its own nodes among those of its view, and the
components among them, which have an element each, are the ones that are told when the view goes.
-/

namespace VirtualDom

open Template (Marked Mark Opening)

namespace View

section Block

variable {t : Template} {root p q : NodeId} {references : List NodeId} {S : Marked}
  {children : List (Option View)}

theorem parentAt_eq (copied : t.Copied root references S)
    (indices : (t.wiring.slots.map (·.index)).Nodup) {o : Opening} (ho : o ∈ S.openings q)
    : t.parentAt references o.index = some o.parent := by
  have hmem : some o ∈ t.wiring.slots.map (·.resolve references) := by
    rw [copied.openings q]
    exact List.mem_map_of_mem ho
  obtain ⟨slot, hs, hso⟩ := List.mem_map.1 hmem
  obtain ⟨hindex, -, hparent, -⟩ := Template.ChildSlot.resolve_eq_some hso
  unfold Template.parentAt
  cases hfind : t.wiring.slots.find? (·.index = o.index) with
  | none => exact absurd hindex (by simpa using List.find?_eq_none.1 hfind slot hs)
  | some found =>
    have hfound : found.index = o.index := by simpa using List.find?_some hfind
    obtain rfl := List.inj_on_of_nodup_map indices (List.mem_of_find?_eq_some hfind) hs
      (hfound.trans hindex.symm)
    rw [Option.bind_some, hparent]

theorem exists_opening_of_parentAt (copied : t.Copied root references S)
    (indices : (t.wiring.slots.map (·.index)).Nodup) {i : Nat}
    (hi : t.parentAt references i = some q) (p : NodeId)
    : ∃ o ∈ S.openings p, o.index = i ∧ o.parent = q := by
  obtain ⟨slot, hfind, -⟩ := Option.bind_eq_some_iff.1 hi
  obtain ⟨o, ho, hso⟩ := copied.exists_opening (List.mem_of_find?_eq_some hfind) p
  have hslot : slot.index = i := by simpa using List.find?_some hfind
  obtain rfl : o.index = i := hso.symm.trans hslot
  exact ⟨o, ho, rfl, Option.some.inj ((parentAt_eq copied indices ho).symm.trans hi)⟩

theorem holdings_copied (copied : t.Copied root references S)
    (indices : (t.wiring.slots.map (·.index)).Nodup)
    (capacity : ∀ slot ∈ t.wiring.slots, slot.index < children.length) (data : Data)
    : holdings p (.block t data children (some ⟨root, references⟩))
        = (0, (t.links references data : Multiset Link))
          + ((S.openings p).map fun o => holdingsAt o.parent children[o.index]?.join).sum := by
  rw [holdings_block, holdingsOf_childLodgers]
  simp only [Nat.zero_add]
  have hindices := copied.indices_eq p
  have hnd : ((S.openings p).map (·.index)).Nodup := hindices ▸ indices
  have hsub : ((S.openings p).map (·.index)).toFinset ⊆ Finset.range children.length := by
    intro i hi
    rw [List.mem_toFinset, hindices] at hi
    obtain ⟨slot, hs, rfl⟩ := List.mem_map.1 hi
    exact Finset.mem_range.2 (capacity slot hs)
  rw [← Finset.sum_subset hsub, List.sum_toFinset _ hnd, List.map_map]
  . congr 2
    apply List.map_congr_left
    intro o ho
    rw [Function.comp_apply, parentAt_eq copied indices ho]
    rfl
  . intro i _ hi
    cases hparent : t.parentAt references i with
    | none => rfl
    | some q =>
      obtain ⟨o, ho, rfl, -⟩ := exists_opening_of_parentAt copied indices hparent p
      exact absurd (List.mem_toFinset.2 (List.mem_map_of_mem ho)) hi

end Block

section Farewells

variable {u : Usage} {d : Document} {v : View} {p : NodeId} {F : Forest (NodeId × Content)}

theorem Mountable.farewells_eq_nil (hv : Mountable u v) (hc : ¬ u.custom) : v.farewells d = [] := by
  have hchildren : ∀ {children : List (Option View)}, (∀ w, some w ∈ children → w.farewells d = []) →
      childFarewells d children = [] := by
    intro children
    induction children with
    | nil => exact fun _ => rfl
    | cons child rest ih =>
      intro hchild
      have hrest := ih fun w hw => hchild w (List.mem_cons_of_mem _ hw)
      cases child with
      | none => rw [childFarewells, hrest]
      | some w => rw [childFarewells, hrest, hchild w List.mem_cons_self, List.append_nil]
  induction hv with
  | text | html => rfl
  | @list items anchor parent sole item not_sole ih =>
    rw [farewells]
    clear item not_sole
    induction items with
    | nil => rfl
    | cons item rest ihr =>
      rw [itemFarewells, ih item List.mem_cons_self, List.nil_append]
      exact ihr fun i hi => ih i (List.mem_cons_of_mem _ hi)
  | multi child not_sole ih => exact hchildren ih
  | toggler inner not_sole ih => exact ih
  | block known compiled indices capacity placed child ih => exact hchildren ih
  | component custom => exact absurd custom hc
  | ghost custom => exact absurd custom hc

theorem itemFarewells_eq {items : List (Key × View)}
    (h : ∀ item ∈ items, item.2.farewells d = (item.2.components p).map (·.farewell d))
    : itemFarewells d items
        = ((itemLodgers p items).filterMap Lodger.component?).map (·.farewell d) := by
  induction items with
  | nil => rfl
  | cons item rest ih =>
    rw [itemFarewells, itemLodgers, List.filterMap_append, List.map_append, h item List.mem_cons_self,
      ih fun item hi => h item (List.mem_cons_of_mem _ hi), components]

theorem childFarewells_eq {parent : Nat → Option NodeId} {i : Nat} {children : List (Option View)}
    (h : ∀ (j : Nat) (w : View), children[j]? = some (some w) →
      w.farewells d = ((parent (i + j)).elim [] (w.components ·)).map (·.farewell d))
    : childFarewells d children
        = ((childLodgers parent i children).filterMap Lodger.component?).map (·.farewell d) := by
  induction children generalizing i with
  | nil => rfl
  | cons child rest ih =>
    have hrest : childFarewells d rest
        = ((childLodgers parent (i + 1) rest).filterMap Lodger.component?).map (·.farewell d) := by
      apply ih
      intro j w hw
      rw [Nat.add_right_comm]
      exact h (j + 1) w hw
    cases child with
    | none => rw [childFarewells, childLodgers, hrest]
    | some w =>
      rw [childFarewells, childLodgers, List.filterMap_append, List.map_append, h 0 w rfl, hrest,
        Nat.add_zero]
      cases parent i <;> rfl

theorem Owns.farewells_eq (h : Owns u v p F) : v.farewells d = (v.components p).map (·.farewell d) := by
  induction h with
  | text | html | ghost => rfl
  | list row not_sole tree ih =>
    rw [farewells, components, lodgers, itemFarewells_eq]
    . rfl
    . simpa [Row.item] using ih
  | @multi cells p sole child not_sole standIn ih =>
    rw [farewells, components, lodgers, childFarewells_eq]
    . rfl
    . intro j w hw
      rw [List.getElem?_map] at hw
      obtain ⟨c, hc, hcw⟩ := Option.map_eq_some_iff.1 hw
      exact ih c (List.mem_of_getElem? hc) w hcw
  | toggler inner not_sole ih => exact ih
  | @block template data children root p references S held guests mountable copied child sole absent ih =>
    rw [farewells, components, lodgers, childFarewells_eq]
    . rfl
    . intro j w hw
      rw [Nat.zero_add]
      cases mountable with
      | block known compiled indices capacity placed mountable =>
        cases hparent : template.parentAt references j with
        | some q =>
          obtain ⟨o, ho, rfl, rfl⟩ := exists_opening_of_parentAt copied indices hparent p
          exact ih o ho w hw
        | none =>
          -- A child without a slot is no component, and has none in it.
          refine (mountable w (List.mem_of_getElem? hw)).farewells_eq_nil fun hc => ?_
          obtain ⟨slot, hs, rfl⟩ := placed hc j w hw
          obtain ⟨o, ho, hso⟩ := copied.exists_opening hs p
          rw [hso, parentAt_eq copied indices ho] at hparent
          cases hparent
  | @component name child id p c F custom absent inner not_sole ih =>
    cases child with
    | none => rfl
    | some child =>
      rw [farewells, ih child rfl]
      rfl

end Farewells

end View

section Ties

def Forest.ties (a : Option NodeId) (F : Forest (NodeId × Content))
    : Multiset (NodeId × Option NodeId) :=
  (F.bonds a).map fun e => (e.1, e.2.parent)

variable {a : Option NodeId} {F G : Forest (NodeId × Content)}

@[simp]
theorem Forest.ties_nil : Forest.ties a .nil = 0 :=
  rfl

theorem Forest.ties_cons (id : NodeId) (c : Content) (F G : Forest (NodeId × Content))
    : ties a (.cons (id, c) F G) = (id, a) ::ₘ (F.ties (some id) + G.ties a) := by
  rw [ties, bonds_cons, Multiset.map_cons, Multiset.map_add]
  rfl

@[simp]
theorem Forest.ties_append : (F ++ G).ties a = F.ties a + G.ties a := by
  rw [ties, bonds_append, Multiset.map_add]
  rfl

theorem Forest.mem_ties_of_root {id : NodeId} (hid : id ∈ F.rootIds) : (id, a) ∈ F.ties a := by
  obtain ⟨ks, c, hs⟩ := Forest.mem_census_of_root (a := a) hid
  rw [ties, bonds, Document.bonds, Multiset.map_map]
  exact Multiset.mem_map_of_mem _ hs

theorem Forest.ties_join (Fs : List (Forest (NodeId × Content)))
    : (join Fs).ties a = (Fs.map (ties a)).sum := by
  induction Fs with
  | nil => rfl
  | cons G Fs ih => rw [join_cons, ties_append, ih, List.map_cons, List.sum_cons]

theorem Forest.ties_le_join {Fs : List (Forest (NodeId × Content))} (hF : F ∈ Fs)
    : F.ties a ≤ (join Fs).ties a := by
  rw [ties_join]
  exact List.le_sum_of_mem (List.mem_map_of_mem hF)

theorem Template.Marked.ties_hosted {id p : NodeId} (marks : List Mark)
    (guests : Nat → Forest (NodeId × Content))
    : ((marks.filterMap (·.opening? p id)).map fun o => (guests o.index).ties (some o.parent)).sum
        = (Mark.hosted false guests marks).ties (some p)
            + (Mark.hosted true guests marks).ties (some id) := by
  induction marks with
  | nil => rfl
  | cons m rest ih =>
    have hcons : ∀ sole, Mark.hosted sole guests (m :: rest)
        = m.guest sole guests ++ Mark.hosted sole guests rest := fun _ => rfl
    rw [hcons, hcons, Forest.ties_append, Forest.ties_append, add_add_add_comm, ← ih]
    match m with
    | .child i false => simp [Mark.opening?, Mark.guest]
    | .child i true => simp [Mark.opening?, Mark.guest]
    | .text _ | .handler _ _ | .attribute _ _ _ | .bag _ | .ref _ => simp [Mark.opening?, Mark.guest]

theorem Template.Marked.ties_filled {p : NodeId} (S : Marked) (held : NodeId → Content)
    (guests : Nat → Forest (NodeId × Content))
    : ((S.openings p).map fun o => (guests o.index).ties (some o.parent)).sum
        ≤ (S.filled held guests).ties (some p) := by
  induction S generalizing p with
  | nil => exact le_rfl
  | cons label children siblings ihc ihs =>
    obtain ⟨⟨id, c⟩, marks⟩ := label
    rw [filled_cons, openings, List.map_append, List.map_append, List.sum_append, List.sum_append,
      ties_hosted, Forest.ties_append, Forest.ties_cons, Forest.ties_append]
    calc (Mark.hosted false guests marks).ties (some p) + (Mark.hosted true guests marks).ties (some id)
          + ((openings id children).map fun o => (guests o.index).ties (some o.parent)).sum
          + ((openings p siblings).map fun o => (guests o.index).ties (some o.parent)).sum
        ≤ (Mark.hosted false guests marks).ties (some p) + (Mark.hosted true guests marks).ties (some id)
            + (filled children held guests).ties (some id)
            + (filled siblings held guests).ties (some p) := add_le_add (add_le_add_right ihc _) ihs
      _ = (Mark.hosted false guests marks).ties (some p) + ((Mark.hosted true guests marks).ties (some id)
            + (filled children held guests).ties (some id) + (filled siblings held guests).ties (some p))
          := by abel
      _ ≤ _ := add_le_add_right (Multiset.le_cons_self _ _) _

def Component.tie (c : Component) : NodeId × Option NodeId :=
  (c.element, some c.parent)

namespace View

variable {u : Usage} {v : View} {p : NodeId} {l : Lodger}

section Lodgers

theorem mem_itemLodgers {items : List (Key × View)}
    : l ∈ itemLodgers p items ↔ ∃ item ∈ items, l ∈ item.2.lodgers p := by
  induction items with
  | nil => simp [itemLodgers]
  | cons item rest ih => rw [itemLodgers, List.mem_append, ih, List.exists_mem_cons_iff]

theorem exists_of_mem_childLodgers {parent : Nat → Option NodeId} {i : Nat}
    {children : List (Option View)} (hl : l ∈ childLodgers parent i children)
    : ∃ (j : Nat) (w : View) (q : NodeId), children[j]? = some (some w) ∧ parent (i + j) = some q ∧
        l ∈ w.lodgers q := by
  induction children generalizing i with
  | nil => cases hl
  | cons child rest ih =>
    have hrest : l ∈ childLodgers parent (i + 1) rest → ∃ (j : Nat) (w : View) (q : NodeId),
        (child :: rest)[j]? = some (some w) ∧ parent (i + j) = some q ∧ l ∈ w.lodgers q := by
      intro hl
      obtain ⟨j, w, q, hw, hq, hl⟩ := ih hl
      exact ⟨j + 1, w, q, hw, by rwa [Nat.add_right_comm] at hq, hl⟩
    cases child with
    | none => exact hrest hl
    | some child =>
      rcases List.mem_append.1 hl with hl | hl
      . cases hq : parent i with
        | none =>
          rw [hq] at hl
          cases hl
        | some q =>
          rw [hq] at hl
          exact ⟨0, child, q, rfl, hq, hl⟩
      . exact hrest hl

end Lodgers

theorem Owns.lodger (h : Owns u v p F) (hl : l ∈ v.lodgers p)
    : ∃ G, Owns u l.view l.parent G ∧ G.ties (some l.parent) ≤ F.ties (some p) := by
  induction h with
  | text tree =>
    cases List.mem_singleton.1 hl
    exact ⟨_, .text tree, le_rfl⟩
  | html ne_nil =>
    cases List.mem_singleton.1 hl
    exact ⟨_, .html ne_nil, le_rfl⟩
  | @list rows anchor p sole T row not_sole tree ih =>
    rcases List.mem_cons.1 hl with rfl | hl
    . exact ⟨_, .list row not_sole tree, le_rfl⟩
    obtain ⟨item, hitem, hl⟩ := mem_itemLodgers.1 hl
    obtain ⟨r, hr, rfl⟩ := List.mem_map.1 hitem
    obtain ⟨G, hG, hle⟩ := ih r hr hl
    refine ⟨G, hG, hle.trans ((Forest.ties_le_join (List.mem_map_of_mem hr)).trans ?_)⟩
    rw [Forest.ties_append]
    exact Multiset.le_add_right _ _
  | @multi cells p sole child not_sole standIn ih =>
    rcases List.mem_cons.1 hl with rfl | hl
    . exact ⟨_, .multi child not_sole standIn, le_rfl⟩
    obtain ⟨j, w, _, hw, ⟨⟩, hl⟩ := exists_of_mem_childLodgers hl
    obtain ⟨c, hc, hcw⟩ := List.mem_map.1 (List.mem_of_getElem? hw)
    obtain ⟨G, hG, hle⟩ := ih c hc w hcw hl
    exact ⟨G, hG, hle.trans (Forest.ties_le_join (List.mem_map_of_mem hc))⟩
  | toggler inner not_sole ih =>
    rcases List.mem_cons.1 hl with rfl | hl
    . exact ⟨_, .toggler inner not_sole, le_rfl⟩
    . exact ih hl
  | @block template data children root p references S held guests mountable copied child sole absent ih =>
    rcases List.mem_cons.1 hl with rfl | hl
    . exact ⟨_, .block mountable copied child sole absent, le_rfl⟩
    obtain ⟨j, w, q, hw, hq, hl⟩ := exists_of_mem_childLodgers hl
    rw [Nat.zero_add] at hq
    cases mountable with
    | block known compiled indices =>
      obtain ⟨o, ho, rfl, rfl⟩ := exists_opening_of_parentAt copied indices hq p
      obtain ⟨G, hG, hle⟩ := ih o ho w hw hl
      have hguest : (guests o.index).ties (some o.parent)
          ≤ ((S.openings p).map fun o => (guests o.index).ties (some o.parent)).sum :=
        List.le_sum_of_mem (List.mem_map.2 ⟨o, ho, rfl⟩)
      exact ⟨G, hG, hle.trans (hguest.trans (Marked.ties_filled S held guests))⟩
  | @component name child id p c F custom absent inner not_sole ih =>
    cases child with
    | none =>
      cases List.mem_singleton.1 hl
      exact ⟨_, .component custom absent inner not_sole, le_rfl⟩
    | some child =>
      rcases List.mem_cons.1 hl with rfl | hl
      . exact ⟨_, .component custom absent inner not_sole, le_rfl⟩
      obtain ⟨G, hG, hle⟩ := ih child rfl hl
      refine ⟨G, hG, hle.trans ?_⟩
      rw [Forest.ties_cons, Forest.ties_nil, add_zero]
      exact Multiset.le_cons_self _ _
  | ghost custom =>
    cases List.mem_singleton.1 hl
    exact ⟨_, .ghost custom, le_rfl⟩

theorem Owns.parent_node {d : Document} {s : Document.Site} (h : Owns u v s.node F)
    (hd : d.Carries s F) (hl : l ∈ v.lodgers s.node) {n : NodeId} (hn : n ∈ l.view.nodes)
    : d.parent n = .ok (some l.parent) := by
  obtain ⟨G, hG, hle⟩ := h.lodger hl
  rw [hG.nodes_eq] at hn
  obtain ⟨⟨id, b⟩, hb, heq⟩ := Multiset.mem_map.1 (Multiset.mem_of_le hle (Forest.mem_ties_of_root hn))
  obtain ⟨rfl, hparent⟩ := Prod.mk.inj heq
  have := hd.parent_of_mem (Multiset.mem_add.2 (.inl hb))
  rwa [hparent] at this

def heldTies : Holdings →+ Multiset (NodeId × Option NodeId) :=
  (Multiset.mapAddMonoidHom Component.tie).comp (AddMonoidHom.fst _ _)

/-- The elements of components are different nodes of their view, which have the parents they had. -/
theorem Owns.ties_le (h : Owns u v p F) : heldTies (v.holdings p) ≤ F.ties (some p) := by
  induction h with
  | text | html | ghost => exact Multiset.zero_le _
  | @list rows anchor p sole T row not_sole tree ih =>
    rw [holdings_list, Forest.ties_append, Forest.ties_join, map_list_sum, List.map_map, List.map_map,
      List.map_map]
    exact (List.sum_le_sum ih).trans (Multiset.le_add_right _ _)
  | @multi cells p sole child not_sole standIn ih =>
    rw [holdings_multi, Forest.ties_join, map_list_sum, List.map_map, List.map_map, List.map_map]
    refine List.sum_le_sum fun c hc => ?_
    simp only [Function.comp_apply]
    cases hcc : c.child with
    | none => exact Multiset.zero_le _
    | some v => exact ih c hc v hcc
  | toggler inner not_sole ih =>
    rw [holdings_toggler]
    exact ih
  | @block template data children root p references S held guests mountable copied child sole absent ih =>
    cases mountable with
    | block known compiled indices capacity placed =>
      rw [holdings_copied copied indices capacity, map_add, map_list_sum, List.map_map]
      refine le_trans ?_ (Marked.ties_filled S held guests)
      refine (zero_add _).trans_le (List.sum_le_sum fun o ho => ?_)
      rw [Function.comp_apply]
      cases hc : children[o.index]? with
      | none => exact Multiset.zero_le _
      | some child =>
        cases child with
        | none => exact Multiset.zero_le _
        | some w => exact ih o ho w hc
  | @component name child id p c F custom absent inner not_sole ih =>
    rw [Forest.ties_cons, Forest.ties_nil, add_zero, holdings_component, map_add]
    refine Multiset.cons_le_cons _ ?_
    cases child with
    | none => exact Multiset.zero_le _
    | some child => exact ih child rfl

theorem Owns.nodup_elements (h : Owns u v p F) (hF : F.ids.Nodup)
    : ((v.components p).map (·.element)).Nodup := by
  have hle := Multiset.map_le_map (f := Prod.fst) h.ties_le
  have hheld : (heldTies (v.holdings p)).map Prod.fst
      = ((v.components p).map (·.element) : List NodeId) :=
    Multiset.map_map Prod.fst Component.tie (v.components p : Multiset Component)
  rw [hheld, Forest.ties, Forest.bonds, Document.bonds, Multiset.map_map, Multiset.map_map] at hle
  have hids : F.ids.Nodup := hF
  rw [← Multiset.coe_nodup, ← Forest.map_census (a := some p)] at hids
  exact Multiset.coe_nodup.1 (Multiset.nodup_of_le hle hids)

end View
end Ties

end VirtualDom
