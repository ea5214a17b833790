import VirtualDom.Proofs.Template.Copy

/-!
This module contains the openings of a copy told apart by the nodes that they are at, and not by the
children that they are for: each has a place of its own, also where several are for one child.
-/

namespace VirtualDom.Template

open Document (Place Shows)

def Opening.spot (o : Opening) : NodeId :=
  o.anchor.getD o.parent

namespace Marked

variable {S : Marked} {held : NodeId → Content} {guests : NodeId → Forest (NodeId × Content)}

/-- The nodes of a copy with what they hold by now, and with guests at the spots of its openings. -/
def settled (held : NodeId → Content) (guests : NodeId → Forest (NodeId × Content))
    : Marked → Forest (NodeId × Content)
  | .nil => .nil
  | .cons ((id, _), marks) children siblings =>
    Mark.hosted false (fun _ => guests id) marks ++
      .cons (id, held id) (Mark.hosted true (fun _ => guests id) marks ++ settled held guests children)
        (settled held guests siblings)

theorem map_settled {β : Type} (g : NodeId × Content → β) (guests' : Nat → Forest β) {p : NodeId}
    (h : ∀ o ∈ S.openings p, (guests o.spot).map g = guests' o.index)
    : (S.settled held guests).map g = fill (fun l => g (l.1.1, held l.1.1)) guests' S := by
  induction S generalizing p with
  | nil => rfl
  | cons label children siblings ihc ihs =>
    obtain ⟨⟨id, c⟩, marks⟩ := label
    simp only [openings, List.mem_append] at h
    have hmarks : ∀ i sole, .child i sole ∈ marks → (guests id).map g = guests' i := by
      intro i sole hi
      cases sole
      . exact h _ (.inl (.inl (List.mem_filterMap.2 ⟨_, hi, rfl⟩)))
      . exact h _ (.inl (.inl (List.mem_filterMap.2 ⟨_, hi, rfl⟩)))
    rw [settled, fill, Forest.map_append, Forest.map_cons, Forest.map_append, Mark.map_hosted,
      Mark.map_hosted, Mark.hosted_congr fun i => hmarks i false,
      Mark.hosted_congr fun i => hmarks i true, ihc fun o ho => h o (.inl (.inr ho)),
      ihs fun o ho => h o (.inr ho)]

theorem settled_nil : S.settled held (fun _ => .nil) = S.filled held fun _ => .nil := by
  induction S with
  | nil => rfl
  | cons label children siblings ihc ihs =>
    obtain ⟨⟨id, c⟩, marks⟩ := label
    rw [settled, filled_cons, ihc, ihs]

theorem spot_of_mem_marks {p id : NodeId} {marks : List Mark} {o : Opening}
    (h : o ∈ marks.filterMap (·.opening? p id)) : o.spot = id := by
  rcases opening_of_mem h with ⟨-, -, ha, -⟩ | ⟨-, hp, ha, -⟩
  . rw [Opening.spot, ha, Option.getD_some]
  . rw [Opening.spot, ha, Option.getD_none, hp]

theorem spot_mem {p : NodeId} {o : Opening} (ho : o ∈ S.openings p) : o.spot ∈ S.nodes.ids := by
  induction S generalizing p with
  | nil => cases ho
  | cons label children siblings ihc ihs =>
    obtain ⟨⟨id, c⟩, marks⟩ := label
    simp only [openings, List.mem_append] at ho
    rw [nodes_cons, Forest.ids_cons, List.mem_cons, List.mem_append]
    rcases ho with (ho | ho) | ho
    . exact .inl (spot_of_mem_marks ho)
    . exact .inr (.inl (ihc ho))
    . exact .inr (.inr (ihs ho))

theorem length_openings_le (p id : NodeId) {marks : List Mark}
    (hbefore : ∀ i, .child i false ∈ marks → marks = [.child i false])
    (hinside : ∀ i, .child i true ∈ marks →
      ∃ others, marks = others ++ [.child i true] ∧ ∀ j sole, .child j sole ∉ others)
    : (marks.filterMap (·.opening? p id)).length ≤ 1 := by
  have hnone : ∀ {marks : List Mark}, (∀ j sole, .child j sole ∉ marks) →
      marks.filterMap (·.opening? p id) = [] := by
    intro marks h
    refine List.filterMap_eq_nil_iff.2 fun m hm => ?_
    cases m with
    | child j sole => exact absurd hm (h j sole)
    | _ => rfl
  by_cases h : ∃ j sole, .child j sole ∈ marks
  . obtain ⟨i, sole, hi⟩ := h
    cases sole with
    | false =>
      rw [hbefore i hi]
      simp [Mark.opening?]
    | true =>
      obtain ⟨others, rfl, hothers⟩ := hinside i hi
      rw [List.filterMap_append, hnone hothers]
      simp [Mark.opening?]
  . rw [hnone fun j sole hj => h ⟨j, sole, hj⟩]
    exact Nat.zero_le _

theorem spots_nodup {p : NodeId} (hT : Tidy S.sketch) (hnd : S.nodes.ids.Nodup)
    : ((S.openings p).map (·.spot)).Nodup := by
  induction S generalizing p with
  | nil => exact .nil
  | cons label children siblings ihc ihs =>
    obtain ⟨⟨id, c⟩, marks⟩ := label
    rw [sketch_cons] at hT
    obtain ⟨-, hbefore, hinside, hTc, hTs⟩ := hT
    simp only [nodes_cons, Forest.ids_cons, List.nodup_cons, List.nodup_append, List.mem_append,
      not_or] at hnd
    obtain ⟨⟨hidc, hids⟩, hndc, hnds, hdisjoint⟩ := hnd
    have below : ∀ {T : Marked} {q : NodeId}, ∀ x ∈ (T.openings q).map (·.spot), x ∈ T.nodes.ids := by
      intro T q x hx
      obtain ⟨o, ho, rfl⟩ := List.mem_map.1 hx
      exact spot_mem ho
    have here : ∀ x ∈ (marks.filterMap (·.opening? p id)).map (·.spot), x = id := by
      intro x hx
      obtain ⟨o, ho, rfl⟩ := List.mem_map.1 hx
      exact spot_of_mem_marks ho
    have hone : ((marks.filterMap (·.opening? p id)).map (·.spot)).Nodup := by
      have hlength := length_openings_le p id hbefore fun i hi => (hinside i hi).2
      generalize marks.filterMap (·.opening? p id) = os at hlength
      match os, hlength with
      | [], _ => exact .nil
      | [o], _ => exact List.nodup_singleton _
    rw [openings, List.map_append, List.map_append, List.nodup_append, List.nodup_append]
    refine ⟨⟨hone, ihc hTc hndc, ?_⟩, ihs hTs hnds, ?_⟩
    . rintro x hx y hy rfl
      exact hidc (here x hx ▸ below x hy)
    . rintro x hx y hy rfl
      rcases List.mem_append.1 hx with hx | hx
      . exact hids (here x hx ▸ below x hy)
      . exact hdisjoint x (below x hx) x (below x hy) rfl

theorem settled_update {x : NodeId} (hx : x ∉ S.nodes.ids) (G : Forest (NodeId × Content))
    : S.settled held (Function.update guests x G) = S.settled held guests := by
  induction S with
  | nil => rfl
  | cons label children siblings ihc ihs =>
    obtain ⟨⟨id, c⟩, marks⟩ := label
    simp only [nodes_cons, Forest.ids_cons, List.mem_cons, List.mem_append, not_or] at hx
    rw [settled, settled, ihc hx.2.1, ihs hx.2.2, Function.update_of_ne (Ne.symm hx.1)]

variable (held guests) in
/-- The guest at a spot has a place of its own in the place of the copy, right before the anchor. -/
theorem exists_spot (hT : Tidy S.sketch) (hnd : S.nodes.ids.Nodup) {o : Opening} {pl : Place}
    (ho : o ∈ S.openings pl.node)
    : ∃ pl' : Place, pl'.node = o.parent ∧ pl'.after.head? = o.anchor ∧
        ∀ G, pl'.census G = pl.census (S.settled held (Function.update guests o.spot G)) := by
  induction S generalizing pl with
  | nil => cases ho
  | cons label children siblings ihc ihs =>
    obtain ⟨⟨id, c⟩, marks⟩ := label
    rw [sketch_cons] at hT
    obtain ⟨-, hbefore, hinside, hTc, hTs⟩ := hT
    simp only [nodes_cons, Forest.ids_cons, List.nodup_cons, List.nodup_append, List.mem_append,
      not_or] at hnd
    obtain ⟨⟨hidc, hids⟩, hndc, hnds, hdisjoint⟩ := hnd
    simp only [openings, List.mem_append] at ho
    rcases ho with (ho | ho) | ho
    -- The guest goes before the node itself, or is all that is in it.
    . have hspot := spot_of_mem_marks ho
      rcases opening_of_mem ho with ⟨-, hp, ha, hm⟩ | ⟨-, hp, ha, hm⟩
      . refine ⟨pl.narrow .nil (.cons (id, held id) (settled held guests children)
          (settled held guests siblings)), hp.symm, ha.symm, ?_⟩
        intro G
        rw [Place.census_narrow, settled, hspot, settled_update hidc, settled_update hids, hbefore _ hm]
        simp [Mark.hosted, Mark.guest]
      . obtain ⟨hnil, others, rfl, hothers⟩ := hinside _ hm
        obtain rfl := eq_nil_of_sketch hnil
        refine ⟨pl.descend id (held id) (settled held guests siblings), hp.symm, ha.symm, ?_⟩
        intro G
        rw [Place.census_descend, settled, hspot, settled_update hids, (Mark.hosted_sole hothers _).1,
          (Mark.hosted_sole hothers _).2, Function.update_self]
        simp [settled]
    -- Among the children the place is within what the node has in it.
    . have hspot := spot_mem ho
      have hid : id ≠ o.spot := fun h => hidc (h ▸ hspot)
      have his : o.spot ∉ (nodes siblings).ids := fun h => hdisjoint _ hspot _ h rfl
      obtain ⟨pl', hp, ha, hpl'⟩ := @ihc hTc hndc (((pl.narrow (Mark.hosted false (fun _ => guests id) marks)
        .nil).descend id (held id) (settled held guests siblings)).narrow
          (Mark.hosted true (fun _ => guests id) marks) .nil) ho
      refine ⟨pl', hp, ha, ?_⟩
      intro G
      rw [hpl', Place.census_narrow, Place.census_descend, Place.census_narrow, settled,
        settled_update his, Function.update_of_ne hid]
      simp
    -- Among the siblings it is within what comes after the node.
    . have hspot := spot_mem ho
      have hid : id ≠ o.spot := fun h => hids (h ▸ hspot)
      have hic : o.spot ∉ (nodes children).ids := fun h => hdisjoint _ h _ hspot rfl
      obtain ⟨pl', hp, ha, hpl'⟩ := @ihs hTs hnds (pl.narrow (Mark.hosted false (fun _ => guests id) marks ++
        .cons (id, held id) (Mark.hosted true (fun _ => guests id) marks ++ settled held guests children)
          .nil) .nil) ho
      refine ⟨pl', hp, ha, ?_⟩
      intro G
      rw [hpl', Place.census_narrow, settled, settled_update hic, Function.update_of_ne hid]
      simp [Forest.append_assoc]

end Marked

theorem Compiled.rootIds_settled {t : Template} {source : String} {normalize : Bool}
    (ht : t.Compiled source normalize) {root : NodeId} {references : List NodeId} {S : Marked}
    (copied : t.Copied root references S) (held : NodeId → Content)
    (guests : NodeId → Forest (NodeId × Content)) : (S.settled held guests).rootIds = [root] := by
  have hroot := copied.rootIds held fun _ => .nil
  obtain ⟨id, c, marks, C, rfl⟩ := ht.exists_root copied.sketch
  have hmarks := ht.not_child_before_root copied.sketch
  rw [Marked.filled_cons, Mark.hosted_of_not_mem hmarks] at hroot
  rw [Marked.settled, Mark.hosted_of_not_mem hmarks]
  exact hroot

end VirtualDom.Template
