import VirtualDom.Proofs.Document.Run

/-!
This module contains the ways up from nodes: in a well-formed document each node has one, which ends at a
node without a parent and visits no slot twice.
-/

namespace VirtualDom.Document

variable {d : Document} {id : NodeId} {ids xs ys : List NodeId}

/-- A node, its parent, the parent of that one, and so on up to a node without a parent. -/
inductive Lineage (d : Document) : NodeId → List NodeId → Prop
  | root {id : NodeId} (parent : d.parent id = .ok none) : Lineage d id [id]
  | child {id parent : NodeId} {ids : List NodeId} (parent_eq : d.parent id = .ok (some parent))
      (rest : Lineage d parent ids) : Lineage d id (id :: ids)

namespace Lineage

theorem unique (hx : d.Lineage id xs) (hy : d.Lineage id ys) : xs = ys := by
  induction hx generalizing ys with
  | root parent =>
    cases hy with
    | root => rfl
    | child parent_eq => cases parent.symm.trans parent_eq
  | child parent_eq rest ih =>
    cases hy with
    | root parent => cases parent.symm.trans parent_eq
    | child parent_eq' rest' =>
      cases parent_eq.symm.trans parent_eq'
      rw [ih rest']

theorem exists_cons (hl : d.Lineage id ids) : ∃ rest, ids = id :: rest := by
  cases hl with
  | root parent => exact ⟨[], rfl⟩
  | child parent_eq rest => exact ⟨_, rfl⟩

theorem lt_of_mem {height : NodeId → Nat}
    (hh : ∀ {c m p}, d.node? c = some m → m.parent = some p → height c < height p)
    (hl : d.Lineage id ids) : ∃ rest, ids = id :: rest ∧ ∀ x ∈ rest, height id < height x := by
  induction hl with
  | root parent => exact ⟨[], rfl, nofun⟩
  | child parent_eq rest ih =>
    obtain ⟨others, rfl, hlt⟩ := ih
    obtain ⟨n, hn, hp⟩ := parent_eq_ok.1 parent_eq
    refine ⟨_, rfl, List.forall_mem_cons.2 ⟨hh hn hp, fun x hx => ?_⟩⟩
    exact (hh hn hp).trans (hlt x hx)

theorem nodup (hl : d.Lineage id ids) (hwf : d.WellFormed) : ids.Nodup := by
  obtain ⟨height, hh⟩ := hwf.acyclic
  induction hl with
  | root parent => exact List.nodup_singleton _
  | child parent_eq rest ih =>
    obtain ⟨_, heq, hlt⟩ := (Lineage.child parent_eq rest).lt_of_mem hh
    cases heq
    exact List.nodup_cons.2 ⟨fun hm => Nat.lt_irrefl _ (hlt _ hm), ih⟩

theorem exists_node (hl : d.Lineage id ids) : ∀ x ∈ ids, ∃ n, d.node? x = some n := by
  induction hl with
  | root parent =>
    obtain ⟨n, hn, -⟩ := parent_eq_ok.1 parent
    exact List.forall_mem_singleton.2 ⟨n, hn⟩
  | child parent_eq rest ih =>
    obtain ⟨n, hn, -⟩ := parent_eq_ok.1 parent_eq
    exact List.forall_mem_cons.2 ⟨⟨n, hn⟩, ih⟩

theorem length_le (hl : d.Lineage id ids) (hwf : d.WellFormed) : ids.length ≤ d.capacity :=
  length_le_size (hl.nodup hwf) hl.exists_node

end Lineage

/-- Above nodes that were left behind there is a way up, as there is no room for ever more of them. -/
theorem WellFormed.exists_lineage_above (hwf : d.WellFormed) {height : NodeId → Nat}
    (hh : ∀ {c m p}, d.node? c = some m → m.parent = some p → height c < height p)
    {id : NodeId} {n : Node} (hn : d.node? id = some n) {below : List NodeId} (hnd : below.Nodup)
    (hbelow : ∀ x ∈ below, (∃ m, d.node? x = some m) ∧ height x < height id)
    : ∃ ids, d.Lineage id ids := by
  have hvisited : (id :: below).Nodup :=
    List.nodup_cons.2 ⟨fun hm => Nat.lt_irrefl _ (hbelow id hm).2, hnd⟩
  have hroom : below.length < d.slots.size :=
    length_le_size hvisited (List.forall_mem_cons.2 ⟨⟨n, hn⟩, fun x hx => (hbelow x hx).1⟩)
  cases hp : n.parent with
  | none => exact ⟨_, .root (parent_eq_ok.2 ⟨n, hn, hp⟩)⟩
  | some p =>
    obtain ⟨⟨m, hm⟩, -⟩ := hwf.links.mem_kids hn hp
    have hlt := hh hn hp
    have habove : ∀ x ∈ id :: below, (∃ m, d.node? x = some m) ∧ height x < height p :=
      List.forall_mem_cons.2
        ⟨⟨⟨n, hn⟩, hlt⟩, fun x hx => ⟨(hbelow x hx).1, (hbelow x hx).2.trans hlt⟩⟩
    obtain ⟨ids, hids⟩ := hwf.exists_lineage_above hh hm hvisited habove
    exact ⟨_, .child (parent_eq_ok.2 ⟨n, hn, hp⟩) hids⟩
termination_by d.slots.size - below.length
decreasing_by simp only [List.length_cons]; omega

theorem WellFormed.exists_lineage (hwf : d.WellFormed) (hid : d.contains id) : ∃ ids, d.Lineage id ids := by
  obtain ⟨height, hh⟩ := hwf.acyclic
  obtain ⟨n, hn⟩ := Option.isSome_iff_exists.1 hid
  exact hwf.exists_lineage_above hh hn List.nodup_nil nofun

end VirtualDom.Document
