import VirtualDom.Proofs.Document.Tree
import VirtualDom.Proofs.Document.Write

/-!
This module contains places in documents: a run of siblings and everything around it. What is done to
the run leaves the rest of the document alone, and a place in a part of it is a place in the document.
-/

namespace VirtualDom.Document

/-- A node with what it has in it before and after some run of children, and all other nodes. -/
structure Place where
  node : NodeId
  parent : Option NodeId
  content : Content
  before : List NodeId
  after : List NodeId
  rest : Multiset (NodeId × Standing)

namespace Place

def narrow (pl : Place) (A B : Forest (NodeId × Content)) : Place :=
  { pl with
    before := pl.before ++ A.rootIds
    after := B.rootIds ++ pl.after
    rest := A.census (some pl.node) + B.census (some pl.node) + pl.rest }

/-- The place of all that is in the node `id`, which comes first there and has `B` after it. -/
def descend (pl : Place) (id : NodeId) (c : Content) (B : Forest (NodeId × Content)) : Place where
  node := id
  parent := some pl.node
  content := c
  before := []
  after := []
  rest := B.census (some pl.node)
    + (pl.node, ⟨pl.parent, pl.before ++ id :: B.rootIds ++ pl.after, pl.content⟩) ::ₘ pl.rest

def beside (pl : Place) (M : Multiset (NodeId × Standing)) : Place :=
  { pl with rest := M + pl.rest }

def census (pl : Place) (F : Forest (NodeId × Content)) : Multiset (NodeId × Standing) :=
  F.census (some pl.node)
    + (pl.node, ⟨pl.parent, pl.before ++ F.rootIds ++ pl.after, pl.content⟩) ::ₘ pl.rest

variable (pl : Place) (A B F : Forest (NodeId × Content)) (M : Multiset (NodeId × Standing))

@[simp]
theorem beside_zero : pl.beside 0 = pl := by
  simp [beside]

theorem beside_beside (N : Multiset (NodeId × Standing))
    : (pl.beside M).beside N = pl.beside (N + M) := by
  simp [beside, Multiset.add_assoc]

theorem census_nil
    : pl.census .nil = (pl.node, ⟨pl.parent, pl.before ++ pl.after, pl.content⟩) ::ₘ pl.rest := by
  simp [census]

theorem map_census
    : (pl.census F).map (·.1) = (F.ids : Multiset NodeId) + (pl.census .nil).map (·.1) := by
  simp [census, Forest.map_census]

theorem census_narrow : (pl.narrow A B).census F = pl.census (A ++ F ++ B) := by
  simp only [census, narrow, Forest.census_append, Forest.rootIds_append, List.append_assoc,
    ← Multiset.singleton_add]
  abel

theorem census_descend (id : NodeId) (c : Content)
    : (pl.descend id c B).census F = pl.census (.cons (id, c) F B) := by
  simp only [census, descend, Forest.census_cons, Forest.rootIds_cons, List.append_nil,
    List.nil_append, ← Multiset.singleton_add]
  abel

theorem census_beside : (pl.beside M).census F = M + pl.census F := by
  simp only [census, beside, ← Multiset.singleton_add]
  abel

theorem census_apart (id : NodeId) (c : Content)
    : (Forest.cons (id, c) F .nil).census none + pl.census (A ++ B)
        = (id, ⟨none, F.rootIds, c⟩) ::ₘ (pl.node, ⟨pl.parent,
            (pl.before ++ A.rootIds) ++ (B.rootIds ++ pl.after), pl.content⟩) ::ₘ
            (F.census (some id) + (A ++ B).census (some pl.node) + pl.rest) := by
  simp only [census, Forest.census_cons, Forest.census_nil, Forest.rootIds_append, List.append_assoc,
    ← Multiset.singleton_add]
  abel

theorem census_amid (id : NodeId) (c : Content)
    : pl.census (A ++ Forest.cons (id, c) F .nil ++ B)
        = (id, ⟨some pl.node, F.rootIds, c⟩) ::ₘ (pl.node, ⟨pl.parent,
            (pl.before ++ A.rootIds) ++ id :: (B.rootIds ++ pl.after), pl.content⟩) ::ₘ
            (F.census (some id) + (A ++ B).census (some pl.node) + pl.rest) := by
  simp only [census, Forest.census_append, Forest.census_cons, Forest.census_nil,
    Forest.rootIds_append, Forest.rootIds_cons, Forest.rootIds_nil, List.append_assoc,
    List.cons_append, List.nil_append, ← Multiset.singleton_add]
  abel

end Place

def Shows (d : Document) (pl : Place) (F : Forest (NodeId × Content)) : Prop :=
  d.Holds (pl.census F)

variable {d d' : Document} {pl : Place} {A B C D F T : Forest (NodeId × Content)} {id : NodeId}
  {c : Content}

theorem shows_narrow : d.Shows (pl.narrow A B) F ↔ d.Shows pl (A ++ F ++ B) := by
  rw [Shows, Place.census_narrow, Shows]

theorem shows_behind : d.Shows (pl.narrow A .nil) F ↔ d.Shows pl (A ++ F) := by
  rw [shows_narrow, Forest.append_nil]

theorem shows_end : d.Shows (pl.narrow F .nil) .nil ↔ d.Shows pl F := by
  rw [shows_behind, Forest.append_nil]

theorem shows_beside {M : Multiset (NodeId × Standing)}
    : d.Shows (pl.beside M) F ↔ d.Holds (M + pl.census F) := by
  rw [Shows, Place.census_beside]

namespace Shows

theorem wellFormed (h : d.Shows pl F) : d.WellFormed :=
  Holds.wellFormed h

theorem nodup (h : d.Shows pl F) : F.ids.Nodup :=
  Holds.nodup_ids h

theorem parent (h : d.Shows pl F) (hid : id ∈ F.rootIds) : d.parent id = .ok (some pl.node) := by
  obtain ⟨ks, e, hs⟩ := Holds.parent_of_root h hid
  obtain ⟨n, hn, hp, -⟩ := standing?_eq_some.1 hs
  simp only [Document.parent, node_eq_ok.2 hn, bind, Except.bind, hp]
  rfl

theorem create (h : d.Shows pl F) (content : Content)
    : ∃ id d', d.create content = (id, d') ∧
        d'.Shows (pl.beside ((Forest.cons (id, content) .nil .nil).census none)) F := by
  obtain ⟨id, d', hd', -, hM⟩ := Holds.create h content
  refine ⟨id, d', hd', ?_⟩
  rw [shows_beside, Forest.census_cons, Forest.census_nil, Forest.census_nil, Multiset.add_zero,
    Multiset.cons_add, Multiset.zero_add]
  exact hM

theorem plant (h : d.Shows pl F) (T : Forest Content)
    : ∃ (L : Forest (NodeId × Content)) (d' : Document), d.plant none T = .ok (L.rootIds, d') ∧
        L.map (·.2) = T ∧ d'.Shows (pl.beside (L.census none)) F := by
  obtain ⟨L, d', hd', hL, hM⟩ := Holds.plant h T
  exact ⟨L, d', hd', hL, shows_beside.2 hM⟩

theorem insert (h : d.Shows (pl.beside (T.census none)) (A ++ B)) (hT : T.rootIds = [id])
    : ∃ d', d.insertBefore pl.node id (B.rootIds ++ pl.after).head? = .ok d' ∧
        d'.Shows pl (A ++ T ++ B) := by
  obtain ⟨c, G, rfl⟩ := Forest.eq_cons_of_rootIds hT
  have h := shows_beside.1 h
  have hw : ¬ d.Within pl.node id :=
    h.not_within (Multiset.mem_add.2 (.inr (Multiset.mem_cons_self _ _))) (by simp)
  rw [Place.census_apart] at h
  obtain ⟨d', hd', h'⟩ := h.insertBefore hw
  refine ⟨d', hd', ?_⟩
  rw [Shows, Place.census_amid]
  exact h'

theorem move (h : d.Shows pl (A ++ T ++ B)) (hT : T.rootIds = [id]) (hs : A ++ B = C ++ D)
    : ∃ d', d.insertBefore pl.node id (D.rootIds ++ pl.after).head? = .ok d' ∧
        d'.Shows pl (C ++ T ++ D) := by
  have census : ∀ X Y : Forest (NodeId × Content), pl.census (X ++ T ++ Y)
      = (pl.node, ⟨pl.parent, (pl.before ++ X.rootIds) ++ id :: (Y.rootIds ++ pl.after),
          pl.content⟩) ::ₘ ((X ++ Y).census (some pl.node) + T.census (some pl.node) + pl.rest) := by
    intro X Y
    simp only [Place.census, Forest.census_append, Forest.rootIds_append, hT, List.append_assoc,
      List.cons_append, List.nil_append, ← Multiset.singleton_add]
    abel
  unfold Shows at h ⊢
  rw [census] at h
  have hids : pl.before ++ A.rootIds ++ (B.rootIds ++ pl.after)
      = pl.before ++ C.rootIds ++ (D.rootIds ++ pl.after) := by
    have := congrArg Forest.rootIds hs
    simp only [Forest.rootIds_append] at this
    rw [List.append_assoc, ← List.append_assoc A.rootIds, this]
    simp only [List.append_assoc]
  obtain ⟨d', hd', h'⟩ := h.move hids
  refine ⟨d', hd', ?_⟩
  rw [census, ← hs]
  exact h'

theorem discard (h : d.Shows pl (A ++ T ++ B)) (hT : T.rootIds = [id])
    : ∃ d', d.discard id = .ok d' ∧ d'.Shows pl (A ++ B) := by
  have hs : pl.census (A ++ T ++ B)
      = T.census (some pl.node) + (pl.node, ⟨pl.parent,
        (pl.before ++ A.rootIds) ++ T.rootIds ++ (B.rootIds ++ pl.after), pl.content⟩) ::ₘ
          ((A ++ B).census (some pl.node) + pl.rest) := by
    simp only [Place.census, Forest.census_append, Forest.rootIds_append, List.append_assoc,
      ← Multiset.singleton_add]
    abel
  unfold Shows at h
  rw [hs] at h
  obtain ⟨d', hd', h'⟩ := h.discard hT
  refine ⟨d', hd', ?_⟩
  have hs : pl.census (A ++ B)
      = (pl.node, ⟨pl.parent, (pl.before ++ A.rootIds) ++ (B.rootIds ++ pl.after), pl.content⟩) ::ₘ
          ((A ++ B).census (some pl.node) + pl.rest) := by
    simp only [Place.census, Forest.rootIds_append, List.append_assoc, ← Multiset.singleton_add]
    abel
  unfold Shows
  rw [hs]
  exact h'

theorem remove (h : d.Shows pl (A ++ T ++ B)) (hT : T.rootIds = [id])
    : ∃ d', d.remove id = .ok d' ∧ d'.Shows (pl.beside (T.census none)) (A ++ B) := by
  obtain ⟨c, G, rfl⟩ := Forest.eq_cons_of_rootIds hT
  rw [Shows, Place.census_amid] at h
  obtain ⟨d', hd', h'⟩ := h.remove
  refine ⟨d', hd', ?_⟩
  rw [shows_beside, Place.census_apart]
  exact h'

theorem clear (h : d.Shows pl F) (hb : pl.before = []) (ha : pl.after = [])
    : ∃ d', d.discardChildren pl.node = .ok d' ∧ d'.Shows pl .nil := by
  unfold Shows Place.census at h ⊢
  rw [hb, ha, List.nil_append, List.append_nil] at h
  obtain ⟨d', hd', h'⟩ := h.discardChildren
  refine ⟨d', hd', ?_⟩
  rw [hb, ha]
  simpa using h'

theorem standing?_node (h : d.Shows pl F)
    : d.standing? pl.node = some ⟨pl.parent, pl.before ++ F.rootIds ++ pl.after, pl.content⟩ :=
  Holds.parent h

theorem frame (h : d.Shows pl .nil) (h' : d'.Shows pl F) {s : Standing} (hid : id ≠ pl.node)
    (hs : d.standing? id = some s) : d'.standing? id = some s := by
  have hmem := (Holds.mem h id s).2 hs
  rw [Place.census_nil, Multiset.mem_cons] at hmem
  have hrest := hmem.resolve_left fun heq => hid (Prod.mk.inj heq).1
  exact Holds.standing? h' (Multiset.mem_add.2 (.inr (Multiset.mem_cons_of_mem hrest)))

theorem exists_below (h : d.Shows pl .nil)
    : ∃ A B : Forest (NodeId × Content), ∀ (d' : Document) (F : Forest (NodeId × Content)),
        d'.Shows pl F → d'.below pl.node = .ok (A ++ F ++ B) := by
  have hnode := h.standing?_node
  rw [Forest.rootIds_nil, List.append_nil] at hnode
  obtain ⟨K, M, hK, -, hM⟩ := h.wellFormed.exists_tree hnode
  obtain ⟨A, B, rfl, hA, hB⟩ := Forest.exists_append_of_rootIds hK
  have hrest : pl.rest = (A ++ B).census (some pl.node) + M := by
    have := Holds.unique h hM
    rw [Place.census_nil, ← hK, Forest.census_cons, Forest.census_nil, Multiset.add_zero,
      Multiset.cons_add] at this
    exact (Multiset.cons_inj_right _).1 this
  refine ⟨A, B, fun d' F h' => ?_⟩
  have hs : pl.census F
      = (A ++ F ++ B).census (some pl.node)
        + (pl.node, ⟨pl.parent, (A ++ F ++ B).rootIds, pl.content⟩) ::ₘ M := by
    simp only [Place.census, hrest, ← hA, ← hB, Forest.census_append, Forest.rootIds_append,
      ← Multiset.singleton_add]
    abel
  unfold Shows at h'
  rw [hs] at h'
  exact h'.below

end Shows

theorem WellFormed.exists_place (h : d.WellFormed) {p : NodeId} {a : Option NodeId}
    {xs ys : List NodeId} (hp : d.standing? p = some ⟨a, xs ++ ys, c⟩)
    : ∃ M, d.Shows ⟨p, a, c, xs, ys, M⟩ .nil := by
  obtain ⟨N, hN⟩ := h.exists_holds
  obtain ⟨M, rfl⟩ := Multiset.exists_cons_of_mem ((hN.mem _ _).2 hp)
  refine ⟨M, ?_⟩
  unfold Shows
  rwa [Place.census_nil]

end VirtualDom.Document
