import Mathlib.Data.Multiset.AddSub
import Mathlib.Data.Multiset.MapFold
import Mathlib.Data.Multiset.Range
import Mathlib.Data.Multiset.UnionInter
import VirtualDom.Proofs.Document.Edit

/-!
This module contains censuses: all live nodes of a document with their places in the tree and what
they hold. A census splits into those of disjoint parts of the document, and an edit changes the part
that it is about.
-/

namespace VirtualDom

open Document (Standing)

namespace Forest

variable {F G : Forest (NodeId × Content)}

def rootIds (F : Forest (NodeId × Content)) : List NodeId :=
  F.roots.map (·.1.1)

def ids (F : Forest (NodeId × Content)) : List NodeId :=
  F.labels.map (·.1)

/-- All nodes of a forest that stands in `parent`, or that is detached. -/
def census (parent : Option NodeId) : Forest (NodeId × Content) → Multiset (NodeId × Standing)
  | .nil => 0
  | .cons (id, content) children siblings =>
    (id, ⟨parent, children.rootIds, content⟩) ::ₘ
      (children.census (some id) + siblings.census parent)

@[simp]
theorem rootIds_nil : rootIds .nil = [] :=
  rfl

@[simp]
theorem rootIds_cons (id : NodeId) (c : Content) (F G : Forest (NodeId × Content))
    : rootIds (.cons (id, c) F G) = id :: G.rootIds :=
  rfl

@[simp]
theorem rootIds_append : (F ++ G).rootIds = F.rootIds ++ G.rootIds := by
  simp [rootIds]

@[simp]
theorem ids_nil : ids .nil = [] :=
  rfl

@[simp]
theorem ids_cons (id : NodeId) (c : Content) (F G : Forest (NodeId × Content))
    : ids (.cons (id, c) F G) = id :: (F.ids ++ G.ids) := by
  simp [ids, labels]

variable {a : Option NodeId}

@[simp]
theorem census_nil : census a .nil = 0 :=
  rfl

theorem census_cons (id : NodeId) (c : Content) (F G : Forest (NodeId × Content))
    : census a (.cons (id, c) F G)
        = (id, ⟨a, F.rootIds, c⟩) ::ₘ (F.census (some id) + G.census a) :=
  rfl

@[simp]
theorem census_append : (F ++ G).census a = F.census a + G.census a := by
  induction F with
  | nil => simp
  | cons label children siblings _ ih => simp [census, ih, Multiset.add_assoc]

theorem census_single (id : NodeId) (c : Content) (M : Multiset (NodeId × Standing))
    : (cons (id, c) F .nil).census a + M = F.census (some id) + (id, ⟨a, F.rootIds, c⟩) ::ₘ M := by
  rw [census_cons, census_nil, Multiset.add_zero, Multiset.cons_add, Multiset.add_cons]

theorem map_census : (F.census a).map (·.1) = (F.ids : Multiset NodeId) := by
  induction F generalizing a with
  | nil => rfl
  | cons label children siblings ihc ihs =>
    obtain ⟨id, c⟩ := label
    simp [census, ihc, ihs]

theorem exists_mem_census_of_label {n : NodeId × Content} (hn : n ∈ F.labels)
    : ∃ s, (n.1, s) ∈ F.census a ∧ s.content = n.2 := by
  induction F generalizing a with
  | nil => cases hn
  | cons label children siblings ihc ihs =>
    rcases List.mem_cons.1 hn with rfl | hn
    . exact ⟨_, Multiset.mem_cons_self _ _, rfl⟩
    . rcases List.mem_append.1 hn with hn | hn
      . obtain ⟨s, hs, hc⟩ := ihc hn
        exact ⟨s, Multiset.mem_cons_of_mem (Multiset.mem_add.2 (.inl hs)), hc⟩
      . obtain ⟨s, hs, hc⟩ := ihs hn
        exact ⟨s, Multiset.mem_cons_of_mem (Multiset.mem_add.2 (.inr hs)), hc⟩

theorem mem_census {e : NodeId × Standing} (h : e ∈ F.census a) : e.1 ∈ F.ids := by
  have := Multiset.mem_map_of_mem (·.1) h
  rwa [map_census] at this

theorem exists_mem_census {id : NodeId} (h : id ∈ F.ids) : ∃ s, (id, s) ∈ F.census a := by
  obtain ⟨n, hn, rfl⟩ := List.mem_map.1 h
  obtain ⟨s, hs, -⟩ := exists_mem_census_of_label hn
  exact ⟨s, hs⟩

theorem mem_rootIds {id : NodeId} (h : id ∈ F.rootIds) : id ∈ F.ids := by
  induction F with
  | nil => simp at h
  | cons label children siblings _ ih =>
    obtain ⟨x, c⟩ := label
    simp only [rootIds_cons, List.mem_cons] at h
    simp only [ids_cons, List.mem_cons, List.mem_append]
    exact h.imp (fun h => h) fun h => .inr (ih h)

theorem mem_census_of_root {id : NodeId} (h : id ∈ F.rootIds)
    : ∃ ks c, (id, ⟨a, ks, c⟩) ∈ F.census a := by
  induction F with
  | nil => simp at h
  | cons label children siblings _ ih =>
    obtain ⟨x, c⟩ := label
    rw [rootIds_cons, List.mem_cons] at h
    rcases h with rfl | h
    . exact ⟨_, _, Multiset.mem_cons_self _ _⟩
    . obtain ⟨ks, e, hs⟩ := ih h
      exact ⟨ks, e, by simp [census, hs]⟩

theorem eq_cons_of_rootIds {id : NodeId} (h : F.rootIds = [id])
    : ∃ c G, F = .cons (id, c) G .nil := by
  cases F with
  | nil => simp at h
  | cons label children siblings =>
    obtain ⟨x, c⟩ := label
    cases siblings with
    | nil =>
      obtain ⟨rfl, -⟩ := List.cons.inj h
      exact ⟨c, children, rfl⟩
    | cons label' _ _ =>
      obtain ⟨y, c'⟩ := label'
      simp at h

theorem exists_append_of_rootIds {xs ys : List NodeId} (h : F.rootIds = xs ++ ys)
    : ∃ A B, F = A ++ B ∧ A.rootIds = xs ∧ B.rootIds = ys := by
  induction F generalizing xs with
  | nil =>
    obtain ⟨rfl, rfl⟩ := List.append_eq_nil_iff.1 h.symm
    exact ⟨.nil, .nil, rfl, rfl, rfl⟩
  | cons label children siblings _ ih =>
    obtain ⟨x, c⟩ := label
    cases xs with
    | nil => exact ⟨.nil, _, rfl, rfl, h⟩
    | cons y xs =>
      rw [rootIds_cons, List.cons_append, List.cons.injEq] at h
      obtain ⟨rfl, h⟩ := h
      obtain ⟨A, B, rfl, hA, hB⟩ := ih h
      exact ⟨.cons (x, c) children A, B, rfl, by rw [rootIds_cons, hA], hB⟩

theorem mem_ids_of_mem_children {id x : NodeId} {s : Standing} (h : (id, s) ∈ F.census a)
    (hx : x ∈ s.children) : x ∈ F.ids := by
  induction F generalizing a with
  | nil => simp at h
  | cons label children siblings ihc ihs =>
    obtain ⟨y, c⟩ := label
    simp only [census, Multiset.mem_cons, Multiset.mem_add] at h
    simp only [ids_cons, List.mem_cons, List.mem_append]
    rcases h with h | h | h
    . cases h
      exact .inr (.inl (mem_rootIds hx))
    . exact .inr (.inl (ihc h))
    . exact .inr (.inr (ihs h))

theorem mem_ids_of_parent {id q : NodeId} {s : Standing} (h : (id, s) ∈ F.census a)
    (hq : s.parent = some q) : a = some q ∨ q ∈ F.ids := by
  induction F generalizing a with
  | nil => simp at h
  | cons label children siblings ihc ihs =>
    obtain ⟨y, c⟩ := label
    simp only [census, Multiset.mem_cons, Multiset.mem_add] at h
    simp only [ids_cons, List.mem_cons, List.mem_append]
    rcases h with h | h | h
    . cases h
      exact .inl hq
    . right
      rcases ihc h with h | h
      . exact .inl (Option.some.inj h).symm
      . exact .inr (.inl h)
    . exact (ihs h).imp (fun h => h) fun h => .inr (.inr h)

end Forest

namespace Document

/-- The document is well-formed, and its nodes are those of `M`. -/
structure Holds (d : Document) (M : Multiset (NodeId × Standing)) : Prop where
  wellFormed : d.WellFormed
  nodup : (M.map (·.1)).Nodup
  mem : ∀ id s, (id, s) ∈ M ↔ d.standing? id = some s

namespace Holds

variable {d d' : Document} {M N : Multiset (NodeId × Standing)} {id p : NodeId} {s : Standing}

theorem standing? (h : d.Holds M) (hs : (id, s) ∈ M) : d.standing? id = some s :=
  (h.mem id s).1 hs

theorem left (h : d.Holds (M + N)) (hs : (id, s) ∈ M) : d.standing? id = some s :=
  h.standing? (Multiset.mem_add.2 (.inl hs))

theorem head (h : d.Holds ((id, s) ::ₘ M)) : d.standing? id = some s :=
  h.standing? (by simp)

theorem second {x : NodeId} {t : Standing} (h : d.Holds ((x, t) ::ₘ (id, s) ::ₘ M))
    : d.standing? id = some s :=
  h.standing? (by simp)

theorem ne (h : d.Holds (M + N)) {x y : NodeId} {s t : Standing} (hx : (x, s) ∈ M)
    (hy : (y, t) ∈ N) : x ≠ y := by
  have hnd := h.nodup
  rw [Multiset.map_add] at hnd
  rintro rfl
  exact Multiset.disjoint_left.1 (Multiset.nodup_add.1 hnd).2.2 (Multiset.mem_map_of_mem (·.1) hx)
    (Multiset.mem_map_of_mem (·.1) hy)

theorem not_mem (h : d.Holds M) (hid : d.standing? id = none) : id ∉ M.map (·.1) := by
  intro hm
  obtain ⟨⟨_, s⟩, hs, rfl⟩ := Multiset.mem_map.1 hm
  simp [h.standing? hs] at hid

theorem unique (h : d.Holds M) (h' : d.Holds N) : M = N := by
  apply (Multiset.Nodup.ext (Multiset.Nodup.of_map _ h.nodup) (Multiset.Nodup.of_map _ h'.nodup)).2
  rintro ⟨id, s⟩
  rw [h.mem, h'.mem]

theorem standing?_eq (h : d.Holds M) (h' : d'.Holds M) (id : NodeId)
    : d'.standing? id = d.standing? id := by
  apply Option.ext
  intro s
  rw [← h.mem, ← h'.mem]

theorem size_eq (h : d.Holds M) : d.size = M.card := by
  have hindex : (M.map (·.1.index)).Nodup := by
    apply Multiset.Nodup.map_on _ (Multiset.Nodup.of_map _ h.nodup)
    rintro ⟨x, s⟩ hx ⟨y, t⟩ hy hxy
    have hx := h.standing? hx
    have hy := h.standing? hy
    obtain ⟨n, hn, -⟩ := Option.map_eq_some_iff.1 hx
    obtain ⟨m, hm, -⟩ := Option.map_eq_some_iff.1 hy
    cases eq_of_index_eq hn hm hxy
    cases hx.symm.trans hy
    rfl
  -- Neither list repeats a slot, and each slot is in exactly one of them.
  have hslots : M.map (·.1.index) + (d.free : Multiset Nat) = Multiset.range d.slots.size := by
    have hfree := Multiset.coe_nodup.2 h.wellFormed.free_nodup
    apply (Multiset.Nodup.ext (Multiset.nodup_add.2 ⟨hindex, hfree, ?_⟩) (Multiset.nodup_range _)).2
    . intro i
      rw [Multiset.mem_add, Multiset.mem_range, Multiset.mem_coe, h.wellFormed.mem_free,
        Multiset.mem_map]
      constructor
      . rintro (⟨⟨x, s⟩, hx, rfl⟩ | ⟨g, hg⟩)
        . obtain ⟨n, hn, -⟩ := Option.map_eq_some_iff.1 (h.standing? hx)
          exact index_lt hn
        . exact (Array.getElem?_eq_some_iff.1 hg).1
      . intro hi
        obtain ⟨⟨g, node⟩, hslot⟩ : ∃ slot, d.slots[i]? = some slot := ⟨_, Array.getElem?_eq_getElem hi⟩
        cases node with
        | none => exact .inr ⟨g, hslot⟩
        | some n =>
          have hn : d.node? ⟨i, g⟩ = some n := node?_eq_some.2 hslot
          exact .inl ⟨_, (h.mem _ _).2 (standing?_of_node? hn), rfl⟩
    . rw [Multiset.disjoint_left]
      intro i hi hf
      obtain ⟨⟨x, s⟩, hx, rfl⟩ := Multiset.mem_map.1 hi
      obtain ⟨n, hn, -⟩ := Option.map_eq_some_iff.1 (h.standing? hx)
      obtain ⟨g, hg⟩ := (h.wellFormed.mem_free _).1 hf
      simp [node?_eq_some.1 hn] at hg
  have hcard := congrArg Multiset.card hslots
  simp only [Multiset.card_add, Multiset.card_map, Multiset.coe_card, Multiset.card_range] at hcard
  unfold size
  omega

theorem put (h : d.Holds ((id, s) ::ₘ M)) (hwf : d'.WellFormed) {s' : Standing}
    (hs : ∀ x, d'.standing? x = if x = id then some s' else d.standing? x)
    : d'.Holds ((id, s') ::ₘ M) where
  wellFormed := hwf
  nodup := by simpa using h.nodup
  mem x t := by
    have hnd := h.nodup
    rw [Multiset.map_cons, Multiset.nodup_cons] at hnd
    rw [hs, Multiset.mem_cons]
    split
    . next hx =>
      subst hx
      have : (x, t) ∉ M := fun ht => hnd.1 (Multiset.mem_map_of_mem (·.1) ht)
      simp [this, eq_comm]
    . next hx =>
      rw [← h.mem, Multiset.mem_cons]
      simp [hx]

theorem add (h : d.Holds M) (hwf : d'.WellFormed) (hid : d.standing? id = none)
    (hs : ∀ x, d'.standing? x = if x = id then some s else d.standing? x)
    : d'.Holds ((id, s) ::ₘ M) where
  wellFormed := hwf
  nodup := by
    rw [Multiset.map_cons, Multiset.nodup_cons]
    exact ⟨h.not_mem hid, h.nodup⟩
  mem x t := by
    rw [hs, Multiset.mem_cons]
    split
    . next hx =>
      subst hx
      have : (x, t) ∉ M := fun ht => h.not_mem hid (Multiset.mem_map_of_mem (·.1) ht)
      simp [this, eq_comm]
    . next hx => simp [hx, h.mem]

theorem congr (h : d.Holds M) (hwf : d'.WellFormed) (hs : ∀ x, d'.standing? x = d.standing? x)
    : d'.Holds M where
  wellFormed := hwf
  nodup := h.nodup
  mem x t := by rw [h.mem, hs]

theorem drop (h : d.Holds (M + N)) (hwf : d'.WellFormed) {gone : List NodeId}
    (hM : M.map (·.1) = gone)
    (hs : ∀ x, d'.standing? x = if x ∈ gone then none else d.standing? x)
    : d'.Holds N where
  wellFormed := hwf
  nodup := by
    have := h.nodup
    rw [Multiset.map_add] at this
    exact (Multiset.nodup_add.1 this).2.1
  mem x t := by
    rw [hs]
    constructor
    . intro ht
      have hx : x ∉ gone := by
        intro hx
        rw [← Multiset.mem_coe, ← hM] at hx
        obtain ⟨⟨_, s⟩, hs, rfl⟩ := Multiset.mem_map.1 hx
        exact h.ne hs ht rfl
      rw [if_neg hx]
      exact h.standing? (by simp [ht])
    . intro ht
      split at ht
      . cases ht
      . next hx =>
        rw [← h.mem, Multiset.mem_add] at ht
        apply ht.resolve_left
        intro ht
        apply hx
        rw [← Multiset.mem_coe, ← hM]
        exact Multiset.mem_map_of_mem (·.1) ht

section Edits

variable {a : Option NodeId} {ks xs ys : List NodeId} {c cp : Content}

theorem create (h : d.Holds M) (content : Content)
    : ∃ id d', d.create content = (id, d') ∧ d.standing? id = none ∧
        d'.Holds ((id, ⟨none, [], content⟩) ::ₘ M) := by
  obtain ⟨id, d', hc, hwf, hid, hs⟩ := h.wellFormed.create content
  exact ⟨id, d', hc, hid, h.add hwf hid hs⟩

theorem setContent (h : d.Holds ((id, ⟨a, ks, c⟩) ::ₘ M)) (content : Content)
    : (d.setContent id content).Holds ((id, ⟨a, ks, content⟩) ::ₘ M) := by
  obtain ⟨hwf, -, hs⟩ := h.wellFormed.setContent h.head content
  exact h.put hwf hs

theorem withTally (h : d.Holds M) (tally : Tally) : Holds { d with tally } M := by
  obtain ⟨hwf, -, hs⟩ := h.wellFormed.withTally tally
  exact h.congr hwf hs

theorem withAnnals (h : d.Holds M) (annals : Annals) : Holds { d with annals } M := by
  have hslots : ({ d with annals } : Document).slots = d.slots := rfl
  obtain ⟨hwf, -, hs⟩ := h.wellFormed.of_slots_eq hslots rfl
  exact h.congr hwf hs

theorem put₂ {s' t t' : Standing} (h : d.Holds ((id, s) ::ₘ (p, t) ::ₘ M)) (hwf : d'.WellFormed)
    (hs : ∀ x, d'.standing? x = if x = id then some s' else if x = p then some t' else d.standing? x)
    : d'.Holds ((id, s') ::ₘ (p, t') ::ₘ M) where
  wellFormed := hwf
  nodup := by simpa using h.nodup
  mem x u := by
    have hnd := h.nodup
    simp only [Multiset.map_cons, Multiset.nodup_cons, Multiset.mem_cons, not_or] at hnd
    rw [hs, Multiset.mem_cons, Multiset.mem_cons]
    by_cases hx : x = id
    . subst hx
      have : (x, u) ∉ M := fun hu => hnd.1.2 (Multiset.mem_map_of_mem (·.1) hu)
      simp only [if_true, Prod.mk.injEq, true_and, hnd.1.1, false_and, this, or_false,
        Option.some.injEq]
      exact eq_comm
    . by_cases hp : x = p
      . subst hp
        have : (x, u) ∉ M := fun hu => hnd.2.1 (Multiset.mem_map_of_mem (·.1) hu)
        simp only [if_true, if_false, Prod.mk.injEq, true_and, hx, false_and, this, or_false,
          false_or, Option.some.injEq]
        exact eq_comm
      . rw [if_neg hx, if_neg hp, ← h.mem, Multiset.mem_cons, Multiset.mem_cons]
        simp [hx, hp]

theorem link (h : d.Holds ((id, ⟨none, ks, c⟩) ::ₘ (p, ⟨a, xs ++ ys, cp⟩) ::ₘ M))
    (hw : ¬ d.Within p id)
    : ∃ d', d.link p id ys.head? = .ok d' ∧
        d'.Holds ((id, ⟨some p, ks, c⟩) ::ₘ (p, ⟨a, xs ++ id :: ys, cp⟩) ::ₘ M) := by
  obtain ⟨d', hd', hwf, -, -, hs⟩ := h.wellFormed.link h.head h.second hw
  exact ⟨d', hd', h.put₂ hwf hs⟩

theorem insertBefore (h : d.Holds ((id, ⟨none, ks, c⟩) ::ₘ (p, ⟨a, xs ++ ys, cp⟩) ::ₘ M))
    (hw : ¬ d.Within p id)
    : ∃ d', d.insertBefore p id ys.head? = .ok d' ∧
        d'.Holds ((id, ⟨some p, ks, c⟩) ::ₘ (p, ⟨a, xs ++ id :: ys, cp⟩) ::ₘ M) := by
  obtain ⟨d', hd', hwf, -, hs⟩ := h.wellFormed.insertBefore_root h.head h.second hw
  exact ⟨d', hd', h.put₂ hwf hs⟩

theorem move {us vs : List NodeId}
    (h : d.Holds ((p, ⟨a, us ++ id :: vs, cp⟩) ::ₘ M)) (hs : us ++ vs = xs ++ ys)
    : ∃ d', d.insertBefore p id ys.head? = .ok d' ∧
        d'.Holds ((p, ⟨a, xs ++ id :: ys, cp⟩) ::ₘ M) := by
  obtain ⟨_, _, hid⟩ := h.wellFormed.standing?_child (x := id) h.head (by simp)
  obtain ⟨d', hd', hwf, -, hx⟩ := h.wellFormed.insertBefore_sibling hid h.head hs
  exact ⟨d', hd', h.put hwf hx⟩

theorem remove (h : d.Holds ((id, ⟨some p, ks, c⟩) ::ₘ (p, ⟨a, xs ++ id :: ys, cp⟩) ::ₘ M))
    : ∃ d', d.remove id = .ok d' ∧
        d'.Holds ((id, ⟨none, ks, c⟩) ::ₘ (p, ⟨a, xs ++ ys, cp⟩) ::ₘ M) := by
  obtain ⟨d', hd', hwf, -, -, hs⟩ := h.wellFormed.unlink h.head h.second
  refine ⟨_, ?_, (h.put₂ hwf hs).withTally { d'.tally with removed := d'.tally.removed + 1 }⟩
  rw [Document.remove, hd']
  rfl

end Edits

end Holds

end Document
end VirtualDom
