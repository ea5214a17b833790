import Mathlib.Algebra.BigOperators.Group.List.Basic
import VirtualDom.Proofs.Document.Outline
import VirtualDom.Proofs.Document.Place

/-!
This module contains what edits of a document add to its tally.
-/

namespace VirtualDom

attribute [ext] Tally

namespace Tally

instance : Zero Tally :=
  ⟨{}⟩

instance : Add Tally where
  add s t :=
    { created := s.created + t.created
      inserted := s.inserted + t.inserted
      moved := s.moved + t.moved
      removed := s.removed + t.removed
      attributeWrites := s.attributeWrites + t.attributeWrites
      propertyWrites := s.propertyWrites + t.propertyWrites
      textWrites := s.textWrites + t.textWrites }

instance : AddCommMonoid Tally where
  add_assoc _ _ _ := Tally.ext (Nat.add_assoc _ _ _) (Nat.add_assoc _ _ _) (Nat.add_assoc _ _ _)
    (Nat.add_assoc _ _ _) (Nat.add_assoc _ _ _) (Nat.add_assoc _ _ _) (Nat.add_assoc _ _ _)
  zero_add _ := Tally.ext (Nat.zero_add _) (Nat.zero_add _) (Nat.zero_add _) (Nat.zero_add _)
    (Nat.zero_add _) (Nat.zero_add _) (Nat.zero_add _)
  add_zero _ := rfl
  add_comm _ _ := Tally.ext (Nat.add_comm _ _) (Nat.add_comm _ _) (Nat.add_comm _ _) (Nat.add_comm _ _)
    (Nat.add_comm _ _) (Nat.add_comm _ _) (Nat.add_comm _ _)
  nsmul := nsmulRec

/-- No node was put anywhere, moved or taken out; there are but new nodes and writes. -/
structure Still (t : Tally) : Prop where
  inserted : t.inserted = 0
  moved : t.moved = 0
  removed : t.removed = 0

variable {s t : Tally}

theorem Still.zero : Still 0 :=
  ⟨rfl, rfl, rfl⟩

theorem Still.add (hs : s.Still) (ht : t.Still) : (s + t).Still where
  inserted := (congrArg₂ Nat.add hs.inserted ht.inserted :)
  moved := (congrArg₂ Nat.add hs.moved ht.moved :)
  removed := (congrArg₂ Nat.add hs.removed ht.removed :)

theorem Still.sum {ts : List Tally} (h : ∀ t ∈ ts, t.Still) : ts.sum.Still := by
  induction ts with
  | nil => exact .zero
  | cons t ts ih =>
    rw [List.sum_cons]
    exact (h t List.mem_cons_self).add (ih fun t ht => h t (List.mem_cons_of_mem _ ht))

end Tally

namespace Document

variable {d d' : Document} {id p : NodeId}

theorem tally_update {f : Node → Node} (h : d.update id f = .ok d') : d'.tally = d.tally := by
  obtain ⟨_, -, h⟩ := bind_eq_ok.1 h
  cases h
  rfl

theorem tally_setNext {prev next : Option NodeId} (h : d.setNext p prev next = .ok d')
    : d'.tally = d.tally := by
  unfold setNext at h
  split at h <;> exact tally_update h

theorem tally_setPrev {prev next : Option NodeId} (h : d.setPrev p next prev = .ok d')
    : d'.tally = d.tally := by
  unfold setPrev at h
  split at h <;> exact tally_update h

theorem tally_unlink {a : Option NodeId} {attached : Bool} (hp : d.parent id = .ok a)
    (h : d.unlink id = .ok (d', attached)) : attached = a.isSome ∧ d'.tally = d.tally := by
  obtain ⟨n, hn, h⟩ := bind_eq_ok.1 h
  obtain ⟨n', hn', hp⟩ := bind_eq_ok.1 hp
  cases hn.symm.trans hn'
  cases hp
  split at h
  . next hroot =>
    cases h
    exact ⟨by rw [hroot]; rfl, rfl⟩
  . next hparent =>
    obtain ⟨d₁, h₁, h⟩ := bind_eq_ok.1 h
    obtain ⟨d₂, h₂, h⟩ := bind_eq_ok.1 h
    obtain ⟨d₃, h₃, h⟩ := bind_eq_ok.1 h
    cases h
    refine ⟨by rw [hparent]; rfl, ?_⟩
    rw [tally_update h₃, tally_setPrev h₂, tally_setNext h₁]

theorem tally_link {reference : Option NodeId} (h : d.link p id reference = .ok d')
    : d'.tally = d.tally := by
  obtain ⟨_, -, h⟩ := bind_eq_ok.1 h
  obtain ⟨d₁, h₁, h⟩ := bind_eq_ok.1 h
  obtain ⟨d₂, h₂, h⟩ := bind_eq_ok.1 h
  rw [tally_setPrev h, tally_setNext h₂, tally_update h₁]

theorem tally_insertBefore_root {reference : Option NodeId} (hp : d.parent id = .ok none)
    (hne : reference ≠ some id) (h : d.insertBefore p id reference = .ok d')
    : d'.tally = d.tally + { inserted := 1 } := by
  rw [insertBefore, if_neg hne] at h
  obtain ⟨⟨d₁, attached⟩, h₁, h⟩ := bind_eq_ok.1 h
  obtain ⟨rfl, ht⟩ := tally_unlink hp h₁
  exact (tally_link h).trans (congrArg (· + ({ inserted := 1 } : Tally)) ht)

theorem tally_insertBefore_child {q : NodeId} {reference : Option NodeId} (hp : d.parent id = .ok (some q))
    (h : d.insertBefore p id reference = .ok d') : ∃ m ≤ 1, d'.tally = d.tally + { moved := m } := by
  unfold insertBefore at h
  split at h
  . cases h
    exact ⟨0, Nat.zero_le 1, rfl⟩
  . obtain ⟨⟨d₁, attached⟩, h₁, h⟩ := bind_eq_ok.1 h
    obtain ⟨rfl, ht⟩ := tally_unlink hp h₁
    exact ⟨1, Nat.le_refl 1, (tally_link h).trans (congrArg (· + ({ moved := 1 } : Tally)) ht)⟩

theorem tally_discard_child {q : NodeId} (hp : d.parent id = .ok (some q)) (h : d.discard id = .ok d')
    : d'.tally = d.tally + { removed := 1 } := by
  obtain ⟨d₁, h₁, h⟩ := bind_eq_ok.1 h
  obtain ⟨⟨d₂, attached⟩, h₂, h₁⟩ := bind_eq_ok.1 h₁
  obtain ⟨rfl, ht⟩ := tally_unlink hp h₂
  cases h₁
  exact (tally_releaseAll h).trans (congrArg (· + ({ removed := 1 } : Tally)) ht)

theorem tally_plant {T : Forest Content} {parent : Option NodeId} {ids : List NodeId}
    (h : d.plant parent T = .ok (ids, d')) : d'.tally = d.tally + { created := T.labels.length } := by
  induction T generalizing d d' parent ids with
  | nil =>
    cases h
    rfl
  | cons content children siblings ihc ihs =>
    obtain ⟨id, d₁, inner, d₂, d₃, later, h₁, h₂, h₃, h₄, rfl⟩ := plant_cons h
    have hcreate : (d.create content).2.tally = d.tally + { created := 1 } := by
      unfold create
      split <;> rfl
    rw [h₁] at hcreate
    have hlink : d₃.tally = d₂.tally := by
      rcases h₃ with ⟨-, rfl⟩ | ⟨p, -, h₃⟩
      . rfl
      . exact tally_link h₃
    have hlength : (Forest.cons content children siblings).labels.length
        = 1 + (children.labels.length + siblings.labels.length) := by
      simp only [Forest.labels, List.cons_append, List.length_cons, List.length_append]
      omega
    rw [ihs h₄, hlink, ihc h₂, hcreate, hlength, add_assoc, add_assoc]
    rfl

namespace Shows

variable {pl : Place} {A B F T : Forest (NodeId × Content)}

theorem tally_insert (h : d.Shows (pl.beside (T.census none)) (A ++ B)) (hT : T.rootIds = [id])
    (hd : d.insertBefore pl.node id (B.rootIds ++ pl.after).head? = .ok d')
    : d'.tally = d.tally + { inserted := 1 } := by
  obtain ⟨c, G, rfl⟩ := Forest.eq_cons_of_rootIds hT
  have hid : d.standing? id = some ⟨none, G.rootIds, c⟩ :=
    (shows_beside.1 h).left (by simp [Forest.census_cons])
  obtain ⟨n, hn, hp, -⟩ := standing?_eq_some.1 hid
  refine tally_insertBefore_root (parent_eq_ok.2 ⟨n, hn, hp⟩) (fun heq => ?_) hd
  -- What comes behind the place is in its node, and the new root is in none.
  have hmem : id ∈ pl.before ++ (A ++ B).rootIds ++ pl.after := by
    have := List.mem_of_mem_head? (Option.mem_def.2 heq)
    simp only [Forest.rootIds_append, List.mem_append] at this ⊢
    tauto
  obtain ⟨ls, e, hchild⟩ := h.wellFormed.standing?_child h.standing?_node hmem
  cases hid.symm.trans hchild

theorem tally_move {reference : Option NodeId} (h : d.Shows pl F) (hid : id ∈ F.rootIds)
    (hd : d.insertBefore pl.node id reference = .ok d') : ∃ m ≤ 1, d'.tally = d.tally + { moved := m } :=
  tally_insertBefore_child (h.parent hid) hd

theorem tally_discard (h : d.Shows pl F) (hid : id ∈ F.rootIds) (hd : d.discard id = .ok d')
    : d'.tally = d.tally + { removed := 1 } :=
  tally_discard_child (h.parent hid) hd

end Shows

end Document
end VirtualDom
