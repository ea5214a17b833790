import VirtualDom.Proofs.View.Cost
import VirtualDom.Proofs.View.Unchanged

/-!
This module contains the course that the reconciliation of a list of blocks takes where no block is
written to: which items stay, come and go, and which of those that stay are moved.
-/

namespace VirtualDom

section Lists

variable {α κ : Type} {f : α → κ} {A B : List α} {X Y Z W : List κ} {a : α}

theorem sublist_of_middle {k : κ} (h : (X ++ k :: Y).Sublist (Z ++ k :: W)) (hZ : k ∉ Z)
    (hW : k ∉ W) : X.Sublist Z ∧ Y.Sublist W := by
  obtain ⟨l₁, l₂, hs, h₁, h₂⟩ := List.sublist_append_iff.1 h
  rcases List.append_eq_append_iff.1 hs with ⟨E, rfl, hE⟩ | ⟨E, rfl, rfl⟩
  . cases E with
    | nil =>
      rw [List.append_nil] at h₁
      rw [List.nil_append] at hE
      exact ⟨h₁, List.cons_sublist_cons.1 (hE ▸ h₂)⟩
    | cons k' E =>
      obtain ⟨rfl, -⟩ := List.cons.inj hE
      exact absurd (h₁.mem (List.mem_append_right X List.mem_cons_self)) hZ
  . cases E with
    | nil =>
      rw [List.append_nil]
      exact ⟨h₁, List.cons_sublist_cons.1 h₂⟩
    | cons k' E => exact absurd (h₂.tail.mem (by simp)) hW

theorem mem_middle {x : α} : x ∈ A ++ a :: B ↔ x = a ∨ x ∈ A ++ B :=
  List.perm_middle.mem_iff.trans List.mem_cons

theorem nodup_map_middle
    : ((A ++ a :: B).map f).Nodup ↔ f a ∉ (A ++ B).map f ∧ ((A ++ B).map f).Nodup := by
  rw [List.map_append, List.map_cons, List.nodup_middle, List.nodup_cons, List.map_append]

variable [DecidableEq κ]

theorem filter_not_mem_middle (hnd : ((A ++ a :: B).map f).Nodup)
    : (A ++ a :: B).filter (f · ∉ X ++ f a :: Y) = (A ++ B).filter (f · ∉ X ++ Y) := by
  have hne : ∀ x ∈ A ++ B, f x ≠ f a := by
    intro x hx heq
    exact (nodup_map_middle.1 hnd).1 (heq ▸ List.mem_map_of_mem hx)
  rw [List.filter_append, List.filter_cons_of_neg (by simp), ← List.filter_append]
  refine List.filter_congr fun x hx => ?_
  simp [hne x hx]

end Lists

namespace View

open Engine
open Document (Place Shows)

variable {pl : Place} {h h' : Host} {v w : View} {A B C D F G : Forest (NodeId × Content)}

namespace Planted

theorem nodes_eq (hv : Planted v F) : v.nodes = F.rootIds := by
  cases hv with
  | block _ rootIds => exact rootIds.symm

theorem exists_firstNode (hv : Planted v F) : ∃ id, v.firstNode = some id ∧ F.rootIds = [id] := by
  cases hv with
  | block _ rootIds => exact ⟨_, rfl, rootIds⟩

theorem firstNode_eq (hv : Planted v F) (after : List NodeId)
    : (F.rootIds ++ after).head? = v.firstNode := by
  obtain ⟨id, hv, hF⟩ := hv.exists_firstNode
  rw [hv, hF]
  rfl

theorem moveBefore_yields {target : Option NodeId} (hv : Planted v F)
    (hd : h.document.Shows pl (A ++ F ++ B)) (hs : A ++ B = C ++ D)
    (ht : (D.rootIds ++ pl.after).head? = target)
    : (v.moveBefore target).Yields h fun _ h' => h'.document.Shows pl (C ++ F ++ D) ∧
        ∃ m ≤ 1, h'.document.tally = h.document.tally + { moved := m } := by
  subst ht
  cases hv with
  | @block template data children root references F slots rootIds =>
    have hroot : root ∈ (A ++ F ++ B).rootIds := by simp [rootIds]
    rw [moveBefore]
    refine Yields.bind_ok (read_eq_ok (hd.parent hroot)) ?_
    obtain ⟨d, hmove, hd'⟩ := hd.move rootIds hs
    exact Yields.edit ⟨d, hmove, hd', hd.tally_move hroot hmove⟩

theorem tearDown_yields (hv : Planted v F) (hd : h.document.Shows pl F)
    : v.tearDown.Yields h fun _ h' => h'.document.Shows pl .nil ∧
        h'.document.tally = h.document.tally + { removed := 1 } := by
  cases hv with
  | @block template data children root references F slots rootIds =>
    refine Yields.bind (beforeRemove_yields h _) ?_
    intro _ h₁ heq
    rw [← heq] at hd ⊢
    have hd : h₁.document.Shows pl (.nil ++ F ++ .nil) := by rwa [Forest.append_nil]
    obtain ⟨d, hdiscard, hd'⟩ := hd.discard rootIds
    rw [View.remove]
    refine Yields.bind_ok (edit_eq_ok hdiscard) ?_
    refine Yields.bind (releaseCallbacks_yields _ _ _) ?_
    intro _ h₂ heq
    refine Yields.pure ?_
    rw [heq]
    exact ⟨hd', hd.tally_discard (by simp [rootIds]) hdiscard⟩

theorem patchAs_eq (hv : Planted v F) (hm : Matches v w) (sole : Bool) (h : Host)
    : ∃ v', w.patchAs sole v h = .ok v' h ∧ Planted v' F := by
  cases hv with
  | @block template data children root references F slots rootIds =>
  cases hm with
  | @block _ _ data' _ children' _ mounted' _ same =>
    refine ⟨.block template data' children (some ⟨root, references⟩), ?_, .block slots rootIds⟩
    rw [patchAs, if_neg (not_not.2 rfl)]
    simp only [slots, List.foldlM_nil]
    split
    . next hne => exact bind_run (updateLocations_unchanged (same.resolve_left hne) h)
    . rfl

end Planted

/--
How a list comes to show new items: `rows` are what it has then, `gone` is what was taken out, `bills` are
the costs of what was mounted, and `moves` is how often something was moved.
-/
inductive Course : (old : List Row) → (new : List (Key × View)) → (rows gone : List Row) →
    (bills : List Tally) → (moves : Nat) → Prop
  | done : Course [] [] [] [] [] 0
  /-- An item stays with its nodes; these are not moved if all keys are still in their order. -/
  | keep {A B C' D' gone : List Row} {C D : List (Key × View)} {r : Row} {w v : View} {bills : List Tally}
      {m moves : Nat} (planted : Planted v r.forest) (length : C'.length = C.length) (once : m ≤ 1)
      (order : ((A ++ r :: B).map Row.key).Sublist ((C ++ (r.key, w) :: D).map (·.1)) → m = 0)
      (rest : Course (A ++ B) (C ++ D) (C' ++ D') gone bills moves) :
      Course (A ++ r :: B) (C ++ (r.key, w) :: D) (C' ++ ⟨r.key, v, r.forest⟩ :: D') gone bills (moves + m)
  | mount {old rows gone : List Row} {new : List (Key × View)} {key : Key} {w v : View}
      {G : Forest (NodeId × Content)} {bill : Tally} {bills : List Tally} {moves : Nat}
      (absent : key ∉ old.map Row.key) (costs : Costs w bill) (planted : Planted v G)
      (rest : Course old new rows gone bills moves) :
      Course old ((key, w) :: new) (⟨key, v, G⟩ :: rows) gone (bill :: bills) moves
  | remove {old rows gone : List Row} {new : List (Key × View)} {r : Row} {bills : List Tally} {moves : Nat}
      (absent : r.key ∉ new.map (·.1)) (rest : Course old new rows gone bills moves) :
      Course (r :: old) new rows (r :: gone) bills moves

namespace Course

variable {old rows gone : List Row} {new : List (Key × View)} {bills : List Tally} {moves : Nat}

theorem removes (old : List Row) : Course old [] [] old [] 0 := by
  induction old with
  | nil => exact .done
  | cons r old ih => exact .remove (by simp) ih

theorem keys (hc : Course old new rows gone bills moves) : rows.map Row.key = new.map (·.1) := by
  induction hc with
  | done => rfl
  | keep planted length once order rest ih =>
    rw [List.map_append, List.map_append] at ih
    obtain ⟨hC, hD⟩ := List.append_inj ih (by simpa using length)
    simp [hC, hD]
  | mount absent costs planted rest ih => exact congrArg (_ :: ·) ih
  | remove absent rest ih => exact ih

theorem planted (hc : Course old new rows gone bills moves) : ∀ r ∈ rows, Planted r.view r.forest := by
  induction hc with
  | done => nofun
  | keep planted length once order rest ih =>
    intro r hr
    rcases mem_middle.1 hr with rfl | hr
    . exact planted
    . exact ih r hr
  | mount absent costs planted rest ih => exact List.forall_mem_cons.2 ⟨planted, ih⟩
  | remove absent rest ih => exact ih

/-- A key that stays keeps its nodes. -/
theorem forest_eq (hc : Course old new rows gone bills moves) (hold : (old.map Row.key).Nodup)
    (hnew : (new.map (·.1)).Nodup) : ∀ a ∈ old, ∀ b ∈ rows, a.key = b.key → b.forest = a.forest := by
  induction hc with
  | done => nofun
  | @keep A B C' D' gone C D r w v _ _ _ planted length once order rest ih =>
    obtain ⟨hr, hold⟩ := nodup_map_middle.1 hold
    obtain ⟨hw, hnew⟩ := nodup_map_middle.1 hnew
    rw [← rest.keys] at hw
    intro a ha b hb hk
    rcases mem_middle.1 ha with rfl | ha <;> rcases mem_middle.1 hb with rfl | hb
    . rfl
    . exact absurd (hk ▸ List.mem_map_of_mem hb) hw
    . exact absurd (hk ▸ List.mem_map_of_mem ha) hr
    . exact ih hold hnew a ha b hb hk
  | mount absent costs planted rest ih =>
    intro a ha b hb hk
    rcases List.mem_cons.1 hb with rfl | hb
    . cases hk
      exact absurd (List.mem_map_of_mem ha) absent
    . exact ih hold (List.nodup_cons.1 hnew).2 a ha b hb hk
  | @remove _ _ _ _ r _ _ absent rest ih =>
    intro a ha b hb hk
    rcases List.mem_cons.1 ha with rfl | ha
    . rw [← rest.keys] at absent
      exact absurd (hk ▸ List.mem_map_of_mem hb) absent
    . exact ih (List.nodup_cons.1 hold).2 hnew a ha b hb hk

/-- Only items whose keys have vanished are taken out, and all of these. -/
theorem gone_eq (hc : Course old new rows gone bills moves) (hold : (old.map Row.key).Nodup)
    : gone = old.filter (·.key ∉ new.map (·.1)) := by
  induction hc with
  | done => rfl
  | keep planted length once order rest ih =>
    rw [ih (nodup_map_middle.1 hold).2, List.map_append, List.map_append, List.map_cons]
    exact (filter_not_mem_middle hold).symm
  | @mount old _ _ _ key _ _ _ _ _ _ absent costs planted rest ih =>
    rw [ih hold]
    refine List.filter_congr fun a ha => ?_
    have hne : a.key ≠ key := fun heq => absent (heq ▸ List.mem_map_of_mem ha)
    simp [hne]
  | remove absent rest ih =>
    rw [List.filter_cons_of_pos (by simpa using absent), ih (List.nodup_cons.1 hold).2]

/-- Only items with new keys are paid for, and all of these. -/
theorem costs (hc : Course old new rows gone bills moves) (hnew : (new.map (·.1)).Nodup)
    : List.Forall₂ (fun w bill => Costs w.2 bill) (new.filter (·.1 ∉ old.map Row.key)) bills := by
  induction hc with
  | done => exact .nil
  | keep planted length once order rest ih =>
    have ih := ih (nodup_map_middle.1 hnew).2
    rw [List.map_append] at ih
    rw [List.map_append, List.map_cons]
    exact (filter_not_mem_middle (f := Prod.fst) hnew).symm ▸ ih
  | mount absent costs planted rest ih =>
    rw [List.filter_cons_of_pos (by simpa using absent)]
    exact .cons costs (ih (List.nodup_cons.1 hnew).2)
  | @remove old _ _ new r _ _ absent rest ih =>
    have hsame : new.filter (·.1 ∉ (r :: old).map Row.key) = new.filter (·.1 ∉ old.map Row.key) := by
      refine List.filter_congr fun w hw => ?_
      have hne : w.1 ≠ r.key := fun heq => absent (heq ▸ List.mem_map_of_mem hw)
      simp [hne]
    rw [hsame]
    exact ih hnew

/-- Each item that stays is moved at most once. -/
theorem moves_le (hc : Course old new rows gone bills moves) : moves + gone.length ≤ old.length := by
  induction hc with
  | done => exact Nat.le_refl 0
  | keep planted length once order rest ih =>
    simp only [List.length_append, List.length_cons] at ih ⊢
    omega
  | mount absent costs planted rest ih => exact ih
  | remove absent rest ih => exact Nat.succ_le_succ ih

/-- Where items are but inserted, nothing is moved. -/
theorem moves_eq_zero (hc : Course old new rows gone bills moves) (hnew : (new.map (·.1)).Nodup)
    (hs : (old.map Row.key).Sublist (new.map (·.1))) : moves = 0 := by
  induction hc with
  | done => rfl
  | keep planted length once order rest ih =>
    obtain ⟨hw, hnew⟩ := nodup_map_middle.1 hnew
    rw [order hs, Nat.add_zero]
    refine ih hnew ?_
    simp only [List.map_append, List.map_cons, List.mem_append, not_or] at hs hw ⊢
    obtain ⟨hA, hB⟩ := sublist_of_middle hs hw.1 hw.2
    exact hA.append hB
  | @mount old _ _ new key _ _ _ _ _ _ absent costs planted rest ih =>
    refine ih (List.nodup_cons.1 hnew).2 ?_
    rw [List.map_cons] at hs
    rcases List.sublist_cons_iff.1 hs with hs | ⟨keys, heq, hs⟩
    . exact hs
    . exact absurd (heq ▸ List.mem_cons_self) absent
  | remove absent rest ih => exact absurd (hs.mem List.mem_cons_self) absent

def toll (gone : List Row) (bills : List Tally) (moves : Nat) : Tally :=
  bills.sum + { inserted := bills.length, moved := moves, removed := gone.length }

theorem toll_move (m : Nat) : toll gone bills (moves + m) = toll gone bills moves + { moved := m } :=
  (add_assoc bills.sum { inserted := bills.length, moved := moves, removed := gone.length } { moved := m }).symm

theorem toll_mount (bill : Tally)
    : toll gone (bill :: bills) moves = bill + { inserted := 1 } + toll gone bills moves := by
  have hsplit : ({ inserted := (bill :: bills).length, moved := moves, removed := gone.length } : Tally)
      = { inserted := bills.length, moved := moves, removed := gone.length } + { inserted := 1 } := rfl
  rw [toll, toll, hsplit, List.sum_cons]
  abel

end Course

end View
end VirtualDom
