import VirtualDom.Forest

/-!
This module contains the joining of many forests to one, how two splits of one forest meet, and the
numbers of nodes in document order.
-/

namespace VirtualDom.Forest

variable {α : Type u} {β : Type v}

abbrev leaf (label : α) : Forest α :=
  .cons label .nil .nil

def join : List (Forest α) → Forest α
  | [] => .nil
  | F :: rest => F ++ join rest

@[simp]
theorem join_nil : join ([] : List (Forest α)) = .nil :=
  rfl

@[simp]
theorem join_cons (F : Forest α) (rest : List (Forest α)) : join (F :: rest) = F ++ join rest :=
  rfl

@[simp]
theorem join_append (Fs Gs : List (Forest α)) : join (Fs ++ Gs) = join Fs ++ join Gs := by
  induction Fs with
  | nil => rfl
  | cons F rest ih => simp [ih, append_assoc]

theorem map_join (f : α → β) (Fs : List (Forest α))
    : (join Fs).map f = join (Fs.map (·.map f)) := by
  induction Fs with
  | nil => rfl
  | cons F rest ih => simp [ih]

theorem map_congr {f g : α → β} {F : Forest α} (h : ∀ a ∈ F.labels, f a = g a)
    : F.map f = F.map g := by
  induction F with
  | nil => rfl
  | cons label children siblings ihc ihs =>
    simp only [labels, List.cons_append, List.forall_mem_cons, List.forall_mem_append] at h
    rw [map_cons, map_cons, h.1, ihc h.2.1, ihs h.2.2]

theorem map_eq_nil {f : α → β} {F : Forest α} : F.map f = .nil ↔ F = .nil := by
  cases F <;> simp

theorem labels_map (f : α → β) (F : Forest α) : (F.map f).labels = F.labels.map f := by
  induction F with
  | nil => rfl
  | cons label children siblings ihc ihs => simp [labels, ihc, ihs]

theorem append_eq_append {A B C D : Forest α} (h : A ++ B = C ++ D)
    : (∃ X, C = A ++ X ∧ B = X ++ D) ∨ ∃ X, A = C ++ X ∧ D = X ++ B := by
  induction A generalizing C with
  | nil => exact .inl ⟨C, rfl, h⟩
  | cons label children siblings _ ih =>
    cases C with
    | nil => exact .inr ⟨_, rfl, h.symm⟩
    | cons label' children' siblings' =>
      simp only [cons_append, cons.injEq] at h
      obtain ⟨rfl, rfl, h⟩ := h
      rcases ih h with ⟨X, rfl, rfl⟩ | ⟨X, rfl, rfl⟩
      . exact .inl ⟨X, rfl, rfl⟩
      . exact .inr ⟨X, rfl, rfl⟩

def size : Forest α → Nat
  | .nil => 0
  | .cons _ children siblings => 1 + children.size + siblings.size

/--
The numbers of the parents of all nodes, where the nodes are numbered from `i` on in document order and
the roots are in `above`.
-/
def parents (above : Option Nat) (i : Nat) : Forest α → List (Option Nat)
  | .nil => []
  | .cons _ children siblings =>
    above :: (children.parents (some i) (i + 1) ++ siblings.parents above (i + 1 + children.size))

theorem length_parents (above : Option Nat) (i : Nat) (F : Forest α)
    : (F.parents above i).length = F.size := by
  induction F generalizing above i with
  | nil => rfl
  | cons label children siblings ihc ihs =>
    simp only [parents, size, List.length_cons, List.length_append, ihc, ihs]
    omega

theorem exists_parent {above i j : Nat} {F : Forest α} (hj : j < F.size)
    : ∃ k, (F.parents (some above) i)[j]? = some (some k) := by
  have hsome : ∀ parent ∈ F.parents (some above) i, parent.isSome := by
    clear hj
    induction F generalizing above i with
    | nil => nofun
    | cons label children siblings ihc ihs =>
      simp only [parents, List.forall_mem_cons, List.forall_mem_append]
      exact ⟨rfl, ihc, ihs⟩
  rw [← length_parents (some above) i] at hj
  obtain ⟨k, hk⟩ := Option.isSome_iff_exists.1 (hsome _ (List.getElem_mem hj))
  exact ⟨k, by rw [List.getElem?_eq_getElem hj, hk]⟩

end VirtualDom.Forest
