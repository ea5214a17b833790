/-!
This module contains ordered forests in first-child, next-sibling form: a forest is empty, or a first
root with the forest of its children and the forest of the roots after it.
-/

namespace VirtualDom

inductive Forest (α : Type u) where
  | nil
  | cons (label : α) (children siblings : Forest α)
deriving DecidableEq, Inhabited

namespace Forest

variable {α : Type u} {β : Type v}

def isEmpty : Forest α → Bool
  | .nil => true
  | .cons _ _ _ => false

def append : Forest α → Forest α → Forest α
  | .nil, g => g
  | .cons label children siblings, g => .cons label children (siblings.append g)

instance : Append (Forest α) := ⟨append⟩

def roots : Forest α → List (α × Forest α)
  | .nil => []
  | .cons label children siblings => (label, children) :: siblings.roots

def ofRoots : List (α × Forest α) → Forest α
  | [] => .nil
  | (label, children) :: rest => .cons label children (ofRoots rest)

@[simp]
theorem roots_ofRoots (rs : List (α × Forest α)) : (ofRoots rs).roots = rs := by
  induction rs with
  | nil => rfl
  | cons r rest ih => simp [ofRoots, roots, ih]

@[simp]
theorem ofRoots_roots (f : Forest α) : ofRoots f.roots = f := by
  induction f with
  | nil => rfl
  | cons label children siblings _ ih => simp [ofRoots, roots, ih]

@[simp]
theorem nil_append (f : Forest α) : .nil ++ f = f :=
  rfl

@[simp]
theorem cons_append (label : α) (children siblings f : Forest α)
    : .cons label children siblings ++ f = .cons label children (siblings ++ f) :=
  rfl

@[simp]
theorem append_nil (f : Forest α) : f ++ .nil = f := by
  induction f with
  | nil => rfl
  | cons label children siblings _ ih => simp [ih]

theorem append_assoc (f g k : Forest α) : f ++ g ++ k = f ++ (g ++ k) := by
  induction f with
  | nil => rfl
  | cons label children siblings _ ih => simp [ih]

@[simp]
theorem roots_append (f g : Forest α) : (f ++ g).roots = f.roots ++ g.roots := by
  induction f with
  | nil => rfl
  | cons label children siblings _ ih => exact congrArg _ ih

def map (f : α → β) : Forest α → Forest β
  | .nil => .nil
  | .cons label children siblings => .cons (f label) (children.map f) (siblings.map f)

@[simp]
theorem map_nil (f : α → β) : map f .nil = .nil :=
  rfl

@[simp]
theorem map_cons (f : α → β) (label : α) (children siblings : Forest α)
    : map f (.cons label children siblings) = .cons (f label) (children.map f) (siblings.map f) :=
  rfl

theorem map_map {γ : Type w} (f : α → β) (g : β → γ) (k : Forest α)
    : (k.map f).map g = k.map fun a => g (f a) := by
  induction k with
  | nil => rfl
  | cons label children siblings ihc ihs => simp [ihc, ihs]

/-- Applies `f` to each label; a node that `f` refuses goes with everything below it. -/
def filterMap (f : α → Option β) : Forest α → Forest β
  | .nil => .nil
  | .cons label children siblings =>
    match f label with
    | some b => .cons b (children.filterMap f) (siblings.filterMap f)
    | none => siblings.filterMap f

def labels : Forest α → List α
  | .nil => []
  | .cons label children siblings => label :: children.labels ++ siblings.labels

@[simp]
theorem map_append (f : α → β) (g k : Forest α) : (g ++ k).map f = g.map f ++ k.map f := by
  induction g with
  | nil => rfl
  | cons label children siblings _ ih => simp [ih]

@[simp]
theorem labels_append (f g : Forest α) : (f ++ g).labels = f.labels ++ g.labels := by
  induction f with
  | nil => rfl
  | cons label children siblings _ ih => simp [labels, ih]

/-- All labels, a root before what is below it, the last of its children first. -/
def lastFirst : Forest α → List α
  | .nil => []
  | .cons label children siblings => siblings.lastFirst ++ label :: children.lastFirst

end Forest
end VirtualDom
