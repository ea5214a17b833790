import VirtualDom.Proofs.Document.Tree
import VirtualDom.Template.Wiring

/-!
This module contains the places of the marks of a sketch in a copy of it, found by walking through
both: which node a value is bound to, and between which nodes a child belongs.
-/

namespace VirtualDom.Template

/-- A copy of a sketch: the nodes with their marks. -/
abbrev Marked :=
  Forest ((NodeId × Content) × List Mark)

structure Bound where
  dataIndex : Nat
  node : NodeId
  binding : Binding
deriving DecidableEq

/-- The place of a child in the node `parent`: before `anchor`, or all of it if `sole`. -/
structure Opening where
  index : Nat
  parent : NodeId
  anchor : Option NodeId
  sole : Bool
deriving DecidableEq

namespace Mark

def bound? (node : NodeId) : Mark → Option Bound
  | .text index => some ⟨index, node, .text⟩
  | .child _ _ => none
  | .handler index event => some ⟨index, node, .handler event⟩
  | .attribute index name tag => some ⟨index, node, .ofAttribute tag name⟩
  | .bag index => some ⟨index, node, .bag⟩
  | .ref index => some ⟨index, node, .ref⟩

def opening? (parent node : NodeId) : Mark → Option Opening
  | .child index true => some ⟨index, node, none, true⟩
  | .child index false => some ⟨index, parent, some node, false⟩
  | _ => none

def location? (reference : Nat) : Mark → Option Location
  | .text index => some ⟨index, reference, .text⟩
  | .child _ _ => none
  | .handler index event => some ⟨index, reference, .handler event⟩
  | .attribute index name tag => some ⟨index, reference, .ofAttribute tag name⟩
  | .bag index => some ⟨index, reference, .bag⟩
  | .ref index => some ⟨index, reference, .ref⟩

def slot? (parent reference : Nat) : Mark → Option ChildSlot
  | .child index true => some ⟨index, reference, none, true⟩
  | .child index false => some ⟨index, parent, some reference, false⟩
  | _ => none

def callback? : Mark → Option Nat
  | .ref index => some index
  | _ => none

end Mark

namespace Marked

def nodes (S : Marked) : Forest (NodeId × Content) :=
  S.map (·.1)

/-- The sketch that this is a copy of, if the nodes hold what they held at first. -/
def sketch (S : Marked) : Sketch :=
  S.map fun (node, marks) => (node.2, marks)

@[simp]
theorem nodes_nil : nodes .nil = .nil :=
  rfl

@[simp]
theorem nodes_cons (node : NodeId × Content) (marks : List Mark) (A B : Marked)
    : nodes (.cons (node, marks) A B) = .cons node A.nodes B.nodes :=
  rfl

@[simp]
theorem sketch_cons (node : NodeId × Content) (marks : List Mark) (A B : Marked)
    : sketch (.cons (node, marks) A B) = .cons (node.2, marks) A.sketch B.sketch :=
  rfl

def bounds : Marked → List Bound
  | .nil => []
  | .cons ((id, _), marks) children siblings =>
    marks.filterMap (·.bound? id) ++ bounds children ++ bounds siblings

def openings (parent : NodeId) : Marked → List Opening
  | .nil => []
  | .cons ((id, _), marks) children siblings =>
    marks.filterMap (·.opening? parent id) ++ openings id children ++ openings parent siblings

def callbacks : Marked → List Nat
  | .nil => []
  | .cons (_, marks) children siblings =>
    marks.filterMap (·.callback?) ++ callbacks children ++ callbacks siblings

theorem eq_cons_of_sketch {S : Marked} {c : Content} {marks : List Mark} {C D : Sketch}
    (h : S.sketch = .cons (c, marks) C D)
    : ∃ id A B, S = .cons ((id, c), marks) A B ∧ sketch A = C ∧ sketch B = D := by
  cases S with
  | nil => cases h
  | cons label A B =>
    obtain ⟨⟨id, c'⟩, marks'⟩ := label
    cases h
    exact ⟨id, A, B, rfl, rfl, rfl⟩

theorem eq_nil_of_sketch {S : Marked} (h : S.sketch = .nil) : S = .nil := by
  cases S with
  | nil => rfl
  | cons _ _ _ => cases h

theorem exists_of_content {s : Sketch} {F : Forest (NodeId × Content)}
    (h : F.map (·.2) = s.content) : ∃ S : Marked, S.nodes = F ∧ S.sketch = s := by
  induction s generalizing F with
  | nil =>
    cases F with
    | nil => exact ⟨.nil, rfl, rfl⟩
    | cons label children siblings => cases h
  | cons label children siblings ihc ihs =>
    cases F with
    | nil => cases h
    | cons node F G =>
      obtain ⟨c, marks⟩ := label
      obtain ⟨id, c'⟩ := node
      simp only [Forest.map, Sketch.content, Forest.cons.injEq] at h
      obtain ⟨rfl, hF, hG⟩ := h
      obtain ⟨C, hC, hsC⟩ := ihc hF
      obtain ⟨S, hS, hsS⟩ := ihs hG
      exact ⟨.cons ((id, c'), marks) C S, by simp [hC, hS], by simp [hsC, hsS]⟩

end Marked

def Location.resolve (references : List NodeId) (l : Location) : Option Bound :=
  references[l.reference]?.map (⟨l.dataIndex, ·, l.binding⟩)

def ChildSlot.resolve (references : List NodeId) (s : ChildSlot) : Option Opening := do
  let parent ← references[s.parent]?
  match s.anchor with
  | none => return ⟨s.index, parent, none, s.sole⟩
  | some anchor => return ⟨s.index, parent, some (← references[anchor]?), s.sole⟩

end VirtualDom.Template
