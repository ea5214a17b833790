import VirtualDom.Template.Sketch

/-!
This module contains plans: the nodes of a template by numbers, in the order in which they are met, as
they are while the template is read. A node leads to its first child and to its next sibling. It is
active once something dynamic is known of it or of what it leads to.
-/

namespace VirtualDom.Template

structure Plan.Node where
  content : Content
  /-- The sibling to the left, or the node that this is the first child of. -/
  up : Option Nat
  firstChild : Option Nat := none
  nextSibling : Option Nat := none
  marks : List Mark := []
  /-- Whether a child belongs before one of the node's children. -/
  needed : Bool := false
  active : Bool := false

abbrev Plan :=
  Array Plan.Node

namespace Plan

open Sketching Sketch

namespace Node

def activated (n : Node) : Node :=
  { n with active := true }

def withNeed (n : Node) : Node :=
  { n with needed := true }

def withFirstChild (i : Nat) (n : Node) : Node :=
  { n with firstChild := some i }

def withNextSibling (i : Nat) (n : Node) : Node :=
  { n with nextSibling := some i }

end Node

def add (p : Plan) (n : Node) : Plan :=
  p.push n

theorem countP_inactive_lt {p : Plan} {i : Nat} {n : Node} (hn : p[i]? = some n) (h : ¬n.active)
    : (p.modify i Node.activated).countP (!·.active) < p.countP (!·.active) := by
  have := Document.countP_modify (p := (!·.active)) (f := Node.activated) hn
  rw [if_pos (by simpa using h), if_neg (by simp [Node.activated])] at this
  omega

/-- Makes the node `i` and the nodes above it active, up to the first that is so already. -/
def activate (p : Plan) : Option Nat → Plan
  | none => p
  | some i =>
    match _ : p[i]? with
    | none => p
    | some n => if n.active then p else activate (p.modify i Node.activated) n.up
termination_by p.countP (!·.active)
decreasing_by
  apply countP_inactive_lt
  . assumption
  . assumption

def up? (p : Plan) (i : Nat) : Option Nat :=
  p[i]?.bind Node.up

def activateAbove (p : Plan) (i : Nat) : Plan :=
  p.activate (p.up? i)

def need (p : Plan) (i : Nat) : Plan :=
  p.modify i Node.withNeed

def markSole (p : Plan) (i index : Nat) : Plan :=
  p.modify i fun n => { n with marks := n.marks ++ [.child index true], active := true }

/-- Gives a node its place, which is after `left` or else first in `above`. -/
def place (p : Plan) (above left : Option Nat) (i : Nat) : Plan :=
  match left, above with
  | some left, _ => p.modify left (Node.withNextSibling i)
  | none, some above => p.modify above (Node.withFirstChild i)
  | none, none => p

/--
Adds a node that goes after `left` in `above`. What is in it is added by `addBelow`, unless that is all
a child.
-/
def addNode (above left : Option Nat) (p : Plan) (children : Markup)
    (addBelow : Plan → Sketching Plan) : Markup.Item → Sketching Plan
  | .element tag attributes => do
    match ← lift (tagMarker? tag) with
    | some marker =>
      checkEmpty tag attributes children
      let (p, mark) ← match marker, above with
        | .text index, _ => pure (p, Mark.text index)
        | .child index, some above => pure (p.need above, Mark.child index false)
        | .child _, none => throw (.markerAtRoot tag)
      let q := p.add { content := .text "", up := left.or above, marks := [mark], active := true }
      return q.activateAbove p.size
    | none =>
      let (e, marks) ← element { tag } attributes
      let q := p.add { content := .element e, up := left.or above, marks, active := !marks.isEmpty }
      match ← soleChild? children with
      | some index => return (q.markSole p.size index).activateAbove p.size
      | none =>
        let q ← addBelow q
        return if marks.isEmpty then q else q.activateAbove p.size
  | .text s => return p.add { content := .text s, up := left.or above }
  | .comment s => return p.add { content := .comment s, up := left.or above }
  | item => throw (.unsupportedNode item.kind)

def addMarkup (above left : Option Nat) (p : Plan) : Markup → Sketching Plan
  | .nil => return p
  | .cons item children siblings => do
    let q ← addNode above left p children (fun q => addMarkup (some p.size) none q children) item
    addMarkup above (some p.size) (q.place above left p.size) siblings

def ofRoot (item : Markup.Item) (children : Markup) : Sketching Plan := do
  if let .element tag _ := item then
    if let some (.child _) := ← lift (tagMarker? tag) then
      throw (.markerAtRoot tag)
  addMarkup none none #[] (.cons item children .nil)

/--
The number of the node that a node is in, by way of its siblings to the left. There is no result if a
link leads nowhere, or not to an earlier node.
-/
def container? (p : Plan) (i : Nat) : Option (Option Nat) := do
  match (← p[i]?).up with
  | none => return none
  | some j =>
    if (← p[j]?).nextSibling = some i then
      if _ : j < i then p.container? j else none
    else
      return some j
termination_by i

end Plan
end VirtualDom.Template
