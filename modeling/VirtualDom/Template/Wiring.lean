import VirtualDom.Fault
import VirtualDom.Template.Binding
import VirtualDom.Template.Sketch

/-!
This module contains wirings: the steps that find the dynamic nodes in a copy of a template, and what
belongs at each of them. Found nodes are kept as numbered references, of which reference 0 starts at
the root of the copy.
-/

namespace VirtualDom.Template

inductive Direction where
  | firstChild
  | nextSibling
deriving DecidableEq

/-- Sets the reference `target` to the node that lies in a direction from the reference `source`. -/
structure Step where
  target : Nat
  source : Nat
  direction : Direction
deriving DecidableEq

structure Location where
  dataIndex : Nat
  reference : Nat
  binding : Binding
deriving DecidableEq

/-- The place of a child: before the anchor, or all of its parent if there is none. -/
structure ChildSlot where
  index : Nat
  parent : Nat
  anchor : Option Nat
  sole : Bool
deriving DecidableEq

structure Wiring where
  references : Nat := 0
  steps : List Step := []
  locations : List Location := []
  slots : List ChildSlot := []
  /-- The data indices of callbacks that are told when their element goes. -/
  callbacks : List Nat := []
deriving DecidableEq

namespace Wiring

def isActive : Sketch → Bool
  | .nil => false
  | .cons (_, marks) children siblings => !marks.isEmpty || isActive children || isActive siblings

def isChildBefore : Mark → Bool
  | .child _ sole => !sole
  | _ => false

/-- Whether a child belongs before one of these nodes, so that their parent is needed too. -/
def hasChildBefore (nodes : Sketch) : Bool :=
  nodes.roots.any fun ((_, marks), _) => marks.any isChildBefore

def addLocation (w : Wiring) (dataIndex reference : Nat) (binding : Binding) : Wiring :=
  { w with locations := w.locations ++ [⟨dataIndex, reference, binding⟩] }

def addSlot (w : Wiring) (slot : ChildSlot) : Wiring :=
  { w with slots := w.slots ++ [slot] }

def addStep (w : Wiring) (source : Nat) (direction : Direction) : Wiring :=
  { w with steps := w.steps ++ [⟨w.references, source, direction⟩] }

def addMark (parent reference : Nat) (w : Wiring) : Mark → Wiring
  | .text index => w.addLocation index reference .text
  | .child index true => w.addSlot ⟨index, reference, none, true⟩
  | .child index false => w.addSlot ⟨index, parent, some reference, false⟩
  | .handler index event => w.addLocation index reference (.handler event)
  | .attribute index name tag => w.addLocation index reference (.ofAttribute tag name)
  | .bag index => w.addLocation index reference .bag
  | .ref index =>
    { w with callbacks := w.callbacks ++ [index] }.addLocation index reference .ref

/--
Wires the nodes of a sketch, the first of which is found under the next free reference. A node that
is only passed through leaves its reference free, and the step to the next node overwrites it.
-/
def addSketch (parent : Nat) (w : Wiring) : Sketch → Wiring
  | .nil => w
  | .cons (content, marks) children siblings =>
    if isActive (.cons (content, marks) children siblings) then
      let reference := w.references
      let down := isActive children
      let onward := isActive siblings
      let kept := !marks.isEmpty || hasChildBefore children || (down && onward)
      let w := if kept then { w with references := w.references + 1 } else w
      let w := marks.foldl (addMark parent reference) w
      let w := if down then addSketch reference (w.addStep reference .firstChild) children else w
      if onward then addSketch parent (w.addStep reference .nextSibling) siblings else w
    else
      w

def ofSketch (s : Sketch) : Wiring :=
  addSketch 0 {} s

/-- How many children the slots can address; the successor of an index must be an index too. -/
def childCapacity (w : Wiring) : Except Fault Nat :=
  if w.slots.any (indexLimit ≤ ·.index + 1) then
    .error .indexOverflow
  else
    .ok ((w.slots.map (·.index + 1)).foldl max 0)

end Wiring
end VirtualDom.Template
