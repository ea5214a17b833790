import VirtualDom.Template.Plan
import VirtualDom.Template.Wiring

/-!
This module contains surveys: the way through a plan on which its nodes are wired, and what is done at
each of them, in the order in which it is done.
-/

namespace VirtualDom.Template

inductive Act where
  /-- A node keeps the reference that it was found under. -/
  | keep (reference : Nat)
  | step (s : Step)
  | location (l : Location)
  | slot (s : ChildSlot)
  | callback (index : Nat)
deriving DecidableEq

def Wiring.perform (w : Wiring) : Act → Wiring
  | .keep _ => { w with references := w.references + 1 }
  | .step s => { w with steps := w.steps ++ [s] }
  | .location l => { w with locations := w.locations ++ [l] }
  | .slot s => { w with slots := w.slots ++ [s] }
  | .callback index => { w with callbacks := w.callbacks ++ [index] }

structure Survey where
  acts : List Act := []
  /-- The references of the nodes that have one, by their numbers. -/
  found : Nat → Option Nat := fun _ => none

namespace Survey

def wiring (v : Survey) : Wiring :=
  v.acts.foldl .perform {}

def free (v : Survey) : Nat :=
  v.wiring.references

def perform (v : Survey) (a : Act) : Survey :=
  { v with acts := v.acts ++ [a] }

def bindTo (v : Survey) (dataIndex reference : Nat) (binding : Binding) : Survey :=
  v.perform (.location ⟨dataIndex, reference, binding⟩)

def refer (v : Survey) (i reference : Nat) : Survey :=
  { v with found := fun j => if j = i then some reference else v.found j }

def stepTo (v : Survey) (source : Nat) (direction : Direction) : Survey :=
  v.perform (.step ⟨v.free, source, direction⟩)

end Survey

namespace Plan

def wireMark (p : Plan) (i reference : Nat) (v : Survey) : Mark → Option Survey
  | .text index => return v.bindTo index reference .text
  | .child index true => return v.perform (.slot ⟨index, reference, none, true⟩)
  | .child index false => do
    let parent ← v.found (← (← p.container? i))
    return v.perform (.slot ⟨index, parent, some reference, false⟩)
  | .handler index event => return v.bindTo index reference (.handler event)
  | .attribute index name tag => return v.bindTo index reference (.ofAttribute tag name)
  | .bag index => return v.bindTo index reference .bag
  | .ref index => return (v.perform (.callback index)).bindTo index reference .ref

/--
Wires the node `i` itself, which was found under the next free reference. It keeps the reference if
something is bound to it, and if the way goes on from it in both directions.
-/
def wireNode (p : Plan) (i : Nat) (n : Node) (both : Bool) (v : Survey) : Option Survey :=
  let reference := v.free
  let marked := n.needed || !n.marks.isEmpty
  let v := if marked || both then v.perform (.keep reference) else v
  if marked then n.marks.foldlM (p.wireMark i reference) (v.refer i reference) else some v

def follow (p : Plan) (i : Nat) : Option Nat → Option (Option { j // i < j })
  | none => some none
  | some j => do
    let n ← p[j]?
    if h : i < j then return if n.active then some ⟨j, h⟩ else none else none

/--
Wires the node `i`, which was found under the next free reference, and what it leads to. There is no
result if a link leads nowhere or back, or if a child belongs in a node that has no reference.
-/
def visit (p : Plan) (i : Nat) (v : Survey) : Option Survey :=
  match _ : p[i]? with
  | none => none
  | some n =>
    if n.active then do
      let reference := v.free
      let down ← p.follow i n.firstChild
      let onward ← p.follow i n.nextSibling
      let v ← p.wireNode i n (down.isSome && onward.isSome) v
      let v ← match down with
        | some child => p.visit child (v.stepTo reference .firstChild)
        | none => some v
      match onward with
      | some sibling => p.visit sibling (v.stepTo reference .nextSibling)
      | none => some v
    else
      some v
termination_by p.size - i
decreasing_by
  all_goals
    have := (Array.getElem?_eq_some_iff.1 ‹p[i]? = some n›).1
    omega

def survey (p : Plan) : Option Survey :=
  if p.isEmpty then some {} else p.visit 0 {}

end Plan
end VirtualDom.Template
