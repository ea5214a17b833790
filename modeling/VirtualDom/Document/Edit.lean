import VirtualDom.Document.Basic

/-!
This module contains the changes of the tree of a document. Removing a node keeps it for later use,
discarding frees it with everything below it.
-/

namespace VirtualDom.Document

def setNext (d : Document) (parent : NodeId) (prev next : Option NodeId)
    : Except Fault Document :=
  match prev with
  | some prev => d.update prev ({ · with nextSibling := next })
  | none => d.update parent ({ · with firstChild := next })

def setPrev (d : Document) (parent : NodeId) (next prev : Option NodeId)
    : Except Fault Document :=
  match next with
  | some next => d.update next ({ · with prevSibling := prev })
  | none => d.update parent ({ · with lastChild := prev })

/-- Takes `id` out of its parent; the second part is whether it had one. -/
def unlink (d : Document) (id : NodeId) : Except Fault (Document × Bool) := do
  let node ← d.node id
  match node.parent with
  | none => return (d, false)
  | some parent =>
    let d ← d.setNext parent node.prevSibling node.nextSibling
    let d ← d.setPrev parent node.nextSibling node.prevSibling
    let d ← d.update id ({ · with parent := none, prevSibling := none, nextSibling := none })
    return (d, true)

theorem occupied_unlink {d d' : Document} {id : NodeId} {attached : Bool}
    (h : d.unlink id = .ok (d', attached)) : d'.occupied = d.occupied := by
  obtain ⟨node, _, h⟩ := bind_eq_ok.1 h
  split at h
  . cases h
    rfl
  . obtain ⟨d₁, h₁, h⟩ := bind_eq_ok.1 h
    obtain ⟨d₂, h₂, h⟩ := bind_eq_ok.1 h
    obtain ⟨d₃, h₃, h⟩ := bind_eq_ok.1 h
    cases h
    have : d₁.occupied = d.occupied := by
      unfold setNext at h₁
      split at h₁ <;> exact occupied_update h₁
    have : d₂.occupied = d₁.occupied := by
      unfold setPrev at h₂
      split at h₂ <;> exact occupied_update h₂
    have : d'.occupied = d₂.occupied := occupied_update h₃
    omega

/-- The node that comes right before the place in `parent` before `reference`, or at the end. -/
def prevAt (d : Document) (parent : NodeId) : Option NodeId → Except Fault (Option NodeId)
  | some reference => do
    let node ← d.node reference
    if node.parent = some parent then
      return node.prevSibling
    else
      throw (.strayReference reference parent)
  | none => d.lastChild parent

/-- Puts the detached node `id` into `parent` before `reference`, or at the end. -/
def link (d : Document) (parent id : NodeId) (reference : Option NodeId)
    : Except Fault Document := do
  let prev ← d.prevAt parent reference
  let d ← d.update id
    ({ · with parent := some parent, prevSibling := prev, nextSibling := reference })
  let d ← d.setNext parent prev (some id)
  d.setPrev parent reference (some id)

/--
Puts `id` into `parent` before `reference`, or at the end. An attached node is moved and keeps its
id; a node that is to go before itself stays where it is.
-/
def insertBefore (d : Document) (parent id : NodeId) (reference : Option NodeId)
    : Except Fault Document := do
  if reference = some id then
    return d
  let (d, attached) ← d.unlink id
  let tally :=
    if attached then { d.tally with moved := d.tally.moved + 1 }
    else { d.tally with inserted := d.tally.inserted + 1 }
  { d with tally }.link parent id reference

def append (d : Document) (parent id : NodeId) : Except Fault Document :=
  d.insertBefore parent id none

def remove (d : Document) (id : NodeId) : Except Fault Document := do
  let (d, attached) ← d.unlink id
  let tally := if attached then { d.tally with removed := d.tally.removed + 1 } else d.tally
  return { d with tally }

theorem occupied_remove {d d' : Document} {id : NodeId} (h : d.remove id = .ok d')
    : d'.occupied = d.occupied := by
  obtain ⟨⟨d₁, attached⟩, h₁, h⟩ := bind_eq_ok.1 h
  cases h
  exact (occupied_unlink h₁ :)

end VirtualDom.Document
