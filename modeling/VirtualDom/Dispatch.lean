import VirtualDom.Host
import VirtualDom.Session

/-!
This module contains the delivery of delegated events: the payload nearest to the target of an event,
on its way up to the root, is handed to the configured handler.
-/

namespace VirtualDom

/--
The nearest payload for an event, at most `height` nodes from `id` up. No way up visits a slot twice,
so a height of the number of slots covers it.
-/
def Document.nearestPayload? (d : Document) (event : String)
    : Nat → NodeId → Except Fault (Option Value)
  | 0, _ => return none
  | height + 1, id => do
    match ← d.handler? id event with
    | some payload => if payload.isNull then climb height id else return some payload
    | none => climb height id
where
  climb (height : Nat) (id : NodeId) : Except Fault (Option Value) := do
    match ← d.parent id with
    | some parent => d.nearestPayload? event height parent
    | none => return none

def Session.dispatch (s : Session) (event : Event) : Engine Bool := do
  if s.isDelegated event.name then
    match ← Engine.read fun d => d.nearestPayload? event.name (d.capacity + 1) event.target with
    | some payload =>
      Engine.log (s.settings.handler payload event)
      return true
    | none => return false
  else
    return false

end VirtualDom
