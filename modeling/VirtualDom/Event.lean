import VirtualDom.Trace

/-!
This module contains events and their handlers, which turn the payload found for an event into calls.
-/

namespace VirtualDom

structure Event where
  name : String
  target : NodeId

abbrev EventHandler :=
  Value → Event → List Entry

namespace EventHandler

/-- Calls the handler that is the payload or starts it; a second item is its argument. -/
def standard : EventHandler := fun payload event =>
  match payload with
  | .handler _ label => call label .null event
  | .list _ [.handler _ label] => call label .null event
  | .list _ (.handler _ label :: argument :: _) => call label argument event
  | .list _ _ => [.warning (.oddPayload event.name)]
  | payload => [.warning (.uncallablePayload event.name payload)]
where
  call (label : String) (argument : Value) (event : Event) : List Entry :=
    [.handlerCall label event.name event.target argument.text]

def logging : EventHandler := fun payload event =>
  [.note (":".intercalate ["main", event.name, event.target.text, payload.text])]

def wrapping (inner : EventHandler) : EventHandler := fun payload event =>
  .note ("wrap:" ++ event.name) :: inner payload event

end EventHandler
end VirtualDom
