import VirtualDom.Document.Basic
import VirtualDom.Key
import VirtualDom.Markup.Error
import VirtualDom.Value.Inspect

/-!
This module contains what a run tells the outside: calls of callbacks and event handlers, the life of
components, and warnings about data that was passed over.
-/

namespace VirtualDom

inductive Warning where
  | oddBag (bag : Value)
  | duplicateKey (key : Key)
  | malformedMarkup (e : Markup.SyntaxError)
  /-- A list as an event payload that does not start with a handler. -/
  | oddPayload (event : String)
  | uncallablePayload (event : String) (payload : Value)

def Warning.message : Warning → String
  | .oddBag bag => "attribute bag " ++ bag.inspect ++ " is neither a pair nor a map"
  | .duplicateKey key => "duplicate list key " ++ key.text ++ "; the last occurrence wins"
  | .malformedMarkup e => "inserting unparseable markup as text: " ++ e.message
  | .oddPayload event => "`" ++ event ++ "` payload is not a [handler, argument] pair"
  | .uncallablePayload event payload =>
    "`" ++ event ++ "` payload " ++ payload.inspect ++ " is not callable"

inductive Moment where
  | mount
  | patch (sameKind : Bool)
  | move (target : Option NodeId)
  /-- The call before the element goes, with the document that is handed on. -/
  | beforeRemove (element : Option NodeId) (document : Document)
  | remove (element : Option NodeId)

inductive Entry where
  | handlerCall (label event : String) (target : NodeId) (argument : String)
  /-- A callback was told its element, or that its element is gone. -/
  | refCall (label : String) (node : Option NodeId)
  | component (name : String) (moment : Moment)
  | ghost (moment : Moment)
  | warning (w : Warning)
  | note (text : String)

def nodeText : Option NodeId → String
  | some id => id.text
  | none => "null"

def Moment.name : Moment → String
  | .mount => "mount"
  | .patch _ => "patch"
  | .move _ => "move"
  | .beforeRemove _ _ => "before_remove"
  | .remove _ => "remove"

def Entry.text : Entry → String
  | .handlerCall label event target argument =>
    ":".intercalate ["handler", label, event, target.text, argument]
  | .refCall label node => ":".intercalate ["ref", label, nodeText node]
  | .component name moment => moment.name ++ ":" ++ name
  | .ghost (.patch sameKind) => "ghost:patch:" ++ (if sameKind then "true" else "false")
  | .ghost (.move target) => "ghost:move:" ++ nodeText target
  | .ghost moment => "ghost:" ++ moment.name
  | .warning w => "warn:" ++ w.message
  | .note text => text

end VirtualDom
