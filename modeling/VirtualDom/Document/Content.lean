import VirtualDom.Document.Basic

/-!
This module contains the writes to the content of nodes: character data, attributes, classes,
properties and event payloads. Writes that a kind of node has no place for do nothing.
-/

namespace VirtualDom.Document

variable (d : Document) (id : NodeId)

def setContent (content : Content) : Document :=
  d.modify id ({ · with content })

def setText (s : String) : Except Fault Document := do
  let tally := { d.tally with textWrites := d.tally.textWrites + 1 }
  match ← d.content id with
  | .element _ => return d
  | .text _ => return { d.setContent id (.text s) with tally }
  | .comment _ => return { d.setContent id (.comment s) with tally }

def modifyElement (f : Element → Option Element) (count : Tally → Tally)
    : Except Fault Document := do
  match (← d.element? id).bind f with
  | some e => return { d.setContent id (.element e) with tally := count d.tally }
  | none => return d

def attribute? (name : String) : Except Fault (Option String) :=
  return (← d.element? id).bind (·.attributes.get? name)

def countAttributeWrite (t : Tally) : Tally :=
  { t with attributeWrites := t.attributeWrites + 1 }

def setAttribute (name value : String) : Except Fault Document :=
  d.modifyElement id (fun e => some { e with attributes := e.attributes.put name value })
    countAttributeWrite

/-- Only the removal of an attribute that is there is a write. -/
def removeAttribute (name : String) : Except Fault Document :=
  d.modifyElement id
    (fun e =>
      if (e.attributes.get? name).isSome then
        some { e with attributes := e.attributes.erase name }
      else
        none)
    countAttributeWrite

def classList : Except Fault (List String) :=
  return ((← d.attribute? id "class").map Text.words).getD []

def hasClass (token : String) : Except Fault Bool :=
  return (← d.classList id).contains token

def addClass (token : String) : Except Fault Document := do
  let tokens ← d.classList id
  if tokens.contains token then return d
  else d.setAttribute id "class" (" ".intercalate (tokens ++ [token]))

/-- Removing the last token leaves an empty attribute. -/
def removeClass (token : String) : Except Fault Document := do
  let tokens ← d.classList id
  if tokens.contains token then
    d.setAttribute id "class" (" ".intercalate (tokens.filter (· ≠ token)))
  else
    return d

def property? (name : String) : Except Fault (Option Value) :=
  return (← d.element? id).bind (·.properties.get? name)

def setProperty (name : String) (value : Value) : Except Fault Document :=
  d.modifyElement id (fun e => some { e with properties := e.properties.put name value })
    fun t => { t with propertyWrites := t.propertyWrites + 1 }

def handler? (event : String) : Except Fault (Option Value) :=
  return (← d.element? id).bind (·.handlers.get? event)

def setHandler (event : String) (payload : Value) : Except Fault Document :=
  d.modifyElement id (fun e => some { e with handlers := e.handlers.put event payload }) fun t => t

end VirtualDom.Document
