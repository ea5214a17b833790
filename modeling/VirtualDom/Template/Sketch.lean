import VirtualDom.Document.Basic
import VirtualDom.Forest
import VirtualDom.Markup.Basic
import VirtualDom.Template.Marker

/-!
This module contains sketches: the static content of a template with the marks of its dynamic places
on the nodes that they concern. Markers for text and children become empty texts; a child that is all
the content of an element is marked on that element instead.
-/

namespace VirtualDom.Template

inductive Mark where
  | text (index : Nat)
  /-- The place of a child: all of the node's content if `sole`, otherwise right before the node. -/
  | child (index : Nat) (sole : Bool)
  | handler (index : Nat) (event : String)
  | attribute (index : Nat) (name tag : String)
  | bag (index : Nat)
  | ref (index : Nat)
deriving DecidableEq

abbrev Sketch :=
  Forest (Content × List Mark)

/--
The making of a sketch. Its state is the list of event names met so far, which outlives a failure.
-/
abbrev Sketching :=
  EStateM Error (List String)

namespace Sketching

def lift {α : Type} : Except Error α → Sketching α
  | .ok a => pure a
  | .error e => throw e

/-- Adds an event name, once. -/
def register (event : String) : Sketching Unit :=
  modify fun events => if events.contains event then events else events ++ [event]

end Sketching

namespace Sketch

open Sketching

def mark (tag : String) : AttributeMarker → Sketching Mark
  | .handler index event => do
    register event
    return .handler index event
  | .attribute index name => return .attribute index name tag
  | .bag index => return .bag index
  | .ref index => return .ref index

/-- Gives `e` the static attributes of a list and collects the marks of the others, in order. -/
def element (e : Element) : List (String × String) → Sketching (Element × List Mark)
  | [] => return (e, [])
  | (name, value) :: rest => do
    match ← lift (attributeMarker? name value) with
    | none => element { e with attributes := e.attributes.put name value } rest
    | some marker =>
      let first ← mark e.tag marker
      let (e, marks) ← element e rest
      return (e, first :: marks)

def checkEmpty (tag : String) (attributes : List (String × String)) (children : Markup)
    : Sketching Unit :=
  if attributes.isEmpty && children.isEmpty then return ()
  else throw (.markerWithContent tag)

def soleChild? (children : Markup) : Sketching (Option Nat) := do
  match children with
  | .cons (.element tag attributes) below .nil =>
    match ← lift (tagMarker? tag) with
    | some (.child index) =>
      checkEmpty tag attributes below
      return some index
    | _ => return none
  | _ => return none

def ofMarkup : Markup → Sketching Sketch
  | .nil => return .nil
  | .cons item children siblings => do
    match item with
    | .element tag attributes =>
      match ← lift (tagMarker? tag) with
      | some marker =>
        checkEmpty tag attributes children
        let first := match marker with
          | .text index => Mark.text index
          | .child index => .child index false
        return .cons (.text "", [first]) .nil (← ofMarkup siblings)
      | none =>
        let (e, marks) ← element { tag } attributes
        match ← soleChild? children with
        | some index =>
          return .cons (.element e, marks ++ [.child index true]) .nil (← ofMarkup siblings)
        | none =>
          let below ← ofMarkup children
          return .cons (.element e, marks) below (← ofMarkup siblings)
    | .text s => return .cons (.text s, []) .nil (← ofMarkup siblings)
    | .comment s => return .cons (.comment s, []) .nil (← ofMarkup siblings)
    | item => throw (.unsupportedNode item.kind)

def ofRoot (item : Markup.Item) (children : Markup) : Sketching Sketch := do
  if let .element tag _ := item then
    if let some (.child _) := ← lift (tagMarker? tag) then
      throw (.markerAtRoot tag)
  ofMarkup (.cons item children .nil)

def content (s : Sketch) : Forest Content :=
  s.map (·.1)

@[simp]
theorem content_nil : content .nil = .nil :=
  rfl

@[simp]
theorem content_cons (c : Content) (marks : List Mark) (children siblings : Sketch)
    : content (.cons (c, marks) children siblings) = .cons c children.content siblings.content :=
  rfl

end Sketch
end VirtualDom.Template
