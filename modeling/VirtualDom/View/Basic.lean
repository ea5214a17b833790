import VirtualDom.Host
import VirtualDom.Key
import VirtualDom.Template.Basic

/-!
This module contains views: what a render describes, together with the document nodes that show it
once it is mounted.
-/

namespace VirtualDom

structure Data where
  identity : Nat
  values : List Value

/-- Indices without a value have the null value. -/
def Data.at (d : Data) (index : Nat) : Value :=
  d.values[index]?.getD .null

/-- The nodes of a mounted block: its root, and the references of its wiring. -/
structure Anchorage where
  root : NodeId
  references : List NodeId

inductive View where
  | block (template : Template) (data : Data) (children : List (Option View))
      (mounted : Option Anchorage)
  | text (value : Value) (node parent : Option NodeId)
  | html (markup : String) (content : List NodeId) (parent : Option NodeId)
  /-- Keyed items, and behind them an empty text node as the anchor of the list. -/
  | list (items : List (Key × View)) (anchor parent : Option NodeId) (sole : Bool)
  /-- A fixed number of places, the empty ones of which hold an empty text node. -/
  | multi (children : List (Option View)) (standIns : List (Option NodeId))
      (parent : Option NodeId) (sole : Bool)
  | toggler (key : Key) (child : View) (parent : Option NodeId)
  /--
  A named element around a child, whose life is told in the trace. This and `ghost` are the nodes of
  custom types that are looked at here: such a type is given from outside, and these two are what is asked
  of one that has an element of its own and of one that has no nodes.
  -/
  | component (name : String) (child : Option View) (node : Option NodeId)
  /-- No nodes at all; its life is told in the trace. -/
  | ghost

instance : Inhabited View := ⟨.ghost⟩

namespace View

def kind : View → String
  | .block _ _ _ _ => "block"
  | .text _ _ _ => "text"
  | .html _ _ _ => "html"
  | .list _ _ _ _ => "list"
  | .multi _ _ _ _ => "multi"
  | .toggler _ _ _ => "toggler"
  | .component _ _ _ | .ghost => "custom"

/--
Blocks have room for fewer than 2⁴⁰ children. The children of a block are one allocation, which for 2⁴⁰ of
them is of tens of tebibytes and fails. Where exactly it fails below that depends on the machine, and that
there is enough memory for fewer is assumed.
-/
def childLimit : Nat := 1099511627776

/-- An unmounted block; its children are filled up to what the slots of the template address. -/
def ofTemplate (template : Template) (data : Data) (children : List (Option View))
    : Except Fault View := do
  let capacity ← template.wiring.childCapacity
  if childLimit ≤ capacity then
    throw .tooManyChildren
  let missing := List.replicate (capacity - children.length) none
  return .block template data (children ++ missing) none

def ofText (value : Value) : View :=
  .text value none none

def ofMarkup (markup : String) : View :=
  .html markup [] none

def ofItems (items : List (Key × View)) : View :=
  .list items none none false

def ofChildren (children : List (Option View)) : View :=
  .multi children [] none false

def ofKey (key : Key) (child : View) : View :=
  .toggler key child none

def ofName (name : String) (child : Option View) : View :=
  .component name child none

/-- Whether the view is all the content of its parent, and may clear it as a whole. -/
def isSole : View → Bool
  | .list _ _ _ sole | .multi _ _ _ sole => sole
  | _ => false

/-- Only lists and multis remember whether they are all the content of their parent. -/
def withSole (sole : Bool) : View → View
  | .list items anchor parent _ => .list items anchor parent sole
  | .multi children standIns parent _ => .multi children standIns parent sole
  | view => view

/-- The first node of the view in its parent, before which another one can be inserted. -/
def firstNode : View → Option NodeId
  | .block _ _ _ mounted => mounted.map (·.root)
  | .text _ node _ => node
  | .html _ content _ => content.head?
  | .list [] anchor _ _ => anchor
  | .list ((_, item) :: _) _ _ _ => item.firstNode
  | .multi [] _ _ _ => none
  | .multi (none :: _) standIns _ _ => standIns.head?.join
  | .multi (some child :: _) _ _ _ => child.firstNode
  | .toggler _ child _ => child.firstNode
  | .component _ _ node => node
  | .ghost => none

mutual

def nodes : View → List NodeId
  | .block _ _ _ mounted => (mounted.map (·.root)).toList
  | .text _ node _ | .component _ _ node => node.toList
  | .html _ content _ => content
  | .list items anchor _ _ => itemNodes items ++ anchor.toList
  | .multi children standIns _ _ => childNodes children standIns
  | .toggler _ child _ => child.nodes
  | .ghost => []

def itemNodes : List (Key × View) → List NodeId
  | [] => []
  | (_, item) :: rest => item.nodes ++ itemNodes rest

def childNodes : List (Option View) → List (Option NodeId) → List NodeId
  | some child :: rest, _ :: standIns => child.nodes ++ childNodes rest standIns
  | none :: rest, standIn :: standIns => standIn.toList ++ childNodes rest standIns
  | _, _ => []

end

def parentNode (d : Document) : View → Except Fault (Option NodeId)
  | .text _ _ parent | .html _ _ parent | .list _ _ parent _ | .multi _ _ parent _
  | .toggler _ _ parent => return parent
  | view => do
    match view.firstNode with
    | some node => d.parent node
    | none => return none

mutual

def outerHtml (d : Document) : View → Except Fault String
  | .block _ _ _ mounted => htmlOf (mounted.map (·.root))
  | .text _ node _ | .component _ _ node => htmlOf node
  | .html _ content _ => return String.join (← content.mapM d.outerHtml)
  | .list items _ _ _ => itemsHtml d items
  | .multi children _ _ _ => childrenHtml d children
  | .toggler _ child _ => outerHtml d child
  | .ghost => return "(ghost)"
where
  htmlOf : Option NodeId → Except Fault String
    | some node => d.outerHtml node
    | none => return ""

def itemsHtml (d : Document) : List (Key × View) → Except Fault String
  | [] => return ""
  | (_, item) :: rest => return (← outerHtml d item) ++ (← itemsHtml d rest)

def childrenHtml (d : Document) : List (Option View) → Except Fault String
  | [] => return ""
  | none :: rest => childrenHtml d rest
  | some child :: rest => return (← outerHtml d child) ++ (← childrenHtml d rest)

end

end View
end VirtualDom
