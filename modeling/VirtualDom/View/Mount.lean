import VirtualDom.View.Basic
import VirtualDom.View.Binding

/-!
This module contains mounting: making the nodes of a view and putting them into a parent. It depends
only on what the view describes, not on nodes it had before.
-/

namespace VirtualDom

open Engine

namespace Template

def reference (references : List NodeId) (index : Nat) : Engine NodeId :=
  match references[index]? with
  | some node => return node
  | none => throw .strayStep

namespace Wiring

def follow (references : List NodeId) (step : Step) : Engine (List NodeId) := do
  let source ← reference references step.source
  let found ← match step.direction with
    | .firstChild => read (·.firstChild source)
    | .nextSibling => read (·.nextSibling source)
  match found with
  | some node => return references.set step.target node
  | none => throw .strayStep

def locate (w : Wiring) (root : NodeId) : Engine (List NodeId) :=
  w.steps.foldlM follow (List.replicate w.references root)

end Wiring
end Template

namespace View

/-- What mounts a view into a parent before an anchor; the flag is whether it is sole there. -/
abbrev Mounting :=
  Bool → NodeId → Option NodeId → Engine View

/-- Detached nodes for markup, in which document types and instructions have none. -/
def buildMarkup : Markup → Engine (List NodeId)
  | .nil => return []
  | .cons item children siblings => do
    match item with
    | .element tag attributes =>
      let node ← create (·.createElement tag)
      attributes.forM fun (name, value) => edit (·.setAttribute node name value)
      let below ← buildMarkup children
      below.forM fun child => edit (·.append node child)
      return node :: (← buildMarkup siblings)
    | .text s | .cdata s =>
      let node ← createText s
      return node :: (← buildMarkup siblings)
    | .comment s =>
      let node ← create (·.createComment s)
      return node :: (← buildMarkup siblings)
    | .doctype _ | .instruction _ => buildMarkup siblings

/-- Detached nodes for the text `s`, at least one; if it is no markup, it is shown as it is. -/
def rawNodes (s : String) : Engine (List NodeId) := do
  match Markup.parse s with
  | .error e =>
    warn (.malformedMarkup e)
    return [← createText s]
  | .ok m =>
    match ← buildMarkup m with
    | [] => return [← createText ""]
    | nodes => return nodes

def insertAll (parent : NodeId) (nodes : List NodeId) (anchor : Option NodeId) : Engine Unit :=
  nodes.forM fun node => insert parent node anchor

def mountSlot (references : List NodeId) (mountings : List (Option Mounting))
    (children : List (Option View)) (slot : Template.ChildSlot) : Engine (List (Option View)) := do
  match mountings[slot.index]?.join with
  | none => return children
  | some mounting =>
    let parent ← Template.reference references slot.parent
    let anchor ← slot.anchor.mapM (Template.reference references)
    return children.set slot.index (some (← mounting slot.sole parent anchor))

/-- Mounts a copy of the template; the mountings of the children are used where slots are. -/
def mountBlock (template : Template) (data : Data) (children : List (Option View))
    (mountings : List (Option Mounting)) (parent : NodeId) (anchor : Option NodeId)
    : Engine View := do
  let wiring := template.wiring
  match ← change (·.plant none template.content) with
  | [] => throw .strayStep
  | root :: _ =>
    insert parent root anchor
    let references ← wiring.locate root
    wiring.locations.forM fun location => do
      location.binding.set (← Template.reference references location.reference)
        (data.at location.dataIndex)
    let children ← wiring.slots.foldlM (mountSlot references mountings) children
    return .block template data children (some ⟨root, references⟩)

def mountStandIn (parent : NodeId) (anchor : Option NodeId) : Engine NodeId := do
  let node ← createText ""
  insert parent node anchor
  return node

mutual

def mountAs : View → Mounting
  | .block template data children _, _, parent, anchor =>
    mountBlock template data children (mountings children) parent anchor
  | .text value _ _, _, parent, anchor => do
    let node ← createText value.text
    insert parent node anchor
    return .text value (some node) (some parent)
  | .html markup _ _, _, parent, anchor => do
    let content ← rawNodes markup
    insertAll parent content anchor
    return .html markup content (some parent)
  | .list items _ _ _, sole, parent, anchor => do
    let last ← mountStandIn parent anchor
    let items ← mountItems parent last items
    return .list items (some last) (some parent) sole
  | .multi children _ _ _, sole, parent, anchor => do
    let (children, standIns) ← mountChildren parent anchor children
    return .multi children standIns (some parent) sole
  | .toggler key child _, _, parent, anchor => do
    let child ← mountAs child child.isSole parent anchor
    return .toggler key child (some parent)
  | .component name child _, _, parent, anchor => do
    let node ← create (·.createElement "i")
    edit (·.setAttribute node "id" name)
    insert parent node anchor
    edit fun d => .ok (d.recordArrival ⟨name, node, parent⟩)
    match child with
    | none => return .component name none (some node)
    | some child =>
      let child ← mountAs child child.isSole node none
      return .component name (some child) (some node)
  | .ghost, _, _, _ => do
    log [.ghost .mount]
    return .ghost

def mountings : List (Option View) → List (Option Mounting)
  | [] => []
  | none :: rest => none :: mountings rest
  | some child :: rest => some (fun sole parent anchor => mountAs child sole parent anchor) :: mountings rest

def mountItems (parent anchor : NodeId) : List (Key × View) → Engine (List (Key × View))
  | [] => return []
  | (key, item) :: rest => do
    let item ← mountAs item item.isSole parent (some anchor)
    return (key, item) :: (← mountItems parent anchor rest)

/-- Mounts children in order; the second part holds the nodes in place of absent ones. -/
def mountChildren (parent : NodeId) (anchor : Option NodeId)
    : List (Option View) → Engine (List (Option View) × List (Option NodeId))
  | [] => return ([], [])
  | none :: rest => do
    let node ← mountStandIn parent anchor
    let (children, standIns) ← mountChildren parent anchor rest
    return (none :: children, some node :: standIns)
  | some child :: rest => do
    let child ← mountAs child child.isSole parent anchor
    let (children, standIns) ← mountChildren parent anchor rest
    return (some child :: children, none :: standIns)

end

/-- Makes the nodes of a view and puts them into `parent` before `anchor`, or at its end. -/
def mount (view : View) (parent : NodeId) (anchor : Option NodeId) : Engine View :=
  mountAs view view.isSole parent anchor

def render (view : View) : Except Fault String :=
  let action : Engine String := do
    let root ← create (·.createElement "div")
    let _ ← view.mount root none
    read (·.innerHtml root)
  match action {} with
  | .ok output _ => .ok output
  | .error fault _ => .error fault

end View
end VirtualDom
