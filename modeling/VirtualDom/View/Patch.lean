import VirtualDom.View.Reconcile

/-!
This module contains patching: bringing the nodes of a mounted view in line with the view of the next
render, which the result then stands for. Views of different kinds replace each other.
-/

namespace VirtualDom.View

open Engine

/--
Puts `new` where `old` is, before `old` goes. A sole view hands that on, and must not clear the parent
that it now shares; a view that is mounted nowhere is replaced without any action.
-/
def replace (new : View) (sole : Bool) (old : View) : Engine View := do
  match ← read (old.parentNode ·) with
  | none => return new.withSole sole
  | some parent =>
    let mounted ← new.mountAs (sole || old.isSole) parent old.firstNode
    let _ ← (old.withSole false).tearDown
    return mounted

def updateLocations (template : Template) (references : List NodeId) (data old : Data)
    : Engine Unit :=
  template.wiring.locations.forM fun location => do
    let value := data.at location.dataIndex
    let before := old.at location.dataIndex
    if !before.same value then
      location.binding.update (← Template.reference references location.reference) value before

/-- Patches the child of a slot; each new child is used up by the first slot that names it. -/
def patchSlot (references : List NodeId)
    (state : List (Option View) × List (Option Incoming)) (slot : Template.ChildSlot)
    : Engine (List (Option View) × List (Option Incoming)) := do
  let (children, incoming) := state
  let next := incoming[slot.index]?.join
  let rest := incoming.set slot.index none
  match children[slot.index]?.join, next with
  | some child, some next =>
    let child ← next.patchAs slot.sole child
    return (children.set slot.index (some child), rest)
  | some child, none =>
    let _ ← child.tearDown
    return (children.set slot.index none, rest)
  | none, some next =>
    let parent ← Template.reference references slot.parent
    let anchor ← slot.anchor.mapM (Template.reference references)
    let child ← next.view.mountAs slot.sole parent anchor
    return (children.set slot.index (some child), rest)
  | none, none => return (children, rest)

/-- Patches one place of a multi; where there is no child, the stand-in is the node in its place. -/
def patchPlace (parent : NodeId) (standIn : Option NodeId)
    : Option View → Option Incoming → Engine (Option View × Option NodeId)
  | some child, some next => do
    let child ← next.patch child
    return (some child, standIn)
  | some child, none => do
    let node ← mountStandIn parent child.firstNode
    let _ ← child.tearDown
    return (none, some node)
  | none, some next => do
    let child ← next.mount parent standIn
    standIn.forM discard
    return (some child, none)
  | none, none => return (none, standIn)

def patchChildren (parent : NodeId)
    : List (Option View) → List (Option NodeId) → List (Option Incoming) →
      Engine (List (Option View) × List (Option NodeId))
  | child :: children, standIn :: standIns, next :: incoming => do
    let (child, standIn) ← patchPlace parent standIn child next
    let (children, standIns) ← patchChildren parent children standIns incoming
    return (child :: children, standIn :: standIns)
  | children, standIns, _ => return (children, standIns)

mutual

def patchAs : View → Bool → View → Engine View
  | .block template data children mounted, sole, old => do
    match old with
    | .block oldTemplate oldData oldChildren oldMounted =>
      if oldTemplate.source ≠ template.source then
        throw .templateMismatch
      match oldMounted with
      | none => return .block template data children mounted
      | some anchorage =>
        let references := anchorage.references
        if oldData.identity ≠ data.identity then
          updateLocations template references data oldData
        let (children, _) ←
          template.wiring.slots.foldlM (patchSlot references) (oldChildren, incomingChildren children)
        return .block oldTemplate data children (some anchorage)
    | old => replace (.block template data children mounted) sole old
  | .text value node parent, sole, old => do
    match old with
    | .text oldValue oldNode oldParent =>
      if oldValue.same value then
        return .text oldValue oldNode oldParent
      oldNode.forM fun node => edit (·.setText node value.text)
      return .text value oldNode oldParent
    | old => replace (.text value node parent) sole old
  | .html markup content parent, sole, old => do
    match old with
    | .html oldMarkup oldContent oldParent =>
      if oldMarkup = markup then
        return .html oldMarkup oldContent oldParent
      match oldParent with
      | none => return .html markup oldContent none
      | some parent =>
        let nodes ← rawNodes markup
        insertAll parent nodes oldContent.head?
        oldContent.forM discard
        return .html markup nodes (some parent)
    | old => replace (.html markup content parent) sole old
  | .list items anchor parent itsSole, sole, old => do
    match old with
    | .list oldItems oldAnchor oldParent oldSole =>
      match oldParent, oldAnchor with
      | some parent, some anchor =>
        if oldItems.isEmpty && items.isEmpty then
          return .list oldItems (some anchor) (some parent) oldSole
        else if items.isEmpty && oldSole then
          beforeRemoveItems oldItems
          edit (·.remove anchor)
          clear parent (itemNodes oldItems)
          edit (·.append parent anchor)
          return .list [] (some anchor) (some parent) oldSole
        else
          let items ← reconcile parent anchor oldItems (incomingItems items)
          return .list items (some anchor) (some parent) oldSole
      | _, _ => return .list items oldAnchor oldParent oldSole
    | old => replace (.list items anchor parent itsSole) sole old
  | .multi children standIns parent itsSole, sole, old => do
    match old with
    | .multi oldChildren oldStandIns oldParent oldSole =>
      match oldParent with
      | none => return .multi children oldStandIns none oldSole
      | some parent =>
        if oldChildren.length ≠ children.length then
          throw .arityMismatch
        let (children, standIns) ←
          patchChildren parent oldChildren oldStandIns (incomingChildren children)
        return .multi children standIns (some parent) oldSole
    | old => replace (.multi children standIns parent itsSole) sole old
  | .toggler key child parent, sole, old => do
    match old with
    | .toggler oldKey oldChild oldParent =>
      if oldKey = key then
        let child ← patchAs child child.isSole oldChild
        return .toggler oldKey child oldParent
      match oldParent with
      | none => return .toggler key child parent
      | some parent =>
        let next ← child.mount parent oldChild.firstNode
        let _ ← oldChild.tearDown
        return .toggler key next (some parent)
    | old => replace (.toggler key child parent) sole old
  | .component name child node, sole, old => do
    match old with
    | .component oldName oldChild oldNode =>
      log [.component oldName (.patch true)]
      match oldChild, child with
      | some oldChild, some child =>
        let child ← patchAs child child.isSole oldChild
        return .component oldName (some child) oldNode
      | _, _ => return .component oldName child oldNode
    | .ghost =>
      log [.ghost (.patch false)]
      return .ghost
    | old => replace (.component name child node) sole old
  | .ghost, sole, old => do
    match old with
    | .ghost =>
      log [.ghost (.patch true)]
      return .ghost
    | .component _ _ _ => throw .componentMismatch
    | old => replace .ghost sole old

def incomingChildren : List (Option View) → List (Option Incoming)
  | [] => []
  | none :: rest => none :: incomingChildren rest
  | some child :: rest =>
    some ⟨child, fun sole old => patchAs child sole old⟩ :: incomingChildren rest

def incomingItems : List (Key × View) → List (Key × Incoming)
  | [] => []
  | (key, item) :: rest =>
    (key, ⟨item, fun sole old => patchAs item sole old⟩) :: incomingItems rest

end

def patch (old new : View) : Engine View :=
  patchAs new new.isSole old

end VirtualDom.View
