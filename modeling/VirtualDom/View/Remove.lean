import VirtualDom.View.Basic

/-!
This module contains the ways in which a mounted view moves and goes. Before anything of a view is
taken away, all components in it are told.
-/

namespace VirtualDom.View

open Engine

mutual

def moveBefore (target : Option NodeId) : View → Engine Unit
  | .block _ _ _ mounted => do
    if let some anchorage := mounted then
      if let some parent := ← read (·.parent anchorage.root) then
        insert parent anchorage.root target
  | .text _ node parent => do
    if let (some node, some parent) := (node, parent) then
      insert parent node target
  | .html _ content parent => do
    if let some parent := parent then
      content.forM fun node => insert parent node target
  | .list items anchor parent _ => do
    if let (some anchor, some parent) := (anchor, parent) then
      moveItems target items
      insert parent anchor target
  | .multi children standIns parent _ => do
    if let some parent := parent then
      moveChildren target parent children standIns
  | .toggler _ child _ => moveBefore target child
  | .component _ _ node => do
    if let some node := node then
      match ← read (·.parent node) with
      | some parent => insert parent node target
      | none => throw .detachedComponent
  | .ghost => log [.ghost (.move target)]

def moveItems (target : Option NodeId) : List (Key × View) → Engine Unit
  | [] => return ()
  | (_, item) :: rest => do
    moveBefore target item
    moveItems target rest

def moveChildren (target : Option NodeId) (parent : NodeId)
    : List (Option View) → List (Option NodeId) → Engine Unit
  | some child :: rest, _ :: standIns => do
    moveBefore target child
    moveChildren target parent rest standIns
  | none :: rest, standIn :: standIns => do
    if let some node := standIn then
      insert parent node target
    moveChildren target parent rest standIns
  | _, _ => return ()

end

mutual

/-- Tells all components of a view that it is about to go, outer ones first. -/
def beforeRemove : View → Engine Unit
  | .block _ _ children _ | .multi children _ _ _ => beforeRemoveChildren children
  | .list items _ _ _ => beforeRemoveItems items
  | .toggler _ child _ => beforeRemove child
  | .component name child node => do
    log [.component name (.beforeRemove node (← get).document)]
    match child with
    | some child => beforeRemove child
    | none => return ()
  | .text _ _ _ | .html _ _ _ | .ghost => return ()

def beforeRemoveItems : List (Key × View) → Engine Unit
  | [] => return ()
  | (_, item) :: rest => do
    beforeRemove item
    beforeRemoveItems rest

def beforeRemoveChildren : List (Option View) → Engine Unit
  | [] => return ()
  | none :: rest => beforeRemoveChildren rest
  | some child :: rest => do
    beforeRemove child
    beforeRemoveChildren rest

end

def releaseCallbacks (template : Template) (data : Data) : Engine Unit :=
  template.wiring.callbacks.forM fun index => do
    if let .ref _ label := data.at index then
      log [.refCall label none]

mutual

/--
Frees the nodes of a view. What is below a block, or all of a sole list or multi, goes as a whole
without the views that it belongs to.
-/
def remove : View → Engine View
  | .block template data children mounted => do
    if let some anchorage := mounted then
      discard anchorage.root
      releaseCallbacks template data
    return .block template data children none
  | .text value node parent => do
    node.forM discard
    return .text value none parent
  | .html markup content parent => do
    content.forM discard
    return .html markup [] parent
  | .list items anchor parent sole => do
    match anchor, parent with
    | some anchor, some parent =>
      if sole then
        clear parent (itemNodes items ++ [anchor])
        return .list items none (some parent) sole
      else
        let items ← removeItems items
        discard anchor
        return .list items none (some parent) sole
    | _, _ => return .list items none parent sole
  | .multi children standIns parent sole => do
    match parent with
    | some parent =>
      if sole then
        clear parent (childNodes children standIns)
        return .multi children standIns none sole
      else
        let children ← removeChildren children standIns
        return .multi children [] none sole
    | none => return .multi children standIns none sole
  | .toggler key child parent => do
    return .toggler key (← remove child) parent
  | .component name child node => do
    log [.component name (.remove node)]
    node.forM discard
    return .component name child none
  | .ghost => do
    log [.ghost (.remove none)]
    return .ghost

def removeItems : List (Key × View) → Engine (List (Key × View))
  | [] => return []
  | (key, item) :: rest => do
    let item ← remove item
    return (key, item) :: (← removeItems rest)

/-- Frees the children of a multi, or the nodes in place of absent ones. -/
def removeChildren : List (Option View) → List (Option NodeId) → Engine (List (Option View))
  | some child :: rest, _ :: standIns => do
    let child ← remove child
    return some child :: (← removeChildren rest standIns)
  | none :: rest, standIn :: standIns => do
    standIn.forM discard
    return none :: (← removeChildren rest standIns)
  | children, _ => return children

end

def tearDown (view : View) : Engine View := do
  view.beforeRemove
  view.remove

end VirtualDom.View
