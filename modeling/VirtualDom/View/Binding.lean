import VirtualDom.Host
import VirtualDom.Template.Binding

/-!
This module contains the writes by which bound values reach their nodes: all of a value when its node
is new, and the difference to the value before it later on.
-/

namespace VirtualDom.Template.Binding

open Engine

/-- `false` takes the attribute away and `true` gives it an empty value. -/
def writeAttribute (node : NodeId) (name : String) : Value → Engine Unit
  | .bool false => edit (·.removeAttribute node name)
  | .bool true => edit (·.setAttribute node name "")
  | v => edit (·.setAttribute node name v.text)

/-- The name and the value that start the items of a list, if the name is a text. -/
def pair? : List Value → Option (String × Value)
  | .str name :: value :: _ => some (name, value)
  | _ => none

def writeAttributes (node : NodeId) (attributes : List (String × Value)) : Engine Unit :=
  attributes.forM fun (name, value) => writeAttribute node name value

def removeAttributes (node : NodeId) (names : List String) : Engine Unit :=
  names.forM fun name => edit (·.removeAttribute node name)

def bagEntries : Value → List (String × Value)
  | .list _ items => (pair? items).toList
  | .map _ entries => entries
  | _ => []

def setBag (node : NodeId) (bag : Value) : Engine Unit := do
  match bag with
  | .list _ _ | .map _ _ | .null => writeAttributes node (bagEntries bag)
  | bag => warn (.oddBag bag)

def isKept (old : List (String × Value)) : String × Value → Bool
  | (name, value) => ((Dict.get? old name).map (·.same value)).getD false

def updateBag (node : NodeId) (bag old : Value) : Engine Unit := do
  match bag, old with
  | .list _ items, .list _ oldItems =>
    match pair? items, pair? oldItems with
    | some (name, value), some (oldName, oldValue) =>
      if name ≠ oldName then
        edit (·.removeAttribute node oldName)
        writeAttribute node name value
      else if !value.same oldValue then
        writeAttribute node name value
    | _, _ => setBag node bag
  | .map _ entries, .map _ oldEntries =>
    removeAttributes node ((Dict.keys oldEntries).filter fun name => !(Dict.keys entries).contains name)
    writeAttributes node (entries.filter fun entry => !isKept oldEntries entry)
  | bag, old =>
    removeAttributes node ((bagEntries old).map (·.1))
    setBag node bag

def addClasses (node : NodeId) (tokens : List String) : Engine Unit :=
  tokens.forM fun token => edit (·.addClass node token)

def removeClasses (node : NodeId) (tokens : List String) : Engine Unit :=
  tokens.forM fun token => edit (·.removeClass node token)

def updateClasses (node : NodeId) (value old : Value) : Engine Unit := do
  removeClasses node (old.classTokens.filter fun token => !value.classTokens.contains token)
  addClasses node (value.classTokens.filter fun token => !old.classTokens.contains token)

/-- Writes `value` to a node that no value was bound to before. -/
def set (node : NodeId) (value : Value) : Binding → Engine Unit
  | .text => edit (·.setText node value.text)
  | .property name => edit (·.setProperty node name value)
  | .classes => addClasses node value.classTokens
  | .attribute name => writeAttribute node name value
  | .bag => setBag node value
  | .handler event => edit (·.setHandler node event value)
  | .ref => do
    if let .ref _ label := value then
      log [.refCall label (some node)]

/-- Writes `value` to a node that `old` was bound to; callbacks are not told again. -/
def update (node : NodeId) (value old : Value) : Binding → Engine Unit
  | .classes => updateClasses node value old
  | .bag => updateBag node value old
  | .ref => return ()
  | binding => binding.set node value

end VirtualDom.Template.Binding
