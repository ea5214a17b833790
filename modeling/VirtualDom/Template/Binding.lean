/-!
This module contains the ways in which a data value reaches the node of its place.
-/

namespace VirtualDom.Template

inductive Binding where
  | text
  | property (name : String)
  | classes
  | attribute (name : String)
  /-- A pair of a name and a value, or a map of attributes. -/
  | bag
  | handler (event : String)
  | ref
deriving DecidableEq

namespace Binding

/-- Whether an attribute of an element with this tag is a property of the live element. -/
def isProperty (tag name : String) : Bool :=
  match tag with
  | "input" => ["checked", "indeterminate", "value", "readonly", "disabled"].contains name
  | "option" => ["selected", "disabled"].contains name
  | "textarea" => ["readonly", "disabled"].contains name
  | "button" | "select" | "optgroup" => name == "disabled"
  | _ => false

def ofAttribute (tag name : String) : Binding :=
  if isProperty tag name then .property name
  else if name = "class" then .classes
  else .attribute name

end Binding
end VirtualDom.Template
