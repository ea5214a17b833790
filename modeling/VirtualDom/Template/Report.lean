import VirtualDom.Template.Basic
import VirtualDom.Text.Quoted

/-!
This module contains the report on a template: its static markup, its size, and its whole wiring in
an indented outline.
-/

namespace VirtualDom.Template.Report

abbrev Lines :=
  List String

def atom (s : String) : Lines :=
  [s]

def number (n : Nat) : Lines :=
  [toString n]

def withComma : Lines → Lines
  | [] => []
  | [last] => [last ++ ","]
  | line :: rest => line :: withComma rest

/-- Parts between brackets, each indented and on lines of its own. -/
def group (opening closing : String) (parts : List Lines) : Lines :=
  if parts.isEmpty then
    [opening ++ closing]
  else
    opening :: parts.flatMap (fun part => (withComma part).map ("    " ++ ·)) ++ [closing]

def list (parts : List Lines) : Lines :=
  group "[" "]" parts

def record (name : String) (fields : List (String × Lines)) : Lines :=
  group (name ++ " \x7b") "\x7d" (fields.map field)
where
  field : String × Lines → Lines
    | (name, []) => [name ++ ": "]
    | (name, line :: rest) => (name ++ ": " ++ line) :: rest

def application (name : String) (part : Lines) : Lines :=
  group (name ++ "(") ")" [part]

def binding : Binding → Lines
  | .text => atom "Text"
  | .property name => application "Prop" (atom (Text.quote name))
  | .classes => atom "Class"
  | .attribute name => application "Attr" (atom (Text.quote name))
  | .bag => atom "Attrs"
  | .handler event => application "Handler" (atom (Text.quote event))
  | .ref => atom "Ref"

def direction : Direction → Lines
  | .firstChild => atom "FirstChild"
  | .nextSibling => atom "NextSibling"

def step (s : Step) : Lines :=
  record "Collector"
    [("target", number s.target), ("source", number s.source),
     ("traversal", direction s.direction)]

def location (l : Location) : Lines :=
  record "Location"
    [("data_index", number l.dataIndex), ("ref_index", number l.reference),
     ("binding", binding l.binding)]

def slot (s : ChildSlot) : Lines :=
  record "Slot"
    [("index", number s.index), ("parent_ref", number s.parent),
     ("anchor_ref", match s.anchor with
      | some reference => application "Some" (number reference)
      | none => atom "None"),
     ("is_only_child", atom (if s.sole then "true" else "false"))]

def wiring (w : Wiring) : Lines :=
  record "BlockContext"
    [("ref_count", number w.references), ("collectors", list (w.steps.map step)),
     ("locations", list (w.locations.map location)), ("slots", list (w.slots.map slot)),
     ("ref_callbacks", list (w.callbacks.map number))]

end Report

def report (t : Template) : Except Fault String := do
  let capacity ← t.wiring.childCapacity
  let lines :=
    ["template: " ++ t.html, "refs: " ++ toString t.wiring.references,
     "child slots: " ++ toString capacity] ++ Report.wiring t.wiring
  return String.join (lines.map (· ++ "\n"))

end VirtualDom.Template
