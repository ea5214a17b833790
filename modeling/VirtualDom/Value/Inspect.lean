import VirtualDom.Value.Basic
import VirtualDom.Text.Quoted

/-!
This module contains the debugging form of values, which shows their structure. All callbacks look
alike in it.
-/

namespace VirtualDom.Value

mutual

def inspect : Value → String
  | .null => "Null"
  | .bool b => "Bool(" ++ (if b then "true" else "false") ++ ")"
  | .number n => "Number(" ++ n.format .debugging ++ ")"
  | .str s => "Str(" ++ Text.quote s ++ ")"
  | .list _ items => "[" ++ ", ".intercalate (inspectItems items) ++ "]"
  | .map _ entries => "\x7b" ++ ", ".intercalate (inspectEntries entries) ++ "\x7d"
  | .handler _ _ => "Handler(ptr)"
  | .ref _ _ => "Ref(ptr)"
  | .display _ text => "Display(" ++ text ++ ")"

def inspectItems : List Value → List String
  | [] => []
  | item :: rest => item.inspect :: inspectItems rest

def inspectEntries : List (String × Value) → List String
  | [] => []
  | (key, value) :: rest => (Text.quote key ++ ": " ++ value.inspect) :: inspectEntries rest

end

end VirtualDom.Value
