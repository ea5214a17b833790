import VirtualDom.Value.Basic
import VirtualDom.Number.Numeral

/-!
This module contains the values that plain words denote.
-/

namespace VirtualDom.Value

/-- `null`, the two truth values and finite numbers; any other word is itself. -/
def ofWord (word : String) : Value :=
  match word with
  | "null" => .null
  | "true" => .bool true
  | "false" => .bool false
  | word => match Number.read? word with
    | some n => .number n
    | none => .str word

end VirtualDom.Value
