import VirtualDom.Text.Quoted

/-!
This module contains the keys that identify list items and toggled branches across renders.
-/

namespace VirtualDom

inductive Key where
  | int (n : Int)
  | str (s : String)
deriving DecidableEq, Inhabited

/-- A text key is quoted, so that it never looks like a number. -/
def Key.text : Key → String
  | .int n => toString n
  | .str s => Text.quote s

end VirtualDom
