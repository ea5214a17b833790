import VirtualDom.Dict
import VirtualDom.Number.Format
import VirtualDom.Text.Blank

/-!
This module contains the dynamic values that a view shows and compares. A composite value carries
the identity of its allocation, by which it is compared between renders.
-/

namespace VirtualDom

inductive Value where
  | null
  | bool (b : Bool)
  | number (n : Number)
  | str (s : String)
  | list (identity : Nat) (items : List Value)
  | map (identity : Nat) (entries : List (String × Value))
  | handler (identity : Nat) (label : String)
  | ref (identity : Nat) (label : String)
  | display (identity : Nat) (text : String)
deriving Inhabited

namespace Value

mutual

def text : Value → String
  | .null => ""
  | .bool b => if b then "true" else "false"
  | .number n => n.format .page
  | .str s => s
  | .list _ items => ",".intercalate (texts items)
  | .map _ _ => "[object Object]"
  | .handler _ _ | .ref _ _ => ""
  | .display _ text => text

def texts : List Value → List String
  | [] => []
  | item :: rest => item.text :: texts rest

end

def isNull : Value → Bool
  | .null => true
  | _ => false

def isTruthy : Value → Bool
  | .null => false
  | .bool b => b
  | .number n => !n.isZero && !n.isNaN
  | .str s => !s.isEmpty
  | _ => true

def str? : Value → Option String
  | .str s => some s
  | _ => none

/-- Scalars and texts are the same when they are equal, other values when they are one allocation. -/
def same : Value → Value → Bool
  | .null, .null => true
  | .bool a, .bool b => a == b
  | .number a, .number b => a.same b
  | .str a, .str b => a == b
  | .list a _, .list b _ => a == b
  | .map a _, .map b _ => a == b
  | .handler a _, .handler b _ => a == b
  | .ref a _, .ref b _ => a == b
  | .display a _, .display b _ => a == b
  | _, _ => false

/-- The class tokens that a value stands for, each once, in order. -/
def classTokens (v : Value) : List String :=
  let tokens : List String := match v with
    | .null => []
    | .map _ entries => entries.flatMap fun (key, on) => if on.isTruthy then Text.words key else []
    | v => Text.words v.text
  tokens.eraseDups

end Value
end VirtualDom
