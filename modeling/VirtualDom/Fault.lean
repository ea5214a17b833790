import VirtualDom.Document.NodeId

/-!
This module contains what ends a run at once: uses of the library that break its rules.
-/

namespace VirtualDom

inductive Fault where
  | deadNode (id : NodeId)
  /-- A node was to be put before one that is not a child of the same parent. -/
  | strayReference (reference parent : NodeId)
  | templateMismatch
  | arityMismatch
  /-- A child index has no successor. -/
  | indexOverflow
  | tooManyChildren
  /-- The steps of a wiring left its template. -/
  | strayStep
  | componentMismatch
  /-- A component whose element is in no parent was moved. -/
  | detachedComponent
deriving DecidableEq

def Fault.message : Fault → String
  | .deadNode id => s!"{id.text} is not a live node"
  | .strayReference reference parent =>
    "assertion `left == right` failed: reference node " ++ reference.text ++ " is not a child of "
      ++ parent.text
  | .templateMismatch => "patching a block with a block of another template"
  | .arityMismatch => "assertion `left == right` failed: multi arity changed"
  | .indexOverflow => "attempt to add with overflow"
  | .tooManyChildren => "capacity overflow"
  | .strayStep => "collector steps follow the template shape"
  | .componentMismatch => "recorder patched with a recorder"
  | .detachedComponent => "mounted"

theorem bind_eq_ok {ε : Type u} {α β : Type v} {x : Except ε α} {f : α → Except ε β} {b : β}
    : x >>= f = .ok b ↔ ∃ a, x = .ok a ∧ f a = .ok b := by
  cases x with
  | error e => simp [bind, Except.bind]
  | ok a => simp [bind, Except.bind]

end VirtualDom
