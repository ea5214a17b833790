import VirtualDom.Number.Numeral
import VirtualDom.Template.Error
import VirtualDom.Text.Blank
import VirtualDom.Text.Cut

/-!
This module contains the tags and attributes that mark the dynamic places of a template. Each names
the index of the data or of the child that belongs there.
-/

namespace VirtualDom.Template

inductive TagMarker where
  | text (index : Nat)
  | child (index : Nat)
deriving DecidableEq

inductive AttributeMarker where
  | handler (index : Nat) (event : String)
  | attribute (index : Nat) (name : String)
  /-- A bag of attributes, whose names are data too. -/
  | bag (index : Nat)
  | ref (index : Nat)
deriving DecidableEq

def after? (start s : String) : Option String :=
  (Text.dropFront? start.toList s.toList).map String.ofList

/-- Indices are below 2⁶⁴. -/
def indexLimit : Nat :=
  18446744073709551616

/-- An index is written in ASCII digits. -/
def index (digits marker : String) : Except Error Nat :=
  let cs := digits.toList
  if cs.isEmpty || !cs.all Char.isDigit || indexLimit ≤ Number.ofDigits cs then
    .error (.badIndex marker)
  else
    .ok (Number.ofDigits cs)

/-- The marker that an element with this tag is; most are none. -/
def tagMarker? (tag : String) : Except Error (Option TagMarker) :=
  match after? "block-text-" tag with
  | some digits => (index digits tag).map (some ∘ .text)
  | none =>
    match after? "block-child-" tag with
    | some digits => (index digits tag).map (some ∘ .child)
    | none => .ok none

def attributeMarker? (name value : String) : Except Error (Option AttributeMarker) :=
  match after? "block-handler-" name with
  | some digits => (index digits name).map (some <| .handler · value)
  | none =>
    match after? "block-attribute-" name with
    | some digits => (index digits name).map (some <| .attribute · value)
    | none =>
      if name = "block-attributes" then (index (Text.trim value) name).map (some ∘ .bag)
      else if name = "block-ref" then (index (Text.trim value) name).map (some ∘ .ref)
      else .ok none

end VirtualDom.Template
