/-!
This module contains the errors of markup that cannot be read: what was expected, and where.
-/

namespace VirtualDom.Markup

/-- What could have stood at the place where reading got stuck. -/
inductive Expected where
  | tagName
  | attribute
  | attributeName
  | node
deriving DecidableEq

def Expected.message : Expected → String
  | .tagName => "expected void_name or tag_name"
  | .attribute => "expected attribute"
  | .attributeName => "expected attr_name"
  | .node => "expected comment, cdata, doctype, pi, void_element, element, or text"

/-- A place in a text; lines and columns count from one, columns in characters. -/
structure Place where
  line : Nat
  column : Nat
deriving DecidableEq

def Place.after (before : List Char) : Place :=
  ⟨1 + before.count '\n', 1 + (before.reverse.takeWhile (· != '\n')).length⟩

structure SyntaxError where
  place : Place
  expected : Expected
deriving DecidableEq

def SyntaxError.message (e : SyntaxError) : String :=
  s!"malformed markup at {e.place.line}:{e.place.column}: " ++ e.expected.message

end VirtualDom.Markup
