import VirtualDom.Markup.Error

/-!
This module contains the ways in which a text fails to be a template.
-/

namespace VirtualDom.Template

inductive Error where
  | malformed (e : Markup.SyntaxError)
  /-- A marker whose index is no number, or too large. -/
  | badIndex (marker : String)
  | rootCount (n : Nat)
  | unsupportedNode (kind : String)
  | markerAtRoot (tag : String)
  | markerWithContent (tag : String)
deriving DecidableEq

def Error.message : Error → String
  | .malformed e => e.message
  | .badIndex marker => "invalid data index in marker `" ++ marker ++ "`"
  | .rootCount n => s!"a template needs exactly one root node, found {n}"
  | .unsupportedNode kind => "unsupported " ++ kind ++ " node in template"
  | .markerAtRoot tag => "`" ++ tag ++ "` cannot be the template root"
  | .markerWithContent tag =>
    "marker element `" ++ tag ++ "` cannot have attributes or children"

end VirtualDom.Template
