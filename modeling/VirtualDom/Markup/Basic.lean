import VirtualDom.Forest
import VirtualDom.Text.Blank

/-!
This module contains the nodes of markup, and the removal of its blank text.
-/

namespace VirtualDom

inductive Markup.Item where
  /-- An attribute without a value has an empty one; a name may occur more than once. -/
  | element (tag : String) (attributes : List (String × String))
  | text (s : String)
  | comment (s : String)
  | cdata (s : String)
  | doctype (s : String)
  | instruction (s : String)
deriving DecidableEq, Inhabited

abbrev Markup :=
  Forest Markup.Item

namespace Markup

def voidTags : List String :=
  ["area", "base", "br", "col", "embed", "hr", "img", "input", "link", "meta", "source", "track",
   "wbr"]

def isVoid (tag : String) : Bool :=
  voidTags.contains (tag.map Char.toLower)

namespace Item

def kind : Item → String
  | .element _ _ => "element"
  | .text _ => "text"
  | .comment _ => "comment"
  | .cdata _ => "CDATA"
  | .doctype _ => "doctype"
  | .instruction _ => "processing instruction"

def isBlankText : Item → Bool
  | .text s => Text.isBlank s
  | _ => false

def keepsBlank : Item → Bool
  | .element tag _ => tag.map Char.toLower == "pre"
  | _ => false

end Item

def dropBlankRoots (m : Markup) : Markup :=
  .ofRoots (m.roots.filter (!·.1.isBlankText))

/-- `m` without its blank texts, except below an element that keeps them. -/
def dropBlank : Markup → Markup
  | .nil => .nil
  | .cons item children siblings =>
    if item.isBlankText then dropBlank siblings
    else .cons item (if item.keepsBlank then children else dropBlank children) (dropBlank siblings)

end Markup
end VirtualDom
