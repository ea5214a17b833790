import VirtualDom.Document.Tree
import VirtualDom.Markup.Basic

/-!
This module contains the HTML form and the plain text of document content.
-/

namespace VirtualDom

namespace Html

def escapeTextChar (c : Char) : List Char :=
  if c = '&' then "&amp;".toList
  else if c = '<' then "&lt;".toList
  else if c = '>' then "&gt;".toList
  else if c = '\u00a0' then "&nbsp;".toList
  else [c]

def escapeValueChar (c : Char) : List Char :=
  if c = '&' then "&amp;".toList
  else if c = '"' then "&quot;".toList
  else if c = '\u00a0' then "&nbsp;".toList
  else [c]

def attributeText (name value : String) : List Char :=
  ' ' :: name.toList ++ '=' :: '"' :: value.toList.flatMap escapeValueChar ++ ['"']

def startTag (e : Element) : List Char :=
  '<' :: e.tag.toList ++ e.attributes.flatMap (fun (name, value) => attributeText name value) ++ ['>']

def endTag (tag : String) : List Char :=
  '<' :: '/' :: tag.toList ++ ['>']

/--
The HTML form of a forest. A void element without children has no end tag, and only elements show
their children.
-/
def write : Forest Content → List Char
  | .nil => []
  | .cons (.text s) _ siblings => s.toList.flatMap escapeTextChar ++ write siblings
  | .cons (.comment s) _ siblings => "<!--".toList ++ s.toList ++ "-->".toList ++ write siblings
  | .cons (.element e) children siblings =>
    startTag e ++
      (if Markup.isVoid e.tag && children.isEmpty then []
       else write children ++ endTag e.tag) ++
      write siblings

def plainText : Forest Content → List Char
  | .nil => []
  | .cons (.text s) _ siblings => s.toList ++ plainText siblings
  | .cons (.comment _) _ siblings => plainText siblings
  | .cons (.element _) children siblings => plainText children ++ plainText siblings

end Html

namespace Document

variable (d : Document) (id : NodeId)

def outerHtml : Except Fault String :=
  return .ofList (Html.write ((← d.subtree id).map (·.2)))

def innerHtml : Except Fault String :=
  return .ofList (Html.write ((← d.below id).map (·.2)))

def textContent : Except Fault String := do
  match ← d.text? id with
  | some s => return s
  | none => return .ofList (Html.plainText ((← d.below id).map (·.2)))

end Document
end VirtualDom
