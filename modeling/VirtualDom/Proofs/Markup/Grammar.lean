import VirtualDom.Markup.Parse

/-!
This module contains the grammar of markup: its derivations, which keep every character of the text
that they derive, and the markup that each of them stands for.
-/

namespace VirtualDom.Markup.Grammar

abbrev Run (p : Char → Bool) :=
  { cs : List Char // ∀ c ∈ cs, p c }

def IsTagName (cs : List Char) : Prop :=
  cs.head?.any isNameStart ∧ ∀ c ∈ cs, isNameChar c

def IsAttributeName (cs : List Char) : Prop :=
  cs ≠ [] ∧ ∀ c ∈ cs, isAttributeChar c

structure Quotation where
  before : Run isSpace
  after : Run isSpace
  mark : Char
  body : List Char
  isMark : mark = '"' ∨ mark = '\''
  not_mem : mark ∉ body

def Quotation.text (q : Quotation) : List Char :=
  q.before ++ '=' :: (q.after ++ q.mark :: (q.body ++ [q.mark]))

structure Attribute where
  space : Run isSpace
  name : List Char
  value : Option Quotation
  space_ne_nil : space.1 ≠ []
  isName : IsAttributeName name

namespace Attribute

variable (a : Attribute)

def valueText : List Char :=
  a.value.elim [] Quotation.text

def text : List Char :=
  a.space ++ (a.name ++ a.valueText)

def pair : String × String :=
  (.ofList a.name, a.value.elim "" fun q => Reference.decode (.ofList q.body))

end Attribute

def closing (closed : Bool) : List Char :=
  if closed then ['/', '>'] else ['>']

/-- What follows the name of a tag up to its end, which closes the element too or not. -/
def tail (attributes : List Attribute) (space : Run isSpace) (closed : Bool) : List Char :=
  attributes.flatMap Attribute.text ++ (space ++ closing closed)

structure Tag where
  name : List Char
  attributes : List Attribute
  space : Run isSpace
  isName : IsTagName name

namespace Tag

variable (tag : Tag)

def text (closed : Bool) : List Char :=
  '<' :: (tag.name ++ tail tag.attributes tag.space closed)

def pairs : List (String × String) :=
  tag.attributes.map Attribute.pair

def item : Item :=
  .element (.ofList tag.name) tag.pairs

def isVoid : Bool :=
  Markup.isVoid (.ofList tag.name)

end Tag

def endTag (name : List Char) (space : Run isSpace) : List Char :=
  '<' :: '/' :: (name ++ (space ++ ['>']))

inductive Kind where
  | comment
  | cdata
  | doctype (keyword : List Char)
      (isKeyword : keyword.map Char.toLower = ['d', 'o', 'c', 't', 'y', 'p', 'e'])
  | instruction

namespace Kind

def start : Kind → List Char
  | .comment => ['<', '!', '-', '-']
  | .cdata => ['<', '!', '[', 'C', 'D', 'A', 'T', 'A', '[']
  | .doctype keyword _ => '<' :: '!' :: keyword
  | .instruction => ['<', '?']

def stop : Kind → List Char
  | .comment => ['-', '-', '>']
  | .cdata => [']', ']', '>']
  | .doctype _ _ => ['>']
  | .instruction => ['?', '>']

def item (body : List Char) : Kind → Item
  | .comment => .comment (.ofList body)
  | .cdata => .cdata (.ofList body)
  | .doctype _ _ => .doctype (Text.trim (.ofList body))
  | .instruction => .instruction (.ofList body)

end Kind

/-- A node without content. A void element may have an end tag, right behind its start tag. -/
inductive Leaf where
  | special (kind : Kind) (body : List Char) (first : ¬ kind.stop <:+: body)
  | closed (tag : Tag)
  | void (tag : Tag) (isVoid : tag.isVoid) (close : Option (Run isSpace))

namespace Leaf

def text : Leaf → List Char
  | .special kind body _ => kind.start ++ (body ++ kind.stop)
  | .closed tag => tag.text true
  | .void tag _ close => tag.text false ++ close.elim [] (endTag tag.name)

def item : Leaf → Item
  | .special kind body _ => kind.item body
  | .closed tag | .void tag _ _ => tag.item

end Leaf

/--
A row of nodes. What is in front of a node or at the end has no tag in it, and is a text unless it is
empty.
-/
inductive Derivation where
  | nil (lead : Run (· != '<'))
  | leaf (lead : Run (· != '<')) (l : Leaf) (rest : Derivation)
  | element (lead : Run (· != '<')) (tag : Tag) (not_void : tag.isVoid = false)
      (children : Derivation) (close : Run isSpace) (rest : Derivation)

def withText (lead : List Char) (m : Markup) : Markup :=
  if lead = [] then m else .cons (.text (Reference.decode (.ofList lead))) .nil m

namespace Derivation

def text : Derivation → List Char
  | .nil lead => lead
  | .leaf lead l rest => lead ++ (l.text ++ rest.text)
  | .element lead tag _ children close rest =>
    lead ++ (tag.text false ++ (children.text ++ (endTag tag.name close ++ rest.text)))

def markup : Derivation → Markup
  | .nil lead => withText lead .nil
  | .leaf lead l rest => withText lead (.cons l.item .nil rest.markup)
  | .element lead tag _ children _ rest => withText lead (.cons tag.item children.markup rest.markup)

end Derivation

end VirtualDom.Markup.Grammar
