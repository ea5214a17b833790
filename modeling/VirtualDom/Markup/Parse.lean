import VirtualDom.Markup.Token

/-!
This module contains the reading of markup: every element that is not void is closed by an end tag
spelled like its start tag, and nothing else is closed.
-/

namespace VirtualDom.Markup

/-- An element whose end tag has not come yet, with the nodes before it, the nearest first. -/
structure Frame where
  tag : String
  attributes : List (String × String)
  before : List (Item × Markup)

/-- The forest of the given roots, which come in reverse order. -/
def ofReversed (rs : List (Item × Markup)) : Markup :=
  .ofRoots rs.reverse

/-- The markup of `tokens` inside the elements of `stack`, the innermost first. -/
def ofTokens (stack : List Frame) (before : List (Item × Markup)) : Tokens → Except Stuck Markup
  | .finished =>
    if stack.isEmpty then .ok (ofReversed before) else .error ⟨.node, []⟩
  | .stuck why => .error why
  | .next start token rest =>
    match token with
    | .leaf item => ofTokens stack ((item, .nil) :: before) rest
    | .startTag tag attributes => ofTokens (⟨tag, attributes, before⟩ :: stack) [] rest
    | .endTag tag =>
      match stack with
      | [] => .error ⟨.tagName, start.drop 1⟩
      | frame :: outer =>
        if frame.tag = tag then
          ofTokens outer ((.element tag frame.attributes, ofReversed before) :: frame.before) rest
        else
          .error ⟨.tagName, start.drop 1⟩

def parse (s : String) : Except SyntaxError Markup :=
  match ofTokens [] [] (.ofChars s.toList) with
  | .ok m => .ok m
  | .error why =>
    let read := s.toList.take (s.toList.length - why.rest.length)
    .error ⟨.after read, why.expected⟩

end VirtualDom.Markup
