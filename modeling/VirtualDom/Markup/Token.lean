import VirtualDom.Markup.Attribute
import VirtualDom.Markup.Basic

/-!
This module contains the tokens of markup and the cutting of a text into them. A tag is one token
with all its attributes; the end tag that may follow a void element belongs to it.
-/

namespace VirtualDom.Markup

open Text

inductive Token where
  | leaf (item : Item)
  | startTag (tag : String) (attributes : List (String × String))
  | endTag (tag : String)
deriving DecidableEq

namespace Token

def endTag? : List Char → Option (List Char × List Char)
  | '<' :: '/' :: cs =>
    match skipSpace (cs.dropWhile isNameChar) with
    | '>' :: rest => some (cs.takeWhile isNameChar, rest)
    | _ => none
  | _ => none

theorem length_of_endTag? {cs name rest : List Char} (h : endTag? cs = some (name, rest))
    : rest.length < cs.length := by
  unfold endTag? at h
  split at h
  . next inner =>
    split at h
    . next heq =>
      have h₁ := length_dropWhile_le isSpace (inner.dropWhile isNameChar)
      have h₂ := length_dropWhile_le isNameChar inner
      rw [skipSpace] at heq
      rw [heq] at h₁
      cases h
      simp at h₁ ⊢
      omega
    . cases h
  . cases h

/-- What follows the end tag of `name`, if it stands in front of `cs`. -/
def skipEndTag (name cs : List Char) : List Char :=
  match endTag? cs with
  | some (name', rest) => if name' = name then rest else cs
  | none => cs

theorem length_skipEndTag_le (name cs : List Char) : (skipEndTag name cs).length ≤ cs.length := by
  unfold skipEndTag
  split
  . next h =>
    split
    . exact Nat.le_of_lt (length_of_endTag? h)
    . exact Nat.le_refl _
  . exact Nat.le_refl _

def tag (cs : List Char) : Except Stuck (Token × List Char) :=
  if cs.head?.any isNameStart then
    let name := cs.takeWhile isNameChar
    match attributes (cs.dropWhile isNameChar) with
    | .error e => .error e
    | .ok (list, closed, rest) =>
      let element := Item.element (String.ofList name) list
      if closed then
        .ok (.leaf element, rest)
      else if isVoid (String.ofList name) then
        .ok (.leaf element, skipEndTag name rest)
      else
        .ok (.startTag (String.ofList name) list, rest)
  else
    .error ⟨.tagName, cs⟩

theorem length_of_tag {cs rest : List Char} {token : Token} (h : tag cs = .ok (token, rest))
    : rest.length < cs.length := by
  have hle := length_dropWhile_le isNameChar cs
  simp only [tag] at h
  split at h
  . split at h
    . cases h
    . next list closed after hat =>
      have := length_of_attributes hat
      have := length_skipEndTag_le (cs.takeWhile isNameChar) after
      split at h
      . cases h; omega
      . split at h
        . cases h; omega
        . cases h; omega
  . cases h

/-- The body of the document type in front of `cs`; its keyword may have any case. -/
def doctype? : List Char → Option (List Char × List Char)
  | '<' :: '!' :: cs =>
    if (cs.take 7).map Char.toLower = ['d', 'o', 'c', 't', 'y', 'p', 'e'] then
      splitAt? ['>'] (cs.drop 7)
    else
      none
  | _ => none

theorem length_of_doctype? {cs body rest : List Char} (h : doctype? cs = some (body, rest))
    : rest.length < cs.length := by
  unfold doctype? at h
  split at h
  . next inner =>
    split at h
    . have := congrArg List.length (append_of_splitAt? h)
      simp at this ⊢
      omega
    . cases h
  . cases h

def special? (cs : List Char) : Option (Item × List Char) :=
  match enclosed? ['<', '!', '-', '-'] ['-', '-', '>'] cs with
  | some (body, rest) => some (.comment (String.ofList body), rest)
  | none =>
    match enclosed? ['<', '!', '[', 'C', 'D', 'A', 'T', 'A', '['] [']', ']', '>'] cs with
    | some (body, rest) => some (.cdata (String.ofList body), rest)
    | none =>
      match doctype? cs with
      | some (body, rest) => some (.doctype (Text.trim (String.ofList body)), rest)
      | none =>
        match enclosed? ['<', '?'] ['?', '>'] cs with
        | some (body, rest) => some (.instruction (String.ofList body), rest)
        | none => none

theorem length_of_special? {cs rest : List Char} {item : Item} (h : special? cs = some (item, rest))
    : rest.length < cs.length := by
  unfold special? at h
  split at h
  . next he =>
    cases h
    rw [← append_of_enclosed? he]
    simp
    omega
  . split at h
    . next he =>
      cases h
      rw [← append_of_enclosed? he]
      simp
      omega
    . split at h
      . next hd =>
        cases h
        exact length_of_doctype? hd
      . split at h
        . next he =>
          cases h
          rw [← append_of_enclosed? he]
          simp
          omega
        . cases h

def read : List Char → Except Stuck (Token × List Char)
  | '<' :: cs =>
    match special? ('<' :: cs) with
    | some (item, rest) => .ok (.leaf item, rest)
    | none =>
      match endTag? ('<' :: cs) with
      | some (name, rest) => .ok (.endTag (String.ofList name), rest)
      | none => tag cs
  | cs =>
    let text := String.ofList (cs.takeWhile (· != '<'))
    .ok (.leaf (.text (Reference.decode text)), cs.dropWhile (· != '<'))

theorem length_of_read {cs rest : List Char} {token : Token} (hcs : cs ≠ [])
    (h : read cs = .ok (token, rest)) : rest.length < cs.length := by
  unfold read at h
  split at h
  . split at h
    . next hs =>
      cases h
      exact length_of_special? hs
    . split at h
      . next he =>
        cases h
        exact length_of_endTag? he
      . exact Nat.lt_succ_of_lt (length_of_tag h)
  . next hne =>
    cases h
    cases cs with
    | nil => exact absurd rfl hcs
    | cons c cs =>
      have hc : (c != '<') = true := by
        rw [bne_iff_ne]
        rintro rfl
        exact hne cs rfl
      rw [List.dropWhile_cons, if_pos hc]
      exact Nat.lt_succ_of_le (length_dropWhile_le _ cs)

end Token

inductive Tokens where
  | finished
  | stuck (why : Stuck)
  /-- `start` is the text from the token on. -/
  | next (start : List Char) (token : Token) (rest : Tokens)

def Tokens.ofChars : List Char → Tokens
  | [] => .finished
  | c :: cs =>
    match h : Token.read (c :: cs) with
    | .ok (token, rest) =>
      have := Token.length_of_read (List.cons_ne_nil c cs) h
      .next (c :: cs) token (ofChars rest)
    | .error why => .stuck why
termination_by cs => cs.length
decreasing_by exact this

end VirtualDom.Markup
