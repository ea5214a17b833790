import VirtualDom.Markup.Error
import VirtualDom.Markup.Lexeme
import VirtualDom.Markup.Reference
import VirtualDom.Text.Cut

/-!
This module contains the reading of the attributes of a tag, up to the end of the tag. Each attribute
follows some space and has a quoted value or none.
-/

namespace VirtualDom.Markup

open Text

structure Stuck where
  expected : Expected
  rest : List Char

def value? (cs : List Char) : Option (List Char × List Char) :=
  match skipSpace cs with
  | '=' :: rest =>
    match skipSpace rest with
    | '"' :: rest => splitAt? ['"'] rest
    | '\'' :: rest => splitAt? ['\''] rest
    | _ => none
  | _ => none

theorem length_of_value? {cs value rest : List Char} (h : value? cs = some (value, rest))
    : rest.length < cs.length := by
  unfold value? at h
  split at h
  . next after heq =>
    have h₁ := length_dropWhile_le isSpace cs
    have h₂ := length_dropWhile_le isSpace after
    rw [skipSpace] at heq
    rw [heq] at h₁
    split at h
    . next heq₂ =>
      rw [skipSpace] at heq₂
      rw [heq₂, ← append_of_splitAt? h] at h₂
      simp at h₁ h₂
      omega
    . next heq₂ =>
      rw [skipSpace] at heq₂
      rw [heq₂, ← append_of_splitAt? h] at h₂
      simp at h₁ h₂
      omega
    . cases h
  . cases h

/-- The attribute in front of `cs`. Where no value follows its name, it ends with the name. -/
def attribute? (cs : List Char) : Option ((String × String) × List Char) :=
  let name := cs.takeWhile isAttributeChar
  let after := cs.dropWhile isAttributeChar
  if name.isEmpty then
    none
  else
    match value? after with
    | some (value, rest) => some ((String.ofList name, Reference.decode (String.ofList value)), rest)
    | none => some ((String.ofList name, ""), after)

theorem length_of_attribute? {cs rest : List Char} {pair : String × String}
    (h : attribute? cs = some (pair, rest)) : rest.length < cs.length := by
  have happ := congrArg List.length (List.takeWhile_append_dropWhile (p := isAttributeChar) (l := cs))
  simp only [List.length_append] at happ
  simp only [attribute?] at h
  split at h
  . cases h
  . next hname =>
    have : 0 < (cs.takeWhile isAttributeChar).length := by
      cases hn : cs.takeWhile isAttributeChar with
      | nil => simp [hn] at hname
      | cons => simp
    split at h
    . next hv =>
      have := length_of_value? hv
      cases h
      omega
    . cases h
      omega

/-- What closes a tag in front of `cs`: whether it closes the element too, and what follows. -/
def tagEnd? : List Char → Option (Bool × List Char)
  | '/' :: '>' :: rest => some (true, rest)
  | '>' :: rest => some (false, rest)
  | _ => none

theorem length_of_tagEnd? {cs rest : List Char} {closed : Bool}
    (h : tagEnd? cs = some (closed, rest)) : rest.length < cs.length := by
  unfold tagEnd? at h
  split at h <;> cases h <;> simp only [List.length_cons] <;> omega

/--
What follows the name in a tag: the attributes, each after some space, whether the tag closes its
element, and what comes after the tag.
-/
def attributes (cs : List Char)
    : Except Stuck (List (String × String) × Bool × List Char) :=
  match tagEnd? (skipSpace cs) with
  | some (closed, rest) => .ok ([], closed, rest)
  | none =>
    if cs.head?.all (!isSpace ·) then
      .error ⟨.attribute, cs⟩
    else
      match h : attribute? (skipSpace cs) with
      | none => .error ⟨.attributeName, skipSpace cs⟩
      | some (pair, rest) =>
        have : rest.length < cs.length :=
          Nat.lt_of_lt_of_le (length_of_attribute? h) (length_dropWhile_le isSpace cs)
        match attributes rest with
        | .ok (more, closed, after) => .ok (pair :: more, closed, after)
        | .error e => .error e
termination_by cs.length

theorem length_of_attributes {cs rest : List Char} {list : List (String × String)} {closed : Bool}
    (h : attributes cs = .ok (list, closed, rest)) : rest.length < cs.length := by
  fun_induction attributes cs generalizing list with
  | case1 cs closed' rest' he =>
    cases h
    exact Nat.lt_of_lt_of_le (length_of_tagEnd? he) (length_dropWhile_le isSpace cs)
  | case2 => cases h
  | case3 => cases h
  | case4 cs _ _ pair after hat hlt more closed' rest' hrec ih =>
    cases h
    exact Nat.lt_trans (ih hrec) hlt
  | case5 => cases h

end VirtualDom.Markup
