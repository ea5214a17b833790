/-!
This module contains character references, such as `&amp;` and `&#65;`, and their replacement by the
characters that they denote.
-/

namespace VirtualDom.Markup.Reference

def hexDigit? (c : Char) : Option Nat :=
  if '0' ≤ c ∧ c ≤ '9' then some (c.toNat - '0'.toNat)
  else if 'a' ≤ c ∧ c ≤ 'f' then some (c.toNat - 'a'.toNat + 10)
  else if 'A' ≤ c ∧ c ≤ 'F' then some (c.toNat - 'A'.toNat + 10)
  else none

/-- The value of a nonempty run of digits below `base`, which a plus sign may precede. -/
def code? (base : Nat) (digits : List Char) : Option Nat :=
  match digits with
  | '+' :: more => run more
  | digits => run digits
where
  run (digits : List Char) : Option Nat :=
    if digits.isEmpty then none else digits.foldlM add 0
  add (n : Nat) (c : Char) : Option Nat := do
    let d ← hexDigit? c
    if d < base then some (base * n + d) else none

/-- The character with code point `n`, unless `n` is a surrogate or too large. -/
def scalar? (n : Nat) : Option Char :=
  if n.isValidChar then some (Char.ofNat n) else none

def named? (body : List Char) : Option Char :=
  match body with
  | ['a', 'm', 'p'] => some '&'
  | ['l', 't'] => some '<'
  | ['g', 't'] => some '>'
  | ['q', 'u', 'o', 't'] => some '"'
  | ['a', 'p', 'o', 's'] => some '\''
  | ['n', 'b', 's', 'p'] => some '\u00a0'
  | '#' :: 'x' :: digits | '#' :: 'X' :: digits => code? 16 digits >>= scalar?
  | '#' :: digits => code? 10 digits >>= scalar?
  | _ => none

/--
The character of the reference whose body starts `cs`, and what follows its semicolon. The body goes
on to the first semicolon, wherever that is.
-/
def read? (cs : List Char) : Option (Char × List Char) :=
  match cs.dropWhile (· != ';') with
  | [] => none
  | _ :: rest => (named? (cs.takeWhile (· != ';'))).map fun c => (c, rest)

theorem length_of_read? {cs rest : List Char} {c : Char} (h : read? cs = some (c, rest))
    : rest.length < cs.length := by
  have hle := List.dropWhile_sublist (l := cs) (· != ';') |>.length_le
  unfold read? at h
  split at h
  . cases h
  . next heq =>
    obtain ⟨_, _, hc⟩ := Option.map_eq_some_iff.1 h
    cases hc
    rw [heq] at hle
    exact hle

/-- Replaces every reference; an ampersand that starts none stays. -/
def decodeChars : List Char → List Char
  | [] => []
  | '&' :: rest =>
    match h : read? rest with
    | some (c, after) =>
      have := length_of_read? h
      c :: decodeChars after
    | none => '&' :: decodeChars rest
  | c :: rest => c :: decodeChars rest
termination_by cs => cs.length
decreasing_by all_goals simp_wf; try omega

def decode (s : String) : String :=
  String.ofList (decodeChars s.toList)

end VirtualDom.Markup.Reference
