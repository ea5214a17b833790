import VirtualDom.Document.Html
import VirtualDom.Markup.Reference
import VirtualDom.Proofs.Text.Cut

/-!
This module contains the proof that decoding references undoes both escapings of the HTML form, and
what no escaped text contains.
-/

namespace VirtualDom

namespace Markup.Reference

open Text

variable {c : Char} {text body cs rest : List Char} {escape : Char → List Char}

/-- A character is written as itself or as a reference to it. -/
inductive Escaped (c : Char) : List Char → Prop where
  | itself (ne : c ≠ '&') : Escaped c [c]
  | reference (body : List Char) (not_mem : ';' ∉ body) (eq : named? body = some c)
    : Escaped c ('&' :: (body ++ [';']))

theorem read?_append (not_mem : ';' ∉ body) (eq : named? body = some c) (rest : List Char)
    : read? (body ++ ';' :: rest) = some (c, rest) := by
  have hbody : ∀ d ∈ body, d != ';' := by
    intro d hd
    rw [bne_iff_ne]
    rintro rfl
    exact not_mem hd
  have hstops : Stops (· != ';') (';' :: rest) := stops_cons.2 (by decide)
  simp [read?, takeWhile_append hbody hstops, dropWhile_append hbody hstops, eq]

theorem decodeChars_append (h : Escaped c text) (rest : List Char)
    : decodeChars (text ++ rest) = c :: decodeChars rest := by
  cases h with
  | itself ne =>
    rw [List.singleton_append, decodeChars]
    exact ne
  | reference body not_mem eq =>
    have hread := read?_append not_mem eq rest
    rw [List.cons_append, List.append_assoc, List.singleton_append, decodeChars]
    split
    . next h =>
      cases hread.symm.trans h
      rfl
    . next h => cases hread.symm.trans h

theorem decode_flatMap (h : ∀ c, Escaped c (escape c)) (s : String)
    : decode (.ofList (s.toList.flatMap escape)) = s := by
  have hchars : ∀ cs : List Char, decodeChars (cs.flatMap escape) = cs := by
    intro cs
    induction cs with
    | nil => simp [decodeChars]
    | cons c cs ih => rw [List.flatMap_cons, decodeChars_append (h c), ih]
  rw [decode, String.toList_ofList, hchars, String.ofList_toList]

theorem Escaped.ne_nil (h : Escaped c text) : text ≠ [] := by
  cases h <;> simp

theorem flatMap_eq_nil (h : ∀ c, Escaped c (escape c)) (cs : List Char)
    : cs.flatMap escape = [] ↔ cs = [] := by
  cases cs with
  | nil => simp
  | cons c cs => simp [(h c).ne_nil]

end Markup.Reference

namespace Html

open Markup.Reference

theorem escaped_text (c : Char) : Escaped c (escapeTextChar c) := by
  unfold escapeTextChar
  split
  . next h => exact h ▸ .reference ['a', 'm', 'p'] (by decide) rfl
  . split
    . next h => exact h ▸ .reference ['l', 't'] (by decide) rfl
    . split
      . next h => exact h ▸ .reference ['g', 't'] (by decide) rfl
      . split
        . next h => exact h ▸ .reference ['n', 'b', 's', 'p'] (by decide) rfl
        . exact .itself ‹_›

theorem escaped_value (c : Char) : Escaped c (escapeValueChar c) := by
  unfold escapeValueChar
  split
  . next h => exact h ▸ .reference ['a', 'm', 'p'] (by decide) rfl
  . split
    . next h => exact h ▸ .reference ['q', 'u', 'o', 't'] (by decide) rfl
    . split
      . next h => exact h ▸ .reference ['n', 'b', 's', 'p'] (by decide) rfl
      . exact .itself ‹_›

theorem not_mem_escapeText (cs : List Char) : '<' ∉ cs.flatMap escapeTextChar := by
  intro h
  obtain ⟨c, -, hc⟩ := List.mem_flatMap.1 h
  unfold escapeTextChar at hc
  split at hc
  . exact absurd hc (by decide)
  . split at hc
    . exact absurd hc (by decide)
    . next hne =>
      split at hc
      . exact absurd hc (by decide)
      . split at hc
        . exact absurd hc (by decide)
        . exact hne (List.mem_singleton.1 hc).symm

theorem not_mem_escapeValue (cs : List Char) : '"' ∉ cs.flatMap escapeValueChar := by
  intro h
  obtain ⟨c, -, hc⟩ := List.mem_flatMap.1 h
  unfold escapeValueChar at hc
  split at hc
  . exact absurd hc (by decide)
  . split at hc
    . exact absurd hc (by decide)
    . next hne =>
      split at hc
      . exact absurd hc (by decide)
      . exact hne (List.mem_singleton.1 hc).symm

end Html

end VirtualDom
