import Mathlib.Data.List.Infix
import Mathlib.Data.List.TakeWhile
import VirtualDom.Proofs.Markup.Grammar
import VirtualDom.Proofs.Text.Cut

/-!
This module contains the reading of tags: what is read in front of a text is what the grammar says, with
everything up to its end.
-/

namespace VirtualDom.Markup.Grammar

open Text

variable {cs body name rest : List Char} {closed : Bool}

section Characters

theorem isAttributeChar_iff {c : Char}
    : isAttributeChar c ↔ isSpace c = false ∧ c ≠ '=' ∧ c ≠ '>' ∧ c ≠ '/' ∧ c ≠ '<' ∧ c ≠ '"' ∧
        c ≠ '\'' := by
  simp [isAttributeChar, and_assoc]

theorem not_isNameChar_of_isSpace {c : Char} (h : isSpace c) : isNameChar c = false := by
  simp only [isSpace, Bool.or_eq_true, beq_iff_eq] at h
  rcases h with ((rfl | rfl) | rfl) | rfl <;> decide

theorem not_isAttributeChar_of_isSpace {c : Char} (h : isSpace c) : isAttributeChar c = false := by
  simp [isAttributeChar, h]

theorem isNameChar_of_isNameStart {c : Char} (h : isNameStart c) : isNameChar c := by
  simp only [isNameStart, isNameChar, Char.isAlphanum, Bool.or_eq_true] at h ⊢
  rcases h with h | h <;> simp [h]

theorem isMark_singleton (c : Char) : IsMark [c] :=
  ⟨[], c, rfl, by simp⟩

theorem skipSpace_append (space : Run isSpace) (h : Stops isSpace rest)
    : skipSpace (space ++ rest) = rest :=
  dropWhile_append space.2 h

theorem stops_space {p : Char → Bool} (hp : ∀ c, isSpace c → p c = false) (space : Run isSpace)
    (h : Stops p rest) : Stops p (space ++ rest) := by
  obtain ⟨cs, hcs⟩ := space
  cases cs with
  | nil => exact h
  | cons c cs => exact stops_cons.2 (hp c (hcs c List.mem_cons_self))

def spaceOf (cs : List Char) : Run isSpace :=
  ⟨cs.takeWhile isSpace, fun _ => List.mem_takeWhile_imp⟩

theorem spaceOf_append_skipSpace (cs : List Char) : spaceOf cs ++ skipSpace cs = cs :=
  List.takeWhile_append_dropWhile

theorem spaceOf_ne_nil (h : ¬ cs.head?.all (!isSpace ·)) : (spaceOf cs).1 ≠ [] := by
  cases cs with
  | nil => simp at h
  | cons c cs =>
    have hc : isSpace c := by simpa using h
    simp [spaceOf, hc]

end Characters

section Values

theorem value?_text (q : Quotation) (rest : List Char)
    : value? (q.text ++ rest) = some (q.body, rest) := by
  obtain ⟨before, after, mark, body, isMark, not_mem⟩ := q
  have hsplit : splitAt? [mark] (body ++ mark :: rest) = some (body, rest) :=
    (splitAt?_eq_some (isMark_singleton mark)).2 ⟨rfl, by rwa [List.singleton_infix_iff]⟩
  have hbefore : skipSpace (before ++ '=' :: (after ++ mark :: (body ++ mark :: rest)))
      = '=' :: (after ++ mark :: (body ++ mark :: rest)) :=
    skipSpace_append before (by simp; decide)
  have hafter : skipSpace (after ++ mark :: (body ++ mark :: rest)) = mark :: (body ++ mark :: rest) := by
    apply skipSpace_append
    rcases isMark with rfl | rfl <;> simp <;> decide
  have htext : Quotation.text ⟨before, after, mark, body, isMark, not_mem⟩ ++ rest
      = before ++ '=' :: (after ++ mark :: (body ++ mark :: rest)) := by
    simp [Quotation.text]
  rcases isMark with rfl | rfl <;> simpa only [value?, htext, hbefore, hafter] using hsplit

theorem exists_quotation (h : value? cs = some (body, rest))
    : ∃ q : Quotation, q.text ++ rest = cs ∧ q.body = body := by
  have quoted : ∀ {mark after inner}, mark = '"' ∨ mark = '\'' → skipSpace cs = '=' :: after →
      skipSpace after = mark :: inner → splitAt? [mark] inner = some (body, rest) →
      ∃ q : Quotation, q.text ++ rest = cs ∧ q.body = body := by
    intro mark after inner isMark hcs hafter hsplit
    obtain ⟨hinner, hbody⟩ := (splitAt?_eq_some (isMark_singleton mark)).1 hsplit
    rw [List.singleton_infix_iff] at hbody
    refine ⟨⟨spaceOf cs, spaceOf after, mark, body, isMark, hbody⟩, ?_, rfl⟩
    calc Quotation.text ⟨spaceOf cs, spaceOf after, mark, body, isMark, hbody⟩ ++ rest
        = spaceOf cs ++ '=' :: (spaceOf after ++ mark :: (body ++ ([mark] ++ rest))) := by
          simp [Quotation.text]
      _ = spaceOf cs ++ '=' :: after := by rw [hinner, ← hafter, spaceOf_append_skipSpace]
      _ = cs := by rw [← hcs, spaceOf_append_skipSpace]
  unfold value? at h
  split at h
  . next hcs =>
    split at h
    . next hafter => exact quoted (.inl rfl) hcs hafter h
    . next hafter => exact quoted (.inr rfl) hcs hafter h
    . cases h
  . cases h

theorem value?_eq_none (h : (skipSpace cs).head? ≠ some '=') : value? cs = none := by
  unfold value?
  split
  . next hcs =>
    rw [hcs] at h
    exact absurd rfl h
  . rfl

end Values

section Attributes

theorem IsAttributeName.exists_cons (h : IsAttributeName name)
    : ∃ c cs, name = c :: cs ∧ isAttributeChar c := by
  obtain ⟨hne, hname⟩ := h
  obtain ⟨c, cs, rfl⟩ := List.exists_cons_of_ne_nil hne
  exact ⟨c, cs, rfl, hname c List.mem_cons_self⟩

theorem Attribute.stops_valueText (a : Attribute) (h : Stops isAttributeChar rest)
    : Stops isAttributeChar (a.valueText ++ rest) := by
  unfold valueText
  cases a.value with
  | none => exact h
  | some q =>
    rw [Option.elim_some, Quotation.text, List.append_assoc]
    exact stops_space (fun _ => not_isAttributeChar_of_isSpace) _ (stops_cons.2 (by decide))

theorem attribute?_text (a : Attribute) (hrest : Stops isAttributeChar rest)
    (hvalue : a.value = none → value? rest = none)
    : attribute? (a.name ++ (a.valueText ++ rest)) = some (a.pair, rest) := by
  have hstops := a.stops_valueText hrest
  unfold attribute?
  rw [takeWhile_append a.isName.2 hstops, dropWhile_append a.isName.2 hstops]
  have hne : a.name.isEmpty = false := by simpa using a.isName.1
  simp only [hne, Bool.false_eq_true, if_false]
  unfold Attribute.valueText Attribute.pair
  cases hq : a.value with
  | none => simp [hvalue hq]
  | some q => simp [value?_text]

theorem exists_attribute {pair : String × String} (h : attribute? cs = some (pair, rest))
    (space : Run isSpace) (hspace : space.1 ≠ []) : ∃ a : Attribute, a.text ++ rest = space ++ cs := by
  have happend := List.takeWhile_append_dropWhile (p := isAttributeChar) (l := cs)
  unfold attribute? at h
  dsimp only at h
  split at h
  . cases h
  . next hne =>
    have hname : IsAttributeName (cs.takeWhile isAttributeChar) :=
      ⟨by simpa using hne, fun _ => List.mem_takeWhile_imp⟩
    split at h
    . next hvalue =>
      cases h
      obtain ⟨q, hq, -⟩ := exists_quotation hvalue
      refine ⟨⟨space, _, some q, hspace, hname⟩, ?_⟩
      conv => rhs; rw [← happend, ← hq]
      simp [Attribute.text, Attribute.valueText]
    . cases h
      refine ⟨⟨space, _, none, hspace, hname⟩, ?_⟩
      conv => rhs; rw [← happend]
      simp [Attribute.text, Attribute.valueText]

end Attributes

section Tails

theorem tail_cons (a : Attribute) (attributes : List Attribute) (space : Run isSpace) (closed : Bool)
    : tail (a :: attributes) space closed = a.text ++ tail attributes space closed := by
  simp [tail]

theorem tagEnd?_closing (closed : Bool) (rest : List Char)
    : tagEnd? (closing closed ++ rest) = some (closed, rest) := by
  cases closed <;> rfl

theorem closing_of_tagEnd? (h : tagEnd? cs = some (closed, rest)) : closing closed ++ rest = cs := by
  unfold tagEnd? at h
  split at h <;> cases h <;> rfl

theorem stops_closing {p : Char → Bool} (hslash : p '/' = false) (hgreater : p '>' = false)
    : Stops p (closing closed ++ rest) := by
  cases closed <;> simpa [closing]

theorem stops_tail {p : Char → Bool} (hspace : ∀ c, isSpace c → p c = false) (hslash : p '/' = false)
    (hgreater : p '>' = false) (attributes : List Attribute) (space : Run isSpace)
    : Stops p (tail attributes space closed ++ rest) := by
  cases attributes with
  | nil =>
    rw [tail, List.flatMap_nil, List.nil_append, List.append_assoc]
    exact stops_space hspace space (stops_closing hslash hgreater)
  | cons a attributes =>
    rw [tail_cons, Attribute.text, List.append_assoc, List.append_assoc]
    obtain ⟨c, cs, hc⟩ := List.exists_cons_of_ne_nil a.space_ne_nil
    rw [hc]
    exact stops_cons.2 (hspace c (a.space.2 c (hc ▸ List.mem_cons_self)))

theorem skipSpace_tail_nil (space : Run isSpace) (closed : Bool) (rest : List Char)
    : skipSpace (tail [] space closed ++ rest) = closing closed ++ rest := by
  rw [tail, List.flatMap_nil, List.nil_append, List.append_assoc]
  exact skipSpace_append _ (stops_closing (by decide) (by decide))

theorem value?_tail (attributes : List Attribute) (space : Run isSpace) (closed : Bool)
    (rest : List Char)
    : value? (tail attributes space closed ++ rest) = none := by
  apply value?_eq_none
  cases attributes with
  | nil =>
    rw [skipSpace_tail_nil]
    cases closed <;> simp [closing]
  | cons a attributes =>
    obtain ⟨c, cs, hname, hc⟩ := a.isName.exists_cons
    rw [isAttributeChar_iff] at hc
    rw [tail_cons, Attribute.text, List.append_assoc, List.append_assoc, hname, List.cons_append,
      List.cons_append, skipSpace_append _ (stops_cons.2 hc.1)]
    simpa using hc.2.1

theorem attributes_of_tagEnd? (h : tagEnd? (skipSpace cs) = some (closed, rest))
    : attributes cs = .ok ([], closed, rest) := by
  rw [attributes]
  split
  . next h' =>
    cases h.symm.trans h'
    rfl
  . next h' => cases h.symm.trans h'

theorem attributes_of_attribute? {after : List Char} {pair : String × String}
    {more : List (String × String)} (hend : tagEnd? (skipSpace cs) = none)
    (hhead : cs.head?.all (!isSpace ·) = false) (h : attribute? (skipSpace cs) = some (pair, after))
    (hmore : attributes after = .ok (more, closed, rest))
    : attributes cs = .ok (pair :: more, closed, rest) := by
  rw [attributes]
  split
  . next h' => cases hend.symm.trans h'
  . rw [hhead, if_neg (by decide)]
    split
    . next h' => cases h.symm.trans h'
    . next h' =>
      cases h.symm.trans h'
      rw [hmore]

theorem attributes_tail (as : List Attribute) (space : Run isSpace) (closed : Bool) (rest : List Char)
    : attributes (tail as space closed ++ rest) = .ok (as.map Attribute.pair, closed, rest) := by
  induction as with
  | nil =>
    exact attributes_of_tagEnd? (skipSpace_tail_nil space closed rest ▸ tagEnd?_closing closed rest)
  | cons a as ih =>
    obtain ⟨c, cs, hname, hc⟩ := a.isName.exists_cons
    have hc := isAttributeChar_iff.1 hc
    have htext : tail (a :: as) space closed ++ rest
        = a.space ++ (a.name ++ (a.valueText ++ (tail as space closed ++ rest))) := by
      rw [tail_cons, Attribute.text]
      simp only [List.append_assoc]
    have hskip : skipSpace (tail (a :: as) space closed ++ rest)
        = a.name ++ (a.valueText ++ (tail as space closed ++ rest)) := by
      rw [htext]
      apply skipSpace_append
      rw [hname]
      exact stops_cons.2 hc.1
    have hend : tagEnd? (a.name ++ (a.valueText ++ (tail as space closed ++ rest))) = none := by
      rw [hname, List.cons_append]
      unfold tagEnd?
      split
      . next h => exact absurd (List.cons.inj h).1 hc.2.2.2.1
      . next h => exact absurd (List.cons.inj h).1 hc.2.2.1
      . rfl
    have hhead : (tail (a :: as) space closed ++ rest).head?.all (!isSpace ·) = false := by
      obtain ⟨d, ds, hd⟩ := List.exists_cons_of_ne_nil a.space_ne_nil
      have := a.space.2 d (hd ▸ List.mem_cons_self)
      simp [htext, hd, this]
    have hread := attribute?_text a
      (stops_tail (fun _ => not_isAttributeChar_of_isSpace) (by decide) (by decide) as space)
      fun _ => value?_tail as space closed rest
    exact attributes_of_attribute? (hskip ▸ hend) hhead (hskip ▸ hread) ih

theorem exists_tail {list : List (String × String)} (h : attributes cs = .ok (list, closed, rest))
    : ∃ as space, tail as space closed ++ rest = cs := by
  fun_induction attributes cs generalizing list with
  | case1 cs _ _ hend =>
    cases h
    refine ⟨[], spaceOf cs, ?_⟩
    rw [tail, List.flatMap_nil, List.nil_append, List.append_assoc, closing_of_tagEnd? hend]
    exact spaceOf_append_skipSpace cs
  | case2 => cases h
  | case3 => cases h
  | case4 cs _ hhead pair after hat _ more _ _ hrec ih =>
    cases h
    obtain ⟨as, space, htail⟩ := ih hrec
    obtain ⟨a, ha⟩ := exists_attribute hat (spaceOf cs) (spaceOf_ne_nil hhead)
    refine ⟨a :: as, space, ?_⟩
    rw [tail_cons, List.append_assoc, htail, ha, spaceOf_append_skipSpace]
  | case5 => cases h

end Tails

end VirtualDom.Markup.Grammar
