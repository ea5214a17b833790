import VirtualDom.Proofs.Markup.Unique

/-!
This module contains the proof that reading markup is the inverse of the grammar: a text is read as
markup if and only if it has a derivation, which is unique and stands for that markup.
-/

namespace VirtualDom.Markup.Grammar

open Text

variable {cs r rest : List Char} {stack : List Frame} {before : List (Item × Markup)} {m : Markup}
  {token : Token}

theorem ofChars_of_read (hcs : cs ≠ []) (h : Token.read cs = .ok (token, rest))
    : Tokens.ofChars cs = .next cs token (.ofChars rest) := by
  cases cs with
  | nil => exact absurd rfl hcs
  | cons c cs =>
    rw [Tokens.ofChars]
    split
    . next h' =>
      cases h.symm.trans h'
      rfl
    . next h' => cases h.symm.trans h'

theorem roots_withText_cons (lead : List Char) (item : Item) (children rest : Markup)
    : (withText lead (.cons item children rest)).roots
        = (withText lead .nil).roots ++ (item, children) :: rest.roots := by
  unfold withText
  split <;> rfl

theorem ofTokens_lead (lead : Run (· != '<')) (hrest : Stops (· != '<') rest)
    : ofTokens stack before (.ofChars (lead ++ rest))
        = ofTokens stack ((withText lead .nil).roots.reverse ++ before) (.ofChars rest) := by
  unfold withText
  split
  . next h => simp [h, Forest.roots]
  . next h =>
    rw [ofChars_of_read (by simp [h]) (read_lead h lead.2 hrest), ofTokens]
    rfl

section Complete

theorem ofTokens_leaf (l : Leaf) (hrest : NoVoidEnd rest)
    : ofTokens stack before (.ofChars (l.text ++ rest))
        = ofTokens stack ((l.item, .nil) :: before) (.ofChars rest) := by
  have hne : l.text ++ rest ≠ [] := by
    obtain ⟨cs, hcs⟩ := l.exists_cons
    simp [hcs]
  rw [ofChars_of_read hne (read_leaf l hrest), ofTokens]

theorem ofTokens_startTag (tag : Tag) (not_void : tag.isVoid = false)
    : ofTokens stack before (.ofChars (tag.text false ++ rest))
        = ofTokens (⟨.ofList tag.name, tag.pairs, before⟩ :: stack) [] (.ofChars rest) := by
  rw [ofChars_of_read (by simp [Tag.text]) (read_startTag tag not_void rest), ofTokens]

theorem ofTokens_endTag (tag : Tag) (outer : List (Item × Markup)) (space : Run isSpace)
    : ofTokens (⟨.ofList tag.name, tag.pairs, outer⟩ :: stack) before
          (.ofChars (endTag tag.name space ++ rest))
        = ofTokens stack ((tag.item, ofReversed before) :: outer) (.ofChars rest) := by
  rw [ofChars_of_read (by simp [endTag]) (read_endTag tag.isName.2 space rest), ofTokens, if_pos rfl]
  rfl

theorem ofTokens_text (stack : List Frame) (before : List (Item × Markup)) (t : Derivation)
    (hr : Ends r)
    : ofTokens stack before (.ofChars (t.text ++ r))
        = ofTokens stack (t.markup.roots.reverse ++ before) (.ofChars r) := by
  induction t generalizing stack before r with
  | nil lead => exact ofTokens_lead lead hr.stops
  | leaf lead l t ih =>
    simp only [Derivation.text, Derivation.markup, List.append_assoc]
    rw [ofTokens_lead lead (l.stops _), ofTokens_leaf l (t.noVoidEnd hr), ih _ _ hr, roots_withText_cons]
    simp
  | element lead tag not_void children close t ihc iht =>
    simp only [Derivation.text, Derivation.markup, List.append_assoc]
    rw [ofTokens_lead lead (tag.stops _), ofTokens_startTag tag not_void,
      ihc _ _ (.endTag tag not_void close _), ofTokens_endTag, iht _ _ hr, roots_withText_cons]
    simp [ofReversed]

theorem parse_text (t : Derivation) : parse (.ofList t.text) = .ok t.markup := by
  have h := ofTokens_text [] [] t .nil
  simp only [List.append_nil] at h
  simp [parse, h, Tokens.ofChars, ofTokens, ofReversed]

end Complete

section Sound

/--
What is left of a text behind a row of nodes that is read in `stack`: nothing, or the end tag of the
innermost element, with which the reading goes on.
-/
inductive Leaves (m : Markup) : List Frame → List (Item × Markup) → List Char → Prop where
  | nil (before : List (Item × Markup)) (eq : ofReversed before = m) : Leaves m [] before []
  | endTag (frame : Frame) (stack : List Frame) (before : List (Item × Markup)) (name : List Char)
      (space : Run isSpace) (rest : List Char) (eq : frame.tag = .ofList name)
      (ok : ofTokens stack ((.element frame.tag frame.attributes, ofReversed before) :: frame.before)
        (.ofChars rest) = .ok m)
    : Leaves m (frame :: stack) before (endTag name space ++ rest)

theorem exists_read (hcs : cs ≠ []) (h : ofTokens stack before (.ofChars cs) = .ok m)
    : ∃ token rest, Token.read cs = .ok (token, rest) := by
  cases cs with
  | nil => exact absurd rfl hcs
  | cons c cs =>
    rw [Tokens.ofChars] at h
    split at h
    . next hread => exact ⟨_, _, hread⟩
    . cases h

theorem leaves_nil (h : ofTokens stack before .finished = .ok m) : Leaves m stack before [] := by
  cases stack with
  | nil => exact .nil before (Except.ok.inj h)
  | cons frame outer => cases h

theorem leaves_endTag {name : List Char} {start : List Char} (space : Run isSpace)
    (h : ofTokens stack before (.next start (.endTag (.ofList name)) (.ofChars rest)) = .ok m)
    : Leaves m stack before (endTag name space ++ rest) := by
  cases stack with
  | nil => cases h
  | cons frame outer =>
    simp only [ofTokens] at h
    split at h
    . next heq => exact .endTag frame outer before name space rest heq (heq ▸ h)
    . cases h

theorem exists_row (h : ofTokens stack before (.ofChars cs) = .ok m)
    : ∃ (t : Derivation) (r : List Char), t.text ++ r = cs ∧
        Leaves m stack (t.markup.roots.reverse ++ before) r := by
  induction hn : cs.length using Nat.strongRecOn generalizing cs stack before with
  | ind n ih =>
  -- The text in front comes off first, so that what is left is empty or starts with a tag.
  let lead : Run (· != '<') := ⟨cs.takeWhile (· != '<'), fun _ => List.mem_takeWhile_imp⟩
  have happend : lead ++ cs.dropWhile (· != '<') = cs := List.takeWhile_append_dropWhile
  have hstops := stops_dropWhile (· != '<') cs
  rw [← happend, ofTokens_lead lead hstops] at h
  cases hinner : cs.dropWhile (· != '<') with
  | nil =>
    rw [hinner, Tokens.ofChars] at h
    exact ⟨.nil lead, [], hinner ▸ happend, leaves_nil h⟩
  | cons c inner =>
    rw [hinner] at h happend hstops
    have hc : c = '<' := by simpa using stops_cons.1 hstops
    subst hc
    obtain ⟨token, rest, hread⟩ := exists_read (List.cons_ne_nil _ _) h
    have hlt := Token.length_of_read (List.cons_ne_nil _ _) hread
    have hle : ('<' :: inner).length ≤ cs.length := by
      rw [← happend, List.length_append]
      omega
    rw [ofChars_of_read (List.cons_ne_nil _ _) hread] at h
    obtain ⟨text, hspells, htext⟩ := exists_spelling hread
    rw [← htext] at happend
    cases hspells with
    | leaf l =>
      obtain ⟨t, r, rfl, hleaves⟩ := ih _ (by omega) h rfl
      refine ⟨.leaf lead l t, r, ?_, ?_⟩
      . simpa [Derivation.text] using happend
      . simpa [Derivation.markup, roots_withText_cons] using hleaves
    | endTag name _ space => exact ⟨.nil lead, _, happend, leaves_endTag space h⟩
    | startTag tag not_void =>
      obtain ⟨children, r, rfl, hleaves⟩ := ih _ (by omega) h rfl
      cases hleaves with
      | endTag _ _ _ name close more eq ok =>
      cases String.ofList_injective eq
      have hmore : more.length ≤ (children.text ++ (endTag tag.name close ++ more)).length := by
        simp only [List.length_append]
        omega
      obtain ⟨t, r, rfl, hleaves⟩ := ih _ (by omega) ok rfl
      refine ⟨.element lead tag not_void children close t, r, ?_, ?_⟩
      . simpa [Derivation.text] using happend
      . simpa [Derivation.markup, roots_withText_cons, ofReversed, Tag.item] using hleaves

theorem exists_derivation {s : String} (h : parse s = .ok m)
    : ∃ t : Derivation, t.text = s.toList ∧ t.markup = m := by
  unfold parse at h
  split at h
  . next htokens =>
    cases h
    obtain ⟨t, r, ht, hleaves⟩ := exists_row htokens
    cases hleaves with
    | nil _ eq => exact ⟨t, by simpa using ht, by simpa [ofReversed] using eq⟩
  . cases h

end Sound

/--
Markup is read off exactly the texts that have a derivation, as what the derivation stands for, and
no text has two derivations.
-/
theorem parse_eq_ok_iff_derivation
    : (∀ (s : String) (m : Markup),
        parse s = .ok m ↔ ∃ t : Derivation, t.text = s.toList ∧ t.markup = m)
        ∧ ∀ t t' : Derivation, t.text = t'.text → t = t' := by
  constructor
  . intro s m
    constructor
    . exact exists_derivation
    . rintro ⟨t, ht, rfl⟩
      rw [← parse_text, ht, String.ofList_toList]
  . intro t t' h
    exact (Derivation.text_append_inj .nil .nil (congrArg (· ++ []) h)).1

end VirtualDom.Markup.Grammar
