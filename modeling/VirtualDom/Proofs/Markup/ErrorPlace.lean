import VirtualDom.Proofs.Markup.Parse

/-!
This module contains where the errors of markup are: what is in front of the place of an error can be
completed to markup, with a rest that ends the tag it stops in and closes every open element.
-/

namespace VirtualDom.Markup.Grammar

open Text

variable {cs name rest : List Char} {stack : List Frame} {before : List (Item × Markup)} {m : Markup}
  {why : Stuck}

section Tokens

theorem exists_attributes (h : attributes cs = .error why)
    : ∃ (as : List Attribute) (space : Run isSpace),
        as.flatMap Attribute.text ++ (space ++ why.rest) = cs := by
  fun_induction attributes cs with
  | case1 => cases h
  | case2 cs =>
    cases h
    exact ⟨[], ⟨[], List.forall_mem_nil _⟩, rfl⟩
  | case3 cs =>
    cases h
    exact ⟨[], spaceOf cs, spaceOf_append_skipSpace cs⟩
  | case4 => cases h
  | case5 cs _ hhead pair after hat _ _ hrec ih =>
    cases h
    obtain ⟨as, space, htext⟩ := ih hrec
    obtain ⟨a, ha⟩ := exists_attribute hat (spaceOf cs) (spaceOf_ne_nil hhead)
    refine ⟨a :: as, space, ?_⟩
    rw [List.flatMap_cons, List.append_assoc, htext, ha, spaceOf_append_skipSpace]

def emptyComment : Leaf :=
  .special .comment [] (by decide)

theorem error_of_read (h : Token.read ('<' :: cs) = .error why) : Token.tag cs = .error why := by
  unfold Token.read at h
  split at h
  . next heq =>
    cases heq
    split at h
    . cases h
    . split at h
      . cases h
      . exact h
  . next hne => exact absurd rfl (hne cs)

theorem ofChars_of_error {c : Char} (h : Token.read (c :: cs) = .error why)
    : Tokens.ofChars (c :: cs) = .stuck why := by
  rw [Tokens.ofChars]
  split
  . next h' => cases h.symm.trans h'
  . next h' =>
    cases h.symm.trans h'
    rfl

theorem exists_leaf (h : Token.tag cs = .error why)
    : ∃ (read more : List Char) (l : Leaf), read ++ why.rest = cs ∧ l.text = '<' :: (read ++ more) := by
  unfold Token.tag at h
  split at h
  . next hhead =>
    dsimp only at h
    split at h
    . next hattributes =>
      cases h
      obtain ⟨as, space, htext⟩ := exists_attributes hattributes
      let tag : Tag := ⟨_, as, space, isTagName_takeWhile hhead⟩
      refine ⟨tag.name ++ (as.flatMap Attribute.text ++ space), closing true, .closed tag, ?_, ?_⟩
      . rw [List.append_assoc, List.append_assoc, htext, List.takeWhile_append_dropWhile]
      . simp [tag, Leaf.text, Tag.text, tail]
    . split at h
      . cases h
      . split at h <;> cases h
  . cases h
    exact ⟨[], ['!', '-', '-', '-', '-', '>'], emptyComment, rfl, rfl⟩

end Tokens

section Completions

/-- The elements that are open. None of them is void. -/
inductive Opened : List Frame → Prop where
  | nil : Opened []
  | cons (tag : Tag) (not_void : tag.isVoid = false) (before : List (Item × Markup)) {stack : List Frame}
    (opened : Opened stack) : Opened (⟨.ofList tag.name, tag.pairs, before⟩ :: stack)

theorem Opened.exists_closing (h : Opened stack) (before : List (Item × Markup))
    : ∃ more m, Ends more ∧ ofTokens stack before (.ofChars more) = .ok m := by
  induction h generalizing before with
  | nil => exact ⟨[], _, .nil, by rw [Tokens.ofChars, ofTokens, List.isEmpty_nil, if_pos rfl]⟩
  | cons tag not_void outer _ ih =>
    obtain ⟨more, m, -, hm⟩ := ih ((tag.item, ofReversed before) :: outer)
    exact ⟨_, m, .endTag tag not_void ⟨[], List.forall_mem_nil _⟩ more, by rw [ofTokens_endTag, hm]⟩

theorem Opened.noVoidEnd (hopened : Opened stack) (h : ofTokens stack before (.ofChars cs) = .ok m)
    : NoVoidEnd cs := by
  intro name rest hread
  obtain ⟨isName, space, rfl⟩ := endTag?_eq_some.1 hread
  rw [ofChars_of_read (by simp [endTag]) (read_endTag isName space rest)] at h
  cases hopened with
  | nil => cases h
  | cons tag not_void =>
    rw [ofTokens] at h
    split at h
    . next heq => exact heq ▸ not_void
    . cases h

/-- What was read in front of an error can be completed to markup. -/
def Viable (stack : List Frame) (before : List (Item × Markup)) (cs : List Char) (why : Stuck) : Prop :=
  ∃ read more m, read ++ why.rest = cs ∧ ofTokens stack before (.ofChars (read ++ more)) = .ok m

variable {lead : Run (· != '<')}

theorem Opened.viable_end (hopened : Opened stack) (hwhy : why.rest = [])
    : Viable stack before lead why := by
  obtain ⟨more, m, hends, hm⟩ := hopened.exists_closing ((withText lead .nil).roots.reverse ++ before)
  exact ⟨lead, more, m, by simp [hwhy], by rw [ofTokens_lead lead hends.stops, hm]⟩

theorem Opened.viable_tag (hopened : Opened stack) (l : Leaf) (read : List Char) {more : List Char}
    (htext : l.text = '<' :: (read ++ more))
    : Viable stack before (lead ++ '<' :: (read ++ why.rest)) why := by
  obtain ⟨after, m, -, hm⟩ :=
    hopened.exists_closing ((l.item, .nil) :: ((withText lead .nil).roots.reverse ++ before))
  refine ⟨lead ++ '<' :: read, more ++ after, m, by simp, ?_⟩
  have hread : lead ++ '<' :: read ++ (more ++ after) = lead ++ (l.text ++ after) := by
    simp [htext]
  rw [hread, ofTokens_lead lead (l.stops after), ofTokens_leaf l (hopened.noVoidEnd hm), hm]

theorem Viable.after_token {text : List Char} {stack' : List Frame} {before' : List (Item × Markup)}
    (h : Viable stack' before' rest why) (hstops : ∀ cs, Stops (· != '<') (text ++ cs))
    (htoken : ∀ cs m, ofTokens stack' before' (.ofChars cs) = .ok m →
      ofTokens stack ((withText lead .nil).roots.reverse ++ before) (.ofChars (text ++ cs)) = .ok m)
    : Viable stack before (lead ++ (text ++ rest)) why := by
  obtain ⟨read, more, m, rfl, hm⟩ := h
  refine ⟨lead ++ (text ++ read), more, m, by simp, ?_⟩
  have hread : lead ++ (text ++ read) ++ more = lead ++ (text ++ (read ++ more)) := by
    simp
  rw [hread, ofTokens_lead lead (hstops _), htoken _ _ hm]

/-- One token: what follows it can be completed, or it closes nothing and can be replaced by a comment. -/
theorem Opened.viable_token {token : Token} {text : List Char} (hopened : Opened stack)
    (hspells : Spells token text)
    (h : ofTokens stack ((withText lead .nil).roots.reverse ++ before)
      (.next (text ++ rest) token (.ofChars rest)) = .error why)
    (hrest : ∀ {stack : List Frame} {before : List (Item × Markup)}, Opened stack →
      ofTokens stack before (.ofChars rest) = .error why → Viable stack before rest why)
    : Viable stack before (lead ++ (text ++ rest)) why := by
  cases hspells with
  | leaf l =>
    rw [ofTokens] at h
    refine (hrest hopened h).after_token l.stops ?_
    intro cs m hm
    rw [ofTokens_leaf l (hopened.noVoidEnd hm), hm]
  | startTag tag not_void =>
    rw [ofTokens] at h
    refine (hrest (hopened.cons tag not_void _) h).after_token tag.stops ?_
    intro cs m hm
    rw [ofTokens_startTag tag not_void, hm]
  | endTag name _ space =>
    cases hopened with
    | nil =>
      cases h
      exact Opened.nil.viable_tag emptyComment [] rfl
    | cons tag not_void outer hopened =>
      rw [ofTokens] at h
      split at h
      . next heq =>
        cases String.ofList_injective heq
        refine (hrest hopened h).after_token (fun cs => stops_cons.2 (by decide)) ?_
        intro cs m hm
        rw [ofTokens_endTag, ← hm]
        rfl
      . cases h
        exact (hopened.cons tag not_void outer).viable_tag emptyComment [] rfl

theorem Opened.viable (hopened : Opened stack) (h : ofTokens stack before (.ofChars cs) = .error why)
    : Viable stack before cs why := by
  induction hn : cs.length using Nat.strongRecOn generalizing cs stack before with
  | ind n ih =>
  let lead : Run (· != '<') := ⟨cs.takeWhile (· != '<'), fun _ => List.mem_takeWhile_imp⟩
  have happend : lead ++ cs.dropWhile (· != '<') = cs := List.takeWhile_append_dropWhile
  have hstops := stops_dropWhile (· != '<') cs
  rw [← happend, ofTokens_lead lead hstops] at h
  cases hinner : cs.dropWhile (· != '<') with
  | nil =>
    rw [hinner, List.append_nil] at happend
    rw [hinner, Tokens.ofChars, ofTokens] at h
    split at h
    . cases h
    . cases h
      exact happend ▸ hopened.viable_end rfl
  | cons c inner =>
    rw [hinner] at h happend hstops
    have hc : c = '<' := by simpa using stops_cons.1 hstops
    subst hc
    rw [← happend]
    cases hread : Token.read ('<' :: inner) with
    | error e =>
      rw [ofChars_of_error hread] at h
      cases h
      obtain ⟨read, more, l, rfl, htext⟩ := exists_leaf (error_of_read hread)
      exact hopened.viable_tag l read htext
    | ok result =>
      obtain ⟨token, rest⟩ := result
      have hlt := Token.length_of_read (List.cons_ne_nil _ _) hread
      have hle : ('<' :: inner).length ≤ cs.length := by
        rw [← happend, List.length_append]
        omega
      rw [ofChars_of_read (List.cons_ne_nil _ _) hread] at h
      obtain ⟨text, hspells, htext⟩ := exists_spelling hread
      rw [← htext] at h ⊢
      exact hopened.viable_token hspells h fun hopened h => ih _ (by omega) hopened h rfl

end Completions

section Places

theorem exists_line (before : List Char)
    : (Place.after before).line = 1 + before.count '\n' ∧
        ∃ above line, above ++ line = before ∧ (∀ c ∈ above.getLast?, c = '\n') ∧ '\n' ∉ line ∧
          (Place.after before).column = 1 + line.length := by
  refine ⟨rfl, (before.reverse.dropWhile (· != '\n')).reverse,
    (before.reverse.takeWhile (· != '\n')).reverse, ?_, ?_, ?_, ?_⟩
  . rw [← List.reverse_append, List.takeWhile_append_dropWhile, List.reverse_reverse]
  . rw [List.getLast?_reverse]
    intro c hc
    simpa using stops_dropWhile (· != '\n') before.reverse c hc
  . intro hmem
    simpa using List.mem_takeWhile_imp (List.mem_reverse.1 hmem)
  . rw [List.length_reverse]
    rfl

end Places

/--
Where a text is not markup, the error is at a place of the text, and what is in front of that place can
be completed to markup.
-/
theorem parse_error_place {s : String} {e : SyntaxError} (h : parse s = .error e)
    : ∃ before rest, before ++ rest = s.toList ∧
        e.place.line = 1 + before.count '\n' ∧
        (∃ above line, above ++ line = before ∧ (∀ c ∈ above.getLast?, c = '\n') ∧ '\n' ∉ line ∧
          e.place.column = 1 + line.length) ∧
        ∃ more m, parse (.ofList (before ++ more)) = .ok m := by
  unfold parse at h
  split at h
  . cases h
  . next why hwhy =>
    cases h
    obtain ⟨read, more, m, hread, hm⟩ := Opened.nil.viable hwhy
    have hbefore : s.toList.take (s.toList.length - why.rest.length) = read := by
      rw [← hread, List.length_append, Nat.add_sub_cancel, List.take_left]
    rw [hbefore]
    refine ⟨read, why.rest, hread, (exists_line read).1, (exists_line read).2, more, m, ?_⟩
    rw [parse, String.toList_ofList, hm]

theorem parse_error_place_mismatch
    : parse "<p>\n<b a></p>" = .error ⟨⟨2, 7⟩, .tagName⟩ ∧
        ∃ before rest, before ++ rest = "<p>\n<b a></p>".toList ∧ 2 = 1 + before.count '\n' ∧
          ∃ more m, parse (.ofList (before ++ more)) = .ok m := by
  have herror : (parse "<p>\n<b a></p>").map (fun _ => ()) = .error ⟨⟨2, 7⟩, .tagName⟩ := by
    decide +kernel
  have h : parse "<p>\n<b a></p>" = .error ⟨⟨2, 7⟩, .tagName⟩ := by
    cases hparse : parse "<p>\n<b a></p>" with
    | error e =>
      rw [hparse] at herror
      cases herror
      rfl
    | ok m =>
      rw [hparse] at herror
      cases herror
  obtain ⟨before, rest, htext, hline, -, hmore⟩ := parse_error_place h
  exact ⟨h, before, rest, htext, hline, hmore⟩

end VirtualDom.Markup.Grammar
