import VirtualDom.Proofs.Markup.Tag

/-!
This module contains the reading of tokens: each token is read off the text that the grammar spells it
as, and off no other text.
-/

namespace VirtualDom.Markup.Grammar

open Text

variable {cs name rest body : List Char} {closed : Bool} {item : Item} {token : Token}

section EndTags

theorem endTag_append (name : List Char) (space : Run isSpace) (rest : List Char)
    : endTag name space ++ rest = '<' :: '/' :: (name ++ (space ++ '>' :: rest)) := by
  simp [endTag]

theorem endTag?_eq_some
    : Token.endTag? cs = some (name, rest)
        ↔ (∀ c ∈ name, isNameChar c) ∧ ∃ space, endTag name space ++ rest = cs := by
  constructor
  . intro h
    unfold Token.endTag? at h
    split at h
    . next inner =>
      split at h
      . next hskip =>
        cases h
        refine ⟨fun _ => List.mem_takeWhile_imp, spaceOf (inner.dropWhile isNameChar), ?_⟩
        rw [endTag_append, ← hskip, spaceOf_append_skipSpace, List.takeWhile_append_dropWhile]
      . cases h
    . cases h
  . rintro ⟨hname, space, rfl⟩
    have hstops : Stops isNameChar (space ++ '>' :: rest) :=
      stops_space (fun _ => not_isNameChar_of_isSpace) space (stops_cons.2 (by decide))
    have hskip : skipSpace (space ++ '>' :: rest) = '>' :: rest :=
      skipSpace_append space (stops_cons.2 (by decide))
    simp [endTag_append, Token.endTag?, takeWhile_append hname hstops, dropWhile_append hname hstops,
      hskip]

theorem endTag?_of_ne {c : Char} (h : c ≠ '/') : Token.endTag? ('<' :: c :: cs) = none := by
  unfold Token.endTag?
  split
  . next heq => exact absurd (List.cons.inj (List.cons.inj heq).2).1 h
  . rfl

/-- The text does not start with an end tag that a void element in front of it would take. -/
def NoVoidEnd (cs : List Char) : Prop :=
  ∀ name rest, Token.endTag? cs = some (name, rest) → isVoid (.ofList name) = false

theorem skipEndTag_endTag (hname : ∀ c ∈ name, isNameChar c) (space : Run isSpace)
    (rest : List Char) : Token.skipEndTag name (endTag name space ++ rest) = rest := by
  simp [Token.skipEndTag, endTag?_eq_some.2 ⟨hname, space, rfl⟩]

theorem skipEndTag_of_noVoidEnd (hname : isVoid (.ofList name)) (h : NoVoidEnd cs)
    : Token.skipEndTag name cs = cs := by
  unfold Token.skipEndTag
  split
  . next name' rest hread =>
    rw [if_neg]
    rintro rfl
    rw [h _ _ hread] at hname
    cases hname
  . rfl

theorem exists_close (name cs : List Char)
    : ∃ close : Option (Run isSpace),
        close.elim [] (endTag name) ++ Token.skipEndTag name cs = cs := by
  unfold Token.skipEndTag
  split
  . next hread =>
    split
    . next heq =>
      subst heq
      obtain ⟨-, space, hspace⟩ := endTag?_eq_some.1 hread
      exact ⟨some space, hspace⟩
    . exact ⟨none, rfl⟩
  . exact ⟨none, rfl⟩

end EndTags

section StartTags

theorem IsTagName.exists_cons (h : IsTagName name) : ∃ c cs, name = c :: cs ∧ isNameStart c := by
  cases name with
  | nil => exact absurd h.1 (by decide)
  | cons c cs => exact ⟨c, cs, rfl, by simpa using h.1⟩

theorem isTagName_takeWhile (h : cs.head?.any isNameStart) : IsTagName (cs.takeWhile isNameChar) := by
  constructor
  . cases cs with
    | nil => cases h
    | cons c cs =>
      have hc : isNameStart c := by simpa using h
      simpa [isNameChar_of_isNameStart hc] using hc
  . exact fun _ => List.mem_takeWhile_imp

def Tag.reading (tag : Tag) (closed : Bool) (rest : List Char) : Token × List Char :=
  if closed then (.leaf tag.item, rest)
  else if tag.isVoid then (.leaf tag.item, Token.skipEndTag tag.name rest)
  else (.startTag (.ofList tag.name) tag.pairs, rest)

theorem tag_eq (tag : Tag) (closed : Bool) (rest : List Char)
    : Token.tag (tag.name ++ (tail tag.attributes tag.space closed ++ rest))
        = .ok (tag.reading closed rest) := by
  have hstops : Stops isNameChar (tail tag.attributes tag.space closed ++ rest) :=
    stops_tail (fun _ => not_isNameChar_of_isSpace) (by decide) (by decide) _ _
  obtain ⟨c, cs, hname, hc⟩ := tag.isName.exists_cons
  have hhead : (tag.name ++ (tail tag.attributes tag.space closed ++ rest)).head?.any isNameStart := by
    simpa [hname] using hc
  unfold Token.tag
  rw [if_pos hhead, takeWhile_append tag.isName.2 hstops, dropWhile_append tag.isName.2 hstops]
  simp only [attributes_tail, Tag.reading, Tag.isVoid, Tag.item, Tag.pairs]
  cases closed with
  | true => rfl
  | false => by_cases hvoid : isVoid (.ofList tag.name) <;> simp [hvoid]

theorem exists_tag {read : Token × List Char} (h : Token.tag cs = .ok read)
    : ∃ (tag : Tag) (closed : Bool) (rest : List Char),
        tag.name ++ (tail tag.attributes tag.space closed ++ rest) = cs
          ∧ tag.reading closed rest = read := by
  have happend := List.takeWhile_append_dropWhile (p := isNameChar) (l := cs)
  have hcs : ∃ (tag : Tag) (closed : Bool) (rest : List Char),
      tag.name ++ (tail tag.attributes tag.space closed ++ rest) = cs := by
    unfold Token.tag at h
    split at h
    . next hhead =>
      dsimp only at h
      split at h
      . cases h
      . next hat =>
        obtain ⟨as, space, htail⟩ := exists_tail hat
        rw [← htail] at happend
        exact ⟨⟨_, as, space, isTagName_takeWhile hhead⟩, _, _, happend⟩
    . cases h
  obtain ⟨tag, closed, rest, rfl⟩ := hcs
  refine ⟨tag, closed, rest, rfl, ?_⟩
  rw [tag_eq] at h
  exact Except.ok.inj h

end StartTags

section Specials

variable {keyword : List Char}

theorem Kind.isMark_stop (kind : Kind) : IsMark kind.stop := by
  cases kind with
  | comment => exact ⟨['-', '-'], '>', rfl, by decide⟩
  | cdata => exact ⟨[']', ']'], '>', rfl, by decide⟩
  | doctype => exact isMark_singleton '>'
  | instruction => exact ⟨['?'], '>', rfl, by decide⟩

theorem doctype?_append (kind : keyword.map Char.toLower = ['d', 'o', 'c', 't', 'y', 'p', 'e'])
    (cs : List Char) : Token.doctype? ('<' :: '!' :: (keyword ++ cs)) = splitAt? ['>'] cs := by
  have hlength : keyword.length = 7 := by
    simpa using congrArg List.length kind
  simp [Token.doctype?, List.take_left' hlength, List.drop_left' hlength, kind]

theorem exists_keyword (h : Token.doctype? cs = some (body, rest))
    : ∃ keyword after, keyword.map Char.toLower = ['d', 'o', 'c', 't', 'y', 'p', 'e'] ∧
        cs = '<' :: '!' :: (keyword ++ after) := by
  unfold Token.doctype? at h
  split at h
  . next inner =>
    split at h
    . next hkeyword => exact ⟨inner.take 7, inner.drop 7, hkeyword, by simp⟩
    . cases h
  . cases h

theorem exists_cons_of_keyword
    (h : keyword.map Char.toLower = ['d', 'o', 'c', 't', 'y', 'p', 'e'])
    : ∃ c cs, keyword = c :: cs ∧ c ≠ '-' ∧ c ≠ '[' := by
  cases keyword with
  | nil => cases h
  | cons c cs =>
    have hc : c.toLower = 'd' := (List.cons.inj h).1
    refine ⟨c, cs, rfl, ?_, ?_⟩
    . rintro rfl
      exact absurd hc (by decide)
    . rintro rfl
      exact absurd hc (by decide)

theorem special?_kind (kind : Kind) (first : ¬ kind.stop <:+: body) (rest : List Char)
    : Token.special? (kind.start ++ (body ++ (kind.stop ++ rest)))
        = some (kind.item body, rest) := by
  have hsplit : splitAt? kind.stop (body ++ (kind.stop ++ rest)) = some (body, rest) :=
    (splitAt?_eq_some kind.isMark_stop).2 ⟨rfl, first⟩
  unfold Token.special?
  cases kind with
  | comment =>
    simp only [Kind.start, Kind.stop, List.cons_append, List.nil_append] at hsplit ⊢
    simp [enclosed?, dropFront?, hsplit, Kind.item]
  | cdata =>
    simp only [Kind.start, Kind.stop, List.cons_append, List.nil_append] at hsplit ⊢
    simp [enclosed?, dropFront?, hsplit, Kind.item]
  | doctype keyword isKeyword =>
    have hdoctype := doctype?_append isKeyword (body ++ ('>' :: rest))
    obtain ⟨c, cs, rfl, hdash, hbracket⟩ := exists_cons_of_keyword isKeyword
    simp only [Kind.start, Kind.stop, List.cons_append, List.nil_append] at hsplit hdoctype ⊢
    simp [enclosed?, dropFront?, hdash.symm, hbracket.symm, hdoctype, hsplit, Kind.item]
  | instruction =>
    simp only [Kind.start, Kind.stop, List.cons_append, List.nil_append] at hsplit ⊢
    simp [enclosed?, dropFront?, Token.doctype?, hsplit, Kind.item]

theorem special?_eq_some
    : Token.special? cs = some (item, rest)
        ↔ ∃ (kind : Kind) (body : List Char), ¬ kind.stop <:+: body ∧
            kind.start ++ (body ++ (kind.stop ++ rest)) = cs ∧ kind.item body = item := by
  constructor
  . intro h
    unfold Token.special? at h
    split at h
    . next he =>
      cases h
      obtain ⟨hcs, first⟩ := (enclosed?_eq_some Kind.comment.isMark_stop).1 he
      exact ⟨.comment, _, first, hcs, rfl⟩
    . split at h
      . next he =>
        cases h
        obtain ⟨hcs, first⟩ := (enclosed?_eq_some Kind.cdata.isMark_stop).1 he
        exact ⟨.cdata, _, first, hcs, rfl⟩
      . split at h
        . next hd =>
          cases h
          obtain ⟨keyword, after, isKeyword, rfl⟩ := exists_keyword hd
          rw [doctype?_append isKeyword] at hd
          obtain ⟨hcs, first⟩ := (splitAt?_eq_some (isMark_singleton '>')).1 hd
          refine ⟨.doctype keyword isKeyword, _, first, ?_, rfl⟩
          rw [← hcs]
          rfl
        . split at h
          . next he =>
            cases h
            obtain ⟨hcs, first⟩ := (enclosed?_eq_some Kind.instruction.isMark_stop).1 he
            exact ⟨.instruction, _, first, hcs, rfl⟩
          . cases h
  . rintro ⟨kind, body, first, rfl, rfl⟩
    exact special?_kind kind first rest

theorem special?_of_ne {c : Char} (hexclamation : c ≠ '!') (hquestion : c ≠ '?')
    : Token.special? ('<' :: c :: cs) = none := by
  simp [Token.special?, enclosed?, dropFront?, Token.doctype?, hexclamation.symm, hquestion.symm,
    hexclamation]

end Specials

section Reading

theorem read_lead {lead : List Char} (hne : lead ≠ []) (hlead : ∀ c ∈ lead, c != '<')
    (hrest : Stops (· != '<') rest)
    : Token.read (lead ++ rest)
        = .ok (.leaf (.text (Reference.decode (.ofList lead))), rest) := by
  obtain ⟨c, cs, rfl⟩ := List.exists_cons_of_ne_nil hne
  have hc : c ≠ '<' := by simpa using hlead c List.mem_cons_self
  unfold Token.read
  split
  . next heq => exact absurd (List.cons.inj heq).1 hc
  . rw [takeWhile_append hlead hrest, dropWhile_append hlead hrest]

theorem read_special (kind : Kind) (first : ¬ kind.stop <:+: body) (rest : List Char)
    : Token.read (kind.start ++ (body ++ (kind.stop ++ rest)))
        = .ok (.leaf (kind.item body), rest) := by
  have h := special?_kind kind first rest
  cases kind <;> simp only [Kind.start, List.cons_append, List.nil_append] at h ⊢ <;>
    simp [Token.read, h]

theorem read_endTag (hname : ∀ c ∈ name, isNameChar c) (space : Run isSpace) (rest : List Char)
    : Token.read (endTag name space ++ rest) = .ok (.endTag (.ofList name), rest) := by
  have h : Token.endTag? (endTag name space ++ rest) = some (name, rest) :=
    endTag?_eq_some.2 ⟨hname, space, rfl⟩
  rw [endTag_append] at h ⊢
  simp [Token.read, special?_of_ne, h]

theorem read_tag (tag : Tag) (closed : Bool) (rest : List Char)
    : Token.read (tag.text closed ++ rest) = .ok (tag.reading closed rest) := by
  have h := tag_eq tag closed rest
  have htext : tag.text closed ++ rest
      = '<' :: (tag.name ++ (tail tag.attributes tag.space closed ++ rest)) := by
    simp [Tag.text]
  obtain ⟨c, cs, hname, hc⟩ := tag.isName.exists_cons
  have hne : ∀ d, isNameStart d = false → c ≠ d := by
    rintro d hd rfl
    rw [hc] at hd
    cases hd
  rw [htext]
  rw [hname, List.cons_append] at h ⊢
  simp [Token.read, special?_of_ne (hne '!' (by decide)) (hne '?' (by decide)),
    endTag?_of_ne (hne '/' (by decide)), h]

theorem read_leaf (l : Leaf) (hrest : NoVoidEnd rest)
    : Token.read (l.text ++ rest) = .ok (.leaf l.item, rest) := by
  cases l with
  | special kind body first =>
    simpa [Leaf.text, Leaf.item] using read_special kind first rest
  | closed tag => exact read_tag tag true rest
  | void tag isVoid close =>
    rw [Leaf.text, List.append_assoc, read_tag]
    cases close with
    | none => simp [Tag.reading, isVoid, Leaf.item, skipEndTag_of_noVoidEnd isVoid hrest]
    | some space => simp [Tag.reading, isVoid, Leaf.item, skipEndTag_endTag tag.isName.2]

theorem read_startTag (tag : Tag) (not_void : tag.isVoid = false) (rest : List Char)
    : Token.read (tag.text false ++ rest)
        = .ok (.startTag (.ofList tag.name) tag.pairs, rest) := by
  simp [read_tag, Tag.reading, not_void]

inductive Spells : Token → List Char → Prop where
  | leaf (l : Leaf) : Spells (.leaf l.item) l.text
  | startTag (tag : Tag) (not_void : tag.isVoid = false)
    : Spells (.startTag (.ofList tag.name) tag.pairs) (tag.text false)
  | endTag (name : List Char) (isName : ∀ c ∈ name, isNameChar c) (space : Run isSpace)
    : Spells (.endTag (.ofList name)) (endTag name space)

theorem exists_spelling (h : Token.read ('<' :: cs) = .ok (token, rest))
    : ∃ text, Spells token text ∧ text ++ rest = '<' :: cs := by
  unfold Token.read at h
  split at h
  . next heq =>
    cases heq
    split at h
    . next hspecial =>
      cases h
      obtain ⟨kind, body, first, hcs, rfl⟩ := special?_eq_some.1 hspecial
      refine ⟨_, .leaf (.special kind body first), ?_⟩
      simpa [Leaf.text] using hcs
    . split at h
      . next hend =>
        cases h
        obtain ⟨isName, space, hcs⟩ := endTag?_eq_some.1 hend
        exact ⟨_, .endTag _ isName space, hcs⟩
      . obtain ⟨tag, closed, after, rfl, hreading⟩ := exists_tag h
        have htext : ∀ closed, tag.text closed ++ after
            = '<' :: (tag.name ++ (tail tag.attributes tag.space closed ++ after)) := by
          simp [Tag.text]
        unfold Tag.reading at hreading
        split at hreading
        . next hclosed =>
          cases hreading
          exact ⟨_, .leaf (.closed tag), hclosed ▸ htext true⟩
        . next hclosed =>
          rw [Bool.not_eq_true] at hclosed
          subst hclosed
          split at hreading
          . next isVoid =>
            cases hreading
            obtain ⟨close, hclose⟩ := exists_close tag.name after
            refine ⟨_, .leaf (.void tag isVoid close), ?_⟩
            rw [Leaf.text, List.append_assoc, hclose, htext]
          . next not_void =>
            cases hreading
            exact ⟨_, .startTag tag (by simpa using not_void), htext false⟩
  . next hne => exact absurd rfl (hne cs)

end Reading

end VirtualDom.Markup.Grammar
