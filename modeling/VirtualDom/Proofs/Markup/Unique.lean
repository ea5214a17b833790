import VirtualDom.Proofs.Markup.Token

/-!
This module contains the uniqueness of derivations: what is in front of a text has one derivation at
most, given what may follow it.
-/

namespace VirtualDom.Markup.Grammar

open Text

variable {name name' body body' rest rest' r r' : List Char} {closed closed' : Bool}
  {space space' : Run isSpace}

section Tags

theorem run_inj {p : Char → Bool} {a b : Run p} (ha : Stops p rest) (hb : Stops p rest')
    (h : a ++ rest = b ++ rest') : a = b ∧ rest = rest' := by
  obtain ⟨hab, hrest⟩ := run_append_inj a.2 b.2 ha hb h
  exact ⟨Subtype.ext hab, hrest⟩

theorem Quotation.text_inj {q q' : Quotation} (h : q.text ++ rest = q'.text ++ rest')
    : q = q' ∧ rest = rest' := by
  obtain ⟨before, after, mark, body, isMark, not_mem⟩ := q
  obtain ⟨before', after', mark', body', isMark', not_mem'⟩ := q'
  have stops_mark : ∀ {mark : Char} {more}, mark = '"' ∨ mark = '\'' → Stops isSpace (mark :: more) := by
    rintro mark more (rfl | rfl) <;> exact stops_cons.2 (by decide)
  have all_ne : ∀ {mark : Char} {body : List Char}, mark ∉ body → ∀ c ∈ body, c != mark := by
    intro mark body hmark c hc
    rw [bne_iff_ne]
    rintro rfl
    exact hmark hc
  simp only [Quotation.text, List.append_assoc, List.cons_append, List.nil_append] at h
  obtain ⟨rfl, hsign⟩ := run_inj (stops_cons.2 (by decide)) (stops_cons.2 (by decide)) h
  obtain ⟨rfl, hquoted⟩ :=
    run_inj (stops_mark isMark) (stops_mark isMark') (List.cons.inj hsign).2
  obtain ⟨rfl, hbody⟩ := List.cons.inj hquoted
  obtain ⟨rfl, hmark⟩ := run_append_inj (all_ne not_mem) (all_ne not_mem') (stops_cons.2 (by simp))
    (stops_cons.2 (by simp)) hbody
  exact ⟨rfl, (List.cons.inj hmark).2⟩

theorem valueText_inj {v v' : Option Quotation} (hrest : value? rest = none)
    (hrest' : value? rest' = none)
    (h : v.elim [] Quotation.text ++ rest = v'.elim [] Quotation.text ++ rest')
    : v = v' ∧ rest = rest' := by
  cases v with
  | none =>
    cases v' with
    | none => exact ⟨rfl, h⟩
    | some q' =>
      simp only [Option.elim_none, Option.elim_some, List.nil_append] at h
      rw [h, value?_text] at hrest
      cases hrest
  | some q =>
    cases v' with
    | none =>
      simp only [Option.elim_none, Option.elim_some, List.nil_append] at h
      rw [← h, value?_text] at hrest'
      cases hrest'
    | some q' =>
      obtain ⟨rfl, hr⟩ := Quotation.text_inj h
      exact ⟨rfl, hr⟩

theorem IsAttributeName.stops_isSpace (h : IsAttributeName name) (more : List Char)
    : Stops isSpace (name ++ more) := by
  obtain ⟨c, cs, rfl, hc⟩ := h.exists_cons
  exact stops_cons.2 (isAttributeChar_iff.1 hc).1

theorem Attribute.text_inj {a a' : Attribute} (hrest : Stops isAttributeChar rest)
    (hrest' : Stops isAttributeChar rest') (hvalue : value? rest = none)
    (hvalue' : value? rest' = none) (h : a.text ++ rest = a'.text ++ rest')
    : a = a' ∧ rest = rest' := by
  have hstops := a.stops_valueText hrest
  have hstops' := a'.stops_valueText hrest'
  obtain ⟨space, name, value, space_ne_nil, isName⟩ := a
  obtain ⟨space', name', value', space_ne_nil', isName'⟩ := a'
  simp only [Attribute.text, List.append_assoc] at h
  obtain ⟨rfl, hname⟩ := run_inj (isName.stops_isSpace _) (isName'.stops_isSpace _) h
  obtain ⟨rfl, hv⟩ := run_append_inj isName.2 isName'.2 hstops hstops' hname
  obtain ⟨rfl, hr⟩ := valueText_inj hvalue hvalue' hv
  exact ⟨rfl, hr⟩

theorem tail_cons_ne_nil (a : Attribute) (as : List Attribute)
    : tail (a :: as) space closed ++ rest ≠ tail [] space' closed' ++ rest' := by
  intro h
  have h := congrArg skipSpace h
  rw [skipSpace_tail_nil, tail_cons, Attribute.text, List.append_assoc, List.append_assoc,
    List.append_assoc, skipSpace_append _ (a.isName.stops_isSpace _)] at h
  obtain ⟨c, cs, hname, hc⟩ := a.isName.exists_cons
  have hstop : Stops isAttributeChar (closing closed' ++ rest') :=
    stops_closing (by decide) (by decide)
  rw [← h, hname, List.cons_append, stops_cons, hc] at hstop
  cases hstop

theorem tail_inj {as as' : List Attribute}
    (h : tail as space closed ++ rest = tail as' space' closed' ++ rest')
    : as = as' ∧ space = space' ∧ closed = closed' ∧ rest = rest' := by
  induction as generalizing as' with
  | nil =>
    cases as' with
    | nil =>
      simp only [tail, List.flatMap_nil, List.nil_append, List.append_assoc] at h
      obtain ⟨rfl, hclosing⟩ := run_inj (stops_closing (by decide) (by decide))
        (stops_closing (by decide) (by decide)) h
      have hend := congrArg tagEnd? hclosing
      rw [tagEnd?_closing, tagEnd?_closing] at hend
      cases hend
      exact ⟨rfl, rfl, rfl, rfl⟩
    | cons a' as' => exact absurd h.symm (tail_cons_ne_nil a' as')
  | cons a as ih =>
    cases as' with
    | nil => exact absurd h (tail_cons_ne_nil a as)
    | cons a' as' =>
      have stops : ∀ as space closed rest, Stops isAttributeChar (tail as space closed ++ rest) := by
        intro as space closed rest
        exact stops_tail (fun _ => not_isAttributeChar_of_isSpace) (by decide) (by decide) as space
      rw [tail_cons, tail_cons, List.append_assoc, List.append_assoc] at h
      obtain ⟨rfl, hmore⟩ := Attribute.text_inj (stops _ _ _ _) (stops _ _ _ _) (value?_tail ..)
        (value?_tail ..) h
      obtain ⟨rfl, rfl, rfl, hr⟩ := ih hmore
      exact ⟨rfl, rfl, rfl, hr⟩

theorem Tag.text_inj {tag tag' : Tag} (h : tag.text closed ++ rest = tag'.text closed' ++ rest')
    : tag = tag' ∧ closed = closed' ∧ rest = rest' := by
  obtain ⟨name, attributes, space, isName⟩ := tag
  obtain ⟨name', attributes', space', isName'⟩ := tag'
  have stops : ∀ as space closed rest, Stops isNameChar (tail as space closed ++ rest) := by
    intro as space closed rest
    exact stops_tail (fun _ => not_isNameChar_of_isSpace) (by decide) (by decide) as space
  simp only [Tag.text, List.cons_append, List.append_assoc] at h
  obtain ⟨rfl, htail⟩ :=
    run_append_inj isName.2 isName'.2 (stops _ _ _ _) (stops _ _ _ _) (List.cons.inj h).2
  obtain ⟨rfl, rfl, rfl, hr⟩ := tail_inj htail
  exact ⟨rfl, rfl, hr⟩

theorem endTag_inj (hname : ∀ c ∈ name, isNameChar c) (hname' : ∀ c ∈ name', isNameChar c)
    (h : endTag name space ++ rest = endTag name' space' ++ rest')
    : name = name' ∧ space = space' ∧ rest = rest' := by
  have stops : ∀ (space : Run isSpace) rest, Stops isNameChar (space ++ '>' :: rest) := by
    intro space rest
    exact stops_space (fun _ => not_isNameChar_of_isSpace) space (stops_cons.2 (by decide))
  rw [endTag_append, endTag_append] at h
  obtain ⟨rfl, hspace⟩ := run_append_inj hname hname' (stops _ _) (stops _ _)
    (List.cons.inj (List.cons.inj h).2).2
  obtain ⟨rfl, hend⟩ := run_inj (stops_cons.2 (by decide)) (stops_cons.2 (by decide)) hspace
  exact ⟨rfl, rfl, (List.cons.inj hend).2⟩

end Tags

section Leaves

theorem Kind.text_inj {kind kind' : Kind} (first : ¬ kind.stop <:+: body)
    (first' : ¬ kind'.stop <:+: body')
    (h : kind.start ++ (body ++ kind.stop) = kind'.start ++ (body' ++ kind'.stop))
    : kind = kind' ∧ body = body' := by
  have hread := special?_kind kind first []
  have hread' := special?_kind kind' first' []
  simp only [List.append_nil] at hread hread'
  rw [h, hread'] at hread
  have hitem := (Prod.mk.inj (Option.some.inj hread)).1
  cases kind with
  | doctype keyword isKeyword =>
    cases kind' with
    | doctype keyword' isKeyword' =>
      have hlength : keyword.length = keyword'.length := by
        rw [← List.length_map (f := Char.toLower), isKeyword, ← isKeyword', List.length_map]
      simp only [Kind.start, Kind.stop, List.cons_append, List.cons.injEq, true_and] at h
      obtain ⟨rfl, hbody⟩ := List.append_inj h hlength
      exact ⟨rfl, List.append_cancel_right hbody⟩
    | _ => cases hitem
  | _ =>
    cases kind' <;>
      first
      | exact ⟨rfl, List.append_cancel_right (List.append_cancel_left h)⟩
      | cases hitem

theorem endTag_ne_nil : endTag name space ≠ [] := by
  simp [endTag]

theorem Leaf.text_inj {l l' : Leaf} (hitem : l.item = l'.item) (h : l.text = l'.text) : l = l' := by
  cases l with
  | special kind body first =>
    cases l' with
    | special kind' body' first' =>
      obtain ⟨rfl, rfl⟩ := Kind.text_inj first first' h
      rfl
    | _ => cases kind <;> cases hitem
  | closed tag =>
    cases l' with
    | special kind' _ _ => cases kind' <;> cases hitem
    | closed tag' =>
      obtain ⟨rfl, -, -⟩ := Tag.text_inj (congrArg (· ++ []) h)
      rfl
    | void tag' _ close' =>
      have h : tag.text true ++ [] = tag'.text false ++ close'.elim [] (endTag tag'.name) := by
        simpa [Leaf.text] using h
      obtain ⟨-, hclosed, -⟩ := Tag.text_inj h
      cases hclosed
  | void tag isVoid close =>
    cases l' with
    | special kind' _ _ => cases kind' <;> cases hitem
    | closed tag' =>
      have h : tag.text false ++ close.elim [] (endTag tag.name) = tag'.text true ++ [] := by
        simpa [Leaf.text] using h
      obtain ⟨-, hclosed, -⟩ := Tag.text_inj h
      cases hclosed
    | void tag' isVoid' close' =>
      obtain ⟨rfl, -, hclose⟩ := Tag.text_inj h
      cases close with
      | none =>
        cases close' with
        | none => rfl
        | some space' => exact absurd hclose.symm endTag_ne_nil
      | some space =>
        cases close' with
        | none => exact absurd hclose endTag_ne_nil
        | some space' =>
          obtain ⟨-, rfl, -⟩ := endTag_inj tag.isName.2 tag.isName.2 (congrArg (· ++ []) hclose)
          rfl

end Leaves

section Rows

/-- What can follow a row of nodes: nothing, or the end tag of the element around it. -/
inductive Ends : List Char → Prop where
  | nil : Ends []
  | endTag (tag : Tag) (not_void : tag.isVoid = false) (space : Run isSpace) (rest : List Char)
    : Ends (endTag tag.name space ++ rest)

theorem Ends.stops (h : Ends r) : Stops (· != '<') r := by
  cases h with
  | nil => exact stops_nil
  | endTag => exact stops_cons.2 (by decide)

theorem Leaf.exists_cons (l : Leaf) : ∃ cs, l.text = '<' :: cs := by
  cases l with
  | special kind => cases kind <;> exact ⟨_, rfl⟩
  | closed tag => exact ⟨_, rfl⟩
  | void tag => exact ⟨_, rfl⟩

theorem Leaf.stops (l : Leaf) (rest : List Char) : Stops (· != '<') (l.text ++ rest) := by
  obtain ⟨cs, hcs⟩ := l.exists_cons
  rw [hcs]
  exact stops_cons.2 (by decide)

theorem Tag.stops (tag : Tag) (rest : List Char) : Stops (· != '<') (tag.text closed ++ rest) :=
  stops_cons.2 (by decide)

theorem token_inj {cs cs' : List Char} {token token' : Token}
    (h : Token.read cs = .ok (token, rest)) (h' : Token.read cs' = .ok (token', rest'))
    (hcs : cs = cs') : token = token' ∧ rest = rest' := by
  subst hcs
  exact Prod.mk.inj (Except.ok.inj (h.symm.trans h'))

theorem Ends.ne_leaf (h : Ends r) (l : Leaf) (hrest : NoVoidEnd rest) : r ≠ l.text ++ rest := by
  intro heq
  cases h with
  | nil =>
    obtain ⟨cs, hcs⟩ := l.exists_cons
    simp [hcs] at heq
  | endTag tag _ space more =>
    cases (token_inj (read_endTag tag.isName.2 space more) (read_leaf l hrest) heq).1

theorem Ends.ne_startTag (h : Ends r) (tag : Tag) (not_void : tag.isVoid = false)
    : r ≠ tag.text false ++ rest := by
  intro heq
  cases h with
  | nil => cases heq
  | endTag tag' _ space more =>
    cases (token_inj (read_endTag tag'.isName.2 space more) (read_startTag tag not_void rest) heq).1

theorem Leaf.ne_startTag (l : Leaf) (hrest : NoVoidEnd rest) (tag : Tag)
    (not_void : tag.isVoid = false) : l.text ++ rest ≠ tag.text false ++ rest' := by
  intro heq
  cases (token_inj (read_leaf l hrest) (read_startTag tag not_void rest') heq).1

namespace Derivation

theorem noVoidEnd (t : Derivation) (hr : Ends r) : NoVoidEnd (t.text ++ r) := by
  have of_lead : ∀ {lead : Run (· != '<')} {cs}, NoVoidEnd cs → NoVoidEnd (lead ++ cs) := by
    rintro ⟨lead, hlead⟩ cs hcs
    cases lead with
    | nil => exact hcs
    | cons c lead =>
      intro name rest hread
      obtain ⟨-, space, heq⟩ := endTag?_eq_some.1 hread
      cases (List.cons.inj heq).1
      exact absurd (hlead '<' List.mem_cons_self) (by decide)
  induction t generalizing r with
  | nil lead =>
    apply of_lead
    intro name rest hread
    obtain ⟨hname, space, heq⟩ := endTag?_eq_some.1 hread
    cases hr with
    | nil => cases heq
    | endTag tag not_void =>
      obtain ⟨rfl, -, -⟩ := endTag_inj hname tag.isName.2 heq
      exact not_void
  | leaf lead l t ih =>
    simp only [text, List.append_assoc]
    apply of_lead
    intro name rest hread
    obtain ⟨hname, space, heq⟩ := endTag?_eq_some.1 hread
    cases (token_inj (read_endTag hname space rest) (read_leaf l (ih hr)) heq).1
  | element lead tag not_void _ _ _ _ ih =>
    simp only [text, List.append_assoc]
    apply of_lead
    intro name rest hread
    obtain ⟨hname, space, heq⟩ := endTag?_eq_some.1 hread
    cases (token_inj (read_endTag hname space rest) (read_startTag tag not_void _) heq).1

/-- The end tag is no part of what is in front of it: the row ends where what follows it starts. -/
theorem text_append_inj {t t' : Derivation} (hr : Ends r) (hr' : Ends r')
    (h : t.text ++ r = t'.text ++ r') : t = t' ∧ r = r' := by
  induction t generalizing t' r r' with
  | nil lead =>
    cases t' with
    | nil lead' =>
      obtain ⟨rfl, hnode⟩ := run_inj hr.stops hr'.stops h
      exact ⟨rfl, hnode⟩
    | leaf lead' l' t' =>
      simp only [text, List.append_assoc] at h
      obtain ⟨rfl, hnode⟩ := run_inj hr.stops (l'.stops _) h
      exact absurd hnode (hr.ne_leaf l' (t'.noVoidEnd hr'))
    | element lead' tag' not_void' children' close' t' =>
      simp only [text, List.append_assoc] at h
      obtain ⟨rfl, hnode⟩ := run_inj hr.stops (tag'.stops _) h
      exact absurd hnode (hr.ne_startTag tag' not_void')
  | leaf lead l t ih =>
    have hnext := t.noVoidEnd hr
    cases t' with
    | nil lead' =>
      simp only [text, List.append_assoc] at h
      obtain ⟨rfl, hnode⟩ := run_inj (l.stops _) hr'.stops h
      exact absurd hnode.symm (hr'.ne_leaf l hnext)
    | leaf lead' l' t' =>
      simp only [text, List.append_assoc] at h
      obtain ⟨rfl, hnode⟩ := run_inj (l.stops _) (l'.stops _) h
      obtain ⟨htoken, hrest⟩ :=
        token_inj (read_leaf l hnext) (read_leaf l' (t'.noVoidEnd hr')) hnode
      rw [hrest] at hnode
      cases Leaf.text_inj (Token.leaf.inj htoken) (List.append_cancel_right hnode)
      obtain ⟨rfl, hends⟩ := ih hr hr' hrest
      exact ⟨rfl, hends⟩
    | element lead' tag' not_void' children' close' t' =>
      simp only [text, List.append_assoc] at h
      obtain ⟨rfl, hnode⟩ := run_inj (l.stops _) (tag'.stops _) h
      exact absurd hnode (l.ne_startTag hnext tag' not_void')
  | element lead tag not_void children close t ihc iht =>
    cases t' with
    | nil lead' =>
      simp only [text, List.append_assoc] at h
      obtain ⟨rfl, hnode⟩ := run_inj (tag.stops _) hr'.stops h
      exact absurd hnode.symm (hr'.ne_startTag tag not_void)
    | leaf lead' l' t' =>
      simp only [text, List.append_assoc] at h
      obtain ⟨rfl, hnode⟩ := run_inj (tag.stops _) (l'.stops _) h
      exact absurd hnode.symm (l'.ne_startTag (t'.noVoidEnd hr') tag not_void)
    | element lead' tag' not_void' children' close' t' =>
      simp only [text, List.append_assoc] at h
      obtain ⟨rfl, hnode⟩ := run_inj (tag.stops _) (tag'.stops _) h
      obtain ⟨rfl, -, hinner⟩ := Tag.text_inj hnode
      obtain ⟨rfl, hclose⟩ :=
        ihc (.endTag tag not_void close _) (.endTag tag not_void close' _) hinner
      obtain ⟨-, rfl, hrest⟩ := endTag_inj tag.isName.2 tag.isName.2 hclose
      obtain ⟨rfl, hends⟩ := iht hr hr' hrest
      exact ⟨rfl, hends⟩

end Derivation

end Rows

end VirtualDom.Markup.Grammar
