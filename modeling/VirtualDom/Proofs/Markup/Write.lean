import VirtualDom.Proofs.Markup.Lexical
import VirtualDom.Proofs.Markup.Parse
import VirtualDom.Proofs.Markup.Reference

/-!
This module contains the proof that reading markup undoes writing content, except that it joins adjacent
texts: the HTML form of lexical content has a derivation, which stands for the content.
-/

namespace VirtualDom

open Markup.Grammar

namespace Markup

/-- `m` behind the text `run`, which is no node if it is empty. -/
def behind (run : String) (m : Markup) : Markup :=
  if run = "" then m else .cons (.text run) .nil m

/--
`m` behind the text `run`, with each row of adjacent texts joined to one. Only elements have children
then.
-/
def joinTexts (run : String) : Markup → Markup
  | .nil => behind run .nil
  | .cons (.text s) _ siblings => joinTexts (run ++ s) siblings
  | .cons (.element tag attributes) children siblings =>
    behind run (.cons (.element tag attributes) (joinTexts "" children) (joinTexts "" siblings))
  | .cons item _ siblings => behind run (.cons item .nil (joinTexts "" siblings))

end Markup

def Content.item : Content → Markup.Item
  | .element e => .element e.tag e.attributes
  | .text s => .text s
  | .comment s => .comment s

namespace Html

open Markup.Reference

def lead (run : String) : Run (· != '<') :=
  ⟨run.toList.flatMap escapeTextChar, by
    intro c hc
    rw [bne_iff_ne]
    rintro rfl
    exact not_mem_escapeText _ hc⟩

theorem lead_append (run s : String)
    : (lead (run ++ s)).1 = lead run ++ s.toList.flatMap escapeTextChar := by
  simp [lead]

theorem withText_lead (run : String) (m : Markup)
    : withText (lead run) m = Markup.behind run m := by
  unfold withText Markup.behind lead
  simp only [flatMap_eq_nil escaped_text, decode_flatMap escaped_text, String.toList_eq_nil_iff]

def attributeOf (name value : String) (isName : IsAttributeName name.toList) : Attribute where
  space := ⟨[' '], List.all_eq_true.1 rfl⟩
  name := name.toList
  value := some {
    before := ⟨[], by simp⟩
    after := ⟨[], by simp⟩
    mark := '"'
    body := value.toList.flatMap escapeValueChar
    isMark := .inl rfl
    not_mem := not_mem_escapeValue _ }
  space_ne_nil := by simp
  isName := isName

theorem attributeOf_text (name value : String) (isName : IsAttributeName name.toList)
    : (attributeOf name value isName).text = attributeText name value := by
  simp [attributeOf, Attribute.text, Attribute.valueText, Quotation.text, attributeText]

theorem attributeOf_pair (name value : String) (isName : IsAttributeName name.toList)
    : (attributeOf name value isName).pair = (name, value) := by
  simp [attributeOf, Attribute.pair, decode_flatMap escaped_value]

theorem exists_attributes {entries : List (String × String)}
    (h : ∀ entry ∈ entries, IsAttributeName entry.1.toList)
    : ∃ as : List Attribute,
        as.flatMap Attribute.text = entries.flatMap (fun (name, value) => attributeText name value) ∧
          as.map Attribute.pair = entries := by
  induction entries with
  | nil => exact ⟨[], rfl, rfl⟩
  | cons entry entries ih =>
    obtain ⟨as, htext, hpairs⟩ := ih fun entry' h' => h entry' (List.mem_cons_of_mem _ h')
    obtain ⟨name, value⟩ := entry
    refine ⟨attributeOf name value (h _ List.mem_cons_self) :: as, ?_, ?_⟩
    . rw [List.flatMap_cons, attributeOf_text, htext, List.flatMap_cons]
    . rw [List.map_cons, attributeOf_pair, hpairs]

theorem exists_startTag {e : Element} (hname : IsTagName e.tag.toList)
    (h : ∀ entry ∈ e.attributes, IsAttributeName entry.1.toList)
    : ∃ tag : Tag, tag.text false = startTag e ∧ tag.name = e.tag.toList ∧
        tag.item = .element e.tag e.attributes := by
  obtain ⟨as, htext, hpairs⟩ := exists_attributes h
  refine ⟨⟨e.tag.toList, as, ⟨[], by simp⟩, hname⟩, ?_, rfl, ?_⟩
  . simp [Tag.text, tail, closing, startTag, htext]
  . simp [Tag.item, Tag.pairs, hpairs]

theorem exists_derivation_write {F : Forest Content} (hF : Markup.Lexical (F.map Content.item))
    (run : String)
    : ∃ t : Derivation, t.text = lead run ++ write F ∧
        t.markup = Markup.joinTexts run (F.map Content.item) := by
  induction F generalizing run with
  | nil => exact ⟨.nil (lead run), by simp [Derivation.text, write], withText_lead run .nil⟩
  | cons content children siblings ihc ihs =>
    obtain ⟨hcontent, hchildren, hsiblings⟩ := hF
    cases content with
    | text s =>
      obtain ⟨t, htext, hmarkup⟩ := ihs hsiblings (run ++ s)
      refine ⟨t, ?_, hmarkup⟩
      rw [htext, lead_append, write, List.append_assoc]
    | comment s =>
      obtain ⟨t, htext, hmarkup⟩ := ihs hsiblings ""
      refine ⟨.leaf (lead run) (.special .comment s.toList hcontent) t, ?_, ?_⟩
      . rw [Derivation.text, htext]
        simp [Leaf.text, Kind.start, Kind.stop, write, lead]
      . rw [Derivation.markup, hmarkup, withText_lead]
        simp only [Leaf.item, Kind.item, Forest.map_cons, Content.item, Markup.joinTexts,
          String.ofList_toList]
    | element e =>
      obtain ⟨hname, hattributes, hvoid⟩ := hcontent
      obtain ⟨tag, htag, htagName, hitem⟩ := exists_startTag hname hattributes
      obtain ⟨t, htext, hmarkup⟩ := ihs hsiblings ""
      have isVoid_eq : tag.isVoid = Markup.isVoid e.tag := by
        rw [Tag.isVoid, htagName, String.ofList_toList]
      cases hv : Markup.isVoid e.tag with
      | true =>
        obtain rfl := Forest.map_eq_nil.1 (hvoid hv)
        refine ⟨.leaf (lead run) (.void tag (isVoid_eq.trans hv) none) t, ?_, ?_⟩
        . rw [Derivation.text, htext]
          simp [Leaf.text, htag, write, hv, Forest.isEmpty, lead]
        . rw [Derivation.markup, hmarkup, withText_lead]
          simp [Leaf.item, hitem, Content.item, Markup.joinTexts, Markup.behind]
      | false =>
        obtain ⟨c, hctext, hcmarkup⟩ := ihc hchildren ""
        refine ⟨.element (lead run) tag (isVoid_eq.trans hv) c ⟨[], by simp⟩ t, ?_, ?_⟩
        . rw [Derivation.text, htext, hctext]
          simp [Markup.Grammar.endTag, htagName, htag, write, hv, lead, Html.endTag]
        . rw [Derivation.markup, hmarkup, hcmarkup, withText_lead]
          simp [hitem, Content.item, Markup.joinTexts]

theorem parse_write {F : Forest Content} (hF : Markup.Lexical (F.map Content.item))
    : Markup.parse (.ofList (write F)) = .ok (Markup.joinTexts "" (F.map Content.item)) := by
  obtain ⟨t, htext, hmarkup⟩ := exists_derivation_write hF ""
  rw [← hmarkup, ← parse_text, htext]
  rfl

end Html

end VirtualDom
