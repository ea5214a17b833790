import VirtualDom.Proofs.Forest
import VirtualDom.Proofs.Markup.Grammar

/-!
This module contains lexical markup: its names are of the grammar, its comments do not end early, and its
void elements are empty. All markup that the grammar derives is lexical, also without its blank texts.
-/

namespace VirtualDom.Markup

open Grammar

/-- Whether the grammar has the names in it, no comment ends early, and void elements are `childless`. -/
def Item.Lexical (childless : Prop) : Item → Prop
  | .element tag attributes =>
    IsTagName tag.toList ∧ (∀ entry ∈ attributes, IsAttributeName entry.1.toList) ∧
      (isVoid tag → childless)
  | .comment s => ¬ "-->".toList <:+: s.toList
  | .text _ | .cdata _ | .doctype _ | .instruction _ => True

def Lexical : Markup → Prop
  | .nil => True
  | .cons item children siblings =>
    item.Lexical (children = .nil) ∧ Lexical children ∧ Lexical siblings

theorem Item.Lexical.mono {item : Item} {p q : Prop} (h : item.Lexical p) (hpq : p → q)
    : item.Lexical q := by
  cases item with
  | element tag attributes => exact ⟨h.1, h.2.1, fun hv => hpq (h.2.2 hv)⟩
  | _ => exact h

theorem lexical_iff_roots {m : Markup}
    : Lexical m ↔ ∀ root ∈ m.roots, root.1.Lexical (root.2 = .nil) ∧ Lexical root.2 := by
  induction m with
  | nil => simp [Lexical, Forest.roots]
  | cons item children siblings _ ih => simp [Lexical, Forest.roots, ih, and_assoc]

theorem Lexical.dropBlankRoots {m : Markup} (h : Lexical m) : Lexical m.dropBlankRoots := by
  rw [Markup.dropBlankRoots, lexical_iff_roots, Forest.roots_ofRoots]
  intro root hroot
  exact lexical_iff_roots.1 h root (List.mem_filter.1 hroot).1

theorem Lexical.dropBlank {m : Markup} (h : Lexical m) : Lexical m.dropBlank := by
  induction m with
  | nil => trivial
  | cons item children siblings ihc ihs =>
    obtain ⟨hitem, hchildren, hsiblings⟩ := h
    rw [Markup.dropBlank]
    split
    . exact ihs hsiblings
    . refine ⟨hitem.mono ?_, ?_, ihs hsiblings⟩
      . rintro rfl
        simp [Markup.dropBlank]
      . split
        . exact hchildren
        . exact ihc hchildren

section Derivation

theorem Lexical.withText {m : Markup} (h : Lexical m) (lead : List Char)
    : Lexical (withText lead m) := by
  unfold Grammar.withText
  split
  . exact h
  . exact ⟨trivial, trivial, h⟩

theorem lexical_tag (tag : Tag) {childless : Prop} (h : tag.isVoid → childless)
    : tag.item.Lexical childless := by
  refine ⟨by simpa using tag.isName, ?_, h⟩
  intro entry hentry
  obtain ⟨a, -, rfl⟩ := List.mem_map.1 hentry
  simpa [Attribute.pair] using a.isName

theorem lexical_markup (t : Derivation) : Lexical t.markup := by
  induction t with
  | nil lead => exact Lexical.withText (m := .nil) trivial lead
  | leaf lead l rest ih =>
    apply Lexical.withText
    cases l with
    | special kind body first =>
      refine ⟨?_, trivial, ih⟩
      cases kind with
      | comment =>
        have hbody : (String.ofList body).toList = body := String.toList_ofList
        rw [Leaf.item, Kind.item, Item.Lexical, hbody]
        exact first
      | _ => trivial
    | closed tag => exact ⟨lexical_tag tag fun _ => rfl, trivial, ih⟩
    | void tag => exact ⟨lexical_tag tag fun _ => rfl, trivial, ih⟩
  | element lead tag not_void children close rest ihc ihr =>
    apply Lexical.withText
    refine ⟨lexical_tag tag ?_, ihc, ihr⟩
    rw [not_void]
    nofun

end Derivation

end VirtualDom.Markup
