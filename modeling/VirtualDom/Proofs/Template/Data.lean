import VirtualDom.Proofs.Markup.Write
import VirtualDom.Proofs.Template.Fill

/-!
This module contains the markup of templates with data in it, and the proof that this is what a sketch
shows that has the data, and that only its texts depend on the data.
-/

namespace VirtualDom

open Markup.Grammar

def Shape.item : Shape → Markup.Item
  | .element tag => .element tag []
  | .text s => .text s
  | .comment s => .comment s

namespace Markup

def Item.bare : Item → Item
  | .element tag _ => .element tag []
  | item => item

def bare (m : Markup) : Markup :=
  m.map Item.bare

def skeleton (m : Markup) : Markup :=
  m.filterMap fun
    | .element tag _ => some (.element tag [])
    | .comment s => some (.comment s)
    | _ => none

@[simp]
theorem bare_cons (item : Item) (children siblings : Markup)
    : bare (.cons item children siblings) = .cons item.bare (bare children) (bare siblings) :=
  rfl

theorem bare_behind (run : String) (m : Markup) : bare (behind run m) = behind run (bare m) := by
  unfold behind
  split <;> rfl

theorem bare_joinTexts (run : String) (m : Markup)
    : bare (joinTexts run m) = joinTexts run (bare m) := by
  induction m generalizing run with
  | nil => exact bare_behind run .nil
  | cons item children siblings ihc ihs =>
    cases item with
    | element tag attributes => simp only [joinTexts, bare_behind, bare_cons, Item.bare, ihc, ihs]
    | text s => exact ihs (run ++ s)
    | _ => exact (bare_behind run _).trans (congrArg (fun m => behind run (.cons _ .nil m)) (ihs ""))

theorem skeleton_behind (run : String) (m : Markup) : skeleton (behind run m) = skeleton m := by
  unfold behind
  split <;> rfl

theorem skeleton_bare (m : Markup) : skeleton (bare m) = skeleton m := by
  induction m with
  | nil => rfl
  | cons item children siblings ihc ihs =>
    unfold skeleton bare at ihc ihs ⊢
    cases item <;> simp [Forest.filterMap, Item.bare, ihc, ihs]

end Markup

theorem Content.item_bare (c : Content) : c.item.bare = c.shape.item := by
  cases c <;> rfl

theorem lexical_of_shapes {F : Forest Content} (h : Markup.Lexical (F.map (·.shape.item)))
    (named : ∀ c ∈ F.labels, c.Named fun name => IsAttributeName name.toList)
    : Markup.Lexical (F.map Content.item) := by
  induction F with
  | nil => trivial
  | cons c children siblings ihc ihs =>
    obtain ⟨hitem, hchildren, hsiblings⟩ := h
    simp only [Forest.labels, List.cons_append, List.mem_cons, List.mem_append] at named
    refine ⟨?_, ihc hchildren fun c hc => named c (.inr (.inl hc)),
      ihs hsiblings fun c hc => named c (.inr (.inr hc))⟩
    have hc := named c (.inl rfl)
    rw [Forest.map_eq_nil] at hitem ⊢
    cases c with
    | element e => exact ⟨hitem.1, hc, hitem.2.2⟩
    | _ => exact hitem

namespace Template

open Markup (joinTexts skeleton behind)

/--
The markup of a template with data in place of its markers for texts, without attributes. There is
nothing in place of its markers for children.
-/
def withData (data : Data) : Markup → Markup
  | .nil => .nil
  | .cons item children siblings =>
    match item with
    | .element tag _ =>
      match tagMarker? tag with
      | .ok (some (.text index)) => .cons (.text (data.at index).text) .nil (withData data siblings)
      | .ok (some (.child _)) => withData data siblings
      | _ => .cons (.element tag []) (withData data children) (withData data siblings)
    | item => .cons item .nil (withData data siblings)

theorem skeleton_withData (data data' : Data) (run run' : String) (m : Markup)
    : skeleton (joinTexts run (withData data m)) = skeleton (joinTexts run' (withData data' m)) := by
  induction m generalizing run run' with
  | nil => simp only [withData, joinTexts, Markup.skeleton_behind]
  | cons item children siblings ihc ihs =>
    have ihc := ihc "" ""
    cases item with
    | element tag attributes =>
      rw [withData, withData]
      split
      . exact ihs _ _
      . exact ihs _ _
      . have ihs := ihs "" ""
        simp only [joinTexts, Markup.skeleton_behind]
        simp only [skeleton, Forest.filterMap] at ihc ihs ⊢
        rw [ihc, ihs]
    | text s => exact ihs _ _
    | _ =>
      have ihs := ihs "" ""
      simp only [withData, joinTexts, Markup.skeleton_behind]
      simp only [skeleton, Forest.filterMap] at ihs ⊢
      rw [ihs]

variable {m : Markup} {s : Sketch}

theorem lexical_of_markup {source : String} {normalize : Bool} (h : markup source normalize = .ok m)
    : Markup.Lexical m := by
  unfold markup at h
  split at h
  . cases h
  . next m' hm =>
    cases h
    obtain ⟨t, -, rfl⟩ := exists_derivation hm
    have hroots := (Markup.lexical_markup t).dropBlankRoots
    split
    . exact hroots.dropBlank
    . exact hroots

theorem item_paint_element (data : Data) (tag : String) (attributes : List (String × String))
    {marks : List Mark} (h : ∀ i, .text i ∉ marks)
    : (paint data (.element (staticElement tag attributes), marks)).item = .element tag [] := by
  rw [paint_eq_shape h]
  rfl

theorem text_not_mem_marks (tag : String) (attributes : List (String × String)) (index i : Nat)
    : .text i ∉ attributeMarks tag attributes ++ [.child index true] := by
  simp [(not_mem_attributeMarks tag attributes).2]

theorem withData_eq_nil {index : Nat} (h : soleIndex? m = some index) (data : Data)
    : withData data m = .nil := by
  unfold soleIndex? at h
  split at h
  . next tag attributes below =>
    split at h
    . next hm => simp [withData, hm]
    . cases h
  . cases h

theorem Drafts.joinTexts_eq (h : Drafts m s) (data : Data) (run : String)
    : joinTexts run (s.map fun n => (paint data n).item) = joinTexts run (withData data m) := by
  induction h generalizing run with
  | nil => rfl
  | textMarker marker rest ih =>
    rw [withData, marker]
    exact ih _
  | childMarker marker rest ih =>
    rw [withData, marker]
    have hempty : run ++ "" = run := String.append_empty
    exact (congrArg (joinTexts · _) hempty).trans (ih run)
  | @soleChild tag attributes children siblings index s marker sole rest ih =>
    rw [withData, marker, Forest.map_cons, item_paint_element data _ _ (text_not_mem_marks _ _ _)]
    simp only [joinTexts, Forest.map_nil, withData_eq_nil sole, ih]
  | @element tag attributes children siblings below s marker sole inside rest ihc ih =>
    rw [withData, marker, Forest.map_cons,
      item_paint_element data _ _ (not_mem_attributeMarks tag attributes).2]
    simp only [joinTexts, ihc, ih]
  | text rest ih => exact ih _
  | comment rest ih => exact congrArg (fun m => behind run (.cons _ .nil m)) (ih "")

theorem Drafts.lexical (h : Drafts m s) (hm : Markup.Lexical m) (data : Data)
    : Markup.Lexical (s.map fun n => (paint data n).item) := by
  induction h with
  | nil => trivial
  | textMarker marker rest ih | childMarker marker rest ih | text rest ih =>
    exact ⟨trivial, trivial, ih hm.2.2⟩
  | comment rest ih => exact ⟨hm.1, trivial, ih hm.2.2⟩
  | @soleChild tag attributes children siblings index s marker sole rest ih =>
    rw [Forest.map_cons, item_paint_element data _ _ (text_not_mem_marks _ _ _)]
    exact ⟨⟨hm.1.1, nofun, fun _ => rfl⟩, trivial, ih hm.2.2⟩
  | @element tag attributes children siblings below s marker sole inside rest ihc ih =>
    rw [Forest.map_cons, item_paint_element data _ _ (not_mem_attributeMarks tag attributes).2]
    refine ⟨⟨hm.1.1, nofun, fun hv => ?_⟩, ihc hm.2.1, ih hm.2.2⟩
    obtain rfl := hm.1.2.2 hv
    cases inside
    rfl

end Template
end VirtualDom
