import VirtualDom.Proofs.Template.Data
import VirtualDom.Proofs.View.Mount
import VirtualDom.Proofs.View.Render

/-!
This module contains the proof that data cannot change the structure of what is rendered from a template:
the HTML form is read back as the markup of the template with the data in its texts.
-/

namespace VirtualDom

open Engine
open Document (Place Shows)
open Markup (joinTexts skeleton)
open Markup.Grammar

namespace Template

/-- Whether all attributes that are written at the marker have names of the grammar, with any data. -/
def AttributeMarker.IsSafe : AttributeMarker → Prop
  | .attribute _ name => IsAttributeName name.toList
  | .bag _ => False
  | .handler _ _ | .ref _ => True

/-- Whether the attribute markers in some markup are safe and there is room for all children. -/
structure Guarded (room : Nat) (m : Markup) : Prop where
  isSafe : ∀ tag attributes, .element tag attributes ∈ m.labels → ∀ entry ∈ attributes,
    ∀ marker, attributeMarker? entry.1 entry.2 = .ok (some marker) → marker.IsSafe
  index_lt : ∀ tag attributes index, .element tag attributes ∈ m.labels →
    tagMarker? tag = .ok (some (.child index)) → index + 1 < room

variable {room : Nat} {item : Markup.Item} {below after m : Markup} {s : Sketch}

theorem Guarded.mono {m' : Markup} (h : Guarded room m) (hsub : m'.labels ⊆ m.labels)
    : Guarded room m' :=
  ⟨fun tag attributes hm => h.isSafe tag attributes (hsub hm),
    fun tag attributes index hm => h.index_lt tag attributes index (hsub hm)⟩

theorem Guarded.children (h : Guarded room (.cons item below after)) : Guarded room below :=
  h.mono fun _ hx => List.mem_cons_of_mem _ (List.mem_append_left _ hx)

theorem Guarded.siblings (h : Guarded room (.cons item below after)) : Guarded room after :=
  h.mono fun _ hx => List.mem_cons_of_mem _ (List.mem_append_right _ hx)

theorem Guarded.marks {tag : String} {attributes : List (String × String)}
    (h : Guarded room (.cons (.element tag attributes) below after))
    : ∀ m ∈ attributeMarks tag attributes, m.Named fun name => IsAttributeName name.toList := by
  intro m hm
  obtain ⟨⟨name, value⟩, hentry, hm⟩ := List.mem_filterMap.1 hm
  dsimp only at hm
  split at hm
  . next marker hmarker =>
    cases hm
    have hsafe := h.isSafe _ _ List.mem_cons_self _ hentry _ hmarker
    cases marker with
    | bag index => exact hsafe.elim
    | _ => exact hsafe
  . cases hm

theorem named_staticElement {tag : String} {attributes : List (String × String)} {childless : Prop}
    (h : (Markup.Item.element tag attributes).Lexical childless)
    : (Content.element (staticElement tag attributes)).Named fun name => IsAttributeName name.toList := by
  intro entry hentry
  exact h.2.1 entry (List.mem_filter.1 (Dict.mem_ofEntries hentry)).1

theorem Drafts.named (h : Drafts m s) (hm : Markup.Lexical m) (guarded : Guarded room m)
    : s.Named fun name => IsAttributeName name.toList := by
  induction h with
  | nil => exact nofun
  | textMarker marker rest ih | childMarker marker rest ih | text rest ih | comment rest ih =>
    exact Sketch.named_cons.2 ⟨⟨trivial, by simp [Mark.Named]⟩, nofun, ih hm.2.2 guarded.siblings⟩
  | soleChild marker sole rest ih =>
    refine Sketch.named_cons.2 ⟨⟨named_staticElement hm.1, ?_⟩, nofun, ih hm.2.2 guarded.siblings⟩
    simpa [or_imp, forall_and, Mark.Named] using guarded.marks
  | element marker sole inside rest ihc ih =>
    exact Sketch.named_cons.2 ⟨⟨named_staticElement hm.1, guarded.marks⟩,
      ihc hm.2.1 guarded.children, ih hm.2.2 guarded.siblings⟩

def MarksChild (m : Markup) (index : Nat) : Prop :=
  ∃ tag attributes, .element tag attributes ∈ m.labels ∧ tagMarker? tag = .ok (some (.child index))

namespace MarksChild

variable {index : Nat}

theorem of_children (h : MarksChild below index) : MarksChild (.cons item below after) index := by
  obtain ⟨tag, attributes, hmem, hchild⟩ := h
  exact ⟨tag, attributes, List.mem_cons_of_mem _ (List.mem_append_left _ hmem), hchild⟩

theorem of_siblings (h : MarksChild after index) : MarksChild (.cons item below after) index := by
  obtain ⟨tag, attributes, hmem, hchild⟩ := h
  exact ⟨tag, attributes, List.mem_cons_of_mem _ (List.mem_append_right _ hmem), hchild⟩

theorem of_soleIndex? (h : soleIndex? m = some index) : MarksChild m index := by
  unfold soleIndex? at h
  split at h
  . next tag attributes below =>
    split at h
    . next hm =>
      cases h
      exact ⟨tag, attributes, List.mem_cons_self, hm⟩
    . cases h
  . cases h

end MarksChild

theorem Drafts.marksChild (h : Drafts m s)
    : ∀ n ∈ s.labels, ∀ index sole, .child index sole ∈ n.2 → MarksChild m index := by
  induction h with
  | nil => nofun
  | textMarker marker rest ih | text rest ih | comment rest ih =>
    intro n hn index sole hchild
    rcases List.mem_cons.1 hn with rfl | hn
    . simp at hchild
    . exact (ih n hn index sole hchild).of_siblings
  | childMarker marker rest ih =>
    intro n hn index sole hchild
    rcases List.mem_cons.1 hn with rfl | hn
    . cases List.mem_singleton.1 hchild
      exact ⟨_, _, List.mem_cons_self, marker⟩
    . exact (ih n hn index sole hchild).of_siblings
  | soleChild marker sole rest ih =>
    intro n hn index sole' hchild
    rcases List.mem_cons.1 hn with rfl | hn
    . rcases List.mem_append.1 hchild with hchild | hchild
      . exact absurd hchild ((not_mem_attributeMarks _ _).1 index sole')
      . cases List.mem_singleton.1 hchild
        exact (MarksChild.of_soleIndex? sole).of_children
    . exact (ih n hn index sole' hchild).of_siblings
  | element marker sole below rest ihc ih =>
    intro n hn index sole' hchild
    rcases List.mem_cons.1 hn with rfl | hn
    . exact absurd hchild ((not_mem_attributeMarks _ _).1 index sole')
    . rcases List.mem_append.1 hn with hn | hn
      . exact (ihc n hn index sole' hchild).of_children
      . exact (ih n hn index sole' hchild).of_siblings

theorem Compiled.marksChild {t : Template} {source : String} {normalize : Bool}
    (compiled : t.Compiled source normalize) (hm : markup source normalize = .ok m)
    : ∀ slot ∈ t.wiring.slots, MarksChild m slot.index := by
  obtain ⟨item, children, hm', hdrafts, -⟩ := compiled.drafts
  cases hm.symm.trans hm'
  intro slot hs
  rw [t.wiring_eq] at hs
  obtain ⟨n, hn, sole, hchild⟩ := (Wiring.mem_slots_addSketch hs).resolve_left nofun
  exact hdrafts.marksChild n hn _ _ hchild

end Template

namespace View

open Template (Guarded paint withData)

variable {t : Template} {source : String} {normalize : Bool} {m : Markup}

theorem ofTemplate_absent (hslots : ∀ slot ∈ t.wiring.slots, slot.index + 1 < childLimit) (data : Data)
    : ∃ n, ofTemplate t data [] = .ok (.block t data (.replicate n none) none) := by
  have hany : t.wiring.slots.any (fun slot => Template.indexLimit ≤ slot.index + 1) = false := by
    rw [List.any_eq_false]
    intro slot hs
    have hlt := hslots slot hs
    have hle : childLimit ≤ Template.indexLimit := by decide
    simp only [decide_eq_true_eq]
    omega
  have hcapacity : (t.wiring.slots.map (·.index + 1)).foldl max 0 < childLimit := by
    refine List.foldlRecOn (motive := (· < childLimit)) _ max (by decide) ?_
    intro b hb a ha
    obtain ⟨slot, hs, rfl⟩ := List.mem_map.1 ha
    exact Nat.max_lt.2 ⟨hb, hslots slot hs⟩
  have hok : t.wiring.childCapacity = .ok ((t.wiring.slots.map (·.index + 1)).foldl max 0) := by
    rw [Template.Wiring.childCapacity, hany]
    rfl
  refine ⟨(t.wiring.slots.map (·.index + 1)).foldl max 0, ?_⟩
  simp only [ofTemplate, hok, bind, Except.bind, if_neg (Nat.not_le.2 hcapacity)]
  rfl

theorem render_block {N : String → Prop} (compiled : t.Compiled source normalize)
    (named : t.sketch.Named N) (data : Data) (n : Nat)
    : ∃ F : Forest Content,
        (View.block t data (.replicate n none) none).render = .ok (.ofList (Html.write F)) ∧
          F.map Content.shape = t.sketch.map (paint data) ∧ ∀ c ∈ F.labels, c.Named N := by
  have hnone : ∀ child ∈ List.replicate n (none : Option View), child = none :=
    fun _ => List.eq_of_mem_replicate
  refine render_yields ?_
  intro h pl hd
  unfold mount
  rw [mountAs]
  refine mountBlock_yields_of_slots compiled named hd ?_
  intro root references S held h' copied painted hnamed hd
  rw [mountSlots_absent hnone]
  refine Yields.pure ⟨_, hd, ?_⟩
  have hF : (S.filled held fun _ => .nil).map (·.2) = S.map fun l => held l.1.1 := by
    rw [Template.Marked.filled, Template.Marked.fill_nil, Forest.map_map]
  rw [hF, Forest.map_map, Forest.labels_map, ← copied.sketch, Template.Marked.sketch, Forest.map_map]
  refine ⟨Forest.map_congr painted, ?_⟩
  intro c hc
  obtain ⟨l, hl, rfl⟩ := List.mem_map.1 hc
  exact hnamed l hl

theorem exists_reading (compiled : t.Compiled source normalize)
    (hm : Template.markup source normalize = .ok m) (guarded : Guarded childLimit m) (data : Data)
    : ∃ s m', (ofTemplate t data [] >>= render) = .ok s ∧ Markup.parse s = .ok m' ∧
        m'.bare = joinTexts "" (withData data m) := by
  obtain ⟨item, children, hm', hdrafts, -⟩ := compiled.drafts
  cases hm.symm.trans hm'
  have hlexical := Template.lexical_of_markup hm
  have hslots : ∀ slot ∈ t.wiring.slots, slot.index + 1 < childLimit := by
    intro slot hs
    obtain ⟨tag, attributes, hmem, hchild⟩ := compiled.marksChild hm slot hs
    exact guarded.index_lt tag attributes _ hmem hchild
  obtain ⟨n, hview⟩ := ofTemplate_absent hslots data
  obtain ⟨F, hrender, hshapes, hnamed⟩ :=
    render_block compiled (hdrafts.named hlexical guarded) data n
  have hitems : F.map (·.shape.item) = t.sketch.map fun n => (paint data n).item := by
    rw [← Forest.map_map, hshapes, Forest.map_map]
  have hF : Markup.Lexical (F.map Content.item) := by
    apply lexical_of_shapes _ hnamed
    rw [hitems]
    exact hdrafts.lexical hlexical data
  refine ⟨_, _, ?_, Html.parse_write hF, ?_⟩
  . rw [hview]
    exact hrender
  . rw [Markup.bare_joinTexts, Markup.bare, Forest.map_map]
    simp only [Content.item_bare]
    rw [hitems, hdrafts.joinTexts_eq]

/--
Whatever the data of a template are, what it is rendered to is read back with the same nesting of
elements and comments, and with the texts of the template and of the data in place and in order.
-/
theorem render_ofTemplate_skeleton (compiled : t.Compiled source normalize)
    (hm : Template.markup source normalize = .ok m) (guarded : Guarded childLimit m)
    (data₁ data₂ : Data)
    : ∃ s₁ s₂ m₁ m₂, (ofTemplate t data₁ [] >>= render) = .ok s₁ ∧
        (ofTemplate t data₂ [] >>= render) = .ok s₂ ∧ Markup.parse s₁ = .ok m₁ ∧
        Markup.parse s₂ = .ok m₂ ∧ m₁.skeleton = m₂.skeleton ∧
        m₁.bare = joinTexts "" (withData data₁ m) ∧ m₂.bare = joinTexts "" (withData data₂ m) := by
  obtain ⟨s₁, m₁, hs₁, hm₁, hbare₁⟩ := exists_reading compiled hm guarded data₁
  obtain ⟨s₂, m₂, hs₂, hm₂, hbare₂⟩ := exists_reading compiled hm guarded data₂
  refine ⟨s₁, s₂, m₁, m₂, hs₁, hs₂, hm₁, hm₂, ?_, hbare₁, hbare₂⟩
  calc m₁.skeleton
    _ = skeleton (joinTexts "" (withData data₁ m)) := by rw [← hbare₁, Markup.skeleton_bare]
    _ = skeleton (joinTexts "" (withData data₂ m)) := Template.skeleton_withData _ _ _ _ m
    _ = m₂.skeleton := by rw [← hbare₂, Markup.skeleton_bare]

def sample : Markup :=
  .cons (.element "p" [("block-attribute-1", "title")])
    (.cons (.text "a") .nil (.cons (.element "block-text-0" []) .nil (.cons (.comment "c") .nil .nil)))
    .nil

theorem render_ofTemplate_skeleton_sample
    : ∃ (t : Template) (s₁ s₂ : String) (m₁ m₂ : Markup),
        t.Compiled "<p block-attribute-1='title'>a<block-text-0/><!--c--></p>" true ∧
          Template.markup "<p block-attribute-1='title'>a<block-text-0/><!--c--></p>" true = .ok sample ∧
          Guarded childLimit sample ∧
          (ofTemplate t ⟨0, [.str "<b>", .str "'>"]⟩ [] >>= render) = .ok s₁ ∧
          (ofTemplate t ⟨0, []⟩ [] >>= render) = .ok s₂ ∧
          Markup.parse s₁ = .ok m₁ ∧ Markup.parse s₂ = .ok m₂ ∧ m₁.skeleton = m₂.skeleton ∧
          m₁.bare = .cons (.element "p" [])
            (.cons (.text "a<b>") .nil (.cons (.comment "c") .nil .nil)) .nil ∧
          m₂.bare = .cons (.element "p" [])
            (.cons (.text "a") .nil (.cons (.comment "c") .nil .nil)) .nil := by
  have hmakes : Template.makes "<p block-attribute-1='title'>a<block-text-0/><!--c--></p>" true
      fun _ => true := by
    decide +kernel
  obtain ⟨t, ht, -⟩ := Template.exists_compiled hmakes
  have hm : Template.markup "<p block-attribute-1='title'>a<block-text-0/><!--c--></p>" true
      = .ok sample := by
    decide +kernel
  have guarded : Guarded childLimit sample := by
    have elements : ∀ tag attributes, .element tag attributes ∈ sample.labels →
        (tag = "p" ∧ attributes = [("block-attribute-1", "title")]) ∨
          (tag = "block-text-0" ∧ attributes = []) := by
      simp [sample, Forest.labels]
    constructor
    . intro tag attributes hmem entry hentry marker hmarker
      rcases elements tag attributes hmem with ⟨-, rfl⟩ | ⟨-, rfl⟩
      . cases List.mem_singleton.1 hentry
        have htitle : Template.attributeMarker? "block-attribute-1" "title"
            = .ok (some (.attribute 1 "title")) := by
          decide +kernel
        cases htitle.symm.trans hmarker
        exact ⟨by decide, List.all_eq_true.1 rfl⟩
      . cases hentry
    . intro tag attributes index hmem hchild
      have hp : Template.tagMarker? "p" = .ok none := by decide +kernel
      have htext : Template.tagMarker? "block-text-0" = .ok (some (.text 0)) := by decide +kernel
      rcases elements tag attributes hmem with ⟨rfl, -⟩ | ⟨rfl, -⟩
      . cases hp.symm.trans hchild
      . cases htext.symm.trans hchild
  obtain ⟨s₁, s₂, m₁, m₂, hs₁, hs₂, hm₁, hm₂, hskeleton, hbare₁, hbare₂⟩ :=
    render_ofTemplate_skeleton ht hm guarded ⟨0, [.str "<b>", .str "'>"]⟩ ⟨0, []⟩
  refine ⟨t, s₁, s₂, m₁, m₂, ht, hm, guarded, hs₁, hs₂, hm₁, hm₂, hskeleton, ?_, ?_⟩
  . rw [hbare₁]
    decide +kernel
  . rw [hbare₂]
    decide +kernel

/-- Blocks have no room for as many children as there are indices. -/
theorem ofTemplate_lastIndex
    : ∃ (t : Template) (m : Markup),
        t.Compiled "<p><block-child-18446744073709551614/></p>" true ∧
          Template.markup "<p><block-child-18446744073709551614/></p>" true = .ok m ∧
          Guarded Template.indexLimit m ∧
          ∀ data, (ofTemplate t data [] >>= render) = .error .tooManyChildren := by
  have hmakes : Template.makes "<p><block-child-18446744073709551614/></p>" true
      fun t => t.wiring.childCapacity = .ok 18446744073709551615 := by
    decide +kernel
  obtain ⟨t, ht, hcapacity⟩ := Template.exists_compiled hmakes
  let m : Markup :=
    .cons (.element "p" []) (.cons (.element "block-child-18446744073709551614" []) .nil .nil) .nil
  have hm : Template.markup "<p><block-child-18446744073709551614/></p>" true = .ok m := by
    decide +kernel
  have elements : ∀ tag attributes, .element tag attributes ∈ m.labels →
      (tag = "p" ∨ tag = "block-child-18446744073709551614") ∧ attributes = [] := by
    simp [m, Forest.labels, or_and_right]
  refine ⟨t, m, ht, hm, ⟨?_, ?_⟩, ?_⟩
  . intro tag attributes hmem entry hentry
    rw [(elements tag attributes hmem).2] at hentry
    cases hentry
  . intro tag attributes index hmem hchild
    have hp : Template.tagMarker? "p" = .ok none := by decide +kernel
    have hlast : Template.tagMarker? "block-child-18446744073709551614"
        = .ok (some (.child 18446744073709551614)) := by
      decide +kernel
    rcases (elements tag attributes hmem).1 with rfl | rfl
    . cases hp.symm.trans hchild
    . cases hlast.symm.trans hchild
      decide
  . intro data
    simp only [ofTemplate, of_decide_eq_true hcapacity, bind, Except.bind]
    rfl

end View
end VirtualDom
