import VirtualDom.Proofs.Template.Findings
import VirtualDom.Proofs.Text.Cut

/-!
This module contains which texts make templates, in terms of their markup alone, and that the error for
any other text is true of it.
-/

namespace VirtualDom

namespace Markup

/-- All nodes with their content, in document order. Only elements have content. -/
def nodes : Markup → List (Item × Markup)
  | .nil => []
  | .cons item children siblings =>
    let below := match item with
      | .element _ _ => nodes children
      | _ => []
    (item, children) :: below ++ nodes siblings

theorem mem_nodes_cons {item : Item} {children siblings : Markup} {node : Item × Markup}
    : node ∈ nodes (.cons item children siblings) ↔ node = (item, children) ∨
        ((∃ tag attributes, item = .element tag attributes) ∧ node ∈ nodes children) ∨
          node ∈ nodes siblings := by
  cases item <;> simp [nodes]

end Markup

namespace Template

@[mk_iff]
structure IsIndex (digits : String) : Prop where
  nonempty : digits ≠ ""
  digit : ∀ c ∈ digits.toList, c.isDigit
  lt : Number.ofDigits digits.toList < 2 ^ 64

theorem index_eq_error {digits marker : String} {e : Error}
    : index digits marker = .error e ↔ e = .badIndex marker ∧ ¬ IsIndex digits := by
  have hindex : IsIndex digits ↔ ¬ (digits.toList.isEmpty || !digits.toList.all Char.isDigit
      || indexLimit ≤ Number.ofDigits digits.toList) := by
    have hlimit : 2 ^ 64 = indexLimit := rfl
    simp [isIndex_iff, hlimit, and_assoc]
  rw [hindex, not_not, index]
  split
  . next h => simpa [h] using eq_comm
  . next h => simp [h]

theorem map_index_cases {α : Type} (f : Nat → α) (digits marker : String)
    : (IsIndex digits ∧ ∃ a, (index digits marker).map (some ∘ f) = .ok (some a)) ∨
        ¬ IsIndex digits ∧ (index digits marker).map (some ∘ f) = .error (.badIndex marker) := by
  cases h : index digits marker with
  | error e =>
    obtain ⟨rfl, hbad⟩ := index_eq_error.1 h
    exact .inr ⟨hbad, rfl⟩
  | ok n =>
    refine .inl ⟨?_, f n, rfl⟩
    by_contra hbad
    cases h.symm.trans (index_eq_error.2 ⟨rfl, hbad⟩)

theorem after?_eq_some {start s rest : String} : after? start s = some rest ↔ s = start ++ rest := by
  rw [after?, Option.map_eq_some_iff]
  constructor
  . rintro ⟨cs, hcs, rfl⟩
    rw [← String.toList_inj, String.toList_append, String.toList_ofList]
    exact (Text.dropFront?_eq_some.1 hcs).symm
  . rintro rfl
    exact ⟨rest.toList, Text.dropFront?_eq_some.2 String.toList_append.symm, String.ofList_toList⟩

/-- The tag starts as that of a marker, and should go on with an index. -/
inductive TagIndex : String → String → Prop where
  | text (digits : String) : TagIndex ("block-text-" ++ digits) digits
  | child (digits : String) : TagIndex ("block-child-" ++ digits) digits

/-- The attribute is named as a marker is, and should have an index in its name or its value. -/
inductive AttributeIndex : String → String → String → Prop where
  | handler (digits value : String) : AttributeIndex ("block-handler-" ++ digits) value digits
  | single (digits value : String) : AttributeIndex ("block-attribute-" ++ digits) value digits
  | bag (value : String) : AttributeIndex "block-attributes" value (Text.trim value)
  | ref (value : String) : AttributeIndex "block-ref" value (Text.trim value)

/-- A template can have the node, apart from the nodes below it. -/
structure Sound (item : Markup.Item) (children : Markup) : Prop where
  kind : item.kind ≠ "CDATA" ∧ item.kind ≠ "doctype" ∧ item.kind ≠ "processing instruction"
  tag : ∀ tag attributes digits, item = .element tag attributes → TagIndex tag digits →
    IsIndex digits ∧ attributes = [] ∧ children = .nil
  entries : ∀ tag attributes name value digits, item = .element tag attributes →
    (name, value) ∈ attributes → AttributeIndex name value digits → IsIndex digits

inductive Flaw : Markup.Item → Markup → Error → Prop where
  | cdata (s : String) (children : Markup) : Flaw (.cdata s) children (.unsupportedNode "CDATA")
  | doctype (s : String) (children : Markup) : Flaw (.doctype s) children (.unsupportedNode "doctype")
  | instruction (s : String) (children : Markup) :
      Flaw (.instruction s) children (.unsupportedNode "processing instruction")
  | tag {tag digits : String} {attributes : List (String × String)} {children : Markup}
      (marker : TagIndex tag digits) (bad : ¬ IsIndex digits) :
      Flaw (.element tag attributes) children (.badIndex tag)
  | content {tag digits : String} {attributes : List (String × String)} {children : Markup}
      (marker : TagIndex tag digits) (full : ¬ (attributes = [] ∧ children = .nil)) :
      Flaw (.element tag attributes) children (.markerWithContent tag)
  | entry {tag name value digits : String} {attributes : List (String × String)} {children : Markup}
      (mem : (name, value) ∈ attributes) (marker : AttributeIndex name value digits)
      (bad : ¬ IsIndex digits) : Flaw (.element tag attributes) children (.badIndex name)

theorem sound_iff_not_flaw {item : Markup.Item} {children : Markup}
    : Sound item children ↔ ∀ e, ¬ Flaw item children e := by
  constructor
  . rintro ⟨hkind, htag, hentries⟩ e hflaw
    cases hflaw with
    | cdata s => exact hkind.1 rfl
    | doctype s => exact hkind.2.1 rfl
    | instruction s => exact hkind.2.2 rfl
    | tag marker bad => exact bad (htag _ _ _ rfl marker).1
    | content marker full => exact full (htag _ _ _ rfl marker).2
    | entry mem marker bad => exact bad (hentries _ _ _ _ _ rfl mem marker)
  . intro h
    refine ⟨?_, ?_, ?_⟩
    . cases item with
      | cdata s => exact absurd (.cdata s children) (h _)
      | doctype s => exact absurd (.doctype s children) (h _)
      | instruction s => exact absurd (.instruction s children) (h _)
      | _ => simp [Markup.Item.kind]
    . rintro tag attributes digits rfl marker
      exact ⟨not_not.1 fun bad => h _ (.tag marker bad), not_not.1 fun full => h _ (.content marker full)⟩
    . rintro tag attributes name value digits rfl mem marker
      exact not_not.1 fun bad => h _ (.entry mem marker bad)

theorem tagMarker?_text (digits : String)
    : tagMarker? ("block-text-" ++ digits)
        = (index digits ("block-text-" ++ digits)).map (some ∘ .text) := by
  rw [tagMarker?, after?_eq_some.2 rfl]

theorem tagMarker?_child (digits : String)
    : tagMarker? ("block-child-" ++ digits)
        = (index digits ("block-child-" ++ digits)).map (some ∘ .child) := by
  have htext : after? "block-text-" ("block-child-" ++ digits) = none := by
    simp [after?, Text.dropFront?]
  rw [tagMarker?, htext, after?_eq_some.2 rfl]

theorem tagMarker?_none {tag : String} (h : ∀ digits, ¬ TagIndex tag digits)
    : tagMarker? tag = .ok none := by
  unfold tagMarker?
  split
  . next htext =>
    cases after?_eq_some.1 htext
    exact absurd (.text _) (h _)
  . split
    . next hchild =>
      cases after?_eq_some.1 hchild
      exact absurd (.child _) (h _)
    . rfl

theorem TagIndex.tagMarker?_cases {tag digits : String} (h : TagIndex tag digits)
    : (IsIndex digits ∧ ∃ marker, tagMarker? tag = .ok (some marker)) ∨
        ¬ IsIndex digits ∧ tagMarker? tag = .error (.badIndex tag) := by
  cases h with
  | text =>
    rw [tagMarker?_text]
    exact map_index_cases _ _ _
  | child =>
    rw [tagMarker?_child]
    exact map_index_cases _ _ _

theorem attributeMarker?_none {name value : String} (h : ∀ digits, ¬ AttributeIndex name value digits)
    : attributeMarker? name value = .ok none := by
  unfold attributeMarker?
  split
  . next hhandler =>
    cases after?_eq_some.1 hhandler
    exact absurd (.handler _ _) (h _)
  . split
    . next hsingle =>
      cases after?_eq_some.1 hsingle
      exact absurd (.single _ _) (h _)
    . split
      . next hbag =>
        cases hbag
        exact absurd (.bag _) (h _)
      . split
        . next href =>
          cases href
          exact absurd (.ref _) (h _)
        . rfl

theorem AttributeIndex.attributeMarker?_cases {name value digits : String}
    (h : AttributeIndex name value digits)
    : (IsIndex digits ∧ ∃ marker, attributeMarker? name value = .ok (some marker)) ∨
        ¬ IsIndex digits ∧ attributeMarker? name value = .error (.badIndex name) := by
  cases h with
  | handler =>
    rw [attributeMarker?, after?_eq_some.2 rfl]
    exact map_index_cases _ _ _
  | single =>
    have hhandler : after? "block-handler-" ("block-attribute-" ++ digits) = none := by
      simp [after?, Text.dropFront?]
    rw [attributeMarker?, hhandler, after?_eq_some.2 rfl]
    exact map_index_cases _ _ _
  | bag =>
    have hbag : attributeMarker? "block-attributes" value
        = (index (Text.trim value) "block-attributes").map (some ∘ .bag) := by
      simp [attributeMarker?, after?, Text.dropFront?]
    rw [hbag]
    exact map_index_cases _ _ _
  | ref =>
    have href : attributeMarker? "block-ref" value
        = (index (Text.trim value) "block-ref").map (some ∘ .ref) := by
      simp [attributeMarker?, after?, Text.dropFront?]
    rw [href]
    exact map_index_cases _ _ _

theorem flaw_mem_attributeFindings {attributes : List (String × String)} {e : Error}
    : .flaw e ∈ attributeFindings attributes ↔ ∃ name value digits, (name, value) ∈ attributes ∧
        AttributeIndex name value digits ∧ ¬ IsIndex digits ∧ e = .badIndex name := by
  rw [attributeFindings, List.mem_flatMap]
  constructor
  . rintro ⟨⟨name, value⟩, hmem, h⟩
    by_cases hmarker : ∃ digits, AttributeIndex name value digits
    . obtain ⟨digits, hmarker⟩ := hmarker
      rcases hmarker.attributeMarker?_cases with ⟨-, marker, hok⟩ | ⟨hbad, herror⟩
      . simp only [attributeFinding, hok] at h
        cases marker <;> simp at h
      . simp only [attributeFinding, herror] at h
        cases List.mem_singleton.1 h
        exact ⟨name, value, digits, hmem, hmarker, hbad, rfl⟩
    . simp only [attributeFinding, attributeMarker?_none (not_exists.1 hmarker)] at h
      cases h
  . rintro ⟨name, value, digits, hmem, hmarker, hbad, rfl⟩
    refine ⟨(name, value), hmem, ?_⟩
    rcases hmarker.attributeMarker?_cases with ⟨hindex, -⟩ | ⟨-, herror⟩
    . exact absurd hindex hbad
    . simp only [attributeFinding, herror]
      exact List.mem_singleton.2 rfl

theorem flaw_of_elementFindings {tag : String} {attributes : List (String × String)} {children : Markup}
    {below : List Finding} {e : Error} (h : .flaw e ∈ itemFindings children below (.element tag attributes))
    : Flaw (.element tag attributes) children e ∨ .flaw e ∈ below := by
  by_cases hmarker : ∃ digits, TagIndex tag digits
  . obtain ⟨digits, hmarker⟩ := hmarker
    rcases hmarker.tagMarker?_cases with ⟨-, marker, hok⟩ | ⟨hbad, herror⟩
    . simp only [itemFindings, hok] at h
      split at h
      . cases h
      . next hfull =>
        cases List.mem_singleton.1 h
        refine .inl (.content hmarker ?_)
        rintro ⟨rfl, rfl⟩
        exact hfull rfl
    . simp only [itemFindings, herror] at h
      cases List.mem_singleton.1 h
      exact .inl (.tag hmarker hbad)
  . simp only [itemFindings, tagMarker?_none (not_exists.1 hmarker), List.mem_append] at h
    refine h.imp_left fun hentries => ?_
    obtain ⟨name, value, digits, hmem, hentry, hbad, rfl⟩ := flaw_mem_attributeFindings.1 hentries
    exact .entry hmem hentry hbad

theorem flaw_of_findings {m : Markup} {e : Error} (h : .flaw e ∈ findings m)
    : ∃ node ∈ m.nodes, Flaw node.1 node.2 e := by
  induction m with
  | nil => cases h
  | cons item children siblings ihc ihs =>
    have here : Flaw item children e → ∃ node ∈ Markup.nodes (.cons item children siblings),
        Flaw node.1 node.2 e :=
      fun hflaw => ⟨_, Markup.mem_nodes_cons.2 (.inl rfl), hflaw⟩
    rw [findings, List.mem_append] at h
    rcases h with h | h
    . cases item with
      | element tag attributes =>
        rcases flaw_of_elementFindings h with hflaw | hbelow
        . exact here hflaw
        . obtain ⟨node, hnode, hflaw⟩ := ihc hbelow
          exact ⟨node, Markup.mem_nodes_cons.2 (.inr (.inl ⟨⟨_, _, rfl⟩, hnode⟩)), hflaw⟩
      | text s => simp [itemFindings] at h
      | comment s => simp [itemFindings] at h
      | cdata s =>
        cases List.mem_singleton.1 h
        exact here (.cdata s children)
      | doctype s =>
        cases List.mem_singleton.1 h
        exact here (.doctype s children)
      | instruction s =>
        cases List.mem_singleton.1 h
        exact here (.instruction s children)
    . obtain ⟨node, hnode, hflaw⟩ := ihs h
      exact ⟨node, Markup.mem_nodes_cons.2 (.inr (.inr hnode)), hflaw⟩

theorem not_flaw_of_elementFindings {tag : String} {attributes : List (String × String)} {children : Markup}
    {below : List Finding} (h : ∀ e, .flaw e ∉ itemFindings children below (.element tag attributes))
    : (∀ e, ¬ Flaw (.element tag attributes) children e) ∧
        (children = .nil ∨ ∀ e, .flaw e ∉ below) := by
  by_cases hmarker : ∃ digits, TagIndex tag digits
  . obtain ⟨digits, hmarker⟩ := hmarker
    rcases hmarker.tagMarker?_cases with ⟨-, marker, hok⟩ | ⟨-, herror⟩
    . simp only [itemFindings, hok] at h
      split at h
      . next hempty =>
        rw [Bool.and_eq_true, List.isEmpty_iff] at hempty
        obtain ⟨rfl, hchildren⟩ := hempty
        cases children with
        | cons _ _ _ => cases hchildren
        | nil =>
          refine ⟨?_, .inl rfl⟩
          intro e hflaw
          cases hflaw with
          | content marker full => exact full ⟨rfl, rfl⟩
          | entry mem marker bad => cases mem
          | tag marker bad =>
            rcases marker.tagMarker?_cases with ⟨hindex, -⟩ | ⟨-, herror⟩
            . exact bad hindex
            . cases hok.symm.trans herror
      . exact absurd (List.mem_singleton.2 rfl) (h _)
    . simp only [itemFindings, herror] at h
      exact absurd (List.mem_singleton.2 rfl) (h _)
  . simp only [itemFindings, tagMarker?_none (not_exists.1 hmarker), List.mem_append, not_or,
      forall_and] at h
    refine ⟨?_, .inr h.2⟩
    intro e hflaw
    cases hflaw with
    | tag marker bad => exact hmarker ⟨_, marker⟩
    | content marker full => exact hmarker ⟨_, marker⟩
    | entry mem marker bad =>
      exact h.1 _ (flaw_mem_attributeFindings.2 ⟨_, _, _, mem, marker, bad, rfl⟩)

theorem sound_of_findings {m : Markup} (h : ∀ e, .flaw e ∉ findings m)
    : ∀ node ∈ m.nodes, Sound node.1 node.2 := by
  induction m with
  | nil => nofun
  | cons item children siblings ihc ihs =>
    simp only [findings, List.mem_append, not_or, forall_and] at h
    obtain ⟨hitem, hsiblings⟩ := h
    intro node hnode
    rcases Markup.mem_nodes_cons.1 hnode with rfl | ⟨⟨tag, attributes, rfl⟩, hinside⟩ | hafter
    . refine sound_iff_not_flaw.2 ?_
      cases item with
      | element tag attributes => exact (not_flaw_of_elementFindings hitem).1
      | text s =>
        intro e hflaw
        cases hflaw
      | comment s =>
        intro e hflaw
        cases hflaw
      | cdata s => exact absurd (List.mem_singleton.2 rfl) (hitem _)
      | doctype s => exact absurd (List.mem_singleton.2 rfl) (hitem _)
      | instruction s => exact absurd (List.mem_singleton.2 rfl) (hitem _)
    . rcases (not_flaw_of_elementFindings hitem).2 with rfl | hbelow
      . cases hinside
      . exact ihc hbelow node hinside
    . exact ihs hsiblings node hafter

def remaining (m : Markup) (normalize : Bool) : Markup :=
  if normalize then m.dropBlankRoots.dropBlank else m.dropBlankRoots

/-- The text is a template: its markup has one root, which is no place of a child, and all is sound. -/
def Acceptable (source : String) (normalize : Bool) : Prop :=
  ∃ m item children, Markup.parse source = .ok m ∧ remaining m normalize = .cons item children .nil ∧
    (∀ digits attributes, item ≠ .element ("block-child-" ++ digits) attributes) ∧
    ∀ node ∈ (remaining m normalize).nodes, Sound node.1 node.2

inductive Defect (source : String) (normalize : Bool) : Error → Prop where
  | malformed {e : Markup.SyntaxError} (parse : Markup.parse source = .error e) :
      Defect source normalize (.malformed e)
  | rootCount {m : Markup} (parse : Markup.parse source = .ok m)
      (many : (remaining m normalize).roots.length ≠ 1) :
      Defect source normalize (.rootCount (remaining m normalize).roots.length)
  | markerAtRoot {m children : Markup} {digits : String} {attributes : List (String × String)}
      (parse : Markup.parse source = .ok m)
      (root : remaining m normalize
        = .cons (.element ("block-child-" ++ digits) attributes) children .nil) :
      Defect source normalize (.markerAtRoot ("block-child-" ++ digits))
  | node {m children : Markup} {item : Markup.Item} {e : Error} (parse : Markup.parse source = .ok m)
      (mem : (item, children) ∈ (remaining m normalize).nodes) (flaw : Flaw item children e) :
      Defect source normalize e

variable {source : String} {normalize : Bool}

theorem Acceptable.not_defect (h : Acceptable source normalize) {e : Error}
    : ¬ Defect source normalize e := by
  obtain ⟨m, item, children, hparse, hremaining, hroot, hsound⟩ := h
  intro hdefect
  cases hdefect with
  | malformed parse => cases hparse.symm.trans parse
  | rootCount parse many =>
    cases hparse.symm.trans parse
    rw [hremaining] at many
    exact many rfl
  | markerAtRoot parse root =>
    cases hparse.symm.trans parse
    cases hremaining.symm.trans root
    exact hroot _ _ rfl
  | node parse mem flaw =>
    cases hparse.symm.trans parse
    exact sound_iff_not_flaw.1 (hsound _ mem) _ flaw

theorem markup_eq (source : String) (normalize : Bool)
    : markup source normalize =
        match Markup.parse source with
        | .error e => .error (.malformed e)
        | .ok m => .ok (remaining m normalize) :=
  rfl

theorem flaw_mem_rootFindings {item : Markup.Item} (children : Markup) {e : Error}
    (h : .flaw e ∈ rootFindings item)
    : (∃ digits attributes, item = .element ("block-child-" ++ digits) attributes ∧
        e = .markerAtRoot ("block-child-" ++ digits)) ∨ Flaw item children e := by
  cases item with
  | element tag attributes =>
    by_cases hmarker : ∃ digits, TagIndex tag digits
    . obtain ⟨digits, hmarker⟩ := hmarker
      rcases hmarker.tagMarker?_cases with ⟨-, marker, hok⟩ | ⟨hbad, herror⟩
      . simp only [rootFindings, hok] at h
        cases marker with
        | text index => cases h
        | child index =>
          cases List.mem_singleton.1 h
          cases hmarker with
          | text =>
            rw [tagMarker?_text] at hok
            cases hindex : Template.index digits ("block-text-" ++ digits) <;>
              rw [hindex] at hok <;> cases hok
          | child => exact .inl ⟨digits, attributes, rfl, rfl⟩
      . simp only [rootFindings, herror] at h
        cases List.mem_singleton.1 h
        exact .inr (.tag hmarker hbad)
    . simp only [rootFindings, tagMarker?_none (not_exists.1 hmarker)] at h
      cases h
  | _ => simp [rootFindings] at h

theorem rootFindings_child (digits : String) (attributes : List (String × String))
    : ∃ e, .flaw e ∈ rootFindings (.element ("block-child-" ++ digits) attributes) := by
  rw [rootFindings, tagMarker?_child]
  cases index digits ("block-child-" ++ digits) with
  | ok n => exact ⟨_, List.mem_singleton.2 rfl⟩
  | error e => exact ⟨_, List.mem_singleton.2 rfl⟩

theorem roots_length_eq_one {m : Markup}
    : m.roots.length = 1 ↔ ∃ item children, m = .cons item children .nil := by
  cases m with
  | nil => simp [Forest.roots]
  | cons item children siblings => cases siblings <;> simp [Forest.roots]

theorem defect_of_sourceFindings {e : Error} (h : .flaw e ∈ sourceFindings source normalize)
    : Defect source normalize e := by
  rw [sourceFindings, markup_eq] at h
  cases hparse : Markup.parse source with
  | error e' =>
    rw [hparse] at h
    cases List.mem_singleton.1 h
    exact .malformed hparse
  | ok m =>
    rw [hparse] at h
    change _ ∈ wholeFindings (remaining m normalize) at h
    unfold wholeFindings at h
    split at h
    . next item children hremaining =>
      have hnode : ∀ {node}, node ∈ Markup.nodes (.cons item children .nil) → Flaw node.1 node.2 e →
          Defect source normalize e :=
        fun hmem hflaw => .node hparse (hremaining ▸ hmem) hflaw
      rcases List.mem_append.1 h with hroot | hbelow
      . rcases flaw_mem_rootFindings children hroot with ⟨digits, attributes, rfl, rfl⟩ | hflaw
        . exact .markerAtRoot hparse hremaining
        . exact hnode (Markup.mem_nodes_cons.2 (.inl rfl)) hflaw
      . obtain ⟨node, hmem, hflaw⟩ := flaw_of_findings hbelow
        exact hnode hmem hflaw
    . next hmany =>
      cases List.mem_singleton.1 h
      refine .rootCount hparse fun hone => ?_
      obtain ⟨item, children, hremaining⟩ := roots_length_eq_one.1 hone
      exact hmany _ _ hremaining

theorem acceptable_of_sourceFindings (h : ∀ e, .flaw e ∉ sourceFindings source normalize)
    : Acceptable source normalize := by
  rw [sourceFindings, markup_eq] at h
  cases hparse : Markup.parse source with
  | error e =>
    rw [hparse] at h
    exact absurd (List.mem_singleton.2 rfl) (h _)
  | ok m =>
    rw [hparse] at h
    change ∀ e, _ ∉ wholeFindings (remaining m normalize) at h
    unfold wholeFindings at h
    split at h
    . next item children hremaining =>
      simp only [List.mem_append, not_or, forall_and] at h
      refine ⟨m, item, children, hparse, hremaining, ?_, ?_⟩
      . rintro digits attributes rfl
        obtain ⟨e, he⟩ := rootFindings_child digits attributes
        exact h.1 e he
      . rw [hremaining]
        exact sound_of_findings h.2
    . exact absurd (List.mem_singleton.2 rfl) (h _)

end Template

namespace Session

open Template (Acceptable Defect Finding sourceFindings)

variable {s : Session} {source : String}

end Session

end VirtualDom
