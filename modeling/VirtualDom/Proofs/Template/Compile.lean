import VirtualDom.Proofs.Document.Write
import VirtualDom.Proofs.Template.Draft
import VirtualDom.Proofs.Template.Wiring

/-!
This module contains the correctness of compilation: the wiring of a template finds the place of
every marker of its markup in every copy of it.
-/

namespace VirtualDom.Template

open Document (Standing)

def AttributeMarker.bound (tag : String) (node : NodeId) : AttributeMarker → Bound
  | .handler index event => ⟨index, node, .handler event⟩
  | .attribute index name => ⟨index, node, .ofAttribute tag name⟩
  | .bag index => ⟨index, node, .bag⟩
  | .ref index => ⟨index, node, .ref⟩

def attributeBounds (tag : String) (node : NodeId) (attributes : List (String × String))
    : List Bound :=
  attributes.filterMap fun (name, value) =>
    match attributeMarker? name value with
    | .ok (some marker) => some (marker.bound tag node)
    | _ => none

/--
The static nodes of a template: its markup, with an empty text for each text or child marker, unless a
child marker is all that an element has in it.
-/
def shapes : Markup → Forest Shape
  | .nil => .nil
  | .cons item children siblings =>
    match item with
    | .element tag _ =>
      match tagMarker? tag with
      | .ok (some _) => .cons (.text "") .nil (shapes siblings)
      | _ =>
        let below := if (soleIndex? children).isSome then .nil else shapes children
        .cons (.element tag) below (shapes siblings)
    | .text s => .cons (.text s) .nil (shapes siblings)
    | .comment s => .cons (.comment s) .nil (shapes siblings)
    | _ => shapes siblings

/-- The nodes of a copy that the markers for data stand for or are on, in document order. -/
def markerBounds : Markup → Forest (NodeId × Content) → List Bound
  | .cons item children siblings, .cons (id, _) below after =>
    let here := match item with
      | .element tag attributes =>
        match tagMarker? tag with
        | .ok (some (.text index)) => [⟨index, id, .text⟩]
        | .ok (some (.child _)) => []
        | _ => attributeBounds tag id attributes ++ markerBounds children below
      | _ => []
    here ++ markerBounds siblings after
  | _, _ => []

/-- The places in a copy of the markers for children, in document order. -/
def markerOpenings (parent : NodeId) : Markup → Forest (NodeId × Content) → List Opening
  | .cons item children siblings, .cons (id, _) below after =>
    let here := match item with
      | .element tag _ =>
        match tagMarker? tag with
        | .ok (some (.text _)) => []
        | .ok (some (.child index)) => [⟨index, parent, some id, false⟩]
        | _ =>
          match soleIndex? children with
          | some index => [⟨index, id, none, true⟩]
          | none => markerOpenings id children below
      | _ => []
    here ++ markerOpenings parent siblings after
  | _, _ => []

section Drafts

theorem attributeMarks_bounds (tag : String) (id : NodeId) (attributes : List (String × String))
    : (attributeMarks tag attributes).filterMap (·.bound? id) = attributeBounds tag id attributes := by
  unfold attributeMarks attributeBounds
  rw [List.filterMap_filterMap]
  apply List.filterMap_congr
  rintro ⟨name, value⟩ _
  dsimp only
  cases attributeMarker? name value with
  | error e => rfl
  | ok marker =>
    cases marker with
    | none => rfl
    | some marker => cases marker <;> rfl

theorem attributeMarks_openings (tag : String) (p id : NodeId) (attributes : List (String × String))
    : (attributeMarks tag attributes).filterMap (·.opening? p id) = [] := by
  unfold attributeMarks
  rw [List.filterMap_filterMap, List.filterMap_eq_nil_iff]
  rintro ⟨name, value⟩ _
  dsimp only
  cases attributeMarker? name value with
  | error e => rfl
  | ok marker =>
    cases marker with
    | none => rfl
    | some marker => cases marker <;> rfl

variable {m : Markup} {s : Sketch}

theorem Drafts.shapes_eq (h : Drafts m s) : s.content.map (·.shape) = shapes m := by
  induction h with
  | nil => rfl
  | textMarker marker rest ih | childMarker marker rest ih => simp [shapes, marker, ih]
  | soleChild marker sole rest ih => simp [shapes, marker, sole, staticElement, ih]
  | element marker sole inside rest ihc ih => simp [shapes, marker, sole, staticElement, ih, ihc]
  | text rest ih | comment rest ih => simp [shapes, ih]

theorem Drafts.places_eq (h : Drafts m s) {S : Marked} (hS : S.sketch = s) (p : NodeId)
    : S.bounds = markerBounds m S.nodes ∧ S.openings p = markerOpenings p m S.nodes := by
  have unmarked : ∀ m p, markerBounds m .nil = [] ∧ markerOpenings p m .nil = [] := by
    intro m p
    cases m <;> exact ⟨rfl, rfl⟩
  induction h generalizing S p with
  | nil =>
    cases S with
    | nil => exact ⟨rfl, rfl⟩
    | cons _ _ _ => cases hS
  | textMarker marker rest ih | childMarker marker rest ih =>
    obtain ⟨id, A, B, rfl, hA, hB⟩ := Marked.eq_cons_of_sketch hS
    obtain ⟨hb, ho⟩ := ih hB p
    cases Marked.eq_nil_of_sketch hA
    simp [Marked.bounds, Marked.openings, markerBounds, markerOpenings, marker, Mark.bound?,
      Mark.opening?, hb, ho]
  | soleChild marker sole rest ih =>
    obtain ⟨id, A, B, rfl, hA, hB⟩ := Marked.eq_cons_of_sketch hS
    obtain ⟨hb, ho⟩ := ih hB p
    cases Marked.eq_nil_of_sketch hA
    simp only [Marked.bounds, Marked.openings, List.filterMap_append, attributeMarks_bounds,
      attributeMarks_openings]
    simp [markerBounds, markerOpenings, marker, sole, Mark.bound?, Mark.opening?, hb, ho]
  | element marker sole inside rest ihc ih =>
    obtain ⟨id, A, B, rfl, hA, hB⟩ := Marked.eq_cons_of_sketch hS
    obtain ⟨hb, ho⟩ := ih hB p
    obtain ⟨hbc, hoc⟩ := ihc hA id
    simp [Marked.bounds, Marked.openings, markerBounds, markerOpenings, marker, sole,
      attributeMarks_bounds, attributeMarks_openings, hb, ho, hbc, hoc]
  | text rest ih | comment rest ih =>
    obtain ⟨id, A, B, rfl, hA, hB⟩ := Marked.eq_cons_of_sketch hS
    obtain ⟨hb, ho⟩ := ih hB p
    cases Marked.eq_nil_of_sketch hA
    simp [Marked.bounds, Marked.openings, markerBounds, markerOpenings, hb, ho]

theorem Drafts.eq_cons {item : Markup.Item} {children : Markup}
    (h : Drafts (.cons item children .nil) s) : ∃ c marks below, s = .cons (c, marks) below .nil := by
  cases h with
  | textMarker marker rest | childMarker marker rest | soleChild marker sole rest
  | element marker sole inside rest | text rest | comment rest =>
    cases rest
    exact ⟨_, _, _, rfl⟩

theorem Drafts.not_hasChildBefore {item : Markup.Item} {children : Markup}
    (h : Drafts (.cons item children .nil) s)
    (hroot : ∀ tag attributes index, item = .element tag attributes →
      tagMarker? tag ≠ .ok (some (.child index)))
    : Wiring.hasChildBefore s = false := by
  have hmarks : ∀ tag attributes, (attributeMarks tag attributes).any Wiring.isChildBefore = false := by
    intro tag attributes
    rw [Bool.eq_false_iff]
    intro h
    obtain ⟨m, hm, hb⟩ := List.any_eq_true.1 h
    obtain ⟨⟨name, value⟩, -, hm⟩ := List.mem_filterMap.1 hm
    dsimp only at hm
    split at hm
    . next marker _ =>
      cases hm
      cases marker <;> cases hb
    . cases hm
  cases h with
  | childMarker marker rest => exact absurd marker (hroot _ _ _ rfl)
  | textMarker marker rest | soleChild marker sole rest
  | element marker sole inside rest | text rest | comment rest =>
    cases rest
    simp [Wiring.hasChildBefore, Wiring.isChildBefore, Forest.roots, hmarks]

end Drafts

section Compiled

variable {t : Template} {source : String} {normalize : Bool} {S : Marked}

theorem Compiled.exists_root (ht : t.Compiled source normalize) (hS : S.sketch = t.sketch)
    : ∃ root c marks C, S = .cons ((root, c), marks) C .nil := by
  obtain ⟨item, children, -, hdrafts, -⟩ := ht.drafts
  obtain ⟨c, marks, below, hs⟩ := hdrafts.eq_cons
  obtain ⟨root, A, B, rfl, -, hB⟩ := Marked.eq_cons_of_sketch (hS.trans hs)
  cases Marked.eq_nil_of_sketch hB
  exact ⟨root, c, marks, A, rfl⟩

theorem Compiled.not_hasChildBefore (ht : t.Compiled source normalize) (hS : S.sketch = t.sketch)
    : Wiring.hasChildBefore S.sketch = false := by
  obtain ⟨item, children, -, hdrafts, hroot⟩ := ht.drafts
  exact hS ▸ hdrafts.not_hasChildBefore hroot

theorem Compiled.not_child_before_root (ht : t.Compiled source normalize) {root : NodeId} {c : Content}
    {marks : List Mark} {C R : Marked} (hS : Marked.sketch (.cons ((root, c), marks) C R) = t.sketch)
    (i : Nat) : .child i false ∉ marks := by
  intro hi
  have hbefore := ht.not_hasChildBefore hS
  rw [Marked.sketch_cons, Wiring.hasChildBefore_cons, Bool.or_eq_false_iff] at hbefore
  exact Bool.false_ne_true (hbefore.1.symm.trans (List.any_eq_true.2 ⟨_, hi, rfl⟩))

theorem Compiled.locate_eq_ok (ht : t.Compiled source normalize) (hS : S.sketch = t.sketch)
    {root : NodeId} (hroot : S.nodes.rootIds = [root]) {h : Host}
    (hwalks : Walks h.document S.nodes)
    : ∃ references, t.wiring.locate root h = .ok references h ∧
        references.length = t.wiring.references ∧
        Wiring.Serves h root S 0 t.wiring (List.replicate t.wiring.references root) references := by
  have := Wiring.locate_eq_ok hwalks hroot (ht.not_hasChildBefore hS)
  rwa [hS, ← t.wiring_eq] at this

end Compiled

/--
In any document, the steps of a template's wiring lead from the root of a copy to references that
give every location the copy of the node that carried its marker, and every slot the copy of its
marker's parent and of the text that stands for the marker. The locations and the slots are those of
all markers, in document order.
-/
theorem wiring_finds_markers {t : Template} {source : String} {normalize : Bool}
    (ht : t.Compiled source normalize) {h : Host} (hd : h.document.WellFormed)
    : ∃ m root L d references, markup source normalize = .ok m ∧
        h.document.plant none t.content = .ok ([root], d) ∧ d.subtree root = .ok L ∧
        L.map (·.2) = t.content ∧ L.map (·.2.shape) = shapes m ∧
        (∀ s ∈ t.wiring.steps,
          s.source < t.wiring.references ∧ s.target < t.wiring.references) ∧
        t.wiring.locate root { h with document := d } = .ok references { h with document := d } ∧
        references.length = t.wiring.references ∧
        t.wiring.locations.map (·.resolve references) = (markerBounds m L).map some ∧
        t.wiring.slots.map (·.resolve references) = (markerOpenings root m L).map some := by
  obtain ⟨item, children, hm, hdrafts, -⟩ := ht.drafts
  obtain ⟨M, hM⟩ := hd.exists_holds
  obtain ⟨L, d, hplant, hL, hcopy⟩ := hM.plant t.content
  obtain ⟨S, rfl, hS⟩ := Marked.exists_of_content hL
  obtain ⟨root, c, marks, C, rfl⟩ := ht.exists_root hS
  have hsingle : (Marked.nodes (.cons ((root, c), marks) C .nil)).rootIds = [root] := rfl
  obtain ⟨references, hlocate, hlength, hserves⟩ :=
    ht.locate_eq_ok (h := { h with document := d }) hS hsingle (walks_tree hcopy)
  obtain ⟨hbounds, hopenings⟩ := hdrafts.places_eq hS root
  refine ⟨.cons item children .nil, root, _, d, references, hm, hsingle ▸ hplant,
    hcopy.subtree hsingle, hL, ?_, hserves.steps_lt, hlocate, hlength, ?_, ?_⟩
  . rw [← hdrafts.shapes_eq]
    exact (Forest.map_map _ _ _).symm.trans (congrArg _ hL)
  . rw [hserves.bounds, hbounds]
  . rw [hserves.openings, hopenings]

theorem wiring_finds_markers_paragraph
    : ∃ t : Template,
        t.Compiled "<p block-handler-0='click'>a<b><block-child-0/></b><i/><block-text-1/></p>" true ∧
        t.wiring.locations.length = 2 ∧ t.wiring.slots.length = 1 ∧
        ∃ m root L d references,
          markup "<p block-handler-0='click'>a<b><block-child-0/></b><i/><block-text-1/></p>" true
            = .ok m ∧
          Document.plant {} none t.content = .ok ([root], d) ∧ d.subtree root = .ok L ∧
          L.map (·.2) = t.content ∧ L.map (·.2.shape) = shapes m ∧
          (∀ s ∈ t.wiring.steps,
            s.source < t.wiring.references ∧ s.target < t.wiring.references) ∧
          t.wiring.locate root { document := d } = .ok references { document := d } ∧
          references.length = t.wiring.references ∧
          t.wiring.locations.map (·.resolve references) = (markerBounds m L).map some ∧
          t.wiring.slots.map (·.resolve references) = (markerOpenings root m L).map some := by
  have hmakes : makes "<p block-handler-0='click'>a<b><block-child-0/></b><i/><block-text-1/></p>" true
      fun t => t.wiring.locations.length = 2 ∧ t.wiring.slots.length = 1 := by
    decide +kernel
  obtain ⟨t, ht, htest⟩ := exists_compiled hmakes
  obtain ⟨hlocations, hslots⟩ := of_decide_eq_true htest
  exact ⟨t, ht, hlocations, hslots, wiring_finds_markers ht (h := {}) Document.WellFormed.empty⟩

end VirtualDom.Template
