import Mathlib.Logic.Function.Basic
import VirtualDom.Proofs.Document.Place
import VirtualDom.Proofs.Forest
import VirtualDom.Proofs.Template.Draft
import VirtualDom.View.Basic

/-!
This module contains copies of sketches with data and children in them. What is in the opening of a
child is at a place of its own, and so is what a node with a mark holds.
-/

namespace VirtualDom.Template

open Document (Place Shows Standing)

variable {α β γ : Type}

/-- What is put next to a node for a mark: into the node if `sole`, otherwise before it. -/
def Mark.guest (sole : Bool) (guests : Nat → Forest β) : Mark → Forest β
  | .child index sole' => if sole' = sole then guests index else .nil
  | _ => .nil

def Mark.hosted (sole : Bool) (guests : Nat → Forest β) (marks : List Mark) : Forest β :=
  .join (marks.map (·.guest sole guests))

/-- The nodes of a sketch, each as `f` has it, with children in their places. -/
def fill (f : α × List Mark → β) (guests : Nat → Forest β) : Forest (α × List Mark) → Forest β
  | .nil => .nil
  | .cons (a, marks) children siblings =>
    Mark.hosted false guests marks ++
      .cons (f (a, marks)) (Mark.hosted true guests marks ++ fill f guests children)
        (fill f guests siblings)

/-- The shape of a node of a sketch with data in it. -/
def paint (data : Data) : Content × List Mark → Shape
  | (_, [.text index]) => .text (data.at index).text
  | (c, _) => c.shape

theorem paint_eq_shape {data : Data} {c : Content} {marks : List Mark} (h : ∀ i, .text i ∉ marks)
    : paint data (c, marks) = c.shape := by
  unfold paint
  split
  . next heq =>
    cases heq
    exact absurd (List.mem_singleton_self _) (h _)
  . next heq =>
    cases heq
    rfl

/--
A sketch in which a text has a node of its own, and so has a child, unless it is alone in an element.
-/
def Tidy : Sketch → Prop
  | .nil => True
  | .cons (c, marks) children siblings =>
    (∀ i, .text i ∈ marks → c = .text "" ∧ marks = [.text i]) ∧
      (∀ i, .child i false ∈ marks → marks = [.child i false]) ∧
      (∀ i, .child i true ∈ marks → children = .nil ∧
        ∃ others, marks = others ++ [.child i true] ∧ ∀ j sole, .child j sole ∉ others) ∧
      Tidy children ∧ Tidy siblings

section Tidy

theorem not_mem_attributeMarks (tag : String) (attributes : List (String × String))
    : (∀ i sole, .child i sole ∉ attributeMarks tag attributes) ∧
        ∀ i, .text i ∉ attributeMarks tag attributes := by
  have hm : ∀ m ∈ attributeMarks tag attributes, ∃ marker, m = AttributeMarker.toMark tag marker := by
    intro m hm
    obtain ⟨⟨name, value⟩, -, hm⟩ := List.mem_filterMap.1 hm
    dsimp only at hm
    split at hm
    . cases hm
      exact ⟨_, rfl⟩
    . cases hm
  constructor
  . intro i sole hi
    obtain ⟨marker, hi⟩ := hm _ hi
    cases marker <;> cases hi
  . intro i hi
    obtain ⟨marker, hi⟩ := hm _ hi
    cases marker <;> cases hi

theorem Drafts.tidy {m : Markup} {s : Sketch} (h : Drafts m s) : Tidy s := by
  induction h with
  | nil => trivial
  | textMarker marker rest ih | childMarker marker rest ih => simp [Tidy, ih]
  | @soleChild tag attributes children siblings index s marker sole rest ih =>
    obtain ⟨hc, ht⟩ := not_mem_attributeMarks tag attributes
    refine ⟨?_, ?_, ?_, trivial, ih⟩
    . intro i hi
      simp [ht] at hi
    . intro i hi
      simp [hc] at hi
    . intro i hi
      obtain rfl : i = index := by simpa [hc] using hi
      exact ⟨rfl, _, rfl, hc⟩
  | @element tag attributes children siblings below s marker sole inside rest ihc ih =>
    obtain ⟨hc, ht⟩ := not_mem_attributeMarks tag attributes
    exact ⟨fun i hi => absurd hi (ht i), fun i hi => absurd hi (hc i false),
      fun i hi => absurd hi (hc i true), ihc, ih⟩
  | text rest ih | comment rest ih => simp [Tidy, ih]

end Tidy

namespace Mark

variable {marks : List Mark} {guests guests' : Nat → Forest β}

theorem hosted_of_not_mem {sole : Bool} (h : ∀ i, .child i sole ∉ marks)
    : hosted sole guests marks = .nil := by
  induction marks with
  | nil => rfl
  | cons m rest ih =>
    have hrest := ih fun i hi => h i (List.mem_cons_of_mem _ hi)
    have hm : m.guest sole guests = .nil := by
      cases m with
      | child i s =>
        have : s ≠ sole := by
          rintro rfl
          exact h i List.mem_cons_self
        simp [guest, this]
      | _ => rfl
    unfold hosted at hrest ⊢
    rw [List.map_cons, Forest.join_cons, hm, hrest]
    rfl

theorem hosted_sole {others : List Mark} (h : ∀ j sole, .child j sole ∉ others) (i : Nat)
    : hosted false guests (others ++ [.child i true]) = .nil ∧
        hosted true guests (others ++ [.child i true]) = guests i := by
  constructor
  . apply hosted_of_not_mem
    simp [h]
  . have hothers : hosted true guests others = .nil := hosted_of_not_mem fun j => h j true
    unfold hosted at hothers ⊢
    rw [List.map_append, Forest.join_append, hothers]
    simp [guest]

theorem hosted_congr {sole : Bool} (h : ∀ i, .child i sole ∈ marks → guests i = guests' i)
    : hosted sole guests marks = hosted sole guests' marks := by
  unfold hosted
  congr 1
  apply List.map_congr_left
  intro m hm
  cases m with
  | child i s =>
    dsimp only [guest]
    split
    . next hs => exact h i (hs ▸ hm)
    . rfl
  | _ => rfl

theorem map_hosted (g : β → γ) (sole : Bool)
    : (hosted sole guests marks).map g = hosted sole (fun i => (guests i).map g) marks := by
  unfold hosted
  rw [Forest.map_join, List.map_map]
  congr 1
  apply List.map_congr_left
  intro m _
  cases m with
  | child i s =>
    dsimp only [Function.comp, guest]
    split <;> rfl
  | _ => rfl

end Mark

section Fill

variable {f g : α × List Mark → β} {guests : Nat → Forest β} {s : Forest (α × List Mark)}

theorem fill_congr (h : ∀ l ∈ s.labels, f l = g l) : fill f guests s = fill g guests s := by
  induction s with
  | nil => rfl
  | cons label children siblings ihc ihs =>
    obtain ⟨a, marks⟩ := label
    simp only [Forest.labels, List.cons_append, List.mem_cons, List.mem_append] at h
    rw [fill, fill, h _ (.inl rfl), ihc fun l hl => h l (.inr (.inl hl)),
      ihs fun l hl => h l (.inr (.inr hl))]

theorem map_fill (g : β → γ)
    : (fill f guests s).map g = fill (fun l => g (f l)) (fun i => (guests i).map g) s := by
  induction s with
  | nil => rfl
  | cons label children siblings ihc ihs =>
    obtain ⟨a, marks⟩ := label
    simp only [fill, Forest.map_append, Forest.map_cons, Mark.map_hosted, ihc, ihs]

theorem fill_sketch {f : Content × List Mark → β} (S : Marked)
    : fill f guests S.sketch = fill (fun l => f (l.1.2, l.2)) guests S := by
  induction S with
  | nil => rfl
  | cons label children siblings ihc ihs =>
    obtain ⟨⟨id, c⟩, marks⟩ := label
    rw [Marked.sketch_cons, fill, fill, ihc, ihs]

end Fill

namespace Marked

/-- The nodes of a copy with what they hold by now, and with children in their places. -/
def filled (S : Marked) (held : NodeId → Content) (guests : Nat → Forest (NodeId × Content))
    : Forest (NodeId × Content) :=
  fill (fun l => (l.1.1, held l.1.1)) guests S

variable {S : Marked} {held held' : NodeId → Content} {guests guests' : Nat → Forest (NodeId × Content)}

theorem filled_cons (id : NodeId) (c : Content) (marks : List Mark) (A B : Marked)
    : filled (.cons ((id, c), marks) A B) held guests
        = Mark.hosted false guests marks ++
            .cons (id, held id) (Mark.hosted true guests marks ++ A.filled held guests)
              (B.filled held guests) :=
  rfl

theorem mem_ids_of_mem_labels {l : (NodeId × Content) × List Mark} (hl : l ∈ S.labels)
    : l.1.1 ∈ S.nodes.ids := by
  rw [nodes, Forest.ids, Forest.labels_map, List.map_map]
  exact List.mem_map_of_mem hl

theorem filled_congr_held (h : ∀ x ∈ S.nodes.ids, held x = held' x)
    : S.filled held guests = S.filled held' guests := by
  apply fill_congr
  intro l hl
  rw [h _ (mem_ids_of_mem_labels hl)]

theorem fill_congr_guests {f : (NodeId × Content) × List Mark → β} {guests guests' : Nat → Forest β}
    {p : NodeId} (h : ∀ o ∈ S.openings p, guests o.index = guests' o.index)
    : fill f guests S = fill f guests' S := by
  induction S generalizing p with
  | nil => rfl
  | cons label children siblings ihc ihs =>
    obtain ⟨⟨id, c⟩, marks⟩ := label
    simp only [openings, List.mem_append] at h
    have hmarks : ∀ i sole, .child i sole ∈ marks → guests i = guests' i := by
      intro i sole hi
      have : ∃ o ∈ marks.filterMap (·.opening? p id), o.index = i := by
        cases sole <;> exact ⟨_, List.mem_filterMap.2 ⟨_, hi, rfl⟩, rfl⟩
      obtain ⟨o, ho, rfl⟩ := this
      exact h o (.inl (.inl ho))
    rw [fill, fill, Mark.hosted_congr fun i => hmarks i false,
      Mark.hosted_congr fun i => hmarks i true, ihc fun o ho => h o (.inl (.inr ho)),
      ihs fun o ho => h o (.inr ho)]

theorem fill_nil (f : (NodeId × Content) × List Mark → β) : fill f (fun _ => .nil) S = S.map f := by
  induction S with
  | nil => rfl
  | cons label children siblings ihc ihs =>
    obtain ⟨a, marks⟩ := label
    have hosted : ∀ sole, Mark.hosted sole (fun _ => (.nil : Forest β)) marks = .nil := by
      intro sole
      induction marks with
      | nil => rfl
      | cons m rest ih =>
        unfold Mark.hosted at ih ⊢
        rw [List.map_cons, Forest.join_cons, ih]
        cases m with
        | child i s =>
          dsimp only [Mark.guest]
          split <;> rfl
        | _ => rfl
    rw [fill, hosted, hosted, ihc, ihs]
    rfl

theorem exists_held (hnd : S.nodes.ids.Nodup)
    : ∃ held, S.filled held (fun _ => .nil) = S.nodes ∧ ∀ l ∈ S.labels, held l.1.1 = l.1.2 := by
  have hinj : ∀ l ∈ S.labels, ∀ l' ∈ S.labels, l.1.1 = l'.1.1 → l = l' := by
    rw [nodes, Forest.ids, Forest.labels_map, List.map_map] at hnd
    exact fun l hl l' hl' heq => List.inj_on_of_nodup_map hnd hl hl' heq
  have hexists : ∀ x, ∃ c, ∀ l ∈ S.labels, l.1.1 = x → c = l.1.2 := by
    intro x
    by_cases hx : ∃ l ∈ S.labels, l.1.1 = x
    . obtain ⟨l, hl, rfl⟩ := hx
      exact ⟨l.1.2, fun l' hl' heq => by rw [hinj l' hl' l hl heq]⟩
    . exact ⟨.text "", fun l hl heq => absurd ⟨l, hl, heq⟩ hx⟩
  choose held hheld using hexists
  refine ⟨held, ?_, fun l hl => hheld _ l hl rfl⟩
  rw [filled, fill_nil, nodes, ← fill_nil, ← fill_nil]
  apply fill_congr
  intro l hl
  rw [hheld _ l hl rfl]

theorem opening_of_mem {p : NodeId} {id : NodeId} {marks : List Mark} {o : Opening}
    (h : o ∈ marks.filterMap (·.opening? p id))
    : (o.sole = false ∧ o.parent = p ∧ o.anchor = some id ∧ .child o.index false ∈ marks) ∨
        (o.sole = true ∧ o.parent = id ∧ o.anchor = none ∧ .child o.index true ∈ marks) := by
  obtain ⟨m, hm, ho⟩ := List.mem_filterMap.1 h
  cases m with
  | child i sole =>
    cases sole with
    | false =>
      cases ho
      exact .inl ⟨rfl, rfl, rfl, hm⟩
    | true =>
      cases ho
      exact .inr ⟨rfl, rfl, rfl, hm⟩
  | _ => cases ho

theorem filled_update {p : NodeId} {i : Nat} (h : ∀ o ∈ S.openings p, o.index ≠ i)
    (G : Forest (NodeId × Content))
    : S.filled held (Function.update guests i G) = S.filled held guests :=
  fill_congr_guests fun o ho => Function.update_of_ne (h o ho) _ _

theorem hosted_update {p id : NodeId} {marks : List Mark} {i : Nat}
    (h : ∀ o ∈ marks.filterMap (·.opening? p id), o.index ≠ i) (sole : Bool)
    (G : Forest (NodeId × Content))
    : Mark.hosted sole (Function.update guests i G) marks = Mark.hosted sole guests marks := by
  apply Mark.hosted_congr
  intro j hj
  apply Function.update_of_ne
  cases sole <;> exact h _ (List.mem_filterMap.2 ⟨_, hj, rfl⟩)

/--
The child of an opening has a place of its own in the place of the copy. It has nothing else in the
parent of the opening, or the anchor of the opening right behind it.
-/
theorem exists_place (hT : Tidy S.sketch) {o : Opening} {pl : Place} (ho : o ∈ S.openings pl.node)
    (hnd : ((S.openings pl.node).map (·.index)).Nodup)
    : ∃ pl' : Place, pl'.node = o.parent ∧ pl'.after.head? = o.anchor ∧
        (o.sole → pl'.before = [] ∧ pl'.after = []) ∧
        ∀ G, pl'.census G = pl.census (S.filled held (Function.update guests o.index G)) := by
  induction S generalizing pl with
  | nil => cases ho
  | cons label children siblings ihc ihs =>
    obtain ⟨⟨id, c⟩, marks⟩ := label
    rw [sketch_cons] at hT
    obtain ⟨-, hbefore, hinside, hTc, hTs⟩ := hT
    simp only [openings, List.map_append, List.nodup_append, List.mem_append] at ho hnd
    obtain ⟨⟨-, hndc, hmc⟩, hnds, hcs⟩ := hnd
    rcases ho with (ho | ho) | ho
    . have hic : ∀ o' ∈ openings id children, o'.index ≠ o.index := fun o' ho' =>
        (hmc _ (List.mem_map_of_mem ho) _ (List.mem_map_of_mem ho')).symm
      have his : ∀ o' ∈ openings pl.node siblings, o'.index ≠ o.index := fun o' ho' =>
        (hcs _ (.inl (List.mem_map_of_mem ho)) _ (List.mem_map_of_mem ho')).symm
      -- The child goes before the node itself, or is all that is in it.
      rcases opening_of_mem ho with ⟨hs, hp, ha, hm⟩ | ⟨hs, hp, ha, hm⟩
      . refine ⟨pl.narrow .nil (.cons (id, held id) (filled children held guests)
          (filled siblings held guests)), hp.symm, ha.symm, ?_, ?_⟩
        . intro hsole
          rw [hs] at hsole
          cases hsole
        . intro G
          rw [Place.census_narrow, filled_cons, filled_update hic, filled_update his, hbefore _ hm]
          simp [Mark.hosted, Mark.guest]
      . obtain ⟨hnil, others, rfl, hothers⟩ := hinside _ hm
        obtain rfl := eq_nil_of_sketch hnil
        refine ⟨pl.descend id (held id) (filled siblings held guests), hp.symm, ha.symm,
          fun _ => ⟨rfl, rfl⟩, ?_⟩
        intro G
        rw [Place.census_descend, filled_cons, filled_update his, (Mark.hosted_sole hothers _).1,
          (Mark.hosted_sole hothers _).2, Function.update_self]
        simp [filled, fill]
    . have him : ∀ o' ∈ marks.filterMap (·.opening? pl.node id), o'.index ≠ o.index := fun o' ho' =>
        hmc _ (List.mem_map_of_mem ho') _ (List.mem_map_of_mem ho)
      have his : ∀ o' ∈ openings pl.node siblings, o'.index ≠ o.index := fun o' ho' =>
        (hcs _ (.inr (List.mem_map_of_mem ho)) _ (List.mem_map_of_mem ho')).symm
      -- Among the children the place is within what the node has in it.
      obtain ⟨pl', hp, ha, hs, hpl'⟩ := @ihc hTc (((pl.narrow (Mark.hosted false guests marks)
        .nil).descend id (held id) (filled siblings held guests)).narrow
          (Mark.hosted true guests marks) .nil) ho hndc
      refine ⟨pl', hp, ha, hs, ?_⟩
      intro G
      rw [hpl', Place.census_narrow, Place.census_descend, Place.census_narrow, filled_cons,
        filled_update his, hosted_update him, hosted_update him]
      simp
    . have him : ∀ o' ∈ marks.filterMap (·.opening? pl.node id), o'.index ≠ o.index := fun o' ho' =>
        hcs _ (.inl (List.mem_map_of_mem ho')) _ (List.mem_map_of_mem ho)
      have hic : ∀ o' ∈ openings id children, o'.index ≠ o.index := fun o' ho' =>
        hcs _ (.inr (List.mem_map_of_mem ho')) _ (List.mem_map_of_mem ho)
      -- Among the siblings it is within what comes after the node.
      obtain ⟨pl', hp, ha, hs, hpl'⟩ := @ihs hTs (pl.narrow (Mark.hosted false guests marks ++
        .cons (id, held id) (Mark.hosted true guests marks ++ filled children held guests) .nil) .nil)
          ho hnds
      refine ⟨pl', hp, ha, hs, ?_⟩
      intro G
      rw [hpl', Place.census_narrow, filled_cons, filled_update hic, hosted_update him,
        hosted_update him]
      simp [Forest.append_assoc]

variable (S held held' guests) in
theorem rootIds_filled : (S.filled held guests).rootIds = (S.filled held' guests).rootIds := by
  induction S with
  | nil => rfl
  | cons label children siblings _ ih =>
    obtain ⟨⟨id, c⟩, marks⟩ := label
    simp only [filled_cons, Forest.rootIds_append, Forest.rootIds_cons, ih]

theorem census_filled_cons (id : NodeId) (c : Content) (marks : List Mark) (A B : Marked)
    (a : Option NodeId)
    : (filled (.cons ((id, c), marks) A B) held guests).census a
        = (id, ⟨a, (Mark.hosted true guests marks ++ A.filled held guests).rootIds, held id⟩) ::ₘ
            ((Mark.hosted false guests marks).census a + (Mark.hosted true guests marks).census (some id)
              + ((A.filled held guests).census (some id) + (B.filled held guests).census a)) := by
  rw [filled_cons, Forest.census_append, Forest.census_cons, Forest.census_append]
  simp only [← Multiset.singleton_add]
  abel

variable (held guests) in
theorem exists_census (hnd : S.nodes.ids.Nodup) {x : NodeId} (hx : x ∈ S.nodes.ids)
    (a : Option NodeId)
    : ∃ b ks M, ∀ c, (S.filled (Function.update held x c) guests).census a = (x, ⟨b, ks, c⟩) ::ₘ M := by
  have keeps : ∀ {T : Marked}, x ∉ T.nodes.ids → ∀ c,
      T.filled (Function.update held x c) guests = T.filled held guests := by
    intro T hT c
    apply filled_congr_held
    intro y hy
    apply Function.update_of_ne
    rintro rfl
    exact hT hy
  induction S generalizing a with
  | nil => cases hx
  | cons label children siblings ihc ihs =>
    obtain ⟨⟨id, c₀⟩, marks⟩ := label
    simp only [nodes_cons, Forest.ids_cons, List.nodup_cons, List.nodup_append, List.mem_append,
      not_or, List.mem_cons] at hnd hx
    obtain ⟨⟨hidc, hids⟩, hndc, hnds, hne⟩ := hnd
    have hroots : ∀ c, (Mark.hosted true guests marks
          ++ filled children (Function.update held x c) guests).rootIds
        = (Mark.hosted true guests marks ++ filled children held guests).rootIds := by
      intro c
      rw [Forest.rootIds_append, rootIds_filled _ _ held, Forest.rootIds_append]
    simp only [census_filled_cons, hroots]
    rcases hx with rfl | hx | hx
    . simp only [keeps hidc, keeps hids, Function.update_self]
      exact ⟨_, _, _, fun _ => rfl⟩
    . have hxs : x ∉ (nodes siblings).ids := fun h => hne x hx x h rfl
      have hxid : id ≠ x := fun h => hidc (h ▸ hx)
      obtain ⟨b, ks, M, hM⟩ := ihc hndc hx (some id)
      simp only [keeps hxs, Function.update_of_ne hxid, hM, Multiset.cons_add, Multiset.add_cons]
      exact ⟨b, ks, _, fun _ => Multiset.cons_swap _ _ _⟩
    . have hxc : x ∉ (nodes children).ids := fun h => hne x h x hx rfl
      have hxid : id ≠ x := fun h => hids (h ▸ hx)
      obtain ⟨b, ks, M, hM⟩ := ihs hnds hx a
      simp only [keeps hxc, Function.update_of_ne hxid, hM, Multiset.add_cons]
      exact ⟨b, ks, _, fun _ => Multiset.cons_swap _ _ _⟩

variable (held guests) in
theorem exists_holds (pl : Place) (hnd : S.nodes.ids.Nodup) {x : NodeId} (hx : x ∈ S.nodes.ids)
    : ∃ b ks M, ∀ d c, Shows d pl (S.filled (Function.update held x c) guests)
        ↔ d.Holds ((x, ⟨b, ks, c⟩) ::ₘ M) := by
  obtain ⟨b, ks, M, hM⟩ := exists_census held guests hnd hx (some pl.node)
  refine ⟨b, ks, M + (pl.node, ⟨pl.parent,
    pl.before ++ (S.filled held guests).rootIds ++ pl.after, pl.content⟩) ::ₘ pl.rest, fun d c => ?_⟩
  rw [Shows, Place.census, hM, rootIds_filled _ _ held, Multiset.cons_add]

theorem mem_bounds {b : Bound} (hb : b ∈ S.bounds)
    : ∃ l ∈ S.labels, l.1.1 = b.node ∧ ∃ m ∈ l.2, m.bound? b.node = some b := by
  induction S with
  | nil => cases hb
  | cons label children siblings ihc ihs =>
    obtain ⟨⟨id, c⟩, marks⟩ := label
    simp only [bounds, List.mem_append] at hb
    simp only [Forest.labels, List.cons_append, List.mem_cons, List.mem_append]
    rcases hb with (hb | hb) | hb
    . obtain ⟨m, hm, hb⟩ := List.mem_filterMap.1 hb
      obtain rfl : b.node = id := by
        cases m <;> cases hb <;> rfl
      exact ⟨_, .inl rfl, rfl, m, hm, hb⟩
    . obtain ⟨l, hl, h⟩ := ihc hb
      exact ⟨l, .inr (.inl hl), h⟩
    . obtain ⟨l, hl, h⟩ := ihs hb
      exact ⟨l, .inr (.inr hl), h⟩

theorem paint_label (hT : Tidy S.sketch) {l : (NodeId × Content) × List Mark} (hl : l ∈ S.labels)
    : ((∀ m ∈ l.2, ∀ i, m ≠ .text i) ∧ ∀ data, paint data (l.1.2, l.2) = l.1.2.shape) ∨
        ∃ i, l.2 = [.text i] ∧ l.1.2 = .text "" ∧ ⟨i, l.1.1, .text⟩ ∈ S.bounds := by
  induction S with
  | nil => cases hl
  | cons label children siblings ihc ihs =>
    obtain ⟨⟨id, c⟩, marks⟩ := label
    rw [sketch_cons] at hT
    obtain ⟨htext, -, -, hTc, hTs⟩ := hT
    simp only [Forest.labels, List.cons_append, List.mem_cons, List.mem_append] at hl
    simp only [bounds, List.mem_append]
    rcases hl with rfl | hl | hl
    . by_cases h : ∃ i, .text i ∈ marks
      . obtain ⟨i, hi⟩ := h
        obtain ⟨hc, rfl⟩ := htext i hi
        exact .inr ⟨i, rfl, hc, .inl (.inl (by simp [Mark.bound?]))⟩
      . refine .inl ⟨?_, fun data => paint_eq_shape fun i hi => h ⟨i, hi⟩⟩
        rintro m hm i rfl
        exact h ⟨i, hm⟩
    . refine (ihc hTc hl).imp_right ?_
      rintro ⟨i, h, hc, hb⟩
      exact ⟨i, h, hc, .inl (.inr hb)⟩
    . refine (ihs hTs hl).imp_right ?_
      rintro ⟨i, h, hc, hb⟩
      exact ⟨i, h, hc, .inr hb⟩

end Marked
end VirtualDom.Template
