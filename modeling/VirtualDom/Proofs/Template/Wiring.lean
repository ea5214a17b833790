import VirtualDom.Proofs.Engine
import VirtualDom.Proofs.Template.Places
import VirtualDom.View.Mount

/-!
This module contains the correctness of wirings: following the steps of a wiring in a copy of its
template finds the node of every mark. Steps overwrite only references from the first free one on, so
that what was found before them stays.
-/

namespace VirtualDom.Template

open Engine

section Resolve

variable {references references' : List NodeId} {bound : Nat}

theorem Location.resolve_congr {l : Location} (hl : l.reference < bound)
    (h : ∀ i < bound, references'[i]? = references[i]?)
    : l.resolve references' = l.resolve references := by
  unfold resolve
  rw [h _ hl]

theorem ChildSlot.resolve_congr {s : ChildSlot} (hp : s.parent < bound)
    (ha : ∀ a, s.anchor = some a → a < bound) (h : ∀ i < bound, references'[i]? = references[i]?)
    : s.resolve references' = s.resolve references := by
  unfold resolve
  rw [h _ hp]
  cases hs : s.anchor with
  | none => rfl
  | some a => simp only [h _ (ha a hs)]

end Resolve

namespace Wiring

/-- A wiring with what comes after it, the references of which include those of `w`. -/
def append (w part : Wiring) : Wiring where
  references := part.references
  steps := w.steps ++ part.steps
  locations := w.locations ++ part.locations
  slots := w.slots ++ part.slots
  callbacks := w.callbacks ++ part.callbacks

theorem append_assoc (u v w : Wiring) : (u.append v).append w = u.append (v.append w) := by
  simp [append]

section Marks

def ofMarks (parent reference references : Nat) (marks : List Mark) : Wiring where
  references := references
  locations := marks.filterMap (·.location? reference)
  slots := marks.filterMap (·.slot? parent reference)
  callbacks := marks.filterMap (·.callback?)

theorem foldl_addMark (parent reference : Nat) (w : Wiring) (marks : List Mark)
    : marks.foldl (addMark parent reference) w
        = w.append (ofMarks parent reference w.references marks) := by
  induction marks generalizing w with
  | nil => simp [append, ofMarks]
  | cons m marks ih =>
    rw [List.foldl_cons, ih]
    cases m with
    | child index sole =>
      cases sole <;>
        simp [append, ofMarks, addMark, addSlot, Mark.callback?, Mark.location?, Mark.slot?]
    | _ => simp [append, ofMarks, addMark, addLocation, Mark.callback?, Mark.location?, Mark.slot?]

end Marks

section Equation

def addBranch (parent source : Nat) (direction : Direction) (s : Sketch) (w : Wiring) : Wiring :=
  if isActive s then addSketch parent (w.addStep source direction) s else w

def isKept (marks : List Mark) (children siblings : Sketch) : Bool :=
  !marks.isEmpty || hasChildBefore children || (isActive children && isActive siblings)

theorem hasChildBefore_cons (c : Content) (marks : List Mark) (children siblings : Sketch)
    : hasChildBefore (.cons (c, marks) children siblings)
        = (marks.any isChildBefore || hasChildBefore siblings) := by
  simp [hasChildBefore, Forest.roots]

theorem isActive_of_hasChildBefore {s : Sketch} (h : hasChildBefore s) : isActive s := by
  induction s with
  | nil => simp [hasChildBefore, Forest.roots] at h
  | cons label children siblings _ ih =>
    obtain ⟨c, marks⟩ := label
    rw [hasChildBefore_cons, Bool.or_eq_true] at h
    simp only [isActive, Bool.or_eq_true]
    rcases h with h | h
    . left
      left
      cases marks with
      | nil => simp at h
      | cons m marks => rfl
    . exact .inr (ih h)

variable {c : Content} {marks : List Mark} {children siblings : Sketch}

theorem not_isActive_cons (h : isActive (.cons (c, marks) children siblings) = false)
    : marks = [] ∧ isActive children = false ∧ isActive siblings = false ∧
        isKept marks children siblings = false := by
  simp only [isActive, Bool.or_eq_false_iff, Bool.not_eq_false', List.isEmpty_iff] at h
  obtain ⟨⟨rfl, hc⟩, hs⟩ := h
  have hb : hasChildBefore children = false := by
    by_contra hb
    rw [isActive_of_hasChildBefore (by simpa using hb)] at hc
    cases hc
  exact ⟨rfl, hc, hs, by simp [isKept, hc, hb]⟩

theorem addSketch_cons (parent : Nat) (w : Wiring)
    : addSketch parent w (.cons (c, marks) children siblings)
        =
      addBranch parent w.references .nextSibling siblings
        (addBranch w.references w.references .firstChild children
          (w.append (ofMarks parent w.references
            (if isKept marks children siblings then w.references + 1 else w.references) marks)))
    := by
  rw [addSketch]
  by_cases h : isActive (.cons (c, marks) children siblings)
  . rw [if_pos h]
    simp only [foldl_addMark]
    unfold addBranch isKept
    cases !marks.isEmpty || hasChildBefore children || (isActive children && isActive siblings) <;>
      rfl
  . rw [if_neg h]
    obtain ⟨rfl, hc, hs, hk⟩ := not_isActive_cons (by simpa using h)
    simp [addBranch, hc, hs, hk, append, ofMarks]

end Equation

section Size

theorem references_addStep (w : Wiring) (source : Nat) (direction : Direction)
    : (w.addStep source direction).references = w.references :=
  rfl

theorem references_addSketch (s : Sketch) (parent : Nat) (w : Wiring)
    : w.references + (if isActive s then 1 else 0) ≤ (addSketch parent w s).references := by
  induction s generalizing parent w with
  | nil => simp [addSketch, isActive]
  | cons label children siblings ihc ihs =>
    obtain ⟨c, marks⟩ := label
    have branch : ∀ {s : Sketch}, (∀ parent w, Wiring.references w + (if isActive s then 1 else 0)
          ≤ (addSketch parent w s).references) → ∀ parent source direction (w : Wiring),
        w.references + (if isActive s then 1 else 0)
          ≤ (addBranch parent source direction s w).references := by
      intro s ih parent source direction w
      unfold addBranch
      split
      . next hs =>
        have := ih parent (w.addStep source direction)
        rwa [if_pos hs] at this
      . exact Nat.le_refl _
    rw [addSketch_cons]
    generalize hw : w.append (ofMarks parent w.references
      (if isKept marks children siblings then w.references + 1 else w.references) marks) = w₂
    have hr : w₂.references
        = if isKept marks children siblings then w.references + 1 else w.references := by
      subst hw
      rfl
    have hc := branch ihc w.references w.references .firstChild w₂
    have hs := branch ihs parent w.references .nextSibling
      (addBranch w.references w.references .firstChild children w₂)
    have hkept : isActive (.cons (c, marks) children siblings) →
        isKept marks children siblings ∨ isActive children ∨ isActive siblings := by
      simp only [isActive, isKept, Bool.or_eq_true]
      tauto
    -- What is left is arithmetic over which of the four parts have marks.
    generalize isKept marks children siblings = kept at hr hkept
    generalize isActive children = down at hc hkept
    generalize isActive siblings = onward at hs hkept
    generalize isActive (.cons (c, marks) children siblings) = active at hkept
    cases active <;> cases kept <;> cases down <;> cases onward <;> simp at hkept hr hc hs ⊢ <;> omega

theorem references_addBranch (parent source : Nat) (direction : Direction) (s : Sketch) (w : Wiring)
    : w.references ≤ (addBranch parent source direction s w).references := by
  unfold addBranch
  split
  . have := references_addSketch s parent (w.addStep source direction)
    rw [references_addStep] at this
    omega
  . exact Nat.le_refl _

end Size

section Callbacks

def callbackAt? (l : Location) : Option Nat :=
  if l.binding = .ref then some l.dataIndex else none

/-- The callbacks that are told that their elements go are those that are told an element. -/
def Paired (w : Wiring) : Prop :=
  w.callbacks = w.locations.filterMap callbackAt?

theorem paired_ofMarks (parent reference references : Nat) (marks : List Mark)
    : Paired (ofMarks parent reference references marks) := by
  have hattribute : ∀ tag name, Binding.ofAttribute tag name ≠ .ref := by
    intro tag name
    unfold Binding.ofAttribute
    split
    . nofun
    . split <;> nofun
  unfold Paired ofMarks
  rw [List.filterMap_filterMap]
  refine List.filterMap_congr fun m _ => ?_
  cases m <;> simp [Mark.callback?, Mark.location?, callbackAt?, hattribute]

theorem Paired.append {w part : Wiring} (hw : Paired w) (hpart : Paired part)
    : Paired (w.append part) := by
  unfold Paired at *
  rw [Wiring.append, List.filterMap_append, ← hw, ← hpart]

theorem Paired.addSketch {s : Sketch} {parent : Nat} {w : Wiring} (hw : Paired w)
    : Paired (addSketch parent w s) := by
  induction s generalizing parent w with
  | nil => exact hw
  | cons label children siblings ihc ihs =>
    obtain ⟨c, marks⟩ := label
    have branch : ∀ {s : Sketch}, (∀ {parent w}, Paired w → Paired (Wiring.addSketch parent w s)) →
        ∀ {parent source direction w}, Paired w → Paired (addBranch parent source direction s w) := by
      intro s ih parent source direction w hw
      unfold addBranch
      split
      . exact ih hw
      . exact hw
    rw [addSketch_cons]
    exact branch ihs (branch ihc (hw.append (paired_ofMarks _ _ _ _)))

end Callbacks

section Slots

variable {slot : ChildSlot}

theorem mem_slots_addBranch {s : Sketch}
    (ih : ∀ {parent : Nat} {w : Wiring}, slot ∈ (addSketch parent w s).slots →
      slot ∈ w.slots ∨ ∃ n ∈ s.labels, ∃ sole, .child slot.index sole ∈ n.2)
    {parent source : Nat} {direction : Direction} {w : Wiring}
    (h : slot ∈ (addBranch parent source direction s w).slots)
    : slot ∈ w.slots ∨ ∃ n ∈ s.labels, ∃ sole, .child slot.index sole ∈ n.2 := by
  unfold addBranch at h
  split at h
  . exact ih (w := w.addStep source direction) h
  . exact .inl h

theorem mem_slots_addSketch {s : Sketch} {parent : Nat} {w : Wiring}
    (h : slot ∈ (addSketch parent w s).slots)
    : slot ∈ w.slots ∨ ∃ n ∈ s.labels, ∃ sole, .child slot.index sole ∈ n.2 := by
  induction s generalizing parent w with
  | nil => exact .inl h
  | cons label children siblings ihc ihs =>
    obtain ⟨c, marks⟩ := label
    simp only [Forest.labels, List.cons_append, List.mem_cons, List.mem_append]
    rw [addSketch_cons] at h
    rcases mem_slots_addBranch ihs h with h | ⟨n, hn, h⟩
    . rcases mem_slots_addBranch ihc h with h | ⟨n, hn, h⟩
      . refine (List.mem_append.1 h).imp_right fun h => ?_
        obtain ⟨m, hm, h⟩ := List.mem_filterMap.1 h
        refine ⟨(c, marks), .inl rfl, ?_⟩
        cases m with
        | child index sole =>
          cases sole <;>
          . cases h
            exact ⟨_, hm⟩
        | _ => cases h
      . exact .inr ⟨n, .inr (.inl hn), h⟩
    . exact .inr ⟨n, .inr (.inr hn), h⟩

end Slots

end Wiring

/-- Whether the links of `d` lead to the first children and the next siblings in a forest. -/
def Walks (d : Document) : Forest (NodeId × Content) → Prop
  | .nil => True
  | .cons (id, _) children siblings =>
    d.firstChild id = .ok children.rootIds.head? ∧
      (siblings.rootIds ≠ [] → d.nextSibling id = .ok siblings.rootIds.head?) ∧
      Walks d children ∧ Walks d siblings

theorem walks_of_spans {d : Document} (h : d.WellFormed) {F : Forest (NodeId × Content)}
    (hs : F.Spans d.kids) (hlive : ∀ x ∈ F.ids, ∃ n, d.node? x = some n) {p : NodeId} {n : Node}
    (hp : d.node? p = some n) (before : List NodeId) (hk : d.kids p = before ++ F.rootIds)
    : Walks d F := by
  induction F generalizing p n before with
  | nil => trivial
  | cons label children siblings ihc ihs =>
    obtain ⟨id, c⟩ := label
    obtain ⟨hkids, hc, hs⟩ := hs
    obtain ⟨m, hm⟩ := hlive id (by simp)
    refine ⟨?_, ?_, ?_, ?_⟩
    . simp only [Document.firstChild, Document.node_eq_ok.2 hm, bind, Except.bind]
      rw [h.links.firstChild hm, hkids]
      rfl
    . intro _
      obtain ⟨m', hm', -, -, hnext⟩ := h.links.child hp hk
      simp only [Document.nextSibling, Document.node_eq_ok.2 hm', bind, Except.bind, hnext]
      rfl
    . exact ihc hc (fun x hx => hlive x (by simp [hx])) hm [] hkids
    . exact ihs hs (fun x hx => hlive x (by simp [hx])) hp (before ++ [id])
        (by rw [hk, Forest.rootIds_cons, List.append_assoc, List.singleton_append])

theorem walks_tree {d : Document} {id : NodeId} {c : Content} {F : Forest (NodeId × Content)}
    {a : Option NodeId} {M : Multiset (NodeId × Document.Standing)}
    (h : d.Holds ((Forest.cons (id, c) F .nil).census a + M))
    : Walks d (.cons (id, c) F .nil) := by
  obtain ⟨hk, hs, -⟩ := h.spans
  have hlive : ∀ x ∈ (Forest.cons (id, c) F .nil).ids, ∃ n, d.node? x = some n := by
    intro x hx
    obtain ⟨n, hn, -⟩ := h.node?_of_mem_ids hx
    exact ⟨n, hn⟩
  obtain ⟨n, hn⟩ := hlive id (by simp)
  refine ⟨?_, by simp, ?_, trivial⟩
  . simp only [Document.firstChild, Document.node_eq_ok.2 hn, bind, Except.bind]
    rw [h.wellFormed.links.firstChild hn, hk]
    rfl
  . exact walks_of_spans h.wellFormed hs (fun x hx => hlive x (by simp [hx])) hn [] hk

namespace Wiring

section Follow

variable {h : Host} {references : List NodeId} {x y : NodeId}

def next (d : Document) (id : NodeId) : Direction → Except Fault (Option NodeId)
  | .firstChild => d.firstChild id
  | .nextSibling => d.nextSibling id

theorem reference_eq_ok {i : Nat} (hx : references[i]? = some x)
    : reference references i h = .ok x h := by
  unfold reference
  rw [hx]
  rfl

theorem follow_eq_ok {source : Nat} {direction : Direction} (target : Nat)
    (hx : references[source]? = some x) (hy : next h.document x direction = .ok (some y))
    : follow references ⟨target, source, direction⟩ h = .ok (references.set target y) h := by
  unfold follow
  rw [bind_run (reference_eq_ok hx)]
  cases direction <;> dsimp only <;> rw [bind_run (read_eq_ok hy)] <;> rfl

end Follow

/--
What is to be known of a part of a wiring, which serves the roots `S` in the parent `p`. It runs from
one list of references to another, and uses references from `start` on.
-/
structure Serves (h : Host) (p : NodeId) (S : Marked) (start : Nat) (part : Wiring)
    (references references' : List NodeId) : Prop where
  le : start ≤ part.references
  walk : part.steps.foldlM follow references h = .ok references' h
  length : references'.length = references.length
  keeps : ∀ i < start, references'[i]? = references[i]?
  steps_lt : ∀ s ∈ part.steps, s.source < part.references ∧ s.target < part.references
  bounds : part.locations.map (·.resolve references') = S.bounds.map some
  bounds_lt : ∀ l ∈ part.locations, l.reference < part.references
  openings : part.slots.map (·.resolve references') = (S.openings p).map some
  openings_lt : ∀ s ∈ part.slots,
    s.parent < part.references ∧ ∀ a, s.anchor = some a → a < part.references
  callbacks : part.callbacks = S.callbacks
  idle : isActive S.sketch = false → references' = references

section Serves

variable {h : Host} {p : NodeId} {S T : Marked} {start : Nat} {part part' : Wiring}
  {references references' references'' : List NodeId}

theorem serves_nothing (hS : isActive S.sketch = false)
    : Serves h p S start { references := start } references references := by
  have hnone : ∀ {S : Marked} p, isActive S.sketch = false →
      S.bounds = [] ∧ S.openings p = [] ∧ S.callbacks = [] := by
    intro S
    induction S with
    | nil => intro p _; exact ⟨rfl, rfl, rfl⟩
    | cons label children siblings ihc ihs =>
      intro p hS
      obtain ⟨⟨id, c⟩, marks⟩ := label
      simp only [Marked.sketch, Forest.map, isActive, Bool.or_eq_false_iff, Bool.not_eq_false',
        List.isEmpty_iff] at hS
      obtain ⟨⟨rfl, hc⟩, hs⟩ := hS
      obtain ⟨hb, ho, hcb⟩ := ihc id hc
      obtain ⟨hb', ho', hcb'⟩ := ihs p hs
      simp [Marked.bounds, Marked.openings, Marked.callbacks, hb, ho, hcb, hb', ho', hcb']
  obtain ⟨hb, ho, hc⟩ := hnone p hS
  constructor <;> simp [hb, ho, hc, pure, EStateM.pure]

theorem resolve_bounds {ls : List Location} {bound : Nat} (hl : ∀ l ∈ ls, l.reference < bound)
    (hk : ∀ i < bound, references''[i]? = references'[i]?)
    : ls.map (·.resolve references'') = ls.map (·.resolve references') :=
  List.map_congr_left fun l hm => Location.resolve_congr (hl l hm) hk

theorem resolve_openings {ss : List ChildSlot} {bound : Nat}
    (hs : ∀ s ∈ ss, s.parent < bound ∧ ∀ a, s.anchor = some a → a < bound)
    (hk : ∀ i < bound, references''[i]? = references'[i]?)
    : ss.map (·.resolve references'') = ss.map (·.resolve references') :=
  List.map_congr_left fun s hm => ChildSlot.resolve_congr (hs s hm).1 (hs s hm).2 hk

/--
Wiring what lies in a direction from a node that was found. `ih` is what is known of the wiring of the
nodes there.
-/
theorem serves_addBranch (parent : Nat) {source : Nat} {direction : Direction} {x : NodeId}
    (w : Wiring)
    (ih : ∀ w references, (addSketch parent w S.sketch).references ≤ references.length →
      (isActive S.sketch → references[w.references]? = S.nodes.rootIds.head?) →
      (hasChildBefore S.sketch → parent < w.references ∧ references[parent]? = some p) →
      ∃ part references', addSketch parent w S.sketch = w.append part ∧
        Serves h p S w.references part references references')
    (hroom : (addBranch parent source direction S.sketch w).references ≤ references.length)
    (hsource : isActive S.sketch → source ≤ w.references ∧ references[source]? = some x ∧
      next h.document x direction = .ok S.nodes.rootIds.head?)
    (hparent : hasChildBefore S.sketch → parent < w.references ∧ references[parent]? = some p)
    : ∃ part references', addBranch parent source direction S.sketch w = w.append part ∧
        Serves h p S w.references part references references' := by
  unfold addBranch at hroom ⊢
  split at hroom
  . next hact =>
    rw [if_pos hact]
    obtain ⟨hle, hx, hy⟩ := hsource hact
    -- what is active is not empty
    obtain ⟨y, hhead⟩ : ∃ y, S.nodes.rootIds.head? = some y := by
      cases S with
      | nil => cases hact
      | cons label children siblings => exact ⟨label.1.1, rfl⟩
    have hlt := references_addSketch S.sketch parent (w.addStep source direction)
    rw [if_pos hact, references_addStep] at hlt
    have hin : w.references < references.length := by omega
    obtain ⟨part, references', hw, hserves⟩ := ih (w.addStep source direction)
      (references.set w.references y) (by simpa using hroom)
      (by
        intro _
        rw [references_addStep, hhead, List.getElem?_set_self hin])
      (by
        intro hb
        obtain ⟨hlt, hp⟩ := hparent hb
        refine ⟨hlt, ?_⟩
        rwa [List.getElem?_set_ne (by omega)])
    rw [references_addStep] at hserves
    refine ⟨{ part with steps := ⟨w.references, source, direction⟩ :: part.steps }, references', ?_,
      { hserves with
        walk := ?_, length := by rw [hserves.length, List.length_set], keeps := ?_, steps_lt := ?_,
        idle := ?_ }⟩
    . rw [hw]
      simp [append, addStep]
    . rw [hhead] at hy
      rw [List.foldlM_cons, bind_run (follow_eq_ok _ hx hy)]
      exact hserves.walk
    . intro i hi
      rw [hserves.keeps i hi, List.getElem?_set_ne (by omega)]
    . have hpart : part.references = (addSketch parent (w.addStep source direction) S.sketch).references
        := by rw [hw]; rfl
      intro s hs
      rcases List.mem_cons.1 hs with rfl | hs
      . dsimp only
        omega
      . exact hserves.steps_lt s hs
    . intro hidle
      rw [hact] at hidle
      cases hidle
  . next hact =>
    rw [if_neg hact]
    refine ⟨{ references := w.references }, references, by simp [append], ?_⟩
    exact serves_nothing (by simpa using hact)

theorem resolve_marks_bounds {r : Nat} {id : NodeId} (hr : references[r]? = some id)
    (marks : List Mark)
    : (marks.filterMap (·.location? r)).map (·.resolve references)
        = (marks.filterMap (·.bound? id)).map some := by
  rw [List.map_filterMap, List.map_filterMap]
  apply List.filterMap_congr
  intro m _
  cases m <;> simp [Mark.location?, Mark.bound?, Location.resolve, hr]

theorem resolve_marks_openings {r parent : Nat} {id : NodeId} (hr : references[r]? = some id)
    (marks : List Mark) (hp : (∃ i, Mark.child i false ∈ marks) → references[parent]? = some p)
    : (marks.filterMap (·.slot? parent r)).map (·.resolve references)
        = (marks.filterMap (·.opening? p id)).map some := by
  rw [List.map_filterMap, List.map_filterMap]
  apply List.filterMap_congr
  intro m hm
  cases m with
  | child i sole =>
    cases sole with
    | true => simp [Mark.slot?, Mark.opening?, ChildSlot.resolve, hr]
    | false => simp [Mark.slot?, Mark.opening?, ChildSlot.resolve, hr, hp ⟨i, hm⟩]
  | _ => rfl

theorem mem_marks_lt {r parent bound : Nat} {marks : List Mark} (hr : marks ≠ [] → r < bound)
    (hp : (∃ i, Mark.child i false ∈ marks) → parent < bound)
    : (∀ l ∈ marks.filterMap (·.location? r), l.reference < bound) ∧
        ∀ s ∈ marks.filterMap (·.slot? parent r),
          s.parent < bound ∧ ∀ a, s.anchor = some a → a < bound := by
  constructor
  . intro l hl
    obtain ⟨m, hm, hl⟩ := List.mem_filterMap.1 hl
    have hr := hr (List.ne_nil_of_mem hm)
    cases m <;> simp [Mark.location?] at hl <;> subst hl <;> exact hr
  . intro s hs
    obtain ⟨m, hm, hs⟩ := List.mem_filterMap.1 hs
    have hr := hr (List.ne_nil_of_mem hm)
    cases m with
    | child i sole =>
      cases sole with
      | true =>
        cases hs
        exact ⟨hr, by simp⟩
      | false =>
        cases hs
        exact ⟨hp ⟨i, hm⟩, by simpa using hr⟩
    | _ => cases hs

theorem Serves.cons {C S : Marked} {partC partS : Wiring} {refs refsC refsS : List NodeId}
    {parent r r₁ : Nat} {id : NodeId} {c : Content} {marks : List Mark}
    (hle : r ≤ r₁) (hC : Serves h id C r₁ partC refs refsC)
    (hS : Serves h p S partC.references partS refsC refsS)
    (hid : marks ≠ [] → r < r₁ ∧ refs[r]? = some id)
    (hp : (∃ i, Mark.child i false ∈ marks) → parent < r ∧ refs[parent]? = some p)
    : Serves h p (.cons ((id, c), marks) C S) r
        (((ofMarks parent r r₁ marks).append partC).append partS) refs refsS := by
  have hleC := hC.le
  have hleS := hS.le
  -- What the node itself uses is below all that the parts after it overwrite.
  have hkeep : ∀ i < r₁, refsS[i]? = refs[i]? := fun i hi => by
    rw [hS.keeps i (by omega), hC.keeps i hi]
  obtain ⟨hlt, hlt'⟩ := mem_marks_lt (fun hm => (hid hm).1)
    (fun hb => (by have := (hp hb).1; omega : parent < r₁))
  constructor
  case le =>
    exact hle.trans (hleC.trans hleS)
  case walk =>
    simp only [append, ofMarks, List.nil_append, List.foldlM_append]
    rw [bind_run hC.walk]
    exact hS.walk
  case length =>
    exact hS.length.trans hC.length
  case keeps =>
    intro i hi
    exact hkeep i (by omega)
  case steps_lt =>
    intro s hs
    simp only [append, ofMarks, List.nil_append, List.mem_append] at hs ⊢
    rcases hs with hs | hs
    . have := hC.steps_lt s hs
      omega
    . exact hS.steps_lt s hs
  case bounds =>
    simp only [append, ofMarks, List.map_append, Marked.bounds]
    rw [hS.bounds, resolve_bounds hC.bounds_lt hS.keeps, hC.bounds]
    by_cases hm : marks = []
    . simp [hm]
    . rw [resolve_marks_bounds (by rw [hkeep r (hid hm).1, (hid hm).2])]
  case bounds_lt =>
    intro l hl
    simp only [append, ofMarks, List.mem_append] at hl ⊢
    rcases hl with (hl | hl) | hl
    . have := hlt l hl
      omega
    . have := hC.bounds_lt l hl
      omega
    . exact hS.bounds_lt l hl
  case openings =>
    simp only [append, ofMarks, List.map_append, Marked.openings]
    rw [hS.openings, resolve_openings hC.openings_lt hS.keeps, hC.openings]
    by_cases hm : marks = []
    . simp [hm]
    . rw [resolve_marks_openings (by rw [hkeep r (hid hm).1, (hid hm).2]) _ fun hb => by
        rw [hkeep parent (by have := (hp hb).1; omega), (hp hb).2]]
  case openings_lt =>
    intro s hs
    simp only [append, ofMarks, List.mem_append] at hs ⊢
    have weaken : ∀ {b : Nat}, b ≤ partS.references →
        (s.parent < b ∧ ∀ a, s.anchor = some a → a < b) →
        s.parent < partS.references ∧ ∀ a, s.anchor = some a → a < partS.references :=
      fun hb hs => ⟨Nat.lt_of_lt_of_le hs.1 hb, fun a ha => Nat.lt_of_lt_of_le (hs.2 a ha) hb⟩
    rcases hs with (hs | hs) | hs
    . exact weaken (by omega) (hlt' s hs)
    . exact weaken hleS (hC.openings_lt s hs)
    . exact hS.openings_lt s hs
  case callbacks =>
    simp only [append, ofMarks, Marked.callbacks, hC.callbacks, hS.callbacks]
  case idle =>
    intro hidle
    simp only [Marked.sketch, Forest.map, isActive, Bool.or_eq_false_iff] at hidle
    rw [hS.idle hidle.2, hC.idle hidle.1.2]

/-- The wiring of a sketch serves any copy of it, when its first node and its parent are known. -/
theorem serves_addSketch (S : Marked) (hwalks : Walks h.document S.nodes) (parent : Nat) (w : Wiring)
    (references : List NodeId)
    (hroom : (addSketch parent w S.sketch).references ≤ references.length)
    (hfirst : isActive S.sketch → references[w.references]? = S.nodes.rootIds.head?)
    (hparent : hasChildBefore S.sketch → parent < w.references ∧ references[parent]? = some p)
    : ∃ part references', addSketch parent w S.sketch = w.append part ∧
        Serves h p S w.references part references references' := by
  induction S generalizing p parent w references with
  | nil =>
    refine ⟨{ references := w.references }, references, by simp [append]; rfl, ?_⟩
    exact serves_nothing rfl
  | cons label children siblings ihc ihs =>
    obtain ⟨⟨id, c⟩, marks⟩ := label
    obtain ⟨hdown, honward, hwc, hws⟩ := hwalks
    have hsketch : Marked.sketch (.cons ((id, c), marks) children siblings)
        = .cons (c, marks) (Marked.sketch children) (Marked.sketch siblings) := rfl
    rw [hsketch] at hroom hfirst hparent ⊢
    rw [addSketch_cons] at hroom ⊢
    rw [hasChildBefore_cons, Bool.or_eq_true] at hparent
    have hid : marks ≠ [] ∨ isActive (Marked.sketch children) ∨ isActive (Marked.sketch siblings) →
        references[w.references]? = some id := by
      intro ha
      apply hfirst
      simp only [isActive, Bool.or_eq_true, Bool.not_eq_true', List.isEmpty_eq_false_iff]
      tauto
    have hkept : isKept marks (Marked.sketch children) (Marked.sketch siblings) → w.references
        < if isKept marks (Marked.sketch children) (Marked.sketch siblings) then w.references + 1
          else w.references := by
      intro hk
      rw [if_pos hk]
      omega
    have hle : w.references ≤ if isKept marks (Marked.sketch children) (Marked.sketch siblings) then
        w.references + 1 else w.references := by
      split <;> omega
    generalize (if isKept marks (Marked.sketch children) (Marked.sketch siblings) then
      w.references + 1 else w.references) = r at *
    have hdown : next h.document id .firstChild = .ok (Marked.nodes children).rootIds.head? := hdown
    obtain ⟨partC, refsC, hwC, hC⟩ := serves_addBranch w.references
      (w.append (ofMarks parent w.references r marks))
      (fun v references => ihc hwc w.references v references)
      ((references_addBranch ..).trans hroom)
      (fun ha => ⟨hle, hid (.inr (.inl ha)), hdown⟩)
      (fun hb => ⟨hkept (by simp [isKept, hb]),
        hid (.inr (.inl (isActive_of_hasChildBefore hb)))⟩)
    have hC : Serves h id children r partC references refsC := hC
    rw [hwC] at hroom ⊢
    -- if `id` lost its reference to the children, nothing is to be found from it any more
    have hidC : isActive (Marked.sketch siblings) → refsC[w.references]? = some id := by
      intro ha
      rw [← hid (.inr (.inr ha))]
      by_cases hk : isKept marks (Marked.sketch children) (Marked.sketch siblings)
      . exact hC.keeps _ (hkept hk)
      . simp only [isKept, ha, Bool.and_true, Bool.or_eq_true, not_or] at hk
        rw [hC.idle (by simpa using hk.2)]
    have honward : isActive (Marked.sketch siblings) →
        next h.document id .nextSibling = .ok (Marked.nodes siblings).rootIds.head? := by
      intro ha
      apply honward
      cases siblings with
      | nil => cases ha
      | cons label _ _ => exact List.cons_ne_nil label.1.1 _
    obtain ⟨partS, refsS, hwS, hS⟩ := serves_addBranch parent
      ((w.append (ofMarks parent w.references r marks)).append partC)
      (fun v references => ihs hws parent v references) (by rw [hC.length]; exact hroom)
      (fun ha => ⟨hle.trans hC.le, hidC ha, honward ha⟩)
      (by
        intro hb
        obtain ⟨hlt, hp⟩ := hparent (.inr hb)
        exact ⟨Nat.lt_of_lt_of_le hlt (hle.trans hC.le),
          by rw [hC.keeps _ (Nat.lt_of_lt_of_le hlt hle), hp]⟩)
    refine ⟨((ofMarks parent w.references r marks).append partC).append partS, refsS, ?_, ?_⟩
    . rw [hwS, append_assoc, append_assoc, append_assoc]
    . apply Serves.cons hle hC hS
      . intro hm
        exact ⟨hkept (by simp [isKept, hm]), hid (.inl hm)⟩
      . rintro ⟨i, hi⟩
        exact hparent (.inl (List.any_eq_true.2 ⟨_, hi, rfl⟩))

theorem locate_eq_ok {S : Marked} {root : NodeId} (hwalks : Walks h.document S.nodes)
    (hroot : S.nodes.rootIds = [root]) (hb : hasChildBefore S.sketch = false)
    : ∃ references, (ofSketch S.sketch).locate root h = .ok references h ∧
        references.length = (ofSketch S.sketch).references ∧
        Serves h root S 0 (ofSketch S.sketch)
          (List.replicate (ofSketch S.sketch).references root) references := by
  have hnone : ∀ part, append {} part = part := fun part => by simp [append]
  obtain ⟨part, references, hw, hserves⟩ := serves_addSketch (p := root) S hwalks 0 {}
    (List.replicate (ofSketch S.sketch).references root)
    (by rw [List.length_replicate]; exact Nat.le_refl _)
    (by
      intro ha
      have hlt := references_addSketch S.sketch 0 {}
      rw [if_pos ha] at hlt
      have hlt : 0 < (ofSketch S.sketch).references := by
        unfold ofSketch
        omega
      rw [hroot, List.getElem?_replicate, if_pos hlt]
      rfl)
    (by simp [hb])
  rw [hnone] at hw
  have hw : ofSketch S.sketch = part := hw
  rw [← hw] at hserves
  exact ⟨references, hserves.walk, by rw [hserves.length, List.length_replicate], hserves⟩

end Serves

end Wiring

end VirtualDom.Template
