import VirtualDom.Proofs.Template.Activity
import VirtualDom.Proofs.Template.Acts

/-!
This module contains the correctness of surveys: the way through a plan leads to its active nodes in
document order, and what is done there are the acts of the sketch. So the references of a template are
used as those of its sketch are.
-/

namespace VirtualDom.Template

open Wiring (isActive hasChildBefore isChildBefore isKept)

namespace Survey

theorem wiring_eq (v : Survey) : v.wiring = .ofActs 0 v.acts := by
  unfold wiring
  rw [Wiring.foldl_perform]
  simp [Wiring.append, Wiring.ofActs]

variable {v : Survey}

theorem mem_steps {s : Step} : s ∈ v.wiring.steps ↔ .step s ∈ v.acts := by
  simp [wiring_eq, Wiring.ofActs, Act.step?_eq_some]

theorem mem_locations {l : Location} : l ∈ v.wiring.locations ↔ .location l ∈ v.acts := by
  simp [wiring_eq, Wiring.ofActs, Act.location?_eq_some]

theorem mem_slots {s : ChildSlot} : s ∈ v.wiring.slots ↔ .slot s ∈ v.acts := by
  simp [wiring_eq, Wiring.ofActs, Act.slot?_eq_some]

section Orderly

variable (h : Orderly v.wiring.references {} v.acts)

include h

theorem fits_of_mem {a : Act} (ha : a ∈ v.acts)
    : ∃ Γ : Scope, Γ.free ≤ v.wiring.references ∧ a.Fits v.wiring.references Γ := by
  obtain ⟨Γ, hfree, hfits⟩ := h.fits_of_mem ha
  refine ⟨Γ, ?_, hfits⟩
  rw [wiring_eq]
  exact hfree

theorem source_found {before after : List Step} {s : Step} (hs : v.wiring.steps = before ++ s :: after)
    : s.source = 0 ∨ ∃ s' ∈ before, s'.target = s.source := by
  rw [wiring_eq] at hs
  obtain ⟨l, l', hacts, rfl, hl'⟩ := List.filterMap_eq_append_iff.1 hs
  obtain ⟨between, a, after, rfl, hbetween, ha, -⟩ := List.filterMap_eq_cons_iff.1 hl'
  obtain rfl := Act.step?_eq_some.1 ha
  rw [hacts, ← List.append_assoc] at h
  have := h.source_found
  rwa [List.filterMap_append, List.filterMap_eq_nil_iff.2 hbetween, List.append_nil] at this

theorem step_lt {s : Step} (hs : s ∈ v.wiring.steps)
    : s.target < v.wiring.references ∧ s.source < v.wiring.references := by
  have target_lt : ∀ s ∈ v.wiring.steps, s.target < v.wiring.references := by
    intro s hs
    obtain ⟨_, -, hfits⟩ := fits_of_mem h (mem_steps.1 hs)
    exact hfits.2.1
  refine ⟨target_lt s hs, ?_⟩
  obtain ⟨before, after, hsplit⟩ := List.append_of_mem hs
  rcases source_found h hsplit with h0 | ⟨s', hs', heq⟩
  . exact h0 ▸ Nat.zero_lt_of_lt (target_lt s hs)
  . exact heq ▸ target_lt s' (hsplit ▸ List.mem_append_left _ hs')

theorem location_lt {l : Location} (hl : l ∈ v.wiring.locations)
    : l.reference < v.wiring.references := by
  obtain ⟨_, hfree, hfits⟩ := fits_of_mem h (mem_locations.1 hl)
  exact Nat.lt_of_lt_of_le hfits hfree

theorem slot_lt {s : ChildSlot} (hs : s ∈ v.wiring.slots)
    : s.parent < v.wiring.references ∧ ∀ a ∈ s.anchor, a < v.wiring.references := by
  obtain ⟨_, hfree, hfits⟩ := fits_of_mem h (mem_slots.1 hs)
  exact ⟨Nat.lt_of_lt_of_le hfits.1 hfree, fun a ha => Nat.lt_of_lt_of_le (hfits.2 a ha) hfree⟩

end Orderly

theorem free_eq {v w : Survey} {l : List Act} (h : w.acts = v.acts ++ l)
    : w.free = v.free + l.countP Act.isKeep := by
  unfold free wiring
  rw [h, List.foldl_append, Wiring.references_foldl_perform]

end Survey

namespace Plan

variable {p : Plan} {up : Option Nat} {i : Nat} {s : Sketch} {v : Survey} {parent : Nat}

theorem foldlM_wireMark (r : Nat) (marks : List Mark)
    (hparent : marks.any isChildBefore →
      ∃ a, p.container? i = some (some a) ∧ v.found a = some parent)
    : marks.foldlM (p.wireMark i r) v
        = some { v with acts := v.acts ++ marks.flatMap (·.acts parent r) } := by
  induction marks generalizing v with
  | nil => simp
  | cons m marks ih =>
    simp only [List.any_cons, Bool.or_eq_true] at hparent
    have hm : p.wireMark i r v m = some { v with acts := v.acts ++ m.acts parent r } := by
      cases m with
      | child index sole =>
        cases sole with
        | true => rfl
        | false =>
          obtain ⟨a, ha, hv⟩ := hparent (.inl rfl)
          simp only [wireMark, ha, Option.bind_eq_bind, Option.bind_some, hv]
          rfl
      | ref index => simp [wireMark, Survey.bindTo, Survey.perform, Mark.acts]
      | _ => rfl
    rw [List.foldlM_cons, hm]
    simp only [Option.bind_eq_bind, Option.bind_some]
    rw [ih (v := { v with acts := v.acts ++ m.acts parent r }) fun h => hparent (.inr h)]
    simp

theorem Draws.exists_follow {j : Nat} (h : p.Draws up j s) (hlt : i < j)
    : ∃ link, p.follow i (first? j s) = some link ∧
        link.map (·.1) = if isActive s then first? j s else none := by
  cases s with
  | nil => exact ⟨none, rfl, rfl⟩
  | cons label children siblings =>
    obtain ⟨c, marks⟩ := label
    refine ⟨if isActive (.cons (c, marks) children siblings) then some ⟨j, hlt⟩ else none, ?_, ?_⟩
    . rw [first?, follow, h.1]
      simp [hlt, Node.ofSketch]
    . split <;> rfl

theorem isSome_first? (i : Nat) (s : Sketch)
    : (if isActive s then first? i s else none).isSome = isActive s := by
  cases s with
  | nil => rfl
  | cons label children siblings => cases isActive (.cons label children siblings) <;> rfl

/-- What comes of a visit is these acts after those of `v`, with no change to the nodes before `i`. -/
def Adds (i : Nat) (v : Survey) (l : List Act) (result : Option Survey) : Prop :=
  ∃ w, result = some w ∧ w.acts = v.acts ++ l ∧ ∀ j < i, w.found j = v.found j

theorem Adds.nothing : Adds i v [] (some v) :=
  ⟨v, rfl, (List.append_nil _).symm, fun _ _ => rfl⟩

theorem Adds.mono {j : Nat} {l : List Act} {result : Option Survey} (h : Adds j v l result)
    (hle : i ≤ j) : Adds i v l result := by
  obtain ⟨w, hresult, hacts, hkeeps⟩ := h
  exact ⟨w, hresult, hacts, fun k hk => hkeeps k (by omega)⟩

theorem Adds.after {w : Survey} {l l' : List Act} {result : Option Survey} (h : Adds i w l' result)
    (hacts : w.acts = v.acts ++ l) (hkeeps : ∀ j < i, w.found j = v.found j)
    : Adds i v (l ++ l') result := by
  obtain ⟨w', hresult, hacts', hkeeps'⟩ := h
  refine ⟨w', hresult, ?_, fun j hj => (hkeeps' j hj).trans (hkeeps j hj)⟩
  rw [hacts', hacts, List.append_assoc]

/-- If a child belongs before one of these nodes, then their parent was found under this reference. -/
def Housed (p : Plan) (i parent : Nat) (v : Survey) (before : Bool) : Prop :=
  before → ∃ a < i, p.container? i = some (some a) ∧ v.found a = some parent

theorem adds_wireNode {n : Node} (both : Bool)
    (hparent : p.Housed i parent v (n.marks.any isChildBefore))
    : ∃ w, p.wireNode i n both v = some w ∧
        w.acts = v.acts ++ ((if n.needed || !n.marks.isEmpty || both then [.keep v.free] else [])
          ++ n.marks.flatMap (·.acts parent v.free)) ∧
        (∀ j < i, w.found j = v.found j) ∧ (n.needed → w.found i = some v.free) := by
  unfold wireNode
  cases hmarked : n.needed || !n.marks.isEmpty with
  | true =>
    simp only [Bool.true_or, if_true]
    rw [foldlM_wireMark (v := (v.perform (.keep v.free)).refer i v.free) v.free n.marks]
    . refine ⟨_, rfl, List.append_assoc .., ?_, ?_⟩
      . intro j hj
        exact if_neg (Nat.ne_of_lt hj)
      . intro _
        exact if_pos rfl
    . intro h
      obtain ⟨a, ha, hcontainer, hfound⟩ := hparent h
      exact ⟨a, hcontainer, (if_neg (Nat.ne_of_lt ha)).trans hfound⟩
  | false =>
    rw [Bool.or_eq_false_iff, Bool.not_eq_false', List.isEmpty_iff] at hmarked
    obtain ⟨hneeded, hmarks⟩ := hmarked
    refine ⟨_, rfl, ?_, ?_, fun h => by rw [hneeded] at h; cases h⟩
    . cases both <;> simp [hmarks, Survey.perform]
    . intro j _
      cases both <;> rfl

def visitLink (p : Plan) (source : Nat) (direction : Direction) (v : Survey)
    : Option Nat → Option Survey
  | some i => p.visit i (v.stepTo source direction)
  | none => some v

theorem visit_of_active {n : Node} (hn : p[i]? = some n) (hactive : n.active)
    {down onward : Option { j // i < j }} (hdown : p.follow i n.firstChild = some down)
    (honward : p.follow i n.nextSibling = some onward)
    : p.visit i v = (do
        let w ← p.wireNode i n ((down.map (·.1)).isSome && (onward.map (·.1)).isSome) v
        let w ← p.visitLink v.free .firstChild w (down.map (·.1))
        p.visitLink v.free .nextSibling w (onward.map (·.1))) := by
  rw [visit]
  split
  . next hm => cases hn.symm.trans hm
  . next m hm =>
    cases hn.symm.trans hm
    simp only [Option.bind_eq_bind, Option.bind_some, hactive, hdown, honward, if_true]
    cases down <;> cases onward <;> rfl

theorem visit_of_inactive {n : Node} (hn : p[i]? = some n) (h : n.active = false)
    : p.visit i v = some v := by
  rw [visit]
  split
  . next hm => cases hn.symm.trans hm
  . next m hm =>
    cases hn.symm.trans hm
    rw [if_neg (by simp [h])]

theorem Draws.adds_branch (h : p.Draws up i s)
    (ih : ∀ {parent : Nat} {v : Survey}, s ≠ .nil → p.Housed i parent v (hasChildBefore s) →
      Adds i v (s.acts parent v.free) (p.visit i v))
    (hparent : p.Housed i parent v (hasChildBefore s)) (source : Nat) (direction : Direction)
    : Adds i v (s.branch parent source v.free direction)
        (p.visitLink source direction v (if isActive s then first? i s else none)) := by
  unfold Sketch.branch
  cases s with
  | nil => exact Adds.nothing
  | cons label children siblings =>
    split
    . have hstep : (v.stepTo source direction).acts = v.acts ++ [.step ⟨v.free, source, direction⟩] :=
        rfl
      have hfree : (v.stepTo source direction).free = v.free :=
        Survey.free_eq hstep
      have := ih (v := v.stepTo source direction) (by simp) hparent
      rw [hfree] at this
      exact this.after hstep fun _ _ => rfl
    . exact Adds.nothing

section Housed

variable {c : Content} {marks : List Mark} {C S : Sketch}

theorem Draws.housed_children (h : p.Draws up i (.cons (c, marks) C S)) {r : Nat}
    (hfound : hasChildBefore C → v.found i = some r) : p.Housed (i + 1) r v (hasChildBefore C) := by
  intro hb
  refine ⟨i, Nat.lt_succ_self i, h.container?_child ?_, hfound hb⟩
  rintro rfl
  cases hb

theorem Draws.housed_siblings {w : Survey} (h : p.Draws up i (.cons (c, marks) C S))
    (hparent : p.Housed i parent v (hasChildBefore (.cons (c, marks) C S)))
    (hkeeps : ∀ j < i, w.found j = v.found j)
    : p.Housed (i + 1 + C.size) parent w (hasChildBefore S) := by
  intro hb
  obtain ⟨a, ha, hcontainer, hfound⟩ := hparent (by rw [Wiring.hasChildBefore_cons, hb, Bool.or_true])
  refine ⟨a, by omega, (h.container?_sibling ?_).trans hcontainer, (hkeeps a ha).trans hfound⟩
  rintro rfl
  cases hb

end Housed

theorem Draws.adds_visit (h : p.Draws up i s) (hs : s ≠ .nil)
    (hparent : p.Housed i parent v (hasChildBefore s))
    : Adds i v (s.acts parent v.free) (p.visit i v) := by
  induction s generalizing up i parent v with
  | nil => exact absurd rfl hs
  | cons label children siblings ihc ihs =>
    obtain ⟨c, marks⟩ := label
    obtain ⟨hn, hchildren, hsiblings⟩ := id h
    cases hactive : isActive (.cons (c, marks) children siblings) with
    | false =>
      rw [visit_of_inactive hn hactive, Sketch.acts_of_not_isActive hactive]
      exact Adds.nothing
    | true =>
      have hkept : (hasChildBefore children || !marks.isEmpty || (isActive children && isActive siblings))
          = isKept marks children siblings := by
        rw [isKept, Bool.or_comm (hasChildBefore children)]
      have hmarks : p.Housed i parent v (marks.any isChildBefore) := by
        intro hb
        exact hparent (by rw [Wiring.hasChildBefore_cons, hb, Bool.true_or])
      obtain ⟨v₁, hnode, hacts₁, hkeeps₁, hfound⟩ := adds_wireNode
        (n := Node.ofSketch up i c marks children siblings) (isActive children && isActive siblings) hmarks
      obtain ⟨down, hfollow, hdown⟩ := hchildren.exists_follow (Nat.lt_succ_self i)
      obtain ⟨onward, hfollow', honward⟩ := hsiblings.exists_follow (i := i) (by omega)
      rw [visit_of_active hn hactive hfollow hfollow', hdown, honward, isSome_first?, isSome_first?, hnode]
      simp only [Node.ofSketch, hkept] at hacts₁
      have hfree₁ : v₁.free = if isKept marks children siblings then v.free + 1 else v.free := by
        rw [Survey.free_eq hacts₁, List.countP_append, Sketch.countP_isKeep_marks]
        split <;> rfl
      -- The reference is kept while the children are visited if one of them needs it.
      obtain ⟨v₂, hbelow, hacts₂, hkeeps₂⟩ := hchildren.adds_branch (ihc hchildren)
        (h.housed_children hfound) v.free .firstChild
      have hfree₂ : v₂.free = v₁.free + Sketch.kept children := by
        rw [Survey.free_eq hacts₂, Sketch.countP_isKeep_branch (Sketch.countP_isKeep_acts children)]
      have hkeeps : ∀ j < i, v₂.found j = v₁.found j := fun j hj => hkeeps₂ j (by omega)
      have hafter := hsiblings.adds_branch (ihs hsiblings)
        (h.housed_siblings hparent fun j hj => (hkeeps j hj).trans (hkeeps₁ j hj)) v.free .nextSibling
      simp only [Option.bind_eq_bind, Option.bind_some, hbelow]
      have := ((hafter.mono (by omega)).after hacts₂ hkeeps).after hacts₁ hkeeps₁
      rw [hfree₂, hfree₁, ← List.append_assoc] at this
      rw [Sketch.acts_cons]
      exact this

def isLive (p : Plan) (link : Option Nat) : Bool :=
  link.any fun i => p[i]?.any (·.active)

theorem Draws.isLive_first? (h : p.Draws up i s) : p.isLive (first? i s) = isActive s := by
  cases s with
  | nil => rfl
  | cons label children siblings =>
    obtain ⟨c, marks⟩ := label
    have hn : p[i]? = _ := h.1
    simp [isLive, first?, hn, Node.ofSketch]

theorem Draws.countP_eq_kept (h : p.Draws up i s)
    : (ofSketch up i s).countP (fun n =>
          n.needed || !n.marks.isEmpty || (p.isLive n.firstChild && p.isLive n.nextSibling))
        = s.kept := by
  induction s generalizing up i with
  | nil => rfl
  | cons label children siblings ihc ihs =>
    obtain ⟨c, marks⟩ := label
    obtain ⟨-, hchildren, hsiblings⟩ := h
    rw [ofSketch, Array.countP_append, Array.countP_append, ihc hchildren, ihs hsiblings, Sketch.kept,
      Array.countP_singleton, isKept, Bool.or_comm (!marks.isEmpty)]
    simp only [Node.ofSketch, hchildren.isLive_first?, hsiblings.isLive_first?]

theorem survey_ofSketch {s : Sketch} (hbefore : hasChildBefore s = false)
    : ∃ v, (ofSketch none 0 s).survey = some v ∧ v.acts = s.acts 0 0 ∧ v.wiring = .ofSketch s := by
  have hwiring : ∀ v : Survey, v.acts = s.acts 0 0 → v.wiring = .ofSketch s := by
    intro v hacts
    rw [Survey.wiring, hacts]
    exact Wiring.foldl_perform_acts s 0 {}
  cases s with
  | nil => exact ⟨{}, rfl, rfl, hwiring _ rfl⟩
  | cons label children siblings =>
    obtain ⟨c, marks⟩ := label
    have hdraws := draws_ofSketch (.cons (c, marks) children siblings)
    have hhoused : Housed (ofSketch none 0 (.cons (c, marks) children siblings)) 0 0 {}
        (hasChildBefore (.cons (c, marks) children siblings)) := by
      simp [Housed, hbefore]
    obtain ⟨v, hvisit, hacts, -⟩ := hdraws.adds_visit (by simp) hhoused
    refine ⟨v, ?_, hacts, hwiring v hacts⟩
    rw [survey, if_neg (by simp [ofSketch]), hvisit]

/-- The wiring of a template is that of the survey of the plan of its markup. -/
theorem exists_survey {t : Template} {source : String} {normalize : Bool}
    (ht : t.Compiled source normalize)
    : ∃ item children events events' p v, markup source normalize = .ok (.cons item children .nil) ∧
        Plan.ofRoot item children events = .ok p events' ∧ p.survey = some v ∧
        v.wiring = t.wiring := by
  obtain ⟨item, children, events, events', hm, hs⟩ := ht.exists_ofRoot
  obtain ⟨hdrafts, hroot⟩ := Sketch.drafts_of_ofRoot hs
  obtain ⟨v, hsurvey, -, hwiring⟩ := survey_ofSketch (hdrafts.not_hasChildBefore hroot)
  refine ⟨item, children, events, events', _, v, hm, ofRoot_eq_ok.2 ⟨_, hs, rfl⟩, hsurvey, ?_⟩
  rw [hwiring, t.wiring_eq]

/--
A survey of a plan that comes to be finds its nodes under references as the wiring of its sketch does.
All references that are used are below their number, each step starts at the root or at a node found
before, no step overwrites a reference after it was bound, and their number is that of the nodes that
something is bound to, that are needed by a child's place, or from which the way goes on twice.
-/
theorem survey_references {item : Markup.Item} {children : Markup} {events events' : List String}
    {p : Plan} (h : Plan.ofRoot item children events = .ok p events')
    : ∃ s v, Sketch.ofRoot item children events = .ok s events' ∧ p.survey = some v ∧
        v.wiring = .ofSketch s ∧
        (∀ step ∈ v.wiring.steps,
          step.target < v.wiring.references ∧ step.source < v.wiring.references) ∧
        (∀ l ∈ v.wiring.locations, l.reference < v.wiring.references) ∧
        (∀ c ∈ v.wiring.slots, c.parent < v.wiring.references ∧
          ∀ a ∈ c.anchor, a < v.wiring.references) ∧
        (∀ before step after, v.wiring.steps = before ++ step :: after →
          step.source = 0 ∨ ∃ earlier ∈ before, earlier.target = step.source) ∧
        (∀ before a after, v.acts = before ++ a :: after →
          ∀ r, a.Binds r → ∀ step, .step step ∈ after → step.target ≠ r) ∧
        v.wiring.references = p.countP fun n =>
          n.needed || !n.marks.isEmpty || (p.isLive n.firstChild && p.isLive n.nextSibling) := by
  obtain ⟨s, hs, rfl⟩ := ofRoot_eq_ok.1 h
  obtain ⟨hdrafts, hroot⟩ := Sketch.drafts_of_ofRoot hs
  have hbefore := hdrafts.not_hasChildBefore hroot
  obtain ⟨v, hsurvey, hacts, hwiring⟩ := survey_ofSketch hbefore
  have hreferences : v.wiring.references = s.kept := by
    rw [Survey.wiring_eq, Wiring.ofActs, hacts, Sketch.countP_isKeep_acts, Nat.zero_add]
  have horderly : Orderly v.wiring.references {} v.acts := by
    rw [hacts, hreferences]
    exact orderly_acts rfl (List.mem_singleton_self 0) (by rw [Nat.zero_add]) (by simp [hbefore])
  refine ⟨s, v, hs, hsurvey, hwiring, ?_, ?_, ?_, ?_, ?_, ?_⟩
  . intro step hstep
    exact Survey.step_lt horderly hstep
  . intro l hl
    exact Survey.location_lt horderly hl
  . intro c hc
    exact Survey.slot_lt horderly hc
  . intro before step after hsteps
    exact Survey.source_found horderly hsteps
  . intro before a after hsplit r ha step hstep
    rw [hsplit] at horderly
    exact horderly.target_ne ha hstep
  . rw [hreferences, (draws_ofSketch s).countP_eq_kept]

/-- The element before the child is only passed through, and its reference goes to the child. -/
theorem survey_references_between
    : ∃ p, Plan.ofRoot (.element "p" []) between [] = .ok p [] ∧
        ∃ s v, Sketch.ofRoot (.element "p" []) between [] = .ok s [] ∧ p.survey = some v ∧
          v.wiring = .ofSketch s ∧
          (∀ step ∈ v.wiring.steps,
            step.target < v.wiring.references ∧ step.source < v.wiring.references) ∧
          (∀ l ∈ v.wiring.locations, l.reference < v.wiring.references) ∧
          (∀ c ∈ v.wiring.slots, c.parent < v.wiring.references ∧
            ∀ a ∈ c.anchor, a < v.wiring.references) ∧
          (∀ before step after, v.wiring.steps = before ++ step :: after →
            step.source = 0 ∨ ∃ earlier ∈ before, earlier.target = step.source) ∧
          (∀ before a after, v.acts = before ++ a :: after →
            ∀ r, a.Binds r → ∀ step, .step step ∈ after → step.target ≠ r) ∧
          v.wiring.references = p.countP fun n =>
            n.needed || !n.marks.isEmpty || (p.isLive n.firstChild && p.isLive n.nextSibling) := by
  exact ⟨_, ofRoot_between, survey_references ofRoot_between⟩

end Plan

end VirtualDom.Template
