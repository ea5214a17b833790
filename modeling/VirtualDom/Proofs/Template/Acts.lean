import VirtualDom.Proofs.Template.Wiring
import VirtualDom.Template.Survey

/-!
This module contains the acts that make the wiring of a sketch, and what they do with references. A node
that is only passed through gives its reference on, so that the steps after it overwrite it; a reference
that something was bound to is kept, because the next free one is always above it.
-/

namespace VirtualDom.Template

open Wiring (isActive hasChildBefore isChildBefore isKept not_isActive_cons)

namespace Act

def isKeep : Act → Bool
  | .keep _ => true
  | _ => false

def step? : Act → Option Step
  | .step s => some s
  | _ => none

def location? : Act → Option Location
  | .location l => some l
  | _ => none

def slot? : Act → Option ChildSlot
  | .slot s => some s
  | _ => none

def callback? : Act → Option Nat
  | .callback index => some index
  | _ => none

theorem step?_eq_some {a : Act} {s : Step} : a.step? = some s ↔ a = .step s := by
  cases a <;> simp [step?]

theorem location?_eq_some {a : Act} {l : Location} : a.location? = some l ↔ a = .location l := by
  cases a <;> simp [location?]

theorem slot?_eq_some {a : Act} {s : ChildSlot} : a.slot? = some s ↔ a = .slot s := by
  cases a <;> simp [slot?]

/-- An act binds a reference that a node keeps, or that a location or a slot is to use. -/
def Binds (r : Nat) : Act → Prop
  | .keep reference => reference = r
  | .location l => l.reference = r
  | .slot s => s.parent = r ∨ s.anchor = some r
  | _ => False

end Act

def Mark.acts (parent reference : Nat) : Mark → List Act
  | .text index => [.location ⟨index, reference, .text⟩]
  | .child index true => [.slot ⟨index, reference, none, true⟩]
  | .child index false => [.slot ⟨index, parent, some reference, false⟩]
  | .handler index event => [.location ⟨index, reference, .handler event⟩]
  | .attribute index name tag => [.location ⟨index, reference, .ofAttribute tag name⟩]
  | .bag index => [.location ⟨index, reference, .bag⟩]
  | .ref index => [.callback index, .location ⟨index, reference, .ref⟩]

namespace Sketch

def kept : Sketch → Nat
  | .nil => 0
  | .cons (_, marks) children siblings =>
    (if isKept marks children siblings then 1 else 0) + kept children + kept siblings

/-- The acts for the nodes of a sketch, the first of which is found under the reference `r`. -/
def acts (parent r : Nat) : Sketch → List Act
  | .nil => []
  | .cons (_, marks) children siblings =>
    let next := if isKept marks children siblings then r + 1 else r
    (if isKept marks children siblings then [.keep r] else []) ++ marks.flatMap (·.acts parent r) ++
      (if isActive children then .step ⟨next, r, .firstChild⟩ :: acts r next children else []) ++
      (if isActive siblings then
        .step ⟨next + kept children, r, .nextSibling⟩ :: acts parent (next + kept children) siblings
      else [])

/-- The acts for nodes that lie in a direction from a reference, if there is any mark on them. -/
def branch (parent source free : Nat) (direction : Direction) (s : Sketch) : List Act :=
  if isActive s then .step ⟨free, source, direction⟩ :: s.acts parent free else []

variable {c : Content} {marks : List Mark} {C S : Sketch}

theorem acts_cons (parent r : Nat)
    : acts parent r (.cons (c, marks) C S)
        =
      (if isKept marks C S then [.keep r] else []) ++ marks.flatMap (·.acts parent r) ++
        branch r r (if isKept marks C S then r + 1 else r) .firstChild C ++
        branch parent r ((if isKept marks C S then r + 1 else r) + C.kept) .nextSibling S :=
  rfl

theorem kept_eq_zero {s : Sketch} (h : isActive s = false) : s.kept = 0 := by
  induction s with
  | nil => rfl
  | cons label children siblings ihc ihs =>
    obtain ⟨-, hc, hs, hk⟩ := not_isActive_cons h
    rw [kept, hk, ihc hc, ihs hs]
    rfl

theorem kept_pos {s : Sketch} (h : isActive s) : 0 < s.kept := by
  induction s with
  | nil => cases h
  | cons label children siblings ihc ihs =>
    obtain ⟨c, marks⟩ := label
    rw [kept]
    simp only [isActive, Bool.or_eq_true] at h
    rcases h with (h | h) | h
    . rw [if_pos (by simp [isKept, h])]
      omega
    . have := ihc h
      omega
    . have := ihs h
      omega

theorem acts_of_not_isActive {s : Sketch} (h : isActive s = false) (parent r : Nat)
    : s.acts parent r = [] := by
  cases s with
  | nil => rfl
  | cons label children siblings =>
    obtain ⟨c, marks⟩ := label
    obtain ⟨rfl, hc, hs, hk⟩ := not_isActive_cons h
    simp [acts_cons, branch, hc, hs, hk]

theorem countP_isKeep_branch {s : Sketch} (h : ∀ parent r, (s.acts parent r).countP Act.isKeep = s.kept)
    (parent source free : Nat) (direction : Direction)
    : (s.branch parent source free direction).countP Act.isKeep = s.kept := by
  unfold branch
  split
  . rw [List.countP_cons, h]
    rfl
  . next hs => rw [kept_eq_zero (by simpa using hs), List.countP_nil]

theorem countP_isKeep_marks (marks : List Mark) (parent r : Nat)
    : (marks.flatMap (·.acts parent r)).countP Act.isKeep = 0 := by
  induction marks with
  | nil => rfl
  | cons m marks ih =>
    rw [List.flatMap_cons, List.countP_append, ih]
    cases m with
    | child index sole => cases sole <;> rfl
    | _ => rfl

theorem countP_isKeep_acts (s : Sketch) (parent r : Nat)
    : (s.acts parent r).countP Act.isKeep = s.kept := by
  induction s generalizing parent r with
  | nil => rfl
  | cons label children siblings ihc ihs =>
    obtain ⟨c, marks⟩ := label
    simp only [acts_cons, List.countP_append, countP_isKeep_marks, countP_isKeep_branch ihc,
      countP_isKeep_branch ihs, kept]
    split <;> rfl

end Sketch

/-! The acts of a sketch make its wiring. -/

namespace Wiring

/-- The wiring that acts make, from the next free reference on. -/
def ofActs (references : Nat) (acts : List Act) : Wiring where
  references := references + acts.countP Act.isKeep
  steps := acts.filterMap Act.step?
  locations := acts.filterMap Act.location?
  slots := acts.filterMap Act.slot?
  callbacks := acts.filterMap Act.callback?

theorem foldl_perform (acts : List Act) (w : Wiring)
    : acts.foldl perform w = w.append (ofActs w.references acts) := by
  induction acts generalizing w with
  | nil => simp [append, ofActs]
  | cons a acts ih =>
    rw [List.foldl_cons, ih]
    cases a <;>
      simp [append, ofActs, perform, List.countP_cons, List.filterMap_cons, Act.isKeep, Act.step?,
        Act.location?, Act.slot?, Act.callback?, Nat.add_assoc, Nat.add_comm 1]

theorem references_foldl_perform (acts : List Act) (w : Wiring)
    : (acts.foldl perform w).references = w.references + acts.countP Act.isKeep := by
  rw [foldl_perform]
  rfl

theorem foldl_perform_marks (marks : List Mark) (parent r : Nat) (w : Wiring)
    : (marks.flatMap (·.acts parent r)).foldl perform w = marks.foldl (addMark parent r) w := by
  rw [List.foldl_flatMap]
  congr 1
  funext w m
  cases m with
  | child index sole => cases sole <;> rfl
  | _ => rfl

theorem foldl_perform_branch {s : Sketch}
    (h : ∀ parent w, (s.acts parent (Wiring.references w)).foldl perform w = addSketch parent w s)
    (parent source : Nat) (direction : Direction) (w : Wiring)
    : (s.branch parent source w.references direction).foldl perform w
        = addBranch parent source direction s w := by
  unfold Sketch.branch addBranch
  split
  . exact h parent (w.addStep source direction)
  . rfl

theorem foldl_perform_acts (s : Sketch) (parent : Nat) (w : Wiring)
    : (s.acts parent w.references).foldl perform w = addSketch parent w s := by
  induction s generalizing parent w with
  | nil => rfl
  | cons label children siblings ihc ihs =>
    obtain ⟨c, marks⟩ := label
    rw [addSketch_cons, Sketch.acts_cons, List.foldl_append, List.foldl_append, List.foldl_append]
    have hnode : (marks.flatMap (·.acts parent w.references)).foldl perform
        ((if isKept marks children siblings then [Act.keep w.references] else []).foldl perform w)
          = w.append (ofMarks parent w.references
            (if isKept marks children siblings then w.references + 1 else w.references) marks) := by
      rw [foldl_perform_marks, foldl_addMark]
      cases isKept marks children siblings <;> rfl
    rw [hnode]
    generalize hw : w.append (ofMarks parent w.references
      (if isKept marks children siblings then w.references + 1 else w.references) marks) = w₁
    have hr : (if isKept marks children siblings then w.references + 1 else w.references)
        = w₁.references := hw ▸ rfl
    have hr₂ : w₁.references + Sketch.kept children
        = ((Sketch.branch w.references w.references w₁.references .firstChild children).foldl perform
            w₁).references := by
      rw [references_foldl_perform, Sketch.countP_isKeep_branch (Sketch.countP_isKeep_acts children)]
    rw [hr, hr₂, foldl_perform_branch ihs, foldl_perform_branch ihc]

end Wiring

/-! Each act uses references as those before it left them. -/

/-- The references below `free` are kept, and those in `found` lead to nodes. -/
structure Scope where
  free : Nat := 0
  found : List Nat := [0]

namespace Scope

def bind (Γ : Scope) : Act → Scope
  | .keep _ => { Γ with free := Γ.free + 1 }
  | .step s => { Γ with found := Γ.found ++ [s.target] }
  | _ => Γ

variable {Γ : Scope} {l : List Act} {r : Nat}

theorem free_foldl (l : List Act) (Γ : Scope)
    : (l.foldl bind Γ).free = Γ.free + l.countP Act.isKeep := by
  induction l generalizing Γ with
  | nil => rfl
  | cons a l ih =>
    rw [List.foldl_cons, ih, List.countP_cons]
    cases a <;> simp [bind, Act.isKeep, Nat.add_assoc, Nat.add_comm 1]

theorem found_foldl (l : List Act) (Γ : Scope)
    : (l.foldl bind Γ).found = Γ.found ++ (l.filterMap Act.step?).map (·.target) := by
  induction l generalizing Γ with
  | nil => simp
  | cons a l ih =>
    rw [List.foldl_cons, ih]
    cases a <;> simp [bind, Act.step?, List.filterMap_cons]

end Scope

namespace Act

/-- An act may come next, where there are `bound` references in all. -/
def Fits (bound : Nat) (Γ : Scope) : Act → Prop
  | .keep r => r = Γ.free
  | .step s => s.target = Γ.free ∧ s.target < bound ∧ s.source ∈ Γ.found
  | .location l => l.reference < Γ.free
  | .slot s => s.parent < Γ.free ∧ ∀ a ∈ s.anchor, a < Γ.free
  | .callback _ => True

theorem Fits.binds_lt {bound r : Nat} {Γ : Scope} {a : Act} (h : a.Fits bound Γ) (ha : a.Binds r)
    : r < (Γ.bind a).free := by
  cases a with
  | keep reference =>
    subst ha
    exact Nat.lt_succ_of_le (Nat.le_of_eq h)
  | location l =>
    subst ha
    exact h
  | slot s => exact ha.elim (fun hp => hp ▸ h.1) (h.2 r)
  | step s => cases ha
  | callback index => cases ha

end Act

/-- Each act may come after those before it. -/
def Orderly (bound : Nat) (Γ : Scope) : List Act → Prop
  | [] => True
  | a :: l => a.Fits bound Γ ∧ Orderly bound (Γ.bind a) l

namespace Orderly

variable {bound : Nat} {Γ : Scope} {l l' : List Act}

theorem append_iff
    : Orderly bound Γ (l ++ l') ↔ Orderly bound Γ l ∧ Orderly bound (l.foldl Scope.bind Γ) l' := by
  induction l generalizing Γ with
  | nil => simp [Orderly]
  | cons a l ih => simp only [List.cons_append, Orderly, List.foldl_cons, ih, and_assoc]

theorem free_le_target (h : Orderly bound Γ l) {s : Step} (hs : .step s ∈ l) : Γ.free ≤ s.target := by
  induction l generalizing Γ with
  | nil => cases hs
  | cons a l ih =>
    rcases List.mem_cons.1 hs with rfl | hs
    . exact Nat.le_of_eq h.1.1.symm
    . have hle : Γ.free ≤ (Γ.bind a).free := by
        cases a <;> simp [Scope.bind]
      exact hle.trans (ih h.2 hs)

theorem target_ne {a : Act} (h : Orderly bound Γ (l ++ a :: l')) {r : Nat} (ha : a.Binds r) {s : Step}
    (hs : .step s ∈ l') : s.target ≠ r := by
  obtain ⟨hfits, hafter⟩ := (append_iff.1 h).2
  have := hfits.binds_lt ha
  have := hafter.free_le_target hs
  omega

theorem source_found {s : Step} (h : Orderly bound {} (l ++ .step s :: l'))
    : s.source = 0 ∨ ∃ s' ∈ l.filterMap Act.step?, s'.target = s.source := by
  have := (append_iff.1 h).2.1.2.2
  rw [Scope.found_foldl] at this
  simpa using this

theorem fits_of_mem (h : Orderly bound Γ l) {a : Act} (ha : a ∈ l)
    : ∃ Γ' : Scope, Γ'.free ≤ Γ.free + l.countP Act.isKeep ∧ a.Fits bound Γ' := by
  obtain ⟨before, after, rfl⟩ := List.append_of_mem ha
  refine ⟨before.foldl Scope.bind Γ, ?_, (append_iff.1 h).2.1⟩
  rw [Scope.free_foldl, List.countP_append]
  omega

end Orderly

section Acts

variable {bound : Nat} {Γ : Scope} {s : Sketch} {parent r : Nat}

theorem orderly_marks (bound parent : Nat) (marks : List Mark) (hr : marks ≠ [] → r < Γ.free)
    (hparent : marks.any isChildBefore → parent < Γ.free)
    : Orderly bound Γ (marks.flatMap (·.acts parent r)) ∧
        (marks.flatMap (·.acts parent r)).foldl Scope.bind Γ = Γ := by
  induction marks with
  | nil => exact ⟨trivial, rfl⟩
  | cons m marks ih =>
    replace hr : r < Γ.free := hr (List.cons_ne_nil m marks)
    simp only [List.any_cons, Bool.or_eq_true] at hparent
    obtain ⟨horderly, hscope⟩ := ih (fun _ => hr) fun h => hparent (.inr h)
    have hm : Orderly bound Γ (m.acts parent r) ∧ (m.acts parent r).foldl Scope.bind Γ = Γ := by
      cases m with
      | child index sole =>
        cases sole with
        | true => exact ⟨⟨⟨hr, by simp⟩, trivial⟩, rfl⟩
        | false =>
          refine ⟨⟨⟨hparent (.inl rfl), ?_⟩, trivial⟩, rfl⟩
          rintro _ ⟨⟩
          exact hr
      | ref index => exact ⟨⟨trivial, hr, trivial⟩, rfl⟩
      | _ => exact ⟨⟨hr, trivial⟩, rfl⟩
    rw [List.flatMap_cons, Orderly.append_iff, List.foldl_append, hm.2]
    exact ⟨⟨hm.1, horderly⟩, hscope⟩

theorem orderly_branch
    (h : ∀ {parent r : Nat} {Γ : Scope}, Γ.free = r → r ∈ Γ.found → r + s.kept ≤ bound →
      (hasChildBefore s → parent < r) → Orderly bound Γ (s.acts parent r))
    {source : Nat} (hr : Γ.free = r) (hsource : source ∈ Γ.found) (hbound : r + s.kept ≤ bound)
    (hparent : hasChildBefore s → parent < r) (direction : Direction)
    : Orderly bound Γ (s.branch parent source r direction) := by
  unfold Sketch.branch
  split
  . next hs =>
    have := Sketch.kept_pos hs
    refine ⟨⟨hr.symm, by dsimp only; omega, hsource⟩, h hr ?_ hbound hparent⟩
    simp [Scope.bind]
  . trivial

theorem orderly_keep (bound : Nat) (kept : Bool) (hr : Γ.free = r)
    : Orderly bound Γ (if kept then [.keep r] else []) ∧
        (if kept then [.keep r] else []).foldl Scope.bind Γ
          = { Γ with free := if kept then r + 1 else r } := by
  subst hr
  cases kept with
  | true => exact ⟨⟨rfl, trivial⟩, rfl⟩
  | false => exact ⟨trivial, rfl⟩

theorem orderly_acts (hr : Γ.free = r) (hfound : r ∈ Γ.found) (hbound : r + s.kept ≤ bound)
    (hparent : hasChildBefore s → parent < r) : Orderly bound Γ (s.acts parent r) := by
  induction s generalizing parent r Γ with
  | nil => trivial
  | cons label children siblings ihc ihs =>
    obtain ⟨c, marks⟩ := label
    rw [Wiring.hasChildBefore_cons, Bool.or_eq_true] at hparent
    obtain ⟨hkeep, hscope⟩ := orderly_keep bound (isKept marks children siblings) hr
    have hkept : marks ≠ [] ∨ hasChildBefore children → isKept marks children siblings := by
      rintro (h | h) <;> simp [isKept, h]
    rw [Sketch.acts_cons]
    generalize hnext : (if isKept marks children siblings then r + 1 else r) = next at hscope
    have hlt : isKept marks children siblings → r < next := by
      intro h
      rw [if_pos h] at hnext
      omega
    have hle : r ≤ next ∧ next + Sketch.kept children + Sketch.kept siblings ≤ bound := by
      rw [Sketch.kept] at hbound
      split at hnext <;> split at hbound <;> omega
    -- From here on what counts of the references before is which is free and that `r` was found.
    generalize hΓ₁ : ({ Γ with free := next } : Scope) = Γ₁ at hscope
    have hfree₁ : Γ₁.free = next := hΓ₁ ▸ rfl
    have hfound₁ : r ∈ Γ₁.found := hΓ₁ ▸ hfound
    obtain ⟨hmarks, hscope₁⟩ := orderly_marks bound parent marks (Γ := Γ₁) (r := r)
      (fun h => hfree₁ ▸ hlt (hkept (.inl h)))
      fun h => hfree₁ ▸ Nat.lt_of_lt_of_le (hparent (.inl h)) hle.1
    have hbelow := orderly_branch ihc hfree₁ hfound₁ (by omega) (fun h => hlt (hkept (.inr h)))
      .firstChild
    have hfree₂ : ((Sketch.branch r r next .firstChild children).foldl Scope.bind Γ₁).free
        = next + Sketch.kept children := by
      rw [Scope.free_foldl, hfree₁, Sketch.countP_isKeep_branch (Sketch.countP_isKeep_acts children)]
    have hfound₂ : r ∈ ((Sketch.branch r r next .firstChild children).foldl Scope.bind Γ₁).found := by
      rw [Scope.found_foldl]
      exact List.mem_append_left _ hfound₁
    have hafter := orderly_branch ihs hfree₂ hfound₂ (by omega)
      (fun h => Nat.lt_of_lt_of_le (hparent (.inr h)) (by omega)) .nextSibling
    simp only [Orderly.append_iff, List.foldl_append, hscope, hscope₁]
    exact ⟨⟨⟨hkeep, hmarks⟩, hbelow⟩, hafter⟩

end Acts

end VirtualDom.Template
