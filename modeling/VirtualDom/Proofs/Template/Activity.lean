import VirtualDom.Proofs.Template.Plan
import Mathlib.Logic.Relation

/-!
This module contains what the nodes of a finished plan say of each other: a node is active exactly if
its links lead to something dynamic, and the way up past its siblings ends at the node that it is in.
-/

namespace VirtualDom.Template.Plan

open Wiring (isActive hasChildBefore)

def Leads (p : Plan) (i j : Nat) : Prop :=
  ∃ n, p[i]? = some n ∧ (n.firstChild = some j ∨ n.nextSibling = some j)

abbrev Reaches (p : Plan) : Nat → Nat → Prop :=
  Relation.ReflTransGen p.Leads

/-- Something dynamic is known of the node `i`, or of a node that its links lead to. -/
def Touched (p : Plan) (i : Nat) : Prop :=
  ∃ j m, p.Reaches i j ∧ p[j]? = some m ∧ m.marks ≠ []

/-- The nodes of a plan with the numbers from `i` on are those of a sketch. -/
def Draws (p : Plan) (up : Option Nat) (i : Nat) : Sketch → Prop
  | .nil => True
  | .cons (content, marks) children siblings =>
    p[i]? = some (Node.ofSketch up i content marks children siblings) ∧
      p.Draws (some i) (i + 1) children ∧ p.Draws (some i) (i + 1 + children.size) siblings

section Touched

variable {p : Plan} {i : Nat} {n : Node}

theorem leads_iff (hn : p[i]? = some n) (j : Nat)
    : p.Leads i j ↔ n.firstChild = some j ∨ n.nextSibling = some j := by
  constructor
  . rintro ⟨m, hm, h⟩
    cases hn.symm.trans hm
    exact h
  . intro h
    exact ⟨n, hn, h⟩

theorem Touched.head {j : Nat} (h : p.Leads i j) (hj : p.Touched j) : p.Touched i := by
  obtain ⟨k, m, hk, hm⟩ := hj
  exact ⟨k, m, .head h hk, hm⟩

theorem touched_iff (hn : p[i]? = some n)
    : p.Touched i ↔
        n.marks ≠ [] ∨ (∃ j ∈ n.firstChild, p.Touched j) ∨ ∃ j ∈ n.nextSibling, p.Touched j := by
  constructor
  . rintro ⟨k, m, hk, hm, hmarks⟩
    rcases Relation.ReflTransGen.cases_head hk with rfl | ⟨j, hj, hk⟩
    . cases hn.symm.trans hm
      exact .inl hmarks
    . have htouched : p.Touched j := ⟨k, m, hk, hm, hmarks⟩
      rcases (leads_iff hn j).1 hj with h | h
      . exact .inr (.inl ⟨j, h, htouched⟩)
      . exact .inr (.inr ⟨j, h, htouched⟩)
  . rintro (hmarks | ⟨j, hj, h⟩ | ⟨j, hj, h⟩)
    . exact ⟨i, n, .refl, hn, hmarks⟩
    . exact h.head ((leads_iff hn j).2 (.inl hj))
    . exact h.head ((leads_iff hn j).2 (.inr hj))

end Touched

section Draws

variable {p : Plan} {up : Option Nat} {i : Nat} {s : Sketch}

theorem draws_of_getElem? (h : ∀ j < s.size, p[i + j]? = (ofSketch up i s)[j]?) : p.Draws up i s := by
  induction s generalizing up i with
  | nil => trivial
  | cons label children siblings ihc ihs =>
    obtain ⟨c, marks⟩ := label
    simp only [Forest.size, ofSketch, Array.getElem?_append, Array.size_append, Array.size_singleton,
      size_ofSketch] at h
    refine ⟨?_, ihc ?_, ihs ?_⟩
    . have := h 0 (by omega)
      rwa [if_pos (by omega), if_pos (by omega)] at this
    . intro j hj
      have := h (1 + j) (by omega)
      rwa [if_pos (by omega), if_neg (by omega), Nat.add_sub_cancel_left, ← Nat.add_assoc] at this
    . intro j hj
      have := h (1 + children.size + j) (by omega)
      rwa [if_neg (by omega), Nat.add_sub_cancel_left, ← Nat.add_assoc, ← Nat.add_assoc] at this

theorem draws_ofSketch (s : Sketch) : (ofSketch none 0 s).Draws none 0 s := by
  apply draws_of_getElem?
  intro j _
  rw [Nat.zero_add]

theorem Draws.exists_cons (h : p.Draws up i s) {j : Nat} (hle : i ≤ j) (hlt : j < i + s.size)
    : ∃ up' c marks C S, p.Draws up' j (.cons (c, marks) C S) := by
  induction s generalizing up i with
  | nil =>
    rw [Forest.size] at hlt
    omega
  | cons label children siblings ihc ihs =>
    obtain ⟨c, marks⟩ := label
    rw [Forest.size] at hlt
    obtain ⟨-, hc, hs⟩ := id h
    by_cases hi : j = i
    . exact ⟨up, c, marks, children, siblings, hi ▸ h⟩
    . by_cases hj : j < i + 1 + children.size
      . exact ihc hc (by omega) hj
      . exact ihs hs (by omega) (by omega)

theorem Draws.isActive_iff (h : p.Draws up i s) : isActive s ↔ ∃ j ∈ first? i s, p.Touched j := by
  induction s generalizing up i with
  | nil => simp [isActive, first?]
  | cons label children siblings ihc ihs =>
    obtain ⟨c, marks⟩ := label
    obtain ⟨hn, hc, hs⟩ := h
    have htouched := touched_iff hn
    simp only [Node.ofSketch, ← ihc hc, ← ihs hs] at htouched
    simp only [first?, Option.mem_some_iff, exists_eq_left', htouched]
    simp [isActive, or_assoc]

section Nodes

variable {j : Nat} {n : Node}

theorem exists_eq_ofSketch (hn : (ofSketch none 0 s)[j]? = some n)
    : ∃ up' c marks C S, n = Node.ofSketch up' j c marks C S ∧
        (ofSketch none 0 s).Draws up' j (.cons (c, marks) C S) := by
  obtain ⟨hj, -⟩ := Array.getElem?_eq_some_iff.1 hn
  rw [size_ofSketch] at hj
  obtain ⟨up', c, marks, C, S, h⟩ := (draws_ofSketch s).exists_cons (Nat.zero_le j) (by omega)
  exact ⟨up', c, marks, C, S, Option.some.inj (hn.symm.trans h.1), h⟩

theorem active_iff (hn : (ofSketch none 0 s)[j]? = some n)
    : n.active ↔ (ofSketch none 0 s).Touched j := by
  obtain ⟨up', c, marks, C, S, rfl, h⟩ := exists_eq_ofSketch hn
  have := h.isActive_iff
  simp only [first?, Option.mem_some_iff, exists_eq_left'] at this
  exact this

theorem active_of_needed (hn : (ofSketch none 0 s)[j]? = some n) (h : n.needed) : n.active := by
  obtain ⟨up', c, marks, C, S, rfl, -⟩ := exists_eq_ofSketch hn
  have := Wiring.isActive_of_hasChildBefore h
  simp [Node.ofSketch, isActive, this]

end Nodes

theorem labels_ofSketch (up : Option Nat) (i : Nat) (s : Sketch)
    : (ofSketch up i s).toList.map (fun n => (n.content, n.marks)) = s.labels := by
  induction s generalizing up i with
  | nil => rfl
  | cons label children siblings ihc ihs =>
    simp only [ofSketch, Array.toList_append, List.map_append, ihc, ihs]
    rfl

end Draws

section Container

variable {p : Plan} {i j : Nat} {n m : Node}

theorem container?_of_none (hn : p[i]? = some n) (hup : n.up = none)
    : p.container? i = some none := by
  rw [container?, hn]
  simp [hup]

theorem container?_of_ne (hn : p[i]? = some n) (hup : n.up = some j) (hm : p[j]? = some m)
    (hne : m.nextSibling ≠ some i) : p.container? i = some (some j) := by
  rw [container?, hn]
  simp [hup, hm, hne]

theorem container?_of_eq (hn : p[i]? = some n) (hup : n.up = some j) (hm : p[j]? = some m)
    (heq : m.nextSibling = some i) (hlt : j < i) : p.container? i = p.container? j := by
  rw [container?, hn]
  simp [hup, hm, heq, hlt]

variable {up above : Option Nat} {c : Content} {marks : List Mark} {C S : Sketch}

theorem Draws.container?_child (h : p.Draws up i (.cons (c, marks) C S)) (hC : C ≠ .nil)
    : p.container? (i + 1) = some (some i) := by
  obtain ⟨hn, hc, -⟩ := h
  cases C with
  | nil => exact absurd rfl hC
  | cons label children siblings =>
    apply container?_of_ne hc.1 rfl hn
    cases S with
    | nil => rintro ⟨⟩
    | cons _ _ _ =>
      intro heq
      have := Option.some.inj heq
      rw [Forest.size] at this
      omega

theorem Draws.container?_sibling (h : p.Draws up i (.cons (c, marks) C S)) (hS : S ≠ .nil)
    : p.container? (i + 1 + C.size) = p.container? i := by
  obtain ⟨hn, -, hs⟩ := h
  cases S with
  | nil => exact absurd rfl hS
  | cons label children siblings => exact container?_of_eq hs.1 rfl hn rfl (by omega)

theorem Draws.container?_eq {s : Sketch} (h : p.Draws up i s)
    (habove : s ≠ .nil → p.container? i = some above) (hj : j < s.size)
    : p.container? (i + j) = (s.parents above i)[j]? := by
  induction s generalizing up above i j with
  | nil =>
    rw [Forest.size] at hj
    omega
  | cons label children siblings ihc ihs =>
    obtain ⟨c, marks⟩ := label
    have habove := habove (by simp)
    rw [Forest.size] at hj
    cases j with
    | zero => exact habove
    | succ j =>
      rw [Forest.parents, List.getElem?_cons_succ, List.getElem?_append, Forest.length_parents]
      split
      . next hlt =>
        have := ihc h.2.1 h.container?_child hlt
        rwa [Nat.add_right_comm] at this
      . next hle =>
        have := ihs h.2.2 (fun hS => (h.container?_sibling hS).trans habove) (j := j - children.size)
          (by omega)
        rwa [show i + 1 + children.size + (j - children.size) = i + (j + 1) by omega] at this

end Container

/--
A plan that comes to be has the nodes of its sketch in document order. A node of it is active if and
only if something dynamic is known of the node or of one that its links lead to, every node that is
needed by a child's place is active, and the container of each node but the root is its parent.
-/
theorem activity_exact {item : Markup.Item} {children : Markup} {events events' : List String}
    {p : Plan} (h : Plan.ofRoot item children events = .ok p events')
    : ∃ s, Sketch.ofRoot item children events = .ok s events' ∧
        p.toList.map (fun n => (n.content, n.marks)) = s.labels ∧
        (∀ i n, p[i]? = some n →
          (n.active ↔ ∃ j m, p.Reaches i j ∧ p[j]? = some m ∧ m.marks ≠ [])) ∧
        (∀ n ∈ p, n.needed → n.active) ∧
        ∀ i, 0 < i → i < p.size →
          ∃ j, (s.parents none 0)[i]? = some (some j) ∧ p.container? i = some (some j) := by
  obtain ⟨s, hs, rfl⟩ := ofRoot_eq_ok.1 h
  have hdraws := draws_ofSketch s
  have hsize := size_ofSketch none 0 s
  refine ⟨s, hs, labels_ofSketch none 0 s, ?_, ?_, ?_⟩
  . intro i n hn
    exact active_iff hn
  . intro n hn
    obtain ⟨i, hi⟩ := Array.mem_iff_getElem?.1 hn
    exact active_of_needed hi
  . intro i h0 hi
    obtain ⟨c, marks, C, rfl⟩ := (Sketch.drafts_of_ofRoot hs).1.eq_cons
    obtain ⟨i, rfl⟩ := Nat.exists_eq_succ_of_ne_zero (Nat.ne_of_gt h0)
    rw [hsize] at hi
    have hcontainer := hdraws.container?_eq
      (fun _ => container?_of_none hdraws.1 rfl) hi
    rw [Nat.zero_add] at hcontainer
    rw [hcontainer]
    simp only [Forest.size] at hi
    simpa [Forest.parents] using Forest.exists_parent (F := C) (by omega)

def between : Markup :=
  .cons (.element "b" []) (.cons (.text "a") .nil .nil)
    (.cons (.element "block-child-0" []) .nil (.cons (.element "i" []) .nil .nil))

theorem ofRoot_between
    : Plan.ofRoot (.element "p" []) between []
        =
      .ok (ofSketch none 0 (.cons (.element { tag := "p" }, [])
        (.cons (.element { tag := "b" }, []) (.cons (.text "a", []) .nil .nil)
          (.cons (.text "", [.child 0 false]) .nil (.cons (.element { tag := "i" }, []) .nil .nil)))
        .nil)) [] :=
  ofRoot_eq_ok.2 ⟨_, rfl, rfl⟩

/-- The element before the child becomes active, but not what is in it or what comes after the child. -/
theorem activity_exact_between
    : ∃ p, Plan.ofRoot (.element "p" []) between [] = .ok p [] ∧
        p.toList.map (·.active) = [true, true, false, true, false] ∧
        ∃ s, Sketch.ofRoot (.element "p" []) between [] = .ok s [] ∧
          p.toList.map (fun n => (n.content, n.marks)) = s.labels ∧
          (∀ i n, p[i]? = some n →
            (n.active ↔ ∃ j m, p.Reaches i j ∧ p[j]? = some m ∧ m.marks ≠ [])) ∧
          (∀ n ∈ p, n.needed → n.active) ∧
          ∀ i, 0 < i → i < p.size →
            ∃ j, (s.parents none 0)[i]? = some (some j) ∧ p.container? i = some (some j) := by
  exact ⟨_, ofRoot_between, rfl, activity_exact ofRoot_between⟩

end VirtualDom.Template.Plan
