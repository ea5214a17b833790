import VirtualDom.Proofs.Forest
import VirtualDom.Proofs.Template.Activation
import VirtualDom.Proofs.Template.Compile
import VirtualDom.Proofs.Template.Fill

/-!
This module contains the correctness of plans. The nodes of a plan are those of the sketch of the same
markup in document order, with the links of a binary tree. Nodes are linked and made active at different
times while a plan comes to be; what the finished plan says of a node depends only on where the node is
in the sketch.
-/

namespace VirtualDom.Template

namespace Sketch

open Sketching

def ofItem (item : Markup.Item) (children : Markup)
    : Sketching ((Content × List Mark) × Sketch) := do
  match item with
  | .element tag attributes =>
    match ← lift (tagMarker? tag) with
    | some marker =>
      checkEmpty tag attributes children
      let mark := match marker with
        | .text index => Mark.text index
        | .child index => .child index false
      return ((.text "", [mark]), .nil)
    | none =>
      let (e, marks) ← element { tag } attributes
      match ← soleChild? children with
      | some index => return ((.element e, marks ++ [.child index true]), .nil)
      | none => return ((.element e, marks), ← ofMarkup children)
  | .text s => return ((.text s, []), .nil)
  | .comment s => return ((.comment s, []), .nil)
  | item => throw (.unsupportedNode item.kind)

theorem ofMarkup_cons (item : Markup.Item) (children siblings : Markup)
    : ofMarkup (.cons item children siblings) = do
        let (label, below) ← ofItem item children
        return .cons label below (← ofMarkup siblings) := by
  cases item with
  | element tag attributes =>
    simp only [ofMarkup, ofItem, bind_assoc]
    apply bind_congr
    intro marker
    cases marker with
    | some marker => cases marker <;> simp only [bind_assoc, pure_bind]
    | none =>
      simp only [bind_assoc]
      apply bind_congr
      rintro ⟨e, marks⟩
      apply bind_congr
      intro sole
      cases sole <;> simp
  | text s => simp [ofMarkup, ofItem]
  | comment s => simp [ofMarkup, ofItem]
  | cdata s => rfl
  | doctype s => rfl
  | instruction s => rfl

end Sketch

namespace Plan

open Sketching Sketch
open Wiring (isActive hasChildBefore isChildBefore)

/-- The link to the first node of a sketch whose nodes have the numbers from `i` on. -/
def first? (i : Nat) : Sketch → Option Nat
  | .nil => none
  | .cons _ _ _ => some i

theorem first?_eq (i : Nat) (s : Sketch) : first? i s = if s.isEmpty then none else some i := by
  cases s <;> rfl

/-- The node with the number `i` of a plan in which these sketches come after it. -/
def Node.ofSketch (up : Option Nat) (i : Nat) (content : Content) (marks : List Mark)
    (children siblings : Sketch) : Node where
  content
  up
  firstChild := first? (i + 1) children
  nextSibling := first? (i + 1 + children.size) siblings
  marks
  needed := hasChildBefore children
  active := isActive (.cons (content, marks) children siblings)

/-- The nodes of a sketch with the numbers from `i` on; the link up from the first root is `up`. -/
def ofSketch (up : Option Nat) (i : Nat) : Sketch → Plan
  | .nil => #[]
  | .cons (content, marks) children siblings =>
    #[Node.ofSketch up i content marks children siblings] ++ ofSketch (some i) (i + 1) children ++
      ofSketch (some i) (i + 1 + children.size) siblings

theorem size_ofSketch (up : Option Nat) (i : Nat) (s : Sketch)
    : (ofSketch up i s).size = s.size := by
  induction s generalizing up i with
  | nil => rfl
  | cons label children siblings ihc ihs =>
    simp only [ofSketch, Array.size_append, Array.size_singleton, ihc, ihs, Forest.size]

theorem up?_ofSketch {up : Option Nat} {i j k : Nat} {s : Sketch}
    (h : k ∈ (ofSketch up i s).up? j) : up = some k ∨ k < i + s.size := by
  induction s generalizing up i j with
  | nil => simp [ofSketch, up?] at h
  | cons label children siblings ihc ihs =>
    rw [ofSketch, up?, Array.append_assoc, Array.getElem?_append] at h
    rw [Forest.size]
    split at h
    . next hj =>
      have : j = 0 := by simpa using hj
      subst this
      exact .inl h
    . right
      rw [Array.getElem?_append] at h
      split at h
      . rcases ihc h with h | h
        . cases h
          omega
        . omega
      . rcases ihs h with h | h
        . cases h
          omega
        . omega

/-! What the nodes of a sketch change in the plan that they are added to. -/

def raise (p : Plan) (b : Bool) (i : Option Nat) : Plan :=
  if b then p.activate i else p

def demand (p : Plan) (b : Bool) (above : Option Nat) : Plan :=
  if b then above.elim p p.need else p

def settle (p : Plan) (above left : Option Nat) (s : Sketch) : Plan :=
  if s.isEmpty then p else p.place above left p.size

/-- The plan after the nodes of a sketch were added after `left` in `above`, without those nodes. -/
def before (p : Plan) (above left : Option Nat) (s : Sketch) : Plan :=
  ((p.raise (isActive s) (left.or above)).demand (hasChildBefore s) above).settle above left s

/-- The plan after a node and what is in it were added after `left` in `above`, without its place. -/
def planted (p : Plan) (above left : Option Nat) (content : Content) (marks : List Mark)
    (children : Sketch) : Plan :=
  let active := !marks.isEmpty || isActive children
  ((p.raise active (left.or above)).demand (marks.any isChildBefore) above).add {
      content, up := left.or above, marks, active
      firstChild := first? (p.size + 1) children
      needed := hasChildBefore children
    } ++ ofSketch (some p.size) (p.size + 1) children

/-- A change of the links of a node that lead away from it. -/
structure Linking (f : Node → Node) : Prop extends Quiet f where
  withNeed : ∀ n, f n.withNeed = (f n).withNeed

theorem quiet_need : Quiet Node.withNeed where
  up _ := rfl
  active _ := rfl
  activated _ := rfl

section Sizes

variable {p : Plan} {n : Node} {above left : Option Nat} {i : Nat}

@[simp]
theorem size_add : (p.add n).size = p.size + 1 :=
  Array.size_push n

@[simp]
theorem size_need : (p.need i).size = p.size :=
  Array.size_modify

@[simp]
theorem size_raise (b : Bool) (link : Option Nat) : (p.raise b link).size = p.size := by
  unfold raise
  split
  . exact size_activate
  . rfl

@[simp]
theorem size_demand (b : Bool) (above : Option Nat) : (p.demand b above).size = p.size := by
  unfold demand
  split
  . cases above with
    | none => rfl
    | some above => exact size_need
  . rfl

theorem place_cases (above left : Option Nat) (i : Nat)
    : (∀ p : Plan, p.place above left i = p) ∨
      ∃ j f, (left = some j ∨ above = some j) ∧ Linking f ∧
        ∀ p : Plan, p.place above left i = p.modify j f := by
  have hnext : Linking (Node.withNextSibling i) :=
    ⟨⟨fun _ => rfl, fun _ => rfl, fun _ => rfl⟩, fun _ => rfl⟩
  have hfirst : Linking (Node.withFirstChild i) :=
    ⟨⟨fun _ => rfl, fun _ => rfl, fun _ => rfl⟩, fun _ => rfl⟩
  cases left with
  | some left => exact .inr ⟨left, _, .inl rfl, hnext, fun _ => by cases above <;> rfl⟩
  | none =>
    cases above with
    | some above => exact .inr ⟨above, _, .inr rfl, hfirst, fun _ => rfl⟩
    | none => exact .inl fun _ => rfl

@[simp]
theorem size_place : (p.place above left i).size = p.size := by
  obtain h | ⟨j, f, -, -, h⟩ := place_cases above left i
  . rw [h]
  . rw [h, Array.size_modify]

theorem size_planted (c : Content) (marks : List Mark) (C : Sketch)
    : (p.planted above left c marks C).size = p.size + 1 + C.size := by
  simp only [planted, Array.size_append, size_add, size_demand, size_raise, size_ofSketch]

end Sizes

section Closed

variable {p : Plan} {n : Node} {above left : Option Nat}

theorem up?_add (i : Nat) : (p.add n).up? i = if i = p.size then n.up else p.up? i := by
  unfold up? add
  rw [Array.getElem?_push]
  split <;> rfl

theorem mem_or_lt (habove : ∀ j ∈ above, j < p.size) (hleft : ∀ j ∈ left, j < p.size)
    : ∀ j ∈ left.or above, j < p.size := by
  intro j hj
  rcases Option.or_eq_some_iff.1 hj with h | ⟨-, h⟩
  . exact hleft j h
  . exact habove j h

theorem Closed.add (hp : p.Closed) (hn : ∀ j ∈ n.up, j < p.size) : (p.add n).Closed := by
  intro i j hj
  rw [up?_add] at hj
  rw [size_add]
  split at hj
  . have := hn j hj
    omega
  . have := hp i j hj
    omega

theorem Closed.raise (hp : p.Closed) (b : Bool) (i : Option Nat) : (p.raise b i).Closed := by
  unfold Plan.raise
  split
  . exact hp.activate
  . exact hp

theorem Closed.need (hp : p.Closed) (i : Nat) : (p.need i).Closed :=
  hp.modify quiet_need.up i

theorem Closed.demand (hp : p.Closed) (b : Bool) (above : Option Nat)
    : (p.demand b above).Closed := by
  unfold Plan.demand
  split
  . cases above with
    | none => exact hp
    | some above => exact hp.need above
  . exact hp

theorem Closed.place (hp : p.Closed) (i : Nat) : (p.place above left i).Closed := by
  obtain h | ⟨j, f, -, hf, h⟩ := place_cases above left i
  . rwa [h]
  . rw [h]
    exact hp.modify hf.up j

theorem Closed.add_ofSketch (hp : p.Closed) (hn : ∀ j ∈ n.up, j < p.size) (s : Sketch)
    : Closed (p.add n ++ ofSketch (some p.size) (p.size + 1) s) := by
  intro i j hj
  rw [Array.size_append, size_ofSketch, size_add]
  rw [up?, Array.getElem?_append] at hj
  split at hj
  . have := hp.add hn i j hj
    rw [size_add] at this
    omega
  . rcases up?_ofSketch hj with h | h
    . cases h
      omega
    . omega

theorem Closed.planted (hp : p.Closed) (hup : ∀ j ∈ left.or above, j < p.size) (c : Content)
    (marks : List Mark) (C : Sketch) : (p.planted above left c marks C).Closed := by
  have := ((hp.raise (!marks.isEmpty || isActive C) (left.or above)).demand
      (marks.any isChildBefore) above).add_ofSketch (n := {
        content := c, up := left.or above, marks, active := !marks.isEmpty || isActive C
        firstChild := first? (p.size + 1) C
        needed := hasChildBefore C }) (by simpa using hup) C
  rwa [size_demand, size_raise] at this

end Closed

/-! Changes of a plan whose nodes from some number on are known. -/

section Last

variable {p q : Plan} {n : Node} {above left : Option Nat} {i : Nat}

theorem modify_add_append {f : Node → Node} (hi : i < p.size)
    : (p.add n ++ q).modify i f = add (p.modify i f) n ++ q := by
  unfold add
  rw [modify_append, ← Array.append_singleton, modify_append hi, Array.append_singleton]
  rw [Array.size_push]
  omega

theorem activate_add_append (hp : p.Closed) (hn : ∀ j ∈ n.up, j < p.size)
    : activate (p.add n ++ q) (some p.size)
        = (if n.active then p else p.activate n.up).add n.activated ++ q := by
  rw [activate_append (hp.add hn), activate_add hp hn]
  rintro _ ⟨⟩
  rw [size_add]
  omega

theorem activateAbove_add (hp : p.Closed) (hn : ∀ j ∈ n.up, j < p.size)
    : (p.add n ++ q).activateAbove p.size = (p.activate n.up).add n ++ q := by
  have hup : up? (p.add n ++ q) p.size = n.up := by
    unfold up?
    rw [Array.getElem?_append_left (by rw [size_add]; omega), add, Array.getElem?_push_size]
    rfl
  rw [activateAbove, hup, activate_append (hp.add hn)]
  . unfold add
    rw [← Array.append_singleton, activate_append hp hn, Array.append_singleton]
  . intro j hj
    have := hn j hj
    rw [size_add]
    omega

theorem activateAbove_last (hp : p.Closed) (hn : ∀ j ∈ n.up, j < p.size)
    : (p.add n).activateAbove p.size = (p.activate n.up).add n := by
  simpa using activateAbove_add (q := #[]) hp hn

theorem markSole_last (index : Nat)
    : (p.add n).markSole p.size index
        = p.add { n with marks := n.marks ++ [.child index true], active := true } :=
  modify_push n

theorem raise_add (hp : p.Closed) (hn : ∀ j ∈ n.up, j < p.size) (b : Bool)
    : raise (p.add n ++ q) b (some p.size)
        = (p.raise (b && !n.active) n.up).add { n with active := n.active || b } ++ q := by
  cases b with
  | false => simp [raise]
  | true =>
    rw [raise, if_pos rfl, activate_add_append hp hn]
    cases n.active <;> simp [raise, Node.activated]

theorem demand_add (habove : ∀ j ∈ above, j < p.size) (b : Bool)
    : demand (p.add n ++ q) b above = (p.demand b above).add n ++ q := by
  cases b with
  | false => rfl
  | true =>
    cases above with
    | none => rfl
    | some above => exact modify_add_append (f := Node.withNeed) (habove above rfl)

theorem settle_add (s : Sketch)
    : settle (p.add n ++ q) above (some p.size) s
        =
      p.add { n with
        nextSibling := if s.isEmpty then n.nextSibling else some (p.size + 1 + q.size) } ++ q := by
  unfold settle
  cases s.isEmpty with
  | true => rfl
  | false =>
    have hplace : (p.add n ++ q).place above (some p.size) (p.add n ++ q).size
        = (p.add n ++ q).modify p.size (Node.withNextSibling (p.add n ++ q).size) := by
      cases above <;> rfl
    rw [if_neg (by simp), hplace, modify_append, Array.size_append, size_add]
    . exact congrArg (· ++ q) (modify_push n)
    . rw [size_add]
      omega

theorem demand_last (b : Bool)
    : (p.add n).demand b (some p.size) = p.add { n with needed := n.needed || b } := by
  cases b with
  | false => simp [demand]
  | true =>
    rw [Bool.or_true]
    exact modify_push n

theorem settle_last (s : Sketch)
    : (p.add n).settle (some p.size) none s
        =
      p.add { n with firstChild := if s.isEmpty then n.firstChild else some (p.size + 1) } := by
  unfold settle
  cases s.isEmpty with
  | true => rfl
  | false =>
    rw [if_neg (by simp), size_add]
    exact modify_push n

theorem place_add (habove : ∀ j ∈ above, j < p.size) (hleft : ∀ j ∈ left, j < p.size) (i : Nat)
    : (p.add n ++ q).place above left i = (p.place above left i).add n ++ q := by
  obtain h | ⟨j, f, hj, -, h⟩ := place_cases above left i
  . rw [h, h]
  . rw [h, h]
    exact modify_add_append (hj.elim (hleft j) (habove j))

theorem before_last (hp : p.Closed) (hn : ∀ j ∈ n.up, j < p.size) (s : Sketch)
    : (p.add n).before (some p.size) none s
        =
      (p.raise (isActive s && !n.active) n.up).add { n with
        firstChild := if s.isEmpty then n.firstChild else some (p.size + 1)
        needed := n.needed || hasChildBefore s
        active := n.active || isActive s } := by
  have hraise := raise_add (q := #[]) hp hn (isActive s)
  simp only [Array.append_empty] at hraise
  have hsize := size_raise (p := p) (isActive s && !n.active) n.up
  rw [before, Option.none_or, hraise, ← hsize, demand_last, settle_last]

theorem before_next (hp : p.Closed) (hn : ∀ j ∈ n.up, j < p.size) (habove : ∀ j ∈ above, j < p.size)
    (s : Sketch)
    : before (p.add n ++ q) above (some p.size) s
        =
      ((p.raise (isActive s && !n.active) n.up).demand (hasChildBefore s) above).add { n with
        nextSibling := if s.isEmpty then n.nextSibling else some (p.size + 1 + q.size)
        active := n.active || isActive s } ++ q := by
  have hsize := size_demand (p := p.raise (isActive s && !n.active) n.up)
    (hasChildBefore s) above
  rw [size_raise] at hsize
  rw [before, Option.some_or, raise_add hp hn, demand_add (by simpa using habove), ← hsize,
    settle_add]

end Last

/-! Changes for two sketches, and for one after the other. -/

section Join

variable {p : Plan} {above left : Option Nat} {i : Nat}

theorem raise_place (b : Bool) (link : Option Nat)
    : (p.place above left i).raise b link = (p.raise b link).place above left i := by
  cases b with
  | false => rfl
  | true =>
    obtain h | ⟨j, f, -, hf, h⟩ := place_cases above left i
    . rw [h, h]
    . rw [h, h]
      exact activate_modify hf.toQuiet

theorem raise_demand (b b' : Bool) (link : Option Nat)
    : (p.demand b above).raise b' link = (p.raise b' link).demand b above := by
  cases b with
  | false => rfl
  | true =>
    cases b' with
    | false => rfl
    | true =>
      cases above with
      | none => rfl
      | some above => exact activate_modify quiet_need

theorem demand_place (b : Bool)
    : (p.place above left i).demand b above = (p.demand b above).place above left i := by
  cases b with
  | false => rfl
  | true =>
    obtain h | ⟨j, f, -, hf, h⟩ := place_cases above left i
    . rw [h, h]
    . cases above with
      | none => rfl
      | some above =>
        rw [h, h]
        exact modify_comm fun n => (hf.withNeed n).symm

theorem raise_raise (b b' : Bool) (link : Option Nat)
    : (p.raise b link).raise (b' && !b) link = p.raise (b || b') link := by
  cases b <;> cases b' <;> rfl

theorem need_need : (p.need i).need i = p.need i := by
  apply Array.ext_getElem?
  intro j
  simp only [need, Array.getElem?_modify]
  split
  . cases p[j]? <;> rfl
  . rfl

theorem demand_demand (b b' : Bool)
    : (p.demand b above).demand b' above = p.demand (b || b') above := by
  cases b with
  | false => rfl
  | true =>
    cases b' with
    | false => rfl
    | true =>
      cases above with
      | none => rfl
      | some above => exact need_need

variable {c : Content} {marks : List Mark} {C S : Sketch}

theorem before_cons
    : p.before above left (.cons (c, marks) C S)
        =
      ((p.raise (!marks.isEmpty || isActive C || isActive S) (left.or above)).demand
        (marks.any isChildBefore || hasChildBefore S) above).place above left p.size := by
  rw [before, settle, if_neg (by simp [Forest.isEmpty]), Wiring.hasChildBefore_cons, size_demand,
    size_raise, isActive]

/-- A node is given its place after what is in it was added, and before what comes after it is. -/
theorem planted_before (hp : p.Closed) (habove : ∀ j ∈ above, j < p.size)
    (hleft : ∀ j ∈ left, j < p.size) {q : Plan}
    (hq : q = (p.planted above left c marks C).place above left p.size)
    : q.before above (some p.size) S ++ ofSketch (some p.size) q.size S
        =
      p.before above left (.cons (c, marks) C S)
        ++ ofSketch (left.or above) p.size (.cons (c, marks) C S) := by
  subst hq
  unfold planted
  dsimp only
  rw [place_add (by simpa using habove) (by simpa using hleft)]
  generalize hb : (!marks.isEmpty || isActive C) = b
  generalize hq : ((p.raise b (left.or above)).demand (marks.any isChildBefore) above).place above left
    p.size = q
  have hsize : q.size = p.size := by simp [← hq]
  have hq' : q.Closed := hq ▸ ((hp.raise _ _).demand _ _).place _
  have := before_next (q := ofSketch (some p.size) (p.size + 1) C) (n := {
      content := c, up := left.or above, marks, active := b
      firstChild := first? (p.size + 1) C
      needed := hasChildBefore C }) hq' (by simpa [hsize] using mem_or_lt habove hleft)
    (by simpa [hsize] using habove) S
  rw [hsize] at this
  rw [this, ← hq, raise_place, raise_demand, demand_place, raise_raise, demand_demand, before_cons]
  simp only [isActive, ofSketch, Node.ofSketch, Array.size_append, size_add, size_place, size_demand,
    size_raise, size_ofSketch, hb, first?_eq]
  simp only [add, ← Array.append_singleton, Array.append_assoc]

theorem planted_nil
    : p.planted above left c marks .nil
        =
      ((p.raise (!marks.isEmpty) (left.or above)).demand (marks.any isChildBefore) above).add
        { content := c, up := left.or above, marks, active := !marks.isEmpty } := by
  simp [planted, ofSketch, isActive, first?, hasChildBefore, Forest.roots]

end Join

/-! The ways in which a node is added. -/

section Kinds

variable {p : Plan} {above left : Option Nat}

theorem activateAbove_text (hp : p.Closed) (hup : ∀ j ∈ left.or above, j < p.size) (index : Nat)
    : (p.add { content := .text "", up := left.or above, marks := [.text index], active := true
        }).activateAbove p.size
        = p.planted above left (.text "") [.text index] .nil := by
  rw [activateAbove_last hp hup, planted_nil]
  rfl

theorem activateAbove_child {above : Nat} (hp : p.Closed)
    (hup : ∀ j ∈ left.or (some above), j < p.size) (index : Nat)
    : ((p.need above).add {
          content := .text "", up := left.or (some above), marks := [.child index false], active := true
        }).activateAbove (p.need above).size
        = p.planted (some above) left (.text "") [.child index false] .nil := by
  rw [activateAbove_last (hp.need above) (by simpa only [size_need] using hup), planted_nil]
  exact congrArg (add · _) (activate_modify quiet_need)

variable (e : Element) {marks : List Mark}

theorem activateAbove_sole (hp : p.Closed) (hup : ∀ j ∈ left.or above, j < p.size)
    (hmarks : marks.any isChildBefore = false) (index : Nat)
    : ((p.add { content := .element e, up := left.or above, marks, active := !marks.isEmpty
        }).markSole p.size index).activateAbove p.size
        = p.planted above left (.element e) (marks ++ [.child index true]) .nil := by
  have hnonempty : (marks ++ [Mark.child index true]).isEmpty = false := by
    simp
  have hbefore : (marks ++ [Mark.child index true]).any isChildBefore = false := by
    simp [hmarks, isChildBefore]
  rw [markSole_last, activateAbove_last hp hup, planted_nil, hnonempty, hbefore]
  rfl

/--
An element with marks is active before anything is in it, so that what is active in it does not get to
the nodes above it; these become active when all of it was added.
-/
theorem activateAbove_below (hp : p.Closed) (hup : ∀ j ∈ left.or above, j < p.size)
    (hmarks : marks.any isChildBefore = false) (s : Sketch)
    : (let q := (p.add { content := .element e, up := left.or above, marks, active := !marks.isEmpty
          }).before (some p.size) none s ++ ofSketch (some p.size) (p.size + 1) s
        if marks.isEmpty then q else q.activateAbove p.size)
        = p.planted above left (.element e) marks s := by
  rw [before_last hp (by exact hup), planted, hmarks]
  cases marks with
  | nil => simp [demand, first?_eq]
  | cons m marks =>
    simp only [List.isEmpty_cons, Bool.not_false, Bool.not_true, Bool.and_false, Bool.true_or,
      Bool.false_or, Bool.false_eq_true, if_false, first?_eq]
    exact activateAbove_add hp hup

theorem element_not_childBefore {attributes : List (String × String)} {e' : Element}
    {events events' : List String} (h : element e attributes events = .ok (e', marks) events')
    : marks.any isChildBefore = false := by
  obtain ⟨-, rfl⟩ := element_eq_ok h
  apply List.any_eq_false.2
  intro m hm
  cases m with
  | child index sole => exact absurd hm ((not_mem_attributeMarks _ _).1 index sole)
  | _ => simp [isChildBefore]

end Kinds

theorem bind_congr_ok {α β : Type} {x : Sketching α} {f g : α → Sketching β}
    (h : ∀ a events events', x events = .ok a events' → f a = g a) : x >>= f = x >>= g := by
  funext events
  simp only [bind, EStateM.bind]
  cases hx : x events with
  | ok a events' =>
    dsimp only
    rw [h a events events' hx]
  | error e events' => rfl

section Equation

variable {p : Plan} {above left : Option Nat} {item : Markup.Item} {children : Markup}

def Rooted (item : Markup.Item) : Prop :=
  ∀ tag attributes index, item = .element tag attributes → tagMarker? tag ≠ .ok (some (.child index))

theorem addNode_eq {addBelow : Plan → Sketching Plan} (hp : p.Closed)
    (hup : ∀ j ∈ left.or above, j < p.size) (hroot : above = none → Rooted item)
    (hbelow : ∀ n : Node, n.up = left.or above → addBelow (p.add n) =
      (fun s => (p.add n).before (some p.size) none s ++ ofSketch (some p.size) (p.size + 1) s)
        <$> ofMarkup children)
    : addNode above left p children addBelow item
        =
      (fun (label, below) => p.planted above left label.1 label.2 below) <$> ofItem item children := by
  cases item with
  | element tag attributes =>
    rw [addNode, ofItem]
    cases hm : tagMarker? tag with
    | error e => rfl
    | ok marker =>
    simp only [Sketching.lift, pure_bind]
    cases marker with
    | some marker =>
      simp only [map_bind]
      apply bind_congr
      intro _
      cases marker with
      | text index => simp only [map_pure, activateAbove_text hp hup]
      | child index =>
        cases above with
        | none => exact absurd hm (hroot rfl _ _ _ rfl)
        | some above => simp only [map_pure, activateAbove_child hp hup]
    | none =>
      rw [map_bind]
      apply bind_congr_ok
      rintro ⟨e, marks⟩ events events' helement
      have hmarks := element_not_childBefore _ helement
      simp only [map_bind]
      apply bind_congr
      intro sole
      cases sole with
      | some index => simp only [map_pure, activateAbove_sole e hp hup hmarks]
      | none =>
        rw [hbelow _ rfl]
        simp only [bind_pure_comp, ← comp_map, Function.comp_def]
        apply congrArg (· <$> ofMarkup children)
        funext s
        exact activateAbove_below e hp hup hmarks s
  | text s => simp [addNode, ofItem, planted_nil, raise, demand]
  | comment s => simp [addNode, ofItem, planted_nil, raise, demand]
  | cdata s => rfl
  | doctype s => rfl
  | instruction s => rfl

theorem addMarkup_eq {m : Markup} (hp : p.Closed) (habove : ∀ j ∈ above, j < p.size)
    (hleft : ∀ j ∈ left, j < p.size) (hroot : above = none → ∀ item ∈ m.roots.map (·.1), Rooted item)
    : addMarkup above left p m
        = (fun s => p.before above left s ++ ofSketch (left.or above) p.size s) <$> ofMarkup m := by
  induction m generalizing above left p with
  | nil =>
    simp [addMarkup, ofMarkup, before, raise, demand, settle, isActive, hasChildBefore, Forest.roots,
      ofSketch, Forest.isEmpty]
  | cons item children siblings ihc ihs =>
    have hup := mem_or_lt habove hleft
    -- what is in the node has it above and nothing to its left
    have hbelow : ∀ n : Node, n.up = left.or above →
        addMarkup (some p.size) none (p.add n) children
          =
        (fun s => (p.add n).before (some p.size) none s ++ ofSketch (some p.size) (p.size + 1) s)
          <$> ofMarkup children := by
      rintro n hn
      rw [ihc (hp.add (hn ▸ hup)), size_add, Option.none_or]
      . rintro _ ⟨⟩
        rw [size_add]
        omega
      . rintro _ ⟨⟩
      . rintro ⟨⟩
    rw [addMarkup, addNode_eq hp hup (fun h => hroot h item List.mem_cons_self) hbelow, ofMarkup_cons]
    simp only [bind_map_left, map_bind]
    apply bind_congr
    rintro ⟨⟨c, marks⟩, C⟩
    rw [ihs ((hp.planted hup c marks C).place _)]
    . simp only [map_pure, bind_pure_comp]
      apply congrArg (· <$> ofMarkup siblings)
      funext S
      exact planted_before hp habove hleft rfl
    . intro j hj
      have := habove j hj
      rw [size_place, size_planted]
      omega
    . rintro _ ⟨⟩
      rw [size_place, size_planted]
      omega
    . intro h item' hitem
      exact hroot h item' (List.mem_cons_of_mem _ hitem)

theorem addMarkup_root (hroot : Rooted item)
    : addMarkup none none #[] (.cons item children .nil)
        = ofSketch none 0 <$> ofMarkup (.cons item children .nil) := by
  have hempty : Closed #[] := by
    intro i j h
    cases h
  rw [addMarkup_eq hempty (by simp) (by simp)]
  . apply congrArg (· <$> ofMarkup (.cons item children .nil))
    funext s
    have hbefore : before #[] none none s = #[] := by
      simp [before, raise, demand, settle, activate_none, place]
    rw [hbefore]
    exact Array.empty_append
  . rintro - item' hitem
    rw [List.mem_singleton.1 hitem]
    exact hroot

/-- The plan of a template has the nodes of its sketch, with the same failures and the same events. -/
theorem ofRoot_eq (item : Markup.Item) (children : Markup)
    : Plan.ofRoot item children = ofSketch none 0 <$> Sketch.ofRoot item children := by
  unfold Plan.ofRoot Sketch.ofRoot
  cases item with
  | element tag attributes =>
    dsimp only
    cases hm : tagMarker? tag with
    | error e => rfl
    | ok marker =>
      have hrooted : (∀ index, marker ≠ some (.child index)) → Rooted (.element tag attributes) := by
        rintro hne _ _ index ⟨⟩ h
        cases hm.symm.trans h
        exact hne index rfl
      cases marker with
      | none => exact addMarkup_root (hrooted (by simp))
      | some marker =>
        cases marker with
        | text index => exact addMarkup_root (hrooted (by simp))
        | child index => rfl
  | _ =>
    apply addMarkup_root
    rintro _ _ _ ⟨⟩

theorem ofRoot_eq_ok {events events' : List String}
    : Plan.ofRoot item children events = .ok p events' ↔
        ∃ s, Sketch.ofRoot item children events = .ok s events' ∧ p = ofSketch none 0 s := by
  rw [ofRoot_eq]
  simp only [Functor.map, EStateM.map]
  cases Sketch.ofRoot item children events with
  | ok s _ => simp [eq_comm, and_comm]
  | error e _ => simp

end Equation

end Plan
end VirtualDom.Template
