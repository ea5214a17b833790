import Mathlib.Logic.Relation
import VirtualDom.Proofs.Document.Links

/-!
This module contains well-formed documents: the nodes form a forest whose lists of children are
linked in both directions, and the free slots are exactly the empty ones.
-/

namespace VirtualDom.Document

def kids (d : Document) (id : NodeId) : List NodeId :=
  match d.children id with
  | .ok ids => ids
  | .error _ => []

structure WellFormed (d : Document) : Prop where
  links : Links d.node? d.kids
  acyclic : ∃ height : NodeId → Nat,
    ∀ {c m p}, d.node? c = some m → m.parent = some p → height c < height p
  free_nodup : d.free.Nodup
  mem_free : ∀ i : Nat, i ∈ d.free ↔ ∃ g, d.slots[i]? = some ⟨g, none⟩

/-- The free slots are different ones, and empty. -/
structure Reusable (d : Document) : Prop where
  nodup : d.free.Nodup
  empty : ∀ i ∈ d.free, ∃ g, d.slots[i]? = some ⟨g, none⟩

theorem WellFormed.reusable {d : Document} (h : d.WellFormed) : d.Reusable :=
  ⟨h.free_nodup, fun i hi => (h.mem_free i).1 hi⟩

theorem WellFormed.empty : WellFormed {} where
  links := by
    constructor <;> intros <;> simp_all [node?]
  acyclic := ⟨fun _ => 0, by simp [node?]⟩
  free_nodup := List.nodup_nil
  mem_free := by simp

section Children

variable {d : Document}

theorem siblingsFrom_eq {ids : List NodeId}
    (h : ∀ xs c ys, ids = xs ++ c :: ys → ∃ m, d.node? c = some m ∧ m.nextSibling = ys.head?)
    {bound : Nat} (hb : ids.length ≤ bound) : d.siblingsFrom bound ids.head? = .ok ids := by
  induction ids generalizing bound with
  | nil => cases bound <;> rfl
  | cons c ys ih =>
    obtain ⟨m, hm, hnext⟩ := h [] c ys rfl
    cases bound with
    | zero => simp at hb
    | succ bound =>
      have hb : ys.length ≤ bound := by simpa using hb
      have := ih (fun xs a zs hs => h (c :: xs) a zs (by simp [hs])) hb
      simp only [List.head?_cons, siblingsFrom, nextSibling, node_eq_ok.2 hm]
      simp only [bind, Except.bind, pure, Except.pure] at *
      rw [hnext, this]

/-- The siblings up to a node, from it backwards, at most `bound` of them. -/
def siblingsTo (d : Document) : Nat → Option NodeId → Except Fault (List NodeId)
  | _, none | 0, some _ => return []
  | bound + 1, some id => return id :: (← d.siblingsTo bound (← d.prevSibling id))

def childrenBackward (d : Document) (id : NodeId) : Except Fault (List NodeId) := do
  d.siblingsTo d.slots.size (← d.lastChild id)

theorem siblingsTo_eq {ids : List NodeId}
    (h : ∀ xs c ys, ids = xs ++ c :: ys → ∃ m, d.node? c = some m ∧ m.prevSibling = xs.getLast?)
    {bound : Nat} (hb : ids.length ≤ bound) : d.siblingsTo bound ids.getLast? = .ok ids.reverse := by
  induction ids using List.reverseRecOn generalizing bound with
  | nil => cases bound <;> rfl
  | append_singleton xs c ih =>
    obtain ⟨m, hm, hprev⟩ := h xs c [] rfl
    cases bound with
    | zero => simp at hb
    | succ bound =>
      have hb : xs.length ≤ bound := by simpa using hb
      have := ih (fun us a vs hs => h us a (vs ++ [c]) (by simp [hs])) hb
      simp only [List.getLast?_concat, siblingsTo, prevSibling, node_eq_ok.2 hm]
      simp only [bind, Except.bind, pure, Except.pure] at *
      rw [hprev, this, List.reverse_concat]

theorem length_le_size {ids : List NodeId} (hnd : ids.Nodup)
    (hl : ∀ id ∈ ids, ∃ n, d.node? id = some n) : ids.length ≤ d.slots.size := by
  have hnd : (ids.map NodeId.index).Nodup := by
    apply hnd.map_on
    intro x hx y hy hxy
    obtain ⟨n, hn⟩ := hl x hx
    obtain ⟨m, hm⟩ := hl y hy
    exact eq_of_index_eq hn hm hxy
  have hsub : ids.map NodeId.index ⊆ List.range d.slots.size := by
    intro i hi
    obtain ⟨x, hx, rfl⟩ := List.mem_map.1 hi
    obtain ⟨n, hn⟩ := hl x hx
    exact List.mem_range.2 (index_lt hn)
  simpa using hnd.length_le_of_subset hsub

theorem children_eq {id : NodeId} {n : Node} {ids : List NodeId} (hn : d.node? id = some n)
    (hf : n.firstChild = ids.head?) (hnd : ids.Nodup)
    (h : ∀ xs c ys, ids = xs ++ c :: ys → ∃ m, d.node? c = some m ∧ m.nextSibling = ys.head?)
    : d.children id = .ok ids := by
  have hb : ids.length ≤ d.slots.size := by
    apply length_le_size hnd
    intro c hc
    obtain ⟨xs, ys, hs⟩ := List.append_of_mem hc
    obtain ⟨m, hm, _⟩ := h xs c ys hs
    exact ⟨m, hm⟩
  simp only [children, firstChild, node_eq_ok.2 hn]
  simp only [bind, Except.bind, pure, Except.pure]
  rw [hf, siblingsFrom_eq h hb]

theorem Links.children {kids : NodeId → List NodeId} (h : Links d.node? kids) {id : NodeId}
    {n : Node} (hn : d.node? id = some n) : d.children id = .ok (kids id) := by
  apply children_eq hn (h.firstChild hn) (h.nodup hn)
  intro xs c ys hs
  obtain ⟨m, hm, _, _, hnext⟩ := h.child hn hs
  exact ⟨m, hm, hnext⟩

theorem Links.kids_eq {kids : NodeId → List NodeId} (h : Links d.node? kids) {id : NodeId}
    {n : Node} (hn : d.node? id = some n) : d.kids id = kids id := by
  rw [Document.kids, h.children hn]

theorem Links.wellFormed {kids : NodeId → List NodeId} (h : Links d.node? kids)
    (hacyc : ∃ height : NodeId → Nat,
      ∀ {c m p}, d.node? c = some m → m.parent = some p → height c < height p)
    (hnd : d.free.Nodup) (hfree : ∀ i : Nat, i ∈ d.free ↔ ∃ g, d.slots[i]? = some ⟨g, none⟩)
    : d.WellFormed where
  links := h.congr fun _ _ hn => h.kids_eq hn
  acyclic := hacyc
  free_nodup := hnd
  mem_free := hfree

theorem WellFormed.children (h : d.WellFormed) {id : NodeId} {n : Node} (hn : d.node? id = some n)
    : d.children id = .ok (d.kids id) :=
  h.links.children hn

theorem WellFormed.traversal (h : d.WellFormed) {id : NodeId} {n : Node} (hn : d.node? id = some n)
    : d.children id = .ok (d.kids id) ∧ d.childrenBackward id = .ok (d.kids id).reverse ∧
        (d.kids id).Nodup ∧
        ∀ c, c ∈ d.kids id ↔ ∃ m, d.node? c = some m ∧ m.parent = some id := by
  have hlive : ∀ c ∈ d.kids id, ∃ m, d.node? c = some m ∧ m.parent = some id :=
    fun c hc => h.links.of_mem hn hc
  refine ⟨h.children hn, ?_, h.links.nodup hn, fun c => ⟨hlive c, ?_⟩⟩
  . have hb : (d.kids id).length ≤ d.slots.size := by
      apply length_le_size (h.links.nodup hn)
      intro c hc
      obtain ⟨m, hm, -⟩ := hlive c hc
      exact ⟨m, hm⟩
    simp only [childrenBackward, lastChild, node_eq_ok.2 hn]
    simp only [bind, Except.bind, pure, Except.pure]
    rw [h.links.lastChild hn]
    apply siblingsTo_eq _ hb
    intro xs c ys hs
    obtain ⟨m, hm, -, hprev, -⟩ := h.links.child hn hs
    exact ⟨m, hm, hprev⟩
  . rintro ⟨m, hm, hp⟩
    exact (h.links.mem_kids hm hp).2

end Children

/-- Documents that differ at most in what their nodes hold. -/
structure SameSlots (d d' : Document) : Prop where
  size : d'.slots.size = d.slots.size
  free : d'.free = d.free
  empty : ∀ (i : Nat) (g : UInt32), d'.slots[i]? = some ⟨g, none⟩ ↔ d.slots[i]? = some ⟨g, none⟩

namespace SameSlots

variable {d d₁ d₂ : Document}

theorem refl (d : Document) : d.SameSlots d :=
  ⟨rfl, rfl, fun _ _ => Iff.rfl⟩

theorem trans (h₁ : d.SameSlots d₁) (h₂ : d₁.SameSlots d₂) : d.SameSlots d₂ where
  size := h₂.size.trans h₁.size
  free := h₂.free.trans h₁.free
  empty i g := (h₂.empty i g).trans (h₁.empty i g)

theorem modify (d : Document) (id : NodeId) (f : Node → Node) : d.SameSlots (d.modify id f) where
  size := by simp [Document.modify]
  free := rfl
  empty i g := by
    simp only [Document.modify, Array.getElem?_modify]
    split
    . next hi =>
      subst hi
      cases d.slots[id.index]? with
      | none => simp
      | some slot =>
        obtain ⟨generation, node⟩ := slot
        by_cases hg : generation = id.generation <;> simp [hg]
    . rfl

end SameSlots

section Relink

variable {d : Document} {p id : NodeId} {prev next : Option NodeId} {pn : Node}

theorem update_eq {n : Node} (hn : d.node? id = some n) (f : Node → Node)
    : ∃ d', d.update id f = .ok d' ∧ d.SameSlots d' ∧ d'.tally = d.tally ∧
        ∀ x, d'.node? x = if x = id then (d.node? x).map f else d.node? x :=
  ⟨_, update_eq_ok hn f, SameSlots.modify .., rfl, node?_modify d id f⟩

theorem setNext_eq (hp : d.node? p = some pn) (prev : Option NodeId)
    (hprev : ∀ x, prev = some x → ∃ n, d.node? x = some n)
    (next : Option NodeId)
    : ∃ d', d.setNext p prev next = .ok d' ∧ d.SameSlots d' ∧ d'.tally = d.tally ∧
        ∀ x, d'.node? x = (d.node? x).map fun m =>
          { m with
            firstChild := if x = p ∧ prev = none then next else m.firstChild
            nextSibling := if prev = some x then next else m.nextSibling } := by
  cases prev with
  | none =>
    obtain ⟨d', h, hs, ht, hl⟩ := update_eq hp _
    refine ⟨d', h, hs, ht, ?_⟩
    intro x
    rw [hl]
    by_cases hx : x = p <;> cases d.node? x <;> simp [hx]
  | some y =>
    obtain ⟨n, hn⟩ := hprev y rfl
    obtain ⟨d', h, hs, ht, hl⟩ := update_eq hn _
    refine ⟨d', h, hs, ht, ?_⟩
    intro x
    rw [hl]
    by_cases hx : x = y <;> cases d.node? x <;> simp [hx, eq_comm (a := y)]

theorem setPrev_eq (hp : d.node? p = some pn) (next : Option NodeId)
    (hnext : ∀ x, next = some x → ∃ n, d.node? x = some n)
    (prev : Option NodeId)
    : ∃ d', d.setPrev p next prev = .ok d' ∧ d.SameSlots d' ∧ d'.tally = d.tally ∧
        ∀ x, d'.node? x = (d.node? x).map fun m =>
          { m with
            lastChild := if x = p ∧ next = none then prev else m.lastChild
            prevSibling := if next = some x then prev else m.prevSibling } := by
  cases next with
  | none =>
    obtain ⟨d', h, hs, ht, hl⟩ := update_eq hp _
    refine ⟨d', h, hs, ht, ?_⟩
    intro x
    rw [hl]
    by_cases hx : x = p <;> cases d.node? x <;> simp [hx]
  | some y =>
    obtain ⟨n, hn⟩ := hnext y rfl
    obtain ⟨d', h, hs, ht, hl⟩ := update_eq hn _
    refine ⟨d', h, hs, ht, ?_⟩
    intro x
    rw [hl]
    by_cases hx : x = y <;> cases d.node? x <;> simp [hx, eq_comm (a := y)]

theorem unlink_eq {n : Node} (hn : d.node? id = some n) (hparent : n.parent = some p)
    (hp : d.node? p = some pn) (hprev : ∀ x, n.prevSibling = some x → ∃ n, d.node? x = some n)
    (hnext : ∀ x, n.nextSibling = some x → ∃ n, d.node? x = some n)
    : ∃ d', d.unlink id = .ok (d', true) ∧ d.SameSlots d' ∧ d'.tally = d.tally ∧
        ∀ x, d'.node? x = (d.node? x).map (detached p id n.prevSibling n.nextSibling x) := by
  obtain ⟨d₁, h₁, hs₁, ht₁, hl₁⟩ := setNext_eq hp n.prevSibling hprev n.nextSibling
  obtain ⟨d₂, h₂, hs₂, ht₂, hl₂⟩ := setPrev_eq (d := d₁) (p := p) (by rw [hl₁, hp]; rfl)
    n.nextSibling
    (by
      intro x hx
      obtain ⟨m, hm⟩ := hnext x hx
      exact ⟨_, by rw [hl₁, hm]; rfl⟩)
    n.prevSibling
  have hid : ∃ m, d₂.node? id = some m := ⟨_, by rw [hl₂, hl₁, hn]; rfl⟩
  obtain ⟨m, hm⟩ := hid
  obtain ⟨d₃, h₃, hs₃, ht₃, hl₃⟩ := update_eq hm
    ({ · with parent := none, prevSibling := none, nextSibling := none })
  refine ⟨d₃, ?_, hs₁.trans (hs₂.trans hs₃), ht₃.trans (ht₂.trans ht₁), ?_⟩
  . simp only [unlink, node_eq_ok.2 hn, bind, Except.bind, hparent]
    simp only [h₁, h₂, h₃]
    rfl
  . intro x
    rw [hl₃, hl₂, hl₁]
    by_cases hx : x = id <;> cases d.node? x <;> simp [hx, detached]

theorem link_eq {n : Node} (hn : d.node? id = some n) (hp : d.node? p = some pn)
    (hat : d.prevAt p next = .ok prev)
    (hprev : ∀ x, prev = some x → x ≠ id ∧ ∃ n, d.node? x = some n)
    (hnext : ∀ x, next = some x → x ≠ id ∧ ∃ n, d.node? x = some n)
    : ∃ d', d.link p id next = .ok d' ∧ d.SameSlots d' ∧ d'.tally = d.tally ∧
        ∀ x, d'.node? x = (d.node? x).map (attached p id prev next x) := by
  obtain ⟨d₁, h₁, hs₁, ht₁, hl₁⟩ := update_eq hn
    ({ · with parent := some p, prevSibling := prev, nextSibling := next })
  have live : ∀ {x m}, d.node? x = some m → ∃ m, d₁.node? x = some m := by
    intro x m hm
    rw [hl₁, hm]
    split <;> exact ⟨_, rfl⟩
  obtain ⟨pn₁, hp₁⟩ := live hp
  obtain ⟨d₂, h₂, hs₂, ht₂, hl₂⟩ := setNext_eq hp₁ prev
    (fun x hx => live (hprev x hx).2.choose_spec) (some id)
  obtain ⟨d₃, h₃, hs₃, ht₃, hl₃⟩ := setPrev_eq (d := d₂) (p := p)
    (by rw [hl₂, hp₁]; rfl) next
    (by
      intro x hx
      obtain ⟨m, hm⟩ := live (hnext x hx).2.choose_spec
      exact ⟨_, by rw [hl₂, hm]; rfl⟩)
    (some id)
  refine ⟨d₃, ?_, hs₁.trans (hs₂.trans hs₃), ht₃.trans (ht₂.trans ht₁), ?_⟩
  . simp only [link, hat, bind, Except.bind]
    simp only [h₁, h₂, h₃]
  . intro x
    rw [hl₃, hl₂, hl₁]
    by_cases hx : x = id
    . have hx₁ : prev ≠ some x := fun h => (hprev x h).1 hx
      have hx₂ : next ≠ some x := fun h => (hnext x h).1 hx
      subst hx
      cases d.node? x <;> simp [attached, hx₁, hx₂]
    . cases d.node? x <;> simp [hx, attached]

namespace Links

variable {kids : NodeId → List NodeId} {xs ys : List NodeId}

theorem unlink_eq (h : Links d.node? kids) (hp : d.node? p = some pn) (hk : kids p = xs ++ id :: ys)
    : ∃ d', d.unlink id = .ok (d', true) ∧ d.SameSlots d' ∧ d'.tally = d.tally ∧
        ∀ x, d'.node? x = (d.node? x).map (detached p id xs.getLast? ys.head? x) := by
  obtain ⟨n, hn, hparent, hprev, hnext⟩ := h.child hp hk
  have hlive : ∀ x ∈ xs ++ id :: ys, ∃ m, d.node? x = some m := by
    intro x hx
    obtain ⟨m, hm, -⟩ := h.of_mem hp (hk.symm ▸ hx)
    exact ⟨m, hm⟩
  rw [← hprev, ← hnext]
  exact Document.unlink_eq hn hparent hp
    (fun x hx => hlive x (by simp [List.mem_of_getLast? (hprev ▸ hx)]))
    (fun x hx => hlive x (by simp [List.mem_of_head? (hnext ▸ hx)]))

theorem prevAt_eq (h : Links d.node? kids) (hp : d.node? p = some pn) (hk : kids p = xs ++ ys)
    : d.prevAt p ys.head? = .ok xs.getLast? := by
  cases ys with
  | nil =>
    simp only [List.head?_nil, prevAt, Document.lastChild, node_eq_ok.2 hp]
    rw [← List.append_nil xs, ← hk, ← h.lastChild hp]
    rfl
  | cons y ys =>
    obtain ⟨m, hm, hmp, hprev, -⟩ := h.child hp hk
    simp only [List.head?_cons, prevAt, node_eq_ok.2 hm, bind, Except.bind, hmp, if_true]
    rw [hprev]
    rfl

theorem link_eq (h : Links d.node? kids) {n : Node} (hn : d.node? id = some n)
    (hroot : n.parent = none) (hp : d.node? p = some pn) (hk : kids p = xs ++ ys)
    : ∃ d', d.link p id ys.head? = .ok d' ∧ d.SameSlots d' ∧ d'.tally = d.tally ∧
        ∀ x, d'.node? x = (d.node? x).map (attached p id xs.getLast? ys.head? x) := by
  have hlive : ∀ x ∈ xs ++ ys, x ≠ id ∧ ∃ m, d.node? x = some m := by
    intro x hx
    obtain ⟨m, hm, hmp⟩ := h.of_mem hp (hk.symm ▸ hx)
    refine ⟨?_, m, hm⟩
    rintro rfl
    cases hn.symm.trans hm
    cases hroot.symm.trans hmp
  exact Document.link_eq hn hp (h.prevAt_eq hp hk)
    (fun x hx => hlive x (by simp [List.mem_of_getLast? hx]))
    (fun x hx => hlive x (by simp [List.mem_of_head? hx]))

end Links

end Relink

end VirtualDom.Document
