import VirtualDom.Document.Edit
import VirtualDom.Forest

/-!
This module contains what concerns whole subtrees: reading one as a forest, copying a forest into a
document, and freeing a subtree.
-/

namespace VirtualDom.Document

/--
The subtrees of `ids` down to `depth` levels. No path in a document visits a slot twice, so one level
more than it has slots shows whole subtrees.
-/
def forest (d : Document) : Nat → List NodeId → Except Fault (Forest (NodeId × Content))
  | 0, _ => return .nil
  | depth + 1, ids =>
    ids.foldr (fun id later => do
      let content ← d.content id
      let children ← d.forest depth (← d.children id)
      return .cons (id, content) children (← later))
      (return .nil)

def subtree (d : Document) (id : NodeId) : Except Fault (Forest (NodeId × Content)) :=
  d.forest (d.slots.size + 1) [id]

def below (d : Document) (id : NodeId) : Except Fault (Forest (NodeId × Content)) := do
  d.forest (d.slots.size + 1) (← d.children id)

/--
Adds new nodes for the roots of a forest, each with everything below it, as the last children of
`parent` if there is one, and lists the roots.
-/
def plant (d : Document) (parent : Option NodeId)
    : Forest Content → Except Fault (List NodeId × Document)
  | .nil => return ([], d)
  | .cons content children siblings => do
    let (id, d) := d.create content
    let (_, d) ← d.plant (some id) children
    let d ← match parent with
      | some parent => d.link parent id none
      | none => pure d
    let (later, d) ← d.plant parent siblings
    return (id :: later, d)

def copy (d source : Document) (id : NodeId) : Except Fault (NodeId × Document) := do
  let tree ← source.subtree id
  match ← d.plant none (tree.map (·.2)) with
  | (root :: _, d) => return (root, d)
  | ([], _) => throw (.deadNode id)

/-- Frees the nodes of `pending` with everything below them, the last child of a node first. -/
def releaseAll (d : Document) (pending : List NodeId) : Except Fault Document :=
  match pending with
  | [] => .ok d
  | id :: pending =>
    match _ : d.children id with
    | .ok children => (d.release id.index).releaseAll (children.reverse ++ pending)
    | .error e => .error e
termination_by d.occupied
decreasing_by
  obtain ⟨n, hn⟩ := node?_of_children ‹d.children id = .ok children›
  have := occupied_release hn
  omega

/-- Where freeing succeeds, what holds of its outcome is traced back through each node that was freed. -/
theorem releaseAll_induction {d d' : Document} {pending : List NodeId}
    {P : Document → List NodeId → Prop} (done : P d' [])
    (step : ∀ d id pending children n, d.node? id = some n → d.children id = .ok children →
      P (d.release id.index) (children.reverse ++ pending) → P d (id :: pending))
    (h : d.releaseAll pending = .ok d') : P d pending := by
  induction d, pending using releaseAll.induct with
  | case1 d =>
    rw [releaseAll] at h
    cases h
    exact done
  | case2 d id pending children hc ih =>
    rw [releaseAll] at h
    split at h
    . next hc' =>
      cases hc.symm.trans hc'
      obtain ⟨n, hn⟩ := node?_of_children hc
      exact step d id pending children n hn hc (ih h)
    . cases h
  | case3 d id pending e he =>
    rw [releaseAll] at h
    split at h
    . next hc => cases he.symm.trans hc
    . cases h

theorem occupied_releaseAll {d d' : Document} {pending : List NodeId}
    (h : d.releaseAll pending = .ok d') : d'.occupied + min 1 pending.length ≤ d.occupied := by
  refine releaseAll_induction (P := fun d pending => d'.occupied + min 1 pending.length ≤ d.occupied)
    (by simp) ?_ h
  intro d id pending children n hn _ ih
  have := occupied_release hn
  simp
  omega

def discard (d : Document) (id : NodeId) : Except Fault Document := do
  (← d.remove id).releaseAll [id]

theorem occupied_discard {d d' : Document} {id : NodeId} (h : d.discard id = .ok d')
    : d'.occupied < d.occupied := by
  obtain ⟨d₁, h₁, h⟩ := bind_eq_ok.1 h
  have := occupied_remove h₁
  have := occupied_releaseAll h
  simp at this
  omega

/-- Frees everything below `parent`, which must not be freed itself on the way. -/
def discardChildren (d : Document) (parent : NodeId) : Except Fault Document :=
  match d.firstChild parent with
  | .ok (some child) =>
    match _ : d.discard child with
    | .ok d => d.discardChildren parent
    | .error e => .error e
  | .ok none => .ok d
  | .error e => .error e
termination_by d.occupied
decreasing_by exact occupied_discard ‹_›

theorem discardChildren_induction {d d' : Document} {parent : NodeId} {P : Document → Prop}
    (done : d'.firstChild parent = .ok none → P d')
    (step : ∀ d child d₁, d.firstChild parent = .ok (some child) → d.discard child = .ok d₁ →
      d₁.discardChildren parent = .ok d' → P d₁ → P d)
    (h : d.discardChildren parent = .ok d') : P d := by
  induction d using discardChildren.induct parent with
  | case1 d child hf d₁ h₁ ih =>
    rw [discardChildren, hf] at h
    dsimp only at h
    split at h
    . next hd =>
      cases h₁.symm.trans hd
      exact step d child d₁ hf h₁ h (ih h)
    . cases h
  | case2 d child hf e he =>
    rw [discardChildren, hf] at h
    dsimp only at h
    split at h
    . next hd => cases he.symm.trans hd
    . cases h
  | case3 d hf =>
    rw [discardChildren, hf] at h
    cases h
    exact done hf
  | case4 d e hf =>
    rw [discardChildren, hf] at h
    cases h

end VirtualDom.Document
