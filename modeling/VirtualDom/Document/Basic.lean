import VirtualDom.Fault
import VirtualDom.Value.Basic

/-!
This module contains documents: nodes in slots, each linked to its parent, to its first and last
child and to the siblings next to it. A slot whose node is freed goes on top of the free slots and is
reused for the next node.
-/

namespace VirtualDom

structure Element where
  tag : String
  attributes : Dict String := []
  properties : Dict Value := []
  handlers : Dict Value := []

inductive Content where
  | element (e : Element)
  | text (s : String)
  | comment (s : String)

structure Node where
  content : Content
  parent : Option NodeId := none
  firstChild : Option NodeId := none
  lastChild : Option NodeId := none
  prevSibling : Option NodeId := none
  nextSibling : Option NodeId := none

structure Slot where
  generation : UInt32
  node : Option Node

structure Tally where
  created : Nat := 0
  inserted : Nat := 0
  moved : Nat := 0
  removed : Nat := 0
  attributeWrites : Nat := 0
  propertyWrites : Nat := 0
  textWrites : Nat := 0
deriving DecidableEq

/-- The freeing of all that a node has in it, on behalf of one that has all of it. -/
structure Clearing where
  parent : NodeId
  children : List NodeId
  /-- The nodes of the one on whose behalf it is. -/
  own : List NodeId

/-- The coming of a component: it has made its element and put it into a parent. -/
structure Component where
  name : String
  element : NodeId
  parent : NodeId

/--
What was recorded of all that views did so far. It is there to be spoken of: no operation looks at it, and
documents that differ in it alone are twins, to which all operations do the same.
-/
structure Annals where
  clearings : List Clearing := []
  arrivals : List Component := []

structure Document where
  slots : Array Slot := #[]
  /-- The empty slots, the one to be filled next first. -/
  free : List Nat := []
  tally : Tally := {}
  annals : Annals := {}

instance : Inhabited Document := ⟨{}⟩

namespace Document

def node? (d : Document) (id : NodeId) : Option Node :=
  match d.slots[id.index]? with
  | some slot => if slot.generation = id.generation then slot.node else none
  | none => none

def contains (d : Document) (id : NodeId) : Bool :=
  (d.node? id).isSome

def node (d : Document) (id : NodeId) : Except Fault Node :=
  match d.node? id with
  | some n => .ok n
  | none => .error (.deadNode id)

theorem node?_eq_some {d : Document} {id : NodeId} {n : Node}
    : d.node? id = some n ↔ d.slots[id.index]? = some ⟨id.generation, some n⟩ := by
  unfold node?
  cases h : d.slots[id.index]? with
  | none => simp
  | some slot =>
    obtain ⟨generation, node⟩ := slot
    by_cases hg : generation = id.generation <;> simp [hg]

theorem node_eq_ok {d : Document} {id : NodeId} {n : Node}
    : d.node id = .ok n ↔ d.node? id = some n := by
  unfold node
  cases d.node? id <;> simp

def size (d : Document) : Nat :=
  d.slots.size - d.free.length

def capacity (d : Document) : Nat :=
  d.slots.size

def resetTally (d : Document) : Document :=
  { d with tally := {} }

def recordClearing (d : Document) (c : Clearing) : Document :=
  { d with annals.clearings := d.annals.clearings ++ [c] }

def recordArrival (d : Document) (c : Component) : Document :=
  { d with annals.arrivals := d.annals.arrivals ++ [c] }

def modify (d : Document) (id : NodeId) (f : Node → Node) : Document :=
  { d with
    slots := d.slots.modify id.index fun slot =>
      if slot.generation = id.generation then { slot with node := slot.node.map f } else slot }

def update (d : Document) (id : NodeId) (f : Node → Node) : Except Fault Document := do
  let _ ← d.node id
  return d.modify id f

/--
A new node that is in no parent, in the free slot on top or else in a new slot. That the slots are fewer
than 2³² is assumed, and that there could be no index for another one is not modelled.
-/
def create (d : Document) (content : Content) : NodeId × Document :=
  let tally := { d.tally with created := d.tally.created + 1 }
  let node := some { content }
  match d.free with
  | index :: free =>
    let generation := (d.slots[index]?.map Slot.generation).getD 0
    let slots := d.slots.modify index ({ · with node })
    (⟨index, generation⟩, { d with slots, free, tally })
  | [] =>
    (⟨d.slots.size, 0⟩, { d with slots := d.slots.push ⟨0, node⟩, tally })

def createElement (d : Document) (tag : String) : NodeId × Document :=
  d.create (.element { tag })

def createText (d : Document) (s : String) : NodeId × Document :=
  d.create (.text s)

def createComment (d : Document) (s : String) : NodeId × Document :=
  d.create (.comment s)

/-- Empties a slot, so that its node's id stops resolving. -/
def release (d : Document) (index : Nat) : Document :=
  { d with
    slots := d.slots.modify index fun slot => ⟨slot.generation + 1, none⟩
    free := index :: d.free }

section Lookup

theorem node?_modify (d : Document) (id : NodeId) (f : Node → Node) (x : NodeId)
    : (d.modify id f).node? x = if x = id then (d.node? x).map f else d.node? x := by
  obtain ⟨i, g⟩ := id
  obtain ⟨j, g'⟩ := x
  unfold node? modify
  simp only [Array.getElem?_modify, NodeId.mk.injEq]
  by_cases hi : i = j
  . subst hi
    cases d.slots[i]? with
    | none => simp
    | some slot =>
      by_cases hg : slot.generation = g
      . by_cases hg' : slot.generation = g' <;> grind
      . grind
  . simp [hi, Ne.symm hi]

theorem update_eq_ok {d : Document} {id : NodeId} {n : Node} (h : d.node? id = some n)
    (f : Node → Node) : d.update id f = .ok (d.modify id f) := by
  unfold update
  rw [node_eq_ok.2 h]
  rfl

theorem node?_release (d : Document) (i : Nat) (x : NodeId)
    : (d.release i).node? x = if x.index = i then none else d.node? x := by
  unfold node? release
  simp only [Array.getElem?_modify]
  by_cases hi : x.index = i
  . subst hi
    cases d.slots[x.index]? <;> simp
  . simp [hi, Ne.symm hi]

theorem eq_of_index_eq {d : Document} {x y : NodeId} {n m : Node} (hx : d.node? x = some n)
    (hy : d.node? y = some m) (h : x.index = y.index) : x = y := by
  have hx := node?_eq_some.1 hx
  have hy := node?_eq_some.1 hy
  rw [h, hy] at hx
  cases x
  cases y
  simp_all

theorem index_lt {d : Document} {x : NodeId} {n : Node} (h : d.node? x = some n)
    : x.index < d.slots.size := by
  have := node?_eq_some.1 h
  exact (Array.getElem?_eq_some_iff.1 this).1

end Lookup

section Occupied

theorem modify_eq_self {α : Type u} {f : α → α} {xs : Array α} {i : Nat} (h : xs[i]? = none)
    : xs.modify i f = xs := by
  apply Array.ext_getElem?
  intro j
  rw [Array.getElem?_modify]
  split
  . next hj => simp [← hj, h]
  . rfl

theorem countP_modify {α : Type u} {p : α → Bool} {f : α → α} {xs : Array α} {i : Nat} {a : α}
    (h : xs[i]? = some a)
    : (xs.modify i f).countP p + (if p a then 1 else 0)
        =
      xs.countP p + if p (f a) then 1 else 0 := by
  obtain ⟨hi, rfl⟩ := Array.getElem?_eq_some_iff.1 h
  have hs := List.take_append_drop i xs.toList
  rw [List.drop_eq_getElem_cons (by simpa using hi)] at hs
  rw [← Array.countP_toList, ← Array.countP_toList, Array.toList_modify,
    List.modify_eq_take_cons_drop (by simpa using hi)]
  conv => rhs; rw [← hs]
  simp only [List.countP_append, List.countP_cons, Array.getElem_toList]
  omega

def occupied (d : Document) : Nat :=
  d.slots.countP (·.node.isSome)

theorem occupied_modify (d : Document) (id : NodeId) (f : Node → Node)
    : (d.modify id f).occupied = d.occupied := by
  unfold occupied modify
  dsimp only
  cases h : d.slots[id.index]? with
  | none => rw [modify_eq_self h]
  | some slot =>
    have := countP_modify (p := (·.node.isSome)) (f := fun slot =>
      if slot.generation = id.generation then { slot with node := slot.node.map f } else slot) h
    have hs : (if slot.generation = id.generation then { slot with node := slot.node.map f }
        else slot : Slot).node.isSome = slot.node.isSome := by
      split <;> simp
    simp only [hs] at this
    omega

theorem occupied_update {d d' : Document} {id : NodeId} {f : Node → Node}
    (h : d.update id f = .ok d') : d'.occupied = d.occupied := by
  obtain ⟨_, _, h⟩ := bind_eq_ok.1 h
  cases h
  apply occupied_modify

theorem occupied_release {d : Document} {id : NodeId} {n : Node} (h : d.node? id = some n)
    : (d.release id.index).occupied + 1 = d.occupied := by
  have := countP_modify (p := (·.node.isSome)) (f := fun slot => ⟨slot.generation + 1, none⟩)
    (node?_eq_some.1 h)
  simpa [occupied, release] using this

end Occupied

section Navigation

variable (d : Document) (id : NodeId)

def content : Except Fault Content :=
  return (← d.node id).content

def parent : Except Fault (Option NodeId) :=
  return (← d.node id).parent

def firstChild : Except Fault (Option NodeId) :=
  return (← d.node id).firstChild

def lastChild : Except Fault (Option NodeId) :=
  return (← d.node id).lastChild

def nextSibling : Except Fault (Option NodeId) :=
  return (← d.node id).nextSibling

def prevSibling : Except Fault (Option NodeId) :=
  return (← d.node id).prevSibling

def siblingsFrom (d : Document) : Nat → Option NodeId → Except Fault (List NodeId)
  | _, none | 0, some _ => return []
  | bound + 1, some id => return id :: (← d.siblingsFrom bound (← d.nextSibling id))

/-- All children in order. No two siblings share a slot, so that there are no more than slots. -/
def children : Except Fault (List NodeId) := do
  d.siblingsFrom d.slots.size (← d.firstChild id)

theorem node?_of_children {d : Document} {id : NodeId} {ids : List NodeId}
    (h : d.children id = .ok ids) : ∃ n, d.node? id = some n := by
  obtain ⟨_, h, _⟩ := bind_eq_ok.1 h
  obtain ⟨n, h, _⟩ := bind_eq_ok.1 h
  exact ⟨n, node_eq_ok.1 h⟩

def element? : Except Fault (Option Element) := do
  match ← d.content id with
  | .element e => return some e
  | _ => return none

def tag? : Except Fault (Option String) :=
  return (← d.element? id).map Element.tag

def text? : Except Fault (Option String) := do
  match ← d.content id with
  | .element _ => return none
  | .text s | .comment s => return some s

end Navigation

end Document
end VirtualDom
