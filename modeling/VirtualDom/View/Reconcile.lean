import VirtualDom.View.Mount
import VirtualDom.View.Remove

/-!
This module contains the reconciliation of keyed lists. Old and new items are matched from both ends
inwards; where the ends do not match, old items are looked up by key. Items with equal keys keep
their nodes, which are moved only where the order has changed.
-/

namespace VirtualDom.View

open Engine

/-- A view of the next render, with the action that brings an old view in line with it. -/
structure Incoming where
  view : View
  /-- The flag is whether the new view is sole in its parent. -/
  patchAs : Bool → View → Engine View

namespace Incoming

def patch (incoming : Incoming) (old : View) : Engine View :=
  incoming.patchAs incoming.view.isSole old

def mount (incoming : Incoming) (parent : NodeId) (anchor : Option NodeId) : Engine View :=
  incoming.view.mount parent anchor

end Incoming

namespace Reconcile

structure OldItem where
  position : Nat
  key : Key
  view : View

/-- What is left of the old list; looked up items leave holes. -/
abbrev Old :=
  List (Option OldItem)

def Old.ofItems (items : List (Key × View)) : Old :=
  items.zipIdx.map fun ((key, view), position) => some ⟨position, key, view⟩

/-- Where each key occurs last. -/
abbrev Positions :=
  List (Key × Nat)

def Positions.get? (positions : Positions) (key : Key) : Option Nat :=
  (positions.find? (·.1 = key)).map (·.2)

/-- The positions in the old list; a key that occurs again is warned about. -/
def positions (old : Old) : Engine Positions :=
  old.reduceOption.foldlM add []
where
  add (known : Positions) (item : OldItem) : Engine Positions := do
    if (known.get? item.key).isSome then
      warn (.duplicateKey item.key)
    return (item.key, item.position) :: known

/-- The positions, which are taken only once. -/
def learn (known : Option Positions) (old : Old) : Engine Positions :=
  match known with
  | some known => return known
  | none => positions old

def take? (position : Nat) : Old → Option (OldItem × Old)
  | [] => none
  | none :: rest => (take? position rest).map fun (item, rest) => (item, none :: rest)
  | some item :: rest =>
    if item.position = position then some (item, none :: rest)
    else (take? position rest).map fun (found, rest) => (found, some item :: rest)

theorem length_of_take? {position : Nat} {old rest : Old} {item : OldItem}
    (h : take? position old = some (item, rest)) : rest.length = old.length := by
  induction old generalizing rest with
  | nil => cases h
  | cons entry old ih =>
    cases entry with
    | none =>
      obtain ⟨⟨_, _⟩, ht, he⟩ := Option.map_eq_some_iff.1 h
      cases he
      simp [ih ht]
    | some found =>
      simp only [take?] at h
      split at h
      . cases h
        rfl
      . obtain ⟨⟨_, _⟩, ht, he⟩ := Option.map_eq_some_iff.1 h
        cases he
        simp [ih ht]

/-- Takes the item with this key out of the old list; of several, the one that was last at first. -/
def lookUp? (known : Positions) (key : Key) (old : Old) : Option (OldItem × Old) :=
  known.get? key >>= (take? · old)

theorem length_of_lookUp? {known : Positions} {key : Key} {old rest : Old} {item : OldItem}
    (h : lookUp? known key old = some (item, rest)) : rest.length = old.length := by
  obtain ⟨_, _, ht⟩ := Option.bind_eq_some_iff.1 h
  exact length_of_take? ht

/-- The first node of the item behind the gap, or else the anchor of the list. -/
def target (back : List (Key × View)) (anchor : NodeId) : Option NodeId :=
  (back.head?.bind (·.2.firstNode)).or (some anchor)

def mountAll (parent : NodeId) (anchor : Option NodeId)
    : List (Key × Incoming) → Engine (List (Key × View))
  | [] => return []
  | (key, incoming) :: rest => do
    let view ← incoming.mount parent anchor
    return (key, view) :: (← mountAll parent anchor rest)

def tearDownAll (old : Old) : Engine Unit :=
  old.reduceOption.forM fun item => do
    let _ ← item.view.tearDown

/--
The items of the new list in order. `front` and `back` hold those that have their places already, the
nearest to the gap between them first.
-/
def loop (parent anchor : NodeId) (known : Option Positions) (old : Old)
    (new : List (Key × Incoming)) (front back : List (Key × View))
    : Engine (List (Key × View)) :=
  match old, new with
  | [], new => do
    let fresh ← mountAll parent (target back anchor) new
    return front.reverse ++ fresh ++ back
  | old, [] => do
    tearDownAll old
    return front.reverse ++ back
  | first :: olds, firstNew :: news =>
    match first, (first :: olds).getLast (List.cons_ne_nil _ _) with
    | none, _ => loop parent anchor known olds (firstNew :: news) front back
    | some _, none => loop parent anchor known (first :: olds).dropLast (firstNew :: news) front back
    | some first', some last => do
      let lastNew := (firstNew :: news).getLast (List.cons_ne_nil _ _)
      if first'.key = firstNew.1 then
        let view ← firstNew.2.patch first'.view
        loop parent anchor known olds news ((first'.key, view) :: front) back
      else if last.key = lastNew.1 then
        let view ← lastNew.2.patch last.view
        loop parent anchor known (first :: olds).dropLast (firstNew :: news).dropLast front
          ((last.key, view) :: back)
      else if first'.key = lastNew.1 then
        let view ← lastNew.2.patch first'.view
        view.moveBefore (target back anchor)
        loop parent anchor known olds (firstNew :: news).dropLast front
          ((first'.key, view) :: back)
      else if last.key = firstNew.1 then
        let view ← firstNew.2.patch last.view
        view.moveBefore first'.view.firstNode
        loop parent anchor known (first :: olds).dropLast news ((last.key, view) :: front) back
      else
        let known ← learn known (first :: olds)
        match h : lookUp? known firstNew.1 (first :: olds) with
        | some (item, rest) =>
          have : rest.length = olds.length + 1 := length_of_lookUp? h
          item.view.moveBefore first'.view.firstNode
          let view ← firstNew.2.patch item.view
          loop parent anchor (some known) rest news ((item.key, view) :: front) back
        | none =>
          let view ← firstNew.2.mount parent first'.view.firstNode
          loop parent anchor (some known) (first :: olds) news ((firstNew.1, view) :: front) back
termination_by old.length + new.length

end Reconcile

def reconcile (parent anchor : NodeId) (old : List (Key × View)) (new : List (Key × Incoming))
    : Engine (List (Key × View)) :=
  Reconcile.loop parent anchor none (.ofItems old) new [] []

end VirtualDom.View
