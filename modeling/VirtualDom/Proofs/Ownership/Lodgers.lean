import Mathlib.Algebra.BigOperators.Intervals
import Mathlib.Algebra.Order.Group.Multiset
import VirtualDom.View.Patch

/-!
This module contains which views are mounted together with a view, each in a node of its own choice, and
what they hold: the components among them, and the callbacks that were told an element of theirs.
-/

namespace VirtualDom

/-- A callback, with the element that it was told. -/
abbrev Link :=
  String × NodeId

def Value.label? : Value → Option String
  | .ref _ label => some label
  | _ => none

namespace Template

def parentAt (t : Template) (references : List NodeId) (index : Nat) : Option NodeId :=
  (t.wiring.slots.find? (·.index = index)).bind (references[·.parent]?)

def Location.link? (references : List NodeId) (data : Data) (l : Location) : Option Link :=
  match l.binding, (data.at l.dataIndex).label?, references[l.reference]? with
  | .ref, some label, some node => some (label, node)
  | _, _, _ => none

def links (t : Template) (references : List NodeId) (data : Data) : List Link :=
  t.wiring.locations.filterMap (·.link? references data)

theorem links_congr {t : Template} {references : List NodeId} {data data' : Data}
    (h : ∀ l ∈ t.wiring.locations, l.binding = .ref →
      (data.at l.dataIndex).label? = (data'.at l.dataIndex).label?)
    : t.links references data = t.links references data' := by
  refine List.filterMap_congr fun l hl => ?_
  unfold Location.link?
  by_cases hb : l.binding = .ref
  . rw [h l hl hb]
  . split
    . next hb' _ _ => exact absurd hb' hb
    . split
      . next hb' _ _ => exact absurd hb' hb
      . rfl

end Template

/-- A mounted view, with the node that it is in. -/
structure Lodger where
  parent : NodeId
  view : View

namespace Lodger

def component? : Lodger → Option Component
  | ⟨p, .component name _ (some id)⟩ => some ⟨name, id, p⟩
  | _ => none

def links : Lodger → List Link
  | ⟨_, .block template data _ (some anchorage)⟩ => template.links anchorage.references data
  | _ => []

end Lodger

/-- Components, and callbacks that were told an element. -/
abbrev Holdings :=
  Multiset Component × Multiset Link

def holdingsOf (lodgers : List Lodger) : Holdings :=
  (lodgers.filterMap (·.component?), lodgers.flatMap (·.links))

theorem holdingsOf_append (ls ls' : List Lodger)
    : holdingsOf (ls ++ ls') = holdingsOf ls + holdingsOf ls' := by
  simp only [holdingsOf, List.filterMap_append, List.flatMap_append, ← Multiset.coe_add,
    Prod.mk_add_mk]

theorem holdingsOf_cons (l : Lodger) (ls : List Lodger)
    : holdingsOf (l :: ls) = holdingsOf [l] + holdingsOf ls :=
  holdingsOf_append [l] ls

namespace View

section Lodgers

mutual

/-- The views that are mounted together with a view in `p`: itself first, and those in it. -/
def lodgers (p : NodeId) : View → List Lodger
  | .block template data children (some anchorage) =>
    ⟨p, .block template data children (some anchorage)⟩
      :: childLodgers (template.parentAt anchorage.references) 0 children
  | .list items anchor parent sole => ⟨p, .list items anchor parent sole⟩ :: itemLodgers p items
  | .multi children standIns parent sole =>
    ⟨p, .multi children standIns parent sole⟩ :: childLodgers (fun _ => some p) 0 children
  | .toggler key child parent => ⟨p, .toggler key child parent⟩ :: child.lodgers p
  | .component name (some child) (some id) =>
    ⟨p, .component name (some child) (some id)⟩ :: child.lodgers id
  | view => [⟨p, view⟩]

def itemLodgers (p : NodeId) : List (Key × View) → List Lodger
  | [] => []
  | (_, item) :: rest => item.lodgers p ++ itemLodgers p rest

/-- The views in children that have a parent, where the first child has the index `i`. -/
def childLodgers (parent : Nat → Option NodeId) (i : Nat) : List (Option View) → List Lodger
  | [] => []
  | none :: rest => childLodgers parent (i + 1) rest
  | some child :: rest => (parent i).elim [] (child.lodgers ·) ++ childLodgers parent (i + 1) rest

end

mutual

/--
The views in a mounted one that are not freed by themselves when it goes, but with what they are in: those
in a block or a component, and those in a list or a multi that clears its parent as a whole.
-/
def buried (p : NodeId) : View → List Lodger
  | .block template _ children (some anchorage) =>
    childLodgers (template.parentAt anchorage.references) 0 children
  | .list items _ _ sole => if sole then itemLodgers p items else itemBuried p items
  | .multi children _ _ sole =>
    if sole then childLodgers (fun _ => some p) 0 children else childBuried p children
  | .toggler _ child _ => child.buried p
  | .component _ (some child) (some id) => child.lodgers id
  | _ => []

def itemBuried (p : NodeId) : List (Key × View) → List Lodger
  | [] => []
  | (_, item) :: rest => item.buried p ++ itemBuried p rest

def childBuried (p : NodeId) : List (Option View) → List Lodger
  | [] => []
  | none :: rest => childBuried p rest
  | some child :: rest => child.buried p ++ childBuried p rest

end

end Lodgers

/-- The components in a view that is mounted in `p`, outer ones first. -/
def components (p : NodeId) (v : View) : List Component :=
  (v.lodgers p).filterMap (·.component?)

def holdings (p : NodeId) (v : View) : Holdings :=
  holdingsOf (v.lodgers p)

def holdingsAt (p : NodeId) (child : Option View) : Holdings :=
  child.elim 0 (·.holdings p)

variable {p : NodeId}

@[simp]
theorem holdingsAt_none : holdingsAt p none = 0 :=
  rfl

section Holdings

theorem holdingsOf_itemLodgers (items : List (Key × View))
    : holdingsOf (itemLodgers p items) = (items.map (·.2.holdings p)).sum := by
  induction items with
  | nil => rfl
  | cons item rest ih => rw [itemLodgers, holdingsOf_append, ih, List.map_cons, List.sum_cons, holdings]

theorem holdingsOf_childLodgers (parent : Nat → Option NodeId) (i : Nat) (children : List (Option View))
    : holdingsOf (childLodgers parent i children) = ∑ j ∈ Finset.range children.length,
        (parent (i + j)).elim 0 fun q => holdingsAt q children[j]?.join := by
  induction children generalizing i with
  | nil => rfl
  | cons child rest ih =>
    rw [List.length_cons, Finset.sum_range_succ']
    simp only [List.getElem?_cons_succ, List.getElem?_cons_zero, Option.join_some, Nat.add_zero,
      ← Nat.add_assoc, Nat.add_right_comm i _ 1, ← ih (i + 1)]
    cases child with
    | none =>
      rw [childLodgers]
      cases parent i <;> exact (add_zero _).symm
    | some child =>
      rw [childLodgers, holdingsOf_append, add_comm]
      cases parent i <;> rfl

theorem holdings_list (items : List (Key × View)) (anchor parent : Option NodeId) (sole : Bool)
    : holdings p (.list items anchor parent sole) = (items.map (·.2.holdings p)).sum := by
  rw [holdings, lodgers, holdingsOf_cons, holdingsOf_itemLodgers]
  exact zero_add _

theorem holdings_multi (children : List (Option View)) (standIns : List (Option NodeId))
    (parent : Option NodeId) (sole : Bool)
    : holdings p (.multi children standIns parent sole) = (children.map (holdingsAt p)).sum := by
  have hsum : ∀ i, holdingsOf (childLodgers (fun _ => some p) i children)
      = (children.map (holdingsAt p)).sum := by
    induction children with
    | nil => exact fun _ => rfl
    | cons child rest ih =>
      intro i
      rw [List.map_cons, List.sum_cons, ← ih (i + 1)]
      cases child with
      | none => rw [childLodgers, holdingsAt_none, zero_add]
      | some child => rw [childLodgers, holdingsOf_append]; rfl
  rw [holdings, lodgers, holdingsOf_cons, hsum]
  exact zero_add _

theorem holdings_toggler (key : Key) (child : View) (parent : Option NodeId)
    : holdings p (.toggler key child parent) = child.holdings p := by
  rw [holdings, lodgers, holdingsOf_cons]
  exact zero_add _

theorem holdings_component (name : String) (child : Option View) (id : NodeId)
    : holdings p (.component name child (some id)) = ({⟨name, id, p⟩}, 0) + holdingsAt id child := by
  cases child with
  | none => exact (add_zero _).symm
  | some child =>
    rw [holdings, lodgers, holdingsOf_cons]
    rfl

theorem holdings_block (template : Template) (data : Data) (children : List (Option View))
    (anchorage : Anchorage)
    : holdings p (.block template data children (some anchorage))
        = (0, (template.links anchorage.references data : Multiset Link))
          + holdingsOf (childLodgers (template.parentAt anchorage.references) 0 children) := by
  rw [holdings, lodgers, holdingsOf_cons]
  simp [holdingsOf, Lodger.component?, Lodger.links]

theorem holdings_withSole (v : View) (sole : Bool) : (v.withSole sole).holdings p = v.holdings p := by
  cases v with
  | list => rw [withSole, holdings_list, holdings_list]
  | multi => rw [withSole, holdings_multi, holdings_multi]
  | _ => rfl

end Holdings

end View
end VirtualDom
