import VirtualDom.Proofs.Document.Site
import VirtualDom.Proofs.Ownership.Performs
import VirtualDom.Proofs.View.Draws

/-!
This module contains which nodes mounted views own, whatever order they are in, and which components
are among them.
-/

namespace VirtualDom

open Document (Site Bond)
open Template (Marked Opening)

/--
What is known of how views are used: whether it is proper, so that no fault comes up; whether there are
components and ghosts; whether patches keep callbacks; and which templates there are.
-/
structure Usage where
  proper : Prop
  custom : Prop
  faithful : Prop
  known : Template → Prop
  /-- A template is told by its source. -/
  unique : ¬ proper → ∀ {s t : Template}, known s → known t → s.source = t.source → s = t
  proper_of_custom : custom → proper

namespace View

/-- What may be patched by what, where the use of views is proper. -/
inductive Precedes (u : Usage) : View → View → Prop
  /-- A ghost has no parent, in which another view could take its place. -/
  | replaced {old new : View} (kind : old.kind ≠ new.kind) (not_ghost : old ≠ .ghost) : Precedes u old new
  | text {value value' : Value} {node node' parent parent' : Option NodeId} :
      Precedes u (.text value node parent) (.text value' node' parent')
  | html {markup markup' : String} {content content' : List NodeId} {parent parent' : Option NodeId} :
      Precedes u (.html markup content parent) (.html markup' content' parent')
  | list {items items' : List (Key × View)} {anchor anchor' parent parent' : Option NodeId}
      {sole sole' : Bool}
      (item : ∀ a ∈ items, ∀ b ∈ items', a.1 = b.1 → Precedes u a.2 b.2) :
      Precedes u (.list items anchor parent sole) (.list items' anchor' parent' sole')
  | multi {children children' : List (Option View)} {standIns standIns' : List (Option NodeId)}
      {parent parent' : Option NodeId} {sole sole' : Bool} (length : children.length = children'.length)
      (child : ∀ (i : Nat) (a b : View), children[i]? = some (some a) → children'[i]? = some (some b) →
        Precedes u a b) :
      Precedes u (.multi children standIns parent sole) (.multi children' standIns' parent' sole')
  | toggler {key key' : Key} {child child' : View} {parent parent' : Option NodeId}
      (inner : key = key' → Precedes u child child') :
      Precedes u (.toggler key child parent) (.toggler key' child' parent')
  | block {template : Template} {data data' : Data} {children children' : List (Option View)}
      {mounted mounted' : Option Anchorage}
      (callback : u.faithful → ∀ l ∈ template.wiring.locations, l.binding = .ref →
        (data.at l.dataIndex).label? = (data'.at l.dataIndex).label?)
      (child : ∀ slot ∈ template.wiring.slots, ∀ (a b : View), children[slot.index]? = some (some a) →
        children'[slot.index]? = some (some b) → Precedes u a b) :
      Precedes u (.block template data children mounted) (.block template data' children' mounted')
  /-- A component does not take a child in or leave one, which would not be mounted or go. -/
  | component {name name' : String} {child child' : Option View} {node node' : Option NodeId}
      (isSome : child.isSome = child'.isSome)
      (inner : ∀ a b, child = some a → child' = some b → Precedes u a b) :
      Precedes u (.component name child node) (.component name' child' node')
  | ghost : Precedes u .ghost .ghost

/-- The view may be patched by all that `w` may be patched by. -/
def StandsFor (u : Usage) (v w : View) : Prop :=
  ∀ next, Precedes u w next → Precedes u v next

variable {u : Usage}

/-- The view can be mounted; it is of no account where it was mounted before. -/
inductive Mountable (u : Usage) : View → Prop
  | text {value : Value} {node parent : Option NodeId} : Mountable u (.text value node parent)
  | html {markup : String} {content : List NodeId} {parent : Option NodeId} :
      Mountable u (.html markup content parent)
  | list {items : List (Key × View)} {anchor parent : Option NodeId} {sole : Bool}
      (item : ∀ item ∈ items, Mountable u item.2) (not_sole : ∀ item ∈ items, item.2.isSole = false) :
      Mountable u (.list items anchor parent sole)
  | multi {children : List (Option View)} {standIns : List (Option NodeId)} {parent : Option NodeId}
      {sole : Bool} (child : ∀ w, some w ∈ children → Mountable u w)
      (not_sole : ∀ w, some w ∈ children → w.isSole = false) :
      Mountable u (.multi children standIns parent sole)
  | toggler {key : Key} {child : View} {parent : Option NodeId} (inner : Mountable u child)
      (not_sole : child.isSole = false) : Mountable u (.toggler key child parent)
  | block {template : Template} {source : String} {normalize : Bool} {data : Data}
      {children : List (Option View)} {mounted : Option Anchorage} (known : u.known template)
      (compiled : template.Compiled source normalize)
      (indices : (template.wiring.slots.map (·.index)).Nodup)
      (capacity : ∀ slot ∈ template.wiring.slots, slot.index < children.length)
      (placed : u.custom → ∀ (i : Nat) (w : View), children[i]? = some (some w) →
        ∃ slot ∈ template.wiring.slots, slot.index = i)
      (child : ∀ w, some w ∈ children → Mountable u w) :
      Mountable u (.block template data children mounted)
  | component {name : String} {child : Option View} {node : Option NodeId} (custom : u.custom)
      (inner : ∀ w, child = some w → Mountable u w)
      (not_sole : ∀ w, child = some w → w.isSole = false) : Mountable u (.component name child node)
  | ghost (custom : u.custom) : Mountable u .ghost

theorem Mountable.known {template : Template} {data : Data} {children : List (Option View)}
    {mounted : Option Anchorage} (h : Mountable u (.block template data children mounted))
    : u.known template := by
  cases h with
  | block known => exact known

/-- The mounted view owns the nodes of a forest, the roots of which are in a parent. -/
inductive Owns (u : Usage) : View → NodeId → Forest (NodeId × Content) → Prop
  | text {value : Value} {id p : NodeId} {T : Forest (NodeId × Content)} (tree : T.rootIds = [id]) :
      Owns u (.text value (some id) (some p)) p T
  | html {markup : String} {p : NodeId} {F : Forest (NodeId × Content)}
      (ne_nil : u.proper → F.rootIds ≠ []) : Owns u (.html markup F.rootIds (some p)) p F
  | list {rows : List Row} {anchor p : NodeId} {sole : Bool} {T : Forest (NodeId × Content)}
      (row : ∀ r ∈ rows, Owns u r.view p r.forest) (not_sole : ∀ r ∈ rows, r.view.isSole = false)
      (tree : T.rootIds = [anchor]) :
      Owns u (.list (rows.map Row.item) (some anchor) (some p) sole) p
        (.join (rows.map Row.forest) ++ T)
  | multi {cells : List Cell} {p : NodeId} {sole : Bool}
      (child : ∀ c ∈ cells, ∀ v, c.child = some v → Owns u v p c.forest)
      (not_sole : ∀ c ∈ cells, ∀ v, c.child = some v → v.isSole = false)
      (standIn : ∀ c ∈ cells, c.child = none → ∃ id, c.standIn = some id ∧ c.forest.rootIds = [id]) :
      Owns u (.multi (cells.map Cell.child) (cells.map Cell.standIn) (some p) sole) p
        (.join (cells.map Cell.forest))
  | toggler {key : Key} {child : View} {p : NodeId} {F : Forest (NodeId × Content)}
      (inner : Owns u child p F) (not_sole : child.isSole = false) :
      Owns u (.toggler key child (some p)) p F
  | block {template : Template} {data : Data} {children : List (Option View)} {root p : NodeId}
      {references : List NodeId} {S : Marked} {held : NodeId → Content}
      {guests : Nat → Forest (NodeId × Content)}
      (mountable : Mountable u (.block template data children none))
      (copied : template.Copied root references S)
      (child : ∀ o ∈ S.openings p, ∀ v, children[o.index]? = some (some v) →
        Owns u v o.parent (guests o.index))
      (sole : ∀ o ∈ S.openings p, ∀ v, children[o.index]? = some (some v) → v.isSole → o.sole)
      (absent : ∀ o ∈ S.openings p, children[o.index]? = some none → guests o.index = .nil) :
      Owns u (.block template data children (some ⟨root, references⟩)) p (S.filled held guests)
  | component {name : String} {child : Option View} {id p : NodeId} {c : Content}
      {F : Forest (NodeId × Content)} (custom : u.custom) (absent : child = none → F = .nil)
      (inner : ∀ v, child = some v → Owns u v id F) (not_sole : ∀ v, child = some v → v.isSole = false) :
      Owns u (.component name child (some id)) p (.cons (id, c) F .nil)
  | ghost {p : NodeId} (custom : u.custom) : Owns u .ghost p .nil

section Nodes

variable {p : NodeId}

theorem itemNodes_eq {rows : List Row} (hr : ∀ r ∈ rows, r.view.nodes = r.forest.rootIds)
    : itemNodes (rows.map Row.item) = (Forest.join (rows.map Row.forest)).rootIds := by
  induction rows with
  | nil => rfl
  | cons r rows ih =>
    rw [List.map_cons, Row.item, itemNodes, hr r List.mem_cons_self,
      ih fun r' hr' => hr r' (List.mem_cons_of_mem _ hr')]
    simp

theorem childNodes_eq {cells : List Cell}
    (hc : ∀ c ∈ cells, ∀ v, c.child = some v → v.nodes = c.forest.rootIds)
    (standIn : ∀ c ∈ cells, c.child = none → ∃ id, c.standIn = some id ∧ c.forest.rootIds = [id])
    : childNodes (cells.map Cell.child) (cells.map Cell.standIn)
        = (Forest.join (cells.map Cell.forest)).rootIds := by
  induction cells with
  | nil => rfl
  | cons c cells ih =>
    have ih := ih (fun c' hc' => hc c' (List.mem_cons_of_mem _ hc'))
      fun c' hc' => standIn c' (List.mem_cons_of_mem _ hc')
    rw [List.map_cons, List.map_cons, List.map_cons, Forest.join_cons, Forest.rootIds_append, ← ih]
    cases hcc : c.child with
    | none =>
      obtain ⟨id, hid, hF⟩ := standIn c List.mem_cons_self hcc
      rw [hid, hF, childNodes]
      rfl
    | some v => rw [childNodes, hc c List.mem_cons_self v hcc]

end Nodes

namespace Owns

variable {v : View} {p : NodeId} {F : Forest (NodeId × Content)}

theorem nodes_eq (h : Owns u v p F) : v.nodes = F.rootIds := by
  induction h with
  | text tree => exact tree.symm
  | html ne_nil => rfl
  | list row not_sole tree ih =>
    rw [nodes, itemNodes_eq ih, Forest.rootIds_append, tree]
    rfl
  | multi child not_sole standIn ih => exact childNodes_eq ih standIn
  | toggler inner not_sole ih => rw [nodes, ih]
  | block mountable copied => exact (copied.rootIds _ _).symm
  | component | ghost => rfl

theorem firstNode_mem (h : Owns u v p F) {x : NodeId} (hx : v.firstNode = some x) : x ∈ F.rootIds := by
  induction h with
  | text tree =>
    cases hx
    simp [tree]
  | html ne_nil => exact List.mem_of_mem_head? hx
  | @list rows anchor p sole T row not_sole tree ih =>
    rw [Forest.rootIds_append]
    cases rows with
    | nil =>
      rw [List.map_nil, firstNode] at hx
      cases hx
      simp [tree]
    | cons r rows =>
      rw [List.map_cons, Row.item, firstNode] at hx
      simp [ih r List.mem_cons_self hx]
  | @multi cells p sole child not_sole standIn ih =>
    cases cells with
    | nil => cases hx
    | cons c cells =>
      rw [List.map_cons, Forest.join_cons, Forest.rootIds_append]
      cases hc : c.child with
      | none =>
        obtain ⟨id, hid, hF⟩ := standIn c List.mem_cons_self hc
        rw [List.map_cons, List.map_cons, hc, hid, firstNode] at hx
        cases hx
        simp [hF]
      | some child =>
        rw [List.map_cons, hc, firstNode] at hx
        simp [ih c List.mem_cons_self child hc hx]
  | toggler inner not_sole ih => exact ih hx
  | block mountable copied =>
    cases hx
    simp [copied.rootIds]
  | component =>
    cases hx
    simp
  | ghost => cases hx

theorem ne_ghost (h : Owns u v p F) (hc : ¬ u.custom) : v ≠ .ghost := by
  rintro rfl
  cases h with
  | ghost custom => exact hc custom

theorem parentNode {d : Document} {s : Site} (h : Owns u v s.node F) (hd : d.Carries s F)
    (hnot : v ≠ .ghost) : v.parentNode d = .ok (some s.node) := by
  generalize hp : s.node = p at h
  cases h with
  | block mountable copied => exact hp ▸ hd.parent (by simp [copied.rootIds])
  | component => exact hp ▸ hd.parent (by simp)
  | ghost => exact absurd rfl hnot
  | _ => rfl

theorem withSole (h : Owns u v p F) (sole : Bool) : Owns u (v.withSole sole) p F := by
  cases h with
  | text tree => exact .text tree
  | html ne_nil => exact .html ne_nil
  | list row not_sole tree => exact .list row not_sole tree
  | multi child not_sole standIn => exact .multi child not_sole standIn
  | toggler inner not_sole => exact .toggler inner not_sole
  | block mountable copied child sole absent => exact .block mountable copied child sole absent
  | component custom absent inner not_sole => exact .component custom absent inner not_sole
  | ghost custom => exact .ghost custom

theorem mountable (h : Owns u v p F) : Mountable u v := by
  induction h with
  | text => exact .text
  | html => exact .html
  | list row not_sole tree ih =>
    refine .list ?_ ?_
    . simpa [Row.item] using ih
    . simpa [Row.item] using not_sole
  | @multi cells p sole child not_sole standIn ih =>
    refine .multi ?_ ?_
    . intro w hw
      obtain ⟨c, hc, hcw⟩ := List.mem_map.1 hw
      exact ih c hc w hcw
    . intro w hw
      obtain ⟨c, hc, hcw⟩ := List.mem_map.1 hw
      exact not_sole c hc w hcw
  | toggler inner not_sole ih => exact .toggler ih not_sole
  | block mountable =>
    cases mountable with
    | block known compiled indices capacity placed child =>
      exact .block known compiled indices capacity placed child
  | component custom absent inner not_sole ih => exact .component custom ih not_sole
  | ghost custom => exact .ghost custom

end Owns
end View
end VirtualDom
