import VirtualDom.Proofs.View.Binding

/-!
This module contains what may be asked of the nodes of blocks besides their shapes: all that the values of
the data bring about when they are written, and that holds of the new data once those that have changed
are written.
-/

namespace VirtualDom

open Template (Marked Mark paint inscribed revised)

/--
Allocations, and what is kept of each node of a block: of the data it holds, of the static content and the
marks that it has in the template, and of its content.
-/
structure Upkeep where
  alloc : Allocations
  Keeps : Data → Content × List Mark → Content → Prop
  inscribed : ∀ {t : Template} {source : String} {normalize : Bool} (data : Data),
    t.Compiled source normalize → ∀ n ∈ t.sketch.labels, Keeps data n (Template.inscribed data n.2 n.1)
  revised : ∀ {data old : Data} {n : Content × List Mark} {c : Content}, Keeps old n c →
    Keeps data n (Template.revised data old n.2 c)
  congr : ∀ {data old : Data} {n : Content × List Mark} {c : Content},
    (∀ i, old.at i = data.at i) → Keeps old n c → Keeps data n c

def Upkeep.none (alloc : Allocations) : Upkeep where
  alloc := alloc
  Keeps _ _ _ := True
  inscribed _ _ _ _ := trivial
  revised _ := trivial
  congr _ _ := trivial

namespace View

/-- The mounted view has the nodes of a forest, and those of its blocks are kept up. -/
inductive Tends (care : Upkeep) : View → NodeId → Forest (NodeId × Content) → Prop
  | text {value : Value} {id p : NodeId} (value_from : value.From care.alloc) :
      Tends care (.text value (some id) (some p)) p (.leaf (id, .text value.text))
  | html {markup : String} {p : NodeId} {F : Forest (NodeId × Content)}
      (shapes : F.map (·.2.shape) = rawShapes markup) :
      Tends care (.html markup F.rootIds (some p)) p F
  | list {rows : List Row} {anchor p : NodeId} {sole : Bool}
      (row : ∀ r ∈ rows, Tends care r.view p r.forest) (not_sole : ∀ r ∈ rows, r.view.isSole = false) :
      Tends care (.list (rows.map Row.item) (some anchor) (some p) sole) p
        (.join (rows.map Row.forest) ++ .leaf (anchor, .text ""))
  | multi {cells : List Cell} {p : NodeId} {sole : Bool} (ne_nil : cells ≠ [])
      (child : ∀ c ∈ cells, ∀ v, c.child = some v → Tends care v p c.forest)
      (not_sole : ∀ c ∈ cells, ∀ v, c.child = some v → v.isSole = false)
      (standIn : ∀ c ∈ cells, c.child = none →
        ∃ id, c.standIn = some id ∧ c.forest = .leaf (id, .text "")) :
      Tends care (.multi (cells.map Cell.child) (cells.map Cell.standIn) (some p) sole) p
        (.join (cells.map Cell.forest))
  | toggler {key : Key} {child : View} {p : NodeId} {F : Forest (NodeId × Content)}
      (inner : Tends care child p F) (not_sole : child.isSole = false) :
      Tends care (.toggler key child (some p)) p F
  | block {template : Template} {data : Data} {children : List (Option View)} {root p : NodeId}
      {references : List NodeId} {S : Marked} {held : NodeId → Content}
      {guests : Nat → Forest (NodeId × Content)} (copied : template.Copied root references S)
      (indices : (template.wiring.slots.map (·.index)).Nodup) (data_from : data.From care.alloc)
      (painted : ∀ l ∈ S.labels, (held l.1.1).shape = paint data (l.1.2, l.2))
      (kept : ∀ l ∈ S.labels, care.Keeps data (l.1.2, l.2) (held l.1.1))
      (capacity : ∀ slot ∈ template.wiring.slots, slot.index < children.length)
      (child : ∀ o ∈ S.openings p, ∀ v, children[o.index]? = some (some v) →
        Tends care v o.parent (guests o.index))
      (sole : ∀ o ∈ S.openings p, ∀ v, children[o.index]? = some (some v) → v.isSole → o.sole)
      (absent : ∀ o ∈ S.openings p, children[o.index]? = some none → guests o.index = .nil) :
      Tends care (.block template data children (some ⟨root, references⟩)) p (S.filled held guests)

section Tends

variable {care : Upkeep} {alloc : Allocations} {v : View} {p : NodeId} {F : Forest (NodeId × Content)}

theorem Tends.draws (h : Tends care v p F) : Draws care.alloc v p F := by
  induction h with
  | text value_from => exact .text value_from
  | html shapes => exact .html shapes
  | list row not_sole ih => exact .list ih not_sole
  | multi ne_nil child not_sole standIn ih => exact .multi ne_nil ih not_sole standIn
  | toggler inner not_sole ih => exact .toggler ih not_sole
  | block copied indices data_from painted kept capacity child sole absent ih =>
    exact .block copied indices data_from painted capacity ih sole absent

theorem Draws.tends (h : Draws alloc v p F) : Tends (.none alloc) v p F := by
  induction h with
  | text value_from => exact .text value_from
  | html shapes => exact .html shapes
  | list row not_sole ih => exact .list ih not_sole
  | multi ne_nil child not_sole standIn ih => exact .multi ne_nil ih not_sole standIn
  | toggler inner not_sole ih => exact .toggler ih not_sole
  | block copied indices data_from painted capacity child sole absent ih =>
    exact .block copied indices data_from painted (fun _ _ => trivial) capacity ih sole absent

end Tends

/-- What is known of mounted views: which nodes they have, at the least. -/
structure Lore where
  alloc : Allocations
  Of : View → NodeId → Forest (NodeId × Content) → Prop
  draws : ∀ {v p F}, Of v p F → Draws alloc v p F

instance : Coe Allocations Lore :=
  ⟨fun alloc => ⟨alloc, Draws alloc, fun h => h⟩⟩

instance : Coe Upkeep Lore :=
  ⟨fun care => ⟨care.alloc, Tends care, Tends.draws⟩⟩

theorem lore_none (alloc : Allocations) : (Upkeep.none alloc : Lore) = alloc := by
  have h : Tends (.none alloc) = Draws alloc :=
    funext fun _ => funext fun _ => funext fun _ => propext ⟨Tends.draws, Draws.tends⟩
  simp only [h]
  rfl

end View
end VirtualDom
