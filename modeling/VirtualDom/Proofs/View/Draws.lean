import VirtualDom.Proofs.Template.Copy
import VirtualDom.Proofs.View.Compatible

/-!
This module contains what mounted views have in a document: each a run of siblings, from which its own
nodes and those of the views inside can be told.
-/

namespace VirtualDom.View

open Document (Place Shows)
open Template (Marked Mark paint fill)

structure Row where
  key : Key
  view : View
  forest : Forest (NodeId × Content)

def Row.item (r : Row) : Key × View :=
  (r.key, r.view)

structure Cell where
  child : Option View
  standIn : Option NodeId
  forest : Forest (NodeId × Content)

/-- The mounted view has the nodes of a forest, the roots of which are in a parent. -/
inductive Draws (alloc : Allocations) : View → NodeId → Forest (NodeId × Content) → Prop
  | text {value : Value} {id p : NodeId} (value_from : value.From alloc) :
      Draws alloc (.text value (some id) (some p)) p (.leaf (id, .text value.text))
  | html {markup : String} {p : NodeId} {F : Forest (NodeId × Content)}
      (shapes : F.map (·.2.shape) = rawShapes markup) :
      Draws alloc (.html markup F.rootIds (some p)) p F
  | list {rows : List Row} {anchor p : NodeId} {sole : Bool}
      (row : ∀ r ∈ rows, Draws alloc r.view p r.forest) (not_sole : ∀ r ∈ rows, r.view.isSole = false) :
      Draws alloc (.list (rows.map Row.item) (some anchor) (some p) sole) p
        (.join (rows.map Row.forest) ++ .leaf (anchor, .text ""))
  | multi {cells : List Cell} {p : NodeId} {sole : Bool} (ne_nil : cells ≠ [])
      (child : ∀ c ∈ cells, ∀ v, c.child = some v → Draws alloc v p c.forest)
      (not_sole : ∀ c ∈ cells, ∀ v, c.child = some v → v.isSole = false)
      (standIn : ∀ c ∈ cells, c.child = none →
        ∃ id, c.standIn = some id ∧ c.forest = .leaf (id, .text "")) :
      Draws alloc (.multi (cells.map Cell.child) (cells.map Cell.standIn) (some p) sole) p
        (.join (cells.map Cell.forest))
  | toggler {key : Key} {child : View} {p : NodeId} {F : Forest (NodeId × Content)}
      (inner : Draws alloc child p F) (not_sole : child.isSole = false) :
      Draws alloc (.toggler key child (some p)) p F
  | block {template : Template} {data : Data} {children : List (Option View)} {root p : NodeId}
      {references : List NodeId} {S : Marked} {held : NodeId → Content}
      {guests : Nat → Forest (NodeId × Content)} (copied : template.Copied root references S)
      (indices : (template.wiring.slots.map (·.index)).Nodup) (data_from : data.From alloc)
      (painted : ∀ l ∈ S.labels, (held l.1.1).shape = paint data (l.1.2, l.2))
      (capacity : ∀ slot ∈ template.wiring.slots, slot.index < children.length)
      (child : ∀ o ∈ S.openings p, ∀ v, children[o.index]? = some (some v) →
        Draws alloc v o.parent (guests o.index))
      (sole : ∀ o ∈ S.openings p, ∀ v, children[o.index]? = some (some v) → v.isSole → o.sole)
      (absent : ∀ o ∈ S.openings p, children[o.index]? = some none → guests o.index = .nil) :
      Draws alloc (.block template data children (some ⟨root, references⟩)) p (S.filled held guests)

theorem rawShapes_ne_nil (s : String) : rawShapes s ≠ .nil := by
  unfold rawShapes
  split
  . nofun
  . split
    . nofun
    . next h => exact h

namespace Draws

variable {alloc : Allocations} {v : View} {p : NodeId} {F : Forest (NodeId × Content)}

theorem exists_firstNode (h : Draws alloc v p F)
    : ∃ id, v.firstNode = some id ∧ F.rootIds.head? = some id := by
  induction h with
  | text value_from => exact ⟨_, rfl, rfl⟩
  | @html markup p F shapes =>
    cases F with
    | nil => exact absurd shapes.symm (rawShapes_ne_nil markup)
    | cons label children siblings => exact ⟨_, rfl, rfl⟩
  | @list rows anchor p sole row not_sole ih =>
    cases rows with
    | nil => exact ⟨anchor, by rw [List.map_nil, firstNode], rfl⟩
    | cons r rows =>
      obtain ⟨id, hv, hF⟩ := ih r List.mem_cons_self
      refine ⟨id, ?_, ?_⟩
      . rw [List.map_cons, Row.item, firstNode, hv]
      . simp [hF]
  | @multi cells p sole ne_nil child not_sole standIn ih =>
    cases cells with
    | nil => exact absurd rfl ne_nil
    | cons c cells =>
      cases hc : c.child with
      | none =>
        obtain ⟨id, hid, hF⟩ := standIn c List.mem_cons_self hc
        refine ⟨id, ?_, ?_⟩
        . rw [List.map_cons, List.map_cons, hc, firstNode, hid]
          rfl
        . simp [hF]
      | some child =>
        obtain ⟨id, hv, hF⟩ := ih c List.mem_cons_self child hc
        refine ⟨id, ?_, ?_⟩
        . rw [List.map_cons, hc, firstNode, hv]
        . simp [hF]
  | toggler inner not_sole ih =>
    obtain ⟨id, hv, hF⟩ := ih
    exact ⟨id, by rw [firstNode, hv], hF⟩
  | block copied => exact ⟨_, rfl, by rw [copied.rootIds]; rfl⟩

theorem firstNode_eq (h : Draws alloc v p F) (after : List NodeId)
    : (F.rootIds ++ after).head? = v.firstNode := by
  obtain ⟨id, hv, hF⟩ := h.exists_firstNode
  rw [List.head?_append, hF, hv]
  rfl

theorem parentNode {d : Document} {pl : Place} (h : Draws alloc v pl.node F) (hd : d.Shows pl F)
    : v.parentNode d = .ok (some pl.node) := by
  obtain ⟨id, hv, hF⟩ := h.exists_firstNode
  generalize hp : pl.node = p at h
  cases h with
  | block =>
    cases hv
    exact hp ▸ hd.parent (List.mem_of_mem_head? hF)
  | _ => rfl

theorem withSole (h : Draws alloc v p F) (sole : Bool) : Draws alloc (v.withSole sole) p F := by
  cases h with
  | text value_from => exact .text value_from
  | html shapes => exact .html shapes
  | list row not_sole => exact .list row not_sole
  | multi ne_nil child not_sole standIn => exact .multi ne_nil child not_sole standIn
  | toggler inner not_sole => exact .toggler inner not_sole
  | block copied indices data_from painted capacity child sole absent =>
    exact .block copied indices data_from painted capacity child sole absent

theorem isSole_withSole (v : View) : (v.withSole false).isSole = false := by
  cases v <;> rfl

theorem map_join_eq {γ : Type} {xs : List γ} {f : γ → Forest (NodeId × Content)}
    {ys : List (Forest Shape)} (length : xs.length = ys.length)
    (h : ∀ (i : Nat) (x : γ) (y : Forest Shape), xs[i]? = some x → ys[i]? = some y →
      (f x).map (·.2.shape) = y)
    : (Forest.join (xs.map f)).map (·.2.shape) = .join ys := by
  rw [Forest.map_join, List.map_map]
  congr 1
  apply List.ext_getElem (by simpa using length)
  intro i hi hi'
  simp only [List.length_map] at hi
  rw [List.getElem_map]
  exact h i _ _ (List.getElem?_eq_getElem hi) (List.getElem?_eq_getElem hi')

theorem rel_alike {a b : Option View} (h : a.isSome = b.isSome)
    (hab : ∀ x y, a = some x → b = some y → Alike x y) : Option.Rel Alike a b := by
  cases a with
  | none =>
    cases b with
    | none => exact .none
    | some y => cases h
  | some x =>
    cases b with
    | none => cases h
    | some y => exact .some (hab x y rfl rfl)

theorem shapes_eq {w : View} (h : Draws alloc v p F) (hw : Alike v w)
    : F.map (·.2.shape) = w.appearance := by
  induction h generalizing w with
  | text value_from =>
    cases hw with
    | text text => rw [appearance, ← text]; rfl
  | html shapes =>
    cases hw with
    | html => rw [appearance, shapes]
  | @list rows anchor p sole row not_sole ih =>
    cases hw with
    | @list _ items _ _ _ _ _ _ keys item =>
      have hlen := congrArg List.length keys
      simp only [List.length_map] at hlen
      have hrows : (Forest.join (rows.map Row.forest)).map (·.2.shape)
          = .join (items.map (·.2.appearance)) := by
        apply map_join_eq (by simpa using hlen)
        intro i r y hr hy
        rw [List.getElem?_map] at hy
        obtain ⟨b, hb, rfl⟩ := Option.map_eq_some_iff.1 hy
        exact ih r (List.mem_of_getElem? hr) (item i r.item b (by rw [List.getElem?_map, hr]; rfl) hb)
      rw [appearance, itemAppearances_eq_map, Forest.map_append, hrows]
      rfl
  | @multi cells p sole ne_nil child not_sole standIn ih =>
    cases hw with
    | @multi _ children _ _ _ _ _ _ isSome hchild =>
      have hlen := congrArg List.length isSome
      simp only [List.length_map] at hlen
      rw [appearance, appearances_eq_map]
      apply map_join_eq (by simpa using hlen)
      intro i c y hc hy
      rw [List.getElem?_map] at hy
      obtain ⟨b, hb, rfl⟩ := Option.map_eq_some_iff.1 hy
      have hci : (cells.map Cell.child)[i]? = some c.child := by
        rw [List.getElem?_map, hc]
        rfl
      have hsome := congrArg (·[i]?) isSome
      simp only [List.getElem?_map (f := Option.isSome), hci, hb, Option.map_some,
        Option.some.injEq] at hsome
      have hrel : Option.Rel Alike c.child b := rel_alike hsome fun x y hx hy =>
        hchild i x y (hx ▸ hci) (hy ▸ hb)
      generalize hcc : c.child = a at hrel
      cases hrel with
      | none =>
        obtain ⟨id, -, hF⟩ := standIn c (List.mem_of_getElem? hc) hcc
        rw [hF]
        rfl
      | some hab => exact ih c (List.mem_of_getElem? hc) _ hcc hab
  | toggler inner not_sole ih =>
    cases hw with
    | toggler hinner => rw [appearance, ih hinner]
  | @block template data children root p references S held guests copied indices data_from painted
      capacity child sole absent ih =>
    cases hw with
    | @block _ _ _ children' _ _ isSome hchild =>
      -- Both sides fill one sketch with the same data, so that only the children count.
      rw [appearance, ← copied.sketch, Template.fill_sketch, Marked.filled, Template.map_fill,
        Template.fill_congr painted]
      apply Marked.fill_congr_guests (p := p)
      intro o ho
      obtain ⟨s, hs, hso⟩ := copied.exists_slot ho
      have hsome := isSome s hs
      rw [hso] at hsome
      rw [appearances_eq_map, List.getElem?_map]
      obtain ⟨a, ha⟩ : ∃ a, children[o.index]? = some a :=
        ⟨_, List.getElem?_eq_getElem (hso ▸ capacity s hs)⟩
      rw [ha] at hsome
      obtain ⟨b, hb, hba⟩ := Option.map_eq_some_iff.1 hsome.symm
      have hrel : Option.Rel Alike a b := rel_alike hba.symm fun x y hx hy =>
        hchild s hs x y (by rw [hso, ha, hx]) (by rw [hso, hb, hy])
      rw [hb]
      cases hrel with
      | none =>
        rw [absent o ho ha]
        rfl
      | some hab => exact ih o ho _ ha hab

end Draws
end VirtualDom.View
