import Mathlib.Data.List.Forall2
import VirtualDom.Proofs.Engine
import VirtualDom.Proofs.View.Upkeep

/-!
This module contains when a mounted view stands for another one at a place, put together from when
those inside of it do.
-/

namespace VirtualDom.View

open Document (Place Shows)
open Template (Marked Opening paint)

variable {lore : Lore} {care : Upkeep} {p : NodeId} {pl : Place} {h : Host}

/-- The view has all that is at the place, and shows there what `w` describes. -/
def Stands (lore : Lore) (w : View) (sole : Bool) (pl : Place) (v : View) (h : Host) : Prop :=
  ∃ F, lore.Of v pl.node F ∧ Alike v w ∧ (v.isSole → sole) ∧ h.document.Shows pl F

structure Row.Fits (lore : Lore) (p : NodeId) (r : Row) (item : Key × View) : Prop where
  key : r.key = item.1
  alike : Alike r.view item.2
  draws : lore.Of r.view p r.forest
  not_sole : r.view.isSole = false

inductive Cell.Fits (lore : Lore) (p : NodeId) : Cell → Option View → Prop
  | absent {id : NodeId} : Fits lore p ⟨none, some id, .leaf (id, .text "")⟩ none
  | present {v w : View} {standIn : Option NodeId} {F : Forest (NodeId × Content)}
      (draws : lore.Of v p F) (alike : Alike v w) (not_sole : v.isSole = false) :
      Fits lore p ⟨some v, standIn, F⟩ (some w)

inductive Hosts (lore : Lore) (o : Opening) :
    Option View → Option View → Forest (NodeId × Content) → Prop
  | absent : Hosts lore o none none .nil
  | present {v w : View} {F : Forest (NodeId × Content)} (draws : lore.Of v o.parent F)
      (alike : Alike v w) (sole : v.isSole → o.sole) : Hosts lore o (some v) (some w) F

def Housed (lore : Lore) (S : Marked) (p : NodeId) (guests : Nat → Forest (NodeId × Content))
    (shown children : List (Option View)) : Prop :=
  ∀ o ∈ S.openings p, ∃ v w, shown[o.index]? = some v ∧ children[o.index]? = some w ∧
    Hosts lore o v w (guests o.index)

namespace Housed

variable {S : Marked} {guests : Nat → Forest (NodeId × Content)} {shown children : List (Option View)}
  {o : Opening} {v : View}

theorem draws (h : Housed lore S p guests shown children) (ho : o ∈ S.openings p)
    (hv : shown[o.index]? = some (some v))
    : lore.Of v o.parent (guests o.index) ∧ (v.isSole → o.sole) := by
  obtain ⟨_, _, hv', -, hosted⟩ := h o ho
  cases hv.symm.trans hv'
  cases hosted with
  | present draws _ sole => exact ⟨draws, sole⟩

theorem eq_nil (h : Housed lore S p guests shown children) (ho : o ∈ S.openings p)
    (hv : shown[o.index]? = some none) : guests o.index = .nil := by
  obtain ⟨_, _, hv', -, hosted⟩ := h o ho
  cases hv.symm.trans hv'
  generalize guests o.index = G at hosted
  cases hosted
  rfl

theorem alike (h : Housed lore S p guests shown children) (ho : o ∈ S.openings p)
    (hv : shown[o.index]? = some (some v)) : ∃ w, children[o.index]? = some (some w) ∧ Alike v w := by
  obtain ⟨_, _, hv', hw, hosted⟩ := h o ho
  cases hv.symm.trans hv'
  cases hosted with
  | present _ alike => exact ⟨_, hw, alike⟩

theorem capacity {template : Template} {root : NodeId} {references : List NodeId}
    (h : Housed lore S p guests shown children) (copied : template.Copied root references S)
    : ∀ slot ∈ template.wiring.slots, slot.index < shown.length := by
  intro slot hs
  obtain ⟨o, ho, hi⟩ := copied.exists_opening hs p
  obtain ⟨v, -, hv, -⟩ := h o ho
  exact hi ▸ (List.getElem?_eq_some_iff.1 hv).1

end Housed

theorem forall₂_getElem? {β γ : Type} {R : β → γ → Prop} {xs : List β} {ys : List γ}
    (h : List.Forall₂ R xs ys) {i : Nat} {x : β} {y : γ} (hx : xs[i]? = some x) (hy : ys[i]? = some y)
    : R x y := by
  induction h generalizing i with
  | nil => cases hx
  | cons hxy _ ih =>
    cases i with
    | zero =>
      cases hx
      cases hy
      exact hxy
    | succ i => exact ih hx hy

theorem forall₂_of_map_eq {β γ δ : Type} {R : β → γ → Prop} {f : β → δ} {g : γ → δ} {xs : List β}
    {ys : List γ} (h : xs.map f = ys.map g) (hR : ∀ x ∈ xs, ∀ y ∈ ys, f x = g y → R x y)
    : List.Forall₂ R xs ys := by
  induction xs generalizing ys with
  | nil =>
    cases ys with
    | nil => exact .nil
    | cons y ys => cases h
  | cons x xs ih =>
    cases ys with
    | nil => cases h
    | cons y ys =>
      obtain ⟨hxy, hrest⟩ := List.cons.inj h
      exact .cons (hR x List.mem_cons_self y List.mem_cons_self hxy) (ih hrest fun x hx y hy =>
        hR x (List.mem_cons_of_mem _ hx) y (List.mem_cons_of_mem _ hy))

theorem stands_list {rows : List Row} {items : List (Key × View)}
    (hrows : List.Forall₂ (Row.Fits care pl.node) rows items) {anchor : NodeId}
    (hd : h.document.Shows pl (.join (rows.map Row.forest) ++ .leaf (anchor, .text "")))
    {anchor' parent' : Option NodeId} {sole sole' sole'' : Bool} (hsole : sole → sole'')
    : Stands care (.list items anchor' parent' sole') sole'' pl
        (.list (rows.map Row.item) (some anchor) (some pl.node) sole) h := by
  have hmem : ∀ r ∈ rows, ∃ item, Row.Fits care pl.node r item := by
    intro r hr
    obtain ⟨i, hi⟩ := List.getElem?_of_mem hr
    have hlt : i < items.length := hrows.length_eq ▸ (List.getElem?_eq_some_iff.1 hi).1
    exact ⟨_, forall₂_getElem? hrows hi (List.getElem?_eq_getElem hlt)⟩
  refine ⟨_, .list ?_ ?_, .list ?_ ?_, hsole, hd⟩
  . intro r hr
    obtain ⟨_, hfits⟩ := hmem r hr
    exact hfits.draws
  . intro r hr
    obtain ⟨_, hfits⟩ := hmem r hr
    exact hfits.not_sole
  . rw [List.map_map]
    clear hd hmem
    induction hrows with
    | nil => rfl
    | cons hfits _ ih => simp [Row.item, hfits.key, ih]
  . intro i a b ha hb
    rw [List.getElem?_map] at ha
    obtain ⟨r, hr, rfl⟩ := Option.map_eq_some_iff.1 ha
    exact (forall₂_getElem? hrows hr hb).alike

theorem stands_multi {cells : List Cell} {children : List (Option View)} (hne : children ≠ [])
    (hcells : List.Forall₂ (Cell.Fits care pl.node) cells children)
    (hd : h.document.Shows pl (.join (cells.map Cell.forest))) {standIns : List (Option NodeId)}
    {parent' : Option NodeId} {sole sole' sole'' : Bool} (hsole : sole → sole'')
    : Stands care (.multi children standIns parent' sole') sole'' pl
        (.multi (cells.map Cell.child) (cells.map Cell.standIn) (some pl.node) sole) h := by
  have hmem : ∀ c ∈ cells, ∃ child, Cell.Fits care pl.node c child := by
    intro c hc
    obtain ⟨i, hi⟩ := List.getElem?_of_mem hc
    have hlt : i < children.length := hcells.length_eq ▸ (List.getElem?_eq_some_iff.1 hi).1
    exact ⟨_, forall₂_getElem? hcells hi (List.getElem?_eq_getElem hlt)⟩
  refine ⟨_, .multi ?_ ?_ ?_ ?_, .multi ?_ ?_, hsole, hd⟩
  . rintro rfl
    cases hcells
    exact hne rfl
  . intro c hc v hv
    obtain ⟨_, hfits⟩ := hmem c hc
    cases hfits with
    | absent => cases hv
    | present draws => cases hv; exact draws
  . intro c hc v hv
    obtain ⟨_, hfits⟩ := hmem c hc
    cases hfits with
    | absent => cases hv
    | present _ _ not_sole => cases hv; exact not_sole
  . intro c hc hv
    obtain ⟨_, hfits⟩ := hmem c hc
    cases hfits with
    | absent => exact ⟨_, rfl, rfl⟩
    | present => cases hv
  . rw [List.map_map]
    clear hd hmem hne
    induction hcells with
    | nil => rfl
    | cons hfits _ ih =>
      rw [List.map_cons, List.map_cons, ih]
      cases hfits <;> rfl
  . intro i a b ha hb
    rw [List.getElem?_map] at ha
    obtain ⟨c, hc, hca⟩ := Option.map_eq_some_iff.1 ha
    have hfits := forall₂_getElem? hcells hc hb
    cases hfits with
    | present _ alike => cases hca; exact alike

theorem stands_block {template : Template} {data : Data} {children children' : List (Option View)}
    {root : NodeId} {references : List NodeId} {S : Marked} {held : NodeId → Content}
    {guests : Nat → Forest (NodeId × Content)} (copied : template.Copied root references S)
    (indices : (template.wiring.slots.map (·.index)).Nodup) (data_from : data.From care.alloc)
    (painted : ∀ l ∈ S.labels, (held l.1.1).shape = paint data (l.1.2, l.2))
    (kept : ∀ l ∈ S.labels, care.Keeps data (l.1.2, l.2) (held l.1.1))
    (hosts : Housed care S pl.node guests children children')
    (hd : h.document.Shows pl (S.filled held guests)) {mounted : Option Anchorage} {sole : Bool}
    : Stands care (.block template data children' mounted) sole pl
        (.block template data children (some ⟨root, references⟩)) h := by
  refine ⟨_, .block copied indices data_from painted kept (hosts.capacity copied)
    (fun o ho v hv => (hosts.draws ho hv).1) (fun o ho v hv => (hosts.draws ho hv).2)
    fun o ho hv => hosts.eq_nil ho hv, .block ?_ ?_, nofun, hd⟩
  . intro slot hs
    obtain ⟨o, ho, hso⟩ := copied.exists_opening hs pl.node
    obtain ⟨v, w, hv, hw, hosted⟩ := hosts o ho
    generalize guests o.index = G at hosted
    rw [hso, hv, hw]
    cases hosted <;> rfl
  . intro slot hs a b ha hb
    obtain ⟨o, ho, hso⟩ := copied.exists_opening hs pl.node
    rw [hso] at ha hb
    obtain ⟨w, hw, alike⟩ := hosts.alike ho ha
    cases hb.symm.trans hw
    exact alike

end VirtualDom.View
