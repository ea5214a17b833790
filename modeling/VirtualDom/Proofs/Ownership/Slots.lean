import VirtualDom.Proofs.Ownership.Owns
import VirtualDom.Proofs.View.Wiring

/-!
This module contains the loops over the locations and the slots of a wiring, when nothing is known of
the order of siblings: the child of an opening has a site of its own in the site of the copy.
-/

namespace VirtualDom

open Engine
open Document (Place Site Standing Bond)

namespace Document

def Place.site (pl : Place) : Site :=
  ⟨pl.node, pl.parent, (pl.before ++ pl.after : List NodeId), bonds pl.rest⟩

theorem Place.bonds_census (pl : Place) (F : Forest (NodeId × Content))
    : bonds (pl.census F) = pl.site.bonds F := by
  have hperm : (pl.before ++ F.rootIds ++ pl.after).Perm (pl.before ++ pl.after ++ F.rootIds) := by
    rw [List.append_assoc, List.append_assoc]
    exact List.perm_append_comm.append_left _
  rw [Place.census, bonds_add, bonds_cons, Standing.bond, Site.bonds, Multiset.coe_eq_coe.2 hperm]
  rfl

theorem Site.exists_place (s : Site) : ∃ pl : Place, pl.site = s := by
  obtain ⟨node, parent, others, rest⟩ := s
  obtain ⟨xs, rfl⟩ := Quot.exists_rep others
  obtain ⟨M, rfl⟩ : ∃ M, Document.bonds M = rest := by
    induction rest using Multiset.induction_on with
    | empty => exact ⟨0, rfl⟩
    | cons e rest ih =>
      obtain ⟨M, rfl⟩ := ih
      obtain ⟨id, a, children⟩ := e
      obtain ⟨ks, rfl⟩ := Quot.exists_rep children
      exact ⟨(id, ⟨a, ks, .text ""⟩) ::ₘ M, bonds_cons _ _⟩
  refine ⟨⟨node, parent, .text "", xs, [], M⟩, ?_⟩
  rw [Place.site, List.append_nil]
  rfl

end Document

namespace Template

variable {t : Template} {S : Marked} {root : NodeId} {references : List NodeId} {h : Host} {s : Site}
  {held : NodeId → Content} {guests : Nat → Forest (NodeId × Content)} {proper : Prop}

variable (held guests) in
theorem Marked.exists_site (hT : Tidy S.sketch) {o : Opening} (ho : o ∈ S.openings s.node)
    (hnd : ((S.openings s.node).map (·.index)).Nodup)
    : ∃ s' : Site, s'.node = o.parent ∧ (∀ x, o.anchor = some x → x ∈ s'.others) ∧
        (o.sole → s'.others = 0) ∧
        ∀ G, s'.bonds G = s.bonds (S.filled held (Function.update guests o.index G)) := by
  obtain ⟨pl, rfl⟩ := s.exists_place
  have ho : o ∈ S.openings pl.node := ho
  obtain ⟨pl', hnode, hanchor, hsole, hcensus⟩ := Marked.exists_place hT ho hnd
  refine ⟨pl'.site, hnode, ?_, ?_, fun G => ?_⟩
  . intro x hx
    have hx : x ∈ pl'.after := List.mem_of_mem_head? (hanchor.trans hx)
    exact Multiset.mem_coe.2 (List.mem_append_right _ hx)
  . intro hs
    obtain ⟨hb, ha⟩ := hsole hs
    rw [Place.site, hb, ha]
    rfl
  . rw [← Place.bonds_census, hcensus, Place.bonds_census]

theorem Copied.mem_bonds (copied : t.Copied root references S) {b : Bound} (hb : b ∈ S.bounds)
    : b.node ∈ (s.bonds (S.filled held guests)).map (·.1) := by
  obtain ⟨l, hl, hnode, -⟩ := Marked.mem_bounds hb
  have hid : b.node ∈ S.nodes.ids := hnode ▸ Marked.mem_ids_of_mem_labels hl
  obtain ⟨a, ks, M, hM⟩ := Marked.exists_census held guests copied.nodup hid (some s.node)
  have hcensus := hM (held b.node)
  rw [Function.update_eq_self] at hcensus
  rw [Site.bonds, Forest.bonds, hcensus]
  simp

section Slots

variable {σ γ : Type} {cell : σ → Nat → γ} {Before : Opening → γ → Forest (NodeId × Content) → Prop}
  {After : Opening → γ → Exchange → Forest (NodeId × Content) → Prop} {step : σ → ChildSlot → Engine σ}
  {state : σ}

/-- The step over a slot tends to the cell of its opening, at the site of the child that comes there. -/
def Tends (proper : Prop) (references : List NodeId) (os : List Opening) (cell : σ → Nat → γ)
    (Before : Opening → γ → Forest (NodeId × Content) → Prop)
    (After : Opening → γ → Exchange → Forest (NodeId × Content) → Prop)
    (step : σ → ChildSlot → Engine σ) : Prop :=
  ∀ slot o state (h : Host) (site : Site) G, slot.resolve references = some o → o ∈ os →
    site.node = o.parent → (∀ x, o.anchor = some x → x ∈ site.others) → (o.sole → site.others = 0) →
      Before o (cell state o.index) G → h.document.Carries site G →
        Performs proper (step state slot) h fun state' x d => ∃ G',
          After o (cell state' o.index) x G' ∧ (∀ i, i ≠ o.index → cell state' i = cell state i) ∧
            d.Carries site G'

/-- Some of the openings have been tended to, and cells and guests of all others are as they were. -/
def Tended (os : List Opening) (cell : σ → Nat → γ)
    (After : Opening → γ → Exchange → Forest (NodeId × Content) → Prop) (S : Marked) (s : Site)
    (held : NodeId → Content) (guests : Nat → Forest (NodeId × Content)) (state state' : σ)
    (x : Exchange) (d : Document) : Prop :=
  ∃ (guests' : Nat → Forest (NodeId × Content)) (changes : Nat → Exchange),
    x = (os.map fun o => changes o.index).sum ∧
      (∀ o ∈ os, After o (cell state' o.index) (changes o.index) (guests' o.index)) ∧
        (∀ i, (∀ o ∈ os, i ≠ o.index) → cell state' i = cell state i ∧ guests' i = guests i) ∧
          d.Carries s (S.filled held guests')

theorem Tended.cons {os : List Opening} {o : Opening} {G : Forest (NodeId × Content)} {state' state'' : σ}
    {x x' : Exchange} {d : Document} (hne : ∀ o' ∈ os, o'.index ≠ o.index)
    (hG : After o (cell state' o.index) x G) (hkeep : ∀ i, i ≠ o.index → cell state' i = cell state i)
    (h : Tended os cell After S s held (Function.update guests o.index G) state' state'' x' d)
    : Tended (o :: os) cell After S s held guests state state'' (x + x') d := by
  obtain ⟨guests', changes, rfl, hafter, hsame, hd⟩ := h
  obtain ⟨hcell, hguest⟩ := hsame o.index fun o' ho' => (hne o' ho').symm
  rw [Function.update_self] at hguest
  refine ⟨guests', Function.update changes o.index x, ?_, ?_, ?_, hd⟩
  . rw [List.map_cons, List.sum_cons, Function.update_self]
    congr 2
    exact List.map_congr_left fun o' ho' => (Function.update_of_ne (hne o' ho') _ _).symm
  . intro o' ho'
    rcases List.mem_cons.1 ho' with rfl | ho'
    . rw [hcell, hguest, Function.update_self]
      exact hG
    . rw [Function.update_of_ne (hne o' ho')]
      exact hafter o' ho'
  . intro i hi
    obtain ⟨hio, hi⟩ := List.forall_mem_cons.1 hi
    obtain ⟨hcell, hguest⟩ := hsame i hi
    exact ⟨hcell.trans (hkeep i hio), hguest.trans (Function.update_of_ne hio _ _)⟩

theorem foldlM_tends (tidy : Tidy S.sketch) (hnd : ((S.openings s.node).map (·.index)).Nodup)
    (hstep : Tends proper references (S.openings s.node) cell Before After step) {ss : List ChildSlot}
    {os : List Opening} (hos : ss.map (·.resolve references) = os.map some)
    (hsub : os ⊆ S.openings s.node) (hndos : (os.map (·.index)).Nodup)
    (hd : h.document.Carries s (S.filled held guests))
    (hbefore : ∀ o ∈ os, Before o (cell state o.index) (guests o.index))
    : Performs proper (ss.foldlM step state) h (Tended os cell After S s held guests state) := by
  induction ss generalizing os h state guests with
  | nil =>
    cases os with
    | nil => exact Performs.pure ⟨guests, fun _ => 0, rfl, by simp, fun _ _ => ⟨rfl, rfl⟩, hd⟩
    | cons _ _ => cases hos
  | cons slot ss ih =>
    cases os with
    | nil => cases hos
    | cons o os =>
      simp only [List.map_cons, List.cons.injEq] at hos
      obtain ⟨hso, hos⟩ := hos
      rw [List.map_cons, List.nodup_cons] at hndos
      obtain ⟨hnot, hndos⟩ := hndos
      have hne : ∀ o' ∈ os, o'.index ≠ o.index := fun o' ho' heq =>
        hnot (heq ▸ List.mem_map_of_mem ho')
      have ho := hsub List.mem_cons_self
      obtain ⟨site, hnode, hanchor, hsole, hbonds⟩ := Marked.exists_site held guests tidy ho hnd
      rw [List.foldlM_cons]
      have hd : h.document.Carries site (guests o.index) :=
        hd.congr (by rw [hbonds, Function.update_eq_self])
      refine Performs.bind (hstep slot o state h site _ hso ho hnode hanchor hsole
        (hbefore o List.mem_cons_self) hd) ?_
      rintro state' x h' ⟨G, hG, hkeep, hd⟩
      have hleft : ∀ o' ∈ os, Before o' (cell state' o'.index)
          (Function.update guests o.index G o'.index) := by
        intro o' ho'
        rw [hkeep _ (hne o' ho'), Function.update_of_ne (hne o' ho')]
        exact hbefore o' (List.mem_cons_of_mem _ ho')
      exact (ih hos (fun o' ho' => hsub (List.mem_cons_of_mem _ ho')) hndos (hd.congr (hbonds G))
        hleft).mono fun _ _ _ h => h.cons hne hG hkeep

end Slots

/--
Treating all slots in turn treats the cell of each opening once, at its site. What comes and what is
told adds up, and all other cells stay as they are.
-/
theorem slots_performs {σ γ : Type} (copied : t.Copied root references S)
    (indices : (t.wiring.slots.map (·.index)).Nodup) (cell : σ → Nat → γ)
    (Before : Opening → γ → Forest (NodeId × Content) → Prop)
    (After : Opening → γ → Exchange → Forest (NodeId × Content) → Prop)
    {step : σ → ChildSlot → Engine σ}
    (hstep : Tends proper references (S.openings s.node) cell Before After step)
    {state : σ} (hd : h.document.Carries s (S.filled held guests))
    (hbefore : ∀ o ∈ S.openings s.node, Before o (cell state o.index) (guests o.index))
    : Performs proper (t.wiring.slots.foldlM step state) h fun state' x d =>
        ∃ (guests' : Nat → Forest (NodeId × Content)) (changes : Nat → Exchange),
          x = ((S.openings s.node).map fun o => changes o.index).sum ∧
            (∀ o ∈ S.openings s.node, After o (cell state' o.index) (changes o.index) (guests' o.index)) ∧
              (∀ i, (∀ o ∈ S.openings s.node, i ≠ o.index) → cell state' i = cell state i) ∧
                d.Carries s (S.filled held guests') := by
  have hnd : ((S.openings s.node).map (·.index)).Nodup := copied.indices_eq s.node ▸ indices
  refine (foldlM_tends copied.tidy hnd hstep (copied.openings s.node) (fun _ ho => ho) hnd hd
    hbefore).mono ?_
  rintro state' x d ⟨guests', changes, hx, hafter, hsame, hd⟩
  exact ⟨guests', changes, hx, hafter, fun i hi => (hsame i hi).1, hd⟩

end Template
end VirtualDom
