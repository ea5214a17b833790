import VirtualDom.Proofs.View.Binding

/-!
This module contains the loops over the locations and the slots of a wiring: what is done at each of
them in a copy of the template is done there and nowhere else.
-/

namespace VirtualDom.Template

open Engine
open Document (Place Shows)

variable {t : Template} {S : Marked} {root : NodeId} {references : List NodeId} {h : Host} {pl : Place}
  {held : NodeId → Content} {guests : Nat → Forest (NodeId × Content)}

/-- What nodes hold after a write to each of them that something is bound to, in turn. -/
def rewrite (f : Nat × Binding → Content → Content) (held : NodeId → Content) (bounds : List Bound)
    : NodeId → Content :=
  bounds.foldl (fun held b =>
    Function.update held b.node (f (b.dataIndex, b.binding) (held b.node))) held

theorem rewrite_append (f : Nat × Binding → Content → Content) (held : NodeId → Content)
    (bs bs' : List Bound) : rewrite f held (bs ++ bs') = rewrite f (rewrite f held bs) bs' :=
  List.foldl_append

theorem rewrite_of_ne {f : Nat × Binding → Content → Content} {bounds : List Bound} {x : NodeId}
    (h : ∀ b ∈ bounds, b.node ≠ x) : rewrite f held bounds x = held x := by
  induction bounds generalizing held with
  | nil => rfl
  | cons b bounds ih =>
    refine (ih fun b' hb' => h b' (List.mem_cons_of_mem _ hb')).trans ?_
    exact Function.update_of_ne (h b List.mem_cons_self).symm _ _

theorem Mark.filterMap_bound? (marks : List Mark) (x : NodeId)
    : marks.filterMap (·.bound? x) = (Mark.sources marks).map fun s => ⟨s.1, x, s.2⟩ := by
  rw [Mark.sources, List.map_filterMap]
  exact List.filterMap_congr fun m _ => m.bound?_eq_map x

theorem Mark.bound_node {marks : List Mark} {x : NodeId} {b : Bound}
    (hb : b ∈ marks.filterMap (·.bound? x)) : b.node = x := by
  rw [Mark.filterMap_bound?] at hb
  obtain ⟨s, -, rfl⟩ := List.mem_map.1 hb
  rfl

theorem rewrite_marks (f : Nat × Binding → Content → Content) (marks : List Mark) (x : NodeId)
    : rewrite f held (marks.filterMap (·.bound? x)) x
        = (Mark.sources marks).foldl (fun c s => f s c) (held x) := by
  rw [Mark.filterMap_bound?]
  generalize Mark.sources marks = sources
  induction sources generalizing held with
  | nil => rfl
  | cons s sources ih =>
    have hx : Function.update held x (f s (held x)) x = f s (held x) := Function.update_self _ _ _
    exact ih.trans (congrArg (List.foldl (fun c s => f s c) · sources) hx)

theorem Marked.bound_mem {S : Marked} {b : Bound} (hb : b ∈ S.bounds) : b.node ∈ S.nodes.ids := by
  obtain ⟨l, hl, hnode, -⟩ := Marked.mem_bounds hb
  exact hnode ▸ Marked.mem_ids_of_mem_labels hl

theorem rewrite_bounds (hnd : S.nodes.ids.Nodup) (f : Nat × Binding → Content → Content)
    {l : (NodeId × Content) × List Mark} (hl : l ∈ S.labels)
    : rewrite f held S.bounds l.1.1
        = (Mark.sources l.2).foldl (fun c s => f s c) (held l.1.1) := by
  induction S generalizing held with
  | nil => cases hl
  | cons label children siblings ihc ihs =>
    obtain ⟨⟨id, c⟩, marks⟩ := label
    simp only [Marked.nodes_cons, Forest.ids_cons, List.nodup_cons, List.nodup_append,
      List.mem_append, not_or] at hnd
    obtain ⟨⟨hidc, hids⟩, hndc, hnds, hdisjoint⟩ := hnd
    rw [Marked.bounds, rewrite_append, rewrite_append]
    simp only [Forest.labels, List.cons_append, List.mem_cons, List.mem_append] at hl
    rcases hl with rfl | hl | hl
    . have beside : ∀ b ∈ Marked.bounds siblings, b.node ≠ id := by
        rintro b hb rfl
        exact hids (Marked.bound_mem hb)
      have below : ∀ b ∈ Marked.bounds children, b.node ≠ id := by
        rintro b hb rfl
        exact hidc (Marked.bound_mem hb)
      rw [rewrite_of_ne beside, rewrite_of_ne below, rewrite_marks]
    . have hmem := Marked.mem_ids_of_mem_labels hl
      have beside : ∀ b ∈ Marked.bounds siblings, b.node ≠ l.1.1 := fun b hb heq =>
        hdisjoint _ hmem _ (Marked.bound_mem hb) heq.symm
      have here : ∀ b ∈ marks.filterMap (·.bound? id), b.node ≠ l.1.1 := by
        intro b hb heq
        exact hidc (((Mark.bound_node hb).symm.trans heq) ▸ hmem)
      rw [rewrite_of_ne beside, ihc hndc hl, rewrite_of_ne here]
    . have hmem := Marked.mem_ids_of_mem_labels hl
      have below : ∀ b ∈ Marked.bounds children, b.node ≠ l.1.1 := fun b hb heq =>
        hdisjoint _ (Marked.bound_mem hb) _ hmem heq
      have here : ∀ b ∈ marks.filterMap (·.bound? id), b.node ≠ l.1.1 := by
        intro b hb heq
        exact hids (((Mark.bound_node hb).symm.trans heq) ▸ hmem)
      rw [ihs hnds hl, rewrite_of_ne below, rewrite_of_ne here]

theorem Copied.exists_holds (copied : t.Copied root references S) (pl : Place) (held : NodeId → Content)
    (guests : Nat → Forest (NodeId × Content)) {b : Bound} (hb : b ∈ S.bounds)
    : ∃ a ks M, ∀ (d : Document) (c : Content),
        d.Shows pl (S.filled (Function.update held b.node c) guests)
          ↔ d.Holds ((b.node, ⟨a, ks, c⟩) ::ₘ M) :=
  Marked.exists_holds held guests pl copied.nodup (Marked.bound_mem hb)

theorem locations_run (copied : t.Copied root references S) {write : Location → Engine PUnit}
    {I : List Bound → Host → Prop}
    (hwrite : ∀ l b bs h, l.resolve references = some b → b ∈ S.bounds → I (b :: bs) h →
      (write l).Yields h fun _ h' => I bs h')
    (hI : I S.bounds h) : (t.wiring.locations.forM write).Yields h fun _ h' => I [] h' := by
  have loop : ∀ (ls : List Location) (bs : List Bound), ls.map (·.resolve references) = bs.map some →
      (∀ b ∈ bs, b ∈ S.bounds) → ∀ h : Host, I bs h → (ls.forM write).Yields h fun _ h' => I [] h' := by
    intro ls
    induction ls with
    | nil =>
      intro bs hbs _ h hI
      cases bs with
      | cons _ _ => cases hbs
      | nil => exact Yields.pure hI
    | cons location ls ih =>
      intro bs hbs hmem h hI
      cases bs with
      | nil => cases hbs
      | cons b bs =>
        simp only [List.map_cons, List.cons.injEq] at hbs
        refine Yields.bind (hwrite location b bs h hbs.1 (hmem b List.mem_cons_self) hI) ?_
        intro _ h' hI
        exact ih bs hbs.2 (fun b hb => hmem b (List.mem_cons_of_mem _ hb)) h' hI
  exact loop _ _ copied.bounds (fun b hb => hb) h hI

theorem locations_yields (copied : t.Copied root references S) {write : Location → Engine PUnit}
    {f : Nat × Binding → Content → Content}
    (hwrite : ∀ l b, l.resolve references = some b →
      Recasts (write l) b.node (f (b.dataIndex, b.binding)))
    (hd : h.document.Shows pl (S.filled held guests))
    : (t.wiring.locations.forM write).Yields h fun _ h' => ∃ held',
        (∀ l ∈ S.labels, held' l.1.1 = (Mark.sources l.2).foldl (fun c s => f s c) (held l.1.1)) ∧
          h'.document.Shows pl (S.filled held' guests) := by
  refine (locations_run (I := fun bs h' => ∃ held', rewrite f held' bs = rewrite f held S.bounds ∧
    h'.document.Shows pl (S.filled held' guests)) copied ?_ ⟨held, rfl, hd⟩).mono ?_
  . rintro l b bs h hl hb ⟨held', hrewrite, hd⟩
    obtain ⟨a, ks, M, hM⟩ := copied.exists_holds pl held' guests hb
    have hd := (hM h.document (held' b.node)).1 (by rwa [Function.update_eq_self])
    refine (hwrite l b hl h a ks _ M hd).mono fun _ h' hd => ⟨_, hrewrite, (hM _ _).2 hd⟩
  . rintro _ h' ⟨held', hrewrite, hd⟩
    refine ⟨held', fun l hl => ?_, hd⟩
    rw [← rewrite_bounds copied.nodup f hl, ← hrewrite]
    rfl

theorem set_location {l : Location} {b : Bound} (hb : l.resolve references = some b) (data : Data)
    : (do l.binding.set (← reference references l.reference) (data.at l.dataIndex))
        = b.binding.set b.node (data.at b.dataIndex) := by
  obtain ⟨hx, hi, hbinding⟩ := Location.resolve_eq_some hb
  rw [reference, hx, hi, hbinding, pure_bind]

theorem anchor_eq_ok {slot : ChildSlot} {o : Opening} (hs : slot.resolve references = some o)
    : (slot.anchor.mapM (reference references)) h = .ok o.anchor h := by
  obtain ⟨-, -, -, ⟨ha, ho⟩ | ⟨i, x, ha, hx, ho⟩⟩ := ChildSlot.resolve_eq_some hs
  . rw [ha, ho]
    rfl
  . rw [ha, ho]
    exact Engine.bind_run (Wiring.reference_eq_ok hx)

section Slots

variable {sure : Prop} {σ γ : Type} {cell : σ → Nat → γ}
  {Before After : Opening → γ → Forest (NodeId × Content) → Prop} {step : σ → ChildSlot → Engine σ}
  {state : σ}

/-- The step over a slot treats the cell of its opening, in the place of the child that comes there. -/
def Treats (sure : Prop) (references : List NodeId) (os : List Opening) (cell : σ → Nat → γ)
    (Before After : Opening → γ → Forest (NodeId × Content) → Prop) (step : σ → ChildSlot → Engine σ)
    : Prop :=
  ∀ slot o state (h : Host) (place : Place) G, slot.resolve references = some o → o ∈ os →
    place.node = o.parent → place.after.head? = o.anchor →
      (o.sole → place.before = [] ∧ place.after = []) → Before o (cell state o.index) G →
        h.document.Shows place G → (step state slot).Gives sure h fun state' h' => ∃ G',
          After o (cell state' o.index) G' ∧ (∀ i, i ≠ o.index → cell state' i = cell state i) ∧
            h'.document.Shows place G'

/-- Openings that are done have their cells, and those that are left are as they were before. -/
theorem foldlM_treats (tidy : Tidy S.sketch) (hnd : ((S.openings pl.node).map (·.index)).Nodup)
    (hstep : Treats sure references (S.openings pl.node) cell Before After step) {ss : List ChildSlot}
    {os : List Opening} (hos : ss.map (·.resolve references) = os.map some)
    (hsub : os ⊆ S.openings pl.node) (hndos : (os.map (·.index)).Nodup)
    (hd : h.document.Shows pl (S.filled held guests))
    (hbefore : ∀ o ∈ os, Before o (cell state o.index) (guests o.index))
    (hafter : ∀ o ∈ S.openings pl.node, o ∉ os → After o (cell state o.index) (guests o.index))
    : (ss.foldlM step state).Gives sure h fun state' h' => ∃ guests',
        (∀ o ∈ S.openings pl.node, After o (cell state' o.index) (guests' o.index)) ∧
          h'.document.Shows pl (S.filled held guests') := by
  induction ss generalizing os h state guests with
  | nil =>
    cases os with
    | nil => exact Gives.pure ⟨guests, fun o ho => hafter o ho (by simp), hd⟩
    | cons _ _ => cases hos
  | cons slot ss ih =>
    cases os with
    | nil => cases hos
    | cons o os =>
      simp only [List.map_cons, List.cons.injEq] at hos
      obtain ⟨hso, hos⟩ := hos
      rw [List.map_cons, List.nodup_cons] at hndos
      have ho := hsub List.mem_cons_self
      obtain ⟨place, hnode, hanchor, hsole, hplace⟩ := Marked.exists_place tidy ho hnd
      rw [List.foldlM_cons]
      have hd : h.document.Shows place (guests o.index) := by
        rwa [Shows, hplace, Function.update_eq_self]
      refine Gives.bind (hstep slot o state h place _ hso ho hnode hanchor hsole
        (hbefore o List.mem_cons_self) hd) ?_
      rintro state' h' ⟨G, hG, hkeep, hd⟩
      rw [Shows, hplace] at hd
      refine ih hos (fun o' ho' => hsub (List.mem_cons_of_mem _ ho')) hndos.2 hd ?_ ?_
      . intro o' ho'
        have hne : o'.index ≠ o.index := fun heq => hndos.1 (heq ▸ List.mem_map_of_mem ho')
        rw [hkeep _ hne, Function.update_of_ne hne]
        exact hbefore o' (List.mem_cons_of_mem _ ho')
      . intro o' ho' hnot
        by_cases heq : o' = o
        . subst heq
          rwa [Function.update_self]
        . have hne : o'.index ≠ o.index := fun hi => heq (List.inj_on_of_nodup_map hnd ho' ho hi)
          rw [hkeep _ hne, Function.update_of_ne hne]
          exact hafter o' ho' (by simp [heq, hnot])

end Slots

/--
Treating all slots in turn treats the cell of each opening once, in its place: what is in no other
opening's cell stays as it is.
-/
theorem slots_gives (sure : Prop) {σ γ : Type} (copied : t.Copied root references S)
    (indices : (t.wiring.slots.map (·.index)).Nodup) (cell : σ → Nat → γ)
    (Before After : Opening → γ → Forest (NodeId × Content) → Prop) {step : σ → ChildSlot → Engine σ}
    (hstep : Treats sure references (S.openings pl.node) cell Before After step)
    {state : σ} (hd : h.document.Shows pl (S.filled held guests))
    (hbefore : ∀ o ∈ S.openings pl.node, Before o (cell state o.index) (guests o.index))
    : (t.wiring.slots.foldlM step state).Gives sure h fun state' h' => ∃ guests',
        (∀ o ∈ S.openings pl.node, After o (cell state' o.index) (guests' o.index)) ∧
          h'.document.Shows pl (S.filled held guests') := by
  have hnd : ((S.openings pl.node).map (·.index)).Nodup := copied.indices_eq pl.node ▸ indices
  exact foldlM_treats copied.tidy hnd hstep (copied.openings pl.node) (fun _ ho => ho) hnd hd hbefore
    fun o ho hnot => absurd ho hnot

end VirtualDom.Template
