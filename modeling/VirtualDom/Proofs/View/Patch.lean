import VirtualDom.Proofs.View.Reconcile

/-!
This module contains the correctness of patching: a mounted view that is brought in line with another
one shows what that one describes, in the place where it was.
-/

namespace VirtualDom.View

open Engine
open Document (Place Shows)
open Template (Marked Opening paint)

variable {sure : Prop} {alloc : Allocations} {lore : Lore} {care : Upkeep} {pl : Place} {h : Host}
  {F : Forest (NodeId × Content)} {w old : View}

section Replace

theorem firstNode_withSole (v : View) (sole : Bool) : (v.withSole sole).firstNode = v.firstNode := by
  cases v with
  | list items => cases items <;> rfl
  | multi children =>
    cases children with
    | nil => rfl
    | cons child rest => cases child <;> rfl
  | _ => rfl

theorem supersede_yields (hw : Mounts lore w) (hdraws : Draws alloc old pl.node F)
    (hnot : old.isSole = false) (hd : h.document.Shows pl F) (sole : Bool) (f : View → View)
    : Yields (do
        let mounted ← w.mountAs sole pl.node old.firstNode
        let _ ← old.tearDown
        return f mounted) h
        fun v h' => ∃ mounted, v = f mounted ∧ Stands lore w sole pl mounted h' := by
  have hd : h.document.Shows (pl.narrow .nil F) .nil := Document.shows_narrow.2 hd
  have hmount := hw sole _ h hd
  rw [show (pl.narrow .nil F).after.head? = old.firstNode from hdraws.firstNode_eq _] at hmount
  refine Yields.bind hmount ?_
  rintro v h₁ ⟨G, hG, halike, hv, hd⟩
  -- The old nodes are right behind the new ones until they go.
  have hd : h₁.document.Shows (pl.narrow G .nil) F :=
    Document.shows_behind.2 (Document.shows_narrow.1 hd)
  have hdraws : Draws alloc old (pl.narrow G .nil).node F := hdraws
  refine Yields.bind (hdraws.tearDown_yields hd (by simp [hnot])) ?_
  rintro _ h₂ ⟨-, hd⟩
  exact Yields.pure ⟨v, rfl, G, hG, halike, hv, Document.shows_end.1 hd⟩

theorem replace_yields (hw : Mounts lore w) (hdraws : Draws alloc old pl.node F)
    (hd : h.document.Shows pl F) (sole : Bool)
    : (replace w sole old).Yields h (Stands lore w (sole || old.isSole) pl) := by
  unfold replace
  refine Yields.bind_ok (read_eq_ok (hdraws.parentNode hd)) ?_
  have hsupersede := supersede_yields hw (hdraws.withSole false) (Draws.isSole_withSole old) hd
    (sole || old.isSole) fun v => v
  rw [firstNode_withSole] at hsupersede
  refine hsupersede.mono ?_
  rintro _ h' ⟨v, rfl, hv⟩
  exact hv

end Replace

section Children

theorem incomingChildren_eq_map (children : List (Option View))
    : incomingChildren children = children.map (·.map fun child => ⟨child, child.patchAs⟩) := by
  induction children with
  | nil => rw [incomingChildren, List.map_nil]
  | cons child rest ih => cases child <;> rw [incomingChildren, ih] <;> rfl

theorem patchPlace_gives {c : Cell} {next : Option View} (hd : h.document.Shows pl c.forest)
    (hnext : ∀ w, next = some w → Incoming.Serves sure lore ⟨w, w.patchAs⟩)
    (hchild : ∀ v, c.child = some v → lore.Of v pl.node c.forest ∧ v.isSole = false)
    (hstandIn : c.child = none → ∃ id, c.standIn = some id ∧ c.forest = .leaf (id, .text ""))
    (hmeets : ∀ v w, c.child = some v → next = some w → Meets sure v w)
    : (patchPlace pl.node c.standIn c.child (next.map fun w => ⟨w, w.patchAs⟩)).Gives sure h
      fun result h' => ∃ c' : Cell,
        result = (c'.child, c'.standIn) ∧ Cell.Fits lore pl.node c' next ∧
          h'.document.Shows pl c'.forest := by
  obtain ⟨child, standIn, F⟩ := c
  dsimp only at *
  cases child with
  | none =>
    obtain ⟨id, rfl, rfl⟩ := hstandIn rfl
    cases next with
    | none => exact Gives.pure ⟨_, rfl, .absent, hd⟩
    | some w =>
      have hw := hnext w rfl
      have hd : h.document.Shows (pl.narrow .nil (.leaf (id, .text ""))) .nil :=
        Document.shows_narrow.2 hd
      -- The stand-in holds the place until the new child is there.
      refine Gives.after (hw.mounts w.isSole _ h hd) ?_
      rintro v h₁ ⟨G, hG, halike, hv, hd⟩
      have hd : h₁.document.Shows pl (G ++ .leaf (id, .text "") ++ .nil) := by
        simpa using Document.shows_narrow.1 hd
      refine Gives.after (discard_yields hd rfl) ?_
      intro _ h₂ hd
      rw [Forest.append_nil] at hd
      rw [hw.not_sole] at hv
      exact Gives.pure ⟨⟨some v, none, G⟩, rfl, .present hG halike (by simpa using hv), hd⟩
  | some v =>
    obtain ⟨hdraws, hnot⟩ := hchild v rfl
    cases next with
    | none =>
      have hstand := mountStandIn_yields (A := .nil) (B := F) hd
      rw [(lore.draws hdraws).firstNode_eq] at hstand
      refine Gives.after hstand ?_
      intro id h₁ hd
      have hd : h₁.document.Shows (pl.narrow (.leaf (id, .text "")) .nil) F :=
        Document.shows_behind.2 hd
      have hdraws : lore.Of v (pl.narrow (.leaf (id, .text "")) .nil).node F := hdraws
      refine Gives.after ((lore.draws hdraws).tearDown_yields hd (by simp [hnot])) ?_
      rintro _ h₂ ⟨-, hd⟩
      exact Gives.pure ⟨_, rfl, .absent, Document.shows_end.1 hd⟩
    | some w =>
      refine Gives.bind ((hnext w rfl).patch_gives hdraws hnot (hmeets v w rfl rfl) hd) ?_
      rintro v' h' ⟨G, hG, halike, hv, hd⟩
      exact Gives.pure ⟨_, rfl, .present hG halike hv, hd⟩

theorem patchChildren_gives {cells : List Cell} {children : List (Option View)}
    (hd : h.document.Shows pl (.join (cells.map Cell.forest)))
    (hlength : cells.length = children.length)
    (hnext : ∀ w, some w ∈ children → Incoming.Serves sure lore ⟨w, w.patchAs⟩)
    (hchild : ∀ c ∈ cells, ∀ v, c.child = some v → lore.Of v pl.node c.forest ∧ v.isSole = false)
    (hstandIn : ∀ c ∈ cells, c.child = none →
      ∃ id, c.standIn = some id ∧ c.forest = .leaf (id, .text ""))
    (hmeets : ∀ (i : Nat) (v w : View), (cells.map Cell.child)[i]? = some (some v) →
      children[i]? = some (some w) → Meets sure v w)
    : (patchChildren pl.node (cells.map Cell.child) (cells.map Cell.standIn)
        (incomingChildren children)).Gives sure h fun result h' => ∃ cells' : List Cell,
          result = (cells'.map Cell.child, cells'.map Cell.standIn) ∧
            List.Forall₂ (Cell.Fits lore pl.node) cells' children ∧
              h'.document.Shows pl (.join (cells'.map Cell.forest)) := by
  rw [incomingChildren_eq_map]
  induction cells generalizing children pl h with
  | nil =>
    cases children with
    | cons _ _ => cases hlength
    | nil =>
      rw [List.map_nil, patchChildren.eq_def]
      exact Gives.pure ⟨[], rfl, .nil, hd⟩
  | cons c cells ih =>
    cases children with
    | nil => cases hlength
    | cons next children =>
      rw [List.map_cons, List.map_cons, List.map_cons, patchChildren]
      have hd : h.document.Shows (pl.narrow .nil (.join (cells.map Cell.forest))) c.forest :=
        Document.shows_narrow.2 hd
      have hcell := patchPlace_gives hd (fun w hw => hnext w (hw ▸ List.mem_cons_self))
        (hchild c List.mem_cons_self) (hstandIn c List.mem_cons_self)
        fun v w hv hw => hmeets 0 v w (congrArg some hv) (congrArg some hw)
      refine Gives.bind hcell ?_
      rintro _ h₁ ⟨c', rfl, hfits, hd⟩
      have hd : h₁.document.Shows (pl.narrow c'.forest .nil) (.join (cells.map Cell.forest)) :=
        Document.shows_behind.2 (Document.shows_narrow.1 hd)
      have hrest := ih hd (by simpa using hlength) (fun w hw => hnext w (List.mem_cons_of_mem _ hw))
        (fun c hc => hchild c (List.mem_cons_of_mem _ hc))
        (fun c hc => hstandIn c (List.mem_cons_of_mem _ hc)) fun i => hmeets (i + 1)
      refine Gives.bind hrest ?_
      rintro _ h₂ ⟨cells', rfl, hcells, hd⟩
      exact Gives.pure ⟨c' :: cells', rfl, .cons hfits hcells, Document.shows_behind.1 hd⟩

end Children

section Leaves

theorem setText_yields {id : NodeId} {t : String} (hd : h.document.Shows pl (.leaf (id, .text t)))
    (s : String)
    : (edit (·.setText id s)).Yields h fun _ h' => h'.document.Shows pl (.leaf (id, .text s)) := by
  unfold Shows Place.census at hd
  rw [Forest.census_cons, Forest.census_nil, Forest.census_nil, Multiset.zero_add,
    Multiset.cons_add] at hd
  obtain ⟨d, hset, hd⟩ := hd.setText s
  refine Yields.edit ⟨d, hset, ?_⟩
  unfold Shows Place.census
  rw [Forest.census_cons, Forest.census_nil, Forest.census_nil, Multiset.zero_add, Multiset.cons_add]
  exact hd

theorem patches_text {value : Value} (value_from : value.From care.alloc)
    : Patches sure care (.ofText value) (ofText value).patchAs := by
  have hmounts := (Built.text value_from).mounts_kept care
  intro old F sole pl h hdraws hc hd _
  cases hc with
  | replaced kind =>
    rw [patchAs_eq_replace kind]
    exact (replace_yields hmounts hdraws.draws hd sole).gives
  | @text oldValue =>
    generalize hp : pl.node = p at hdraws
    cases hdraws with
    | @text _ id _ old_from =>
      subst hp
      rw [ofText, patchAs]
      split
      . next hsame =>
        have htext := Value.text_eq_of_same old_from value_from hsame
        exact Gives.pure ⟨_, .text old_from, .text htext, by simp [isSole], hd⟩
      . refine Gives.after (setText_yields hd value.text) ?_
        intro _ h' hd
        exact Gives.pure ⟨_, .text value_from, .text rfl, by simp [isSole], hd⟩

theorem patches_html (markup : String)
    : Patches sure care (.ofMarkup markup) (ofMarkup markup).patchAs := by
  have hmounts : Mounts care (.ofMarkup markup) := (Built.html markup).mounts_kept care
  intro old F sole pl h hdraws hc hd _
  cases hc with
  | replaced kind =>
    rw [patchAs_eq_replace kind]
    exact (replace_yields hmounts hdraws.draws hd sole).gives
  | @html oldMarkup =>
    have hfirst := hdraws.draws.firstNode_eq pl.after
    generalize hp : pl.node = p at hdraws
    cases hdraws with
    | html shapes =>
      subst hp
      rw [ofMarkup, patchAs]
      split
      . next heq =>
        cases heq
        exact Gives.pure ⟨_, .html shapes, .html, by simp [isSole], hd⟩
      . refine Gives.after (rawNodes_builds markup h _ hd) ?_
        rintro _ h₁ ⟨L, rfl, hL, hd⟩
        -- The new nodes are in front of the old ones until those go.
        have hinsert := insertAll_yields (A := .nil) (B := F) (Document.shows_beside.2 hd)
        rw [hfirst] at hinsert
        refine Gives.after hinsert ?_
        intro _ h₂ hd
        have hd : h₂.document.Shows (pl.narrow L .nil) F := Document.shows_behind.2 hd
        refine Gives.after (discardAll_yields hd) ?_
        intro _ h₃ hd
        exact Gives.pure ⟨L, .html hL, .html, by simp [isSole], Document.shows_end.1 hd⟩

end Leaves

section Nested

theorem clearItems_yields {old : List (Key × View)} {anchor : NodeId} {sole : Bool}
    (hd : h.document.Shows pl (F ++ .leaf (anchor, .text "")))
    (hpl : pl.before = [] ∧ pl.after = []) (own : List NodeId)
    : Yields (do
        beforeRemoveItems old
        edit (·.remove anchor)
        clear pl.node own
        edit (·.append pl.node anchor)
        return .list [] (some anchor) (some pl.node) sole) h
        (Stands care (.ofItems []) sole pl) := by
  refine Yields.bind (beforeRemoveItems_yields h old) ?_
  intro _ h₁ heq
  rw [← heq, ← Forest.append_nil (F ++ _)] at hd
  obtain ⟨d, hremove, hd⟩ := hd.remove rfl
  rw [Forest.append_nil] at hd
  refine Yields.bind_ok (edit_eq_ok hremove) ?_
  have hclear := clear_yields (h := { h₁ with document := d }) hd hpl own
  refine Yields.bind hclear ?_
  intro _ h₂ hd
  have happend := insert_yields (A := .nil) (B := .nil) hd rfl
  rw [hpl.2] at happend
  refine Yields.bind happend ?_
  intro _ h₃ hd
  exact Yields.pure (stands_list .nil hd fun hs => hs)

theorem patches_list {items : List (Key × View)} (item : ∀ item ∈ items, Built care.alloc item.2)
    (ih : ∀ item ∈ items, Patches sure care item.2 item.2.patchAs)
    : Patches sure care (.ofItems items) (ofItems items).patchAs := by
  have hmounts := (Built.list item).mounts_kept care
  intro old F sole pl h hdraws hc hd hsole
  cases hc with
  | replaced kind =>
    rw [patchAs_eq_replace kind]
    exact (replace_yields hmounts hdraws.draws hd sole).gives
  | @list oldItems _ _ _ _ _ _ _ hitem =>
    generalize hp : pl.node = p at hdraws
    cases hdraws with
    | @list rows anchor _ oldSole row not_sole =>
      subst hp
      rw [ofItems, patchAs]
      split
      . next hempty =>
        rw [Bool.and_eq_true, List.isEmpty_iff, List.isEmpty_iff, List.map_eq_nil_iff] at hempty
        obtain ⟨rfl, rfl⟩ := hempty
        exact Gives.pure (stands_list .nil hd fun hs => by simp [isSole, hs])
      split
      . next hempty =>
        rw [Bool.and_eq_true, List.isEmpty_iff] at hempty
        obtain ⟨rfl, rfl⟩ := hempty
        rw [isSole, Bool.or_true]
        exact (clearItems_yields hd (hsole (by simp [isSole])) _).gives
      -- The anchor is not part of what is reconciled.
      . have hd : h.document.Shows (pl.narrow .nil (.leaf (anchor, .text "")))
            (.join (rows.map Row.forest)) := Document.shows_narrow.2 hd
        have hserves : ∀ e ∈ incomingItems items, e.2.Serves sure care := by
          rw [incomingItems_eq_map]
          intro e he
          obtain ⟨w, hw, rfl⟩ := List.mem_map.1 he
          exact ⟨(item w hw).mounts_kept care, ih w hw, rfl, (item w hw).not_sole⟩
        have hmeets : ∀ r ∈ rows, ∀ e ∈ incomingItems items, r.key = e.1 →
            Meets sure r.view e.2.view := by
          rw [incomingItems_eq_map]
          intro r hr e he hk
          obtain ⟨w, hw, rfl⟩ := List.mem_map.1 he
          exact hitem _ (List.mem_map_of_mem hr) w hw hk
        have hreconcile := reconcile_gives hd (fun r hr => ⟨row r hr, not_sole r hr⟩) hserves
          hmeets rfl
        refine Gives.bind hreconcile ?_
        rintro _ h' ⟨⟨rows', rfl, hrows, hd⟩, -⟩
        rw [incomingItems_eq_map, List.forall₂_map_right_iff] at hrows
        have hrows : List.Forall₂ (Row.Fits care pl.node) rows' items := hrows
        have hd := Document.shows_narrow.1 hd
        exact Gives.pure (stands_list hrows hd fun hs => by simp [isSole, hs])

theorem patches_multi {children : List (Option View)} (ne_nil : children ≠ [])
    (child : ∀ w, some w ∈ children → Built care.alloc w)
    (ih : ∀ w, some w ∈ children → Patches sure care w w.patchAs)
    : Patches sure care (.ofChildren children) (ofChildren children).patchAs := by
  have hmounts := (Built.multi ne_nil child).mounts_kept care
  intro old F sole pl h hdraws hc hd _
  cases hc with
  | replaced kind =>
    rw [patchAs_eq_replace kind]
    exact (replace_yields hmounts hdraws.draws hd sole).gives
  | multi length hchild =>
    generalize hp : pl.node = p at hdraws
    cases hdraws with
    | @multi cells _ oldSole _ draws not_sole standIn =>
      subst hp
      rw [ofChildren, patchAs]
      split
      . next hne => exact Gives.fault fun hsure => hne (length hsure)
      next heq =>
      rw [ne_eq, not_not, List.length_map] at heq
      refine Gives.bind (patchChildren_gives hd heq
        (fun w hw => ⟨(child w hw).mounts_kept care, ih w hw, rfl, (child w hw).not_sole⟩)
        (fun c hc v hv => ⟨draws c hc v hv, not_sole c hc v hv⟩) standIn hchild) ?_
      rintro _ h' ⟨cells', rfl, hcells, hd⟩
      exact Gives.pure (stands_multi ne_nil hcells hd fun hs => by simp [isSole, hs])

theorem patches_toggler {key : Key} {child : View} (inner : Built care.alloc child)
    (ih : Patches sure care child child.patchAs)
    : Patches sure care (.ofKey key child) (ofKey key child).patchAs := by
  have hmounts : Mounts care (.ofKey key child) := (Built.toggler inner).mounts_kept care
  intro old F sole pl h hdraws hc hd _
  cases hc with
  | replaced kind =>
    rw [patchAs_eq_replace kind]
    exact (replace_yields hmounts hdraws.draws hd sole).gives
  | @toggler oldKey _ oldChild _ _ _ hinner =>
    generalize hp : pl.node = p at hdraws
    cases hdraws with
    | toggler draws not_sole =>
      subst hp
      have hserves : Incoming.Serves sure care ⟨child, child.patchAs⟩ :=
        ⟨inner.mounts_kept care, ih, rfl, inner.not_sole⟩
      rw [ofKey, patchAs]
      split
      . next heq =>
        cases heq
        refine Gives.bind (hserves.patch_gives draws not_sole (hinner rfl) hd) ?_
        rintro v h' ⟨G, hG, halike, hv, hd⟩
        exact Gives.pure ⟨G, .toggler hG hv, .toggler halike, by simp [isSole], hd⟩
      -- Under another key the child is replaced, even by one of its own kind.
      . have hsupersede := supersede_yields (inner.mounts_kept care) draws.draws not_sole hd
          child.isSole fun v => .toggler key v (some pl.node)
        refine hsupersede.gives.mono ?_
        rintro _ h' ⟨v, rfl, G, hG, halike, hv, hd⟩
        rw [inner.not_sole] at hv
        exact ⟨G, .toggler hG (by simpa using hv), .toggler halike, by simp [isSole], hd⟩

end Nested

section Block

variable {template : Template} {S : Marked} {root : NodeId} {references : List NodeId}
  {held : NodeId → Content} {guests : Nat → Forest (NodeId × Content)}

theorem painted_of_identity {data old : Data} (hdata : data.From alloc) (hold : old.From alloc)
    (heq : old.identity = data.identity)
    (painted : ∀ l ∈ S.labels, (held l.1.1).shape = paint old (l.1.2, l.2))
    : ∀ l ∈ S.labels, (held l.1.1).shape = paint data (l.1.2, l.2) := by
  intro l hl
  rw [painted l hl]
  unfold paint
  simp only [hold.at_eq hdata heq]

theorem kept_of_identity {data old : Data} (hdata : data.From care.alloc) (hold : old.From care.alloc)
    (heq : old.identity = data.identity)
    (kept : ∀ l ∈ S.labels, care.Keeps old (l.1.2, l.2) (held l.1.1))
    : ∀ l ∈ S.labels, care.Keeps data (l.1.2, l.2) (held l.1.1) :=
  fun l hl => care.congr (hold.at_eq hdata heq) (kept l hl)

theorem updateLocations_revises (copied : template.Copied root references S) (data old : Data)
    (hd : h.document.Shows pl (S.filled held guests))
    : (updateLocations template references data old).Yields h fun _ h' => ∃ held',
        (∀ l ∈ S.labels, held' l.1.1 = Template.revised data old l.2 (held l.1.1)) ∧
          h'.document.Shows pl (S.filled held' guests) := by
  refine Template.locations_yields (f := fun s c => if (old.at s.1).same (data.at s.1) then c
    else s.2.revise (data.at s.1) (old.at s.1) c) copied ?_ hd
  intro l b hb h a ks c M hd
  obtain ⟨hx, hi, hbinding⟩ := Template.Location.resolve_eq_some hb
  rw [← hi, ← hbinding]
  by_cases hsame : (old.at l.dataIndex).same (data.at l.dataIndex)
  . simp only [hsame, Bool.not_true, Bool.false_eq_true, if_false, if_true]
    exact Yields.pure hd
  . simp only [hsame, Bool.not_false, if_true, Bool.false_eq_true, if_false]
    refine Yields.bind_ok (Template.Wiring.reference_eq_ok hx) ?_
    exact Template.Binding.update_recasts _ _ l.binding h a ks c M hd

theorem updateLocations_yields (copied : template.Copied root references S) {data old : Data}
    (hdata : data.From care.alloc) (hold : old.From care.alloc)
    (hd : h.document.Shows pl (S.filled held guests))
    (painted : ∀ l ∈ S.labels, (held l.1.1).shape = paint old (l.1.2, l.2))
    (kept : ∀ l ∈ S.labels, care.Keeps old (l.1.2, l.2) (held l.1.1))
    : (updateLocations template references data old).Yields h fun _ h' => ∃ held',
        (∀ l ∈ S.labels, (held' l.1.1).shape = paint data (l.1.2, l.2)) ∧
          (∀ l ∈ S.labels, care.Keeps data (l.1.2, l.2) (held' l.1.1)) ∧
            h'.document.Shows pl (S.filled held' guests) := by
  refine (updateLocations_revises copied data old hd).mono ?_
  rintro _ h' ⟨held', hheld, hd⟩
  refine ⟨held', fun l hl => ?_, fun l hl => ?_, hd⟩
  . rw [hheld l hl]
    refine Template.shape_revised copied.tidy hl (fun i => ?_) (painted l hl)
    exact Value.text_eq_of_same (hold.from_at i) (hdata.from_at i)
  . rw [hheld l hl]
    exact care.revised (kept l hl)

theorem patchSlot_gives {slot : Template.ChildSlot} {o : Opening}
    (hso : slot.resolve references = some o) (hnode : pl.node = o.parent)
    (hanchor : pl.after.head? = o.anchor) (hsole : o.sole → pl.before = [] ∧ pl.after = [])
    {children : List (Option View)} {incoming : List (Option Incoming)} {v next : Option View}
    (hv : children[o.index]? = some v)
    (hnext : incoming[o.index]? = some (next.map fun w => ⟨w, w.patchAs⟩))
    (hserves : ∀ w, next = some w → Mounts lore w ∧ Patches sure lore w w.patchAs)
    (hdraws : ∀ a, v = some a → lore.Of a o.parent F ∧ (a.isSole → o.sole))
    (habsent : v = none → F = .nil)
    (hmeets : ∀ a b, v = some a → next = some b → Meets sure a b) (hd : h.document.Shows pl F)
    : (patchSlot references (children, incoming) slot).Gives sure h fun state h' => ∃ G v',
        state.1[o.index]? = some v' ∧ Hosts lore o v' next G ∧
          (∀ i, i ≠ o.index → state.1[i]? = children[i]? ∧ state.2[i]? = incoming[i]?) ∧
            h'.document.Shows pl G := by
  obtain ⟨hindex, hslot, hparent, -⟩ := Template.ChildSlot.resolve_eq_some hso
  have hset : ∀ v' : Option View, (children.set o.index v')[o.index]? = some v' :=
    fun v' => List.getElem?_set_self (List.getElem?_eq_some_iff.1 hv).1
  unfold patchSlot
  simp only [hindex, hslot, hv, hnext, Option.join_some]
  -- The entry of the slot is used up, whatever becomes of its child.
  have hkeep : ∀ (v' : Option View) (next' : Option Incoming) (i : Nat), i ≠ o.index →
      (children.set o.index v')[i]? = children[i]? ∧ (incoming.set o.index next')[i]? = incoming[i]? :=
    fun _ _ i hne => ⟨List.getElem?_set_ne hne.symm, List.getElem?_set_ne hne.symm⟩
  cases v with
  | none =>
    obtain rfl := habsent rfl
    cases next with
    | none =>
      refine Gives.pure ⟨.nil, none, hv, .absent, fun i hne => ⟨rfl, ?_⟩, hd⟩
      exact List.getElem?_set_ne hne.symm
    | some w =>
      refine Gives.bind_ok (Template.Wiring.reference_eq_ok hparent) ?_
      refine Gives.bind_ok (Template.anchor_eq_ok hso) ?_
      rw [← hnode, ← hanchor]
      refine Gives.after ((hserves w rfl).1 o.sole pl h hd) ?_
      rintro v' h' ⟨G, hG, halike, hvsole, hd⟩
      exact Gives.pure ⟨G, some v', hset _, .present (hnode ▸ hG) halike hvsole, hkeep _ _, hd⟩
  | some a =>
    obtain ⟨hdraws, hasole⟩ := hdraws a rfl
    rw [← hnode] at hdraws
    cases next with
    | none =>
      refine Gives.after ((lore.draws hdraws).tearDown_yields hd fun hs => hsole (hasole hs)) ?_
      rintro _ h' ⟨-, hd⟩
      exact Gives.pure ⟨.nil, none, hset _, .absent, hkeep _ _, hd⟩
    | some w =>
      have hpl : (o.sole || a.isSole) → pl.before = [] ∧ pl.after = [] := by
        intro hs
        rcases Bool.or_eq_true_iff.1 hs with hs | hs
        . exact hsole hs
        . exact hsole (hasole hs)
      refine Gives.bind ((hserves w rfl).2 a F o.sole pl h hdraws (hmeets a w rfl rfl) hd hpl) ?_
      rintro v' h' ⟨G, hG, halike, hvsole, hd⟩
      have hvsole : v'.isSole → o.sole := by
        intro hs
        rcases Bool.or_eq_true_iff.1 (hvsole hs) with hs | hs
        . exact hs
        . exact hasole hs
      exact Gives.pure ⟨G, some v', hset _, .present (hnode ▸ hG) halike hvsole, hkeep _ _, hd⟩

theorem incomingChildren_getElem? (children : List (Option View)) (i : Nat)
    : (incomingChildren children)[i]?
        = children[i]?.map (·.map fun child => ⟨child, child.patchAs⟩) := by
  rw [incomingChildren_eq_map, List.getElem?_map]

theorem patchSlots_gives (copied : template.Copied root references S)
    (indices : (template.wiring.slots.map (·.index)).Nodup) {children oldChildren : List (Option View)}
    (hchild : ∀ w, some w ∈ children → Mounts lore w ∧ Patches sure lore w w.patchAs)
    (capacity : ∀ slot ∈ template.wiring.slots, slot.index < children.length)
    (oldCapacity : ∀ slot ∈ template.wiring.slots, slot.index < oldChildren.length)
    (draws : ∀ o ∈ S.openings pl.node, ∀ v, oldChildren[o.index]? = some (some v) →
      lore.Of v o.parent (guests o.index))
    (hsole : ∀ o ∈ S.openings pl.node, ∀ v, oldChildren[o.index]? = some (some v) → v.isSole → o.sole)
    (absent : ∀ o ∈ S.openings pl.node, oldChildren[o.index]? = some none → guests o.index = .nil)
    (hmeets : ∀ slot ∈ template.wiring.slots, ∀ (a b : View),
      oldChildren[slot.index]? = some (some a) → children[slot.index]? = some (some b) → Meets sure a b)
    (hd : h.document.Shows pl (S.filled held guests))
    : (template.wiring.slots.foldlM (patchSlot references)
        (oldChildren, incomingChildren children)).Gives sure h fun state h' => ∃ guests',
          Housed lore S pl.node guests' state.1 children ∧
            h'.document.Shows pl (S.filled held guests') := by
  refine Template.slots_gives sure copied indices
    (fun (state : List (Option View) × List (Option Incoming)) i => (state.1[i]?, state.2[i]?))
    (fun o cell G => cell = (oldChildren[o.index]?, (incomingChildren children)[o.index]?) ∧
      G = guests o.index)
    (fun o cell G => ∃ v w, cell.1 = some v ∧ children[o.index]? = some w ∧ Hosts lore o v w G)
    ?_ hd fun o ho => ⟨rfl, rfl⟩
  rintro slot o ⟨current, incoming⟩ h place G hso ho hnode hanchor hplace ⟨hcell, rfl⟩ hd
  obtain ⟨hcurrent, hincoming⟩ := Prod.mk.inj hcell
  obtain ⟨s, hs, hi⟩ := copied.exists_slot ho
  have hlt := capacity s hs
  have hlt' := oldCapacity s hs
  have hpair := hmeets s hs
  rw [hi] at hlt hlt' hpair
  obtain ⟨w, hw⟩ : ∃ w, children[o.index]? = some w := ⟨_, List.getElem?_eq_getElem hlt⟩
  obtain ⟨v, hv⟩ : ∃ v, oldChildren[o.index]? = some v := ⟨_, List.getElem?_eq_getElem hlt'⟩
  have hnext : incoming[o.index]? = some (w.map fun w => ⟨w, w.patchAs⟩) := by
    rw [hincoming, incomingChildren_getElem?, hw]
    rfl
  have hserves : ∀ b, w = some b → Mounts lore b ∧ Patches sure lore b b.patchAs := by
    rintro b rfl
    exact hchild b (List.mem_of_getElem? hw)
  have hdraws : ∀ a, v = some a → lore.Of a o.parent (guests o.index) ∧ (a.isSole → o.sole) := by
    rintro a rfl
    exact ⟨draws o ho a hv, hsole o ho a hv⟩
  have habsent : v = none → guests o.index = .nil := by
    rintro rfl
    exact absent o ho hv
  have hpair : ∀ a b, v = some a → w = some b → Meets sure a b := by
    rintro a b rfl rfl
    exact hpair a b hv hw
  refine (patchSlot_gives hso hnode hanchor hplace (hcurrent.trans hv) hnext hserves hdraws habsent
    hpair hd).mono ?_
  rintro state h' ⟨G, v', hv', hosted, hkeep, hd⟩
  refine ⟨G, ⟨v', w, hv', hw, hosted⟩, fun i hne => ?_, hd⟩
  exact Prod.ext (hkeep i hne).1 (hkeep i hne).2

theorem patchSlots_absent {slots : List Template.ChildSlot} {children : List (Option View)}
    (h : ∀ slot ∈ slots, children[slot.index]?.join = none) {incoming : List (Option Incoming)}
    (hincoming : ∀ i : Nat, incoming[i]?.join = none)
    : ∃ rest, slots.foldlM (patchSlot references) (children, incoming) = pure (children, rest) := by
  induction slots generalizing incoming with
  | nil => exact ⟨incoming, rfl⟩
  | cons slot slots ih =>
    have hset : ∀ i : Nat, (incoming.set slot.index none)[i]?.join = none := by
      intro i
      rw [List.getElem?_set]
      split
      . split <;> rfl
      . exact hincoming i
    obtain ⟨rest, hrest⟩ := ih (fun slot hs => h slot (List.mem_cons_of_mem _ hs)) hset
    refine ⟨rest, ?_⟩
    rw [List.foldlM_cons, patchSlot, h slot List.mem_cons_self, hincoming]
    exact hrest

theorem patches_block {source : String} {normalize : Bool}
    (compiled : template.Compiled source normalize)
    (indices : (template.wiring.slots.map (·.index)).Nodup) {data : Data} (data_from : data.From care.alloc)
    {children : List (Option View)}
    (hchild : ∀ w, some w ∈ children → Mounts care w ∧ Patches sure care w w.patchAs)
    (capacity : ∀ slot ∈ template.wiring.slots, slot.index < children.length)
    : Patches sure care (.block template data children none)
        (block template data children none).patchAs := by
  intro old F sole pl h hdraws hc hd _
  cases hc with
  | replaced kind =>
    rw [patchAs_eq_replace kind]
    refine Yields.gives (replace_yields (fun sole pl h hd => ?_) hdraws.draws hd sole)
    rw [mountAs]
    exact mountBlock_yields compiled indices data_from (fun w hw => (hchild w hw).1) capacity hd
  | @block _ oldData _ oldChildren _ _ _ hmeets =>
    generalize hp : pl.node = p at hdraws
    cases hdraws with
    | @block _ _ _ root _ references S _ guests copied _ old_from painted kept oldCapacity draws
        hsole absent =>
      subst hp
      have hslots : ∀ (h : Host) (held : NodeId → Content),
          (∀ l ∈ S.labels, (held l.1.1).shape = paint data (l.1.2, l.2)) →
          (∀ l ∈ S.labels, care.Keeps data (l.1.2, l.2) (held l.1.1)) →
          h.document.Shows pl (S.filled held guests) → Gives sure (do
            let state ← template.wiring.slots.foldlM (patchSlot references)
              (oldChildren, incomingChildren children)
            return .block template data state.1 (some ⟨root, references⟩)) h
            (Stands care (.block template data children none) (sole || false) pl) := by
        intro h held painted kept hd
        refine Gives.bind (patchSlots_gives copied indices hchild capacity oldCapacity draws hsole
          absent hmeets hd) ?_
        rintro ⟨current, incoming⟩ h' ⟨guests', hosts, hd⟩
        exact Gives.pure (stands_block copied indices data_from painted kept hosts hd)
      rw [patchAs]
      simp only [ne_eq, not_true_eq_false, if_false]
      split
      . refine Gives.after (updateLocations_yields copied data_from old_from hd painted kept) ?_
        rintro _ h' ⟨held', painted, kept, hd⟩
        exact hslots h' held' painted kept hd
      . next hsame =>
        have heq := not_not.1 hsame
        exact hslots h _ (painted_of_identity data_from old_from heq painted)
          (kept_of_identity data_from old_from heq kept) hd
  | strange not_sure source =>
    generalize pl.node = p at hdraws
    cases hdraws
    rw [patchAs]
    simp only [ne_eq, source, not_false_eq_true, if_true]
    exact Gives.fault not_sure

end Block

variable (care) (sure) in
/-- Every view of a render can follow every one that may come before it, whatever is kept of its nodes. -/
theorem Built.patches_kept (hw : Built care.alloc w) : Patches sure care w w.patchAs := by
  induction hw with
  | text value_from => exact patches_text value_from
  | html markup => exact patches_html markup
  | list item ih => exact patches_list item ih
  | multi ne_nil child ih => exact patches_multi ne_nil child ih
  | toggler inner ih => exact patches_toggler inner ih
  | block compiled indices data_from child made ih =>
    obtain ⟨children', rfl, hmem, capacity⟩ := ofTemplate_eq_ok made
    have hchild : ∀ w, some w ∈ children' → Mounts care w ∧ Patches sure care w w.patchAs :=
      fun w hw => ⟨(child w (hmem w hw)).mounts_kept care, ih w (hmem w hw)⟩
    exact patches_block compiled indices data_from hchild capacity

variable (sure) in
theorem Built.patches (hw : Built alloc w) : Patches sure alloc w w.patchAs :=
  lore_none alloc ▸ hw.patches_kept sure (.none alloc)

theorem Built.serves (sure : Prop) (hw : Built alloc w) : Incoming.Serves sure alloc ⟨w, w.patchAs⟩ :=
  ⟨hw.mounts, hw.patches sure, rfl, hw.not_sole⟩

theorem Built.serves_kept (care : Upkeep) (sure : Prop) (hw : Built care.alloc w)
    : Incoming.Serves sure care ⟨w, w.patchAs⟩ :=
  ⟨hw.mounts_kept care, hw.patches_kept sure care, rfl, hw.not_sole⟩

end VirtualDom.View
