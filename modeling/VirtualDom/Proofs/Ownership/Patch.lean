import VirtualDom.Proofs.Ownership.Reconcile
import VirtualDom.Proofs.View.Patch

/-!
This module contains what patching comes to when nothing is known of the order of siblings: the view
that results owns what is at the site of the old one, and just that of the old one has gone which the next
view has no place for.
-/

namespace VirtualDom

open Engine
open Document (Site)
open Template (Marked Opening)

namespace View

variable {u : Usage} {s : Site} {h : Host} {F G : Forest (NodeId × Content)} {w old : View}

section Replace

theorem supersede_performs (hw : Lodges u w) (howns : Owns u old s.node F)
    (hnot : old.isSole = false) (hd : h.document.Carries s F) (sole : Bool) (f : View → View)
    : Performs u.proper (do
        let mounted ← w.mountAs sole s.node old.firstNode
        let _ ← old.tearDown
        return f mounted) h
        fun v x d => ∃ mounted, v = f mounted ∧ x = (mounted.holdings s.node, {⟨s.node, old⟩}) ∧
          Lodged u w sole s mounted d := by
  have hadmits : Admits u (s.beside F) old.firstNode :=
    .of_others fun x hx => Multiset.mem_add.2 (.inr (howns.firstNode_mem hx))
  refine Performs.bind (hw sole (s.beside F) h _ (Document.Carries.gone_iff.2 hd) hadmits) ?_
  rintro v _ h₁ ⟨⟨G, hG, hstands, hsole, hd⟩, rfl⟩
  have hd : h₁.document.Carries (s.beside G) F :=
    Document.Carries.beside_iff.2 (Document.Carries.focus_iff.1 hd)
  have howns : Owns u old (s.beside G).node F := howns
  refine (howns.tearDown_performs hd (by simp [hnot])).finish ?_
  rintro _ _ d ⟨rfl, -, hd⟩
  refine ⟨v, rfl, ?_, G, hG, hstands, hsole, Document.Carries.gone_iff.1 hd⟩
  exact Prod.ext (add_zero _) (zero_add _)

/-- All that a view held goes with it, and all that is held in its place has come. -/
theorem trades_superseded (p : NodeId) (old new : View)
    : Trades u.faithful (old.holdings p) (new.holdings p, {⟨p, old⟩}) (new.holdings p) := by
  have hcome : Trades u.faithful 0 (new.holdings p, 0) (new.holdings p) := .come _
  have := hcome.supersede (.leave p old)
  rwa [Prod.mk_add_mk, add_zero, zero_add] at this

theorem replace_performs (hw : Lodges u w) (howns : Owns u old s.node F) (hk : old.kind ≠ w.kind)
    (hprecedes : u.proper → Precedes u old w) (hd : h.document.Carries s F) (sole : Bool)
    : Performs u.proper (replace w sole old) h (Succeeds u w old (sole || old.isSole) s) := by
  have hnot : old ≠ .ghost := by
    rintro rfl
    cases howns with
    | ghost custom =>
      cases hprecedes (u.proper_of_custom custom) with
      | replaced _ not_ghost => exact not_ghost rfl
      | ghost => exact hk rfl
  unfold replace
  refine Performs.read_ok (howns.parentNode hd hnot) ?_
  have hsupersede := supersede_performs hw (howns.withSole false) (Draws.isSole_withSole old) hd
    (sole || old.isSole) fun v => v
  rw [firstNode_withSole] at hsupersede
  refine hsupersede.mono ?_
  rintro _ _ d ⟨v, rfl, rfl, hv⟩
  refine ⟨hv, fun _ => ⟨.replaced hk, ?_⟩⟩
  rw [← holdings_withSole old false]
  exact trades_superseded _ _ _

/-- Views of other kinds are replaced, so only those of the same kind are to be looked at. -/
theorem brings_of_kind (hw : Lodges u w)
    (same : ∀ (old : View) (F : Forest (NodeId × Content)) (sole : Bool) (s : Site) (h : Host),
      old.kind = w.kind → Owns u old s.node F → (u.proper → Precedes u old w) →
        h.document.Carries s F → (sole || old.isSole → s.others = 0) →
          Performs u.proper (w.patchAs sole old) h (Succeeds u w old (sole || old.isSole) s))
    : Brings u w w.patchAs := by
  intro old F sole s h howns hprecedes hd hsole
  by_cases hk : old.kind = w.kind
  . exact same old F sole s h hk howns hprecedes hd hsole
  . rw [patchAs_eq_replace hk]
    exact replace_performs hw howns hk hprecedes hd sole

end Replace

section Leaves

theorem brings_text {value : Value} {node parent : Option NodeId}
    : Brings u (.text value node parent) (text value node parent).patchAs := by
  refine brings_of_kind Mountable.text.lodges ?_
  intro old F sole s h hk howns _ hd _
  generalize hp : s.node = p at howns
  cases howns with
  | @text oldValue id _ _ tree =>
    subst hp
    have hstands : ∀ v, StandsFor u (.text v (some id) (some s.node)) (.text value node parent) := by
      intro v next hnext
      cases hnext with
      | replaced kind => exact .replaced kind (by simp)
      | text => exact .text
    rw [patchAs]
    split
    . exact Performs.pure ⟨⟨F, .text tree, fun _ => hstands _, by simp [isSole], hd⟩,
        fun _ => ⟨.text, .keep _⟩⟩
    . have hrewrites : Rewrites (fun _ => True) (edit (·.setText id value.text)) id
          (Template.Binding.text.reshape value) := Template.Binding.set_rewrites value .text trivial
      have hid : id ∈ (s.bonds F).map (·.1) := by
        obtain ⟨c, G, rfl⟩ := Forest.eq_cons_of_rootIds tree
        simp [Site.bonds, Forest.bonds_cons]
      refine Performs.settled (hrewrites.settles (Template.Binding.set_calm value .text (by simp)) hd hid) ?_
      intro _ h' hd
      exact Performs.pure ⟨⟨F, .text tree, fun _ => hstands _, by simp [isSole], hd⟩,
        fun _ => ⟨.text, .keep _⟩⟩
  | _ => exact absurd hk (by simp [kind])

theorem brings_html {markup : String} {content : List NodeId} {parent : Option NodeId}
    : Brings u (.html markup content parent) (html markup content parent).patchAs := by
  refine brings_of_kind Mountable.html.lodges ?_
  intro old F sole s h hk howns _ hd _
  generalize hp : s.node = p at howns
  cases howns with
  | @html oldMarkup _ _ ne_nil =>
    subst hp
    have hstands : ∀ m ids, StandsFor u (.html m ids (some s.node)) (.html markup content parent) := by
      intro m ids next hnext
      cases hnext with
      | replaced kind => exact .replaced kind (by simp)
      | html => exact .html
    rw [patchAs]
    split
    . exact Performs.pure ⟨⟨F, .html ne_nil, fun _ => hstands _ _, by simp [isSole], hd⟩,
        fun _ => ⟨.html, .keep _⟩⟩
    . refine Performs.settled ((rawNodes_makes markup).settles (rawNodes_calm markup) hd) ?_
      rintro _ h₁ ⟨L, rfl, hL, hd⟩
      have hd : h₁.document.Carries ((s.beside F).aside L) .nil := by
        apply hd.congr
        rw [Site.bonds_aside, Site.bonds_aside, Site.bonds_beside, Forest.append_nil]
      -- The new nodes come before the old ones, or to the end where there are none.
      have hadmits : Admits u (s.beside F) F.rootIds.head? :=
        .of_others fun x hx => Multiset.mem_add.2 (.inr (Multiset.mem_coe.2 (List.mem_of_mem_head? hx)))
      refine Performs.settled (insertAll_settles (s := s.beside F) hd hadmits) ?_
      intro _ h₂ hd
      have hd : h₂.document.Carries (s.beside L) F :=
        Document.Carries.beside_iff.2 (Document.Carries.focus_iff.1 hd)
      refine Performs.settled (Performs.of_yields (R := fun _ d => d.Carries (s.beside L) .nil)
        (discardAll_carries hd) (.forM fun _ _ => .discard _) hd.orderly) ?_
      rintro _ h₃ ⟨-, hd⟩
      refine Performs.pure ⟨⟨L, .html fun _ => ?_, fun _ => hstands _ _, by simp [isSole],
        Document.Carries.gone_iff.1 hd⟩, fun _ => ⟨.html, .keep _⟩⟩
      exact rootIds_ne_nil_of_raw hL
  | _ => exact absurd hk (by simp [kind])

end Leaves

section Nested

/-- A list that is alone in its parent tells all components of its items, and clears what is theirs. -/
theorem clearItems_performs {items : List (Key × View)} {anchor : NodeId} {parent : Option NodeId}
    {T : Forest (NodeId × Content)}
    (howns : Owns u (.list items (some anchor) parent true) s.node (F ++ T)) (hT : T.rootIds = [anchor])
    (hitems : itemNodes items = F.rootIds) (hd : h.document.Carries s (F ++ T)) (ho : s.others = 0)
    : Performs u.proper (do
        beforeRemoveItems items
        edit (·.remove anchor)
        clear s.node (itemNodes items)
        edit (·.append s.node anchor)
        return View.list [] (some anchor) (some s.node) true) h
        fun v x d => x = (0, {⟨s.node, .list items (some anchor) parent true⟩}) ∧
          v = .list [] (some anchor) (some s.node) true ∧
            ∃ T : Forest (NodeId × Content), T.rootIds = [anchor] ∧ d.Carries s T := by
  obtain ⟨d₁, children, d₂, d₃, T', hremove, hchildren, hclear, happend, hT', hd₃⟩ :=
    hd.clear_around ho hT (.of_eq hitems)
  have htold : Performs u.proper (beforeRemoveItems items) h fun _ x d =>
      x = (0, {⟨s.node, .list items (some anchor) parent true⟩}) ∧ d = h.document := by
    -- Nothing is freed by itself, so no callback is told.
    have htells := howns.tells hd (List.forall_mem_nil _) (.none _)
    have hlinks := howns.filterMap_link? (d := h.document) (List.forall_mem_nil _)
    rw [List.append_nil, farewells] at htells hlinks
    refine Performs.of_ok (beforeRemoveItems_eq h items) ⟨rfl, fun _ => htells, ?_, ?_⟩ ⟨rfl, rfl⟩
    . rw [hlinks]
      rfl
    . exact (add_zero _).symm
  refine Performs.bind htold ?_
  rintro _ _ h₁ ⟨rfl, heq⟩
  rw [← heq] at hremove
  refine Performs.bind_ok (edit_eq_ok hremove) rfl
    (congrArg Annals.arrivals (Document.annals_remove hremove)) ?_
  have hcame : d₂.annals.arrivals = d₁.annals.arrivals := by
    rw [Document.annals_discardChildren hclear]
    rfl
  refine Performs.bind_ok (clear_eq_ok hchildren hclear) rfl hcame ?_
  refine Performs.bind_ok (edit_eq_ok happend) rfl
    (congrArg Annals.arrivals (Document.annals_insertBefore happend)) ?_
  exact Performs.pure ⟨add_zero _, rfl, T', hT', hd₃⟩

theorem brings_list {items : List (Key × View)} {anchor parent : Option NodeId} {sole : Bool}
    (item : ∀ item ∈ items, Mountable u item.2) (not_sole : ∀ item ∈ items, item.2.isSole = false)
    (ih : ∀ item ∈ items, Brings u item.2 item.2.patchAs)
    : Brings u (.list items anchor parent sole) (list items anchor parent sole).patchAs := by
  refine brings_of_kind (Mountable.list item not_sole).lodges ?_
  intro old F sole' s h hk howns hprecedes hd hsole
  generalize hp : s.node = p at howns
  have howns' := howns
  cases howns with
  | @list rows oldAnchor _ oldSole T row row_not_sole tree =>
    subst hp
    have hnodes := itemNodes_eq fun r hr => (row r hr).nodes_eq
    rw [patchAs]
    split
    . next hempty =>
      rw [Bool.and_eq_true, List.isEmpty_iff, List.isEmpty_iff, List.map_eq_nil_iff] at hempty
      obtain ⟨rfl, rfl⟩ := hempty
      exact Performs.pure ⟨lodged_list .nil tree hd fun hs => by simp [isSole, hs],
        fun _ => ⟨.no_items, .keep _⟩⟩
    next hitems =>
    split
    . next hempty =>
      rw [Bool.and_eq_true, List.isEmpty_iff] at hempty
      obtain ⟨rfl, rfl⟩ := hempty
      refine (clearItems_performs howns' tree hnodes hd (hsole (by simp [isSole]))).mono ?_
      rintro _ _ d ⟨rfl, rfl, T', hT', hd⟩
      have hd : d.Carries s (.join (([] : List Row).map Row.forest) ++ T') := hd
      refine ⟨lodged_list .nil hT' hd fun hs => by simp [isSole], fun _ => ⟨.cleared ?_, .leave _ _⟩⟩
      rintro hnil
      exact hitems (by simp [hnil])
    -- The anchor is not part of what is reconciled.
    . next hempty =>
      have htakes : ∀ e ∈ incomingItems items, e.2.Takes u := by
        rw [incomingItems_eq_map]
        intro e he
        obtain ⟨w, hw, rfl⟩ := List.mem_map.1 he
        exact ⟨(item w hw).lodges, ih w hw, not_sole w hw⟩
      have hitem : ∀ r ∈ rows, ∀ e ∈ incomingItems items, r.key = e.1 → u.proper →
          Precedes u r.view e.2.view := by
        rw [incomingItems_eq_map]
        intro r hr e he hk hproper
        obtain ⟨w, hw, rfl⟩ := List.mem_map.1 he
        cases hprecedes hproper with
        | replaced kind => exact absurd rfl kind
        | list hitem => exact hitem _ (List.mem_map_of_mem hr) w hw hk
      have hanchor : oldAnchor ∈ (s.beside T).others := by simp [Site.beside, tree]
      refine Performs.bind (reconcile_performs (s := s.beside T) (Document.Carries.focus_iff.2 hd)
        (fun r hr => ⟨row r hr, row_not_sole r hr⟩) htakes hitem hanchor) ?_
      rintro _ x h' ⟨rows', rfl, hrows, hsorted, hd⟩
      rw [incomingItems_eq_map, List.forall₂_map_right_iff] at hrows
      refine Performs.pure ⟨lodged_list (s := s) hrows tree (Document.Carries.focus_iff.1 hd)
        fun hs => by simp [isSole, hs], fun hproper => ?_⟩
      rw [add_zero, holdings_list (rows'.map Row.item), List.map_map]
      refine (hsorted hproper).sheds ?_
      rintro rfl rfl
      exact absurd rfl hempty
  | _ => exact absurd hk (by simp [kind])

theorem patchPlace_performs {c : Cell} {next : Option View} (hd : h.document.Carries s c.forest)
    (hnext : ∀ w, next = some w → Incoming.Takes u ⟨w, w.patchAs⟩)
    (hchild : ∀ v, c.child = some v → Owns u v s.node c.forest ∧ v.isSole = false)
    (hstandIn : c.child = none → ∃ id, c.standIn = some id ∧ c.forest.rootIds = [id])
    (hprecedes : ∀ v w, c.child = some v → next = some w → u.proper → Precedes u v w)
    : Performs u.proper
        (patchPlace s.node c.standIn c.child (next.map fun w => ⟨w, w.patchAs⟩)) h
        fun result x d => ∃ c' : Cell, result = (c'.child, c'.standIn) ∧
          Cell.Suits u s.node c' next ∧ Follows u s.node c.child next c'.child x ∧
            d.Carries s c'.forest := by
  obtain ⟨child, standIn, F⟩ := c
  dsimp only at *
  cases child with
  | none =>
    obtain ⟨id, rfl, hF⟩ := hstandIn rfl
    cases next with
    | none => exact Performs.pure ⟨_, rfl, .absent hF, .absent, hd⟩
    | some w =>
      have hw := hnext w rfl
      have hadmits : Admits u (s.beside F) (some id) := by
        apply Admits.of_others
        rintro x ⟨⟩
        simp [Site.beside, hF]
      -- The stand-in holds the place until the new child is there.
      refine Performs.bind (hw.lodges w.isSole (s.beside F) h _ (Document.Carries.gone_iff.2 hd)
        hadmits) ?_
      rintro v _ h₁ ⟨⟨G, hG, hstands, hv, hd⟩, rfl⟩
      refine Performs.settled (Performs.of_yields (R := fun _ d => d.Carries s G)
        (discard_carries (Document.Carries.focus_iff.1 hd) hF) (.discard id) hd.orderly) ?_
      rintro _ h₂ ⟨-, hd⟩
      rw [hw.not_sole] at hv
      refine Performs.pure ⟨⟨some v, none, G⟩, rfl, .present hG hstands (by simpa using hv), ?_, hd⟩
      rw [add_zero]
      exact .come w v
  | some v =>
    obtain ⟨howns, hnot⟩ := hchild v rfl
    cases next with
    | none =>
      have hadmits : Admits u (s.beside F) v.firstNode :=
        .of_others fun x hx => Multiset.mem_add.2 (.inr (howns.firstNode_mem hx))
      refine Performs.settled (mountStandIn_settles (s := s.beside F) (Document.Carries.gone_iff.2 hd)
        hadmits) ?_
      rintro id h₁ ⟨T, hT, hd⟩
      have hd : h₁.document.Carries (s.beside T) F :=
        Document.Carries.beside_iff.2 (Document.Carries.focus_iff.1 hd)
      have howns : Owns u v (s.beside T).node F := howns
      refine (howns.tearDown_performs hd (by simp [hnot])).finish ?_
      rintro _ _ d ⟨rfl, -, hd⟩
      exact ⟨⟨none, some id, T⟩, rfl, .absent hT, .leave v, Document.Carries.gone_iff.1 hd⟩
    | some w =>
      refine ((hnext w rfl).patch_performs howns hnot (hprecedes v w rfl rfl) hd).finish ?_
      rintro v' x d ⟨⟨G, hG, hstands, hv, hd⟩, hx⟩
      exact ⟨⟨some v', standIn, G⟩, rfl, .present hG hstands (by simpa using hv), .kept hx, hd⟩

theorem patchChildren_performs {cells : List Cell} {children : List (Option View)}
    (hd : h.document.Carries s (.join (cells.map Cell.forest)))
    (hlength : cells.length = children.length)
    (hnext : ∀ w, some w ∈ children → Incoming.Takes u ⟨w, w.patchAs⟩)
    (hchild : ∀ c ∈ cells, ∀ v, c.child = some v → Owns u v s.node c.forest ∧ v.isSole = false)
    (hstandIn : ∀ c ∈ cells, c.child = none → ∃ id, c.standIn = some id ∧ c.forest.rootIds = [id])
    (hprecedes : ∀ (i : Nat) (v w : View), (cells.map Cell.child)[i]? = some (some v) →
      children[i]? = some (some w) → u.proper → Precedes u v w)
    : Performs u.proper (patchChildren s.node (cells.map Cell.child) (cells.map Cell.standIn)
        (incomingChildren children)) h fun result x d => ∃ cells' : List Cell,
          result = (cells'.map Cell.child, cells'.map Cell.standIn) ∧
            List.Forall₂ (Cell.Suits u s.node) cells' children ∧
              (u.proper → ChildrenShed s.node (cells.map Cell.child) children x.2 ∧
                Trades u.faithful ((cells.map fun c => holdingsAt s.node c.child).sum) x
                  ((cells'.map fun c => holdingsAt s.node c.child).sum)) ∧
                d.Carries s (.join (cells'.map Cell.forest)) := by
  rw [incomingChildren_eq_map]
  induction cells generalizing children s h with
  | nil =>
    cases children with
    | cons _ _ => cases hlength
    | nil =>
      rw [List.map_nil, patchChildren.eq_def]
      exact Performs.pure ⟨[], rfl, .nil, fun _ => ⟨.nil, .keep _⟩, hd⟩
  | cons c cells ih =>
    cases children with
    | nil => cases hlength
    | cons next children =>
      rw [List.map_cons, List.map_cons, List.map_cons, patchChildren]
      rw [List.map_cons, Forest.join_cons] at hd
      have hcell := patchPlace_performs (s := s.beside (.join (cells.map Cell.forest)))
        (Document.Carries.focus_iff.2 hd) (fun w hw => hnext w (hw ▸ List.mem_cons_self))
        (hchild c List.mem_cons_self) (hstandIn c List.mem_cons_self)
        fun v w hv hw => hprecedes 0 v w (congrArg some hv) (congrArg some hw)
      refine Performs.bind hcell ?_
      rintro _ x h₁ ⟨c', rfl, hsuits, hfollows, hd⟩
      have hrest := ih (s := s.beside c'.forest)
        (Document.Carries.beside_iff.2 (Document.Carries.focus_iff.1 hd)) (by simpa using hlength)
        (fun w hw => hnext w (List.mem_cons_of_mem _ hw))
        (fun c hc => hchild c (List.mem_cons_of_mem _ hc))
        (fun c hc => hstandIn c (List.mem_cons_of_mem _ hc)) fun i => hprecedes (i + 1)
      refine hrest.finish ?_
      rintro _ x' d ⟨cells', rfl, hcells, hrest, hd⟩
      refine ⟨c' :: cells', rfl, .cons hsuits hcells, fun hp => ?_, Document.Carries.beside_iff.1 hd⟩
      obtain ⟨hsheds, htrades⟩ := hfollows hp
      obtain ⟨hsheds', htrades'⟩ := hrest hp
      rw [List.map_cons, List.map_cons, List.sum_cons, List.sum_cons]
      exact ⟨.cons hsheds hsheds', htrades.add htrades'⟩

theorem brings_multi {children : List (Option View)} {standIns : List (Option NodeId)}
    {parent : Option NodeId} {sole : Bool} (child : ∀ w, some w ∈ children → Mountable u w)
    (not_sole : ∀ w, some w ∈ children → w.isSole = false)
    (ih : ∀ w, some w ∈ children → Brings u w w.patchAs)
    : Brings u (.multi children standIns parent sole) (multi children standIns parent sole).patchAs := by
  refine brings_of_kind (Mountable.multi child not_sole).lodges ?_
  intro old F sole' s h hk howns hprecedes hd hsole
  generalize hp : s.node = p at howns
  cases howns with
  | @multi cells _ oldSole owns cell_not_sole standIn =>
    subst hp
    rw [patchAs]
    split
    . next hne =>
      refine Performs.throw (fun hproper => ?_) hd.orderly
      cases hprecedes hproper with
      | replaced kind => exact kind rfl
      | multi length => exact hne length
    . next heq =>
      have hlength : cells.length = children.length := by simpa using heq
      have hchild : ∀ (i : Nat) (v w : View), (cells.map Cell.child)[i]? = some (some v) →
          children[i]? = some (some w) → u.proper → Precedes u v w := by
        intro i v w hv hw hproper
        cases hprecedes hproper with
        | replaced kind => exact absurd rfl kind
        | multi _ hchild => exact hchild i v w hv hw
      refine Performs.bind (patchChildren_performs hd hlength
        (fun w hw => ⟨(child w hw).lodges, ih w hw, not_sole w hw⟩)
        (fun c hc v hv => ⟨owns c hc v hv, cell_not_sole c hc v hv⟩) standIn hchild) ?_
      rintro _ x h' ⟨cells', rfl, hcells, hgone, hd⟩
      refine Performs.pure ⟨lodged_multi hcells hd fun hs => by simp [isSole, hs], fun hproper => ?_⟩
      obtain ⟨hsheds, htrades⟩ := hgone hproper
      rw [holdings_multi, holdings_multi, List.map_map, List.map_map, add_zero]
      exact ⟨.multi hsheds, htrades⟩
  | _ => exact absurd hk (by simp [kind])

theorem brings_toggler {key : Key} {child : View} {parent : Option NodeId} (inner : Mountable u child)
    (not_sole : child.isSole = false) (ih : Brings u child child.patchAs)
    : Brings u (.toggler key child parent) (toggler key child parent).patchAs := by
  refine brings_of_kind (Mountable.toggler inner not_sole).lodges ?_
  intro old F sole s h hk howns hprecedes hd _
  generalize hp : s.node = p at howns
  cases howns with
  | @toggler oldKey oldChild _ _ owns old_not_sole =>
    subst hp
    have htakes : Incoming.Takes u ⟨child, child.patchAs⟩ := ⟨inner.lodges, ih, not_sole⟩
    rw [patchAs]
    split
    . next heq =>
      have hchild : u.proper → Precedes u oldChild child := by
        intro hproper
        cases hprecedes hproper with
        | replaced kind => exact absurd rfl kind
        | toggler hinner => exact hinner heq
      refine (htakes.patch_performs owns old_not_sole hchild hd).finish ?_
      rintro v x d ⟨⟨G, hG, hstands, hv, hd⟩, hgone⟩
      subst heq
      refine ⟨⟨G, .toggler hG (by simpa using hv), fun hp => standsFor_toggler (hstands hp),
        by simp [isSole], hd⟩, fun hproper => ?_⟩
      obtain ⟨hsheds, htrades⟩ := hgone hproper
      rw [holdings_toggler, holdings_toggler]
      exact ⟨.toggler hsheds, htrades⟩
    -- Under another key the child is replaced, even by one of its own kind.
    . next hne =>
      have hsupersede := supersede_performs inner.lodges owns old_not_sole hd child.isSole
        fun v => .toggler key v (some s.node)
      refine hsupersede.mono ?_
      rintro _ _ d ⟨v, rfl, rfl, G, hG, hstands, hv, hd⟩
      rw [not_sole] at hv
      refine ⟨⟨G, .toggler hG (by simpa using hv), fun hp => standsFor_toggler (hstands hp),
        by simp [isSole], hd⟩, fun _ => ⟨.toggled hne, ?_⟩⟩
      rw [holdings_toggler, holdings_toggler]
      exact trades_superseded _ _ _
  | _ => exact absurd hk (by simp [kind])

theorem brings_component {name : String} {child : Option View} {node : Option NodeId}
    (custom : u.custom) (inner : ∀ w, child = some w → Mountable u w)
    (not_sole : ∀ w, child = some w → w.isSole = false)
    (ih : ∀ w, child = some w → Brings u w w.patchAs)
    : Brings u (.component name child node) (component name child node).patchAs := by
  refine brings_of_kind (Mountable.component custom inner not_sole).lodges ?_
  intro old F sole s h hk howns hprecedes hd _
  have hprecedes := hprecedes (u.proper_of_custom custom)
  generalize hp : s.node = p at howns
  cases howns with
  | @component oldName oldChild id _ c F _ absent owns old_not_sole =>
    subst hp
    have hsame : oldChild.isSome = child.isSome ∧
        ∀ a b, oldChild = some a → child = some b → Precedes u a b := by
      cases hprecedes with
      | replaced kind => exact absurd rfl kind
      | component isSome hinner => exact ⟨isSome, hinner⟩
    have hlog : Settles u.proper (log [.component oldName (.patch true)]) h
        fun _ d => d.Carries s (.cons (id, c) F .nil) := Performs.log (by simp [Entry.isQuiet]) rfl hd
    cases oldChild with
    | none =>
      cases child with
      | some _ => exact absurd hsame.1 (by simp)
      | none =>
        rw [patchAs]
        . refine Performs.settled hlog ?_
          intro _ h₁ hd
          exact Performs.pure ⟨⟨_, .component custom absent (by simp) (by simp),
            fun _ => standsFor_component rfl (by simp), by simp [isSole], hd⟩, fun _ => ⟨.leaf, .keep _⟩⟩
        . simp
    | some a =>
      cases child with
      | none => exact absurd hsame.1 (by simp)
      | some w =>
        rw [patchAs]
        refine Performs.settled hlog ?_
        intro _ h₁ hd
        have htakes : Incoming.Takes u ⟨w, w.patchAs⟩ := ⟨(inner w rfl).lodges, ih w rfl, not_sole w rfl⟩
        have hd : h₁.document.Carries (s.inside id) F := Document.Carries.inside_iff.2 hd
        have howns : Owns u a (s.inside id).node F := owns a rfl
        refine (htakes.patch_performs howns (old_not_sole a rfl) (fun _ => hsame.2 a w rfl rfl)
          hd).finish ?_
        rintro v x d ⟨⟨G, hG, hstands, hv, hd⟩, hgone⟩
        refine ⟨⟨.cons (id, c) G .nil, .component custom (by simp) (fun x hx => ?_) (fun x hx => ?_),
          fun hp => ?_, by simp [isSole], Document.Carries.inside_iff.1 hd⟩, fun hp => ?_⟩
        . cases hx
          exact hG
        . cases hx
          simpa using hv
        . refine standsFor_component rfl ?_
          rintro a b ⟨⟩ ⟨⟩
          exact hstands hp
        . obtain ⟨hsheds, htrades⟩ := hgone hp
          refine ⟨.component hsheds, ?_⟩
          have hkeep : Trades u.faithful ({⟨oldName, id, s.node⟩}, 0) 0 ({⟨oldName, id, s.node⟩}, 0) :=
            .keep _
          have := hkeep.add htrades
          rw [holdings_component, holdings_component]
          rwa [zero_add] at this
  | ghost =>
    cases hprecedes with
    | replaced kind => exact absurd rfl kind
  | _ => exact absurd hk (by simp [kind])

theorem brings_ghost (custom : u.custom) : Brings u .ghost ghost.patchAs := by
  refine brings_of_kind (Mountable.ghost custom).lodges ?_
  intro old F sole s h hk howns hprecedes hd _
  have hprecedes := hprecedes (u.proper_of_custom custom)
  cases howns with
  | ghost =>
    rw [patchAs]
    have hlog : Settles u.proper (log [.ghost (.patch true)]) h fun _ d => d.Carries s .nil :=
      Performs.log (by simp [Entry.isQuiet]) rfl hd
    refine Performs.settled hlog ?_
    intro _ h₁ hd
    exact Performs.pure ⟨⟨.nil, .ghost custom, fun _ _ hnext => hnext, by simp [isSole], hd⟩,
      fun _ => ⟨.ghost, .keep _⟩⟩
  | component =>
    cases hprecedes with
    | replaced kind => exact absurd rfl kind
  | _ => exact absurd hk (by simp [kind])

end Nested

section Block

variable {template : Template} {S : Marked} {root p : NodeId} {references : List NodeId}
  {held : NodeId → Content} {guests : Nat → Forest (NodeId × Content)}

theorem updateLocations_settles (copied : template.Copied root references S) (data old : Data)
    (hd : h.document.Carries s (S.filled held guests))
    : Settles u.proper (updateLocations template references data old) h
        fun _ d => d.Carries s (S.filled held guests) := by
  have hbound : ∀ l ∈ template.wiring.locations, ∃ b ∈ S.bounds, l.resolve references = some b := by
    intro l hl
    have hmem : l.resolve references ∈ S.bounds.map some := copied.bounds ▸ List.mem_map_of_mem hl
    obtain ⟨b, hb, heq⟩ := List.mem_map.1 hmem
    exact ⟨b, hb, heq.symm⟩
  unfold updateLocations
  generalize template.wiring.locations = ls at hbound
  induction ls generalizing h with
  | nil => exact Performs.pure ⟨rfl, hd⟩
  | cons l ls ih =>
    obtain ⟨b, hb, hl⟩ := hbound l List.mem_cons_self
    obtain ⟨hx, -, -⟩ := Template.Location.resolve_eq_some hl
    have hwrite : Settles u.proper (do
        let value := data.at l.dataIndex
        let before := old.at l.dataIndex
        if !before.same value then
          l.binding.update (← Template.reference references l.reference) value before) h
        fun _ d => d.Carries s (S.filled held guests) := by
      dsimp only
      split
      . refine Performs.bind_ok (Template.Wiring.reference_eq_ok hx) rfl rfl ?_
        exact (Template.Binding.update_rewrites _ _ l.binding l.binding.named_true).settles
          (Template.Binding.update_calm _ _ l.binding) hd (copied.mem_bonds hb)
      . exact Performs.pure ⟨rfl, hd⟩
    refine Performs.settled hwrite ?_
    intro _ h' hd
    exact ih hd fun l' hl' => hbound l' (List.mem_cons_of_mem _ hl')

theorem patchSlot_performs {slot : Template.ChildSlot} {o : Opening}
    (hso : slot.resolve references = some o) (hnode : s.node = o.parent)
    (hanchor : ∀ x, o.anchor = some x → x ∈ s.others) (hsole : o.sole → s.others = 0)
    {children : List (Option View)} {incoming : List (Option Incoming)} {v next : Option View}
    (hv : children[o.index]? = some v)
    (hnext : incoming[o.index]? = some (next.map fun w => ⟨w, w.patchAs⟩))
    (htakes : ∀ w, next = some w → Lodges u w ∧ Brings u w w.patchAs)
    (howns : ∀ a, v = some a → Owns u a o.parent F ∧ (a.isSole → o.sole))
    (habsent : v = none → F = .nil)
    (hprecedes : ∀ a b, v = some a → next = some b → u.proper → Precedes u a b)
    (hd : h.document.Carries s F)
    : Performs u.proper (patchSlot references (children, incoming) slot) h fun state x d =>
        ∃ G v', state.1[o.index]? = some v' ∧ Houses u o v' next G ∧
          Follows u o.parent v next v' x ∧
            (∀ i, i ≠ o.index → state.1[i]? = children[i]? ∧ state.2[i]? = incoming[i]?) ∧
              d.Carries s G := by
  obtain ⟨hindex, hslot, hparent, -⟩ := Template.ChildSlot.resolve_eq_some hso
  have hset : ∀ v' : Option View, (children.set o.index v')[o.index]? = some v' :=
    fun v' => List.getElem?_set_self (List.getElem?_eq_some_iff.1 hv).1
  unfold patchSlot
  simp only [hindex, hslot, hv, hnext, Option.join_some]
  -- The entry of the slot is used up, whatever becomes of its child.
  have hkeep : ∀ (v' : Option View) (next' : Option Incoming) (i : Nat), i ≠ o.index →
      (children.set o.index v')[i]? = children[i]? ∧ (incoming.set o.index next')[i]? = incoming[i]? :=
    fun _ _ i hne => ⟨List.getElem?_set_ne hne.symm, List.getElem?_set_ne hne.symm⟩
  cases v with
  | none =>
    obtain rfl := habsent rfl
    cases next with
    | none =>
      refine Performs.pure ⟨.nil, none, hv, .absent, .absent, fun i hne => ⟨rfl, ?_⟩, hd⟩
      exact List.getElem?_set_ne hne.symm
    | some w =>
      refine Performs.bind_ok (Template.Wiring.reference_eq_ok hparent) rfl rfl ?_
      refine Performs.bind_ok (Template.anchor_eq_ok hso) rfl rfl ?_
      rw [← hnode]
      refine ((htakes w rfl).1 o.sole s h _ hd (.of_others hanchor)).finish ?_
      rintro v' _ d ⟨⟨G, hG, hstands, hvsole, hd⟩, rfl⟩
      rw [hnode] at hG ⊢
      exact ⟨G, some v', hset _, .present hG hstands hvsole, .come w v', hkeep _ _, hd⟩
  | some a =>
    obtain ⟨howns, hasole⟩ := howns a rfl
    rw [← hnode] at howns
    cases next with
    | none =>
      refine (howns.tearDown_performs hd fun hs => hsole (hasole hs)).finish ?_
      rintro _ _ d ⟨rfl, -, hd⟩
      rw [hnode]
      exact ⟨.nil, none, hset _, .absent, .leave a, hkeep _ _, hd⟩
    | some w =>
      have ho : (o.sole || a.isSole) → s.others = 0 := by
        intro hs
        rcases Bool.or_eq_true_iff.1 hs with hs | hs
        . exact hsole hs
        . exact hsole (hasole hs)
      refine ((htakes w rfl).2 a F o.sole s h howns (hprecedes a w rfl rfl) hd ho).finish ?_
      rintro v' x d ⟨⟨G, hG, hstands, hvsole, hd⟩, hgone⟩
      have hvsole : v'.isSole → o.sole := by
        intro hs
        rcases Bool.or_eq_true_iff.1 (hvsole hs) with hs | hs
        . exact hs
        . exact hasole hs
      rw [hnode] at hgone
      exact ⟨G, some v', hset _, .present (hnode ▸ hG) hstands hvsole, .kept hgone, hkeep _ _, hd⟩

theorem patchSlots_performs (copied : template.Copied root references S)
    (indices : (template.wiring.slots.map (·.index)).Nodup)
    {children oldChildren : List (Option View)}
    (hchild : ∀ w, some w ∈ children → Lodges u w ∧ Brings u w w.patchAs)
    (capacity : ∀ slot ∈ template.wiring.slots, slot.index < children.length)
    (oldCapacity : ∀ slot ∈ template.wiring.slots, slot.index < oldChildren.length)
    (owns : ∀ o ∈ S.openings s.node, ∀ v, oldChildren[o.index]? = some (some v) →
      Owns u v o.parent (guests o.index))
    (hsole : ∀ o ∈ S.openings s.node, ∀ v, oldChildren[o.index]? = some (some v) → v.isSole → o.sole)
    (absent : ∀ o ∈ S.openings s.node, oldChildren[o.index]? = some none → guests o.index = .nil)
    (hprecedes : ∀ slot ∈ template.wiring.slots, ∀ (a b : View),
      oldChildren[slot.index]? = some (some a) → children[slot.index]? = some (some b) →
        u.proper → Precedes u a b)
    (hd : h.document.Carries s (S.filled held guests))
    : Performs u.proper (template.wiring.slots.foldlM (patchSlot references)
        (oldChildren, incomingChildren children)) h fun state x d =>
          ∃ guests' : Nat → Forest (NodeId × Content),
            (∀ o ∈ S.openings s.node, ∃ v w, state.1[o.index]? = some v ∧
              children[o.index]? = some w ∧ Houses u o v w (guests' o.index)) ∧
            (∀ i, (∀ o ∈ S.openings s.node, i ≠ o.index) → state.1[i]? = oldChildren[i]?) ∧
            (∃ changes : Nat → Exchange, x = ((S.openings s.node).map fun o => changes o.index).sum ∧
              ∀ o ∈ S.openings s.node, Follows u o.parent oldChildren[o.index]?.join
                children[o.index]?.join state.1[o.index]?.join (changes o.index)) ∧
              d.Carries s (S.filled held guests') := by
  refine (Template.slots_performs copied indices (fun state i => (state.1[i]?, state.2[i]?))
    (fun o cell G => cell = (oldChildren[o.index]?, (incomingChildren children)[o.index]?) ∧
      G = guests o.index)
    (fun o cell x G => (∃ v w, cell.1 = some v ∧ children[o.index]? = some w ∧ Houses u o v w G) ∧
      Follows u o.parent oldChildren[o.index]?.join children[o.index]?.join cell.1.join x) ?_ hd
    fun o ho => ⟨rfl, rfl⟩).mono ?_
  . rintro slot o ⟨current, incoming⟩ h site G hso ho hnode hanchor hsite ⟨hcell, rfl⟩ hd
    obtain ⟨hcurrent, hincoming⟩ := Prod.mk.inj hcell
    obtain ⟨t, ht, hi⟩ := copied.exists_slot ho
    have hlt := capacity t ht
    have hlt' := oldCapacity t ht
    have hpair := hprecedes t ht
    rw [hi] at hlt hlt' hpair
    obtain ⟨w, hw⟩ : ∃ w, children[o.index]? = some w := ⟨_, List.getElem?_eq_getElem hlt⟩
    obtain ⟨v, hv⟩ : ∃ v, oldChildren[o.index]? = some v := ⟨_, List.getElem?_eq_getElem hlt'⟩
    have hnext : incoming[o.index]? = some (w.map fun w => ⟨w, w.patchAs⟩) := by
      rw [hincoming, incomingChildren_getElem?, hw]
      rfl
    have htakes : ∀ b, w = some b → Lodges u b ∧ Brings u b b.patchAs := by
      rintro b rfl
      exact hchild b (List.mem_of_getElem? hw)
    have howns : ∀ a, v = some a → Owns u a o.parent (guests o.index) ∧ (a.isSole → o.sole) := by
      rintro a rfl
      exact ⟨owns o ho a hv, hsole o ho a hv⟩
    have habsent : v = none → guests o.index = .nil := by
      rintro rfl
      exact absent o ho hv
    have hpair : ∀ a b, v = some a → w = some b → u.proper → Precedes u a b := by
      rintro a b rfl rfl
      exact hpair a b hv hw
    refine (patchSlot_performs hso hnode hanchor hsite (hcurrent.trans hv) hnext htakes howns habsent
      hpair hd).mono ?_
    rintro state x d ⟨G, v', hv', housed, hfollows, hkeep, hd⟩
    refine ⟨G, ⟨⟨v', w, hv', hw, housed⟩, ?_⟩, fun i hne => Prod.ext (hkeep i hne).1 (hkeep i hne).2, hd⟩
    dsimp only
    rw [hv, hw, hv']
    exact hfollows
  . rintro ⟨current, incoming⟩ _ d ⟨guests', changes, rfl, hafter, hothers, hd⟩
    refine ⟨guests', fun o ho => (hafter o ho).1, fun i hi => ?_,
      ⟨changes, rfl, fun o ho => (hafter o ho).2⟩, hd⟩
    exact congrArg Prod.fst (hothers i hi)

theorem sheds_block (copied : template.Copied root references S)
    (indices : (template.wiring.slots.map (·.index)).Nodup) (hp : u.proper) {data oldData : Data}
    {children oldChildren current : List (Option View)} {mounted : Option Anchorage}
    (oldCapacity : ∀ slot ∈ template.wiring.slots, slot.index < oldChildren.length)
    (capacity : ∀ slot ∈ template.wiring.slots, slot.index < current.length)
    (hcallback : u.faithful → ∀ l ∈ template.wiring.locations, l.binding = .ref →
      (oldData.at l.dataIndex).label? = (data.at l.dataIndex).label?)
    {changes : Nat → Exchange}
    (hfollows : ∀ o ∈ S.openings p, Follows u o.parent oldChildren[o.index]?.join
      children[o.index]?.join current[o.index]?.join (changes o.index))
    : Sheds p (.block template oldData oldChildren (some ⟨root, references⟩))
        (.block template data children mounted) ((S.openings p).map fun o => changes o.index).sum.2 ∧
      Trades u.faithful (holdings p (.block template oldData oldChildren (some ⟨root, references⟩)))
        ((S.openings p).map fun o => changes o.index).sum
        (holdings p (.block template data current (some ⟨root, references⟩))) := by
  constructor
  . have hgone : ((S.openings p).map fun o => changes o.index).sum.2
        = (template.wiring.slots.map fun slot => (changes slot.index).2).sum := by
      have hindices := congrArg (List.map fun i => (changes i).2) (copied.indices_eq p)
      rw [List.map_map, List.map_map] at hindices
      rw [← AddMonoidHom.coe_snd, map_list_sum, List.map_map]
      exact congrArg List.sum hindices
    obtain ⟨place, hplace⟩ : ∃ place : Nat → NodeId, ∀ o ∈ S.openings p, place o.index = o.parent := by
      refine ⟨fun i => (template.parentAt references i).getD p, fun o ho => ?_⟩
      simp only [parentAt_eq copied indices ho, Option.getD_some]
    obtain ⟨gone, hchanges⟩ : ∃ gone : Nat → Multiset Lodger, ∀ i, (changes i).2 = gone i :=
      ⟨_, fun _ => rfl⟩
    have hparent : ∀ slot ∈ template.wiring.slots,
        template.parentAt references slot.index = some (place slot.index) := by
      intro slot hs
      obtain ⟨o, ho, hso⟩ := copied.exists_opening hs p
      rw [hso, parentAt_eq copied indices ho, hplace o ho]
    simp only [hgone, hchanges]
    refine .block hparent fun slot hs => ?_
    obtain ⟨o, ho, hso⟩ := copied.exists_opening hs p
    rw [hso, hplace o ho, ← hchanges]
    exact (hfollows o ho hp).1
  . rw [holdings_copied copied indices oldCapacity, holdings_copied copied indices capacity]
    have hlinks : Trades u.faithful (0, (template.links references oldData : Multiset Link)) 0
        (0, (template.links references data : Multiset Link)) := by
      refine ⟨rfl, fun hf => ?_⟩
      rw [Template.links_congr (hcallback hf)]
      rfl
    have := hlinks.add (.sum fun o ho => (hfollows o ho hp).2)
    rwa [zero_add] at this

theorem patchBlock_performs {data oldData : Data} {children oldChildren : List (Option View)}
    {mounted : Option Anchorage} (mountable : Mountable u (.block template data children mounted))
    (old_mountable : Mountable u (.block template oldData oldChildren none))
    (copied : template.Copied root references S)
    (ih : ∀ w, some w ∈ children → Brings u w w.patchAs)
    (owns : ∀ o ∈ S.openings s.node, ∀ v, oldChildren[o.index]? = some (some v) →
      Owns u v o.parent (guests o.index))
    (hsole : ∀ o ∈ S.openings s.node, ∀ v, oldChildren[o.index]? = some (some v) → v.isSole → o.sole)
    (absent : ∀ o ∈ S.openings s.node, oldChildren[o.index]? = some none → guests o.index = .nil)
    (hcallback : u.proper → u.faithful → ∀ l ∈ template.wiring.locations, l.binding = .ref →
      (oldData.at l.dataIndex).label? = (data.at l.dataIndex).label?)
    (hprecedes : ∀ slot ∈ template.wiring.slots, ∀ (a b : View),
      oldChildren[slot.index]? = some (some a) → children[slot.index]? = some (some b) →
        u.proper → Precedes u a b)
    (hd : h.document.Carries s (S.filled held guests)) (sole : Bool)
    : Performs u.proper (do
        let state ← template.wiring.slots.foldlM (patchSlot references)
          (oldChildren, incomingChildren children)
        return .block template data state.1 (some ⟨root, references⟩)) h
        (Succeeds u (.block template data children mounted)
          (.block template oldData oldChildren (some ⟨root, references⟩)) sole s) := by
  cases old_mountable with
  | block _ _ _ oldCapacity oldPlaced oldChild =>
  cases mountable with
  | block known compiled indices capacity placed child =>
    refine (patchSlots_performs copied indices (fun w hw => ⟨(child w hw).lodges, ih w hw⟩) capacity
      oldCapacity owns hsole absent hprecedes hd).finish ?_
    rintro ⟨current, incoming⟩ x d ⟨guests', houses, hothers, ⟨changes, rfl, hfollows⟩, hd⟩
    have hlodged : Lodged u (.block template data children mounted) sole s
        (.block template data current (some ⟨root, references⟩)) d :=
      lodged_block (.block known compiled indices capacity placed child) copied houses
        (fun i w hw => ⟨oldChild w (List.mem_of_getElem? hw), fun hc => oldPlaced hc i w hw⟩) hothers hd
    refine ⟨hlodged, fun hproper => ?_⟩
    obtain ⟨_, howns, -⟩ := hlodged
    cases howns.mountable with
    | block _ _ _ currentCapacity =>
      exact sheds_block copied indices hproper oldCapacity currentCapacity (hcallback hproper) hfollows

theorem brings_block {data : Data} {children : List (Option View)} {mounted : Option Anchorage}
    (mountable : Mountable u (.block template data children mounted))
    (ih : ∀ w, some w ∈ children → Brings u w w.patchAs)
    : Brings u (.block template data children mounted)
        (block template data children mounted).patchAs := by
  refine brings_of_kind mountable.lodges ?_
  intro old F sole s h hk howns hprecedes hd _
  generalize hp : s.node = p at howns
  cases howns with
  | @block oldTemplate oldData oldChildren root _ references S held guests old_mountable copied owns
      hsole absent =>
    subst hp
    have hprecedes : u.proper → oldTemplate = template ∧
        (u.faithful → ∀ l ∈ oldTemplate.wiring.locations, l.binding = .ref →
          (oldData.at l.dataIndex).label? = (data.at l.dataIndex).label?) ∧
        ∀ slot ∈ oldTemplate.wiring.slots, ∀ (a b : View), oldChildren[slot.index]? = some (some a) →
          children[slot.index]? = some (some b) → Precedes u a b := by
      intro hproper
      cases hprecedes hproper with
      | replaced kind => exact absurd rfl kind
      | block hcallback hchild => exact ⟨rfl, hcallback, hchild⟩
    rw [patchAs]
    split
    . next hne =>
      exact Performs.throw (fun hproper => hne (congrArg _ (hprecedes hproper).1)) hd.orderly
    next heq =>
    obtain rfl : oldTemplate = template := by
      by_cases hproper : u.proper
      . exact (hprecedes hproper).1
      . exact u.unique hproper old_mountable.known mountable.known (not_not.1 heq)
    have hslots := fun (h : Host) (hd : h.document.Carries s (S.filled held guests)) =>
      patchBlock_performs mountable old_mountable copied ih owns hsole absent
        (fun hproper => (hprecedes hproper).2.1)
        (fun slot hs a b ha hb hproper => (hprecedes hproper).2.2 slot hs a b ha hb) hd
        (sole || (block oldTemplate oldData oldChildren (some ⟨root, references⟩)).isSole)
    split
    . refine Performs.settled (updateLocations_settles copied data oldData hd) ?_
      intro _ h' hd
      exact hslots h' hd
    . exact hslots h hd
  | _ => exact absurd hk (by simp [kind])

end Block

theorem Mountable.brings (hw : Mountable u w) : Brings u w w.patchAs := by
  induction hw with
  | text => exact brings_text
  | html => exact brings_html
  | list item not_sole ih => exact brings_list item not_sole ih
  | multi child not_sole ih => exact brings_multi child not_sole ih
  | toggler inner not_sole ih => exact brings_toggler inner not_sole ih
  | block known compiled indices capacity placed child ih =>
    exact brings_block (.block known compiled indices capacity placed child) ih
  | component custom inner not_sole ih => exact brings_component custom inner not_sole ih
  | ghost custom => exact brings_ghost custom

end View
end VirtualDom
