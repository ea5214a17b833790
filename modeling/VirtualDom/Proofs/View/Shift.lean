import VirtualDom.Proofs.View.Renewal

/-!
This module contains what moving does to the siblings of a view: its nodes come together before the
target, in the order of the view, and everything else stays as it is.
-/

namespace VirtualDom

open Engine
open Document (Place Site Standing)

variable {h : Host} {d d' : Document} {p : NodeId} {target : Option NodeId} {ids ids' : List NodeId}
  {F : Forest (NodeId × Content)}

section Lists

theorem head?_filter {ys : List NodeId} (ht : ∀ id ∈ ids, ys.head? ≠ some id)
    : (ys.filter (· ∉ ids)).head? = ys.head? := by
  cases ys with
  | nil => rfl
  | cons y ys =>
    have hy : y ∉ ids := fun hy => ht y hy rfl
    rw [List.filter_cons_of_pos (by simpa using hy)]
    rfl

theorem filter_filter_append (ks : List NodeId)
    : (ks.filter (· ∉ ids)).filter (· ∉ ids') = ks.filter (· ∉ ids ++ ids') := by
  rw [List.filter_filter]
  congr 1
  funext x
  simp [Bool.and_comm]

theorem filter_eq_self_of_disjoint (hnd : (ids ++ ids').Nodup) : ids.filter (· ∉ ids') = ids := by
  rw [List.filter_eq_self]
  intro x hx
  simpa using List.disjoint_of_nodup_append hnd hx

end Lists

/--
The action takes children of `p` to right before `target`, where they are in the order of `ids`, and
does nothing else.
-/
def Shifts (x : Engine Unit) (p : NodeId) (target : Option NodeId) (ids : List NodeId) : Prop :=
  ∀ (h : Host) (a : Option NodeId) (c : Content) (before after : List NodeId)
    (M : Multiset (NodeId × Standing)), h.document.Holds ((p, ⟨a, before ++ after, c⟩) ::ₘ M) →
    after.head? = target → ids.Nodup → (∀ id ∈ ids, id ∈ before ++ after ∧ target ≠ some id) →
      ∃ d, x h = .ok () { h with document := d } ∧
        d.Holds ((p, ⟨a, before.filter (· ∉ ids) ++ ids ++ after.filter (· ∉ ids), c⟩) ::ₘ M)

namespace Shifts

variable {x y : Engine Unit} {id : NodeId}

theorem nil : Shifts (pure ()) p target [] := by
  intro h a c before after M hd _ _ _
  refine ⟨h.document, rfl, ?_⟩
  simpa using hd

theorem tree : Shifts (insert p id target) p target [id] := by
  rintro h a c before after M hd rfl - hids
  obtain ⟨hid, hself⟩ := hids id List.mem_cons_self
  have hnd := hd.wellFormed.nodup_children hd.head
  obtain ⟨us, vs, hs⟩ := List.append_of_mem hid
  have hothers : us ++ vs = before.filter (· ∉ [id]) ++ after.filter (· ∉ [id]) := by
    rw [← List.filter_append, hs]
    rw [hs, List.nodup_middle, List.nodup_cons, List.mem_append, not_or] at hnd
    rw [List.filter_append, List.filter_cons_of_neg (by simp)]
    congr 1
    . exact (List.filter_eq_self.2 fun x hx => by
        simpa using fun heq : x = id => hnd.1.1 (heq ▸ hx)).symm
    . exact (List.filter_eq_self.2 fun x hx => by
        simpa using fun heq : x = id => hnd.1.2 (heq ▸ hx)).symm
  rw [hs] at hd
  obtain ⟨d, hd, hM⟩ := hd.move hothers
  rw [head?_filter (by simpa using hself)] at hd
  refine ⟨d, edit_eq_ok hd, ?_⟩
  simpa using hM

theorem append (hx : Shifts x p target ids) (hy : Shifts y p target ids')
    : Shifts (do x; y) p target (ids ++ ids') := by
  intro h a c before after M hd ht hnd hids
  obtain ⟨hids, hids'⟩ := List.forall_mem_append.1 hids
  obtain ⟨hnd₁, hnd₂, hdisjoint⟩ := List.nodup_append'.1 hnd
  obtain ⟨d₁, hx, hd⟩ := hx h a c before after M hd ht hnd₁ hids
  have hstill : ∀ id ∈ ids', id ∈ before.filter (· ∉ ids) ++ ids ++ after.filter (· ∉ ids) ∧
      target ≠ some id := by
    intro id hid
    obtain ⟨hmem, hself⟩ := hids' id hid
    have hnot : id ∉ ids := fun h => hdisjoint h hid
    simp only [List.mem_append] at hmem
    simp [hmem, hnot, hself]
  have ht' : (after.filter (· ∉ ids)).head? = target := by
    rw [head?_filter fun id hid => ht ▸ (hids id hid).2, ht]
  obtain ⟨d₂, hy, hd⟩ := hy { h with document := d₁ } a c _ _ M hd ht' hnd₂ hstill
  refine ⟨d₂, (bind_run hx).trans hy, ?_⟩
  rw [List.filter_append, filter_filter_append, filter_filter_append, filter_eq_self_of_disjoint hnd]
    at hd
  simpa [List.append_assoc] using hd

theorem led {f : Option NodeId → Engine Unit} (hf : f (some p) = insert p id target)
    : Shifts (do f (← read (·.parent id))) p target [id] := by
  intro h a c before after M hd ht hnd hids
  obtain ⟨ks, e, hid⟩ := hd.wellFormed.standing?_child hd.head (hids id List.mem_cons_self).1
  obtain ⟨n, hn, hp, -⟩ := Document.standing?_eq_some.1 hid
  have hparent : h.document.parent id = .ok (some p) := Document.parent_eq_ok.2 ⟨n, hn, hp⟩
  rw [bind_run (read_eq_ok hparent), hf]
  exact tree h a c before after M hd ht hnd hids

theorem piecemeal : View.Piecemeal p target fun x F => Shifts x p target F.rootIds where
  nil := nil
  tree hF := hF ▸ tree
  led hF hf := hF ▸ led hf
  append hx hy := by
    rw [Forest.rootIds_append]
    exact hx.append hy

end Shifts

namespace View

variable {u : Usage} {alloc : Allocations} {session : Session} {views : Multiset View} {v w : View}
  {s : Site} {pl : Place} {ks : List NodeId}

theorem Owns.shifts (hv : Owns u v p F) (hc : ¬ u.custom)
    : Shifts (v.moveBefore target) p target v.nodes :=
  hv.nodes_eq ▸ hv.piecemeal Shifts.piecemeal fun custom => absurd custom hc

theorem Draws.shifts (hv : Draws alloc v p F) : Shifts (v.moveBefore target) p target v.nodes :=
  hv.nodes_eq ▸ hv.piecemeal Shifts.piecemeal

/--
The view has its nodes among the children `ks` of `p`. Moved to the end or before another child, it has
them right there, in its order; the other children keep theirs, and nothing else changes.
-/
structure Movable (v : View) (h : Host) (p : NodeId) (ks : List NodeId) : Prop where
  parentNode : v.parentNode h.document = .ok (some p)
  children : h.document.children p = .ok ks
  nodes : v.nodes ⊆ ks
  nodup : v.nodes.Nodup
  moves : ∀ target, (∀ x, target = some x → x ∈ ks ∧ x ∉ v.nodes) →
    ∃ d before after, v.moveBefore target h = .ok () { h with document := d } ∧ d.WellFormed ∧
      before ++ after = ks.filter (· ∉ v.nodes) ∧ after.head? = target ∧
      d.children p = .ok (before ++ v.nodes ++ after) ∧
      d.standing? p = (h.document.standing? p).map ({ · with children := before ++ v.nodes ++ after }) ∧
      ∀ x, x ≠ p → d.standing? x = h.document.standing? x

theorem Movable.of_holds {a : Option NodeId} {c : Content} {M : Multiset (NodeId × Standing)}
    (hd : h.document.Holds ((p, ⟨a, ks, c⟩) ::ₘ M)) (hparent : v.parentNode h.document = .ok (some p))
    (hsub : v.nodes ⊆ ks) (hnd : v.nodes.Nodup)
    (hshifts : ∀ target, Shifts (v.moveBefore target) p target v.nodes) : Movable v h p ks := by
  refine ⟨hparent, hd.wellFormed.children_of_standing? hd.head, hsub, hnd, fun target ht => ?_⟩
  obtain ⟨xs, ys, rfl, rfl⟩ : ∃ xs ys, ks = xs ++ ys ∧ ys.head? = target := by
    cases target with
    | none => exact ⟨ks, [], (List.append_nil _).symm, rfl⟩
    | some x =>
      obtain ⟨xs, ys, rfl⟩ := List.append_of_mem (ht x rfl).1
      exact ⟨xs, x :: ys, rfl, rfl⟩
  have hother : ∀ id ∈ v.nodes, ys.head? ≠ some id := fun id hid heq => (ht id heq).2 hid
  obtain ⟨d, hmove, hM⟩ := hshifts _ h a c xs ys M hd rfl hnd fun id hid => ⟨hsub hid, hother id hid⟩
  refine ⟨d, xs.filter (· ∉ v.nodes), ys.filter (· ∉ v.nodes), hmove, hM.wellFormed, ?_,
    head?_filter hother, hM.wellFormed.children_of_standing? hM.head, ?_, fun x hx => ?_⟩
  . rw [List.filter_append]
  . rw [hM.head, hd.head]
    rfl
  . rw [← Multiset.singleton_add] at hd hM
    exact hd.standing?_elsewhere hM (by simpa using hx) (by simpa using hx)

theorem Owns.exists_movable (hv : Owns u v s.node F) (hc : ¬ u.custom) (hd : h.document.Carries s F)
    : ∃ ks, Movable v h s.node ks := by
  obtain ⟨M, hM, hbonds⟩ := hd.holds
  obtain ⟨ks, c, M, rfl, hks, -⟩ :=
    Document.exists_of_bonds_cons (hbonds.trans (by rw [Site.bonds, Multiset.add_cons]))
  have hle : (v.nodes : Multiset NodeId) ≤ ks := by
    rw [hks, hv.nodes_eq]
    exact Multiset.le_add_left _ _
  have hnd := Multiset.coe_nodup.2 (hM.wellFormed.nodup_children hM.head)
  exact ⟨ks, .of_holds hM (hv.parentNode hd (hv.ne_ghost hc)) (Multiset.coe_le.1 hle).subset
    (Multiset.coe_nodup.1 (Multiset.nodup_of_le hle hnd)) fun target => hv.shifts hc⟩

theorem Draws.exists_movable (hv : Draws alloc v pl.node F) (hd : h.document.Shows pl F)
    : ∃ ks, Movable v h pl.node ks ∧ v.nodes <:+: ks := by
  have hM : h.document.Holds (pl.census F) := hd
  rw [Place.census, Multiset.add_cons] at hM
  have hinfix : v.nodes <:+: pl.before ++ F.rootIds ++ pl.after := ⟨_, _, by rw [hv.nodes_eq]⟩
  have hnd := hM.wellFormed.nodup_children hM.head
  refine ⟨_, .of_holds hM (hv.parentNode hd) hinfix.subset (hnd.sublist hinfix.sublist) ?_, hinfix⟩
  exact fun target => hv.shifts

section Theorems

/--
All views in one that is mounted move as a whole, whatever was done with it and with others before. As long
as it was not moved before one of its own nodes, these are next to each other in the order of the view, so
that they keep their order. That a view is mounted is told by its first node, which it has unless it begins
with a multi without children.
-/
theorem Part.movable (hw : Part w v)
    : (∀ views, Stage session (v ::ₘ views) h → v.firstNode.isSome → ∃ p ks, Movable w h p ks) ∧
      ∀ alloc parent, Reached alloc session parent v h → ∃ p ks, Movable w h p ks ∧ w.nodes <:+: ks := by
  constructor
  . intro views hs hn
    obtain ⟨q, F, L, -, hkept, -, hshares, -⟩ := hs.staged.exists_cons
    obtain ⟨s, hseats, -⟩ := exists_seat hkept hshares
    cases hkept with
    | resting _ rests =>
      rw [rests.firstNode_eq] at hn
      cases hn
    | mounted owns =>
      obtain ⟨rfl, hd⟩ := hseats _ rfl
      obtain ⟨s', G, howns, hd⟩ := owns.part hw hd
      obtain ⟨ks, hmovable⟩ := howns.exists_movable id hd
      exact ⟨_, ks, hmovable⟩
  . intro alloc parent hv
    obtain ⟨pl, G, hdraws, hd, -⟩ := hv.mounted hw
    obtain ⟨ks, hmovable⟩ := hdraws.exists_movable hd
    exact ⟨_, ks, hmovable⟩

theorem Part.movable_pair
    : ∃ v w h, pair.mount ⟨0, 0⟩ none .paragraph = .ok v h ∧ Part w v ∧ w.nodes.length < v.nodes.length ∧
        Stage {} (v ::ₘ 0) h ∧ v.firstNode.isSome ∧ Reached noData {} ⟨0, 0⟩ v h ∧
        (∃ p ks, Movable w h p ks) ∧ ∃ p ks, Movable w h p ks ∧ w.nodes <:+: ks := by
  have hbuilt : Built noData pair := .list (by simpa using ⟨.text trivial, .text trivial⟩)
  have hfresh : Fresh {} pair := .list (by simpa using ⟨.text _, .text _⟩)
  obtain ⟨M, hd⟩ := exists_paragraph_place
  obtain ⟨v, h, -, hmount, hfirst, -, hnodes, -⟩ := exists_strays
  obtain ⟨F, -, halike, -⟩ := (mount_yields hbuilt hd).of_ok hmount
  have hfits : (Act.mount ⟨0, 0⟩ none).Fits {} 0 Host.paragraph.document := ⟨rfl, by simp, nofun⟩
  have hstage : Stage {} (v ::ₘ 0) h := .act (.make (.start hd.wellFormed rfl) hfresh) hfits hmount
  have hreached : Reached noData {} ⟨0, 0⟩ v h :=
    .mount hd.wellFormed rfl (by rintro _ ⟨⟩) hbuilt hfresh hmount
  have hsome : v.firstNode.isSome := by rw [hfirst]; rfl
  obtain ⟨w, hw, hlength⟩ : ∃ w, Part w v ∧ w.nodes.length ≤ 1 := by
    cases halike with
    | @list items _ _ _ _ _ _ _ keys item =>
      cases items with
      | nil => cases keys
      | cons first rest =>
        have halike := item 0 first _ rfl rfl
        refine ⟨first.2, .item List.mem_cons_self .self, ?_⟩
        generalize first.2 = w at halike
        cases halike with
        | @text value _ node => cases node <;> simp [nodes]
  exact ⟨v, w, h, hmount, hw, by rw [hnodes]; exact Nat.lt_succ_of_le (Nat.le_succ_of_le hlength), hstage,
    hsome, hreached, hw.movable.1 0 hstage hsome, hw.movable.2 noData ⟨0, 0⟩ hreached⟩

def reorders : Bool :=
  match pair.mount ⟨0, 0⟩ none .paragraph with
  | .ok v h₁ =>
    match v.moveBefore (some ⟨2, 0⟩) h₁ with
    | .ok _ h₂ =>
      match v.moveBefore none h₂ with
      | .ok _ h₃ => (h₂.document.children ⟨0, 0⟩).toOption = some [⟨3, 0⟩, ⟨1, 0⟩, ⟨2, 0⟩] &&
        (h₃.document.children ⟨0, 0⟩).toOption = some [⟨2, 0⟩, ⟨3, 0⟩, ⟨1, 0⟩]
      | .error _ _ => false
    | .error _ _ => false
  | .error _ _ => false

theorem exists_reorders
    : ∃ v h₁ h₂ h₃, pair.mount ⟨0, 0⟩ none .paragraph = .ok v h₁ ∧
        v.moveBefore (some ⟨2, 0⟩) h₁ = .ok () h₂ ∧
        h₂.document.children ⟨0, 0⟩ = .ok [⟨3, 0⟩, ⟨1, 0⟩, ⟨2, 0⟩] ∧ v.moveBefore none h₂ = .ok () h₃ ∧
        h₃.document.children ⟨0, 0⟩ = .ok [⟨2, 0⟩, ⟨3, 0⟩, ⟨1, 0⟩] := by
  have htest : reorders := by decide +kernel
  unfold reorders at htest
  split at htest
  case h_2 => cases htest
  next v h₁ hmount =>
  split at htest
  case h_2 => cases htest
  next h₂ hself =>
  split at htest
  case h_2 => cases htest
  next h₃ hmove =>
  simp only [Bool.and_eq_true, decide_eq_true_eq] at htest
  exact ⟨v, h₁, h₂, h₃, hmount, hself, toOption_eq_some htest.1, hmove, toOption_eq_some htest.2⟩

def balks (t : Template) : Bool :=
  match ofTemplate t ⟨0, []⟩ [some (.ofItems []), some (.ofText (.str "x"))],
    ofTemplate t ⟨0, []⟩ [some (.ofChildren [none]), some (.ofText (.str "x"))] with
  | .ok first, .ok next =>
    match (first.mount ⟨0, 0⟩ none >>= (patch · next)) .paragraph with
    | .ok (.block t _ children _) h =>
      match children[1]?.join with
      | some w =>
        match w.moveBefore none h with
        | .error _ _ => t.wiring.slots.any (·.index = 1)
        | .ok _ _ => false
      | none => false
    | _ => false
  | _, _ => false

/--
A list that was moved before its own first node has its nodes in another order after the next move. Where
a template has a child twice, its other children may not be able to move at all.
-/
theorem moveBefore_reorders
    : (∃ v h₁ h₂ h₃, pair.mount ⟨0, 0⟩ none .paragraph = .ok v h₁ ∧
        v.moveBefore (some ⟨2, 0⟩) h₁ = .ok () h₂ ∧
        h₂.document.children ⟨0, 0⟩ = .ok [⟨3, 0⟩, ⟨1, 0⟩, ⟨2, 0⟩] ∧ v.moveBefore none h₂ = .ok () h₃ ∧
        h₃.document.children ⟨0, 0⟩ = .ok [⟨2, 0⟩, ⟨3, 0⟩, ⟨1, 0⟩]) ∧
      ∃ t first next v₁ h₁ v₂ h₂ w e h₃,
        t.Compiled "<div><p><block-child-0/></p><b><block-child-0/><block-child-1/></b></div>" true ∧
        ofTemplate t ⟨0, []⟩ [some (.ofItems []), some (.ofText (.str "x"))] = .ok first ∧
        ofTemplate t ⟨0, []⟩ [some (.ofChildren [none]), some (.ofText (.str "x"))] = .ok next ∧
        first.mount ⟨0, 0⟩ none .paragraph = .ok v₁ h₁ ∧ patch v₁ next h₁ = .ok v₂ h₂ ∧
        Part w v₂ ∧ w.moveBefore none h₂ = .error e h₃ := by
  refine ⟨exists_reorders, ?_⟩
  have hmakes : Template.makes
      "<div><p><block-child-0/></p><b><block-child-0/><block-child-1/></b></div>" true balks := by
    decide +kernel
  obtain ⟨t, ht, htest⟩ := Template.exists_compiled hmakes
  unfold balks at htest
  split at htest
  case h_2 => cases htest
  next first next hfirst hnext =>
  split at htest
  case h_2 => cases htest
  next t' data children mounted h₂ hrun =>
  obtain ⟨v₁, h₁, hmount, hpatch⟩ := bind_eq_result.1 hrun
  split at htest
  case h_2 => cases htest
  next w hw =>
  split at htest
  case h_2 => cases htest
  next e h₃ hmove =>
  obtain ⟨slot, hslot, hindex⟩ := List.any_eq_true.1 htest
  rw [← of_decide_eq_true hindex] at hw
  exact ⟨t, first, next, v₁, h₁, _, h₂, w, e, h₃, ht, hfirst, hnext, hmount, hpatch,
    .guest hslot (Option.join_eq_some_iff.1 hw) .self, hmove⟩

end Theorems

end View
end VirtualDom
