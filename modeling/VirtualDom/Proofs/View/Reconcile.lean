import VirtualDom.Proofs.View.Ledger
import VirtualDom.Proofs.View.Mount
import VirtualDom.Proofs.View.Remove

/-!
This module contains the correctness of the reconciliation of keyed lists: whatever order its matches
are made in, the nodes of the new items end up in the order of the new list, and there is an account of
what became of each item.
-/

namespace VirtualDom.View

open Engine
open Document (Place Shows)
open Reconcile (Old OldItem Positions)

variable {sure : Prop} {lore : Lore} {pl : Place} {p : NodeId} {h : Host}
  {F : Forest (NodeId × Content)}

def Patches (sure : Prop) (lore : Lore) (w : View) (patch : Bool → View → Engine View) : Prop :=
  ∀ (old : View) (F : Forest (NodeId × Content)) (sole : Bool) (pl : Place) (h : Host),
    lore.Of old pl.node F → Meets sure old w → h.document.Shows pl F →
      (sole || old.isSole → pl.before = [] ∧ pl.after = []) →
        (patch sole old).Gives sure h (Stands lore w (sole || old.isSole) pl)

structure Incoming.Serves (sure : Prop) (lore : Lore) (incoming : Incoming) : Prop where
  mounts : Mounts lore incoming.view
  patches : Patches sure lore incoming.view incoming.patchAs
  patchAs_eq : incoming.patchAs = incoming.view.patchAs
  not_sole : incoming.view.isSole = false

theorem Incoming.Serves.patch_gives {incoming : Incoming} (hi : incoming.Serves sure lore) {old : View}
    (hdraws : lore.Of old pl.node F) (hnot : old.isSole = false)
    (hmeets : Meets sure old incoming.view) (hd : h.document.Shows pl F)
    : (incoming.patch old).Gives sure h fun v h' => ∃ G, lore.Of v pl.node G ∧
        Alike v incoming.view ∧ v.isSole = false ∧ h'.document.Shows pl G := by
  have hsole : (incoming.view.isSole || old.isSole) = false := by
    rw [hi.not_sole, hnot]
    rfl
  have := hi.patches old F incoming.view.isSole pl h hdraws hmeets hd (by simp [hsole])
  rw [hsole] at this
  refine this.mono ?_
  rintro v h' ⟨G, hdraws, halike, hv, hd⟩
  exact ⟨G, hdraws, halike, by simpa using hv, hd⟩

namespace Reconcile

abbrev Left (lore : Lore) (p : NodeId) : Old → Forest (NodeId × Content) → Prop :=
  Spread (lore.Of · p ·)

abbrev Fitting (sure : Prop) (lore : Lore) : Option Positions → Old → List (Key × Incoming) → Prop :=
  Sound (Incoming.Serves sure lore) (Meets sure)

namespace Spread

variable {old : Old} {i : OldItem}

theorem firstNode_eq (h : Left lore p (some i :: old) F) (after : List NodeId)
    : (F.rootIds ++ after).head? = i.view.firstNode := by
  cases h with
  | item draws not_sole rest =>
    rw [Forest.rootIds_append, List.append_assoc]
    exact (lore.draws draws).firstNode_eq _

theorem tearDownAll_yields (hold : Left lore pl.node old F) (hd : h.document.Shows pl F)
    : (tearDownAll old).Yields h fun _ h' => h'.document.Shows pl .nil := by
  generalize hp : pl.node = p at hold
  induction hold generalizing h with
  | nil => exact Yields.pure hd
  | hole rest ih => exact ih hd
  | @item i old G F draws not_sole rest ih =>
    have hd : h.document.Shows (pl.narrow .nil F) G := Document.shows_narrow.2 hd
    have hdraws : lore.Of i.view (pl.narrow .nil F).node G := hp ▸ draws
    have hdown : Yields (i.view.tearDown >>= fun _ => pure ()) h
        fun (_ : PUnit) h' => h'.document.Shows pl F := by
      refine Yields.bind ((lore.draws hdraws).tearDown_yields hd (by simp [not_sole])) ?_
      rintro _ h' ⟨-, hd⟩
      exact Yields.pure (Document.shows_narrow.1 hd)
    refine Yields.bind hdown ?_
    intro _ h' hd
    exact ih hd

end Spread

/--
The items are those of `front` and `back`, the former reversed, and between them some that show the new
ones and have all that is at the place.
-/
def Lined (lore : Lore) (pl : Place) (new : List (Key × Incoming))
    (front back items : List (Key × View)) (h : Host) : Prop :=
  ∃ rows : List Row, items = front.reverse ++ rows.map Row.item ++ back ∧
    List.Forall₂ (fun r e => r.Fits lore pl.node (e.1, e.2.view)) rows new ∧
      h.document.Shows pl (.join (rows.map Row.forest))

section Lined

variable {new : List (Key × Incoming)} {e : Key × Incoming} {front back items : List (Key × View)}
  {r : Row}

theorem Lined.cons (hr : r.Fits lore pl.node (e.1, e.2.view))
    (hl : Lined lore (pl.narrow r.forest .nil) new (r.item :: front) back items h)
    : Lined lore pl (e :: new) front back items h := by
  obtain ⟨rows, rfl, hrows, hd⟩ := hl
  exact ⟨r :: rows, by simp, .cons hr hrows, Document.shows_behind.1 hd⟩

theorem Lined.concat (hr : r.Fits lore pl.node (e.1, e.2.view))
    (hl : Lined lore (pl.narrow .nil r.forest) new front (r.item :: back) items h)
    : Lined lore pl (new ++ [e]) front back items h := by
  obtain ⟨rows, rfl, hrows, hd⟩ := hl
  refine ⟨rows ++ [r], by simp, List.rel_append hrows (.cons hr .nil), ?_⟩
  simpa using Document.shows_narrow.1 hd

theorem Lined.getElem?_front {item : Key × View} (hl : Lined lore pl new (item :: front) back items h)
    : items[front.length]? = some item := by
  obtain ⟨rows, rfl, -⟩ := hl
  simp

theorem Lined.getElem?_back {item : Key × View} (hl : Lined lore pl new front (item :: back) items h)
    : items[front.length + new.length]? = some item := by
  obtain ⟨rows, rfl, hrows, -⟩ := hl
  rw [← hrows.length_eq]
  simp

end Lined

section Step

variable {old : Old} {i : OldItem} {e : Key × Incoming} {A B G : Forest (NodeId × Content)}

theorem patch_gives (he : e.2.Serves sure lore) (hdraws : lore.Of i.view pl.node G)
    (hnot : i.view.isSole = false) (hc : Meets sure i.view e.2.view) (hk : i.key = e.1)
    (hd : h.document.Shows pl (A ++ G ++ B))
    : (e.2.patch i.view).Gives sure h fun v h' => ∃ K,
        Row.Fits lore pl.node ⟨i.key, v, K⟩ (e.1, e.2.view) ∧ h'.document.Shows pl (A ++ K ++ B) ∧
          Handover pl.node i.view e.2.view h v h' := by
  have hd : h.document.Shows (pl.narrow A B) G := Document.shows_narrow.2 hd
  have hdraws : lore.Of i.view (pl.narrow A B).node G := hdraws
  refine (he.patch_gives hdraws hnot hc hd).and_run.mono ?_
  rintro v h' ⟨hrun, K, hK, halike, hv, hd'⟩
  rw [Incoming.patch, he.patchAs_eq] at hrun
  have hhandover := (lore.draws hdraws).handover hnot hd hrun
  exact ⟨K, ⟨hk, halike, hK, hv⟩, Document.shows_narrow.1 hd', hhandover⟩

/-- The items are in line, and there is an account of how they came to be. -/
def Settled (lore : Lore) (pl : Place) (olds news : List (Key × View)) (known : Option Positions)
    (old : Old) (new : List (Key × Incoming)) (front back : List (Key × View)) (h : Host)
    (items : List (Key × View)) (h' : Host) : Prop :=
  Lined lore pl new front back items h' ∧
    ∃ deeds, Ledger pl.node olds news items known old.reduceOption (new.zipIdx front.length) deeds h h'

variable {olds news : List (Key × View)}

variable (sure lore olds news) in
def Loops (anchor : NodeId) (n : Nat) : Prop :=
  ∀ {pl : Place} {h : Host} {F : Forest (NodeId × Content)} {known : Option Positions} {old : Old}
    {new : List (Key × Incoming)} {front back : List (Key × View)}, old.length + new.length < n →
      h.document.Shows pl F → Fitting sure lore known old new → Listed olds news old new front.length →
        Left lore pl.node old F → target back anchor = pl.after.head? →
          (loop pl.node anchor known old new front back).Gives sure h
            (Settled lore pl olds news known old new front back h)

variable {n : Nat} {known : Option Positions} {new : List (Key × Incoming)}
  {front back : List (Key × View)} {anchor : NodeId}

theorem target_cons {key : Key} {v : View} (hv : lore.Of v p F) (after : List NodeId)
    : target ((key, v) :: back) anchor = (F.rootIds ++ after).head? := by
  obtain ⟨id, hid, -⟩ := (lore.draws hv).exists_firstNode
  rw [(lore.draws hv).firstNode_eq, hid, target, List.head?_cons, Option.bind_some, hid]
  rfl

theorem Loops.cons (ih : Loops sure lore olds news anchor n) (hlt : old.length + new.length < n) {r : Row}
    (hr : r.Fits lore pl.node (e.1, e.2.view)) (hd : h.document.Shows pl (r.forest ++ F))
    (hsound : Fitting sure lore known old new) (hlisted : Listed olds news old new (front.length + 1))
    (hold : Left lore pl.node old F) (htarget : target back anchor = pl.after.head?)
    : (loop pl.node anchor known old new (r.item :: front) back).Gives sure h fun items h' =>
        Lined lore pl (e :: new) front back items h' ∧ items[front.length]? = some r.item ∧
          ∃ deeds, Ledger pl.node olds news items known old.reduceOption (new.zipIdx (front.length + 1))
            deeds h h' := by
  have hd : h.document.Shows (pl.narrow r.forest .nil) F := Document.shows_behind.2 hd
  have hlisted : Listed olds news old new (r.item :: front).length := hlisted
  refine (ih hlt hd hsound hlisted hold htarget).mono ?_
  rintro items h' ⟨hl, hledger⟩
  exact ⟨hl.cons hr, hl.getElem?_front, hledger⟩

theorem Loops.concat (ih : Loops sure lore olds news anchor n) (hlt : old.length + new.length < n)
    {r : Row} (hr : r.Fits lore pl.node (e.1, e.2.view)) (hd : h.document.Shows pl (F ++ r.forest))
    (hsound : Fitting sure lore known old new) (hlisted : Listed olds news old new front.length)
    (hold : Left lore pl.node old F)
    : (loop pl.node anchor known old new front (r.item :: back)).Gives sure h fun items h' =>
        Lined lore pl (new ++ [e]) front back items h' ∧
          items[front.length + new.length]? = some r.item ∧
            ∃ deeds, Ledger pl.node olds news items known old.reduceOption (new.zipIdx front.length)
              deeds h h' := by
  have hd : h.document.Shows (pl.narrow .nil r.forest) F := Document.shows_narrow.2 hd
  refine (ih hlt hd hsound hlisted hold (target_cons hr.draws pl.after)).mono ?_
  rintro items h' ⟨hl, hledger⟩
  exact ⟨hl.concat hr, hl.getElem?_back, hledger⟩

theorem zipIdx_concat (start : Nat)
    : ((new ++ [e]).zipIdx start).Perm ((e, start + new.length) :: new.zipIdx start) := by
  rw [List.zipIdx_append, Nat.add_comm]
  exact List.perm_append_singleton _ _

theorem mem_zipIdx_concat (start : Nat) : (e, start + new.length) ∈ (new ++ [e]).zipIdx start :=
  (zipIdx_concat start).mem_iff.2 List.mem_cons_self

variable (he : e.2.Serves sure lore) (hc : Meets sure i.view e.2.view) (hk : i.key = e.1)

include he hc hk

theorem Loops.first_first (ih : Loops sure lore olds news anchor n)
    (hlt : old.length + new.length < n) (hd : h.document.Shows pl F)
    (hsound : Fitting sure lore known old new)
    (hlisted : Listed olds news (some i :: old) (e :: new) front.length)
    (hold : Left lore pl.node (some i :: old) F) (htarget : target back anchor = pl.after.head?)
    : Gives sure (do
        let view ← e.2.patch i.view
        loop pl.node anchor known old new ((i.key, view) :: front) back) h
        (Settled lore pl olds news known (some i :: old) (e :: new) front back h) := by
  cases hold with
  | item draws not_sole rest =>
    refine Gives.bind (patch_gives (A := .nil) he draws not_sole hc hk hd) ?_
    rintro v h' ⟨K, hr, hd, hrun⟩
    have hrest := hlisted.tail.mono fun _ => List.mem_cons_of_mem (some i)
    refine (ih.cons hlt hr hd hsound hrest rest htarget).mono ?_
    rintro items h'' ⟨hl, hitem, deeds, hledger⟩
    refine ⟨hl, _, hledger.pair ?_ (.refl _) hk
      (hlisted.does_pair List.mem_cons_self List.mem_cons_self hk hitem hrun)⟩
    rw [List.reduceOption_cons_of_some]

theorem Loops.last_last (ih : Loops sure lore olds news anchor n)
    (hlt : old.length + new.length < n) (hd : h.document.Shows pl F)
    (hsound : Fitting sure lore known old new)
    (hlisted : Listed olds news (old ++ [some i]) (new ++ [e]) front.length)
    (hold : Left lore pl.node (old ++ [some i]) F)
    : Gives sure (do
        let view ← e.2.patch i.view
        loop pl.node anchor known old new front ((i.key, view) :: back)) h
        (Settled lore pl olds news known (old ++ [some i]) (new ++ [e]) front back h) := by
  obtain ⟨A, G, rfl, rest, draws, not_sole⟩ := hold.last
  rw [← Forest.append_nil (A ++ G)] at hd
  refine Gives.bind (patch_gives he draws not_sole hc hk hd) ?_
  rintro v h' ⟨K, hr, hd, hrun⟩
  rw [Forest.append_nil] at hd
  have hrest := hlisted.init.mono fun _ => List.mem_append_left [some i]
  refine (ih.concat hlt hr hd hsound hrest rest).mono ?_
  rintro items h'' ⟨hl, hitem, deeds, hledger⟩
  exact ⟨hl, _, hledger.pair (reduceOption_concat_some _ _) (zipIdx_concat _) hk
    (hlisted.does_pair (by simp) (mem_zipIdx_concat _) hk hitem hrun)⟩

theorem Loops.first_last (ih : Loops sure lore olds news anchor n)
    (hlt : old.length + new.length < n) (hd : h.document.Shows pl F)
    (hsound : Fitting sure lore known old new)
    (hlisted : Listed olds news (some i :: old) (new ++ [e]) front.length)
    (hold : Left lore pl.node (some i :: old) F) (htarget : target back anchor = pl.after.head?)
    : Gives sure (do
        let view ← e.2.patch i.view
        view.moveBefore (target back anchor)
        loop pl.node anchor known old new front ((i.key, view) :: back)) h
        (Settled lore pl olds news known (some i :: old) (new ++ [e]) front back h) := by
  cases hold with
  | @item _ _ G B draws not_sole rest =>
    refine Gives.bind (patch_gives (A := .nil) he draws not_sole hc hk hd) ?_
    rintro v h₁ ⟨K, hr, hd, hrun⟩
    have hmoves := (lore.draws hr.draws).moves rfl h₁ .nil B B .nil hd (by simp) htarget.symm
    refine Gives.after hmoves.and_run ?_
    rintro _ h₂ ⟨hmove, hd⟩
    rw [Forest.append_nil] at hd
    have hrest := hlisted.init.mono fun _ => List.mem_cons_of_mem (some i)
    refine (ih.concat hlt hr hd hsound hrest rest).mono ?_
    rintro items h'' ⟨hl, hitem, deeds, hledger⟩
    have hmoved := hledger.aside (.move (.inr (List.mem_of_getElem? hitem)) hmove)
    refine ⟨hl, _, hmoved.pair ?_ (zipIdx_concat _) hk
      (hlisted.does_pair List.mem_cons_self (mem_zipIdx_concat _) hk hitem hrun)⟩
    rw [List.reduceOption_cons_of_some]

theorem Loops.last_first (ih : Loops sure lore olds news anchor n) {first : OldItem}
    (hlt : (some first :: old).length + new.length < n) (hd : h.document.Shows pl F)
    (hsound : Fitting sure lore known (some first :: old) new)
    (hlisted : Listed olds news (some first :: old ++ [some i]) (e :: new) front.length)
    (hold : Left lore pl.node (some first :: old ++ [some i]) F)
    (htarget : target back anchor = pl.after.head?)
    : Gives sure (do
        let view ← e.2.patch i.view
        view.moveBefore first.view.firstNode
        loop pl.node anchor known (some first :: old) new ((i.key, view) :: front) back) h
        (Settled lore pl olds news known (some first :: old ++ [some i]) (e :: new) front back h) := by
  obtain ⟨A, G, rfl, rest, draws, not_sole⟩ := hold.last
  rw [← Forest.append_nil (A ++ G)] at hd
  refine Gives.bind (patch_gives he draws not_sole hc hk hd) ?_
  rintro v h₁ ⟨K, hr, hd, hrun⟩
  have hmoves := (lore.draws hr.draws).moves rfl h₁ A .nil .nil A hd (by simp) (rest.firstNode_eq _)
  refine Gives.after hmoves.and_run ?_
  rintro _ h₂ ⟨hmove, hd⟩
  have hrest := hlisted.tail.mono fun _ => List.mem_append_left [some i]
  refine (ih.cons hlt hr hd hsound hrest rest htarget).mono ?_
  rintro items h'' ⟨hl, hitem, deeds, hledger⟩
  have hmoved := hledger.aside (.move (.inr (List.mem_of_getElem? hitem)) hmove)
  exact ⟨hl, _, hmoved.pair (reduceOption_concat_some _ _) (.refl _) hk
    (hlisted.does_pair (by simp) List.mem_cons_self hk hitem hrun)⟩

omit hc hk in
theorem Loops.fresh (ih : Loops sure lore olds news anchor n) {first : OldItem}
    (hlt : (some first :: old).length + new.length < n) (hd : h.document.Shows pl F)
    (hsound : Fitting sure lore known (some first :: old) new)
    (hlisted : Listed olds news (some first :: old) (e :: new) front.length)
    (hold : Left lore pl.node (some first :: old) F)
    (htarget : target back anchor = pl.after.head?)
    (hkey : (((some first :: old : Old).reduceOption).map (·.key)).Nodup →
      Complete known (some first :: old : Old).reduceOption →
        ∀ j ∈ (some first :: old : Old).reduceOption, j.key ≠ e.1)
    : Gives sure (do
        let view ← e.2.mount pl.node first.view.firstNode
        loop pl.node anchor known (some first :: old) new ((e.1, view) :: front) back) h
        (Settled lore pl olds news known (some first :: old) (e :: new) front back h) := by
  have hd : h.document.Shows (pl.narrow .nil F) .nil := Document.shows_narrow.2 hd
  have hmount := he.mounts e.2.view.isSole _ h hd
  rw [show (pl.narrow .nil F).after.head? = first.view.firstNode from hold.firstNode_eq _] at hmount
  refine Gives.after hmount.and_run ?_
  rintro v h' ⟨hrun, G, hG, halike, hv, hd⟩
  rw [he.not_sole] at hv
  have hr : Row.Fits lore pl.node ⟨e.1, v, G⟩ (e.1, e.2.view) :=
    ⟨rfl, halike, hG, by simpa using hv⟩
  refine (ih.cons hlt hr (Document.shows_narrow.1 hd) hsound hlisted.tail hold htarget).mono ?_
  rintro items h'' ⟨hl, hitem, deeds, hledger⟩
  have hfirst := hlisted.new_eq (e, front.length) List.mem_cons_self
  exact ⟨hl, _, hledger.mount (.refl _) hkey (.mount hfirst hitem hrun)⟩

omit he hc hk in
theorem Loops.looked_up (ih : Loops sure lore olds news anchor n) {first : OldItem} {ks : Positions}
    {rest : Old} (hl : lookUp? ks e.1 (some first :: old) = some (i, rest)) (hfirst : first.key ≠ e.1)
    (hlt : rest.length + new.length < n) (hd : h.document.Shows pl F)
    (hsound : Fitting sure lore (some ks) (some first :: old) (e :: new))
    (hlisted : Listed olds news (some first :: old) (e :: new) front.length)
    (hold : Left lore pl.node (some first :: old) F)
    (htarget : target back anchor = pl.after.head?)
    : Gives sure (do
        i.view.moveBefore first.view.firstNode
        let view ← e.2.patch i.view
        loop pl.node anchor (some ks) rest new ((i.key, view) :: front) back) h
        (Settled lore pl olds news (some ks) (some first :: old) (e :: new) front back h) := by
  obtain ⟨position, hposition, ht⟩ := Option.bind_eq_some_iff.1 hl
  obtain ⟨hnot, A, G, B, rfl, hG, hrest⟩ := hold.take ht
  have hm := mem_of_take? ht
  have hsub := subset_of_take? ht
  have hk := hsound.known ks rfl e.1 position hposition
  have hperm := perm_of_take? ht
  have hlisted' := hlisted.tail.mono hsub
  -- The first item stays, as its key is another one.
  obtain ⟨rest, rfl⟩ : ∃ rest', rest = some first :: rest' := by
    simp only [take?] at ht
    split at ht
    . next heq => exact absurd (hk first List.mem_cons_self heq) hfirst
    . obtain ⟨⟨_, rest'⟩, -, he⟩ := Option.map_eq_some_iff.1 ht
      cases he
      exact ⟨rest', rfl⟩
  have hk := hk i hm (split_of_take? ht).1
  have he := hsound.serves e List.mem_cons_self
  have hc := hsound.fits i hm e List.mem_cons_self hk
  have hmoves := (lore.draws hG).moves rfl h A B .nil (A ++ B) hd rfl (hrest.firstNode_eq _)
  refine Gives.after hmoves.and_run ?_
  rintro _ h₁ ⟨hmove, hd⟩
  refine Gives.bind (patch_gives he hG hnot hc hk hd) ?_
  rintro v h₂ ⟨K, hr, hd, hrun⟩
  have hsound := hsound.mono hsub fun _ => List.mem_cons_of_mem _
  refine (ih.cons hlt hr hd hsound hlisted' hrest htarget).mono ?_
  rintro items h'' ⟨hl, hitem, deeds, hledger⟩
  have hdoes := hlisted.does_pair hm (List.mem_cons_self : (e, front.length) ∈ _) hk hitem hrun
  have hmem := List.mem_of_getElem? (hlisted.old_eq i hm)
  exact ⟨hl, _, (hledger.pair hperm (.refl _) hk hdoes).aside (.move (.inl hmem) hmove)⟩

end Step

section Loop

variable {olds news : List (Key × View)} {anchor : NodeId}

theorem loops (n : Nat) : Loops sure lore olds news anchor n := by
  -- Every turn uses up an entry of the old list or an item of the new one.
  induction n with
  | zero => exact fun hlt => absurd hlt (Nat.not_lt_zero _)
  | succ n ih =>
  intro pl h F known old new front back hlt hd hsound hlisted hold htarget
  revert hlt hsound hlisted hold
  apply loop_cases (P := fun old new x => old.length + new.length < n + 1 →
    Fitting sure lore known old new → Listed olds news old new front.length → Left lore pl.node old F →
      x.Gives sure h (Settled lore pl olds news known old new front back h))
  case no_old =>
    intro new _ hsound hlisted hold
    cases hold
    have hall := mountAll_yields
      (fun e he => ⟨(hsound.serves e he).mounts, (hsound.serves e he).not_sole⟩) hd
    rw [htarget]
    refine Gives.after hall.and_run ?_
    rintro _ h' ⟨hrun, rows, rfl, hrows, hd⟩
    rw [← front.length_reverse] at hlisted
    have hmounts := enacts_mountAll hlisted hrun (rfl : front.reverse ++ _ ++ back = _)
    rw [front.length_reverse] at hmounts
    exact Gives.pure ⟨⟨rows, rfl, hrows, hd⟩, _, .mounts hmounts⟩
  case no_new =>
    intro old _ _ hlisted hold
    refine Gives.after (hold.tearDownAll_yields hd).and_run ?_
    rintro _ h' ⟨hrun, hd⟩
    exact Gives.pure ⟨⟨[], by simp, .nil, hd⟩, _, .tearDowns (enacts_tearDownAll hlisted hrun)⟩
  case first_hole =>
    intro old new hlt hsound hlisted hold
    have hmem : ∀ i, some i ∈ old → some i ∈ none :: old := fun _ => List.mem_cons_of_mem _
    cases hold with
    | hole hold =>
      exact ih (by simp at hlt; omega) hd (hsound.mono hmem fun _ he => he) (hlisted.mono hmem) hold
        htarget
  case last_hole =>
    intro old new hlt hsound hlisted hold
    have hmem : ∀ i, some i ∈ old → some i ∈ old ++ [none] := fun _ => List.mem_append_left _
    obtain ⟨G, K, rfl, hG, hK⟩ := hold.append
    cases hK with
    | hole hK =>
      cases hK
      rw [Forest.append_nil] at hd
      unfold Settled
      rw [reduceOption_concat_none]
      exact ih (by simp at hlt; omega) hd (hsound.mono hmem fun _ he => he) (hlisted.mono hmem) hG
        htarget
  case first_first =>
    intro first old e new hk hlt hsound hlisted hold
    exact ih.first_first (hsound.serves e (by simp)) (hsound.fits first (by simp) e (by simp) hk) hk
      (by simp at hlt; omega) hd
      (hsound.mono (fun _ => List.mem_cons_of_mem _) fun _ => List.mem_cons_of_mem _) hlisted hold
      htarget
  case last_last =>
    intro last old e new hk hlt hsound hlisted hold
    exact ih.last_last (hsound.serves e (by simp)) (hsound.fits last (by simp) e (by simp) hk) hk
      (by simp at hlt; omega) hd
      (hsound.mono (fun _ => List.mem_append_left _) fun _ => List.mem_append_left _) hlisted hold
  case first_last =>
    intro first _ old e new _ _ hk hlt hsound hlisted hold
    exact ih.first_last (hsound.serves e (by simp)) (hsound.fits first (by simp) e (by simp) hk) hk
      (by simp at hlt; omega) hd
      (hsound.mono (fun _ => List.mem_cons_of_mem _) fun _ => List.mem_append_left _) hlisted hold
      htarget
  case last_first =>
    intro first last old e new hk hlt hsound hlisted hold
    exact ih.last_first (hsound.serves e (by simp)) (hsound.fits last (by simp) e (by simp) hk) hk
      (by simp at hlt ⊢; omega) hd
      (hsound.mono (fun _ => List.mem_append_left _) fun _ => List.mem_cons_of_mem _) hlisted hold
      htarget
  case between =>
    intro first old e new hff x hfound hmissing hlt hsound hlisted hold
    refine Gives.after (learn_yields hsound h) ?_
    rintro ks h' ⟨hwarns, hsound, hcomplete⟩
    rw [← hwarns.document_eq] at hd
    -- The account goes back to before the positions were known.
    have hback : ∀ {items h''}, Settled lore pl olds news (some ks) (some first :: old) (e :: new) front
        back h' items h'' → Settled lore pl olds news known (some first :: old) (e :: new) front back
          h items h'' := by
      rintro items h'' ⟨hl, deeds, hledger⟩
      exact ⟨hl, deeds, (hledger.learn hcomplete).aside (.warn hwarns)⟩
    cases hl : lookUp? ks e.1 (some first :: old) with
    | some found =>
      obtain ⟨item, rest⟩ := found
      have := length_of_lookUp? hl
      rw [hfound ks item rest hl]
      exact (ih.looked_up hl hff (by simp at this hlt; omega) hd hsound hlisted hold htarget).mono
        fun _ _ => hback
    | none =>
      rw [hmissing ks hl]
      have hnew : ∀ e' ∈ new, e' ∈ e :: new := fun _ => List.mem_cons_of_mem _
      refine (ih.fresh (hsound.serves e (by simp)) (by simp at hlt ⊢; omega) hd
        (hsound.mono (fun _ hi => hi) hnew) hlisted hold htarget ?_).mono fun _ _ => hback
      exact fun _ hcomplete => hcomplete.key_ne hl

theorem loop_gives {known : Option Positions} {old : Old} {new : List (Key × Incoming)}
    {front back : List (Key × View)} (hd : h.document.Shows pl F)
    (hsound : Fitting sure lore known old new) (hlisted : Listed olds news old new front.length)
    (hold : Left lore pl.node old F) (htarget : target back anchor = pl.after.head?)
    : (loop pl.node anchor known old new front back).Gives sure h
        (Settled lore pl olds news known old new front back h) :=
  loops _ (Nat.lt_succ_self _) hd hsound hlisted hold htarget

end Loop

end Reconcile

/--
A reconciled list shows the new items, and has all that is at the place. There is an account of what became
of each item, old or new.
-/
theorem reconcile_gives {rows : List Row} {new : List (Key × Incoming)} {anchor : NodeId}
    (hd : h.document.Shows pl (.join (rows.map Row.forest)))
    (hrows : ∀ r ∈ rows, lore.Of r.view pl.node r.forest ∧ r.view.isSole = false)
    (hserves : ∀ e ∈ new, e.2.Serves sure lore)
    (hmeets : ∀ r ∈ rows, ∀ e ∈ new, r.key = e.1 → Meets sure r.view e.2.view)
    (hanchor : pl.after.head? = some anchor)
    : (reconcile pl.node anchor (rows.map Row.item) new).Gives sure h fun items h' =>
        (∃ rows' : List Row, items = rows'.map Row.item ∧
          List.Forall₂ (fun r e => r.Fits lore pl.node (e.1, e.2.view)) rows' new ∧
            h'.document.Shows pl (.join (rows'.map Row.forest))) ∧
        ∃ deeds, Reconcile.Account pl.node (rows.map Row.item) (new.map fun e => (e.1, e.2.view)) items
          deeds h h' := by
  have hsound : Reconcile.Fitting sure lore none (.ofItems (rows.map Row.item)) new :=
    .ofItems hserves (by simpa [Row.item] using hmeets)
  have htarget : Reconcile.target [] anchor = pl.after.head? := hanchor.symm
  have hlisted : Reconcile.Listed (rows.map Row.item) _ _ new ([] : List (Key × View)).length :=
    .ofItems _ new
  refine (Reconcile.loop_gives hd hsound hlisted (.ofItems hrows) htarget).mono ?_
  rintro _ h' ⟨⟨rows', rfl, hrows', hd⟩, deeds, hledger⟩
  exact ⟨⟨rows', by simp, hrows', hd⟩, deeds, hledger.account⟩

end VirtualDom.View
