import VirtualDom.Proofs.View.Course
import VirtualDom.Proofs.View.Reconcile

/-!
This module contains how the reconciliation of a list uses the nodes again that are there: where no block
is written to, it mounts what is new, takes out what is gone, and moves the rest as seldom as it can.
-/

namespace VirtualDom.View

open Engine
open Document (Place Shows)
open Reconcile (Old OldItem Positions)

variable {pl : Place} {h h' : Host} {v : View}

namespace Reconcile

/--
Of an old list the items are left that are in `left`, and they are at the place; the ones that are patched
need nothing written. No key is there twice.
-/
structure Ready (pl : Place) (anchor : NodeId) (known : Option Positions) (old : Old) (left : List Row)
    (new : List (Key × Incoming)) (back : List (Key × View)) (h : Host) : Prop where
  sound : Sound (fun e => e.patchAs = e.view.patchAs ∧ Bare e.view) Matches known old new
  complete : Complete known old.reduceOption
  items : left.map Row.item = old.reduceOption.map OldItem.item
  planted : ∀ r ∈ left, Planted r.view r.forest
  old_once : (left.map Row.key).Nodup
  new_once : (new.map (·.1)).Nodup
  target : target back anchor = pl.after.head?
  shows : h.document.Shows pl (.join (left.map Row.forest))

/-- What is left has taken its course. All nodes there have been are told apart. -/
def Settles (pl : Place) (left : List Row) (new : List (Key × Incoming)) (front back : List (Key × View))
    (h : Host) (items : List (Key × View)) (h' : Host) : Prop :=
  ∃ rows gone bills moves, items = front.reverse ++ rows.map Row.item ++ back ∧
    Course left (new.map fun e => (e.1, e.2.view)) rows gone bills moves ∧
    h'.document.Shows pl (.join (rows.map Row.forest)) ∧
    h'.document.tally = h.document.tally + Course.toll gone bills moves ∧
    ((pl.census (.join (rows.map Row.forest))).map (·.1)
      + ((Forest.join (gone.map Row.forest)).ids : Multiset NodeId)).Nodup

def Takes (anchor : NodeId) (n : Nat) : Prop :=
  ∀ {pl : Place} {h : Host} {known : Option Positions} {old : Old} {left : List Row}
    {new : List (Key × Incoming)} {front back : List (Key × View)}, old.length + new.length < n →
      Ready pl anchor known old left new back h →
        (loop pl.node anchor known old new front back).Yields h (Settles pl left new front back h)

section Step

variable {anchor : NodeId} {known : Option Positions} {old old' : Old} {left left' A B : List Row} {r : Row}
  {new new' : List (Key × Incoming)} {front back : List (Key × View)} {i : OldItem} {e : Key × Incoming}
  {n m : Nat} {h₁ : Host} {G : Forest (NodeId × Content)}

theorem Ready.mono {pl' : Place} {back' : List (Key × View)} (hr : Ready pl anchor known old left new back h)
    (hold : ∀ i, some i ∈ old' → some i ∈ old) (hleft : left'.Sublist left) (hnew : new'.Sublist new)
    (items : left'.map Row.item = old'.reduceOption.map OldItem.item)
    (target : Reconcile.target back' anchor = pl'.after.head?)
    (shows : h'.document.Shows pl' (.join (left'.map Row.forest)))
    : Ready pl' anchor known old' left' new' back' h' where
  sound := hr.sound.mono hold fun _ he => hnew.mem he
  complete ks hks i hi :=
    hr.complete ks hks i (List.reduceOption_mem_iff.2 (hold i (List.reduceOption_mem_iff.1 hi)))
  items := items
  planted r hmem := hr.planted r (hleft.mem hmem)
  old_once := hr.old_once.sublist (hleft.map _)
  new_once := hr.new_once.sublist (hnew.map _)
  target := target
  shows := shows

theorem Ready.split (hr : Ready pl anchor known old left new back h) {before after : List OldItem}
    (hold : old.reduceOption = before ++ i :: after)
    : ∃ A r B, left = A ++ r :: B ∧ r.item = i.item ∧ A.map Row.item = before.map OldItem.item ∧
        B.map Row.item = after.map OldItem.item := by
  have hitems := hr.items
  rw [hold, List.map_append, List.map_cons] at hitems
  obtain ⟨A, rest, rfl, hA, hrest⟩ := List.map_eq_append_iff.1 hitems
  obtain ⟨r, B, rfl, hitem, hB⟩ := List.map_eq_cons_iff.1 hrest
  exact ⟨A, r, B, rfl, hitem, hA, hB⟩

theorem Ready.patch_eq (hr : Ready pl anchor known old (A ++ r :: B) new back h) (hi : some i ∈ old)
    (hitem : r.item = i.item) (he : e ∈ new) (hk : i.key = e.1) (h₁ : Host)
    : ∃ v, e.2.patch i.view h₁ = .ok v h₁ ∧ Planted v r.forest := by
  have hv := hr.planted r (by simp)
  rw [show r.view = i.view from congrArg Prod.snd hitem] at hv
  rw [Incoming.patch, (hr.sound.serves e he).1]
  exact hv.patchAs_eq (hr.sound.fits i hi e he hk) _ h₁

theorem Takes.at_front (ih : Takes anchor n) (hlt : old'.length + new.length < n)
    (hr : Ready pl anchor known old (A ++ r :: B) (e :: new) back h) (hitem : r.item = i.item)
    (hk : i.key = e.1) (hold : ∀ i, some i ∈ old' → some i ∈ old)
    (hitems : (A ++ B).map Row.item = old'.reduceOption.map OldItem.item) (hv : Planted v r.forest)
    (hm : m ≤ 1) (order : ((A ++ r :: B).map Row.key).Sublist ((e :: new).map (·.1)) → m = 0)
    (hd : h₁.document.Shows pl (r.forest ++ .join ((A ++ B).map Row.forest)))
    (ht : h₁.document.tally = h.document.tally + { moved := m })
    : (loop pl.node anchor known old' new ((i.key, v) :: front) back).Yields h₁
        (Settles pl (A ++ r :: B) (e :: new) front back h) := by
  have hready : Ready (pl.narrow r.forest .nil) anchor known old' (A ++ B) new back h₁ :=
    hr.mono hold ((List.sublist_cons_self r B).append_left A) (List.sublist_cons_self e new) hitems
      hr.target (Document.shows_behind.2 hd)
  refine (ih hlt hready).mono ?_
  rintro items h' ⟨rows, gone, bills, moves, rfl, hc, hd, ht', hnd⟩
  have hkey : r.key = i.key := congrArg Prod.fst hitem
  obtain ⟨key, incoming⟩ := e
  obtain rfl : r.key = key := hkey.trans hk
  refine ⟨⟨r.key, v, r.forest⟩ :: rows, gone, bills, moves + m, ?_, ?_, ?_, ?_, ?_⟩
  . simp [Row.item, hkey]
  . have hc : Course (A ++ B) ([] ++ new.map fun e => (e.1, e.2.view)) ([] ++ rows) gone bills moves := hc
    exact .keep hv rfl hm (by simpa [Function.comp_def] using order) hc
  . exact Document.shows_behind.1 hd
  . rw [ht', ht, Course.toll_move, add_assoc, add_comm (Course.toll _ _ _)]
  . rwa [Place.census_narrow, Forest.append_nil] at hnd

theorem Takes.at_back (ih : Takes anchor n) (hlt : old'.length + new.length < n)
    (hr : Ready pl anchor known old (A ++ r :: B) (new ++ [e]) back h) (hitem : r.item = i.item)
    (hk : i.key = e.1) (hold : ∀ i, some i ∈ old' → some i ∈ old)
    (hitems : (A ++ B).map Row.item = old'.reduceOption.map OldItem.item) (hv : Planted v r.forest)
    (hm : m ≤ 1) (order : ((A ++ r :: B).map Row.key).Sublist ((new ++ [e]).map (·.1)) → m = 0)
    (hd : h₁.document.Shows pl (.join ((A ++ B).map Row.forest) ++ r.forest))
    (ht : h₁.document.tally = h.document.tally + { moved := m })
    : (loop pl.node anchor known old' new front ((i.key, v) :: back)).Yields h₁
        (Settles pl (A ++ r :: B) (new ++ [e]) front back h) := by
  have htarget : target ((i.key, v) :: back) anchor = (pl.narrow .nil r.forest).after.head? := by
    obtain ⟨id, hid, -⟩ := hv.exists_firstNode
    rw [target, List.head?_cons, Option.bind_some, hid]
    exact (hid.symm.trans (hv.firstNode_eq pl.after).symm :)
  have hready : Ready (pl.narrow .nil r.forest) anchor known old' (A ++ B) new ((i.key, v) :: back) h₁ :=
    hr.mono hold ((List.sublist_cons_self r B).append_left A) (List.sublist_append_left new [e]) hitems
      htarget (Document.shows_narrow.2 hd)
  refine (ih hlt hready).mono ?_
  rintro items h' ⟨rows, gone, bills, moves, rfl, hc, hd, ht', hnd⟩
  have hkey : r.key = i.key := congrArg Prod.fst hitem
  obtain ⟨key, incoming⟩ := e
  obtain rfl : r.key = key := hkey.trans hk
  have hc : Course (A ++ B) (new.map (fun e => (e.1, e.2.view)) ++ []) (rows ++ []) gone bills moves := by
    rwa [List.append_nil, List.append_nil]
  refine ⟨rows ++ [⟨r.key, v, r.forest⟩], gone, bills, moves + m, ?_, ?_, ?_, ?_, ?_⟩
  . simp [Row.item, hkey]
  . rw [List.map_append]
    refine .keep hv ?_ hm (by simpa [Function.comp_def] using order) hc
    simpa using congrArg List.length hc.keys
  . simpa using Document.shows_narrow.1 hd
  . rw [ht', ht, Course.toll_move, add_assoc, add_comm (Course.toll _ _ _)]
  . rw [Place.census_narrow] at hnd
    simpa using hnd

theorem Ready.mount_yields (hr : Ready pl anchor known old left (e :: new) back h)
    : (e.2.mount pl.node ((Forest.join (left.map Row.forest)).rootIds ++ pl.after).head?).Yields h
        fun v h' => ∃ G bill, Planted v G ∧ Costs e.2.view bill ∧
          h'.document.Shows pl (G ++ .join (left.map Row.forest)) ∧
          h'.document.tally = h.document.tally + bill + { inserted := 1 } := by
  have hbare := (hr.sound.serves e List.mem_cons_self).2
  have hd : h.document.Shows (pl.narrow .nil (.join (left.map Row.forest))) .nil :=
    Document.shows_narrow.2 hr.shows
  obtain ⟨bill, hcosts⟩ := hbare.exists_costs
  refine (hbare.mount_yields hd).and_run.mono ?_
  rintro v h' ⟨hmount, G, hv, hd'⟩
  exact ⟨G, bill, hv, hcosts, Document.shows_narrow.1 hd', (hcosts.mount _ h hd).of_ok hmount⟩

theorem Settles.mount {bill : Tally} {items : List (Key × View)} (absent : e.1 ∉ left.map Row.key)
    (costs : Costs e.2.view bill) (hv : Planted v G)
    (ht : h₁.document.tally = h.document.tally + bill + { inserted := 1 })
    (hs : Settles (pl.narrow G .nil) left new ((e.1, v) :: front) back h₁ items h')
    : Settles pl left (e :: new) front back h items h' := by
  obtain ⟨rows, gone, bills, moves, rfl, hc, hd, ht', hnd⟩ := hs
  refine ⟨⟨e.1, v, G⟩ :: rows, gone, bill :: bills, moves, ?_, .mount absent costs hv hc, ?_, ?_, ?_⟩
  . simp [Row.item]
  . exact Document.shows_behind.1 hd
  . rw [ht', ht, Course.toll_mount]
    simp only [add_assoc]
  . rwa [Place.census_narrow, Forest.append_nil] at hnd

theorem Settles.surround {items : List (Key × View)} (hs : Settles pl left new [] [] h items h')
    (front back : List (Key × View))
    : Settles pl left new front back h (front.reverse ++ items ++ back) h' := by
  obtain ⟨rows, gone, bills, moves, rfl, hrest⟩ := hs
  exact ⟨rows, gone, bills, moves, by simp, hrest⟩

theorem Takes.fresh (ih : Takes anchor n) (hlt : old.length + new.length < n)
    (hr : Ready pl anchor known old left (e :: new) back h) (absent : e.1 ∉ left.map Row.key)
    : Yields (do
        let view ← e.2.mount pl.node ((Forest.join (left.map Row.forest)).rootIds ++ pl.after).head?
        loop pl.node anchor known old new ((e.1, view) :: front) back) h
        (Settles pl left (e :: new) front back h) := by
  refine Yields.bind hr.mount_yields ?_
  rintro v h₁ ⟨G, bill, hv, hcosts, hd, ht⟩
  have hready : Ready (pl.narrow G .nil) anchor known old left new back h₁ :=
    hr.mono (fun _ hi => hi) (.refl left) (List.sublist_cons_self e new) hr.items hr.target
      (Document.shows_behind.2 hd)
  exact (ih hlt hready).mono fun _ _ hs => hs.mount absent hcosts hv ht

theorem mountAll_settles (hr : Ready pl anchor known old [] new back h)
    : (mountAll pl.node pl.after.head? new).Yields h (Settles pl [] new [] [] h) := by
  induction new generalizing pl h with
  | nil =>
    refine Yields.pure ⟨[], [], [], 0, rfl, .done, hr.shows, (add_zero _).symm, ?_⟩
    simpa using Document.Holds.nodup hr.shows
  | cons e new ih =>
    refine Yields.bind hr.mount_yields ?_
    rintro v h₁ ⟨G, bill, hv, hcosts, hd, ht⟩
    have hready : Ready (pl.narrow G .nil) anchor known old [] new back h₁ :=
      hr.mono (fun _ hi => hi) (.refl []) (List.sublist_cons_self e new) hr.items hr.target
        (Document.shows_behind.2 hd)
    have hrest := ih hready
    refine Yields.bind hrest ?_
    intro items h' hs
    refine Yields.pure (Settles.mount (by simp) hcosts hv ht ?_)
    simpa using hs.surround [(e.1, v)] []

theorem tearDowns_yields {is : List OldItem} (items : left.map Row.item = is.map OldItem.item)
    (planted : ∀ r ∈ left, Planted r.view r.forest) (hd : h.document.Shows pl (.join (left.map Row.forest)))
    : Yields (is.forM fun i => (do let _ ← i.view.tearDown : Engine PUnit)) h fun _ h' =>
        h'.document.Shows pl .nil ∧ h'.document.tally = h.document.tally + { removed := left.length } := by
  induction left generalizing is h with
  | nil =>
    obtain rfl := List.map_eq_nil_iff.1 items.symm
    exact Yields.pure ⟨hd, (add_zero _).symm⟩
  | cons r left ih =>
    obtain ⟨i, is, rfl, hitem, items⟩ := List.map_eq_cons_iff.1 items.symm
    obtain ⟨hv, planted⟩ := List.forall_mem_cons.1 planted
    rw [show r.view = i.view from (congrArg Prod.snd hitem).symm] at hv
    have hd : h.document.Shows (pl.narrow .nil (.join (left.map Row.forest))) r.forest :=
      Document.shows_narrow.2 hd
    have hdown : Yields (i.view.tearDown >>= fun _ => pure ()) h fun (_ : PUnit) h' =>
        h'.document.Shows pl (.join (left.map Row.forest)) ∧
          h'.document.tally = h.document.tally + { removed := 1 } := by
      refine Yields.bind (hv.tearDown_yields hd) ?_
      rintro _ h' ⟨hd, ht⟩
      exact Yields.pure ⟨Document.shows_narrow.1 hd, ht⟩
    refine Yields.bind hdown ?_
    rintro _ h₁ ⟨hd, ht⟩
    refine (ih items.symm planted hd).mono ?_
    rintro _ h' ⟨hd, ht'⟩
    refine ⟨hd, ?_⟩
    rw [ht', ht, add_assoc, add_comm ({ removed := 1 } : Tally)]
    rfl

theorem tearDownAll_settles (hr : Ready pl anchor known old left [] back h)
    : (tearDownAll old).Yields h fun _ h' => Settles pl left [] [] [] h [] h' := by
  refine (tearDowns_yields hr.items hr.planted hr.shows).mono ?_
  rintro _ h' ⟨hd, ht⟩
  refine ⟨[], left, [], 0, rfl, .removes left, hd, ?_, ?_⟩
  . rw [ht, Course.toll, List.sum_nil, zero_add]
    rfl
  . have hnd := Document.Holds.nodup hr.shows
    rw [Place.census, Multiset.map_add, Forest.map_census, Multiset.map_cons] at hnd
    rwa [List.map_nil, Forest.join_nil, Place.census_nil, Multiset.map_cons, add_comm]

section Turn

variable {first last : OldItem}

theorem firstNode_eq {is : List OldItem} (items : left.map Row.item = (first :: is).map OldItem.item)
    (planted : ∀ r ∈ left, Planted r.view r.forest) (after : List NodeId)
    : ((Forest.join (left.map Row.forest)).rootIds ++ after).head? = first.view.firstNode := by
  obtain ⟨r, left, rfl, hitem, -⟩ := List.map_eq_cons_iff.1 items
  rw [show first.view = r.view from (congrArg Prod.snd hitem).symm]
  rw [List.map_cons, Forest.join_cons, Forest.rootIds_append, List.append_assoc]
  exact (planted r List.mem_cons_self).firstNode_eq _

theorem Ready.keys (hr : Ready pl anchor known old left new back h)
    : left.map Row.key = old.reduceOption.map (·.key) := by
  have hkeys := congrArg (List.map Prod.fst) hr.items
  rwa [List.map_map, List.map_map] at hkeys

/-- Something before the item has a key that does not come before the item's key any more. -/
theorem Ready.not_sublist (hr : Ready pl anchor known old (A ++ r :: B) (e :: new) back h)
    (hk : r.key = e.1) (hA : A ≠ []) : ¬ ((A ++ r :: B).map Row.key).Sublist ((e :: new).map (·.1)) := by
  intro hs
  have hnew := (List.nodup_cons.1 hr.new_once).1
  rw [List.map_append, List.map_cons, hk] at hs
  have hnil := (sublist_of_middle (Z := []) hs (List.not_mem_nil) hnew).1
  exact hA (List.map_eq_nil_iff.1 (List.sublist_nil.1 hnil))

theorem Ready.split_first (hr : Ready pl anchor known (some first :: old) left new back h)
    : ∃ r B, left = r :: B ∧ r.item = first.item ∧ B.map Row.item = old.reduceOption.map OldItem.item := by
  have hitems := hr.items
  rw [List.reduceOption_cons_of_some] at hitems
  exact List.map_eq_cons_iff.1 hitems

theorem Ready.split_last (hr : Ready pl anchor known (old ++ [some last]) left new back h)
    : ∃ A r, left = A ++ [r] ∧ r.item = last.item ∧ A.map Row.item = old.reduceOption.map OldItem.item := by
  obtain ⟨A, r, B, rfl, hitem, hA, hB⟩ := hr.split (List.reduceOption_append old [some last])
  obtain rfl := List.map_eq_nil_iff.1 hB
  exact ⟨A, r, rfl, hitem, hA⟩

theorem Ready.learn {ks : Positions} {h₁ : Host} (hr : Ready pl anchor known old left new back h)
    (hwarns : Warns h h₁)
    (hsound : Sound (fun e => e.patchAs = e.view.patchAs ∧ Bare e.view) Matches (some ks) old new)
    (hcomplete : (old.reduceOption.map (·.key)).Nodup → Complete known old.reduceOption →
      Complete (some ks) old.reduceOption)
    : Ready pl anchor (some ks) old left new back h₁ := by
  refine { hr with sound := hsound, complete := hcomplete ?_ hr.complete, shows := ?_ }
  . exact hr.keys ▸ hr.old_once
  . rw [hwarns.document_eq]
    exact hr.shows

theorem Takes.first_first (ih : Takes anchor n) (hlt : old.length + new.length < n)
    (hr : Ready pl anchor known (some first :: old) left (e :: new) back h) (hk : first.key = e.1)
    : Yields (do
        let view ← e.2.patch first.view
        loop pl.node anchor known old new ((first.key, view) :: front) back) h
        (Settles pl left (e :: new) front back h) := by
  obtain ⟨r, B, rfl, hitem, hB⟩ := hr.split_first
  obtain ⟨v, hpatch, hv⟩ := hr.patch_eq (A := []) List.mem_cons_self hitem List.mem_cons_self hk h
  refine Yields.bind_ok hpatch ?_
  exact ih.at_front (A := []) hlt hr hitem hk (fun _ => List.mem_cons_of_mem _) hB hv
    (Nat.zero_le 1) (fun _ => rfl) hr.shows (add_zero _).symm

theorem Takes.last_last (ih : Takes anchor n) (hlt : old.length + new.length < n)
    (hr : Ready pl anchor known (old ++ [some last]) left (new ++ [e]) back h) (hk : last.key = e.1)
    : Yields (do
        let view ← e.2.patch last.view
        loop pl.node anchor known old new front ((last.key, view) :: back)) h
        (Settles pl left (new ++ [e]) front back h) := by
  obtain ⟨A, r, rfl, hitem, hA⟩ := hr.split_last
  obtain ⟨v, hpatch, hv⟩ := hr.patch_eq (by simp) hitem (by simp) hk h
  refine Yields.bind_ok hpatch ?_
  exact ih.at_back hlt hr hitem hk (fun _ => List.mem_append_left _) (by simpa using hA) hv
    (Nat.zero_le 1) (fun _ => rfl) (by simpa using hr.shows) (add_zero _).symm

theorem Takes.first_last (ih : Takes anchor n) (hlt : old.length + new.length < n)
    (hr : Ready pl anchor known (some first :: old) left (new ++ [e]) back h)
    (hlast : some last ∈ some first :: old) (hne : last.key ≠ e.1) (hk : first.key = e.1)
    : Yields (do
        let view ← e.2.patch first.view
        view.moveBefore (target back anchor)
        loop pl.node anchor known old new front ((first.key, view) :: back)) h
        (Settles pl left (new ++ [e]) front back h) := by
  obtain ⟨r, B, rfl, hitem, hB⟩ := hr.split_first
  obtain ⟨v, hpatch, hv⟩ := hr.patch_eq (A := []) List.mem_cons_self hitem (by simp) hk h
  refine Yields.bind_ok hpatch ?_
  have hmove := hv.moveBefore_yields (A := .nil) (C := .join (B.map Row.forest)) (D := .nil) hr.shows
    (by simp) hr.target.symm
  refine Yields.bind hmove ?_
  rintro _ h₁ ⟨hd, m, hm, ht⟩
  refine ih.at_back (A := []) hlt hr hitem hk (fun _ => List.mem_cons_of_mem _) hB hv hm ?_
    (by simpa using hd) ht
  -- Where all keys are still in their order, the first item could only be last if it were the only one.
  intro hs
  have hnew := hr.new_once
  rw [List.map_append, List.map_singleton, List.nodup_append_comm, List.singleton_append,
    List.nodup_cons] at hnew
  rw [List.nil_append, List.map_cons, List.map_append, List.map_singleton,
    show r.key = e.1 from (congrArg Prod.fst hitem).trans hk] at hs
  have hnil := List.sublist_nil.1 (sublist_of_middle (X := []) hs hnew.1 List.not_mem_nil).2
  obtain rfl := List.map_eq_nil_iff.1 hnil
  rw [← List.reduceOption_mem_iff, List.reduceOption_cons_of_some, List.map_eq_nil_iff.1 hB.symm,
    List.mem_singleton] at hlast
  exact absurd (hlast ▸ hk) hne

theorem Takes.last_first (ih : Takes anchor n) (hlt : (some first :: old).length + new.length < n)
    (hr : Ready pl anchor known (some first :: old ++ [some last]) left (e :: new) back h)
    (hk : last.key = e.1)
    : Yields (do
        let view ← e.2.patch last.view
        view.moveBefore first.view.firstNode
        loop pl.node anchor known (some first :: old) new ((last.key, view) :: front) back) h
        (Settles pl left (e :: new) front back h) := by
  obtain ⟨A, r, rfl, hitem, hA⟩ := hr.split_last
  obtain ⟨v, hpatch, hv⟩ := hr.patch_eq (by simp) hitem List.mem_cons_self hk h
  refine Yields.bind_ok hpatch ?_
  have hA' : A ≠ [] := by
    rintro rfl
    cases hA
  have htarget := firstNode_eq hA (fun r hmem => hr.planted r (List.mem_append_left _ hmem)) pl.after
  have hmove := hv.moveBefore_yields (A := .join (A.map Row.forest)) (B := .nil) (C := .nil)
    (by simpa using hr.shows) (by simp) htarget
  refine Yields.bind hmove ?_
  rintro _ h₁ ⟨hd, m, hm, ht⟩
  refine ih.at_front hlt hr hitem hk (fun _ => List.mem_append_left _) (by simpa using hA) hv hm ?_
    (by simpa using hd) ht
  exact fun hs => absurd hs (hr.not_sublist ((congrArg Prod.fst hitem).trans hk) hA')

theorem Takes.looked_up {ks : Positions} {rest : Old} (ih : Takes anchor n)
    (hl : lookUp? ks e.1 (some first :: old) = some (i, rest)) (hne : first.key ≠ e.1)
    (hlt : rest.length + new.length < n)
    (hr : Ready pl anchor (some ks) (some first :: old) left (e :: new) back h)
    : Yields (do
        i.view.moveBefore first.view.firstNode
        let view ← e.2.patch i.view
        loop pl.node anchor (some ks) rest new ((i.key, view) :: front) back) h
        (Settles pl left (e :: new) front back h) := by
  obtain ⟨position, hposition, ht⟩ := Option.bind_eq_some_iff.1 hl
  obtain ⟨hp, before, after, hold, hrest⟩ := split_of_take? ht
  have hi := mem_of_take? ht
  have hk := hr.sound.known ks rfl e.1 position hposition i hi hp
  obtain ⟨A, r, B, rfl, hitem, hA, hB⟩ := hr.split hold
  -- The first item stays, as its key is another one.
  obtain ⟨before, rfl⟩ : ∃ before', before = first :: before' := by
    rw [List.reduceOption_cons_of_some] at hold
    cases before with
    | nil =>
      obtain ⟨rfl, -⟩ := List.cons.inj hold
      exact absurd hk hne
    | cons j before =>
      obtain ⟨rfl, -⟩ := List.cons.inj hold
      exact ⟨before, rfl⟩
  have hitems : (A ++ B).map Row.item = rest.reduceOption.map OldItem.item := by
    rw [hrest, List.map_append, List.map_append, hA, hB]
  have hA' : A ≠ [] := by
    rintro rfl
    cases hA
  have htarget := firstNode_eq hA (fun r hmem => hr.planted r (List.mem_append_left _ hmem))
    ((Forest.join (B.map Row.forest)).rootIds ++ pl.after)
  have hv := hr.planted r (by simp)
  rw [show r.view = i.view from congrArg Prod.snd hitem] at hv
  have hmove := hv.moveBefore_yields (A := .join (A.map Row.forest)) (B := .join (B.map Row.forest))
    (C := .nil) (by simpa [Forest.append_assoc] using hr.shows) (Forest.nil_append _).symm (by simpa using htarget)
  refine Yields.bind hmove ?_
  rintro _ h₁ ⟨hd, m, hm, htally⟩
  obtain ⟨v, hpatch, hv⟩ := hr.patch_eq hi hitem List.mem_cons_self hk h₁
  refine Yields.bind_ok hpatch ?_
  refine ih.at_front hlt hr hitem hk (subset_of_take? ht) hitems hv hm ?_ (by simpa using hd) htally
  exact fun hs => absurd hs (hr.not_sublist ((congrArg Prod.fst hitem).trans hk) hA')

theorem takes (n : Nat) : Takes anchor n := by
  -- Every turn uses up an entry of the old list or an item of the new one.
  induction n with
  | zero => exact fun hlt => absurd hlt (Nat.not_lt_zero _)
  | succ n ih =>
  intro pl h known old left new front back hlt hr
  revert hlt hr
  apply loop_cases (P := fun old new x => old.length + new.length < n + 1 →
    Ready pl anchor known old left new back h → x.Yields h (Settles pl left new front back h))
  case no_old =>
    intro new _ hr
    obtain rfl := List.map_eq_nil_iff.1 hr.items
    rw [hr.target]
    refine Yields.bind (mountAll_settles hr) ?_
    intro items h' hs
    exact Yields.pure (hs.surround front back)
  case no_new =>
    intro old _ hr
    refine Yields.bind (tearDownAll_settles hr) ?_
    intro _ h' hs
    exact Yields.pure (by simpa using hs.surround front back)
  case first_hole =>
    intro old new hlt hr
    exact ih (by simp at hlt; omega) (hr.mono (fun _ => List.mem_cons_of_mem _) (.refl left) (.refl _)
      hr.items hr.target hr.shows)
  case last_hole =>
    intro old new hlt hr
    exact ih (by simp at hlt; omega) (hr.mono (fun _ => List.mem_append_left _) (.refl left) (.refl _)
      (reduceOption_concat_none old ▸ hr.items) hr.target hr.shows)
  case first_first =>
    intro first old e new hk hlt hr
    exact ih.first_first (by simp at hlt; omega) hr hk
  case last_last =>
    intro last old e new hk hlt hr
    exact ih.last_last (by simp at hlt; omega) hr hk
  case first_last =>
    intro first last old e new hlast hne hk hlt hr
    exact ih.first_last (by simp at hlt; omega) hr hlast hne hk
  case last_first =>
    intro first last old e new hk hlt hr
    exact ih.last_first (by simp at hlt ⊢; omega) hr hk
  case between =>
    intro first old e new hne x hfound hmissing hlt hr
    refine Yields.bind (learn_yields hr.sound h) ?_
    rintro ks h₁ ⟨hwarns, hsound, hcomplete⟩
    have hr := hr.learn hwarns hsound hcomplete
    unfold Settles
    rw [← hwarns.document_eq]
    cases hl : lookUp? ks e.1 (some first :: old) with
    | some found =>
      obtain ⟨item, rest⟩ := found
      have := length_of_lookUp? hl
      rw [hfound ks item rest hl]
      exact ih.looked_up hl hne (by simp at this hlt; omega) hr
    | none =>
      rw [hmissing ks hl]
      have habsent : e.1 ∉ left.map Row.key := by
        rw [hr.keys]
        intro hmem
        obtain ⟨j, hj, hk⟩ := List.mem_map.1 hmem
        exact hr.complete.key_ne hl j hj hk
      rw [← firstNode_eq hr.items hr.planted pl.after]
      exact ih.fresh (by simp at hlt ⊢; omega) hr habsent

theorem loop_settles (hr : Ready pl anchor known old left new back h) (front : List (Key × View))
    : (loop pl.node anchor known old new front back).Yields h (Settles pl left new front back h) :=
  takes _ (Nat.lt_succ_self _) hr

end Turn

end Step
end Reconcile

/--
A list has taken its course at a place in the document. No key is there twice, and the nodes that were
taken out are other ones than those that are there.
-/
structure Transition (pl : Place) (old : List Row) (new : List (Key × View)) (rows gone : List Row)
    (bills : List Tally) (moves : Nat) (h h' : Host) : Prop where
  course : Course old new rows gone bills moves
  old_once : (old.map Row.key).Nodup
  new_once : (new.map (·.1)).Nodup
  before : h.document.Shows pl (.join (old.map Row.forest))
  after : h'.document.Shows pl (.join (rows.map Row.forest))
  tally : h'.document.tally = h.document.tally + Course.toll gone bills moves
  apart : ((pl.census (.join (rows.map Row.forest))).map (·.1)
    + ((Forest.join (gone.map Row.forest)).ids : Multiset NodeId)).Nodup

theorem reconcile_yields_transition {old : List Row} {new : List (Key × View)} {anchor : NodeId}
    (hd : h.document.Shows pl (.join (old.map Row.forest))) (hold : ∀ r ∈ old, Planted r.view r.forest)
    (hnew : ∀ w ∈ new, Bare w.2) (hmatches : ∀ r ∈ old, ∀ w ∈ new, r.key = w.1 → Matches r.view w.2)
    (old_once : (old.map Row.key).Nodup) (new_once : (new.map (·.1)).Nodup)
    (hanchor : pl.after.head? = some anchor)
    : (reconcile pl.node anchor (old.map Row.item) (incomingItems new)).Yields h fun items h' =>
        ∃ rows gone bills moves, items = rows.map Row.item ∧
          Transition pl old new rows gone bills moves h h' := by
  have hready : Reconcile.Ready pl anchor none (.ofItems (old.map Row.item)) old (incomingItems new) [] h := by
    refine ⟨.ofItems ?_ ?_, nofun, ?_, hold, old_once, ?_, hanchor.symm, hd⟩
    . rw [incomingItems_eq_map]
      intro e he
      obtain ⟨w, hw, rfl⟩ := List.mem_map.1 he
      exact ⟨rfl, hnew w hw⟩
    . rw [incomingItems_eq_map]
      intro item hitem e he hk
      obtain ⟨r, hr, rfl⟩ := List.mem_map.1 hitem
      obtain ⟨w, hw, rfl⟩ := List.mem_map.1 he
      exact hmatches r hr w hw hk
    . exact (Reconcile.map_item_ofItems _).symm
    . rw [incomingItems_eq_map, List.map_map]
      exact new_once
  have hviews : (incomingItems new).map (fun e => (e.1, e.2.view)) = new := by
    simp [incomingItems_eq_map, Function.comp_def]
  refine (Reconcile.loop_settles hready []).mono ?_
  rintro items h' ⟨rows, gone, bills, moves, rfl, hc, hd', ht, hnd⟩
  rw [hviews] at hc
  exact ⟨rows, gone, bills, moves, by simp, hc, old_once, new_once, hd, hd', ht, hnd⟩

end VirtualDom.View
