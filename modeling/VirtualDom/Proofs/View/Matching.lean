import Mathlib.Data.List.ReduceOption
import VirtualDom.Proofs.Engine
import VirtualDom.Proofs.View.Draws

/-!
This module contains how reconciliation matches items, whatever becomes of their nodes: what is left of
the old list, where its keys are, and which ways the loop goes.
-/

namespace VirtualDom.View.Reconcile

open Engine

def OldItem.item (i : OldItem) : Key × View :=
  (i.key, i.view)

theorem reduceOption_concat_none (old : Old) : (old ++ [none]).reduceOption = old.reduceOption := by
  rw [List.reduceOption_append, List.reduceOption_singleton, Option.toList_none, List.append_nil]

theorem reduceOption_concat_some (old : Old) (i : OldItem)
    : (old ++ [some i]).reduceOption.Perm (i :: old.reduceOption) := by
  rw [List.reduceOption_append, List.reduceOption_singleton, Option.toList_some]
  exact List.perm_append_singleton _ _

theorem reduceOption_ofItems (items : List (Key × View))
    : (Old.ofItems items).reduceOption = items.zipIdx.map fun e => ⟨e.2, e.1.1, e.1.2⟩ := by
  unfold Old.ofItems List.reduceOption
  rw [List.filterMap_map, ← List.filterMap_eq_map]
  rfl

theorem map_item_ofItems (items : List (Key × View))
    : (Old.ofItems items).reduceOption.map OldItem.item = items := by
  rw [reduceOption_ofItems, List.map_map]
  exact List.zipIdx_map_fst 0 _

section Take

variable {position : Nat} {old rest : Old} {i : OldItem}

theorem split_of_take? (ht : take? position old = some (i, rest))
    : i.position = position ∧ ∃ before after, old.reduceOption = before ++ i :: after ∧
        rest.reduceOption = before ++ after := by
  induction old generalizing rest with
  | nil => cases ht
  | cons entry old ih =>
    cases entry with
    | none =>
      obtain ⟨⟨_, rest'⟩, ht', he⟩ := Option.map_eq_some_iff.1 ht
      cases he
      have hrest := ih ht'
      exact hrest
    | some j =>
      simp only [take?] at ht
      split at ht
      . next heq =>
        cases ht
        exact ⟨heq, [], _, rfl, rfl⟩
      . obtain ⟨⟨k, rest'⟩, ht', he⟩ := Option.map_eq_some_iff.1 ht
        cases he
        obtain ⟨hposition, before, after, hold, hrest⟩ := ih ht'
        exact ⟨hposition, j :: before, after, congrArg (j :: ·) hold, congrArg (j :: ·) hrest⟩

theorem perm_of_take? (ht : take? position old = some (i, rest))
    : old.reduceOption.Perm (i :: rest.reduceOption) := by
  obtain ⟨-, before, after, hold, hrest⟩ := split_of_take? ht
  rw [hold, hrest]
  exact List.perm_middle

theorem mem_of_take? (ht : take? position old = some (i, rest)) : some i ∈ old :=
  List.reduceOption_mem_iff.1 ((perm_of_take? ht).symm.subset List.mem_cons_self)

theorem subset_of_take? (ht : take? position old = some (i, rest))
    : ∀ j, some j ∈ rest → some j ∈ old := by
  intro j hj
  have hj := List.mem_cons_of_mem i (List.reduceOption_mem_iff.2 hj)
  exact List.reduceOption_mem_iff.1 ((perm_of_take? ht).symm.subset hj)

theorem take?_isSome (hi : some i ∈ old) : (take? i.position old).isSome := by
  induction old with
  | nil => cases hi
  | cons entry old ih =>
    cases entry with
    | none => simpa [take?] using ih (by simpa using hi)
    | some j =>
      simp only [take?]
      split
      . rfl
      . next hne =>
        rcases List.mem_cons.1 hi with hi | hi
        . cases hi
          exact absurd rfl hne
        . simpa using ih hi

end Take

/-- What is left of an old list, with the nodes that its items have by `D`. -/
inductive Spread (D : View → Forest (NodeId × Content) → Prop) :
    Old → Forest (NodeId × Content) → Prop
  | nil : Spread D [] .nil
  | hole {old : Old} {F : Forest (NodeId × Content)} (rest : Spread D old F) : Spread D (none :: old) F
  | item {i : OldItem} {old : Old} {G F : Forest (NodeId × Content)} (draws : D i.view G)
      (not_sole : i.view.isSole = false) (rest : Spread D old F) : Spread D (some i :: old) (G ++ F)

namespace Spread

variable {D : View → Forest (NodeId × Content) → Prop} {F : Forest (NodeId × Content)} {old : Old}
  {i : OldItem}

theorem append {xs ys : Old} (h : Spread D (xs ++ ys) F)
    : ∃ G K, F = G ++ K ∧ Spread D xs G ∧ Spread D ys K := by
  induction xs generalizing F with
  | nil => exact ⟨.nil, F, rfl, .nil, h⟩
  | cons x xs ih =>
    cases h with
    | hole rest =>
      obtain ⟨G, K, rfl, hG, hK⟩ := ih rest
      exact ⟨G, K, rfl, .hole hG, hK⟩
    | item draws not_sole rest =>
      obtain ⟨G, K, rfl, hG, hK⟩ := ih rest
      exact ⟨_ ++ G, K, (Forest.append_assoc _ _ _).symm, .item draws not_sole hG, hK⟩

theorem last {xs : Old} (h : Spread D (xs ++ [some i]) F)
    : ∃ A G, F = A ++ G ∧ Spread D xs A ∧ D i.view G ∧ i.view.isSole = false := by
  obtain ⟨A, K, rfl, hA, hK⟩ := h.append
  cases hK with
  | @item _ _ G _ draws not_sole rest =>
    cases rest
    exact ⟨A, G, by simp, hA, draws, not_sole⟩

theorem take {position : Nat} {rest : Old} (h : Spread D old F)
    (ht : take? position old = some (i, rest))
    : i.view.isSole = false ∧ ∃ A G B, F = A ++ G ++ B ∧ D i.view G ∧ Spread D rest (A ++ B) := by
  induction h generalizing rest with
  | nil => cases ht
  | hole hrest ih =>
    obtain ⟨⟨_, rest'⟩, ht', he⟩ := Option.map_eq_some_iff.1 ht
    cases he
    obtain ⟨hnot, A, G, B, rfl, hG, hAB⟩ := ih ht'
    exact ⟨hnot, A, G, B, rfl, hG, .hole hAB⟩
  | @item j old G F draws not_sole hrest ih =>
    simp only [take?] at ht
    split at ht
    . cases ht
      exact ⟨not_sole, .nil, G, F, rfl, draws, .hole hrest⟩
    . obtain ⟨⟨_, rest'⟩, ht', he⟩ := Option.map_eq_some_iff.1 ht
      cases he
      obtain ⟨hnot, A, K, B, rfl, hK, hAB⟩ := ih ht'
      refine ⟨hnot, G ++ A, K, B, ?_, hK, ?_⟩
      . simp [Forest.append_assoc]
      . rw [Forest.append_assoc]
        exact .item draws not_sole hAB

theorem ofItems {rows : List Row} (hrows : ∀ r ∈ rows, D r.view r.forest ∧ r.view.isSole = false)
    : Spread D (.ofItems (rows.map Row.item)) (.join (rows.map Row.forest)) := by
  unfold Old.ofItems
  generalize 0 = position
  induction rows generalizing position with
  | nil => exact .nil
  | cons r rows ih =>
    obtain ⟨hdraws, hnot⟩ := hrows r List.mem_cons_self
    exact .item hdraws hnot (ih (fun r' hr' => hrows r' (List.mem_cons_of_mem _ hr')) _)

end Spread

theorem mem_ofItems {items : List (Key × View)} {i : OldItem} (hi : some i ∈ Old.ofItems items)
    : items[i.position]? = some (i.key, i.view) := by
  obtain ⟨⟨⟨key, view⟩, position⟩, he, hi⟩ := List.mem_map.1 hi
  cases hi
  exact List.mem_zipIdx_iff_getElem?.1 he

structure Sound (serves : Incoming → Prop) (fits : View → View → Prop) (known : Option Positions)
    (old : Old) (new : List (Key × Incoming)) : Prop where
  serves : ∀ e ∈ new, serves e.2
  fits : ∀ i, some i ∈ old → ∀ e ∈ new, i.key = e.1 → fits i.view e.2.view
  position : ∀ i j, some i ∈ old → some j ∈ old → i.position = j.position → i.key = j.key
  known : ∀ ks, known = some ks → ∀ key position, ks.get? key = some position →
    ∀ i, some i ∈ old → i.position = position → i.key = key

namespace Sound

variable {serves : Incoming → Prop} {fits : View → View → Prop} {known : Option Positions}
  {old old' : Old} {new new' : List (Key × Incoming)}

theorem mono (h : Sound serves fits known old new) (hold : ∀ i, some i ∈ old' → some i ∈ old)
    (hnew : ∀ e ∈ new', e ∈ new) : Sound serves fits known old' new' where
  serves e he := h.serves e (hnew e he)
  fits i hi e he := h.fits i (hold i hi) e (hnew e he)
  position i j hi hj := h.position i j (hold i hi) (hold j hj)
  known ks hks key position hk i hi := h.known ks hks key position hk i (hold i hi)

theorem learn (h : Sound serves fits known old new) {ks : Positions}
    (hks : ∀ e ∈ ks, ∃ i, some i ∈ old ∧ i.key = e.1 ∧ i.position = e.2)
    : Sound serves fits (some ks) old new where
  serves := h.serves
  fits := h.fits
  position := h.position
  known := by
    rintro ks' hks' key position hk i hi rfl
    cases hks'
    obtain ⟨e, he, hposition⟩ := Option.map_eq_some_iff.1 hk
    obtain ⟨j, hj, hkey, hj'⟩ := hks e (List.mem_of_find?_eq_some he)
    have := List.find?_some he
    rw [h.position i j hi hj (hposition.symm.trans hj'.symm), hkey]
    simpa using this

theorem ofItems {items : List (Key × View)} (hserves : ∀ e ∈ new, serves e.2)
    (hfits : ∀ item ∈ items, ∀ e ∈ new, item.1 = e.1 → fits item.2 e.2.view)
    : Sound serves fits none (.ofItems items) new := by
  refine ⟨hserves, ?_, ?_, nofun⟩
  . intro i hi e he hk
    exact hfits _ (List.mem_of_getElem? (mem_ofItems hi)) e he hk
  . intro i j hi hj hij
    have := (mem_ofItems hi).symm.trans (hij ▸ mem_ofItems hj)
    exact (Prod.mk.inj (Option.some.inj this)).1

end Sound

/-- All that has happened is that keys were warned about. -/
def Warns (h h' : Host) : Prop :=
  ∃ keys : List Key, h' = { h with trace := h.trace ++ keys.map fun key => .warning (.duplicateKey key) }

theorem Warns.refl (h : Host) : Warns h h :=
  ⟨[], by simp⟩

theorem Warns.warn {h h' : Host} (hw : Warns h h') (key : Key)
    : Warns h { h' with trace := h'.trace ++ [.warning (.duplicateKey key)] } := by
  obtain ⟨keys, rfl⟩ := hw
  exact ⟨keys ++ [key], by simp⟩

theorem Warns.document_eq {h h' : Host} (hw : Warns h h') : h'.document = h.document := by
  obtain ⟨keys, rfl⟩ := hw
  rfl

/-- Whether the positions, where they were taken, tell where each item is that is left. -/
def Complete (known : Option Positions) (left : List OldItem) : Prop :=
  ∀ ks, known = some ks → ∀ i ∈ left, ks.get? i.key = some i.position

theorem Positions.get?_cons {positions : Positions} {e : Key × Nat} (key : Key)
    : get? (e :: positions) key = if e.1 = key then some e.2 else positions.get? key := by
  unfold get?
  rw [List.find?_cons]
  by_cases h : e.1 = key <;> simp [h]

theorem positions_yields (old : Old) (h : Host)
    : (positions old).Yields h fun ks h' => Warns h h' ∧
        (∀ e ∈ ks, ∃ i, some i ∈ old ∧ i.key = e.1 ∧ i.position = e.2) ∧
          ∀ i, some i ∈ old → (ks.get? i.key).isSome := by
  have loop : ∀ (is : List OldItem) (ks : Positions) (h' : Host), (∀ i ∈ is, some i ∈ old) →
      Warns h h' → (∀ e ∈ ks, ∃ i, some i ∈ old ∧ i.key = e.1 ∧ i.position = e.2) →
      (is.foldlM positions.add ks).Yields h' fun ks' h' => Warns h h' ∧
        (∀ e ∈ ks', ∃ i, some i ∈ old ∧ i.key = e.1 ∧ i.position = e.2) ∧
          ∀ key, (ks.get? key).isSome ∨ (∃ i ∈ is, i.key = key) → (ks'.get? key).isSome := by
    intro is
    induction is with
    | nil => exact fun ks h' _ hw hks => Yields.pure ⟨hw, hks, by simp⟩
    | cons i is ih =>
      intro ks h' his hw hks
      have hadded : ∀ e ∈ (i.key, i.position) :: ks,
          ∃ j, some j ∈ old ∧ j.key = e.1 ∧ j.position = e.2 := by
        intro e he
        rcases List.mem_cons.1 he with rfl | he
        . exact ⟨i, his i List.mem_cons_self, rfl, rfl⟩
        . exact hks e he
      have hfound : ∀ key, (ks.get? key).isSome ∨ (∃ j ∈ i :: is, j.key = key) →
          (Positions.get? ((i.key, i.position) :: ks) key).isSome ∨ ∃ j ∈ is, j.key = key := by
        intro key hkey
        rw [Positions.get?_cons]
        by_cases hi : i.key = key
        . simp [hi]
        . simpa [hi] using hkey
      have hrest : ∀ h', Warns h h' → (is.foldlM positions.add ((i.key, i.position) :: ks)).Yields h'
          fun ks' h' => Warns h h' ∧
            (∀ e ∈ ks', ∃ i, some i ∈ old ∧ i.key = e.1 ∧ i.position = e.2) ∧
              ∀ key, (ks.get? key).isSome ∨ (∃ j ∈ i :: is, j.key = key) → (ks'.get? key).isSome := by
        intro h' hw
        refine (ih _ h' (fun j hj => his j (List.mem_cons_of_mem i hj)) hw hadded).mono ?_
        rintro ks' h'' ⟨hw, hks', hget⟩
        exact ⟨hw, hks', fun key hkey => hget key (hfound key hkey)⟩
      rw [List.foldlM_cons]
      unfold positions.add
      split
      . exact Yields.bind_ok rfl (hrest _ (hw.warn i.key))
      . exact Yields.bind_ok rfl (hrest _ hw)
  refine (loop _ _ _ (fun i hi => List.reduceOption_mem_iff.1 hi) (.refl h) (by simp)).mono ?_
  rintro ks h' ⟨hw, hks, hget⟩
  exact ⟨hw, hks, fun i hi => hget i.key (.inr ⟨i, List.reduceOption_mem_iff.2 hi, rfl⟩)⟩

theorem learn_yields {serves : Incoming → Prop} {fits : View → View → Prop}
    {known : Option Positions} {old : Old} {new : List (Key × Incoming)}
    (hsound : Sound serves fits known old new) (h : Host)
    : (learn known old).Yields h fun ks h' => Warns h h' ∧ Sound serves fits (some ks) old new ∧
        ((old.reduceOption.map (·.key)).Nodup → Complete known old.reduceOption →
          Complete (some ks) old.reduceOption) := by
  cases known with
  | some ks => exact Yields.pure ⟨.refl h, hsound, fun _ hcomplete => hcomplete⟩
  | none =>
    refine (positions_yields old h).mono ?_
    rintro ks h' ⟨hw, hks, hget⟩
    refine ⟨hw, hsound.learn hks, fun hnd _ => ?_⟩
    rintro _ ⟨⟩ i hi
    obtain ⟨position, hposition⟩ := Option.isSome_iff_exists.1 (hget i (List.reduceOption_mem_iff.1 hi))
    obtain ⟨e, he, rfl⟩ := Option.map_eq_some_iff.1 hposition
    obtain ⟨j, hj, hkey, hj'⟩ := hks e (List.mem_of_find?_eq_some he)
    -- No other item has this key.
    have heq : j = i := List.inj_on_of_nodup_map hnd (List.reduceOption_mem_iff.2 hj) hi
      (hkey.trans (by simpa using List.find?_some he))
    rw [hposition, ← hj', heq]

theorem Complete.key_ne {ks : Positions} {key : Key} {old : Old} (hc : Complete (some ks) old.reduceOption)
    (hl : lookUp? ks key old = none) : ∀ j ∈ old.reduceOption, j.key ≠ key := by
  rintro j hj rfl
  have htake := take?_isSome (List.reduceOption_mem_iff.1 hj)
  have : lookUp? ks j.key old = take? j.position old := by
    simp only [lookUp?, hc ks rfl j hj]
    rfl
  rw [← this, hl] at htake
  cases htake

section Cases

variable {parent anchor : NodeId} {known : Option Positions} {front back : List (Key × View)}

/--
The ways of the loop: one of the lists is used up, an end of the old one is a hole, or both ends have an
item. Then like goes with like at both ends, after that crosswise, and at last comes a look at what is in
between.
-/
theorem loop_cases {P : Old → List (Key × Incoming) → Engine (List (Key × View)) → Prop}
    (no_old : ∀ new, P [] new (do
      let fresh ← mountAll parent (target back anchor) new
      return front.reverse ++ fresh ++ back))
    (no_new : ∀ old, P old [] (do
      tearDownAll old
      return front.reverse ++ back))
    (first_hole : ∀ old new, P (none :: old) new (loop parent anchor known old new front back))
    (last_hole : ∀ old new, P (old ++ [none]) new (loop parent anchor known old new front back))
    (first_first : ∀ first old e new, first.key = e.1 → P (some first :: old) (e :: new) (do
      let view ← e.2.patch first.view
      loop parent anchor known old new ((first.key, view) :: front) back))
    (last_last : ∀ last old e new, last.key = e.1 → P (old ++ [some last]) (new ++ [e]) (do
      let view ← e.2.patch last.view
      loop parent anchor known old new front ((last.key, view) :: back)))
    (first_last : ∀ first last old e new, some last ∈ some first :: old → last.key ≠ e.1 →
      first.key = e.1 → P (some first :: old) (new ++ [e]) (do
        let view ← e.2.patch first.view
        view.moveBefore (target back anchor)
        loop parent anchor known old new front ((first.key, view) :: back)))
    (last_first : ∀ first last old e new, last.key = e.1 →
      P (some first :: old ++ [some last]) (e :: new) (do
        let view ← e.2.patch last.view
        view.moveBefore first.view.firstNode
        loop parent anchor known (some first :: old) new ((last.key, view) :: front) back))
    (between : ∀ first old e new, first.key ≠ e.1 → ∀ x : Positions → Engine (List (Key × View)),
      (∀ ks item rest, lookUp? ks e.1 (some first :: old) = some (item, rest) → x ks = do
        item.view.moveBefore first.view.firstNode
        let view ← e.2.patch item.view
        loop parent anchor (some ks) rest new ((item.key, view) :: front) back) →
      (∀ ks, lookUp? ks e.1 (some first :: old) = none → x ks = do
        let view ← e.2.mount parent first.view.firstNode
        loop parent anchor (some ks) (some first :: old) new ((e.1, view) :: front) back) →
      P (some first :: old) (e :: new) (learn known (some first :: old) >>= x))
    (old : Old) (new : List (Key × Incoming))
    : P old new (loop parent anchor known old new front back) := by
  cases old with
  | nil =>
    rw [loop]
    exact no_old new
  | cons entry old =>
  cases new with
  | nil =>
    rw [loop.eq_2 _ _ _ _ _ _ (List.cons_ne_nil entry old)]
    exact no_new _
  | cons e new =>
  cases entry with
  | none =>
    rw [loop]
    exact first_hole _ _
  | some first =>
  have hsplit := List.dropLast_append_getLast (List.cons_ne_nil (some first) old)
  cases hlast : (some first :: old).getLast (List.cons_ne_nil _ _) with
  | none =>
    rw [loop.eq_4 _ _ _ _ _ _ _ _ _ hlast]
    rw [hlast] at hsplit
    have := last_hole (some first :: old).dropLast (e :: new)
    rwa [hsplit] at this
  | some last =>
  rw [loop.eq_5 _ _ _ _ _ _ _ _ _ _ hlast]
  rw [hlast] at hsplit
  have hnsplit := List.dropLast_append_getLast (List.cons_ne_nil e new)
  generalize (e :: new).getLast _ = lastNew at hnsplit ⊢
  by_cases hff : first.key = e.1
  . rw [if_pos hff]
    exact first_first first old e new hff
  rw [if_neg hff]
  by_cases hll : last.key = lastNew.1
  . rw [if_pos hll]
    have := last_last last (some first :: old).dropLast lastNew (e :: new).dropLast hll
    rwa [hsplit, hnsplit] at this
  rw [if_neg hll]
  by_cases hfl : first.key = lastNew.1
  . rw [if_pos hfl]
    have hmem : some last ∈ some first :: old := hlast ▸ List.getLast_mem _
    have := first_last first last old lastNew (e :: new).dropLast hmem hll hfl
    rwa [hnsplit] at this
  rw [if_neg hfl]
  by_cases hlf : last.key = e.1
  . rw [if_pos hlf]
    -- An item that is alone is both ends, which were compared already.
    cases old with
    | nil =>
      cases hsplit
      exact absurd hlf hff
    | cons entry old =>
      rw [List.dropLast_cons_cons] at hsplit ⊢
      have := last_first first last (entry :: old).dropLast e new hlf
      rwa [hsplit] at this
  rw [if_neg hlf]
  apply between first old e new hff
  . intro ks item rest hl
    split
    . next hl' =>
      cases hl.symm.trans hl'
      rfl
    . next hl' => cases hl.symm.trans hl'
  . intro ks hl
    split
    . next hl' => cases hl.symm.trans hl'
    . rfl

end Cases

end VirtualDom.View.Reconcile
