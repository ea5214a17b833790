import VirtualDom.Proofs.Ownership.Mount
import VirtualDom.Proofs.Ownership.Remove
import VirtualDom.Proofs.View.Matching

/-!
This module contains the reconciliation of keyed lists when nothing is known of the order of siblings:
the items own all nodes at the site of the list afterwards. An old item is kept for a new one of its key,
or goes as a whole.
-/

namespace VirtualDom.View

open Engine
open Document (Site)
open Reconcile (Old OldItem Positions)

variable {u : Usage} {s : Site} {p : NodeId} {h : Host} {F : Forest (NodeId × Content)}

def Brings (u : Usage) (w : View) (patch : Bool → View → Engine View) : Prop :=
  ∀ (old : View) (F : Forest (NodeId × Content)) (sole : Bool) (s : Site) (h : Host),
    Owns u old s.node F → (u.proper → Precedes u old w) → h.document.Carries s F →
      (sole || old.isSole → s.others = 0) →
        Performs u.proper (patch sole old) h (Succeeds u w old (sole || old.isSole) s)

structure Incoming.Takes (u : Usage) (incoming : Incoming) : Prop where
  lodges : Lodges u incoming.view
  brings : Brings u incoming.view incoming.patchAs
  not_sole : incoming.view.isSole = false

theorem Incoming.Takes.patch_performs {incoming : Incoming} (hi : incoming.Takes u) {old : View}
    (howns : Owns u old s.node F) (hnot : old.isSole = false)
    (hprecedes : u.proper → Precedes u old incoming.view) (hd : h.document.Carries s F)
    : Performs u.proper (incoming.patch old) h (Succeeds u incoming.view old false s) := by
  have hsole : (incoming.view.isSole || old.isSole) = false := by
    rw [hi.not_sole, hnot]
    rfl
  have := hi.brings old F incoming.view.isSole s h howns hprecedes hd (by simp [hsole])
  rwa [hsole] at this

namespace Reconcile

theorem learn_calm (known : Option Positions) (old : Old) : Calm (learn known old) := by
  cases known with
  | some ks => exact .pure _
  | none =>
    refine .foldlM (fun ks i => ?_) _ _
    unfold positions.add
    split
    . exact (Calm.warn _).bind fun _ => .pure _
    . exact .pure _

section Sorted

/--
Of the items that are left, some are kept for new ones of their keys, and the others leave. If no key
occurs twice, and all positions are known where they were taken, no other new item has the key of one
that leaves.
-/
inductive Sorts (p : NodeId) (known : Option Positions) (left : List OldItem)
    (new : List (Key × Incoming)) : Multiset Lodger → Prop
  | mk {kept kept' leaving fresh : Multiset (Key × View)} {gone : Multiset Lodger}
      (old : (left.map OldItem.item : Multiset (Key × View)) = kept + leaving)
      (next : (new.map fun e => (e.1, e.2.view) : Multiset (Key × View)) = kept' + fresh)
      (inner : ItemsShed p kept kept' gone)
      (apart : (left.map (·.key)).Nodup → Complete known left → ∀ a ∈ leaving, ∀ b ∈ fresh, a.1 ≠ b.1) :
      Sorts p known left new (gone + leaving.map fun item => ⟨p, item.2⟩)

/-- The new items hold all that the old ones held and that came, but for what went with old ones. -/
structure Sorted (faithful : Prop) (p : NodeId) (known : Option Positions) (left : List OldItem)
    (new : List (Key × Incoming)) (x : Exchange) (held : Holdings) : Prop where
  sorts : Sorts p known left new x.2
  trades : Trades faithful (left.map (·.view.holdings p)).sum x held

namespace Sorted

variable {faithful : Prop} {known known' : Option Positions} {left left' : List OldItem} {i : OldItem}
  {new new' : List (Key × Incoming)} {e : Key × Incoming} {x x' : Exchange} {held held' : Holdings}

theorem no_old (new : List (Key × Incoming)) (held : Holdings)
    : Sorted faithful p known [] new (held, 0) held := by
  have hnone : (([] : List OldItem).map OldItem.item : Multiset (Key × View)) = 0 + 0 := rfl
  exact ⟨.mk hnone (zero_add _).symm .nil (by simp), .come held⟩

theorem no_new (left : List OldItem)
    : Sorted faithful p known left [] (0, ↑(left.map fun i => (⟨p, i.view⟩ : Lodger))) 0 := by
  constructor
  . have hnone : (([] : List (Key × Incoming)).map (fun e => (e.1, e.2.view)) : Multiset (Key × View))
        = 0 + 0 := rfl
    have hsorts : Sorts p known left [] (0 + (left.map OldItem.item : Multiset (Key × View)).map
        fun item => ⟨p, item.2⟩) := .mk (zero_add _).symm hnone .nil (by simp)
    rwa [zero_add, Multiset.map_coe, List.map_map] at hsorts
  . have htrades : Trades faithful (left.map (·.view.holdings p)).sum
        (left.map fun i => ((0, {⟨p, i.view⟩}) : Exchange)).sum (left.map fun _ => 0).sum :=
      .sum fun i _ => .leave p i.view
    have hgone : (left.map fun i => ((0, {⟨p, i.view⟩}) : Exchange)).sum
        = (0, ↑(left.map fun i => (⟨p, i.view⟩ : Lodger))) := by
      clear htrades
      induction left with
      | nil => rfl
      | cons i left ih => rw [List.map_cons, List.sum_cons, ih, Prod.mk_add_mk, zero_add]; rfl
    rw [hgone] at htrades
    simpa using htrades

theorem keep (hleft : left.Perm (i :: left')) (hnew : new.Perm (e :: new')) (hk : i.key = e.1)
    (hgone : Sheds p i.view e.2.view x.2 ∧ Trades faithful (i.view.holdings p) x held)
    (h : Sorted faithful p known left' new' x' held')
    : Sorted faithful p known left new (x + x') (held + held') := by
  obtain ⟨hsheds, htrades⟩ := hgone
  obtain ⟨hsorts, htrades'⟩ := h
  refine ⟨?_, ?_⟩
  . rw [Prod.snd_add]
    generalize x'.2 = gone' at hsorts
    cases hsorts with
    | @mk kept kept' leaving fresh gone' old next inner apart =>
      have hold : (left.map OldItem.item : Multiset (Key × View)) = (i.key, i.view) ::ₘ kept + leaving := by
        rw [Multiset.coe_eq_coe.2 (hleft.map _), List.map_cons, ← Multiset.cons_coe, old,
          Multiset.cons_add]
        rfl
      have hnext : (new.map fun e => (e.1, e.2.view) : Multiset (Key × View))
          = (i.key, e.2.view) ::ₘ kept' + fresh := by
        rw [Multiset.coe_eq_coe.2 (hnew.map _), List.map_cons, ← Multiset.cons_coe, next,
          Multiset.cons_add, hk]
      rw [← add_assoc]
      refine .mk hold hnext (.cons hsheds inner) fun hnd hcomplete => ?_
      have hnd := ((hleft.map (·.key)).nodup_iff.1 hnd).of_cons
      exact apart hnd fun ks hks j hj => hcomplete ks hks j (hleft.symm.subset (List.mem_cons_of_mem _ hj))
  . rw [(hleft.map _).sum_eq, List.map_cons, List.sum_cons]
    exact htrades.add htrades'

theorem fresh (hne : Complete known left → ∀ i ∈ left, i.key ≠ e.1)
    (h : Sorted faithful p known left new x' held')
    : Sorted faithful p known left (e :: new) ((held, 0) + x') (held + held') := by
  obtain ⟨hsorts, htrades⟩ := h
  refine ⟨?_, ?_⟩
  . rw [Prod.snd_add, zero_add]
    generalize x'.2 = gone' at hsorts
    cases hsorts with
    | @mk kept kept' leaving fresh gone' old next inner apart =>
      have hnext : ((e :: new).map fun e => (e.1, e.2.view) : Multiset (Key × View))
          = kept' + (e.1, e.2.view) ::ₘ fresh := by
        rw [List.map_cons, ← Multiset.cons_coe, next, Multiset.add_cons]
      refine .mk old hnext inner fun hnd hcomplete a ha => ?_
      have hleft : a ∈ left.map OldItem.item := by
        rw [← Multiset.mem_coe, old]
        exact Multiset.mem_add.2 (.inr ha)
      obtain ⟨i, hi, rfl⟩ := List.mem_map.1 hleft
      exact Multiset.forall_mem_cons.2 ⟨hne hcomplete i hi, apart hnd hcomplete _ ha⟩
  . have := (Trades.come held).add htrades
    rwa [zero_add] at this

theorem learn (hcomplete : (left.map (·.key)).Nodup → Complete known left → Complete known' left)
    (h : Sorted faithful p known' left new x held) : Sorted faithful p known left new x held := by
  obtain ⟨hsorts, htrades⟩ := h
  refine ⟨?_, htrades⟩
  generalize x.2 = gone at hsorts
  cases hsorts with
  | mk old next inner apart =>
    exact .mk old next inner fun hnd hc => apart hnd (hcomplete hnd hc)

theorem sheds {items items' : List (Key × View)}
    (h : Sorted faithful p none (Old.ofItems items).reduceOption (incomingItems items') x held)
    {anchor anchor' parent parent' : Option NodeId} {sole sole' : Bool}
    (spared : sole → items' = [] → items = [])
    : Sheds p (.list items anchor parent sole) (.list items' anchor' parent' sole') x.2 ∧
        Trades faithful (holdings p (.list items anchor parent sole)) x held := by
  have hitems := map_item_ofItems items
  have hincoming : (incomingItems items').map (fun e => (e.1, e.2.view)) = items' := by
    simp [incomingItems_eq_map, Function.comp_def]
  obtain ⟨hsorts, htrades⟩ := h
  constructor
  . generalize x.2 = gone at hsorts
    cases hsorts with
    | mk old next inner apart =>
      rw [hitems] at old
      rw [hincoming] at next
      refine .list spared old next inner fun hnd => apart ?_ nofun
      rwa [← hitems, List.map_map] at hnd
  . have hsum : (Old.ofItems items).reduceOption.map (·.view.holdings p)
        = items.map (·.2.holdings p) := by
      conv => rhs; rw [← hitems, List.map_map]
      rfl
    rwa [holdings_list, ← hsum]

end Sorted

end Sorted

/-- What is left of an old list, with its nodes. -/
abbrev Held (u : Usage) (p : NodeId) : Old → Forest (NodeId × Content) → Prop :=
  Spread (Owns u · p ·)

abbrev Meeting (u : Usage) : Option Positions → Old → List (Key × Incoming) → Prop :=
  Sound (Incoming.Takes u) fun old w => u.proper → Precedes u old w

theorem Spread.firstNode_mem {i : OldItem} {old : Old} (h : Held u p (some i :: old) F) {x : NodeId}
    (hx : i.view.firstNode = some x) : x ∈ F.rootIds := by
  cases h with
  | item owns not_sole rest =>
    rw [Forest.rootIds_append]
    exact List.mem_append_left _ (owns.firstNode_mem hx)

theorem Spread.tearDownAll_performs {old : Old} (hold : Held u s.node old F)
    (hd : h.document.Carries s F)
    : Performs u.proper (tearDownAll old) h fun _ x d =>
        x = (0, ↑(old.reduceOption.map fun i => (⟨s.node, i.view⟩ : Lodger))) ∧ d.Carries s .nil := by
  generalize hp : s.node = p at hold
  induction hold generalizing h with
  | nil => exact Performs.pure ⟨rfl, hd⟩
  | hole rest ih => exact ih hd
  | @item i old G F owns not_sole rest ih =>
    have howns : Owns u i.view (s.beside F).node G := hp ▸ owns
    have hdown : Performs u.proper (i.view.tearDown >>= fun _ => pure ()) h fun (_ : PUnit) x d =>
        x = (0, {⟨p, i.view⟩}) ∧ d.Carries s F := by
      refine (howns.tearDown_performs (Document.Carries.focus_iff.2 hd) (by simp [not_sole])).finish ?_
      rintro _ x _ ⟨rfl, -, hd⟩
      exact ⟨hp ▸ rfl, Document.Carries.gone_iff.1 hd⟩
    refine Performs.bind hdown ?_
    rintro _ _ h' ⟨rfl, hd⟩
    refine (ih hd).mono ?_
    rintro _ _ d ⟨rfl, hd⟩
    exact ⟨rfl, hd⟩

/-- All that items may be put before, while the gap is open, is at the site. -/
structure Reaches (s : Site) (anchor : NodeId) (back : List (Key × View)) : Prop where
  anchor_mem : anchor ∈ s.others
  target_mem : ∀ x, target back anchor = some x → x ∈ s.others

section Reaches

variable {anchor : NodeId} {back : List (Key × View)}

theorem Reaches.beside (h : Reaches s anchor back) : Reaches (s.beside F) anchor back where
  anchor_mem := Multiset.mem_add.2 (.inl h.anchor_mem)
  target_mem x hx := Multiset.mem_add.2 (.inl (h.target_mem x hx))

theorem Reaches.cons (h : Reaches s anchor back) {key : Key} {v : View} (hv : Owns u v p F)
    : Reaches (s.beside F) anchor ((key, v) :: back) where
  anchor_mem := Multiset.mem_add.2 (.inl h.anchor_mem)
  target_mem x hx := by
    rw [Reconcile.target, List.head?_cons, Option.bind_some] at hx
    cases hfirst : v.firstNode with
    | none =>
      rw [hfirst] at hx
      cases hx
      exact Multiset.mem_add.2 (.inl h.anchor_mem)
    | some y =>
      rw [hfirst] at hx
      cases hx
      exact Multiset.mem_add.2 (.inr (Multiset.mem_coe.2 (hv.firstNode_mem hfirst)))

end Reaches

/--
The items are those of `front` and `back`, the former reversed, and between them some that own all that
is at the site, for which those that were left have been sorted.
-/
def Ranged (u : Usage) (s : Site) (known : Option Positions) (left : List OldItem)
    (new : List (Key × Incoming)) (front back items : List (Key × View)) (x : Exchange) (d : Document)
    : Prop :=
  ∃ rows : List Row, items = front.reverse ++ rows.map Row.item ++ back ∧
    List.Forall₂ (fun r e => r.Suits u s.node (e.1, e.2.view)) rows new ∧
      (u.proper → Sorted u.faithful s.node known left new x (rows.map (·.view.holdings s.node)).sum) ∧
        d.Carries s (.join (rows.map Row.forest))

/-- With one turn, all is sorted where the rest is. -/
def Turn (u : Usage) (p : NodeId) (known : Option Positions) (left left' : List OldItem)
    (new new' : List (Key × Incoming)) (x : Exchange) (held : Holdings) : Prop :=
  u.proper → ∀ x' held', Sorted u.faithful p known left' new' x' held' →
    Sorted u.faithful p known left new (x + x') (held + held')

theorem Turn.keep {known : Option Positions} {left left' : List OldItem} {i : OldItem}
    {new new' : List (Key × Incoming)} {e : Key × Incoming} {x : Exchange} {held : Holdings}
    (hleft : left.Perm (i :: left')) (hnew : new.Perm (e :: new')) (hk : i.key = e.1)
    (hgone : u.proper → Sheds p i.view e.2.view x.2 ∧ Trades u.faithful (i.view.holdings p) x held)
    : Turn u p known left left' new new' x held :=
  fun hp _ _ => .keep hleft hnew hk (hgone hp)

section Ranged

variable {known known' : Option Positions} {left left' : List OldItem} {x x' : Exchange}
  {new : List (Key × Incoming)} {e : Key × Incoming} {front back items : List (Key × View)} {r : Row}
  {d : Document}

theorem Ranged.cons (hr : r.Suits u s.node (e.1, e.2.view))
    (hturn : Turn u s.node known left left' (e :: new) new x (r.view.holdings s.node))
    (hl : Ranged u (s.beside r.forest) known left' new (r.item :: front) back items x' d)
    : Ranged u s known left (e :: new) front back items (x + x') d := by
  obtain ⟨rows, rfl, hrows, hsorted, hd⟩ := hl
  refine ⟨r :: rows, by simp, .cons hr hrows, fun hp => ?_, Document.Carries.beside_iff.1 hd⟩
  exact hturn hp _ _ (hsorted hp)

theorem Ranged.concat (hr : r.Suits u s.node (e.1, e.2.view))
    (hturn : Turn u s.node known left left' (new ++ [e]) new x (r.view.holdings s.node))
    (hl : Ranged u (s.beside r.forest) known left' new front (r.item :: back) items x' d)
    : Ranged u s known left (new ++ [e]) front back items (x + x') d := by
  obtain ⟨rows, rfl, hrows, hsorted, hd⟩ := hl
  refine ⟨rows ++ [r], by simp, List.rel_append hrows (.cons hr .nil), fun hp => ?_, ?_⟩
  . have hsum : ((rows ++ [r]).map (·.view.holdings s.node)).sum
        = r.view.holdings s.node + (rows.map (·.view.holdings s.node)).sum := by
      rw [List.map_append, List.sum_append, List.map_singleton, List.sum_singleton, add_comm]
    rw [hsum]
    exact hturn hp _ _ (hsorted hp)
  . simpa using Document.Carries.focus_iff.1 hd

theorem Ranged.learn
    (hcomplete : (left.map (·.key)).Nodup → Complete known left → Complete known' left)
    (hl : Ranged u s known' left new front back items x d)
    : Ranged u s known left new front back items x d := by
  obtain ⟨rows, hitems, hrows, hsorted, hd⟩ := hl
  exact ⟨rows, hitems, hrows, fun hp => (hsorted hp).learn hcomplete, hd⟩

end Ranged

section Turns

variable {old : Old} {i : OldItem} {e : Key × Incoming} {A B G R : Forest (NodeId × Content)}

theorem patch_performs (he : e.2.Takes u) (howns : Owns u i.view s.node G)
    (hnot : i.view.isSole = false) (hc : u.proper → Precedes u i.view e.2.view) (hk : i.key = e.1)
    (hd : h.document.Carries (s.beside R) G)
    : Performs u.proper (e.2.patch i.view) h fun v x d => ∃ K,
        Row.Suits u s.node ⟨i.key, v, K⟩ (e.1, e.2.view) ∧
          (u.proper → Sheds s.node i.view e.2.view x.2 ∧
            Trades u.faithful (i.view.holdings s.node) x (v.holdings s.node)) ∧
              d.Carries (s.beside R) K := by
  have howns : Owns u i.view (s.beside R).node G := howns
  refine (he.patch_performs howns hnot hc hd).mono ?_
  rintro v x d ⟨⟨K, hK, hstands, hsole, hd⟩, hgone⟩
  exact ⟨K, ⟨hk, hstands, hK, by simpa using hsole⟩, hgone, hd⟩

def Turns (u : Usage) (anchor : NodeId) (n : Nat) : Prop :=
  ∀ {s : Site} {h : Host} {F : Forest (NodeId × Content)} {known : Option Positions} {old : Old}
    {new : List (Key × Incoming)} {front back : List (Key × View)}, old.length + new.length < n →
      h.document.Carries s F → Meeting u known old new → Held u s.node old F →
        Reaches s anchor back →
          Performs u.proper (loop s.node anchor known old new front back) h
            (Ranged u s known old.reduceOption new front back)

variable {n : Nat} {known : Option Positions} {new : List (Key × Incoming)}
  {front back : List (Key × View)} {anchor : NodeId} {left : List OldItem} {x : Exchange}

theorem Turns.cons (ih : Turns u anchor n) (hlt : old.length + new.length < n) {r : Row}
    (hr : r.Suits u s.node (e.1, e.2.view))
    (hturn : Turn u s.node known left old.reduceOption (e :: new) new x (r.view.holdings s.node))
    (hd : h.document.Carries (s.beside F) r.forest) (hmeeting : Meeting u known old new)
    (hold : Held u s.node old F) (hreach : Reaches s anchor back)
    : Performs u.proper (loop s.node anchor known old new (r.item :: front) back) h
        fun items x' => Ranged u s known left (e :: new) front back items (x + x') := by
  have hd : h.document.Carries (s.beside r.forest) F :=
    Document.Carries.beside_iff.2 (Document.Carries.focus_iff.1 hd)
  exact (ih (s := s.beside r.forest) hlt hd hmeeting hold hreach.beside).mono
    fun _ _ _ hl => hl.cons hr hturn

theorem Turns.concat (ih : Turns u anchor n) (hlt : old.length + new.length < n) {r : Row}
    (hr : r.Suits u s.node (e.1, e.2.view))
    (hturn : Turn u s.node known left old.reduceOption (new ++ [e]) new x (r.view.holdings s.node))
    (hd : h.document.Carries (s.beside F) r.forest) (hmeeting : Meeting u known old new)
    (hold : Held u s.node old F) (hreach : Reaches s anchor back)
    : Performs u.proper (loop s.node anchor known old new front (r.item :: back)) h
        fun items x' => Ranged u s known left (new ++ [e]) front back items (x + x') := by
  have hd : h.document.Carries (s.beside r.forest) F :=
    Document.Carries.beside_iff.2 (Document.Carries.focus_iff.1 hd)
  exact (ih (s := s.beside r.forest) hlt hd hmeeting hold (hreach.cons hr.owns)).mono
    fun _ _ _ hl => hl.concat hr hturn

variable (he : e.2.Takes u) (hc : u.proper → Precedes u i.view e.2.view) (hk : i.key = e.1)

include he hc hk

theorem Turns.first_first (ih : Turns u anchor n) (hlt : old.length + new.length < n)
    (hd : h.document.Carries s F) (hmeeting : Meeting u known old new)
    (hold : Held u s.node (some i :: old) F) (hreach : Reaches s anchor back)
    : Performs u.proper (do
        let view ← e.2.patch i.view
        loop s.node anchor known old new ((i.key, view) :: front) back) h
        (Ranged u s known (some i :: old).reduceOption (e :: new) front back) := by
  cases hold with
  | item owns not_sole rest =>
    refine Performs.bind (patch_performs he owns not_sole hc hk (Document.Carries.focus_iff.2 hd)) ?_
    rintro v x h' ⟨K, hr, hgone, hd⟩
    exact ih.cons hlt hr (.keep (.refl _) (.refl _) hk hgone) hd hmeeting rest hreach

theorem Turns.last_last (ih : Turns u anchor n) (hlt : old.length + new.length < n)
    (hd : h.document.Carries s F) (hmeeting : Meeting u known old new)
    (hold : Held u s.node (old ++ [some i]) F) (hreach : Reaches s anchor back)
    : Performs u.proper (do
        let view ← e.2.patch i.view
        loop s.node anchor known old new front ((i.key, view) :: back)) h
        (Ranged u s known (old ++ [some i]).reduceOption (new ++ [e]) front back) := by
  obtain ⟨A, G, rfl, rest, owns, not_sole⟩ := hold.last
  refine Performs.bind (patch_performs he owns not_sole hc hk (Document.Carries.beside_iff.2 hd)) ?_
  rintro v x h' ⟨K, hr, hgone, hd⟩
  exact ih.concat hlt hr (.keep (reduceOption_concat_some old i) (List.perm_append_singleton _ _) hk hgone)
    hd hmeeting rest hreach

theorem Turns.first_last (ih : Turns u anchor n) (hlt : old.length + new.length < n)
    (hd : h.document.Carries s F) (hmeeting : Meeting u known old new)
    (hold : Held u s.node (some i :: old) F) (hreach : Reaches s anchor back)
    : Performs u.proper (do
        let view ← e.2.patch i.view
        view.moveBefore (target back anchor)
        loop s.node anchor known old new front ((i.key, view) :: back)) h
        (Ranged u s known (some i :: old).reduceOption (new ++ [e]) front back) := by
  cases hold with
  | @item _ _ G B owns not_sole rest =>
    refine Performs.bind (patch_performs he owns not_sole hc hk (Document.Carries.focus_iff.2 hd)) ?_
    rintro v x h₁ ⟨K, hr, hgone, hd⟩
    refine Performs.settled (hr.owns.stays (s.beside B) h₁ rfl hd fun _ x hx => ?_) ?_
    . exact Multiset.mem_add.2 (.inl (Multiset.mem_add.2 (.inl (hreach.target_mem x hx))))
    intro _ h₂ hd
    exact ih.concat hlt hr (.keep (.refl _) (List.perm_append_singleton _ _) hk hgone) hd hmeeting rest
      hreach

theorem Turns.last_first (ih : Turns u anchor n) {first : OldItem}
    (hlt : (some first :: old).length + new.length < n) (hd : h.document.Carries s F)
    (hmeeting : Meeting u known (some first :: old) new)
    (hold : Held u s.node (some first :: old ++ [some i]) F) (hreach : Reaches s anchor back)
    : Performs u.proper (do
        let view ← e.2.patch i.view
        view.moveBefore first.view.firstNode
        loop s.node anchor known (some first :: old) new ((i.key, view) :: front) back) h
        (Ranged u s known (some first :: old ++ [some i]).reduceOption (e :: new) front back) := by
  obtain ⟨A, G, rfl, rest, owns, not_sole⟩ := hold.last
  refine Performs.bind (patch_performs he owns not_sole hc hk (Document.Carries.beside_iff.2 hd)) ?_
  rintro v x h₁ ⟨K, hr, hgone, hd⟩
  refine Performs.settled (hr.owns.stays (s.beside A) h₁ rfl hd fun _ x hx => ?_) ?_
  . exact Multiset.mem_add.2 (.inl (Multiset.mem_add.2 (.inr (rest.firstNode_mem hx))))
  intro _ h₂ hd
  exact ih.cons hlt hr (.keep (reduceOption_concat_some _ i) (.refl _) hk hgone) hd hmeeting rest hreach

omit hc hk in
theorem Turns.fresh (ih : Turns u anchor n) {first : OldItem}
    (hlt : (some first :: old).length + new.length < n) (hd : h.document.Carries s F)
    (hmeeting : Meeting u known (some first :: old) new)
    (hold : Held u s.node (some first :: old) F) (hreach : Reaches s anchor back)
    (hne : Complete known (some first :: old).reduceOption →
      ∀ j ∈ (some first :: old).reduceOption, j.key ≠ e.1)
    : Performs u.proper (do
        let view ← e.2.mount s.node first.view.firstNode
        loop s.node anchor known (some first :: old) new ((e.1, view) :: front) back) h
        (Ranged u s known (some first :: old).reduceOption (e :: new) front back) := by
  have hadmits : Admits u (s.beside F) first.view.firstNode :=
    .of_others fun x hx => Multiset.mem_add.2 (.inr (hold.firstNode_mem hx))
  refine Performs.bind (he.lodges e.2.view.isSole (s.beside F) h _
    (Document.Carries.gone_iff.2 hd) hadmits) ?_
  rintro v _ h' ⟨⟨G, howns, hstands, hsole, hd⟩, rfl⟩
  rw [he.not_sole] at hsole
  have hr : Row.Suits u s.node ⟨e.1, v, G⟩ (e.1, e.2.view) :=
    ⟨rfl, hstands, howns, by simpa using hsole⟩
  exact ih.cons hlt hr (fun _ _ _ hsorted => hsorted.fresh hne) hd hmeeting hold hreach

omit he hc hk in
theorem Turns.looked_up (ih : Turns u anchor n) {first : OldItem} {ks : Positions} {rest : Old}
    (hl : lookUp? ks e.1 (some first :: old) = some (i, rest))
    (hlt : rest.length + new.length < n) (hd : h.document.Carries s F)
    (hmeeting : Meeting u (some ks) (some first :: old) (e :: new))
    (hold : Held u s.node (some first :: old) F) (hreach : Reaches s anchor back)
    : Performs u.proper (do
        i.view.moveBefore first.view.firstNode
        let view ← e.2.patch i.view
        loop s.node anchor (some ks) rest new ((i.key, view) :: front) back) h
        (Ranged u s (some ks) (some first :: old).reduceOption (e :: new) front back) := by
  obtain ⟨position, hposition, ht⟩ := Option.bind_eq_some_iff.1 hl
  obtain ⟨hnot, A, G, B, rfl, hG, hrest⟩ := hold.take ht
  have hm := mem_of_take? ht
  have hk := hmeeting.known ks rfl e.1 position hposition i hm (split_of_take? ht).1
  have hc := hmeeting.fits i hm e List.mem_cons_self hk
  have hbonds : s.bonds (A ++ G ++ B) = (s.beside (A ++ B)).bonds G := by
    rw [Site.bonds_beside, Site.bonds_append_right_comm]
  refine Performs.settled (hG.stays (s.beside (A ++ B)) h rfl (hd.congr hbonds) fun _ x hx => ?_) ?_
  . have hfirst := hold.firstNode_mem hx
    simp only [Forest.rootIds_append, List.mem_append] at hfirst
    simp only [Site.beside, Forest.rootIds_append, Multiset.mem_add, Multiset.mem_coe, List.mem_append]
    tauto
  intro _ h₁ hd
  refine Performs.bind
    (patch_performs (hmeeting.serves e List.mem_cons_self) hG hnot hc hk hd) ?_
  rintro v x h₂ ⟨K, hr, hgone, hd⟩
  exact ih.cons hlt hr (.keep (perm_of_take? ht) (.refl _) hk hgone) hd
    (hmeeting.mono (subset_of_take? ht) fun _ => List.mem_cons_of_mem _) hrest hreach

end Turns

section Loop

variable {anchor : NodeId}

theorem turns (n : Nat) : Turns u anchor n := by
  -- Every turn uses up an entry of the old list or an item of the new one.
  induction n with
  | zero => exact fun hlt => absurd hlt (Nat.not_lt_zero _)
  | succ n ih =>
  intro s h F known old new front back hlt hd hmeeting hold hreach
  revert hlt hmeeting hold
  apply loop_cases (P := fun old new x => old.length + new.length < n + 1 → Meeting u known old new →
    Held u s.node old F → Performs u.proper x h (Ranged u s known old.reduceOption new front back))
  case no_old =>
    intro new _ hmeeting hold
    cases hold
    have hall := mountAll_performs
      (fun e he => ⟨(hmeeting.serves e he).lodges, (hmeeting.serves e he).not_sole⟩) hd
      (.of_others hreach.target_mem)
    refine hall.finish ?_
    rintro _ _ _ ⟨rows, rfl, hrows, rfl, hd⟩
    exact ⟨rows, rfl, hrows, fun _ => .no_old new _, hd⟩
  case no_new =>
    intro old _ _ hold
    refine (hold.tearDownAll_performs hd).finish ?_
    rintro _ _ _ ⟨rfl, hd⟩
    exact ⟨[], by simp, .nil, fun _ => .no_new _, hd⟩
  case first_hole =>
    intro old new hlt hmeeting hold
    rw [List.reduceOption_cons_of_none]
    cases hold with
    | hole hold =>
      exact ih (by simp at hlt; omega) hd
        (hmeeting.mono (fun _ => List.mem_cons_of_mem _) fun _ he => he) hold hreach
  case last_hole =>
    intro old new hlt hmeeting hold
    obtain ⟨G, K, rfl, hG, hK⟩ := hold.append
    cases hK with
    | hole hK =>
      cases hK
      rw [Forest.append_nil] at hd
      rw [reduceOption_concat_none]
      exact ih (by simp at hlt; omega) hd
        (hmeeting.mono (fun _ => List.mem_append_left _) fun _ he => he) hG hreach
  case first_first =>
    intro first old e new hk hlt hmeeting hold
    exact ih.first_first (hmeeting.serves e (by simp)) (hmeeting.fits first (by simp) e (by simp) hk) hk
      (by simp at hlt; omega) hd
      (hmeeting.mono (fun _ => List.mem_cons_of_mem _) fun _ => List.mem_cons_of_mem _) hold hreach
  case last_last =>
    intro last old e new hk hlt hmeeting hold
    exact ih.last_last (hmeeting.serves e (by simp)) (hmeeting.fits last (by simp) e (by simp) hk) hk
      (by simp at hlt; omega) hd
      (hmeeting.mono (fun _ => List.mem_append_left _) fun _ => List.mem_append_left _) hold hreach
  case first_last =>
    intro first _ old e new _ _ hk hlt hmeeting hold
    exact ih.first_last (hmeeting.serves e (by simp)) (hmeeting.fits first (by simp) e (by simp) hk) hk
      (by simp at hlt; omega) hd
      (hmeeting.mono (fun _ => List.mem_cons_of_mem _) fun _ => List.mem_append_left _) hold hreach
  case last_first =>
    intro first last old e new hk hlt hmeeting hold
    exact ih.last_first (hmeeting.serves e (by simp)) (hmeeting.fits last (by simp) e (by simp) hk) hk
      (by simp at hlt ⊢; omega) hd
      (hmeeting.mono (fun _ => List.mem_append_left _) fun _ => List.mem_cons_of_mem _) hold hreach
  case between =>
    intro first old e new _ x hfound hmissing hlt hmeeting hold
    have hlearn := (learn_yields hmeeting h).mono fun _ _ hl => And.intro hl.1.document_eq hl.2
    refine Performs.settled (Performs.of_yields (R := fun ks d => d = h.document ∧
      Meeting u (some ks) (some first :: old) (e :: new) ∧ _) hlearn (learn_calm _ _) hd.orderly) ?_
    rintro ks h' ⟨-, heq, hmeeting, hcomplete⟩
    rw [← heq] at hd
    refine Performs.mono ?_ fun _ _ _ => Ranged.learn hcomplete
    cases hl : lookUp? ks e.1 (some first :: old) with
    | some found =>
      obtain ⟨item, rest⟩ := found
      have := length_of_lookUp? hl
      rw [hfound ks item rest hl]
      exact ih.looked_up hl (by simp at this hlt; omega) hd hmeeting hold hreach
    | none =>
      rw [hmissing ks hl]
      exact ih.fresh (hmeeting.serves e (by simp)) (by simp at hlt ⊢; omega) hd
        (hmeeting.mono (fun _ hi => hi) fun _ => List.mem_cons_of_mem _) hold hreach
        fun hcomplete => hcomplete.key_ne hl

theorem loop_performs {known : Option Positions} {old : Old} {new : List (Key × Incoming)}
    {front back : List (Key × View)} (hd : h.document.Carries s F)
    (hmeeting : Meeting u known old new) (hold : Held u s.node old F) (hreach : Reaches s anchor back)
    : Performs u.proper (loop s.node anchor known old new front back) h
        (Ranged u s known old.reduceOption new front back) :=
  turns _ (Nat.lt_succ_self _) hd hmeeting hold hreach

end Loop

end Reconcile

theorem reconcile_performs {rows : List Row} {new : List (Key × Incoming)} {anchor : NodeId}
    (hd : h.document.Carries s (.join (rows.map Row.forest)))
    (hrows : ∀ r ∈ rows, Owns u r.view s.node r.forest ∧ r.view.isSole = false)
    (htakes : ∀ e ∈ new, e.2.Takes u)
    (hprecedes : ∀ r ∈ rows, ∀ e ∈ new, r.key = e.1 → u.proper → Precedes u r.view e.2.view)
    (hanchor : anchor ∈ s.others)
    : Performs u.proper (reconcile s.node anchor (rows.map Row.item) new) h fun items x d =>
        ∃ rows' : List Row, items = rows'.map Row.item ∧
          List.Forall₂ (fun r e => r.Suits u s.node (e.1, e.2.view)) rows' new ∧
            (u.proper → Reconcile.Sorted u.faithful s.node none
              (Old.ofItems (rows.map Row.item)).reduceOption new x
                (rows'.map (·.view.holdings s.node)).sum) ∧
              d.Carries s (.join (rows'.map Row.forest)) := by
  have hmeeting : Reconcile.Meeting u none (.ofItems (rows.map Row.item)) new :=
    .ofItems htakes (by simpa [Row.item] using hprecedes)
  have hreach : Reconcile.Reaches s anchor [] := by
    refine ⟨hanchor, ?_⟩
    rintro x ⟨⟩
    exact hanchor
  refine (Reconcile.loop_performs hd hmeeting (.ofItems hrows) hreach).mono ?_
  rintro _ x d ⟨rows', rfl, hrows', hsorted, hd⟩
  exact ⟨rows', by simp, hrows', hsorted, hd⟩

end VirtualDom.View
