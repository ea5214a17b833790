import VirtualDom.Proofs.View.Matching

/-!
This module contains accounts of reconciliations: which items of the old and the new list meet, which
ones are mounted, and which ones go. Each of them comes up once.
-/

namespace VirtualDom.View

open Engine
open Document (Place)

section Handover

variable {alloc : Allocations} {pl : Place} {F : Forest (NodeId × Content)} {h h' : Host}
  {v w old : View}

theorem patchAs_eq_replace (hk : old.kind ≠ w.kind) (sole : Bool)
    : w.patchAs sole old = replace w sole old := by
  cases w <;> cases old <;> first
    | exact absurd rfl hk
    | rw [patchAs]; all_goals nofun

theorem patchAs_of_kind {P : Engine View → Prop} {sole : Bool} (replaced : P (replace w sole old))
    (patched : old.kind = w.kind → P (w.patchAs sole old)) : P (w.patchAs sole old) := by
  by_cases hk : old.kind = w.kind
  . exact patched hk
  . rw [patchAs_eq_replace hk]
    exact replaced

theorem withSole_of_not_sole (hv : v.isSole = false) : v.withSole false = v := by
  cases v with
  | list | multi =>
    rw [isSole] at hv
    rw [withSole, hv]
  | _ => rfl

/-- Where an old view meets a new one, it is patched; if it is of another kind, it makes way. -/
inductive Handover (parent : NodeId) (old new : View) (h : Host) (v : View) (h' : Host) : Prop
  | patched (kind : old.kind = new.kind) (run : patch old new h = .ok v h')
  | replaced {h₁ h₂ : Host} {gone : View} (kind : old.kind ≠ new.kind)
      (mounted : new.mount parent old.firstNode h = .ok v h₁)
      (told : old.beforeRemove h₁ = .ok () h₂) (removed : old.remove h₂ = .ok gone h')

theorem Draws.handover (hdraws : Draws alloc old pl.node F) (hold : old.isSole = false)
    (hd : h.document.Shows pl F) (hr : patch old w h = .ok v h')
    : Handover pl.node old w h v h' := by
  by_cases hk : old.kind = w.kind
  . exact .patched hk hr
  . rw [patch, patchAs_eq_replace hk, replace, bind_run (read_eq_ok (hdraws.parentNode hd))] at hr
    obtain ⟨mounted, h₁, hmount, hr⟩ := bind_eq_result.1 hr
    obtain ⟨gone, h₂, hdown, hr⟩ := bind_eq_result.1 hr
    cases hr
    rw [withSole_of_not_sole hold, tearDown] at hdown
    obtain ⟨_, h₃, htold, hremoved⟩ := bind_eq_result.1 hdown
    rw [hold, Bool.or_false] at hmount
    exact .replaced hk hmount htold hremoved

/-- Views that keep their nodes when they are patched with other ones. -/
inductive Lasts : View → View → Prop
  | block {template template' : Template} {data data' : Data} {children children' : List (Option View)}
      {anchorage : Anchorage} {mounted : Option Anchorage} :
      Lasts (.block template data children (some anchorage)) (.block template' data' children' mounted)
  | text {value value' : Value} {node node' parent parent' : Option NodeId} :
      Lasts (.text value node parent) (.text value' node' parent')
  | html {markup : String} {content content' : List NodeId} {parent parent' : Option NodeId} :
      Lasts (.html markup content parent) (.html markup content' parent')
  | toggler {key : Key} {child child' : View} {parent parent' : Option NodeId}
      (inner : Lasts child child') : Lasts (.toggler key child parent) (.toggler key child' parent')

theorem Lasts.kind_eq (hs : Lasts old w) : old.kind = w.kind := by
  cases hs <;> rfl

theorem Lasts.nodes_eq (hs : Lasts old w) {sole : Bool} (hr : w.patchAs sole old h = .ok v h')
    : v.nodes = old.nodes := by
  induction hs generalizing sole v with
  | block =>
    rw [patchAs] at hr
    split at hr
    . cases hr
    . dsimp only at hr
      split at hr
      . obtain ⟨_, h₁, -, hr⟩ := bind_eq_result.1 hr
        obtain ⟨_, h₂, -, hr⟩ := bind_eq_result.1 hr
        cases hr
        rfl
      . obtain ⟨_, h₂, -, hr⟩ := bind_eq_result.1 hr
        cases hr
        rfl
  | text =>
    rw [patchAs] at hr
    split at hr
    . cases hr
      rfl
    . obtain ⟨_, h₁, -, hr⟩ := bind_eq_result.1 hr
      cases hr
      rfl
  | @html _ _ _ parent =>
    cases parent
    all_goals
      rw [patchAs, if_pos rfl] at hr
      cases hr
      rfl
  | @toggler _ _ _ parent _ inner ih =>
    cases parent
    all_goals
      rw [patchAs, if_pos rfl] at hr
      obtain ⟨child, h₁, hchild, hr⟩ := bind_eq_result.1 hr
      cases hr
      simpa only [nodes] using ih hchild

end Handover

namespace Reconcile

/-- What is done with items, which are told by their positions in the old and the new list. -/
inductive Deed where
  | pair (i j : Nat)
  | mount (j : Nat)
  | tearDown (i : Nat)

def Deed.old? : Deed → Option Nat
  | .pair i _ | .tearDown i => some i
  | .mount _ => none

def Deed.new? : Deed → Option Nat
  | .pair _ j | .mount j => some j
  | .tearDown _ => none

section Enacts

variable (parent : NodeId) (old new items : List (Key × View))

/-- The deed leads from one host to the other; what it results in is at its position in `items`. -/
inductive Does : Deed → Host → Host → Prop
  | pair {i j : Nat} {key : Key} {v w v' : View} {h h' : Host} (old : old[i]? = some (key, v))
      (new : new[j]? = some (key, w)) (item : items[j]? = some (key, v'))
      (run : Handover parent v w h v' h') : Does (.pair i j) h h'
  | mount {j : Nat} {key : Key} {w v : View} {anchor : Option NodeId} {h h' : Host}
      (new : new[j]? = some (key, w)) (item : items[j]? = some (key, v))
      (run : w.mount parent anchor h = .ok v h') : Does (.mount j) h h'
  | tearDown {i : Nat} {key : Key} {v gone : View} {h h₁ h' : Host} (old : old[i]? = some (key, v))
      (told : v.beforeRemove h = .ok () h₁) (removed : v.remove h₁ = .ok gone h') :
      Does (.tearDown i) h h'

/-- What comes between deeds: keys are warned about, and items moved. -/
inductive Aside : Host → Host → Prop
  | warn {h h' : Host} (warns : Warns h h') : Aside h h'
  | move {item : Key × View} {target : Option NodeId} {h h' : Host} (mem : item ∈ old ∨ item ∈ items)
      (run : item.2.moveBefore target h = .ok () h') : Aside h h'

/-- The deeds lead from one host to the other, in their order. -/
inductive Enacts : List Deed → Host → Host → Prop
  | done {h : Host} : Enacts [] h h
  | aside {deeds : List Deed} {h h₁ h' : Host} (first : Aside old items h h₁)
      (rest : Enacts deeds h₁ h') : Enacts deeds h h'
  | deed {deed : Deed} {deeds : List Deed} {h h₁ h' : Host}
      (first : Does parent old new items deed h h₁) (rest : Enacts deeds h₁ h') :
      Enacts (deed :: deeds) h h'

structure Listed (left : Old) (next : List (Key × Incoming)) (start : Nat) : Prop where
  old_eq : ∀ i, some i ∈ left → old[i.position]? = some (i.key, i.view)
  new_eq : ∀ e ∈ next.zipIdx start, new[e.2]? = some (e.1.1, e.1.2.view)

/--
The deeds are all that is done with the items that are left, and with next items at their positions. Those
with one key meet, where there are no others with it.
-/
structure Ledger (known : Option Positions) (left : List OldItem)
    (next : List ((Key × Incoming) × Nat)) (deeds : List Deed) (h h' : Host) : Prop where
  enacts : Enacts parent old new items deeds h h'
  old_once : (deeds.filterMap Deed.old?).Perm (left.map (·.position))
  new_once : (deeds.filterMap Deed.new?).Perm (next.map (·.2))
  pairs : (left.map (·.key)).Nodup → (next.map (·.1.1)).Nodup → Complete known left →
    ∀ i ∈ left, ∀ e ∈ next, i.key = e.1.1 → .pair i.position e.2 ∈ deeds

/--
The deeds are all that is done with the old and the new items, each of which comes up once. Where neither
list has a key twice, just those with one key meet.
-/
structure Account (deeds : List Deed) (h h' : Host) : Prop where
  enacts : Enacts parent old new items deeds h h'
  old_once : (deeds.filterMap Deed.old?).Perm (List.range old.length)
  new_once : (deeds.filterMap Deed.new?).Perm (List.range new.length)
  pairs : (old.map (·.1)).Nodup → (new.map (·.1)).Nodup → ∀ (i j : Nat) (a b : Key × View),
    old[i]? = some a → new[j]? = some b → (.pair i j ∈ deeds ↔ a.1 = b.1)
  kept : ∀ (i j : Nat) (a b item : Key × View), .pair i j ∈ deeds → old[i]? = some a → new[j]? = some b →
    Lasts a.2 b.2 → items[j]? = some item → item.2.nodes = a.2.nodes

end Enacts

variable {parent : NodeId} {old new items : List (Key × View)} {deed : Deed} {deeds : List Deed}
  {h h₁ h' : Host}

theorem Enacts.exists_does (he : Enacts parent old new items deeds h h') (hm : deed ∈ deeds)
    : ∃ h₁ h₂, Does parent old new items deed h₁ h₂ := by
  induction he with
  | done => cases hm
  | aside first rest ih => exact ih hm
  | deed first rest ih =>
    rcases List.mem_cons.1 hm with rfl | hm
    . exact ⟨_, _, first⟩
    . exact ih hm

theorem Enacts.key_eq (he : Enacts parent old new items deeds h h') {i j : Nat}
    (hm : .pair i j ∈ deeds) {a b : Key × View} (ha : old[i]? = some a) (hb : new[j]? = some b)
    : a.1 = b.1 := by
  obtain ⟨h₁, h₂, hdoes⟩ := he.exists_does hm
  cases hdoes with
  | pair old new =>
    cases old.symm.trans ha
    cases new.symm.trans hb
    rfl

theorem Enacts.nodes_eq (he : Enacts parent old new items deeds h h') {i j : Nat}
    (hm : .pair i j ∈ deeds) {a b item : Key × View} (ha : old[i]? = some a) (hb : new[j]? = some b)
    (hs : Lasts a.2 b.2) (hitem : items[j]? = some item) : item.2.nodes = a.2.nodes := by
  obtain ⟨h₁, h₂, hdoes⟩ := he.exists_does hm
  cases hdoes with
  | pair old new found run =>
    cases old.symm.trans ha
    cases new.symm.trans hb
    cases found.symm.trans hitem
    cases run with
    | patched kind run => exact hs.nodes_eq run
    | replaced kind => exact absurd hs.kind_eq kind

section Listed

variable {left left' : Old} {next : List (Key × Incoming)} {e : Key × Incoming} {start : Nat}

theorem Listed.mono (hl : Listed old new left next start) (hleft : ∀ i, some i ∈ left' → some i ∈ left)
    : Listed old new left' next start where
  old_eq i hi := hl.old_eq i (hleft i hi)
  new_eq := hl.new_eq

theorem Listed.tail (hl : Listed old new left (e :: next) start) : Listed old new left next (start + 1) where
  old_eq := hl.old_eq
  new_eq b hb := hl.new_eq b (by simp [hb])

theorem Listed.init (hl : Listed old new left (next ++ [e]) start) : Listed old new left next start where
  old_eq := hl.old_eq
  new_eq b hb := hl.new_eq b (by simp [List.zipIdx_append, hb])

theorem Listed.does_pair {i : OldItem} {j : Nat} {v : View} (hl : Listed old new left next start)
    (hi : some i ∈ left) (he : (e, j) ∈ next.zipIdx start) (hk : i.key = e.1)
    (hitem : items[j]? = some (i.key, v)) (hrun : Handover parent i.view e.2.view h v h')
    : Does parent old new items (.pair i.position j) h h' := by
  refine .pair (hl.old_eq i hi) ?_ hitem hrun
  rw [hk]
  exact hl.new_eq (e, j) he

theorem enacts_mountAll {target : Option NodeId} {front done back : List (Key × View)}
    (hl : Listed old new left next front.length) (hr : mountAll parent target next h = .ok done h')
    (hitems : items = front ++ done ++ back)
    : Enacts parent old new items ((next.zipIdx front.length).map fun e => .mount e.2) h h' := by
  induction next generalizing front done h with
  | nil =>
    rw [mountAll] at hr
    cases hr
    exact .done
  | cons e next ih =>
    obtain ⟨key, incoming⟩ := e
    rw [mountAll] at hr
    obtain ⟨v, h₁, hmount, hr⟩ := bind_eq_result.1 hr
    obtain ⟨rest, h₂, hrest, hr⟩ := bind_eq_result.1 hr
    cases hr
    have hfirst := hl.new_eq ((key, incoming), front.length) (by simp)
    refine .deed (.mount hfirst (by simp [hitems]) hmount) ?_
    have hlength : front.length + 1 = (front ++ [(key, v)]).length := by simp
    rw [hlength]
    exact ih (hlength ▸ hl.tail) hrest (by simp [hitems])

theorem enacts_tearDownAll (hl : Listed old new left next start) (hr : tearDownAll left h = .ok () h')
    : Enacts parent old new items (left.reduceOption.map (.tearDown ·.position)) h h' := by
  have hleft : ∀ i ∈ left.reduceOption, old[i.position]? = some (i.key, i.view) :=
    fun i hi => hl.old_eq i (List.reduceOption_mem_iff.1 hi)
  unfold tearDownAll at hr
  generalize left.reduceOption = is at hleft hr
  induction is generalizing h with
  | nil =>
    cases hr
    exact .done
  | cons i is ih =>
    obtain ⟨_, h₁, hfirst, hrest⟩ := bind_eq_result.1 hr
    obtain ⟨gone, h₂, hdown, hr⟩ := bind_eq_result.1 hfirst
    cases hr
    obtain ⟨_, h₃, htold, hremoved⟩ := bind_eq_result.1 hdown
    refine .deed (.tearDown (hleft i List.mem_cons_self) htold hremoved) ?_
    exact ih (fun j hj => hleft j (List.mem_cons_of_mem _ hj)) hrest

end Listed

namespace Ledger

variable {known : Option Positions} {left left' : List OldItem}
  {next next' : List ((Key × Incoming) × Nat)} {i : OldItem} {e : (Key × Incoming) × Nat}

theorem aside (hfirst : Aside old items h h₁)
    (hrest : Ledger parent old new items known left next deeds h₁ h')
    : Ledger parent old new items known left next deeds h h' where
  enacts := .aside hfirst hrest.enacts
  old_once := hrest.old_once
  new_once := hrest.new_once
  pairs := hrest.pairs

theorem learn {ks : Positions}
    (hks : (left.map (·.key)).Nodup → Complete known left → Complete (some ks) left)
    (hrest : Ledger parent old new items (some ks) left next deeds h h')
    : Ledger parent old new items known left next deeds h h' where
  enacts := hrest.enacts
  old_once := hrest.old_once
  new_once := hrest.new_once
  pairs hleft hnext hknown := hrest.pairs hleft hnext (hks hleft hknown)

theorem pair (hleft : left.Perm (i :: left')) (hnext : next.Perm (e :: next')) (hk : i.key = e.1.1)
    (hfirst : Does parent old new items (.pair i.position e.2) h h₁)
    (hrest : Ledger parent old new items known left' next' deeds h₁ h')
    : Ledger parent old new items known left next (.pair i.position e.2 :: deeds) h h' where
  enacts := .deed hfirst hrest.enacts
  old_once := (hrest.old_once.cons i.position).trans (hleft.map OldItem.position).symm
  new_once := (hrest.new_once.cons e.2).trans (hnext.map Prod.snd).symm
  pairs := by
    intro hkeys hkeys' hknown a ha b hb hab
    obtain ⟨hi, hkeys⟩ := List.nodup_cons.1 ((hleft.map OldItem.key).nodup_iff.1 hkeys)
    obtain ⟨he, hkeys'⟩ := List.nodup_cons.1 ((hnext.map fun e => e.1.1).nodup_iff.1 hkeys')
    -- No other item has the key of the two that meet.
    rcases List.mem_cons.1 (hleft.mem_iff.1 ha) with rfl | ha
    . rcases List.mem_cons.1 (hnext.mem_iff.1 hb) with rfl | hb
      . exact List.mem_cons_self
      . exact absurd (List.mem_map.2 ⟨b, hb, hab.symm.trans hk⟩) he
    . rcases List.mem_cons.1 (hnext.mem_iff.1 hb) with rfl | hb
      . exact absurd (List.mem_map.2 ⟨a, ha, hab.trans hk.symm⟩) hi
      . refine List.mem_cons_of_mem _ (hrest.pairs hkeys hkeys' ?_ a ha b hb hab)
        exact fun ks hks j hj => hknown ks hks j (hleft.mem_iff.2 (List.mem_cons_of_mem _ hj))

theorem mount (hnext : next.Perm (e :: next'))
    (hkey : (left.map (·.key)).Nodup → Complete known left → ∀ i ∈ left, i.key ≠ e.1.1)
    (hfirst : Does parent old new items (.mount e.2) h h₁)
    (hrest : Ledger parent old new items known left next' deeds h₁ h')
    : Ledger parent old new items known left next (.mount e.2 :: deeds) h h' where
  enacts := .deed hfirst hrest.enacts
  old_once := hrest.old_once
  new_once := (hrest.new_once.cons e.2).trans (hnext.map Prod.snd).symm
  pairs := by
    intro hkeys hkeys' hknown a ha b hb hab
    obtain ⟨-, hkeys'⟩ := List.nodup_cons.1 ((hnext.map fun e => e.1.1).nodup_iff.1 hkeys')
    rcases List.mem_cons.1 (hnext.mem_iff.1 hb) with rfl | hb
    . exact absurd hab (hkey hkeys hknown a ha)
    . exact List.mem_cons_of_mem _ (hrest.pairs hkeys hkeys' hknown a ha b hb hab)

theorem mounts
    (henacts : Enacts parent old new items (next.map fun e => .mount e.2) h h')
    : Ledger parent old new items known [] next (next.map fun e => .mount e.2) h h' where
  enacts := henacts
  old_once := by simp [List.filterMap_map, Function.comp_def, Deed.old?]
  new_once := by simp [List.filterMap_map, Function.comp_def, Deed.new?]
  pairs := by simp

theorem tearDowns
    (henacts : Enacts parent old new items (left.map (.tearDown ·.position)) h h')
    : Ledger parent old new items known left [] (left.map (.tearDown ·.position)) h h' where
  enacts := henacts
  old_once := by simp [List.filterMap_map, Function.comp_def, Deed.old?]
  new_once := by simp [List.filterMap_map, Function.comp_def, Deed.new?]
  pairs := by simp

end Ledger

section Account

theorem map_zipIdx {α β : Type} (f : α → β) (xs : List α)
    : xs.zipIdx.map (fun e => f e.1) = xs.map f := by
  have := congrArg (List.map f) (List.zipIdx_map_fst 0 xs)
  rwa [List.map_map] at this

variable {next : List (Key × Incoming)}

theorem Listed.ofItems (old : List (Key × View)) (next : List (Key × Incoming))
    : Listed old (next.map fun e => (e.1, e.2.view)) (.ofItems old) next 0 where
  old_eq i hi := mem_ofItems hi
  new_eq e he := by
    rw [List.getElem?_map, List.mem_zipIdx_iff_getElem?.1 he]
    rfl

theorem Ledger.account (hl : Ledger parent old (next.map fun e => (e.1, e.2.view)) items none
      (Old.ofItems old).reduceOption (next.zipIdx 0) deeds h h')
    : Account parent old (next.map fun e => (e.1, e.2.view)) items deeds h h' := by
  obtain ⟨henacts, hold, hnew, hpairs⟩ := hl
  rw [reduceOption_ofItems] at hold hpairs
  refine ⟨henacts, ?_, ?_, fun hkeys hkeys' i j a b ha hb =>
      ⟨fun hm => henacts.key_eq hm ha hb, fun hab => ?_⟩,
    fun i j a b item hm ha hb hs hitem => henacts.nodes_eq hm ha hb hs hitem⟩
  . simpa [Function.comp_def, List.zipIdx_map_snd, List.range_eq_range'] using hold
  . simpa [List.zipIdx_map_snd, List.range_eq_range'] using hnew
  . rw [List.getElem?_map] at hb
    obtain ⟨e, he, rfl⟩ := Option.map_eq_some_iff.1 hb
    refine hpairs ?_ ?_ nofun ⟨i, a.1, a.2⟩ ?_ (e, j) (List.mem_zipIdx_iff_getElem?.2 he) hab
    . rw [List.map_map]
      exact (map_zipIdx Prod.fst old).symm ▸ hkeys
    . rw [List.map_map] at hkeys'
      exact (map_zipIdx Prod.fst next).symm ▸ hkeys'
    . exact List.mem_map.2 ⟨(a, i), List.mem_zipIdx_iff_getElem?.2 ha, rfl⟩

end Account

end Reconcile

end VirtualDom.View
