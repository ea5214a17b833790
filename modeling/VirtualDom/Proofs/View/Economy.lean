import VirtualDom.Proofs.Ownership.Stage
import VirtualDom.Proofs.View.Renewal
import VirtualDom.Proofs.View.Reuse

/-!
This module contains what it takes to patch a keyed list of blocks whose data has not changed: besides
moves, only items with new keys cost anything, and each item that stays is moved at most once.
-/

namespace VirtualDom

open Engine
open Document (Place Shows Standing)

variable {d : Document} {pl : Place} {x : NodeId} {A B F : Forest (NodeId × Content)}

theorem Forest.ids_join (Fs : List (Forest (NodeId × Content))) : (join Fs).ids = Fs.flatMap ids := by
  induction Fs with
  | nil => rfl
  | cons F rest ih =>
    rw [join_cons, List.flatMap_cons, ← ih]
    simp [ids]

theorem Forest.mem_census_join {Fs : List (Forest (NodeId × Content))} {a : Option NodeId}
    {e : NodeId × Standing} : e ∈ (join Fs).census a ↔ ∃ F ∈ Fs, e ∈ F.census a := by
  induction Fs with
  | nil => simp
  | cons F rest ih => simp [ih]

namespace Document

theorem Shows.exists_within_iff (h : d.Shows pl (A ++ F ++ B))
    : (∃ n ∈ F.rootIds, d.Within x n) ↔ x ∈ F.ids := by
  have h : d.Holds ((pl.narrow A B).census F) := shows_narrow.2 h
  constructor
  . rintro ⟨n, hn, hw⟩
    exact Holds.mem_ids_of_within h hw (Forest.mem_rootIds hn)
  . intro hx
    refine exists_root_within (a := some pl.node) (fun t ht => h.mem_bonds.1 ?_) hx
    rw [Place.census, bonds_add]
    exact Multiset.mem_add.2 (.inl ht)

end Document

namespace View

variable {old rows gone : List Row} {new : List (Key × View)} {bills : List Tally} {moves : Nat}
  {h h' : Host} {r : Row} {v : View}

theorem contains_join_iff (hd : d.Shows pl (.join (rows.map Row.forest)))
    : d.contains x ↔ (∃ r ∈ rows, x ∈ r.forest.ids) ∨ x ∈ (pl.census .nil).map (·.1) := by
  rw [Document.Holds.contains_iff hd, Place.map_census, Forest.ids_join]
  simp

theorem Planted.avoids_iff (hv : Planted r.view r.forest) (hd : d.Shows pl (.join (rows.map Row.forest)))
    (hr : r ∈ rows) : ¬ r.view.Avoids d x ↔ x ∈ r.forest.ids := by
  obtain ⟨A, B, rfl⟩ := List.append_of_mem hr
  have hd : d.Shows pl (.join (A.map Row.forest) ++ r.forest ++ .join (B.map Row.forest)) := by
    simpa [Forest.append_assoc] using hd
  rw [← hd.exists_within_iff, Avoids, hv.nodes_eq]
  simp

namespace Transition

theorem exists_stays (ht : Transition pl old new rows gone bills moves h h') (hr : r ∈ old)
    (hk : r.key ∈ new.map (·.1)) : ∃ r' ∈ rows, r'.key = r.key ∧ r'.forest = r.forest := by
  rw [← ht.course.keys] at hk
  obtain ⟨r', hr', hk⟩ := List.mem_map.1 hk
  exact ⟨r', hr', hk, ht.course.forest_eq ht.old_once ht.new_once r hr r' hr' hk.symm⟩

theorem exists_stayed (ht : Transition pl old new rows gone bills moves h h') (hr : r ∈ rows)
    (hk : r.key ∈ old.map Row.key) : ∃ r' ∈ old, r'.key = r.key ∧ r'.forest = r.forest := by
  obtain ⟨r', hr', hk⟩ := List.mem_map.1 hk
  exact ⟨r', hr', hk, (ht.course.forest_eq ht.old_once ht.new_once r' hr' r hr hk).symm⟩

theorem mem_gone (ht : Transition pl old new rows gone bills moves h h') (hr : r ∈ old)
    (hk : r.key ∉ new.map (·.1)) : r ∈ gone := by
  rw [ht.course.gone_eq ht.old_once]
  exact List.mem_filter.2 ⟨hr, by simpa using hk⟩

theorem not_contains_of_gone (ht : Transition pl old new rows gone bills moves h h') (hr : r ∈ gone)
    (hx : x ∈ r.forest.ids) : ¬ h'.document.contains x := by
  rw [Document.Holds.contains_iff ht.after]
  intro hmem
  refine Multiset.disjoint_left.1 (Multiset.nodup_add.1 ht.apart).2.2 hmem ?_
  rw [Forest.ids_join]
  exact List.mem_flatMap.2 ⟨r.forest, List.mem_map_of_mem hr, hx⟩

theorem not_contains_iff (ht : Transition pl old new rows gone bills moves h h')
    (hx : h.document.contains x)
    : ¬ h'.document.contains x ↔ ∃ r ∈ old, r.key ∉ new.map (·.1) ∧ x ∈ r.forest.ids := by
  constructor
  . intro hgone
    rw [contains_join_iff ht.after, not_or] at hgone
    obtain ⟨r, hr, hxr⟩ := ((contains_join_iff ht.before).1 hx).resolve_right hgone.2
    refine ⟨r, hr, fun hk => ?_, hxr⟩
    obtain ⟨r', hr', -, hforest⟩ := ht.exists_stays hr hk
    exact hgone.1 ⟨r', hr', hforest ▸ hxr⟩
  . rintro ⟨r, hr, hk, hxr⟩
    exact ht.not_contains_of_gone (ht.mem_gone hr hk) hxr

theorem eq_of_mem_ids (hd : d.Shows pl (.join (rows.map Row.forest))) {a b : Row} (ha : a ∈ rows)
    (hb : b ∈ rows) (hxa : x ∈ a.forest.ids) (hxb : x ∈ b.forest.ids) : a = b := by
  have hnd := hd.nodup
  rw [Forest.ids_join, List.flatMap_map, List.nodup_flatMap] at hnd
  have : Std.Symm (Function.onFun List.Disjoint fun r : Row => r.forest.ids) := ⟨fun _ _ => List.Disjoint.symm⟩
  by_contra hne
  exact (hnd.2.forall ha hb hne :) hxa hxb

theorem not_contained_iff (ht : Transition pl old new rows gone bills moves h h')
    (hx : h'.document.contains x)
    : ¬ h.document.contains x ↔ ∃ r ∈ rows, r.key ∉ old.map Row.key ∧ x ∈ r.forest.ids := by
  constructor
  . intro hfresh
    rw [contains_join_iff ht.before, not_or] at hfresh
    obtain ⟨r, hr, hxr⟩ := ((contains_join_iff ht.after).1 hx).resolve_right hfresh.2
    refine ⟨r, hr, fun hk => ?_, hxr⟩
    obtain ⟨r', hr', -, hforest⟩ := ht.exists_stayed hr hk
    exact hfresh.1 ⟨r', hr', hforest ▸ hxr⟩
  . rintro ⟨r, hr, hk, hxr⟩ hbefore
    rcases (contains_join_iff ht.before).1 hbefore with ⟨r', hr', hxr'⟩ | haround
    . by_cases hk' : r'.key ∈ new.map (·.1)
      . obtain ⟨r'', hr'', hkey, hforest⟩ := ht.exists_stays hr' hk'
        obtain rfl := eq_of_mem_ids ht.after hr hr'' hxr (hforest ▸ hxr')
        exact hk (hkey ▸ List.mem_map_of_mem hr')
      . exact ht.not_contains_of_gone (ht.mem_gone hr' hk') hxr' hx
    . have hnd := Document.Holds.nodup ht.after
      rw [Place.map_census, Forest.ids_join] at hnd
      exact Multiset.disjoint_left.1 (Multiset.nodup_add.1 hnd).2.2
        (List.mem_flatMap.2 ⟨r.forest, List.mem_map_of_mem hr, hxr⟩) haround

theorem standing?_kept (ht : Transition pl old new rows gone bills moves h h') {s : Standing}
    (hs : h.document.standing? x = some s) (hx : h'.document.contains x)
    : ∃ ks, h'.document.standing? x = some { s with children := ks } ∧ (x ≠ pl.node → ks = s.children) := by
  have hmem := (Document.Holds.mem ht.before x s).2 hs
  rw [Place.census, Multiset.mem_add, Multiset.mem_cons] at hmem
  rcases hmem with hmem | heq | hmem
  . obtain ⟨_, hF, hmem⟩ := Forest.mem_census_join.1 hmem
    obtain ⟨r, hr, rfl⟩ := List.mem_map.1 hF
    have hk : r.key ∈ new.map (·.1) := by
      by_contra hk
      exact ht.not_contains_of_gone (ht.mem_gone hr hk) (Forest.mem_census hmem) hx
    obtain ⟨r', hr', -, hforest⟩ := ht.exists_stays hr hk
    refine ⟨s.children, Document.Holds.left ht.after ?_, fun _ => rfl⟩
    exact Forest.mem_census_join.2 ⟨r'.forest, List.mem_map_of_mem hr', hforest ▸ hmem⟩
  . cases heq
    exact ⟨_, ht.after.standing?_node, fun hne => absurd rfl hne⟩
  . exact ⟨s.children, Document.Holds.standing? ht.after
      (Multiset.mem_add.2 (.inr (Multiset.mem_cons_of_mem hmem))), fun _ => rfl⟩

end Transition

/--
What patching a keyed list in `parent` does, where nothing that stays has to be written to. All is counted
that is done to the document.
-/
structure Economy (parent : NodeId) (old new items : List (Key × View)) (h h' : Host) : Prop where
  keys : items.map (·.1) = new.map (·.1)
  /-- An item that stays keeps its root. -/
  roots : ∀ a ∈ old, ∀ b ∈ items, a.1 = b.1 → b.2.nodes = a.2.nodes
  created : ∀ x, h'.document.contains x →
    (¬ h.document.contains x ↔ ∃ b ∈ items, b.1 ∉ old.map (·.1) ∧ ¬ b.2.Avoids h'.document x)
  released : ∀ x, h.document.contains x →
    (¬ h'.document.contains x ↔ ∃ a ∈ old, a.1 ∉ new.map (·.1) ∧ ¬ a.2.Avoids h.document x)
  /-- All other nodes stay as they are, but that the parent has other children. -/
  kept : ∀ x s, h.document.standing? x = some s → h'.document.contains x →
    ∃ ks, h'.document.standing? x = some { s with children := ks } ∧ (x ≠ parent → ks = s.children)
  inserted : h'.document.tally.inserted
    = h.document.tally.inserted + (new.filter (·.1 ∉ old.map (·.1))).length
  removed : h'.document.tally.removed
    = h.document.tally.removed + (old.filter (·.1 ∉ new.map (·.1))).length
  moved : h'.document.tally.moved ≤ h.document.tally.moved + (old.filter (·.1 ∈ new.map (·.1))).length
  /-- Where items are but put in between, nothing is moved or taken out. -/
  unmoved : (old.map (·.1)).Sublist (new.map (·.1)) →
    h'.document.tally.moved = h.document.tally.moved ∧ h'.document.tally.removed = h.document.tally.removed
  /-- Nothing is created or written but what the mounts of the items with new keys create and write. -/
  written : ∃ bills : List Tally,
    List.Forall₂ (fun w bill => Costs w.2 bill) (new.filter (·.1 ∉ old.map (·.1))) bills ∧
      h'.document.tally.created = h.document.tally.created + bills.sum.created ∧
      h'.document.tally.attributeWrites = h.document.tally.attributeWrites + bills.sum.attributeWrites ∧
      h'.document.tally.propertyWrites = h.document.tally.propertyWrites + bills.sum.propertyWrites ∧
      h'.document.tally.textWrites = h.document.tally.textWrites + bills.sum.textWrites

theorem map_item_key (rows : List Row) : (rows.map Row.item).map (·.1) = rows.map Row.key := by
  rw [List.map_map]
  rfl

theorem Costs.still_sum {ws : List (Key × View)} (hb : List.Forall₂ (fun w bill => Costs w.2 bill) ws bills)
    : bills.sum.Still := by
  refine .sum fun t ht => ?_
  obtain ⟨i, hi, rfl⟩ := List.getElem_of_mem ht
  exact (hb.get (hb.length_eq ▸ hi) hi).still

theorem Course.toll_counts (gone : List Row) (moves : Nat) (hs : bills.sum.Still)
    : (toll gone bills moves).inserted = bills.length ∧ (toll gone bills moves).moved = moves ∧
        (toll gone bills moves).removed = gone.length :=
  ⟨(congrArg (· + bills.length) hs.inserted).trans (Nat.zero_add _),
    (congrArg (· + moves) hs.moved).trans (Nat.zero_add _),
    (congrArg (· + gone.length) hs.removed).trans (Nat.zero_add _)⟩

namespace Transition

theorem survivors_add_gone (ht : Transition pl old new rows gone bills moves h h')
    : (old.filter (·.key ∈ new.map (·.1))).length + gone.length = old.length := by
  rw [ht.course.gone_eq ht.old_once, List.length_eq_length_filter_add (l := old) (·.key ∈ new.map (·.1))]
  simp

theorem economy (ht : Transition pl old new rows gone bills moves h h')
    (hold : ∀ r ∈ old, Planted r.view r.forest)
    : Economy pl.node (old.map Row.item) new (rows.map Row.item) h h' := by
  have hrows := ht.course.planted
  have hcosts := ht.course.costs ht.new_once
  obtain ⟨hinserted, hmoved, hremoved⟩ := Course.toll_counts gone moves (Costs.still_sum hcosts)
  have hitems : ∀ p : Key → Bool,
      ((old.map Row.item).filter (p ·.1)).length = (old.filter (p ·.key)).length := by
    intro p
    rw [List.filter_map, List.length_map]
    rfl
  constructor
  case keys => exact (map_item_key rows).trans ht.course.keys
  case roots =>
    simp only [List.forall_mem_map]
    intro a ha b hb hk
    have hforest := ht.course.forest_eq ht.old_once ht.new_once a ha b hb hk
    exact (hrows b hb).nodes_eq.trans ((congrArg Forest.rootIds hforest).trans (hold a ha).nodes_eq.symm)
  case created =>
    intro x hx
    rw [ht.not_contained_iff hx, map_item_key]
    constructor
    . rintro ⟨r, hr, hk, hxr⟩
      exact ⟨r.item, List.mem_map_of_mem hr, hk, ((hrows r hr).avoids_iff ht.after hr).2 hxr⟩
    . rintro ⟨_, hb, hk, hxb⟩
      obtain ⟨r, hr, rfl⟩ := List.mem_map.1 hb
      exact ⟨r, hr, hk, ((hrows r hr).avoids_iff ht.after hr).1 hxb⟩
  case released =>
    intro x hx
    rw [ht.not_contains_iff hx]
    constructor
    . rintro ⟨r, hr, hk, hxr⟩
      exact ⟨r.item, List.mem_map_of_mem hr, hk, ((hold r hr).avoids_iff ht.before hr).2 hxr⟩
    . rintro ⟨_, ha, hk, hxa⟩
      obtain ⟨r, hr, rfl⟩ := List.mem_map.1 ha
      exact ⟨r, hr, hk, ((hold r hr).avoids_iff ht.before hr).1 hxa⟩
  case kept => exact fun x s hs hx => ht.standing?_kept hs hx
  case inserted =>
    rw [map_item_key, hcosts.length_eq, ht.tally]
    exact congrArg (h.document.tally.inserted + ·) hinserted
  case removed =>
    rw [hitems (· ∉ new.map (·.1)), ← ht.course.gone_eq ht.old_once, ht.tally]
    exact congrArg (h.document.tally.removed + ·) hremoved
  case moved =>
    rw [hitems (· ∈ new.map (·.1)), ht.tally]
    have hle := ht.course.moves_le
    rw [← ht.survivors_add_gone] at hle
    exact Nat.add_le_add_left (hmoved.trans_le (Nat.le_of_add_le_add_right hle)) _
  case unmoved =>
    intro hs
    rw [map_item_key] at hs
    have hnone : gone = [] := by
      rw [ht.course.gone_eq ht.old_once, List.filter_eq_nil_iff]
      intro r hr
      simpa using hs.subset (List.mem_map_of_mem hr)
    have hmoved := hmoved.trans (ht.course.moves_eq_zero ht.new_once hs)
    have hremoved := hremoved.trans (congrArg List.length hnone)
    rw [ht.tally]
    exact ⟨congrArg (h.document.tally.moved + ·) hmoved, congrArg (h.document.tally.removed + ·) hremoved⟩
  case written =>
    rw [map_item_key, ht.tally]
    exact ⟨bills, hcosts, rfl, rfl, rfl, rfl⟩

end Transition

section Theorems

variable {alloc : Allocations} {items new : List (Key × View)} {anchor parent : Option NodeId} {sole : Bool}

/--
A mounted list of blocks, each with a key of its own, is patched by such blocks, those with a key that is
there already being of the same template with the same data. If it is not emptied as a whole, items with
new keys are mounted, those with vanished keys are taken out, and those that stay are moved at most once.
-/
theorem Mounted.patch_list_economy {old : List (Key × View)}
    (hv : Mounted alloc (.list old anchor parent sole) h)
    (hold : ∀ a ∈ old, Bare a.2) (hnew : ∀ b ∈ new, Bare b.2) (old_once : (old.map (·.1)).Nodup)
    (new_once : (new.map (·.1)).Nodup) (hmatches : ∀ a ∈ old, ∀ b ∈ new, a.1 = b.1 → Matches a.2 b.2)
    (hpartly : new ≠ [] ∨ sole = false)
    : ∃ p n items h', parent = some p ∧ anchor = some n ∧
        patch (.list old anchor parent sole) (.ofItems new) h = .ok (.list items anchor parent sole) h' ∧
        Economy p old new items h h' := by
  obtain ⟨pl, F, hv, hd, -⟩ := hv
  generalize hp : pl.node = p at hv
  cases hv with
  | @list rows n _ _ row not_sole =>
  subst hp
  have hd : h.document.Shows (pl.narrow .nil (.leaf (n, .text ""))) (.join (rows.map Row.forest)) :=
    Document.shows_narrow.2 hd
  have hplanted : ∀ r ∈ rows, Planted r.view r.forest := fun r hr =>
    (hold r.item (List.mem_map_of_mem hr)).planted (row r hr)
  rw [map_item_key] at old_once
  obtain ⟨_, h', hrun, rows', gone, bills, moves, rfl, ht⟩ := reconcile_yields_transition hd hplanted hnew
    (fun r hr => hmatches r.item (List.mem_map_of_mem hr)) old_once new_once rfl
  refine ⟨pl.node, n, rows'.map Row.item, h', rfl, rfl, ?_, ht.economy hplanted⟩
  rw [patch, ofItems, patchAs]
  split
  . next hempty =>
    -- Where there is nothing and nothing is to come, reconciling would do nothing either.
    rw [Bool.and_eq_true, List.isEmpty_iff, List.isEmpty_iff] at hempty
    obtain ⟨hnil, rfl⟩ := hempty
    rw [hnil, incomingItems, reconcile, Reconcile.Old.ofItems, List.zipIdx_nil, List.map_nil,
      Reconcile.loop] at hrun
    rw [hnil]
    obtain ⟨hitems, rfl⟩ := EStateM.Result.ok.inj hrun
    rw [← hitems]
    rfl
  split
  . next hwhole =>
    rw [Bool.and_eq_true, List.isEmpty_iff] at hwhole
    obtain ⟨rfl, rfl⟩ := hwhole
    simp at hpartly
  . exact bind_run hrun

def cards (t : Template) (identity : Nat) (keys : List Key) : List (Key × View) :=
  keys.map fun key => (key, .block t ⟨identity, [.str "x"]⟩ [] none)

theorem exists_cards
    : ∃ (t : Template) (alloc : Allocations), t.Compiled "<p><block-text-0/></p>" true ∧
        t.wiring.slots = [] ∧ ∀ identity keys, Built alloc (.ofItems (cards t identity keys)) := by
  have hmakes : Template.makes "<p><block-text-0/></p>" true fun t => t.wiring.slots.isEmpty := by
    decide +kernel
  obtain ⟨t, ht, htest⟩ := Template.exists_compiled hmakes
  have hslots := List.isEmpty_iff.1 htest
  refine ⟨t, ⟨fun _ => [], fun _ => "", fun _ => [.str "x"]⟩, ht, hslots, fun identity keys => .list ?_⟩
  intro a ha
  obtain ⟨key, -, rfl⟩ := List.mem_map.1 ha
  have hmade : ofTemplate t ⟨identity, [.str "x"]⟩ [] = .ok (.block t ⟨identity, [.str "x"]⟩ [] none) := by
    simp [ofTemplate, Template.Wiring.childCapacity, hslots, childLimit]
    rfl
  refine .block ht ?_ ⟨?_, ?_⟩ ?_ hmade
  . simp [hslots]
  . rfl
  . intro v hv
    cases List.mem_singleton.1 hv
    trivial
  . simp

theorem exists_block_of_alike {t : Template} {identity : Nat} {ks : List Key}
    (hv : Alike v (.ofItems (cards t identity ks)))
    : ∃ items anchor parent sole, v = .list items anchor parent sole ∧ items.map (·.1) = ks ∧
        ∀ a ∈ items, ∃ children mounted, a.2 = .block t ⟨identity, [.str "x"]⟩ children mounted := by
  cases hv with
  | @list items _ anchor _ parent _ sole _ keys item =>
    refine ⟨items, anchor, parent, sole, rfl, ?_, fun a ha => ?_⟩
    . rw [keys, cards, List.map_map]
      exact List.map_id ks
    . obtain ⟨i, hi, rfl⟩ := List.getElem_of_mem ha
      have hlength := congrArg List.length keys
      rw [List.length_map, List.length_map] at hlength
      have halike := item i _ _ (List.getElem?_eq_getElem hi) (List.getElem?_eq_getElem (hlength ▸ hi))
      simp only [cards, List.getElem_map] at halike
      generalize items[i].2 = v at halike ⊢
      cases halike
      exact ⟨_, _, rfl⟩

theorem Mounted.patch_list_economy_cards
    : ∃ d t items n h, d.children ⟨0, 0⟩ = .ok [⟨1, 0⟩] ∧ t.Compiled "<p><block-text-0/></p>" true ∧
        (ofItems (cards t 0 [.int 1, .int 2, .int 3])).mount ⟨0, 0⟩ none ⟨d, []⟩
          = .ok (.list items (some n) (some ⟨0, 0⟩) false) h ∧
        items.map (·.1) = [.int 1, .int 2, .int 3] ∧
        ∃ items' h',
          patch (.list items (some n) (some ⟨0, 0⟩) false) (.ofItems (cards t 1 [.int 3, .int 4, .int 1])) h
            = .ok (.list items' (some n) (some ⟨0, 0⟩) false) h' ∧
          Economy ⟨0, 0⟩ items (cards t 1 [.int 3, .int 4, .int 1]) items' h h' := by
  obtain ⟨d, c, hrun, hchildren, hparent⟩ := Document.Run.exists_paragraph
  have hparent : d.standing? ⟨0, 0⟩ = some ⟨none, [⟨1, 0⟩] ++ [], c⟩ := hparent
  obtain ⟨M, hd⟩ := hrun.wellFormed_and_capacity.1.exists_place hparent
  obtain ⟨t, alloc, ht, hslots, hbuilt⟩ := exists_cards
  obtain ⟨v, h, hmount, F, hdraws, halike, hsole, hd⟩ := mount_yields (h := ⟨d, []⟩)
    (hbuilt 0 [.int 1, .int 2, .int 3]) hd
  obtain ⟨items, anchor, parent, sole, rfl, hkeys, hblocks⟩ := exists_block_of_alike halike
  obtain rfl : sole = false := by simpa [isSole] using hsole
  have hmounted : Mounted alloc (.list items anchor parent false) h :=
    ⟨_, F, hdraws, hd, fun h => absurd h Bool.false_ne_true⟩
  have hmatches : ∀ a ∈ items, ∀ b ∈ cards t 1 [.int 3, .int 4, .int 1], a.1 = b.1 → Matches a.2 b.2 := by
    intro a ha b hb _
    obtain ⟨children, mounted, heq⟩ := hblocks a ha
    obtain ⟨key, -, rfl⟩ := List.mem_map.1 hb
    rw [heq]
    exact .block (by simp [hslots]) (.inr fun l _ => by cases l.dataIndex <;> rfl) (by simp [hslots])
      (by simp [hslots])
  have hold : ∀ a ∈ items, Bare a.2 := by
    intro a ha
    obtain ⟨children, mounted, heq⟩ := hblocks a ha
    exact heq ▸ .block ht hslots
  have hnew : ∀ b ∈ cards t 1 [.int 3, .int 4, .int 1], Bare b.2 := by
    intro b hb
    obtain ⟨key, -, rfl⟩ := List.mem_map.1 hb
    exact .block ht hslots
  obtain ⟨p, n, items', h', rfl, rfl, hpatch, heconomy⟩ := hmounted.patch_list_economy hold hnew
    (by rw [hkeys]; decide) (by simp [cards]) hmatches (.inr rfl)
  obtain rfl : p = ⟨0, 0⟩ := by
    cases hdraws
    rfl
  exact ⟨d, t, items, n, h, hchildren, ht, hmount, hkeys, items', h', hpatch, heconomy⟩

end Theorems

end View
end VirtualDom
