import VirtualDom.Proofs.View.FirstNode

/-!
This module contains what becomes of a keyed list that is patched: it has the nodes of the new items in
their order, and there is an account of every item, whatever keys the old and the new ones have.
-/

namespace VirtualDom.View

open Engine
open Document (Place Shows)
open Reconcile (Deed Account)

variable {alloc : Allocations} {session : Session} {pl : Place} {h h' : Host} {v w : View}
  {F : Forest (NodeId × Content)} {root : NodeId}

/-- The view has its nodes in the document, and is alone in their parent if it is sole. -/
def Mounted (alloc : Allocations) (v : View) (h : Host) : Prop :=
  ∃ (pl : Place) (F : Forest (NodeId × Content)), Draws alloc v pl.node F ∧ h.document.Shows pl F ∧
    (v.isSole → pl.before = [] ∧ pl.after = [])

theorem Reached.mounted (hv : Reached alloc session root v h) (hw : Part w v) : Mounted alloc w h := by
  obtain ⟨_, pl, A, B, -, -, -, -, F, hdraws, -, hsole, hd⟩ := hv.sits
  obtain ⟨pl', G, hG, hd, hwhole⟩ := hdraws.part_whole hw hd
  exact ⟨pl', G, hG, hd, hwhole fun hs => nomatch hsole hs⟩

/-- Wherever the view is mounted, its nodes have these shapes. -/
def Portrays (w : View) (T : Forest Shape) : Prop :=
  ∀ (h : Host) (parent : NodeId) (above : Option NodeId) (before after : List NodeId) (content : Content),
    h.document.WellFormed → h.document.standing? parent = some ⟨above, before ++ after, content⟩ →
      ∃ v h' A F B, w.mount parent after.head? h = .ok v h' ∧
        h'.document.below parent = .ok (A ++ F ++ B) ∧ F.rootIds = v.nodes ∧ F.map (·.2.shape) = T

theorem Built.portrays (hw : Built alloc w) : w.Portrays w.appearance := by
  intro h parent above before after content hwf hparent
  obtain ⟨M, hd⟩ := hwf.exists_place hparent
  obtain ⟨A, B, hbelow⟩ := hd.exists_below
  obtain ⟨v, h', hmount, F, hdraws, halike, -, hd⟩ := mount_yields hw hd
  exact ⟨v, h', A, F, B, hmount, hbelow _ _ hd, hdraws.nodes_eq.symm, hdraws.shapes_eq halike⟩

/--
What becomes of the items of a list. Where a sole list gets empty, they are told in order, and then all its
nodes go at once; otherwise there is an account.
-/
inductive Reckoning (parent anchor : NodeId) (sole : Bool) (old new items : List (Key × View))
    (h h' : Host) : Prop
  | cleared {h₁ : Host} (whole : sole) (old_ne_nil : old ≠ []) (new_eq_nil : new = [])
      (told : beforeRemoveItems old h = .ok () h₁)
      (run : (do
        edit (·.remove anchor)
        clear parent (itemNodes old)
        edit (·.append parent anchor) : Engine Unit) h₁ = .ok () h')
  | accounted {deeds : List Deed} (partly : ¬ (sole ∧ old ≠ [] ∧ new = []))
      (account : Account parent old new items deeds h h')

/-- What patching a list in `parent` does to its nodes and to the items, the old and the new ones. -/
structure Renewal (parent anchor : NodeId) (sole : Bool) (old new items : List (Key × View))
    (h h' : Host) : Prop where
  keys : items.map (·.1) = new.map (·.1)
  /-- Each item has a run of nodes, as a mount of it makes them; what is around all of them stays. -/
  nodes : ∃ (A K B : Forest (NodeId × Content)) (runs : List (Forest (NodeId × Content))),
    h.document.below parent = .ok (A ++ (K ++ .leaf (anchor, .text "")) ++ B) ∧
    K.rootIds = itemNodes old ∧
    h'.document.below parent = .ok (A ++ (.join runs ++ .leaf (anchor, .text "")) ++ B) ∧
    runs.map Forest.rootIds = items.map (·.2.nodes) ∧
    List.Forall₂ (fun run w => w.2.Portrays (run.map (·.2.shape))) runs new
  reckoning : Reckoning parent anchor sole old new items h h'

section Renewal

variable {old new items : List (Key × View)} {anchor parent : Option NodeId} {n : NodeId} {sole : Bool}

theorem Draws.exists_runs {p : NodeId} (hv : Draws alloc (.list items (some n) parent sole) p F)
    (ha : Alike (.list items (some n) parent sole) (.ofItems new)) (hnew : ∀ w ∈ new, Built alloc w.2)
    : ∃ runs, F = .join runs ++ .leaf (n, .text "") ∧
        runs.map Forest.rootIds = items.map (·.2.nodes) ∧
          List.Forall₂ (fun run w => w.2.Portrays (run.map (·.2.shape))) runs new := by
  cases hv with
  | @list rows _ _ _ row =>
    cases ha with
    | list keys item =>
      refine ⟨rows.map Row.forest, rfl, ?_, ?_⟩
      . rw [List.map_map, List.map_map]
        exact List.map_congr_left fun r hr => (row r hr).nodes_eq.symm
      . have hlength := congrArg List.length keys
        simp only [List.length_map] at hlength
        rw [List.forall₂_map_left_iff]
        refine List.forall₂_iff_get.2 ⟨hlength, fun i hi hi' => ?_⟩
        have halike := item i rows[i].item new[i] (by simp [hi]) (List.getElem?_eq_getElem hi')
        have hshapes := (row rows[i] (List.getElem_mem hi)).shapes_eq halike
        simpa [hshapes] using (hnew new[i] (List.getElem_mem hi')).portrays

theorem account_nil (p : NodeId) (h : Host) : Account p [] [] [] [] h h where
  enacts := .done
  old_once := .nil
  new_once := .nil
  pairs := nofun
  kept := nofun

variable {rows : List Row}

theorem exists_account (hd : h.document.Shows pl (.join (rows.map Row.forest)))
    (hrows : ∀ r ∈ rows, Draws alloc r.view pl.node r.forest ∧ r.view.isSole = false)
    (hnew : ∀ w ∈ new, Built alloc w.2)
    (hcompatible : ∀ r ∈ rows, ∀ w ∈ new, r.key = w.1 → Compatible r.view w.2)
    (hanchor : pl.after.head? = some n)
    (hr : reconcile pl.node n (rows.map Row.item) (incomingItems new) h = .ok items h')
    : ∃ deeds, Account pl.node (rows.map Row.item) new items deeds h h' := by
  have hviews : (incomingItems new).map (fun e => (e.1, e.2.view)) = new := by
    simp [incomingItems_eq_map, Function.comp_def]
  have hserves : ∀ e ∈ incomingItems new, e.2.Serves True alloc := by
    rw [incomingItems_eq_map]
    intro e he
    obtain ⟨w, hw, rfl⟩ := List.mem_map.1 he
    exact (hnew w hw).serves True
  have hmeets : ∀ r ∈ rows, ∀ e ∈ incomingItems new, r.key = e.1 → Meets True r.view e.2.view := by
    rw [incomingItems_eq_map]
    intro r hr e he hk
    obtain ⟨w, hw, rfl⟩ := List.mem_map.1 he
    exact (hcompatible r hr w hw hk).meets
  obtain ⟨-, deeds, haccount⟩ := (reconcile_gives hd hrows hserves hmeets hanchor).of_ok hr
  rw [hviews] at haccount
  exact ⟨deeds, haccount⟩

theorem exists_reckoning
    (hd : h.document.Shows pl (.join (rows.map Row.forest) ++ .leaf (n, .text "")))
    (hrows : ∀ r ∈ rows, Draws alloc r.view pl.node r.forest ∧ r.view.isSole = false)
    (hnew : ∀ w ∈ new, Built alloc w.2)
    (hcompatible : ∀ r ∈ rows, ∀ w ∈ new, r.key = w.1 → Compatible r.view w.2)
    (hr : patch (.list (rows.map Row.item) (some n) (some pl.node) sole) (.ofItems new) h = .ok v h')
    : ∃ items, v = .list items (some n) (some pl.node) sole ∧
        Reckoning pl.node n sole (rows.map Row.item) new items h h' := by
  rw [patch, ofItems, patchAs] at hr
  split at hr
  . next hempty =>
    rw [Bool.and_eq_true, List.isEmpty_iff, List.isEmpty_iff] at hempty
    obtain ⟨hnil, rfl⟩ := hempty
    rw [hnil] at hr ⊢
    cases hr
    exact ⟨[], rfl, .accounted (by simp) (account_nil _ _)⟩
  next hfull =>
  split at hr
  . next hempty =>
    rw [Bool.and_eq_true, List.isEmpty_iff] at hempty
    obtain ⟨rfl, hsole⟩ := hempty
    obtain ⟨_, h₁, htold, hr⟩ := bind_eq_result.1 hr
    obtain ⟨_, h₂, hremove, hr⟩ := bind_eq_result.1 hr
    obtain ⟨_, h₃, hclear, hr⟩ := bind_eq_result.1 hr
    obtain ⟨_, h₄, happend, hr⟩ := bind_eq_result.1 hr
    cases hr
    refine ⟨[], rfl, .cleared hsole (fun hnil => hfull (by simp [hnil])) rfl htold ?_⟩
    rw [bind_run hremove, bind_run hclear]
    exact happend
  . next hkeep =>
    obtain ⟨items, h₁, hreconcile, hr⟩ := bind_eq_result.1 hr
    cases hr
    -- The anchor is not part of what is reconciled.
    have hd : h.document.Shows (pl.narrow .nil (.leaf (n, .text ""))) (.join (rows.map Row.forest)) :=
      Document.shows_narrow.2 hd
    obtain ⟨deeds, haccount⟩ := exists_account hd hrows hnew hcompatible rfl hreconcile
    refine ⟨items, rfl, .accounted ?_ haccount⟩
    rintro ⟨hsole, -, rfl⟩
    exact hkeep (by simpa using hsole)

/--
Whatever keys a mounted list has and gets, patching it puts the new items in their order in front of its
anchor. Each item comes up once: an old one is patched with a new one of its key and stays, or is told that
it goes; a new one is what an old one is patched with, or is mounted.
-/
theorem Mounted.patch_list (hv : Mounted alloc (.list old anchor parent sole) h)
    (hnew : ∀ w ∈ new, Built alloc w.2)
    (hcompatible : ∀ a ∈ old, ∀ b ∈ new, a.1 = b.1 → Compatible a.2 b.2)
    : ∃ p n items h', parent = some p ∧ anchor = some n ∧
        patch (.list old anchor parent sole) (.ofItems new) h = .ok (.list items anchor parent sole) h' ∧
        Renewal p n sole old new items h h' := by
  obtain ⟨pl, F, hv, hd, hsole⟩ := hv
  have hpatch := (Built.list hnew).patches True _ F false pl h hv
    (Compatible.list hcompatible).meets hd hsole
  obtain ⟨v, h', hrun, F', hdraws, halike, -, hd'⟩ := hpatch.yields trivial
  obtain ⟨_, h₀, -, hempty⟩ := discardAll_yields hd
  obtain ⟨A, B, hbelow⟩ := hempty.exists_below
  generalize hp : pl.node = p at hv
  cases hv with
  | @list rows n _ _ row not_sole =>
  subst hp
  have hold : (Forest.join (rows.map Row.forest)).rootIds = itemNodes (rows.map Row.item) :=
    (itemNodes_eq fun r hr => (row r hr).nodes_eq).symm
  obtain ⟨items, rfl, hreckoning⟩ := exists_reckoning hd (fun r hr => ⟨row r hr, not_sole r hr⟩) hnew
    (fun r hr => hcompatible r.item (List.mem_map_of_mem hr)) hrun
  obtain ⟨runs, rfl, hruns, hportrays⟩ := hdraws.exists_runs halike hnew
  cases halike with
  | list keys item =>
    exact ⟨pl.node, n, items, h', rfl, rfl, hrun, keys,
      ⟨A, _, B, runs, hbelow _ _ hd, hold, hbelow _ _ hd', hruns, hportrays⟩, hreckoning⟩

def verses : List (Key × View) :=
  [(.int 1, .ofText (.str "a")), (.int 2, .ofText (.str "b")), (.int 1, .ofText (.str "c"))]

/-- The keys in another order, one with markup in place of a text, and a key that is new. -/
def revisedVerses : List (Key × View) :=
  [(.int 2, .ofText (.str "x")), (.int 1, .ofMarkup "<b/>"), (.int 3, .ofText (.str "d")),
    (.int 1, .ofText (.str "c"))]

theorem exists_text_of_alike (hv : Alike v (.ofItems verses))
    : ∃ items anchor parent sole, v = .list items anchor parent sole ∧
        items.map (·.1) = verses.map (·.1) ∧
          ∀ a ∈ items, ∃ value node parent, a.2 = .text value node parent := by
  cases hv with
  | @list items _ anchor _ parent _ sole _ keys item =>
    refine ⟨items, anchor, parent, sole, rfl, keys, fun a ha => ?_⟩
    obtain ⟨i, hi⟩ := List.getElem?_of_mem ha
    have hlength : items.length = verses.length := by simpa using congrArg List.length keys
    have hlt : i < verses.length := hlength ▸ (List.getElem?_eq_some_iff.1 hi).1
    have hverse : ∀ b ∈ verses, ∃ value, b.2 = .ofText value := by simp [verses]
    obtain ⟨value, hvalue⟩ := hverse verses[i] (List.getElem_mem hlt)
    have halike := item i a verses[i] hi (List.getElem?_eq_getElem hlt)
    rw [hvalue, ofText] at halike
    generalize a.2 = v at halike
    cases halike
    exact ⟨_, _, _, rfl⟩

theorem Mounted.patch_list_verses
    : ∃ d items n h, d.children ⟨0, 0⟩ = .ok [⟨1, 0⟩] ∧
        (ofItems verses).mount ⟨0, 0⟩ none ⟨d, []⟩ = .ok (.list items (some n) (some ⟨0, 0⟩) false) h ∧
        items.map (·.1) = [.int 1, .int 2, .int 1] ∧
        ∃ items' h',
          patch (.list items (some n) (some ⟨0, 0⟩) false) (.ofItems revisedVerses) h
            = .ok (.list items' (some n) (some ⟨0, 0⟩) false) h' ∧
          Renewal ⟨0, 0⟩ n false items revisedVerses items' h h' := by
  obtain ⟨d, c, hrun, hchildren, hparent⟩ := Document.Run.exists_paragraph
  have hwf := hrun.wellFormed_and_capacity.1
  have hparent : d.standing? ⟨0, 0⟩ = some ⟨none, [⟨1, 0⟩] ++ [], c⟩ := hparent
  obtain ⟨M, hd⟩ := hwf.exists_place hparent
  have htext : ∀ s, Built noData (.ofText (.str s)) := fun s => .text trivial
  have hbuilt : Built noData (.ofItems verses) := .list (by simp [verses, htext])
  have hrevised : ∀ w ∈ revisedVerses, Built noData w.2 := by simp [revisedVerses, htext, Built.html]
  have hfresh : Fresh {} (.ofItems verses) := .list (by simp [verses, Fresh.text])
  obtain ⟨v, h, hmount, F, hdraws, halike, hsole, -⟩ := mount_yields (h := ⟨d, []⟩) hbuilt hd
  have hreached : Reached noData {} ⟨0, 0⟩ v h := by
    refine .mount hwf (Document.contains_iff.2 ⟨_, _, _, hparent⟩) ?_ hbuilt hfresh hmount
    nofun
  obtain ⟨items, anchor, parent, sole, rfl, hkeys, htexts⟩ := exists_text_of_alike halike
  have hcompatible : ∀ a ∈ items, ∀ b ∈ revisedVerses, a.1 = b.1 → Compatible a.2 b.2 := by
    intro a ha b hb _
    obtain ⟨value, node, parent, htext⟩ := htexts a ha
    simp only [revisedVerses, List.mem_cons, List.not_mem_nil, or_false] at hb
    rw [htext]
    rcases hb with rfl | rfl | rfl | rfl
    . exact .text
    . exact .replaced (by simp [kind, ofMarkup])
    . exact .text
    . exact .text
  obtain ⟨p, n, items', h', rfl, rfl, hpatch, hrenewal⟩ :=
    (hreached.mounted .self).patch_list hrevised hcompatible
  obtain rfl : sole = false := by simpa [isSole] using hsole
  obtain rfl : p = ⟨0, 0⟩ := by
    cases hdraws
    rfl
  exact ⟨d, items, n, h, hchildren, hmount, hkeys, items', h', hpatch, hrenewal⟩

end Renewal

end VirtualDom.View
