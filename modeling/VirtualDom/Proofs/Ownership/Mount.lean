import Mathlib.Algebra.BigOperators.Group.List.Basic
import VirtualDom.Proofs.Ownership.Calm
import VirtualDom.Proofs.Ownership.Components
import VirtualDom.Proofs.Ownership.Lodged
import VirtualDom.Proofs.Ownership.Slots

/-!
This module contains what mounting comes to when nothing is known of the order of siblings: a view that
is mounted owns what is new in its parent, and nothing has gone.
-/

namespace VirtualDom

open Engine
open Document (Place Site Standing)
open Template (Marked Opening)

variable {u : Usage} {s : Site} {h : Host} {F G L T : Forest (NodeId × Content)} {id : NodeId}
  {anchor : Option NodeId} {proper : Prop}

/-- The anchor is among the siblings to be, or at least one of the nodes of the document. -/
def Admits (u : Usage) (s : Site) (anchor : Option NodeId) : Prop :=
  ∀ x, anchor = some x → x ∈ s.others ∨ ¬ u.proper ∧ x ∈ s.known

namespace Admits

theorem none : Admits u s none :=
  nofun

theorem of_others (h : ∀ x, anchor = some x → x ∈ s.others) : Admits u s anchor :=
  fun x hx => .inl (h x hx)

theorem beside (h : Admits u s anchor) : Admits u (s.beside F) anchor := by
  intro x hx
  refine (h x hx).imp (fun hx => Multiset.mem_add.2 (.inl hx)) fun ⟨hp, hx⟩ => ⟨hp, ?_⟩
  rw [Site.known, Site.beside, Multiset.map_add]
  refine Multiset.mem_of_le ?_ hx
  exact Multiset.cons_le_cons _ (Multiset.le_add_left _ _)

theorem aside (h : Admits u s anchor) : Admits u (s.aside F) anchor := by
  intro x hx
  refine (h x hx).imp (fun hx => hx) fun ⟨hp, hx⟩ => ⟨hp, ?_⟩
  rw [Site.known, Site.aside, Multiset.map_add]
  refine Multiset.mem_of_le ?_ hx
  exact Multiset.cons_le_cons _ (Multiset.le_add_left _ _)

end Admits

section Leaves

theorem carries_aside {M : Multiset (NodeId × Standing)} {d : Document} (hd : d.Orderly)
    (hM : d.Holds (L.census none + M)) (hbonds : Document.bonds M = s.bonds F)
    : d.Carries (s.aside L) F := by
  refine ⟨hd, _, hM, ?_⟩
  rw [Document.bonds_add, hbonds, Site.bonds_aside]
  rfl

theorem create_settles (hd : h.document.Carries s F) (c : Content)
    : Settles proper (create (·.create c)) h fun id d => d.Carries (s.aside (.leaf (id, c))) F := by
  obtain ⟨M, hM, hbonds⟩ := hd.holds
  obtain ⟨id, d, hcreate, -, hM⟩ := hM.create c
  have hyields : (create (·.create c)).Yields h fun id h' =>
      h'.document.Holds ((id, ⟨none, [], c⟩) ::ₘ M) := ⟨id, _, create_eq_ok hcreate, hM⟩
  refine (Performs.of_yields (R := fun id d => d.Holds ((id, ⟨none, [], c⟩) ::ₘ M)) hyields
    (.create c) hd.orderly).mono ?_
  rintro id _ d ⟨rfl, horderly, hM⟩
  refine ⟨rfl, carries_aside horderly ?_ hbonds⟩
  rwa [Forest.census_cons, Forest.census_nil, Forest.census_nil, Multiset.add_zero, Multiset.cons_add,
    Multiset.zero_add]

theorem View.Makes.settles {x : Engine (List NodeId)} {C : Forest Content} (hx : Makes x C)
    (hcalm : Calm x) (hd : h.document.Carries s F)
    : Settles proper x h fun ids d => ∃ L : Forest (NodeId × Content), ids = L.rootIds ∧
        L.map (·.2) = C ∧ d.Carries (s.aside L) F := by
  obtain ⟨M, hM, hbonds⟩ := hd.holds
  refine (Performs.of_yields (R := fun ids d => ∃ L : Forest (NodeId × Content), ids = L.rootIds ∧
    L.map (·.2) = C ∧ d.Holds (L.census none + M)) (hx h M hM) hcalm hd.orderly).mono ?_
  rintro _ _ d ⟨rfl, horderly, L, rfl, hL, hM⟩
  exact ⟨rfl, L, rfl, hL, carries_aside horderly hM hbonds⟩

theorem Rewrites.settles {N : String → Prop} {x : Engine Unit} {f : Shape → Shape}
    (hx : Rewrites N x id f) (hcalm : Calm x) (hd : h.document.Carries s F)
    (hid : id ∈ (s.bonds F).map (·.1)) : Settles proper x h fun _ d => d.Carries s F := by
  obtain ⟨a, ks, c, M, hM, hback⟩ := hd.exists_holds hid
  refine (Performs.of_yields (R := fun _ d => ∃ c', c.Becomes N f c' ∧
    d.Holds ((id, ⟨a, ks, c'⟩) ::ₘ M)) (hx h a ks c M hM) hcalm hd.orderly).mono ?_
  rintro _ _ d ⟨rfl, horderly, c', -, hM⟩
  exact ⟨rfl, hback d c' horderly hM⟩

theorem insert_settles (hd : h.document.Carries (s.aside T) F) (hT : T.rootIds = [id])
    (ha : Admits u s anchor)
    : Settles u.proper (insert s.node id anchor) h fun _ d => d.Carries s (F ++ T) := by
  apply Performs.edit (.insert _ _ _) _ hd.orderly
  have hself : anchor ≠ some id := by
    intro hself
    refine hd.ne_aside hT ?_ rfl
    exact (ha id hself).imp (fun hx => Multiset.mem_add.2 (.inl hx)) And.right
  rcases hd.insert hT hself with ⟨-, hinsert⟩ | ⟨⟨x, hx, hnot⟩, herror⟩
  . exact .inl hinsert
  . refine .inr ⟨herror, fun hp => ?_⟩
    rcases ha x hx with hx | ⟨hnp, -⟩
    . exact hnot (Multiset.mem_add.2 (.inl hx))
    . exact hnp hp

theorem insertAll_settles (hd : h.document.Carries (s.aside L) F) (ha : Admits u s anchor)
    : Settles u.proper (View.insertAll s.node L.rootIds anchor) h fun _ d => d.Carries s (F ++ L) := by
  induction L generalizing F h with
  | nil =>
    refine Performs.pure ⟨rfl, hd.congr ?_⟩
    rw [Site.bonds_aside, Forest.append_nil]
    exact zero_add _
  | cons label children siblings _ ih =>
    obtain ⟨id, c⟩ := label
    have hs : Forest.cons (id, c) children siblings = .cons (id, c) children .nil ++ siblings := rfl
    have hd : h.document.Carries ((s.aside siblings).aside (.cons (id, c) children .nil)) F := by
      apply hd.congr
      rw [Site.bonds_aside, Site.bonds_aside, Site.bonds_aside, ← add_assoc, hs, Forest.bonds_append]
    refine Performs.settled (insert_settles (s := s.aside siblings) hd rfl ha.aside) ?_
    intro _ h' hd
    have := ih hd
    rwa [Forest.append_assoc] at this

end Leaves

namespace View

def Lodges (u : Usage) (w : View) : Prop :=
  ∀ (sole : Bool) (s : Site) (h : Host) (anchor : Option NodeId), h.document.Carries s .nil →
    Admits u s anchor → Performs u.proper (w.mountAs sole s.node anchor) h (Arrives u w sole s)

theorem mountStandIn_settles (hd : h.document.Carries s F) (ha : Admits u s anchor)
    : Settles u.proper (mountStandIn s.node anchor) h fun id d =>
        ∃ T : Forest (NodeId × Content), T.rootIds = [id] ∧ d.Carries s (F ++ T) := by
  refine Performs.settled (create_settles hd (.text "")) ?_
  intro id h' hd
  refine Performs.settled (insert_settles hd rfl ha) ?_
  intro _ h'' hd
  exact Performs.pure ⟨rfl, _, rfl, hd⟩

section Lists

theorem mountAll_performs {new : List (Key × Incoming)}
    (hnew : ∀ e ∈ new, Lodges u e.2.view ∧ e.2.view.isSole = false)
    (hd : h.document.Carries s .nil) (ha : Admits u s anchor)
    : Performs u.proper (Reconcile.mountAll s.node anchor new) h fun items x d => ∃ rows : List Row,
        items = rows.map Row.item ∧
          List.Forall₂ (fun r e => r.Suits u s.node (e.1, e.2.view)) rows new ∧
            x = ((rows.map (·.view.holdings s.node)).sum, 0) ∧ d.Carries s (.join (rows.map Row.forest)) := by
  induction new generalizing h s with
  | nil =>
    rw [Reconcile.mountAll]
    exact Performs.pure ⟨[], rfl, .nil, rfl, hd⟩
  | cons e rest ih =>
    obtain ⟨key, incoming⟩ := e
    obtain ⟨hlodges, hnot⟩ := hnew _ List.mem_cons_self
    rw [Reconcile.mountAll]
    refine Performs.bind (hlodges incoming.view.isSole s h anchor hd ha) ?_
    rintro v _ h₁ ⟨⟨F, howns, hstands, hsole, hd⟩, rfl⟩
    have hrest := ih (s := s.beside F) (fun e he => hnew e (List.mem_cons_of_mem _ he))
      (Document.Carries.gone_iff.2 hd) ha.beside
    refine hrest.finish ?_
    rintro _ _ _ ⟨rows, rfl, hrows, rfl, hd⟩
    rw [hnot] at hsole
    refine ⟨⟨key, v, F⟩ :: rows, rfl, .cons ⟨rfl, hstands, howns, ?_⟩ hrows, Exchange.came_add _ _, ?_⟩
    . simpa using hsole
    . exact Document.Carries.beside_iff.1 hd

theorem mountChildren_performs {children : List (Option View)}
    (hchild : ∀ w, some w ∈ children → Lodges u w ∧ w.isSole = false)
    (hd : h.document.Carries s .nil) (ha : Admits u s anchor)
    : Performs u.proper (mountChildren s.node anchor children) h fun result x d => ∃ cells : List Cell,
        result = (cells.map Cell.child, cells.map Cell.standIn) ∧
          List.Forall₂ (Cell.Suits u s.node) cells children ∧
            x = ((cells.map fun c => holdingsAt s.node c.child).sum, 0) ∧
              d.Carries s (.join (cells.map Cell.forest)) := by
  induction children generalizing h s with
  | nil =>
    rw [mountChildren]
    exact Performs.pure ⟨[], rfl, .nil, rfl, hd⟩
  | cons child rest ih =>
    -- Whatever was mounted first, the rest is mounted beside it.
    have next : ∀ {F : Forest (NodeId × Content)} {h : Host}, h.document.Carries s F →
        Performs u.proper (mountChildren s.node anchor rest) h fun result x d => ∃ cells : List Cell,
          result = (cells.map Cell.child, cells.map Cell.standIn) ∧
            List.Forall₂ (Cell.Suits u s.node) cells rest ∧
              x = ((cells.map fun c => holdingsAt s.node c.child).sum, 0) ∧
                d.Carries s (F ++ .join (cells.map Cell.forest)) := by
      intro F h hd
      refine (ih (s := s.beside F) (fun w hw => hchild w (List.mem_cons_of_mem _ hw))
        (Document.Carries.gone_iff.2 hd) ha.beside).mono ?_
      rintro _ x d ⟨cells, rfl, hcells, hx, hd⟩
      exact ⟨cells, rfl, hcells, hx, Document.Carries.beside_iff.1 hd⟩
    cases child with
    | none =>
      rw [mountChildren]
      refine Performs.settled (mountStandIn_settles hd ha) ?_
      rintro id h₁ ⟨T, hT, hd⟩
      refine (next hd).finish ?_
      rintro _ _ _ ⟨cells, rfl, hcells, rfl, hd⟩
      refine ⟨⟨none, some id, T⟩ :: cells, rfl, .cons (.absent hT) hcells, ?_, hd⟩
      rw [List.map_cons, List.sum_cons, holdingsAt_none, zero_add]
    | some w =>
      obtain ⟨hlodges, hnot⟩ := hchild w List.mem_cons_self
      rw [mountChildren]
      refine Performs.bind (hlodges w.isSole s h anchor hd ha) ?_
      rintro v _ h₁ ⟨⟨F, howns, hstands, hsole, hd⟩, rfl⟩
      rw [hnot] at hsole
      refine (next hd).finish ?_
      rintro _ _ _ ⟨cells, rfl, hcells, rfl, hd⟩
      exact ⟨⟨some v, none, F⟩ :: cells, rfl, .cons (.present howns hstands (by simpa using hsole)) hcells,
        Exchange.came_add _ _, hd⟩

end Lists

section Block

variable {template : Template} {source : String} {normalize : Bool}

theorem plantBlock_performs (compiled : template.Compiled source normalize) (data : Data)
    (hd : h.document.Carries s .nil) (ha : Admits u s anchor)
    : Performs u.proper (plantBlock template data s.node anchor) h fun anchorage x d =>
        x = ((0, (template.links anchorage.references data : Multiset Link)), 0) ∧ ∃ S held,
          template.Copied anchorage.root anchorage.references S ∧
            d.Carries s (S.filled held fun _ => .nil) := by
  by_cases hlegit : ∀ x, anchor = some x → x ∈ s.others
  . -- Where the anchor is a sibling, the copy comes to a place before it.
    obtain ⟨pl, hnode, rfl, hpl, hback⟩ := hd.exists_spot
      fun x hx => Multiset.mem_add.2 (.inl (hlegit x hx))
    have hplant := plantBlock_yields compiled template.sketch.named_true data hpl
    rw [hnode] at hplant
    obtain ⟨anchorage, h', hrun, S, held, copied, -, -, hshows⟩ := hplant
    obtain ⟨hannals, es, htrace, hes, hlinks⟩ := plantBlock_announces _ _ _ _ h anchorage h' hrun
    refine Performs.of_ok hrun ⟨htrace, fun _ => .quiet hes, congrArg _ hlinks, ?_⟩
      ⟨rfl, S, held, copied, hback h'.document _ (hd.orderly.of_annals_eq hannals) hshows⟩
    rw [hannals]
    exact (add_zero _).symm
  . -- No copy is put before a node that is somewhere else.
    simp only [not_forall] at hlegit
    obtain ⟨x, hx, hstray⟩ := hlegit
    obtain ⟨hnot, hknown⟩ := (ha x hx).resolve_left hstray
    obtain ⟨M, hM, hbonds⟩ := hd.holds
    obtain ⟨L, d, hplant, hL, hM⟩ := hM.plant template.content
    obtain ⟨S, rfl, hS⟩ := Marked.exists_of_content hL
    obtain ⟨root, c, marks, C, rfl⟩ := compiled.exists_root hS
    have hannals := Document.annals_plant hplant
    have hd := carries_aside (hd.orderly.of_annals_eq hannals) hM hbonds
    have hself : anchor ≠ some root := fun hself =>
      hd.ne_aside rfl (.inr hknown) (Option.some.inj (hx.symm.trans hself))
    obtain ⟨-, e, he⟩ := (hd.insert rfl hself).resolve_left fun hin =>
      hstray (by simpa using hin.1 x hx)
    unfold plantBlock
    refine Performs.bind_ok (change_eq_ok hplant) rfl (congrArg Annals.arrivals hannals) ?_
    exact Performs.edit_error he hnot hd.orderly

theorem mountSlots_performs {S : Marked} {root : NodeId} {references : List NodeId}
    {held : NodeId → Content} (copied : template.Copied root references S)
    (indices : (template.wiring.slots.map (·.index)).Nodup) {children : List (Option View)}
    (hchild : ∀ w, some w ∈ children → Lodges u w)
    (capacity : ∀ slot ∈ template.wiring.slots, slot.index < children.length)
    (hd : h.document.Carries s (S.filled held fun _ => .nil))
    : Performs u.proper (template.wiring.slots.foldlM (mountSlot references (mountings children)) children)
        h fun children' x d => ∃ guests : Nat → Forest (NodeId × Content),
          (∀ o ∈ S.openings s.node, ∃ v w, children'[o.index]? = some v ∧
            children[o.index]? = some w ∧ Houses u o v w (guests o.index)) ∧
          (∀ i, (∀ o ∈ S.openings s.node, i ≠ o.index) → children'[i]? = children[i]?) ∧
          x = (((S.openings s.node).map fun o => holdingsAt o.parent children'[o.index]?.join).sum, 0) ∧
            d.Carries s (S.filled held guests) := by
  refine (Template.slots_performs copied indices (fun state i => state[i]?)
    (fun o cell G => cell = children[o.index]? ∧ G = .nil)
    (fun o cell x G => (∃ v w, cell = some v ∧ children[o.index]? = some w ∧ Houses u o v w G) ∧
      x = (holdingsAt o.parent cell.join, 0)) ?_ hd ?_).mono ?_
  . rintro slot o state h site G hso ho hnode hanchor hsole ⟨hcell, rfl⟩ hd
    dsimp only at hcell ⊢
    obtain ⟨hindex, hslot, hparent, -⟩ := Template.ChildSlot.resolve_eq_some hso
    obtain ⟨t, ht, hi⟩ := copied.exists_slot ho
    have hlt := capacity t ht
    rw [hi] at hlt
    obtain ⟨w, hw⟩ : ∃ w, children[o.index]? = some w := ⟨_, List.getElem?_eq_getElem hlt⟩
    rw [hw] at hcell
    unfold mountSlot
    rw [hindex, hslot, mountings_eq_map, List.getElem?_map, hw]
    cases w with
    | none =>
      refine Performs.pure ⟨.nil, ⟨⟨none, none, hcell, rfl, .absent⟩, ?_⟩, fun _ _ => rfl, hd⟩
      rw [hcell]
      rfl
    | some w =>
      refine Performs.bind_ok (Template.Wiring.reference_eq_ok hparent) rfl rfl ?_
      refine Performs.bind_ok (Template.anchor_eq_ok hso) rfl rfl ?_
      rw [← hnode]
      refine (hchild w (List.mem_of_getElem? hw) o.sole site h _ hd (.of_others hanchor)).finish ?_
      rintro v _ _ ⟨⟨F, howns, hstands, hvsole, hd⟩, rfl⟩
      have hset : (state.set o.index (some v))[o.index]? = some (some v) :=
        List.getElem?_set_self (List.getElem?_eq_some_iff.1 hcell).1
      refine ⟨F, ⟨⟨some v, some w, hset, rfl, .present (hnode ▸ howns) hstands hvsole⟩, ?_⟩,
        fun i hne => List.getElem?_set_ne hne.symm, hd⟩
      rw [hset, hnode]
      rfl
  . exact fun o ho => ⟨rfl, rfl⟩
  . rintro children' _ d ⟨guests, changes, rfl, hafter, hothers, hd⟩
    refine ⟨guests, fun o ho => (hafter o ho).1, hothers, ?_, hd⟩
    rw [List.map_congr_left fun o ho => (hafter o ho).2]
    exact Exchange.sum_came _ _

theorem mountBlock_performs (compiled : template.Compiled source normalize) {data : Data}
    {children : List (Option View)} (mountable : Mountable u (.block template data children none))
    (hchild : ∀ w, some w ∈ children → Lodges u w) {mounted : Option Anchorage} {sole : Bool}
    (hd : h.document.Carries s .nil) (ha : Admits u s anchor)
    : Performs u.proper (mountBlock template data children (mountings children) s.node anchor) h
        (Arrives u (.block template data children mounted) sole s) := by
  rw [mountBlock_eq]
  refine Performs.bind (plantBlock_performs compiled data hd ha) ?_
  rintro ⟨root, references⟩ _ h₁ ⟨rfl, S, held, copied, hd⟩
  cases mountable with
  | block known compiled indices capacity placed child =>
    refine (mountSlots_performs copied indices hchild capacity hd).finish ?_
    rintro children' _ d ⟨guests, houses, hothers, rfl, hd⟩
    have hlodged : Lodged u (.block template data children mounted) sole s
        (.block template data children' (some ⟨root, references⟩)) d :=
      lodged_block (.block known compiled indices capacity placed child) copied houses
        (fun i w hw => ⟨child w (List.mem_of_getElem? hw), fun hc => placed hc i w hw⟩) hothers hd
    refine ⟨hlodged, ?_⟩
    obtain ⟨_, howns, -⟩ := hlodged
    cases howns.mountable with
    | block _ _ _ capacity' => rw [holdings_copied copied indices capacity', Exchange.came_add]

end Block

theorem rootIds_ne_nil_of_raw {markup : String} (hL : L.map (·.2) = rawContents markup)
    : L.rootIds ≠ [] := by
  cases L with
  | nil => exact absurd (by rw [← map_rawContents, ← hL]; rfl) (rawShapes_ne_nil markup)
  | cons label children siblings => exact nofun

section Kinds

theorem lodges_text {value : Value} {node parent : Option NodeId} : Lodges u (.text value node parent) := by
  intro sole s h anchor hd ha
  rw [mountAs]
  refine Performs.settled (create_settles hd (.text value.text)) ?_
  intro id h₁ hd
  refine Performs.settled (insert_settles hd rfl ha) ?_
  intro _ h₂ hd
  refine Performs.pure ⟨⟨_, .text rfl, fun _ next hnext => ?_, by simp [isSole], hd⟩, rfl⟩
  cases hnext with
  | replaced kind => exact .replaced kind (by simp)
  | text => exact .text

theorem lodges_html {markup : String} {content : List NodeId} {parent : Option NodeId}
    : Lodges u (.html markup content parent) := by
  intro sole s h anchor hd ha
  rw [mountAs]
  refine Performs.settled ((rawNodes_makes markup).settles (rawNodes_calm markup) hd) ?_
  rintro _ h₁ ⟨L, rfl, hL, hd⟩
  refine Performs.settled (insertAll_settles hd ha) ?_
  intro _ h₂ hd
  refine Performs.pure ⟨⟨L, .html fun _ => rootIds_ne_nil_of_raw hL, fun _ next hnext => ?_,
    by simp [isSole], hd⟩, rfl⟩
  cases hnext with
  | replaced kind => exact .replaced kind (by simp)
  | html => exact .html

theorem lodges_list {items : List (Key × View)} {anchor parent : Option NodeId} {itsSole : Bool}
    (item : ∀ item ∈ items, Lodges u item.2 ∧ item.2.isSole = false)
    : Lodges u (.list items anchor parent itsSole) := by
  intro sole s h anchor hd ha
  rw [mountAs]
  refine Performs.settled (mountStandIn_settles hd ha) ?_
  rintro last h₁ ⟨T, hT, hd⟩
  rw [Forest.nil_append] at hd
  have hlast : Admits u (s.beside T) (some last) := by
    apply Admits.of_others
    rintro x ⟨⟩
    simp [Site.beside, hT]
  have hnew : ∀ e ∈ incomingItems items, Lodges u e.2.view ∧ e.2.view.isSole = false := by
    rw [incomingItems_eq_map]
    intro e he
    obtain ⟨w, hw, rfl⟩ := List.mem_map.1 he
    exact item w hw
  have hall := mountAll_performs hnew (Document.Carries.gone_iff.2 hd) hlast
  rw [mountItems_eq]
  refine hall.finish ?_
  rintro _ _ _ ⟨rows, rfl, hrows, rfl, hd⟩
  rw [incomingItems_eq_map, List.forall₂_map_right_iff] at hrows
  refine ⟨lodged_list (s := s) hrows hT (Document.Carries.focus_iff.1 hd) fun hs => hs, ?_⟩
  rw [holdings_list, List.map_map]
  rfl

theorem lodges_multi {children : List (Option View)} {standIns : List (Option NodeId)}
    {parent : Option NodeId} {itsSole : Bool}
    (child : ∀ w, some w ∈ children → Lodges u w ∧ w.isSole = false)
    : Lodges u (.multi children standIns parent itsSole) := by
  intro sole s h anchor hd ha
  rw [mountAs]
  refine (mountChildren_performs child hd ha).finish ?_
  rintro _ _ _ ⟨cells, rfl, hcells, rfl, hd⟩
  refine ⟨lodged_multi hcells hd fun hs => hs, ?_⟩
  rw [holdings_multi, List.map_map]
  rfl

theorem lodges_toggler {key : Key} {child : View} {parent : Option NodeId} (hchild : Lodges u child)
    (not_sole : child.isSole = false) : Lodges u (.toggler key child parent) := by
  intro sole s h anchor hd ha
  rw [mountAs]
  refine (hchild child.isSole s h anchor hd ha).finish ?_
  rintro v _ _ ⟨⟨F, howns, hstands, hsole, hd⟩, rfl⟩
  rw [not_sole] at hsole
  refine ⟨⟨F, .toggler howns (by simpa using hsole), fun hp => standsFor_toggler (hstands hp),
    by simp [isSole], hd⟩, ?_⟩
  rw [holdings_toggler]

theorem lodges_component {name : String} {child : Option View} {node : Option NodeId} (custom : u.custom)
    (hchild : ∀ w, child = some w → Lodges u w ∧ w.isSole = false)
    : Lodges u (.component name child node) := by
  intro sole s h anchor hd ha
  rw [mountAs]
  refine Performs.settled (create_settles hd (.element { tag := "i" })) ?_
  intro id h₁ hd
  have hid : id ∈ ((s.aside (.leaf (id, .element { tag := "i" }))).bonds .nil).map (·.1) := by
    rw [Site.bonds_aside, Forest.bonds_cons]
    simp
  have hname : Rewrites (fun _ => True) (edit (·.setAttribute id "id" name)) id fun shape => shape :=
    Recasts.rewrites (.edit (·.setAttribute "id" name))
      (Element.Writes.withAttribute fun _ => trivial).becomes
  refine Performs.settled (hname.settles (.setAttribute id "id" name) hd hid) ?_
  intro _ h₂ hd
  refine Performs.settled (insert_settles hd rfl ha) ?_
  intro _ h₃ hd
  refine Performs.bind (Performs.arrival (R := fun _ d => d.Carries s _) _ (hd.recordArrival _)) ?_
  rintro _ _ h₄ ⟨rfl, hd⟩
  cases child with
  | none =>
    exact Performs.pure ⟨⟨_, .component custom (fun _ => rfl) (by simp) (by simp),
      fun _ => standsFor_component rfl (by simp), by simp [isSole], hd⟩, rfl⟩
  | some w =>
    -- The child is mounted into the element, which is still empty.
    have hd : h₄.document.Carries (s.inside id) .nil := Document.Carries.inside_iff.2 hd
    obtain ⟨hlodges, hnot⟩ := hchild w rfl
    refine (hlodges w.isSole (s.inside id) h₄ none hd .none).finish ?_
    rintro v _ _ ⟨⟨F, howns, hstands, hsole, hd⟩, rfl⟩
    rw [hnot] at hsole
    refine ⟨⟨.cons (id, .element { tag := "i" }) F .nil,
      .component custom (by simp) (fun x hx => ?_) (fun x hx => ?_), fun hp => ?_, by simp [isSole],
      Document.Carries.inside_iff.1 hd⟩, ?_⟩
    . cases hx
      exact howns
    . cases hx
      simpa using hsole
    . refine standsFor_component rfl ?_
      rintro a b ⟨⟩ ⟨⟩
      exact hstands hp
    . rw [holdings_component]
      exact Exchange.came_add _ _

theorem lodges_ghost (custom : u.custom) : Lodges u .ghost := by
  intro sole s h anchor hd ha
  rw [mountAs]
  refine Performs.settled (Performs.log (R := fun _ d => d.Carries s .nil) (by simp [Entry.isQuiet]) rfl
    hd) ?_
  intro _ h₁ hd
  exact Performs.pure ⟨⟨.nil, .ghost custom, fun _ _ hnext => hnext, by simp [isSole], hd⟩, rfl⟩

end Kinds

theorem Mountable.lodges {w : View} (hw : Mountable u w) : Lodges u w := by
  induction hw with
  | text => exact lodges_text
  | html => exact lodges_html
  | list item not_sole ih => exact lodges_list fun w hw => ⟨ih w hw, not_sole w hw⟩
  | multi child not_sole ih => exact lodges_multi fun w hw => ⟨ih w hw, not_sole w hw⟩
  | toggler inner not_sole ih => exact lodges_toggler ih not_sole
  | block known compiled indices capacity placed child ih =>
    intro sole s h anchor hd ha
    rw [mountAs]
    exact mountBlock_performs compiled (.block known compiled indices capacity placed child) ih hd ha
  | component custom inner not_sole ih =>
    exact lodges_component custom fun w hw => ⟨ih w hw, not_sole w hw⟩
  | ghost custom => exact lodges_ghost custom

end View
end VirtualDom
