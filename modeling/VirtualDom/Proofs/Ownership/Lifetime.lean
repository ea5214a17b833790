import VirtualDom.Proofs.Ownership.Patch
import VirtualDom.Proofs.View.Run

/-!
This module contains the lives of components: along whole runs, each one that comes is told once that it
goes, when the view goes that it is in, and it is where it was mounted until then.
-/

namespace VirtualDom

open Engine
open Document (Place Site)

/-- The use of views along a run, in which no fault comes up. -/
def Usage.along (custom faithful : Prop) : Usage where
  proper := True
  custom := custom
  faithful := faithful
  known _ := True
  unique h := absurd trivial h
  proper_of_custom _ := trivial

/-- There may be components, and patches need not keep callbacks. -/
def Usage.careful : Usage :=
  .along True False

theorem Document.WellFormed.exists_site {d : Document} {p : NodeId} {a : Option NodeId}
    {ks : List NodeId} {c : Content} (hwf : d.WellFormed) (horderly : d.Orderly)
    (hp : d.standing? p = some ⟨a, ks, c⟩)
    : ∃ s : Site, s.node = p ∧ s.others = ks ∧ d.Carries s .nil := by
  have hp : d.standing? p = some ⟨a, ks ++ [], c⟩ := by rwa [List.append_nil]
  obtain ⟨M, hM⟩ := hwf.exists_place hp
  refine ⟨(Place.mk p a c ks [] M).site, rfl, ?_, horderly, _, hM, Place.bonds_census _ _⟩
  rw [Place.site, List.append_nil]

theorem Document.WellFormed.exists_site_before {d : Document} {p : NodeId} {a : Option NodeId}
    {before after : List NodeId} {c : Content} (hwf : d.WellFormed) (horderly : d.Orderly)
    (hp : d.standing? p = some ⟨a, before ++ after, c⟩)
    : ∃ s : Site, s.node = p ∧ (∀ x, after.head? = some x → x ∈ s.others) ∧ d.Carries s .nil := by
  obtain ⟨s, hs, hothers, hd⟩ := hwf.exists_site horderly hp
  refine ⟨s, hs, fun x hx => ?_, hd⟩
  rw [hothers]
  exact Multiset.mem_coe.2 (List.mem_append_right _ (List.mem_of_mem_head? hx))

namespace View

variable {u : Usage} {s : Site} {h : Host} {first v w next : View} {later : List View}

/--
The view in `p` follows the later ones in turn. No patch fails, and at each one the trace tells just that
the views go which are shed there.
-/
inductive Tracks (p : NodeId) : View → Host → List View → View → Host → Multiset Lodger → Prop
  | nil {v : View} {h : Host} : Tracks p v h [] v h 0
  | cons {v next v' v'' : View} {h h' h'' : Host} {later : List View} {es : List Entry}
      {gone gone' : Multiset Lodger} (patched : patch v next h = .ok v' h')
      (trace : h'.trace = h.trace ++ es) (sheds : Sheds p v next gone) (tells : Tells es gone)
      (rest : Tracks p v' h' later v'' h'' gone') : Tracks p v h (next :: later) v'' h'' (gone + gone')

theorem Tracks.foldlM {p : NodeId} {v' : View} {h' : Host} {gone : Multiset Lodger}
    (ht : Tracks p v h later v' h' gone) : later.foldlM patch v h = .ok v' h' := by
  induction ht with
  | nil => rfl
  | cons patched _ _ _ _ ih =>
    rw [List.foldlM_cons, bind_run patched]
    exact ih

theorem patch_succeeds (hv : Lodged u w false s v h.document) (hnext : Mountable u next)
    (hnot : next.isSole = false) (hprecedes : u.proper → Precedes u w next)
    : Performs u.proper (patch v next) h (Succeeds u next v false s) := by
  obtain ⟨F, howns, hstands, hsole, hd⟩ := hv
  have hsole : (next.isSole || v.isSole) = false := by
    rw [hnot, Bool.false_or]
    simpa using hsole
  have hpatch := hnext.brings v F next.isSole s h howns (fun hp => hstands hp next (hprecedes hp)) hd
    (by simp [hsole])
  rwa [hsole] at hpatch

theorem patchAll_tracks (hp : u.proper) (hv : Lodged u w false s v h.document)
    (hmountable : ∀ w ∈ later, Mountable u w ∧ w.isSole = false)
    (hchain : (w :: later).IsChain (Precedes u))
    : ∃ v' h' es x, Tracks s.node v h later v' h' x.2 ∧ Accounts u.proper h h' es x ∧
        Lodged u (later.getLastD w) false s v' h'.document ∧
        Trades u.faithful (v.holdings s.node) x (v'.holdings s.node) := by
  induction later generalizing v w h with
  | nil => exact ⟨v, h, [], 0, .nil, .refl h, hv, .keep _⟩
  | cons next later ih =>
    obtain ⟨hnext, hnot⟩ := hmountable next List.mem_cons_self
    obtain ⟨hprecedes, hchain⟩ := List.isChain_cons_cons.1 hchain
    obtain ⟨v', h', es, x, hpatch, haccounts, hv', hgone⟩ :=
      (patch_succeeds hv hnext hnot fun _ => hprecedes).exists_ok hp
    obtain ⟨hsheds, htrades⟩ := hgone hp
    obtain ⟨v'', h'', es', x', htracks, haccounts', hv'', htrades'⟩ :=
      ih hv' (fun w hw => hmountable w (List.mem_cons_of_mem _ hw)) hchain
    rw [List.getLastD_cons]
    exact ⟨v'', h'', es ++ es', x + x', .cons hpatch haccounts.trace hsheds (haccounts.tells hp) htracks,
      haccounts.trans haccounts', hv'', htrades.trans htrades'⟩

theorem run_tracks (hp : u.proper) {anchor : Option NodeId} (hd : h.document.Carries s .nil)
    (ha : ∀ x, anchor = some x → x ∈ s.others)
    (hmountable : ∀ w ∈ first :: later, Mountable u w ∧ w.isSole = false)
    (hchain : (first :: later).IsChain (Precedes u))
    : ∃ v h₀ es₀ v₁ h₁ es x, first.mount s.node anchor h = .ok v h₀ ∧
        Accounts u.proper h h₀ es₀ (v.holdings s.node, 0) ∧ Tracks s.node v h₀ later v₁ h₁ x.2 ∧
        Accounts u.proper h₀ h₁ es x ∧ Lodged u (later.getLastD first) false s v₁ h₁.document ∧
        Trades u.faithful (v.holdings s.node) x (v₁.holdings s.node) := by
  obtain ⟨hfirst, hnot⟩ := hmountable first List.mem_cons_self
  have hmount := hfirst.lodges first.isSole s h anchor hd (.of_others ha)
  rw [hnot] at hmount
  obtain ⟨v, h₀, es₀, _, hmount, haccounts, hv, rfl⟩ := hmount.exists_ok hp
  obtain ⟨v₁, h₁, es, x, htracks, haccounts', hv₁, htrades⟩ :=
    patchAll_tracks hp hv (fun w hw => hmountable w (List.mem_cons_of_mem _ hw)) hchain
  refine ⟨v, h₀, es₀, v₁, h₁, es, x, ?_, haccounts, htracks, haccounts', hv₁, htrades⟩
  rwa [mount, hnot]

/--
The whole of a run, in which the view that is there at last is taken out: what came is what went, and the
trace tells of both.
-/
theorem run_ends (hp : u.proper) {parent : NodeId} {above : Option NodeId} {content : Content}
    {before after : List NodeId} (hwf : h.document.WellFormed) (horderly : h.document.Orderly)
    (hparent : h.document.standing? parent = some ⟨above, before ++ after, content⟩)
    (hmountable : ∀ w ∈ first :: later, Mountable u w ∧ w.isSole = false)
    (hchain : (first :: later).IsChain (Precedes u))
    : ∃ v h₀ es₀ v₁ h₁ gone v₂ h₂ es came, first.mount parent after.head? h = .ok v h₀ ∧
        Accounts u.proper h h₀ es₀ (v.holdings parent, 0) ∧ Tracks parent v h₀ later v₁ h₁ gone ∧
        (∃ (s : Site) (F : _), s.node = parent ∧ Owns u v₁ s.node F ∧ h₁.document.Carries s F) ∧
        v₁.tearDown h₁ = .ok v₂ h₂ ∧
        Accounts u.proper h h₂ es (came, gone + {⟨parent, v₁⟩}) ∧
        Agree u.faithful came (holdingsGone (gone + {⟨parent, v₁⟩})) := by
  obtain ⟨s, rfl, ha, hd⟩ := hwf.exists_site_before horderly hparent
  obtain ⟨v, h₀, es₀, v₁, h₁, es₁, x, hmount, haccounts₀, htracks, haccounts₁, hlodged, htrades⟩ :=
    run_tracks hp hd ha hmountable hchain
  obtain ⟨F, howns, -, hsole, hd₁⟩ := hlodged
  obtain ⟨v₂, h₂, es₂, _, hdown, haccounts₂, rfl, -⟩ :=
    (howns.tearDown_performs hd₁ fun hs => absurd (hsole hs) nofun).exists_ok hp
  have haccounts := (haccounts₀.trans haccounts₁).trans haccounts₂
  have hall := ((Trades.come (v.holdings s.node)).trans htrades).trans (.leave s.node v₁)
  refine ⟨v, h₀, es₀, v₁, h₁, x.2, v₂, h₂, es₀ ++ es₁ ++ es₂, v.holdings s.node + x.1, hmount, haccounts₀,
    htracks, ⟨s, F, rfl, howns, hd₁⟩, hdown, ?_, ?_⟩
  . have hx : (v.holdings s.node, 0) + x + (0, {⟨s.node, v₁⟩})
        = (v.holdings s.node + x.1, x.2 + {⟨s.node, v₁⟩}) :=
      Prod.ext (add_zero _) (by simp)
    rwa [hx] at haccounts
  . simpa [Trades] using hall

section Renders

/-- Renders that follow on a list with a component: components in a block, and the block without them. -/
def visits (t : Template) : List View :=
  [.block t ⟨0, []⟩ [some (.ofName "a" (some (.ofName "b" none)))] none, .block t ⟨1, []⟩ [none] none]

theorem exists_visits
    : ∃ t : Template, t.Compiled "<p><block-child-0/></p>" true ∧
        (∀ w ∈ .ofItems [(.int 1, .ofName "c" none)] :: visits t,
          Mountable .careful w ∧ w.isSole = false) ∧
        (.ofItems [(.int 1, .ofName "c" none)] :: visits t).IsChain (Precedes .careful) := by
  have hmakes : Template.makes "<p><block-child-0/></p>" true
      fun t => t.wiring.slots.map (·.index) = [0] := by
    decide +kernel
  obtain ⟨t, ht, htest⟩ := Template.exists_compiled hmakes
  have hindices := of_decide_eq_true htest
  have hindex : ∀ slot ∈ t.wiring.slots, slot.index = 0 := by
    intro slot hs
    have := List.mem_map_of_mem (f := (·.index)) hs
    rw [hindices] at this
    exact List.mem_singleton.1 this
  have hslot : ∃ slot ∈ t.wiring.slots, slot.index = 0 := by
    obtain ⟨slot, hs, -⟩ := List.map_eq_singleton_iff.1 hindices
    exact ⟨slot, by simp [hs], hindex slot (by simp [hs])⟩
  have hblock : ∀ i (child : Option View), (∀ w, child = some w → Mountable .careful w) →
      Mountable .careful (.block t ⟨i, []⟩ [child] none) := by
    intro i child hchild
    refine .block trivial ht (by rw [hindices]; decide) (fun slot hs => ?_) (fun _ j w hw => ?_) ?_
    . rw [hindex slot hs]
      exact Nat.one_pos
    . cases j with
      | zero => exact hslot
      | succ j => cases hw
    . intro w hw
      exact hchild w (List.mem_singleton.1 hw).symm
  have hleaf : ∀ name, Mountable .careful (.ofName name none) := fun name =>
    .component trivial nofun nofun
  refine ⟨t, ht, ?_, ?_⟩
  . have hnested : Mountable .careful (.ofName "a" (some (.ofName "b" none))) := by
      refine .component trivial ?_ ?_
      . rintro w ⟨⟩
        exact hleaf "b"
      . rintro w ⟨⟩
        rfl
    have hlist : Mountable .careful (.ofItems [(.int 1, .ofName "c" none)]) :=
      .list (by simpa using hleaf "c") (by simp [isSole, ofName])
    simp only [visits, List.forall_mem_cons]
    exact ⟨⟨hlist, rfl⟩, ⟨hblock 0 _ (by simpa using hnested), rfl⟩, ⟨hblock 1 none nofun, rfl⟩,
      by simp⟩
  . refine .cons_cons (.replaced (by simp [kind, ofItems]) (by simp [ofItems]))
      (.cons_cons (.block False.elim ?_) (.singleton _))
    intro slot hs a b _ hb
    rw [hindex slot hs] at hb
    cases hb

end Renders

section Theorems

variable {parent : NodeId} {above : Option NodeId} {content : Content} {before after : List NodeId}

/--
Along any run nothing fails, and when a view goes, the components in it are told before anything of it is
taken out, at one moment, at which each view in it has all of its nodes in the parents where they were
mounted. At last the view itself is taken out, in the same way. In all, those components are told that
came, each of them once.
-/
theorem run_tells_components (hwf : h.document.WellFormed) (horderly : h.document.Orderly)
    (hparent : h.document.standing? parent = some ⟨above, before ++ after, content⟩)
    (hmountable : ∀ w ∈ first :: later, Mountable .careful w ∧ w.isSole = false)
    (hchain : (first :: later).IsChain (Precedes .careful))
    : ∃ v h₀ es₀ v₁ h₁ gone v₂ h₂ rest es came,
        first.mount parent after.head? h = .ok v h₀ ∧
        h₀.trace = h.trace ++ es₀ ∧ (∀ e ∈ es₀, e.isQuiet) ∧
        Tracks parent v h₀ later v₁ h₁ gone ∧
        ((v₁.components parent).map (·.element)).Nodup ∧
        (∀ l ∈ v₁.lodgers parent, ∀ n ∈ l.view.nodes, h₁.document.parent n = .ok (some l.parent)) ∧
        v₁.tearDown h₁ = .ok v₂ h₂ ∧
        h₂.trace = h₁.trace ++ (v₁.components parent).map (·.farewell h₁.document) ++ rest ∧
        (∀ e ∈ rest, Parting (v₁.components parent) e) ∧
        h₂.trace = h.trace ++ es ∧
        (h₂.document.annals.arrivals : Multiset Component) = h.document.annals.arrivals + came ∧
        came = v₁.components parent + (holdingsGone gone).1 ∧
        (es.filterMap Entry.farewell? : Multiset (String × Option NodeId))
          = came.map fun c => (c.name, some c.element) := by
  obtain ⟨v, h₀, es₀, v₁, h₁, gone, v₂, h₂, es, came, hmount, haccounts₀, htracks, ⟨s, F, rfl, howns, hd₁⟩,
    hdown, haccounts, hagree⟩ := run_ends (u := .careful) trivial hwf horderly hparent hmountable hchain
  have htrace := tearDown_trace hdown
  rw [howns.farewells_eq] at htrace
  have htold := (haccounts.tells trivial).filterMap_farewell?
  refine ⟨v, h₀, es₀, v₁, h₁, gone, v₂, h₂, v₁.releases, es, came.1, hmount, haccounts₀.trace,
    (haccounts₀.tells trivial).isQuiet_of_zero, htracks, howns.nodup_elements hd₁.nodup,
    fun l hl n hn => howns.parent_node hd₁ hl hn, hdown, htrace, howns.parting, haccounts.trace,
    haccounts.arrivals, ?_, ?_⟩
  . rw [hagree.1, holdingsGone_add, holdingsGone_singleton, Prod.fst_add, add_comm]
    rfl
  . rw [htold, hagree.1]

theorem run_tells_components_visits
    : ∃ d t, d.children ⟨0, 0⟩ = .ok [⟨1, 0⟩] ∧ t.Compiled "<p><block-child-0/></p>" true ∧
        ∃ v h₀ es₀ v₁ h₁ gone v₂ h₂ rest es came,
          (ofItems [(.int 1, .ofName "c" none)]).mount ⟨0, 0⟩ (some ⟨1, 0⟩) ⟨d, []⟩ = .ok v h₀ ∧
          h₀.trace = [] ++ es₀ ∧ (∀ e ∈ es₀, e.isQuiet) ∧
          Tracks ⟨0, 0⟩ v h₀ (visits t) v₁ h₁ gone ∧
          ((v₁.components ⟨0, 0⟩).map (·.element)).Nodup ∧
          (∀ l ∈ v₁.lodgers ⟨0, 0⟩, ∀ n ∈ l.view.nodes, h₁.document.parent n = .ok (some l.parent)) ∧
          v₁.tearDown h₁ = .ok v₂ h₂ ∧
          h₂.trace = h₁.trace ++ (v₁.components ⟨0, 0⟩).map (·.farewell h₁.document) ++ rest ∧
          (∀ e ∈ rest, Parting (v₁.components ⟨0, 0⟩) e) ∧
          h₂.trace = [] ++ es ∧
          (h₂.document.annals.arrivals : Multiset Component) = d.annals.arrivals + came ∧
          came = v₁.components ⟨0, 0⟩ + (holdingsGone gone).1 ∧
          (es.filterMap Entry.farewell? : Multiset (String × Option NodeId))
            = came.map fun c => (c.name, some c.element) := by
  obtain ⟨d, c, hrun, hchildren, hparent⟩ := Document.Run.exists_paragraph
  have hparent : d.standing? ⟨0, 0⟩ = some ⟨none, [] ++ [⟨1, 0⟩], c⟩ := hparent
  obtain ⟨t, ht, hmountable, hchain⟩ := exists_visits
  exact ⟨d, t, hchildren, ht, run_tells_components (h := ⟨d, []⟩) hrun.wellFormed_and_capacity.1
    hrun.orderly hparent hmountable hchain⟩

/-- A component takes in a child at a patch, and is taken out. -/
def adoption : Engine View := do
  let view ← run (.ofName "a" none) [.ofName "a" (some (.ofName "b" none))] ⟨0, 0⟩ none
  view.tearDown

/-- A child that a component takes in is not mounted, but it is told that it goes. -/
theorem adoption_tells_unmounted
    : ∃ v h, adoption .paragraph = .ok v h ∧
        h.document.annals.arrivals.map (fun c => (c.name, some c.element)) = [("a", some ⟨1, 0⟩)] ∧
        h.trace.filterMap Entry.farewell? = [("a", some ⟨1, 0⟩), ("b", none)] := by
  have hpasses : adoption.passes .paragraph fun h =>
      h.document.annals.arrivals.map (fun c => (c.name, some c.element)) = [("a", some ⟨1, 0⟩)] ∧
        h.trace.filterMap Entry.farewell? = [("a", some ⟨1, 0⟩), ("b", none)] := by
    decide +kernel
  obtain ⟨v, h, hrun, htest⟩ := exists_of_passes hpasses
  exact ⟨v, h, hrun, of_decide_eq_true htest⟩

end Theorems

end View
end VirtualDom
