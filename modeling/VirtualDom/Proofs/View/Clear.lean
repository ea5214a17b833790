import VirtualDom.Proofs.Document.Emptied
import VirtualDom.Proofs.Ownership.Lifetime
import VirtualDom.Proofs.View.Heedless
import VirtualDom.Proofs.View.Release

/-!
This module contains the two ways in which a list gets empty: its items are taken out one by one, or, where
it is all that is in its parent, the parent is cleared. Nothing that comes later tells them apart.
-/

namespace VirtualDom

open Engine
open Document (Place Shows)

namespace View

variable {v : View} {h : Host} {d d' : Document}

section Told

mutual

theorem told_farewells (d d' : Document) : ∀ v : View,
    (v.farewells d).filterMap Entry.farewell? = (v.farewells d').filterMap Entry.farewell?
  | .block _ _ children _ | .multi children _ _ _ => by
    rw [farewells, farewells]
    exact told_childFarewells d d' children
  | .list items _ _ _ => by
    rw [farewells, farewells]
    exact told_itemFarewells d d' items
  | .toggler _ child _ => by
    rw [farewells, farewells]
    exact told_farewells d d' child
  | .component name none _ => by
    rw [farewells, farewells]
    rfl
  | .component name (some child) node => by
    rw [farewells, farewells]
    exact congrArg ((name, node) :: ·) (told_farewells d d' child)
  | .text _ _ _ | .html _ _ _ | .ghost => by
    rw [farewells, farewells]

theorem told_itemFarewells (d d' : Document) : ∀ items : List (Key × View),
    (itemFarewells d items).filterMap Entry.farewell? = (itemFarewells d' items).filterMap Entry.farewell?
  | [] => rfl
  | (_, item) :: rest => by
    rw [itemFarewells, itemFarewells, List.filterMap_append, List.filterMap_append,
      told_farewells d d' item, told_itemFarewells d d' rest]

theorem told_childFarewells (d d' : Document) : ∀ children : List (Option View),
    (childFarewells d children).filterMap Entry.farewell?
      = (childFarewells d' children).filterMap Entry.farewell?
  | [] => rfl
  | none :: rest => by
    rw [childFarewells, childFarewells]
    exact told_childFarewells d d' rest
  | some child :: rest => by
    rw [childFarewells, childFarewells, List.filterMap_append, List.filterMap_append,
      told_farewells d d' child, told_childFarewells d d' rest]

end

theorem told_callbackReleases (template : Template) (data : Data)
    : (callbackReleases template data).filterMap Entry.farewell? = [] := by
  rw [List.filterMap_eq_nil_iff]
  intro e he
  obtain ⟨index, -, he⟩ := List.mem_filterMap.1 he
  split at he
  . cases he
    rfl
  . cases he

mutual

theorem told_releases : ∀ v : View, v.releases.filterMap Entry.farewell? = []
  | .block template data _ mounted => by
    rw [releases]
    split
    . exact told_callbackReleases template data
    . rfl
  | .list items _ _ _ => by
    rw [releases]
    split
    . exact told_itemReleases items
    . rfl
  | .multi children standIns _ _ => by
    rw [releases]
    split
    . exact told_childReleases children standIns
    . rfl
  | .toggler _ child _ => by
    rw [releases]
    exact told_releases child
  | .component _ _ _ | .ghost | .text _ _ _ | .html _ _ _ => by
    rw [releases]
    rfl

theorem told_itemReleases : ∀ items : List (Key × View),
    (itemReleases items).filterMap Entry.farewell? = []
  | [] => rfl
  | (_, item) :: rest => by
    rw [itemReleases, List.filterMap_append, told_releases item, told_itemReleases rest]
    rfl

theorem told_childReleases : ∀ (children : List (Option View)) (standIns : List (Option NodeId)),
    (childReleases children standIns).filterMap Entry.farewell? = []
  | some child :: rest, _ :: standIns => by
    rw [childReleases, List.filterMap_append, told_releases child, told_childReleases rest standIns]
    rfl
  | none :: rest, _ :: standIns => by
    rw [childReleases]
    exact told_childReleases rest standIns
  | [], _ | some _ :: _, [] | none :: _, [] => by
    rw [childReleases.eq_def]
    rfl

end

end Told

/-- The view has its nodes at hand, and does not take its parent for its own. -/
inductive Modest : View → Prop
  | block {template : Template} {data : Data} {children : List (Option View)}
      {mounted : Option Anchorage} : Modest (.block template data children mounted)
  | text {value : Value} {node parent : Option NodeId} : Modest (.text value node parent)
  | html {markup : String} {content : List NodeId} {parent : Option NodeId} :
      Modest (.html markup content parent)
  | list {items : List (Key × View)} {anchor parent : NodeId} (item : ∀ item ∈ items, Modest item.2) :
      Modest (.list items (some anchor) (some parent) false)
  | multi {children : List (Option View)} {standIns : List (Option NodeId)} {parent : NodeId}
      (child : ∀ w, some w ∈ children → Modest w) : Modest (.multi children standIns (some parent) false)
  | toggler {key : Key} {child : View} {parent : Option NodeId} (inner : Modest child) :
      Modest (.toggler key child parent)
  | component {name : String} {child : Option View} {node : Option NodeId} :
      Modest (.component name child node)
  | ghost : Modest .ghost

theorem Owns.modest {u : Usage} {p : NodeId} {F : Forest (NodeId × Content)} (hv : Owns u v p F)
    (hnot : v.isSole = false) : v.Modest := by
  induction hv with
  | text => exact .text
  | html => exact .html
  | @list rows anchor p sole T row not_sole tree ih =>
    obtain rfl : sole = false := hnot
    refine .list fun item hi => ?_
    obtain ⟨r, hr, rfl⟩ := List.mem_map.1 hi
    exact ih r hr (not_sole r hr)
  | @multi cells p sole child not_sole standIn ih =>
    obtain rfl : sole = false := hnot
    refine .multi fun w hw => ?_
    obtain ⟨c, hc, hcw⟩ := List.mem_map.1 hw
    exact ih c hc w hcw (not_sole c hc w hcw)
  | toggler inner not_sole ih => exact .toggler (ih not_sole)
  | block => exact .block
  | component => exact .component
  | ghost => exact .ghost

theorem Owns.modest_items {u : Usage} {p : NodeId} {F : Forest (NodeId × Content)}
    {items : List (Key × View)} {anchor parent : Option NodeId} {sole : Bool}
    (hv : Owns u (.list items anchor parent sole) p F) : ∀ item ∈ items, item.2.Modest := by
  cases hv with
  | list row not_sole tree =>
    intro item hi
    obtain ⟨r, hr, rfl⟩ := List.mem_map.1 hi
    exact (row r hr).modest (not_sole r hr)

abbrev Frees (ids : List NodeId) (d d' : Document) : Prop :=
  ids.foldlM Document.discard d = .ok d'

theorem frees_append {xs ys : List NodeId} (hd : Frees (xs ++ ys) d d')
    : ∃ d₁, Frees xs d d₁ ∧ Frees ys d₁ d' := by
  unfold Frees at hd
  rw [List.foldlM_append] at hd
  exact bind_eq_ok.1 hd

theorem discard_frees {id : NodeId} (hd : Frees [id] h.document d')
    : (discard id).Yields h fun _ h' => h'.document = d' := by
  obtain ⟨d₁, h₁, hd⟩ := bind_eq_ok.1 hd
  cases hd
  exact ⟨(), _, edit_eq_ok h₁, rfl⟩

theorem discardAll_frees {ids : List NodeId} (hd : Frees ids h.document d')
    : (ids.forM discard).Yields h fun _ h' => h'.document = d' := by
  induction ids generalizing h with
  | nil =>
    cases hd
    exact Yields.pure rfl
  | cons id ids ih =>
    obtain ⟨d₁, h₁, hd⟩ := bind_eq_ok.1 hd
    exact Yields.bind_ok (edit_eq_ok h₁) (ih hd)

theorem option_frees {node : Option NodeId} (hd : Frees node.toList h.document d')
    : (node.forM discard).Yields h fun _ h' => h'.document = d' := by
  cases node with
  | none =>
    cases hd
    exact Yields.pure rfl
  | some id => exact discard_frees hd

namespace Modest

theorem removeItems_frees {items : List (Key × View)}
    (hitems : ∀ item ∈ items, ∀ (h : Host) (d' : Document), Frees item.2.nodes h.document d' →
      item.2.remove.Yields h fun _ h' => h'.document = d')
    (hd : Frees (itemNodes items) h.document d')
    : (removeItems items).Yields h fun _ h' => h'.document = d' := by
  induction items generalizing h with
  | nil =>
    cases hd
    rw [removeItems]
    exact Yields.pure rfl
  | cons item rest ih =>
    obtain ⟨key, item⟩ := item
    obtain ⟨d₁, h₁, hd⟩ := frees_append hd
    rw [removeItems]
    refine Yields.bind (hitems _ List.mem_cons_self h d₁ h₁) ?_
    rintro item h' rfl
    refine Yields.bind (ih (fun a ha => hitems a (List.mem_cons_of_mem _ ha)) hd) ?_
    rintro _ h'' rfl
    exact Yields.pure rfl

theorem removeChildren_frees {children : List (Option View)} {standIns : List (Option NodeId)}
    (hchildren : ∀ w, some w ∈ children → ∀ (h : Host) (d' : Document), Frees w.nodes h.document d' →
      w.remove.Yields h fun _ h' => h'.document = d')
    (hd : Frees (childNodes children standIns) h.document d')
    : (removeChildren children standIns).Yields h fun _ h' => h'.document = d' := by
  induction children generalizing h standIns with
  | nil =>
    cases hd
    rw [removeChildren.eq_def]
    exact Yields.pure rfl
  | cons child rest ih =>
    have ih : ∀ (h : Host) (standIns : List (Option NodeId)),
        Frees (childNodes rest standIns) h.document d' →
          (removeChildren rest standIns).Yields h fun _ h' => h'.document = d' :=
      fun h standIns hd => ih (fun w hw => hchildren w (List.mem_cons_of_mem _ hw)) hd
    cases standIns with
    | nil =>
      rw [childNodes.eq_def] at hd
      rw [removeChildren.eq_def]
      cases child <;> cases hd <;> exact Yields.pure rfl
    | cons standIn standIns =>
      cases child with
      | none =>
        obtain ⟨d₁, h₁, hd⟩ := frees_append hd
        rw [removeChildren]
        refine Yields.bind (option_frees h₁) ?_
        rintro _ h' rfl
        refine Yields.bind (ih _ _ hd) ?_
        rintro _ h'' rfl
        exact Yields.pure rfl
      | some child =>
        obtain ⟨d₁, h₁, hd⟩ := frees_append hd
        rw [removeChildren]
        refine Yields.bind (hchildren child List.mem_cons_self h d₁ h₁) ?_
        rintro child h' rfl
        refine Yields.bind (ih _ _ hd) ?_
        rintro _ h'' rfl
        exact Yields.pure rfl

theorem remove_frees (hv : v.Modest) (hd : Frees v.nodes h.document d')
    : v.remove.Yields h fun _ h' => h'.document = d' := by
  induction hv generalizing h d' with
  | @block template data children mounted =>
    cases mounted with
    | none =>
      cases hd
      rw [remove.eq_def]
      exact Yields.pure rfl
    | some anchorage =>
      rw [remove.eq_def]
      refine Yields.bind (discard_frees hd) ?_
      rintro _ h' rfl
      refine Yields.bind (releaseCallbacks_yields template data h') ?_
      intro _ h'' heq
      exact Yields.pure heq
  | text =>
    rw [remove]
    exact Yields.bind (option_frees hd) fun _ _ heq => Yields.pure heq
  | html =>
    rw [remove]
    exact Yields.bind (discardAll_frees hd) fun _ _ heq => Yields.pure heq
  | @list items anchor parent item ih =>
    obtain ⟨d₁, h₁, hd⟩ := frees_append hd
    rw [remove]
    refine Yields.bind (removeItems_frees (fun item hi h d' hd => ih item hi hd) h₁) ?_
    rintro _ h' rfl
    exact Yields.bind (discard_frees hd) fun _ _ heq => Yields.pure heq
  | multi child ih =>
    rw [remove]
    refine Yields.bind (removeChildren_frees (fun w hw h d' hd => ih w hw hd) hd) ?_
    exact fun _ _ heq => Yields.pure heq
  | toggler inner ih =>
    rw [remove]
    exact Yields.bind (ih hd) fun _ _ heq => Yields.pure heq
  | component =>
    rw [remove]
    refine Yields.bind_ok rfl ?_
    exact Yields.bind (option_frees hd) fun _ _ heq => Yields.pure heq
  | ghost =>
    cases hd
    rw [remove]
    exact Yields.bind_ok rfl (Yields.pure rfl)

theorem tearDown_frees (hv : v.Modest) (hd : Frees v.nodes h.document d')
    : v.tearDown.Yields h fun _ h' => h'.document = d' ∧
        h'.trace.filterMap Entry.farewell?
          = h.trace.filterMap Entry.farewell? ++ (v.farewells h.document).filterMap Entry.farewell? := by
  have hdown : v.tearDown.Yields h fun _ h' => h'.document = d' := by
    unfold tearDown
    refine Yields.bind_ok (beforeRemove_eq h v) ?_
    exact hv.remove_frees hd
  obtain ⟨v', h', hrun, rfl⟩ := hdown
  refine ⟨v', h', hrun, rfl, ?_⟩
  rw [tearDown_trace hrun, List.filterMap_append, List.filterMap_append, told_releases, List.append_nil]

end Modest

section Items

theorem tearDownAll_frees {items : List (Key × View)} (hitems : ∀ item ∈ items, item.2.Modest)
    (hd : Frees (itemNodes items) h.document d')
    : (Reconcile.tearDownAll (.ofItems items)).Yields h fun _ h' => h'.document = d' ∧
        h'.trace.filterMap Entry.farewell?
          = h.trace.filterMap Entry.farewell?
            ++ (itemFarewells h.document items).filterMap Entry.farewell? := by
  unfold Reconcile.Old.ofItems
  generalize 0 = position
  induction items generalizing position h with
  | nil =>
    cases hd
    exact Yields.pure ⟨rfl, (List.append_nil _).symm⟩
  | cons item rest ih =>
    obtain ⟨key, item⟩ := item
    obtain ⟨d₁, h₁, hd⟩ := frees_append hd
    obtain ⟨v, h', hdown, rfl, htold⟩ := (hitems _ List.mem_cons_self).tearDown_frees h₁
    have hrest := ih (fun a ha => hitems a (List.mem_cons_of_mem _ ha)) hd (position + 1)
    have hfirst : (item.tearDown >>= fun _ => pure ()) h = .ok () h' := (bind_run hdown).trans rfl
    refine Yields.bind_ok hfirst (hrest.mono ?_)
    rintro _ h'' ⟨rfl, htold'⟩
    refine ⟨rfl, ?_⟩
    rw [htold', htold, itemFarewells, List.filterMap_append, List.append_assoc,
      told_itemFarewells h'.document h.document]

theorem reconcile_nil (parent anchor : NodeId) (items : List (Key × View))
    : reconcile parent anchor items [] = do
        Reconcile.tearDownAll (.ofItems items)
        return [] := by
  unfold reconcile
  cases items with
  | nil =>
    simp only [Reconcile.Old.ofItems, List.zipIdx_nil, List.map_nil]
    rw [Reconcile.loop]
    rfl
  | cons item rest =>
    have hne : Reconcile.Old.ofItems (item :: rest) ≠ [] := by
      simp [Reconcile.Old.ofItems]
    rw [Reconcile.loop.eq_2 _ _ _ _ _ _ hne]
    rfl

end Items

section Theorems

variable {items : List (Key × View)} {parent anchor : NodeId}

/--
Emptying a list that is all there is in its parent leaves what taking its items out one by one would leave:
the same nodes in the same slots, and the same slots to be filled next. The same components are told in
the same order, and whatever the list is patched with later does the same to either.
-/
theorem clear_agrees (hwf : h.document.WellFormed)
    (hchildren : h.document.children parent = .ok (itemNodes items ++ [anchor]))
    (hitems : ∀ item ∈ items, item.2.Modest)
    : ∃ h₁ h₂,
        patch (.list items (some anchor) (some parent) true) (.ofItems []) h
          = .ok (.list [] (some anchor) (some parent) true) h₁ ∧
        reconcile parent anchor items [] h = .ok [] h₂ ∧
        h₁.document.children parent = .ok [anchor] ∧ h₂.document.children parent = .ok [anchor] ∧
        h₁.document.Twin h₂.document ∧
        h₁.trace.filterMap Entry.farewell? = h₂.trace.filterMap Entry.farewell? ∧
        ∀ next, Twins (patch (.list [] (some anchor) (some parent) true) next h₁)
          (patch (.list [] (some anchor) (some parent) true) next h₂) := by
  suffices hclear : ∃ h₁ h₂,
      patch (.list items (some anchor) (some parent) true) (.ofItems []) h
        = .ok (.list [] (some anchor) (some parent) true) h₁ ∧
      reconcile parent anchor items [] h = .ok [] h₂ ∧
      h₁.document.children parent = .ok [anchor] ∧ h₁.document.Twin h₂.document ∧
      h₁.trace.filterMap Entry.farewell? = h₂.trace.filterMap Entry.farewell? by
    obtain ⟨h₁, h₂, hpatch, hreconcile, hleft, htwin, htold⟩ := hclear
    exact ⟨h₁, h₂, hpatch, hreconcile, hleft, (htwin.children parent).trans hleft, htwin, htold,
      fun next => patch_heedless _ next h₁ h₂ htwin⟩
  cases items with
  | nil =>
    refine ⟨h, h, ?_, ?_, hchildren, .refl _, rfl⟩
    . rw [patch, ofItems, patchAs]
      rfl
    . rw [reconcile_nil]
      rfl
  | cons item rest =>
    obtain ⟨pl, G, rfl, hpl, hG, hd⟩ := hwf.exists_whole hchildren
    obtain ⟨F, T, rfl, hF, hT⟩ := Forest.exists_append_of_rootIds hG
    obtain ⟨d₁, d₂, d', d'', hremove, hleft, hdiscard, happend, hall, hd', htwin⟩ :=
      hd.clear_twin hT hpl ⟨pl.node, itemNodes (item :: rest), itemNodes (item :: rest)⟩
    rw [hF] at hleft hall
    obtain ⟨_, h₂, hdown, rfl, htold⟩ := tearDownAll_frees hitems hall
    have hanchor := hd'.wellFormed.children_of_standing? hd'.standing?_node
    rw [hpl.1, hpl.2, hT, List.append_nil] at hanchor
    refine ⟨⟨d', h.trace ++ itemFarewells h.document (item :: rest)⟩, h₂, ?_, ?_, hanchor, htwin, ?_⟩
    . rw [patch, ofItems, patchAs, if_neg (by simp), if_pos (by simp), bind_run (beforeRemoveItems_eq h _),
        bind_run (edit_eq_ok hremove), bind_run (clear_eq_ok hleft hdiscard),
        bind_run (edit_eq_ok happend)]
      rfl
    . rw [reconcile_nil, bind_run hdown]
      rfl
    . rw [htold, List.filterMap_append]

def couple : View :=
  .ofItems [(.int 1, .ofName "c" (some (.ofText (.str "a")))), (.int 2, .ofText (.str "b"))]

/-- Whether mounting the list as a sole one in a new element leaves its nodes there in their order. -/
def mountsCouple : Bool :=
  match couple.mountAs true ⟨0, 0⟩ none .paragraph with
  | .ok (.list items (some anchor) (some parent) true) h =>
    items.length = 2 && parent = ⟨0, 0⟩ &&
      (h.document.children parent).toOption = some (itemNodes items ++ [anchor])
  | _ => false

theorem clear_agrees_couple
    : ∃ items anchor h, couple.mountAs true ⟨0, 0⟩ none .paragraph
          = .ok (.list items (some anchor) (some ⟨0, 0⟩) true) h ∧ items.length = 2 ∧
        ∃ h₁ h₂,
          patch (.list items (some anchor) (some ⟨0, 0⟩) true) (.ofItems []) h
            = .ok (.list [] (some anchor) (some ⟨0, 0⟩) true) h₁ ∧
          reconcile ⟨0, 0⟩ anchor items [] h = .ok [] h₂ ∧
          h₁.document.children ⟨0, 0⟩ = .ok [anchor] ∧ h₂.document.children ⟨0, 0⟩ = .ok [anchor] ∧
          h₁.document.Twin h₂.document ∧
          h₁.trace.filterMap Entry.farewell? = h₂.trace.filterMap Entry.farewell? ∧
          ∀ next, Twins (patch (.list [] (some anchor) (some ⟨0, 0⟩) true) next h₁)
            (patch (.list [] (some anchor) (some ⟨0, 0⟩) true) next h₂) := by
  have hparent : Host.paragraph.document.standing? ⟨0, 0⟩
      = some ⟨none, [], .element { tag := "p" }⟩ := rfl
  obtain ⟨s, hs, -, hd⟩ :=
    Host.paragraph_run.wellFormed_and_capacity.1.exists_site Host.paragraph_run.orderly hparent
  have hmountable : Mountable .careful couple := by
    refine .list ?_ ?_
    . simp only [List.forall_mem_cons]
      exact ⟨.component trivial (by rintro w ⟨⟩; exact .text) (by rintro w ⟨⟩; rfl), .text, by simp⟩
    . simp [isSole, ofName, ofText]
  obtain ⟨v, h, -, -, hmount, -, ⟨F, howns, -, -, hcarries⟩, -⟩ :=
    (hmountable.lodges true s .paragraph none hd .none).exists_ok trivial
  rw [hs] at hmount
  have htest : mountsCouple := by decide +kernel
  unfold mountsCouple at htest
  split at htest
  . next items anchor parent h' hv =>
    cases hmount.symm.trans hv
    simp only [Bool.and_eq_true, decide_eq_true_eq] at htest
    obtain ⟨⟨hlength, rfl⟩, hchildren⟩ := htest
    exact ⟨items, anchor, h, hmount, hlength, clear_agrees hcarries.wellFormed
      (toOption_eq_some hchildren) howns.modest_items⟩
  . cases htest

end Theorems

end View
end VirtualDom
