import VirtualDom.Proofs.Document.Outline
import VirtualDom.Proofs.Ownership.Stage
import VirtualDom.Proofs.View.Run

/-!
This module contains what the first node of a mounted view is good for: it comes before all others that
the view has in its parent, whatever the view was patched with and wherever it was moved.
-/

namespace VirtualDom.View

open Engine
open Document (Place Shows Site Outline)
open Template (Marked)

/--
The view is `v` or somewhere in it, where it is mounted with it. It is not looked for in components, which
have views of their own in them.
-/
inductive Part (w : View) : View → Prop
  | self : Part w w
  | item {items : List (Key × View)} {anchor parent : Option NodeId} {sole : Bool}
      {item : Key × View} (mem : item ∈ items) (part : Part w item.2) :
      Part w (.list items anchor parent sole)
  | child {children : List (Option View)} {standIns : List (Option NodeId)}
      {parent : Option NodeId} {sole : Bool} {child : View} (mem : some child ∈ children)
      (part : Part w child) : Part w (.multi children standIns parent sole)
  | inner {key : Key} {child : View} {parent : Option NodeId} (part : Part w child) :
      Part w (.toggler key child parent)
  | guest {template : Template} {data : Data} {children : List (Option View)}
      {mounted : Option Anchorage} {slot : Template.ChildSlot} {child : View}
      (mem : slot ∈ template.wiring.slots) (at_slot : children[slot.index]? = some (some child))
      (part : Part w child) : Part w (.block template data children mounted)

/--
A view and the host after it was mounted into `parent`, and then patched with other views and moved, any
number of times. It is not moved to before one of its own nodes.
-/
inductive Reached (alloc : Allocations) (session : Session) (parent : NodeId) : View → Host → Prop
  | mount {v v' : View} {anchor : Option NodeId} {h h' : Host} (wellFormed : h.document.WellFormed)
      (place : h.document.contains parent) (next : ∀ x, anchor = some x → h.document.contains x)
      (built : Built alloc v) (fresh : Fresh session v) (run : v.mount parent anchor h = .ok v' h') :
      Reached alloc session parent v' h'
  | patch {v v' next : View} {h h' : Host} (reached : Reached alloc session parent v h)
      (built : Built alloc next) (fresh : Fresh session next) (run : patch v next h = .ok v' h') :
      Reached alloc session parent v' h'
  | move {v : View} {target : Option NodeId} {h h' : Host}
      (reached : Reached alloc session parent v h) (apart : ∀ x, target = some x → x ∉ v.nodes)
      (run : v.moveBefore target h = .ok () h') : Reached alloc session parent v h'

variable {alloc : Allocations} {care : Upkeep} {session : Session} {u : Usage} {pl : Place} {h h' : Host}
  {s : Site} {d : Document} {v v' w next : View} {p x : NodeId} {F T : Forest (NodeId × Content)}

section Nodes

theorem Draws.nodes_eq (h : Draws alloc v p F) : v.nodes = F.rootIds := by
  induction h with
  | text value_from => rfl
  | html shapes => rfl
  | list row not_sole ih =>
    rw [nodes, itemNodes_eq ih, Forest.rootIds_append]
    rfl
  | multi ne_nil child not_sole standIn ih =>
    refine childNodes_eq ih fun c hc hnone => ?_
    obtain ⟨id, hid, hF⟩ := standIn c hc hnone
    exact ⟨id, hid, by rw [hF]; rfl⟩
  | toggler inner not_sole ih => rw [nodes, ih]
  | block copied => exact (copied.rootIds _ _).symm

theorem Tends.part_whole (hw : Part w v) (hv : Tends care v pl.node F) (hd : d.Shows pl F)
    : ∃ pl' G, Tends care w pl'.node G ∧ d.Shows pl' G ∧
        ((v.isSole → pl.before = [] ∧ pl.after = []) → w.isSole → pl'.before = [] ∧ pl'.after = []) := by
  induction hw generalizing pl F with
  | self => exact ⟨pl, F, hv, hd, fun hsole => hsole⟩
  | item mem part ih =>
    generalize hp : pl.node = p at hv
    cases hv with
    | @list rows anchor _ _ row not_sole =>
      obtain ⟨r, hr, rfl⟩ := List.mem_map.1 mem
      obtain ⟨xs, ys, rfl⟩ := List.append_of_mem hr
      have hd : d.Shows (pl.narrow (.join (xs.map Row.forest))
          (.join (ys.map Row.forest) ++ .leaf (anchor, .text ""))) r.forest := by
        rw [Document.shows_narrow]
        simpa [Forest.append_assoc] using hd
      obtain ⟨pl', G, hG, hd, hwhole⟩ := ih (hp ▸ row r hr) hd
      exact ⟨pl', G, hG, hd, fun _ => hwhole fun hs => by simp [Row.item, not_sole r hr] at hs⟩
  | child mem part ih =>
    generalize hp : pl.node = p at hv
    cases hv with
    | @multi cells _ _ ne_nil child not_sole =>
      obtain ⟨c, hc, hchild⟩ := List.mem_map.1 mem
      obtain ⟨xs, ys, rfl⟩ := List.append_of_mem hc
      have hd : d.Shows (pl.narrow (.join (xs.map Cell.forest)) (.join (ys.map Cell.forest)))
          c.forest := by
        rw [Document.shows_narrow]
        simpa [Forest.append_assoc] using hd
      obtain ⟨pl', G, hG, hd, hwhole⟩ := ih (hp ▸ child c hc _ hchild) hd
      exact ⟨pl', G, hG, hd, fun _ => hwhole fun hs => by simp [not_sole c hc _ hchild] at hs⟩
  | inner part ih =>
    generalize hp : pl.node = p at hv
    cases hv with
    | toggler inner not_sole =>
      obtain ⟨pl', G, hG, hd, hwhole⟩ := ih (hp ▸ inner) hd
      exact ⟨pl', G, hG, hd, fun _ => hwhole fun hs => by simp [not_sole] at hs⟩
  | guest mem at_slot part ih =>
    generalize hp : pl.node = p at hv
    cases hv with
    | @block _ _ _ _ _ references S held guests copied indices _ _ _ _ child sole =>
      subst hp
      obtain ⟨o, ho, hi⟩ := copied.exists_opening mem pl.node
      obtain ⟨pl', hnode, -, hwhole, hplace⟩ :=
        Marked.exists_place copied.tidy ho (copied.indices_eq pl.node ▸ indices)
      have hd : d.Shows pl' (guests o.index) := by
        rwa [Shows, hplace, Function.update_eq_self]
      obtain ⟨pl'', G, hG, hd, hwhole'⟩ := ih (hnode ▸ child o ho _ (hi ▸ at_slot)) hd
      exact ⟨pl'', G, hG, hd, fun _ => hwhole' fun hs => hwhole (sole o ho _ (hi ▸ at_slot) hs)⟩

theorem Draws.part_whole (hw : Part w v) (hv : Draws alloc v pl.node F) (hd : d.Shows pl F)
    : ∃ pl' G, Draws alloc w pl'.node G ∧ d.Shows pl' G ∧
        ((v.isSole → pl.before = [] ∧ pl.after = []) → w.isSole → pl'.before = [] ∧ pl'.after = []) := by
  obtain ⟨pl', G, hG, hd, hwhole⟩ := hv.tends.part_whole hw hd
  exact ⟨pl', G, hG.draws, hd, hwhole⟩

theorem Draws.part (hw : Part w v) (hv : Draws alloc v pl.node F) (hd : d.Shows pl F)
    : ∃ pl' G, Draws alloc w pl'.node G ∧ d.Shows pl' G := by
  obtain ⟨pl', G, hG, hd, -⟩ := hv.part_whole hw hd
  exact ⟨pl', G, hG, hd⟩

theorem Owns.part (hw : Part w v) (hv : Owns u v s.node F) (hd : d.Carries s F)
    : ∃ (s' : Site) (G : Forest (NodeId × Content)), Owns u w s'.node G ∧ d.Carries s' G := by
  induction hw generalizing s F with
  | self => exact ⟨s, F, hv, hd⟩
  | item mem part ih =>
    generalize hp : s.node = p at hv
    cases hv with
    | @list rows anchor _ _ T row =>
      obtain ⟨r, hr, rfl⟩ := List.mem_map.1 mem
      obtain ⟨xs, ys, rfl⟩ := List.append_of_mem hr
      rw [List.map_append, List.map_cons, Forest.join_append, Forest.join_cons, Forest.append_assoc,
        ← Document.Carries.beside_iff, Forest.append_assoc, ← Document.Carries.focus_iff] at hd
      exact ih (s := (s.beside _).beside _) (hp ▸ row r hr) hd
  | child mem part ih =>
    generalize hp : s.node = p at hv
    cases hv with
    | @multi cells _ _ child =>
      obtain ⟨c, hc, hchild⟩ := List.mem_map.1 mem
      obtain ⟨xs, ys, rfl⟩ := List.append_of_mem hc
      rw [List.map_append, List.map_cons, Forest.join_append, Forest.join_cons,
        ← Document.Carries.beside_iff, ← Document.Carries.focus_iff] at hd
      exact ih (s := (s.beside _).beside _) (hp ▸ child c hc _ hchild) hd
  | inner part ih =>
    generalize hp : s.node = p at hv
    cases hv with
    | toggler inner => exact ih (hp ▸ inner) hd
  | guest mem at_slot part ih =>
    generalize hp : s.node = p at hv
    cases hv with
    | @block _ _ _ _ _ references S held guests mountable copied child =>
      subst hp
      obtain ⟨o, ho, hi⟩ := copied.exists_opening mem s.node
      cases mountable with
      | block _ _ indices =>
        obtain ⟨s', hnode, -, -, hbonds⟩ :=
          Marked.exists_site held guests copied.tidy ho (copied.indices_eq s.node ▸ indices)
        have hd : d.Carries s' (guests o.index) := hd.congr (by rw [hbonds, Function.update_eq_self])
        exact ih (hnode ▸ child o ho _ (hi ▸ at_slot)) hd

theorem Draws.leads (hv : Draws alloc v pl.node F) (hd : d.Shows pl F)
    : ∃ n others before after, v.firstNode = some n ∧ v.nodes = n :: others ∧ d.contains n ∧
        d.parent n = .ok (some pl.node) ∧ d.children pl.node = .ok (before ++ n :: others ++ after) ∧
          (before ++ n :: others ++ after).Nodup := by
  obtain ⟨n, hn, hF⟩ := hv.exists_firstNode
  obtain ⟨others, hF⟩ := List.head?_eq_some_iff.1 hF
  have hnode := hd.standing?_node
  rw [hF] at hnode
  have hroot : n ∈ F.rootIds := by simp [hF]
  have hparent := hd.parent hroot
  obtain ⟨m, hm, -⟩ := Document.parent_eq_ok.1 hparent
  exact ⟨n, others, pl.before, pl.after, hn, hv.nodes_eq.trans hF, by simp [Document.contains, hm],
    hparent, hd.wellFormed.children_of_standing? hnode, hd.wellFormed.nodup_children hnode⟩

end Nodes

section Anchors

theorem parent?_of_insert {id : NodeId} (hwf : h.document.WellFormed) (hne : x ≠ id)
    (hr : Engine.insert p id (some x) h = .ok () h') : Outline.parent? h.document.standing? x = some p := by
  unfold Engine.insert edit at hr
  split at hr
  . next hd => exact hwf.parent?_of_insertBefore hne hd
  . cases hr

theorem mem_of_insert {id : NodeId} (hd : h.document.Holds (T.census none + pl.census .nil))
    (hid : id ∈ T.ids) (hx : ∃ s, (x, s) ∈ pl.census .nil)
    (hr : Engine.insert pl.node id (some x) h = .ok () h') : x ∈ pl.before ++ pl.after := by
  obtain ⟨s, hs⟩ := hx
  have hne : x ≠ id := by
    rintro rfl
    exact hd.not_mem_rest hid s hs
  have hd : h.document.Shows (pl.beside (T.census none)) .nil := Document.shows_beside.2 hd
  have hparent := parent?_of_insert hd.wellFormed hne hr
  obtain ⟨⟨_, ks, c⟩, hstanding, rfl⟩ := Option.bind_eq_some_iff.1 hparent
  obtain ⟨_, ls, _, hp, hmem⟩ := hd.wellFormed.standing?_parent hstanding
  have hnode := hd.standing?_node
  rw [Forest.rootIds_nil, List.append_nil] at hnode
  cases hp.symm.trans hnode
  exact hmem

theorem mem_of_mountStandIn {id : NodeId} (hd : h.document.Shows pl .nil)
    (hx : ∃ s, (x, s) ∈ pl.census .nil) (hr : mountStandIn pl.node (some x) h = .ok id h')
    : x ∈ pl.before ++ pl.after := by
  obtain ⟨node, h₁, hcreate, hr⟩ := bind_eq_result.1 hr
  obtain ⟨_, h₂, hinsert, -⟩ := bind_eq_result.1 hr
  have hd := (createText_yields hd "").of_ok hcreate
  exact mem_of_insert (Document.shows_beside.1 hd) (by simp) hx hinsert

theorem Built.mem_of_mount (hv : Built alloc v) (hd : h.document.Shows pl .nil)
    (hx : ∃ s, (x, s) ∈ pl.census .nil) {sole : Bool}
    (hr : v.mountAs sole pl.node (some x) h = .ok v' h') : x ∈ pl.before ++ pl.after := by
  induction hv generalizing sole v' h' with
  | @text value =>
    rw [ofText, mountAs] at hr
    obtain ⟨id, h₁, hcreate, hr⟩ := bind_eq_result.1 hr
    obtain ⟨_, h₂, hinsert, -⟩ := bind_eq_result.1 hr
    have hd := (createText_yields hd value.text).of_ok hcreate
    exact mem_of_insert (Document.shows_beside.1 hd) (by simp) hx hinsert
  | html markup =>
    rw [ofMarkup, mountAs] at hr
    obtain ⟨content, h₁, hraw, hr⟩ := bind_eq_result.1 hr
    obtain ⟨_, h₂, hinsert, -⟩ := bind_eq_result.1 hr
    obtain ⟨L, rfl, hL, hd⟩ := (rawNodes_builds markup h _ hd).of_ok hraw
    cases L with
    | nil => exact absurd hL.symm (rawShapes_ne_nil markup)
    | cons label below siblings =>
      obtain ⟨id, c⟩ := label
      obtain ⟨_, h₃, hfirst, -⟩ := bind_eq_result.1 hinsert
      exact mem_of_insert hd (by simp) hx hfirst
  | list item ih =>
    rw [ofItems, mountAs] at hr
    obtain ⟨anchor, h₁, hanchor, -⟩ := bind_eq_result.1 hr
    exact mem_of_mountStandIn hd hx hanchor
  | @multi children ne_nil child ih =>
    rw [ofChildren, mountAs] at hr
    obtain ⟨result, h₁, hchildren, -⟩ := bind_eq_result.1 hr
    cases children with
    | nil => exact absurd rfl ne_nil
    | cons first rest =>
      cases first with
      | none =>
        rw [mountChildren] at hchildren
        obtain ⟨id, h₂, hfirst, -⟩ := bind_eq_result.1 hchildren
        exact mem_of_mountStandIn hd hx hfirst
      | some w =>
        rw [mountChildren] at hchildren
        obtain ⟨v, h₂, hfirst, -⟩ := bind_eq_result.1 hchildren
        exact ih w List.mem_cons_self hfirst
  | toggler inner ih =>
    rw [ofKey, mountAs] at hr
    obtain ⟨child, h₁, hchild, -⟩ := bind_eq_result.1 hr
    exact ih hchild
  | block compiled indices data_from child made ih =>
    obtain ⟨children', rfl, -⟩ := ofTemplate_eq_ok made
    rw [mountAs, mountBlock_eq] at hr
    obtain ⟨anchorage, h₁, hplant, -⟩ := bind_eq_result.1 hr
    obtain ⟨L, d, hL, hshapes, hd⟩ := hd.plant _
    unfold plantBlock at hplant
    rw [bind_run (change_eq_ok hL)] at hplant
    cases L with
    | nil => cases hplant
    | cons label below siblings =>
      obtain ⟨id, c⟩ := label
      obtain ⟨_, h₂, hinsert, -⟩ := bind_eq_result.1 hplant
      exact mem_of_insert (Document.shows_beside.1 hd) (by simp) hx hinsert

theorem Draws.parent?_of_move (hv : Draws alloc v p F) (hwf : h.document.WellFormed)
    (hroots : ∀ n ∈ F.rootIds, h.document.parent n = .ok (some p)) (hx : x ∉ F.rootIds)
    (hr : v.moveBefore (some x) h = .ok () h') : Outline.parent? h.document.standing? x = some p := by
  induction hv generalizing h' with
  | text value_from => exact parent?_of_insert hwf (by simpa using hx) hr
  | @html markup p F shapes =>
    cases F with
    | nil => exact absurd shapes.symm (rawShapes_ne_nil markup)
    | cons label below siblings =>
      obtain ⟨id, c⟩ := label
      obtain ⟨_, h₁, hfirst, -⟩ := bind_eq_result.1 hr
      exact parent?_of_insert hwf (fun heq => hx (by simp [heq])) hfirst
  | @list rows anchor p sole row not_sole ih =>
    obtain ⟨_, h₁, hitems, hr⟩ := bind_eq_result.1 hr
    simp only [Forest.rootIds_append, List.mem_append, not_or] at hroots hx
    cases rows with
    | nil =>
      rw [List.map_nil, moveItems] at hitems
      cases hitems
      exact parent?_of_insert hwf (by simpa using hx) hr
    | cons r rows =>
      rw [List.map_cons, Row.item, moveItems] at hitems
      obtain ⟨_, h₂, hfirst, -⟩ := bind_eq_result.1 hitems
      refine ih r List.mem_cons_self (fun n hn => hroots n (.inl ?_)) (fun hn => hx.1 ?_) hfirst
      . simp [hn]
      . simp [hn]
  | @multi cells p sole ne_nil child not_sole standIn ih =>
    cases cells with
    | nil => exact absurd rfl ne_nil
    | cons c cells =>
      rw [List.map_cons, List.map_cons] at hr
      have hr : moveChildren (some x) p (c.child :: cells.map Cell.child)
        (c.standIn :: cells.map Cell.standIn) h = .ok () h' := hr
      cases hc : c.child with
      | none =>
        obtain ⟨id, hid, hF⟩ := standIn c List.mem_cons_self hc
        rw [hc, hid, moveChildren] at hr
        obtain ⟨_, h₁, hfirst, -⟩ := bind_eq_result.1 hr
        exact parent?_of_insert hwf (fun heq => hx (by simp [hF, heq])) hfirst
      | some w =>
        rw [hc, moveChildren] at hr
        obtain ⟨_, h₁, hfirst, -⟩ := bind_eq_result.1 hr
        refine ih c List.mem_cons_self w hc (fun n hn => hroots n ?_) (fun hn => hx ?_) hfirst
        . simp [hn]
        . simp [hn]
  | toggler inner not_sole ih => exact ih hroots hx hr
  | @block _ _ _ root p references S held guests copied =>
    have hF := copied.rootIds held guests
    rw [moveBefore] at hr
    rw [bind_run (read_eq_ok (hroots root (by simp [hF])))] at hr
    exact parent?_of_insert hwf (by simpa [hF] using hx) hr

end Anchors

section Meeting

theorem Mountable.meets (hp : ¬ u.proper) (hv : Mountable u v) (hw : Mountable u w) : Meets False v w := by
  induction hv generalizing w with
  | text =>
    cases hw with
    | text => exact .text
    | _ => exact .replaced (by simp [kind])
  | html =>
    cases hw with
    | html => exact .html
    | _ => exact .replaced (by simp [kind])
  | list item not_sole ih =>
    cases hw with
    | list item' => exact .list fun a ha b hb _ => ih a ha (item' b hb)
    | _ => exact .replaced (by simp [kind])
  | multi child not_sole ih =>
    cases hw with
    | multi child' =>
      exact .multi nofun fun i a b ha hb =>
        ih a (List.mem_of_getElem? ha) (child' b (List.mem_of_getElem? hb))
    | _ => exact .replaced (by simp [kind])
  | toggler inner not_sole ih =>
    cases hw with
    | toggler inner' => exact .toggler fun _ => ih inner'
    | _ => exact .replaced (by simp [kind])
  | @block template _ _ _ _ _ known compiled indices capacity placed child ih =>
    cases hw with
    | @block template' _ _ _ _ _ known' _ _ _ _ child' =>
      by_cases hsource : template.source = template'.source
      . obtain rfl := u.unique hp known known' hsource
        exact .block fun slot _ a b ha hb =>
          ih a (List.mem_of_getElem? ha) (child' b (List.mem_of_getElem? hb))
      . exact .strange not_false hsource
    | _ => exact .replaced (by simp [kind])
  | component custom | ghost custom => exact absurd (u.proper_of_custom custom) hp

end Meeting

section Reached

variable {parent : NodeId} {target : Option NodeId} {A B : Forest (NodeId × Content)}

/-- The view is among the children of `parent`, and stands there for one as it is made. -/
def Sits (alloc : Allocations) (session : Session) (parent : NodeId) (v : View) (h : Host) : Prop :=
  ∃ (w : View) (pl : Place) (A B : Forest (NodeId × Content)), Fresh session w ∧
    pl.node = parent ∧ pl.before = [] ∧ pl.after = [] ∧ Stands alloc w false (pl.narrow A B) v h

theorem exists_split (K : Forest (NodeId × Content)) (ht : ∀ x, target = some x → x ∈ K.rootIds)
    : ∃ C D, K = C ++ D ∧ D.rootIds.head? = target := by
  cases target with
  | none => exact ⟨K, .nil, K.append_nil.symm, rfl⟩
  | some x =>
    obtain ⟨xs, ys, hK⟩ := List.append_of_mem (ht x rfl)
    obtain ⟨C, D, rfl, -, hD⟩ := Forest.exists_append_of_rootIds hK
    exact ⟨C, D, rfl, by rw [hD]; rfl⟩

theorem exists_siblings (hwf : d.WellFormed) (hp : d.contains p)
    : ∃ (pl : Place) (K : Forest (NodeId × Content)), pl.node = p ∧ pl.before = [] ∧ pl.after = [] ∧
        d.Shows pl K := by
  obtain ⟨a, ks, c, hp⟩ := Document.contains_iff.1 hp
  obtain ⟨K, M, rfl, -, hM⟩ := hwf.exists_tree hp
  refine ⟨⟨p, a, c, [], [], M⟩, K, rfl, rfl, rfl, ?_⟩
  unfold Shows Place.census
  rw [Forest.census_cons, Forest.census_nil, Multiset.add_zero, Multiset.cons_add] at hM
  simpa using hM

theorem Sits.mount {anchor : Option NodeId} (hwf : h.document.WellFormed)
    (hp : h.document.contains parent) (hx : ∀ x, anchor = some x → h.document.contains x)
    (hbuilt : Built alloc v) (hfresh : Fresh session v) (hr : v.mount parent anchor h = .ok v' h')
    : Sits alloc session parent v' h' := by
  obtain ⟨pl, K, rfl, hbefore, hafter, hd⟩ := exists_siblings hwf hp
  have hsplit : ∀ x, anchor = some x → x ∈ K.rootIds := by
    rintro x rfl
    have hd : h.document.Shows (pl.narrow K .nil) .nil := Document.shows_end.2 hd
    obtain ⟨a, ks, c, hs⟩ := Document.contains_iff.1 (hx x rfl)
    have := hbuilt.mem_of_mount hd ⟨_, (hd.mem x _).2 hs⟩ hr
    simpa [Place.narrow, hbefore, hafter] using this
  obtain ⟨A, B, rfl, rfl⟩ := exists_split K hsplit
  have hd : h.document.Shows (pl.narrow A B) .nil := by
    rw [Document.shows_narrow, Forest.append_nil]
    exact hd
  have hmount := mount_yields hbuilt hd
  rw [show (pl.narrow A B).after.head? = B.rootIds.head? by simp [Place.narrow, hafter]] at hmount
  exact ⟨v, pl, A, B, hfresh, rfl, hbefore, hafter, hmount.of_ok hr⟩

theorem Sits.patch (hv : Sits alloc session parent v h) (hbuilt : Built alloc next)
    (hfresh : Fresh session next) (hr : View.patch v next h = .ok v' h')
    : Sits alloc session parent v' h' := by
  obtain ⟨w, pl, A, B, hw, hp, hbefore, hafter, hv⟩ := hv
  have hmeets : Meets False w next := hw.mountable.meets id hfresh.mountable
  exact ⟨next, pl, A, B, hfresh, hp, hbefore, hafter, (patch_gives hv hbuilt hmeets).of_ok hr⟩

theorem Sits.move (hv : Sits alloc session parent v h) (hx : ∀ x, target = some x → x ∉ v.nodes)
    (hr : v.moveBefore target h = .ok () h') : Sits alloc session parent v h' := by
  obtain ⟨w, pl, A, B, hw, rfl, hbefore, hafter, F, hdraws, halike, hsole, hd⟩ := hv
  have hdraws : Draws alloc v pl.node F := hdraws
  have hsplit : ∀ x, target = some x → x ∈ (A ++ B).rootIds := by
    rintro x rfl
    have hx : x ∉ F.rootIds := hdraws.nodes_eq ▸ hx x rfl
    have hparent := hdraws.parent?_of_move hd.wellFormed (fun n hn => hd.parent hn) hx hr
    obtain ⟨⟨_, ks, c⟩, hstanding, rfl⟩ := Option.bind_eq_some_iff.1 hparent
    obtain ⟨_, ls, _, hp, hmem⟩ := hd.wellFormed.standing?_parent hstanding
    cases hp.symm.trans hd.standing?_node
    simpa [Place.narrow, hbefore, hafter, hx] using hmem
  have hd := Document.shows_narrow.1 hd
  obtain ⟨C, D, hs, ht⟩ := exists_split (A ++ B) hsplit
  have hmoved := (hdraws.moves rfl h A B C D hd hs (by simpa [hafter] using ht)).of_ok hr
  exact ⟨w, pl, C, D, hw, rfl, hbefore, hafter, F, hdraws, halike, hsole,
    Document.shows_narrow.2 hmoved⟩

theorem Reached.sits (hv : Reached alloc session parent v h) : Sits alloc session parent v h := by
  induction hv with
  | mount wellFormed place next built fresh run => exact .mount wellFormed place next built fresh run
  | patch reached built fresh run ih => exact ih.patch built fresh run
  | move reached apart run ih => exact ih.move apart run

end Reached

section Wander

def line : Except Fault Document :=
  ((({} : Document).createElement "p").2.createText "a").2.append ⟨0, 0⟩ ⟨1, 0⟩

theorem exists_line
    : ∃ d, line = .ok d ∧ d.WellFormed ∧ d.contains ⟨0, 0⟩ ∧ d.contains ⟨1, 0⟩ := by
  have h₁ : Document.Run _ _ := .call .empty (c := .createElement "p") trivial rfl
  have h₂ : Document.Run _ _ := .call h₁ (c := .createText "a") trivial rfl
  have hwithin : ¬ ((({} : Document).createElement "p").2.createText "a").2.Within ⟨0, 0⟩ ⟨1, 0⟩ := by
    intro hw
    rcases Relation.ReflTransGen.cases_head hw with h | ⟨_, ⟨n, hn, hp⟩, _⟩
    . cases h
    . cases hn
      cases hp
  obtain ⟨d, hd, hwf, -⟩ :=
    h₂.wellFormed_and_capacity.1.insertBefore_outline rfl rfl hwithin
      (show ∀ r, none = some r → _ from nofun)
  have hline : line = .ok _ := rfl
  cases hline.symm.trans hd
  exact ⟨_, rfl, hwf, rfl, rfl⟩

/-- A block with an empty list in it, and markup without nodes. -/
def hollow (t : Template) : Except Fault View := do
  let block ← listIn t []
  return .ofItems [(.int 1, block), (.int 2, .ofMarkup "")]

/-- An empty list gets items before it goes to the end. -/
def wander (next : View) : Engine View := do
  let v ← (ofItems []).mount ⟨0, 0⟩ (some ⟨1, 0⟩)
  let v ← patch v next
  v.moveBefore none
  return v

def wanders (t : Template) : Bool :=
  match line, hollow t with
  | .ok d, .ok next =>
    match wander next ⟨d, []⟩ with
    | .ok v h =>
      v.nodes.length = 3 && (h.document.children ⟨0, 0⟩).toOption = some (⟨1, 0⟩ :: v.nodes)
    | .error _ _ => false
  | _, _ => false

theorem built_hollow {t : Template} {source : String} {normalize : Bool}
    (ht : t.Compiled source normalize) (indices : (t.wiring.slots.map (·.index)).Nodup)
    (known : session.templates.get? t.source = some t) (hv : hollow t = .ok v)
    : Built noData v ∧ Fresh session v := by
  obtain ⟨block, hblock, hv⟩ := bind_eq_ok.1 hv
  cases hv
  have hbuilt : Built noData block :=
    .block ht indices ⟨rfl, by simp⟩ (by simpa using .list (by simp)) hblock
  have hfresh : Fresh session block :=
    .block known ht indices (by simpa using Fresh.list (by simp)) hblock
  refine ⟨.list ?_, .list ?_⟩
  . simpa using ⟨hbuilt, .html ""⟩
  . simpa using ⟨hfresh, .html ""⟩

theorem exists_reached
    : ∃ session v h, Reached noData session ⟨0, 0⟩ v h ∧ v.nodes.length = 3 ∧
        h.document.children ⟨0, 0⟩ = .ok (⟨1, 0⟩ :: v.nodes) := by
  have hmakes : Template.makes "<ul><block-child-0/></ul>" true
      fun t => t.wiring.slots.map (·.index) = [0] && wanders t := by
    decide +kernel
  obtain ⟨t, ht, htest⟩ := Template.exists_compiled hmakes
  obtain ⟨hindices, htest⟩ := Bool.and_eq_true_iff.1 htest
  have hindices := of_decide_eq_true hindices
  unfold wanders at htest
  split at htest
  case h_2 => cases htest
  next d next hline hnext =>
  split at htest
  case h_2 => cases htest
  next v h hrun =>
  obtain ⟨hlength, hchildren⟩ := Bool.and_eq_true_iff.1 htest
  obtain ⟨v₁, h₁, hmount, hrun⟩ := bind_eq_result.1 hrun
  obtain ⟨v₂, h₂, hpatch, hrun⟩ := bind_eq_result.1 hrun
  obtain ⟨_, h₃, hmove, hrun⟩ := bind_eq_result.1 hrun
  cases hrun
  let session : Session := ⟨{}, Dict.put [] t.source t, []⟩
  have hknown : session.templates.get? t.source = some t := by simp [session, Dict.get?_put]
  obtain ⟨hbuilt, hfresh⟩ := built_hollow ht (by rw [hindices]; decide) hknown hnext
  have hmounted : Reached noData session ⟨0, 0⟩ v₁ h₁ := by
    obtain ⟨_, hline', hwf, hp, hx⟩ := exists_line
    cases hline.symm.trans hline'
    have hnext : ∀ x, some ⟨1, 0⟩ = some x → d.contains x := by
      rintro _ ⟨⟩
      exact hx
    exact .mount (h := ⟨d, []⟩) hwf hp hnext (.list (by simp)) (.list (by simp)) hmount
  refine ⟨session, v, h, .move (.patch hmounted hbuilt hfresh hpatch) (by rintro _ ⟨⟩) hmove,
    of_decide_eq_true hlength, toOption_eq_some (of_decide_eq_true hchildren)⟩

end Wander

section Theorems

variable {parent : NodeId}

/--
Wherever a view has come to, its first node is in its parent, and all others that it has there follow.
The same is true of all views in it, in the parents that they have.
-/
theorem Reached.firstNode_leads (hv : Reached alloc session parent v h)
    : v.parentNode h.document = .ok (some parent) ∧ ∀ w, Part w v →
        ∃ n others p before after, w.firstNode = some n ∧ w.nodes = n :: others ∧
          w.parentNode h.document = .ok (some p) ∧ h.document.contains n ∧
          h.document.parent n = .ok (some p) ∧
          h.document.children p = .ok (before ++ n :: others ++ after) ∧
          (before ++ n :: others ++ after).Nodup := by
  obtain ⟨_, pl, A, B, -, rfl, -, -, F, hdraws, -, -, hd⟩ := hv.sits
  refine ⟨hdraws.parentNode hd, fun w hw => ?_⟩
  obtain ⟨pl', G, hdraws, hd⟩ := hdraws.part hw hd
  obtain ⟨n, others, before, after, hfirst, hnodes, hn, hparent, hchildren, hnd⟩ := hdraws.leads hd
  exact ⟨n, others, pl'.node, before, after, hfirst, hnodes, hdraws.parentNode hd, hn, hparent,
    hchildren, hnd⟩

theorem Reached.firstNode_leads_hollow
    : ∃ session v h, Reached noData session ⟨0, 0⟩ v h ∧ v.nodes.length = 3 ∧
        h.document.children ⟨0, 0⟩ = .ok (⟨1, 0⟩ :: v.nodes) ∧
        v.parentNode h.document = .ok (some ⟨0, 0⟩) ∧ ∀ w, Part w v →
          ∃ n others p before after, w.firstNode = some n ∧ w.nodes = n :: others ∧
            w.parentNode h.document = .ok (some p) ∧ h.document.contains n ∧
            h.document.parent n = .ok (some p) ∧
            h.document.children p = .ok (before ++ n :: others ++ after) ∧
            (before ++ n :: others ++ after).Nodup := by
  obtain ⟨session, v, h, hreached, hlength, hchildren⟩ := exists_reached
  exact ⟨session, v, h, hreached, hlength, hchildren, hreached.firstNode_leads⟩

def pair : View :=
  .ofItems [(.int 1, .ofText (.str "a")), (.int 2, .ofText (.str "b"))]

/-- Moved before its first node, the pair begins with the other one. -/
def strays : Bool :=
  match pair.mount ⟨0, 0⟩ none .paragraph with
  | .ok v h =>
    match v.moveBefore (some ⟨2, 0⟩) h with
    | .ok _ h' => v.firstNode = some ⟨2, 0⟩ && v.nodes = [⟨2, 0⟩, ⟨3, 0⟩, ⟨1, 0⟩] &&
      (h'.document.children ⟨0, 0⟩).toOption = some [⟨3, 0⟩, ⟨1, 0⟩, ⟨2, 0⟩]
    | .error _ _ => false
  | .error _ _ => false

/-- A block is mounted and patched; afterwards one of its children has a first node that is gone. -/
def loses (t : Template) : Bool :=
  match ofTemplate t ⟨0, []⟩ [some (.ofItems []), some (.ofText (.str "x"))],
    ofTemplate t ⟨0, []⟩ [some (.ofChildren [none]), some (.ofText (.str "x"))] with
  | .ok first, .ok next =>
    match (first.mount ⟨0, 0⟩ none >>= (patch · next)) .paragraph with
    | .ok (.block t _ children _) h =>
      match children[1]?.join >>= firstNode with
      | some n => t.wiring.slots.any (·.index = 1) && !h.document.contains n
      | none => false
    | _ => false
  | _, _ => false

theorem exists_strays
    : ∃ v h₁ h₂, pair.mount ⟨0, 0⟩ none .paragraph = .ok v h₁ ∧ v.firstNode = some ⟨2, 0⟩ ∧
        v.moveBefore (some ⟨2, 0⟩) h₁ = .ok () h₂ ∧ v.nodes = [⟨2, 0⟩, ⟨3, 0⟩, ⟨1, 0⟩] ∧
        h₂.document.children ⟨0, 0⟩ = .ok [⟨3, 0⟩, ⟨1, 0⟩, ⟨2, 0⟩] := by
  have htest : strays := by decide +kernel
  unfold strays at htest
  split at htest
  case h_2 => cases htest
  next v h hmount =>
  split at htest
  case h_2 => cases htest
  next h' hmove =>
  simp only [Bool.and_eq_true, decide_eq_true_eq] at htest
  obtain ⟨⟨hfirst, hnodes⟩, hchildren⟩ := htest
  exact ⟨v, h, h', hmount, hfirst, hmove, hnodes, toOption_eq_some hchildren⟩

/--
A multi without children has no first node at all. A list that moves before its own first node has that
last, and where a template has a child twice, the nodes of its other children may be gone.
-/
theorem firstNode_misleads
    : (∃ v h, (ofChildren []).mount ⟨0, 0⟩ none .paragraph = .ok v h ∧ v.firstNode = none) ∧
      (∃ v h₁ h₂, pair.mount ⟨0, 0⟩ none .paragraph = .ok v h₁ ∧ v.firstNode = some ⟨2, 0⟩ ∧
        v.moveBefore (some ⟨2, 0⟩) h₁ = .ok () h₂ ∧ v.nodes = [⟨2, 0⟩, ⟨3, 0⟩, ⟨1, 0⟩] ∧
        h₂.document.children ⟨0, 0⟩ = .ok [⟨3, 0⟩, ⟨1, 0⟩, ⟨2, 0⟩]) ∧
      ∃ t first next v₁ h₁ v₂ h₂ w n,
        t.Compiled "<div><p><block-child-0/></p><b><block-child-0/><block-child-1/></b></div>" true ∧
        ofTemplate t ⟨0, []⟩ [some (.ofItems []), some (.ofText (.str "x"))] = .ok first ∧
        ofTemplate t ⟨0, []⟩ [some (.ofChildren [none]), some (.ofText (.str "x"))] = .ok next ∧
        first.mount ⟨0, 0⟩ none .paragraph = .ok v₁ h₁ ∧ patch v₁ next h₁ = .ok v₂ h₂ ∧
        Part w v₂ ∧ w.firstNode = some n ∧ h₂.document.contains n = false := by
  refine ⟨⟨_, _, rfl, rfl⟩, exists_strays, ?_⟩
  have hmakes : Template.makes
      "<div><p><block-child-0/></p><b><block-child-0/><block-child-1/></b></div>" true loses := by
    decide +kernel
  obtain ⟨t, ht, htest⟩ := Template.exists_compiled hmakes
  unfold loses at htest
  split at htest
  case h_2 => cases htest
  next first next hfirst hnext =>
  split at htest
  case h_2 => cases htest
  next t' data children mounted h hrun =>
  obtain ⟨v₁, h₁, hmount, hpatch⟩ := bind_eq_result.1 hrun
  split at htest
  case h_2 => cases htest
  next n hn =>
  obtain ⟨w, hw, hn⟩ := Option.bind_eq_some_iff.1 hn
  rw [Bool.and_eq_true, List.any_eq_true, Bool.not_eq_true'] at htest
  obtain ⟨⟨slot, hslot, hindex⟩, hgone⟩ := htest
  rw [← of_decide_eq_true hindex] at hw
  exact ⟨t, first, next, v₁, h₁, _, h, w, n, ht, hfirst, hnext, hmount, hpatch,
    .guest hslot (Option.join_eq_some_iff.1 hw) .self, hn, hgone⟩

end Theorems

end VirtualDom.View
