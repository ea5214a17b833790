import VirtualDom.Proofs.Ownership.Components
import VirtualDom.Proofs.View.Release
import VirtualDom.Proofs.View.Stands

/-!
This module contains what becomes of mounted views that move or go, wherever their nodes are among
their siblings.
-/

namespace VirtualDom

open Engine
open Document (Site)

variable {u : Usage} {v : View} {p : NodeId} {s : Site} {h : Host}
  {F G : Forest (NodeId × Content)}

def Stays (proper : Prop) (x : Engine Unit) (p : NodeId) (F : Forest (NodeId × Content))
    (target : Option NodeId) : Prop :=
  ∀ (s : Site) (h : Host), s.node = p → h.document.Carries s F →
    (proper → ∀ x, target = some x → x ∈ s.others + F.rootIds) →
      Settles proper x h fun _ d => d.Carries s F

namespace Stays

variable {proper : Prop} {x y : Engine Unit} {target : Option NodeId}

theorem nil : Stays proper (pure ()) p .nil target :=
  fun _ _ _ hd _ => Performs.pure ⟨rfl, hd⟩

theorem tree {id : NodeId} (hF : F.rootIds = [id])
    : Stays proper (insert p id target) p F target := by
  rintro s h rfl hd htarget
  have hd : h.document.Carries s (.nil ++ F) := hd
  apply Performs.edit (.insert _ _ _) _ hd.orderly
  rcases hd.move hF target with hmove | ⟨herror, x, hx, hnot⟩
  . exact .inl hmove
  . exact .inr ⟨herror, fun hp => hnot (htarget hp x hx)⟩

theorem append (hx : Stays proper x p F target) (hy : Stays proper y p G target)
    : Stays proper (do x; y) p (F ++ G) target := by
  rintro s h hs hd htarget
  have hsplit : ∀ (A B : Forest (NodeId × Content)), (s.beside B).others + (A.rootIds : Multiset NodeId)
      = s.others + (A ++ B).rootIds := by
    intro A B
    rw [Forest.rootIds_append, ← Multiset.coe_add, Site.beside, add_assoc,
      add_comm (B.rootIds : Multiset NodeId)]
  have hcomm : (s.others + (G ++ F).rootIds : Multiset NodeId) = s.others + (F ++ G).rootIds := by
    rw [Forest.rootIds_append, Forest.rootIds_append, ← Multiset.coe_add, ← Multiset.coe_add,
      add_comm (G.rootIds : Multiset NodeId)]
  refine Performs.settled (hx (s.beside G) h hs (Document.Carries.focus_iff.2 hd) ?_) ?_
  . rwa [hsplit]
  intro _ h' hd
  have hd := (Document.Carries.focus_iff.1 hd).append_comm
  refine (hy (s.beside F) h' hs (Document.Carries.focus_iff.2 hd) ?_).mono ?_
  . rwa [hsplit, hcomm]
  . rintro _ _ d ⟨rfl, hd⟩
    exact ⟨rfl, (Document.Carries.focus_iff.1 hd).append_comm⟩

end Stays

namespace View

section Move

variable {proper : Prop} {target : Option NodeId}
  {P : Engine Unit → Forest (NodeId × Content) → Prop}

theorem Owns.piecemeal (hv : Owns u v p F) (hP : Piecemeal p target P)
    (hghost : u.custom → P (log [.ghost (.move target)]) .nil) : P (v.moveBefore target) F := by
  induction hv with
  | text tree => exact hP.tree tree
  | html => exact hP.roots _
  | list row not_sole tree ih => exact hP.append (hP.items fun r hr => ih r hr hP) (hP.tree tree)
  | multi child not_sole standIn ih => exact hP.children (fun c hc v hv => ih c hc v hv hP) standIn
  | toggler inner not_sole ih => exact ih hP
  | block mountable copied =>
    rw [moveBefore]
    exact hP.led (copied.rootIds _ _) rfl
  | component =>
    rw [moveBefore]
    exact hP.led rfl rfl
  | ghost custom =>
    rw [moveBefore]
    exact hghost custom

theorem Owns.stays (hv : Owns u v p F) : Stays proper (v.moveBefore target) p F target := by
  refine hv.piecemeal (P := fun x F => Stays proper x p F target) ⟨.nil, .tree, ?_, .append⟩ fun _ => ?_
  . rintro F id f hF hf s h rfl hd htarget
    refine Performs.read_ok (hd.parent (by simp [hF])) ?_
    rw [hf]
    exact Stays.tree hF s h rfl hd htarget
  . exact fun s h _ hd _ => Performs.log (by simp [Entry.isQuiet]) rfl hd

end Move

section Gone

/-- The view has no nodes, and if it comes back, it does so in the node `q`. -/
inductive Rests : View → Option NodeId → Prop
  | text {value : Value} {parent : Option NodeId} : Rests (.text value none parent) parent
  | html {markup : String} {parent : Option NodeId} : Rests (.html markup [] parent) parent
  | list {items : List (Key × View)} {parent : Option NodeId} {sole : Bool}
      (first : ∀ item, items.head? = some item → item.2.firstNode = none) :
      Rests (.list items none parent sole) parent
  | multi {children : List (Option View)} {standIns : List (Option NodeId)} {sole : Bool}
      (first : ∀ w, children.head? = some (some w) → w.firstNode = none)
      (standIn : standIns.head?.join = none) : Rests (.multi children standIns none sole) none
  | toggler {key : Key} {child : View} {parent q : Option NodeId} (inner : Rests child q)
      (home : q = none ∨ q = parent) : Rests (.toggler key child parent) parent
  | block {template : Template} {data : Data} {children : List (Option View)} :
      Rests (.block template data children none) none

theorem Rests.firstNode_eq {q : Option NodeId} (h : Rests v q) : v.firstNode = none := by
  induction h with
  | text | html | block => rfl
  | @list items parent sole first =>
    cases items with
    | nil => rfl
    | cons item rest =>
      rw [firstNode]
      exact first item rfl
  | @multi children standIns sole first standIn =>
    cases children with
    | nil => rfl
    | cons child rest =>
      cases child with
      | none => exact standIn
      | some w =>
        rw [firstNode]
        exact first w rfl
  | toggler inner home ih => exact ih

/-- What a view that was in `p` comes to when its nodes are freed. -/
structure Remains (u : Usage) (p : NodeId) (v v' : View) : Prop where
  mountable : Mountable u v'
  isSole : v'.isSole = v.isSole
  rests : ¬ u.proper → v.isSole = false → ∃ q, Rests v' q ∧ (q = none ∨ q = some p)

theorem Remains.firstNode_eq {v' : View} (h : Remains u p v v') (hp : ¬ u.proper)
    (hnot : v.isSole = false) : v'.firstNode = none := by
  obtain ⟨q, hrests, -⟩ := h.rests hp hnot
  exact hrests.firstNode_eq

theorem discard_carries {id : NodeId} (hd : h.document.Carries s (F ++ G)) (hG : G.rootIds = [id])
    : (discard id).Yields h fun _ h' => h'.document.Carries s F :=
  Yields.edit (hd.discard hG)

theorem removeItems_carries {rows : List Row}
    (hd : h.document.Carries s (.join (rows.map Row.forest) ++ G))
    (hr : ∀ r ∈ rows, ∀ (s' : Site) (h : Host), s'.node = s.node → h.document.Carries s' r.forest →
      r.view.remove.Yields h fun v h' => Remains u s.node r.view v ∧ h'.document.Carries s' .nil)
    : (removeItems (rows.map Row.item)).Yields h fun items h' =>
        List.Forall₂ (fun r item => Remains u s.node r.view item.2) rows items ∧
          h'.document.Carries s G := by
  induction rows generalizing h with
  | nil =>
    rw [List.map_nil, removeItems]
    exact Yields.pure ⟨.nil, hd⟩
  | cons r rows ih =>
    rw [List.map_cons, Row.item, removeItems]
    rw [List.map_cons, Forest.join_cons, Forest.append_assoc] at hd
    have hfirst := hr r List.mem_cons_self (s.beside _) h rfl (Document.Carries.focus_iff.2 hd)
    refine Yields.bind hfirst ?_
    rintro item h' ⟨hremains, hd⟩
    have hrest := ih (Document.Carries.gone_iff.1 hd) fun r' hr' => hr r' (List.mem_cons_of_mem _ hr')
    refine Yields.bind hrest ?_
    rintro items h'' ⟨hitems, hd⟩
    exact Yields.pure ⟨.cons hremains hitems, hd⟩

theorem removeChildren_carries {cells : List Cell}
    (hd : h.document.Carries s (.join (cells.map Cell.forest)))
    (hc : ∀ c ∈ cells, ∀ v, c.child = some v → ∀ (s' : Site) (h : Host), s'.node = s.node →
      h.document.Carries s' c.forest →
        v.remove.Yields h fun v' h' => Remains u s.node v v' ∧ h'.document.Carries s' .nil)
    (standIn : ∀ c ∈ cells, c.child = none → ∃ id, c.standIn = some id ∧ c.forest.rootIds = [id])
    : (removeChildren (cells.map Cell.child) (cells.map Cell.standIn)).Yields h fun children h' =>
        List.Forall₂ (fun c child => Option.Rel (Remains u s.node) c.child child) cells children ∧
          h'.document.Carries s .nil := by
  induction cells generalizing h with
  | nil =>
    rw [List.map_nil, removeChildren.eq_def]
    exact Yields.pure ⟨.nil, hd⟩
  | cons c cells ih =>
    have ih := fun {h} hd => ih (h := h) hd (fun c' hc' => hc c' (List.mem_cons_of_mem _ hc'))
      fun c' hc' => standIn c' (List.mem_cons_of_mem _ hc')
    rw [List.map_cons, List.map_cons]
    rw [List.map_cons, Forest.join_cons] at hd
    cases hcc : c.child with
    | none =>
      obtain ⟨id, hid, hF⟩ := standIn c List.mem_cons_self hcc
      rw [hid, removeChildren]
      refine Yields.bind (discard_carries hd.append_comm hF) ?_
      intro _ h' hd
      refine Yields.bind (ih hd) ?_
      rintro children h' ⟨hchildren, hd⟩
      exact Yields.pure ⟨.cons (by rw [hcc]; exact .none) hchildren, hd⟩
    | some child =>
      rw [removeChildren]
      have hfirst := hc c List.mem_cons_self child hcc (s.beside _) h rfl
        (Document.Carries.focus_iff.2 hd)
      refine Yields.bind hfirst ?_
      rintro v h' ⟨hremains, hd⟩
      refine Yields.bind (ih (Document.Carries.gone_iff.1 hd)) ?_
      rintro children h' ⟨hchildren, hd⟩
      exact Yields.pure ⟨.cons (by rw [hcc]; exact .some hremains) hchildren, hd⟩

theorem discardAll_carries (hd : h.document.Carries s F)
    : (F.rootIds.forM discard).Yields h fun _ h' => h'.document.Carries s .nil := by
  induction F generalizing h with
  | nil => exact Yields.pure hd
  | cons label children siblings _ ih =>
    obtain ⟨id, c⟩ := label
    have hd : h.document.Carries s (.cons (id, c) children .nil ++ siblings) := hd
    refine Yields.bind (discard_carries hd.append_comm rfl) ?_
    intro _ h' hd
    exact ih hd

theorem clear_carries (hd : h.document.Carries s F) (ho : s.others = 0) {own : List NodeId}
    (hown : own.Perm F.rootIds)
    : (clear s.node own).Yields h fun _ h' => h'.document.Carries s .nil := by
  obtain ⟨children, d, hchildren, hclear, hd⟩ := hd.clear ho hown
  refine Yields.bind_ok (read_eq_ok hchildren) ?_
  refine Yields.bind_ok (edit_eq_ok rfl) ?_
  exact Yields.edit ⟨d, hclear, hd⟩

theorem remains_list {rows : List Row} {items : List (Key × View)}
    (hitems : List.Forall₂ (fun r item => Remains u p r.view item.2) rows items)
    (not_sole : ∀ r ∈ rows, r.view.isSole = false) {anchor : NodeId}
    : Remains u p (.list (rows.map Row.item) (some anchor) (some p) false)
        (.list items none (some p) false) := by
  have hitem : ∀ item ∈ items, ∃ r ∈ rows, Remains u p r.view item.2 := by
    intro item hi
    obtain ⟨i, hi⟩ := List.getElem?_of_mem hi
    have hlt : i < rows.length := hitems.length_eq ▸ (List.getElem?_eq_some_iff.1 hi).1
    exact ⟨_, List.getElem_mem hlt, forall₂_getElem? hitems (List.getElem?_eq_getElem hlt) hi⟩
  refine ⟨.list (fun item hi => ?_) (fun item hi => ?_), rfl, fun hp _ =>
    ⟨some p, .list fun item hi => ?_, .inr rfl⟩⟩
  . obtain ⟨r, hr, hremains⟩ := hitem item hi
    exact hremains.mountable
  . obtain ⟨r, hr, hremains⟩ := hitem item hi
    exact hremains.isSole.trans (not_sole r hr)
  . obtain ⟨r, hr, hremains⟩ := hitem item (List.mem_of_mem_head? hi)
    exact hremains.firstNode_eq hp (not_sole r hr)

theorem remains_multi {cells : List Cell} {children : List (Option View)}
    (hchildren : List.Forall₂ (fun c child => Option.Rel (Remains u p) c.child child) cells children)
    (not_sole : ∀ c ∈ cells, ∀ v, c.child = some v → v.isSole = false)
    : Remains u p (.multi (cells.map Cell.child) (cells.map Cell.standIn) (some p) false)
        (.multi children [] none false) := by
  have hchild : ∀ w, some w ∈ children → ∃ v, v.isSole = false ∧ Remains u p v w := by
    intro w hw
    obtain ⟨i, hi⟩ := List.getElem?_of_mem hw
    have hlt : i < cells.length := hchildren.length_eq ▸ (List.getElem?_eq_some_iff.1 hi).1
    have hrel := forall₂_getElem? hchildren (List.getElem?_eq_getElem hlt) hi
    generalize hc : cells[i].child = child at hrel
    cases hrel with
    | some hremains => exact ⟨_, not_sole _ (List.getElem_mem hlt) _ hc, hremains⟩
  refine ⟨.multi (fun w hw => ?_) (fun w hw => ?_), rfl, fun hp _ =>
    ⟨none, .multi (fun w hw => ?_) rfl, .inl rfl⟩⟩
  . obtain ⟨v, -, hremains⟩ := hchild w hw
    exact hremains.mountable
  . obtain ⟨v, hnot, hremains⟩ := hchild w hw
    exact hremains.isSole.trans hnot
  . obtain ⟨v, hnot, hremains⟩ := hchild w (List.mem_of_mem_head? hw)
    exact hremains.firstNode_eq hp hnot

theorem Owns.remove_yields (hv : Owns u v p F) (hp : s.node = p) (hd : h.document.Carries s F)
    (hsole : v.isSole → s.others = 0)
    : v.remove.Yields h fun v' h' => Remains u p v v' ∧ h'.document.Carries s .nil := by
  induction hv generalizing s h with
  | text tree =>
    rw [View.remove]
    refine Yields.bind (discard_carries (F := .nil) hd tree) ?_
    intro _ h' hd
    exact Yields.pure ⟨⟨.text, rfl, fun _ _ => ⟨_, .text, .inr rfl⟩⟩, hd⟩
  | html =>
    rw [View.remove]
    refine Yields.bind (discardAll_carries hd) ?_
    intro _ h' hd
    exact Yields.pure ⟨⟨.html, rfl, fun _ _ => ⟨_, .html, .inr rfl⟩⟩, hd⟩
  | @list rows anchor p sole T row not_sole tree ih =>
    subst hp
    rw [View.remove]
    cases sole with
    | true =>
      have hown : itemNodes (rows.map Row.item) ++ [anchor]
          = (Forest.join (rows.map Row.forest) ++ T).rootIds := by
        rw [itemNodes_eq fun r hr => (row r hr).nodes_eq, Forest.rootIds_append, tree]
      refine Yields.bind (clear_carries hd (hsole rfl) (hown ▸ .refl _)) ?_
      intro _ h' hd
      refine Yields.pure ⟨⟨.list ?_ ?_, rfl, by simp [isSole]⟩, hd⟩
      . simpa [Row.item] using fun r hr => (row r hr).mountable
      . simpa [Row.item] using not_sole
    | false =>
      refine Yields.bind (removeItems_carries (u := u) hd fun r hr s' h hp hd => ?_) ?_
      . exact ih r hr hp hd (by simp [not_sole r hr])
      rintro items h' ⟨hitems, hd⟩
      refine Yields.bind (discard_carries (F := .nil) hd tree) ?_
      intro _ h' hd
      exact Yields.pure ⟨remains_list hitems not_sole, hd⟩
  | @multi cells p sole child not_sole standIn ih =>
    subst hp
    rw [View.remove]
    cases sole with
    | true =>
      have hown := childNodes_eq (fun c hc v hv => (child c hc v hv).nodes_eq) standIn
      refine Yields.bind (clear_carries hd (hsole rfl) (hown ▸ .refl _)) ?_
      intro _ h' hd
      refine Yields.pure ⟨⟨.multi ?_ ?_, rfl, by simp [isSole]⟩, hd⟩
      . simpa using fun w c hc hw => (child c hc w hw).mountable
      . simpa using fun w c hc hw => not_sole c hc w hw
    | false =>
      refine Yields.bind (removeChildren_carries (u := u) hd (fun c hc v hv s' h hp hd => ?_) standIn) ?_
      . exact ih c hc v hv hp hd (by simp [not_sole c hc v hv])
      rintro children h' ⟨hchildren, hd⟩
      exact Yields.pure ⟨remains_multi hchildren not_sole, hd⟩
  | @toggler key child p F inner not_sole ih =>
    rw [View.remove]
    refine Yields.bind (ih hp hd (by simp [not_sole])) ?_
    rintro child' h' ⟨hremains, hd⟩
    refine Yields.pure ⟨⟨.toggler hremains.mountable (hremains.isSole.trans not_sole), rfl,
      fun hproper _ => ?_⟩, hd⟩
    obtain ⟨q, hrests, hq⟩ := hremains.rests hproper not_sole
    exact ⟨some p, .toggler hrests hq, .inr rfl⟩
  | @block template data children root p references S held guests mountable copied =>
    rw [View.remove]
    refine Yields.bind (discard_carries (F := .nil) hd (copied.rootIds _ _)) ?_
    intro _ h' hd
    refine Yields.bind (releaseCallbacks_yields _ _ _) ?_
    intro _ h' heq
    exact Yields.pure ⟨⟨mountable, rfl, fun _ _ => ⟨none, .block, .inl rfl⟩⟩, heq ▸ hd⟩
  | @component name child id p c F custom absent inner not_sole ih =>
    rw [View.remove]
    refine Yields.bind_ok rfl ?_
    refine Yields.bind (discard_carries (F := .nil) hd rfl) ?_
    intro _ h' hd
    exact Yields.pure ⟨⟨.component custom (fun w hw => (inner w hw).mountable) not_sole, rfl,
      fun hnot => absurd (u.proper_of_custom custom) hnot⟩, hd⟩
  | ghost custom =>
    rw [View.remove]
    refine Yields.bind_ok rfl ?_
    exact Yields.pure ⟨⟨.ghost custom, rfl, fun hnot => absurd (u.proper_of_custom custom) hnot⟩, hd⟩

end Gone

section Told

theorem exists_of_mem_itemReleases {items : List (Key × View)} {e : Entry}
    (he : e ∈ itemReleases items) : ∃ item ∈ items, e ∈ item.2.releases := by
  induction items with
  | nil => cases he
  | cons item rest ih =>
    rcases List.mem_append.1 he with he | he
    . exact ⟨item, List.mem_cons_self, he⟩
    . obtain ⟨item', hi, he⟩ := ih he
      exact ⟨item', List.mem_cons_of_mem _ hi, he⟩

theorem exists_of_mem_childReleases {children : List (Option View)} {standIns : List (Option NodeId)}
    {e : Entry} (he : e ∈ childReleases children standIns)
    : ∃ w, some w ∈ children ∧ e ∈ w.releases := by
  induction children generalizing standIns with
  | nil =>
    rw [childReleases.eq_def] at he
    cases he
  | cons child rest ih =>
    have hrest : ∀ {standIns}, e ∈ childReleases rest standIns →
        ∃ w, some w ∈ child :: rest ∧ e ∈ w.releases := fun he =>
      (ih he).imp fun _ h => h.imp_left (List.mem_cons_of_mem _)
    rw [childReleases.eq_def] at he
    cases standIns with
    | nil => cases child <;> cases he
    | cons standIn standIns =>
      cases child with
      | none => exact hrest he
      | some w =>
        rcases List.mem_append.1 he with he | he
        . exact ⟨w, List.mem_cons_self, he⟩
        . exact hrest he

theorem mem_components_of_mem {l : Lodger} {c : Component} {w : View} (hl : l ∈ w.lodgers p)
    (hc : l.component? = some c) : c ∈ w.components p :=
  List.mem_filterMap.2 ⟨l, hl, hc⟩

theorem mem_childLodgers_of {l : Lodger} {i : Nat} {children : List (Option View)} {w : View}
    (hw : some w ∈ children) (hl : l ∈ w.lodgers p) : l ∈ childLodgers (fun _ => some p) i children := by
  induction children generalizing i with
  | nil => cases hw
  | cons child rest ih =>
    cases hw with
    | head => exact List.mem_append_left _ hl
    | tail _ hw =>
      cases child with
      | none => exact ih hw
      | some child => exact List.mem_append_right _ (ih hw)

theorem Owns.parting (hv : Owns u v p F) : ∀ e ∈ v.releases, Parting (v.components p) e := by
  induction hv with
  | text | html => exact List.forall_mem_nil _
  | @list rows anchor p sole T row not_sole tree ih =>
    intro e he
    cases sole with
    | true => cases he
    | false =>
      obtain ⟨item, hi, he⟩ := exists_of_mem_itemReleases he
      obtain ⟨r, hr, rfl⟩ := List.mem_map.1 hi
      refine (ih r hr e he).mono fun c hc => ?_
      obtain ⟨l, hl, hc⟩ := List.mem_filterMap.1 hc
      exact mem_components_of_mem (List.mem_cons_of_mem _ (mem_itemLodgers.2 ⟨_, hi, hl⟩)) hc
  | @multi cells p sole child not_sole standIn ih =>
    intro e he
    cases sole with
    | true => cases he
    | false =>
      obtain ⟨w, hw, he⟩ := exists_of_mem_childReleases he
      obtain ⟨c, hc, hcw⟩ := List.mem_map.1 hw
      refine (ih c hc w hcw e he).mono fun c hc => ?_
      obtain ⟨l, hl, hc⟩ := List.mem_filterMap.1 hc
      exact mem_components_of_mem (List.mem_cons_of_mem _ (mem_childLodgers_of hw hl)) hc
  | toggler inner not_sole ih => exact ih
  | @block template data children =>
    intro e he
    obtain ⟨index, -, hentry⟩ := List.mem_filterMap.1 he
    cases hindex : data.at index with
    | ref identity label =>
      rw [hindex] at hentry
      cases hentry
      exact .inr (.inl ⟨label, rfl⟩)
    | _ =>
      rw [hindex] at hentry
      cases hentry
  | @component name child id p =>
    intro e he
    obtain rfl := List.mem_singleton.1 he
    refine .inr (.inr ⟨⟨name, id, p⟩, ?_, rfl⟩)
    cases child with
    | none => exact List.mem_cons_self
    | some child => exact List.mem_cons_self
  | ghost =>
    intro e he
    obtain rfl := List.mem_singleton.1 he
    exact .inl ⟨rfl, rfl⟩

theorem unlinks_items {items : List (Key × View)}
    (h : ∀ item ∈ items, Unlinks item.2.releases (item.2.buried p) (item.2.lodgers p))
    : Unlinks (itemReleases items) (itemBuried p items) (itemLodgers p items) := by
  induction items with
  | nil => exact .none []
  | cons item rest ih =>
    rw [itemReleases, itemBuried, itemLodgers]
    exact (h item List.mem_cons_self).append (ih fun i hi => h i (List.mem_cons_of_mem _ hi))

theorem unlinks_children {cells : List Cell}
    (h : ∀ c ∈ cells, ∀ w, c.child = some w → Unlinks w.releases (w.buried p) (w.lodgers p)) (i : Nat)
    : Unlinks (childReleases (cells.map Cell.child) (cells.map Cell.standIn))
        (childBuried p (cells.map Cell.child)) (childLodgers (fun _ => some p) i (cells.map Cell.child)) := by
  induction cells generalizing i with
  | nil => exact .none []
  | cons c cells ih =>
    have ih := ih (fun c' hc' => h c' (List.mem_cons_of_mem _ hc')) (i + 1)
    rw [List.map_cons, List.map_cons]
    cases hcc : c.child with
    | none =>
      rw [childReleases, childBuried, childLodgers]
      exact ih
    | some w =>
      rw [childReleases, childBuried, childLodgers]
      exact (h c List.mem_cons_self w hcc).append ih

theorem unlinks_block {template : Template} {root : NodeId} {references : List NodeId}
    {S : Template.Marked} (copied : template.Copied root references S) (data : Data)
    : (callbackReleases template data).filterMap Entry.unlink?
        = (template.links references data).map Prod.fst := by
  have hpaired : template.wiring.Paired := by
    rw [template.wiring_eq]
    exact Template.Wiring.Paired.addSketch rfl
  have hresolved : ∀ l ∈ template.wiring.locations, ∃ node, references[l.reference]? = some node := by
    intro l hl
    have hmem : l.resolve references ∈ S.bounds.map some := copied.bounds ▸ List.mem_map_of_mem hl
    obtain ⟨b, -, hb⟩ := List.mem_map.1 hmem
    exact ⟨_, (Template.Location.resolve_eq_some hb.symm).1⟩
  rw [callbackReleases, hpaired, Template.links, List.map_filterMap, List.filterMap_filterMap,
    List.filterMap_filterMap]
  refine List.filterMap_congr fun l hl => ?_
  obtain ⟨node, hnode⟩ := hresolved l hl
  unfold Template.Wiring.callbackAt? Template.Location.link? Value.label?
  rw [hnode]
  cases l.binding with
  | ref =>
    cases hv : data.at l.dataIndex <;> simp [hv, Entry.unlink?]
  | _ => rfl

/-- All callbacks in a view are told that it goes, but for those that are buried. -/
theorem Owns.unlinks (hv : Owns u v p F) : Unlinks v.releases (v.buried p) (v.lodgers p) := by
  induction hv with
  | text | html => exact .none []
  | @list rows anchor p sole T row not_sole tree ih =>
    rw [buried, lodgers]
    cases sole with
    | true => exact .none _
    | false => exact Unlinks.append (.none []) (unlinks_items (by simpa [Row.item] using ih))
  | @multi cells p sole child not_sole standIn ih =>
    rw [buried, lodgers]
    cases sole with
    | true => exact .none _
    | false => exact Unlinks.append (.none []) (unlinks_children ih 0)
  | toggler inner not_sole ih =>
    rw [buried, lodgers]
    exact Unlinks.append (.none []) ih
  | @block template data children root p references S held guests mountable copied =>
    rw [buried, lodgers, releases, Option.isSome_some, if_pos rfl]
    unfold Unlinks
    rw [unlinks_block copied, ← List.singleton_append, labelsOf_append]
    simp [labelsOf, Lodger.links]
  | @component name child id p =>
    cases child with
    | none => exact .none []
    | some child =>
      rw [buried, lodgers]
      exact .none _
  | ghost => exact .none []

theorem Owns.tells (hv : Owns u v s.node F) {d : Document} (hd : d.Carries s F) {es : List Entry}
    (hes : ∀ e ∈ es, Parting (v.components s.node) e)
    (hreleased : Unlinks es (v.buried s.node) (v.lodgers s.node))
    : Tells (v.farewells d ++ es) {⟨s.node, v⟩} := by
  rw [hv.farewells_eq]
  exact .gone (fun l hl n hn => hv.parent_node hd hl hn) hes hreleased

theorem Owns.filterMap_link? (hv : Owns u v p F) {d : Document} {es : List Entry}
    (hes : ∀ e ∈ es, Parting (v.components p) e)
    : (v.farewells d ++ es).filterMap Entry.link? = [] := by
  refine List.filterMap_eq_nil_iff.2 (List.forall_mem_append.2 ⟨?_, fun e he => (hes e he).link?_eq⟩)
  rw [hv.farewells_eq, List.forall_mem_map]
  exact fun _ _ => rfl

theorem Owns.tearDown_performs (hv : Owns u v s.node F) (hd : h.document.Carries s F)
    (hsole : v.isSole → s.others = 0)
    : Performs u.proper v.tearDown h fun v' x d =>
        x = (0, {⟨s.node, v⟩}) ∧ Remains u s.node v v' ∧ d.Carries s .nil := by
  have hdown : v.tearDown.Yields h fun v' h' =>
      Remains u s.node v v' ∧ h'.document.Carries s .nil := by
    refine Yields.bind (beforeRemove_yields h v) ?_
    intro _ h' heq
    exact hv.remove_yields rfl (heq ▸ hd) hsole
  obtain ⟨v', h', hv', hremains, hd'⟩ := hdown
  have haccounts : Accounts u.proper h h' (v.farewells h.document ++ v.releases) (0, {⟨s.node, v⟩}) := by
    refine ⟨?_, fun _ => hv.tells hd hv.parting hv.unlinks, ?_, ?_⟩
    . rw [tearDown_trace hv', List.append_assoc]
    . rw [hv.filterMap_link? hv.parting]
      rfl
    . rw [tearDown_arrivals hv']
      exact (add_zero _).symm
  exact .of_ok hv' haccounts ⟨rfl, hremains, hd'⟩

end Told

end View
end VirtualDom
