import VirtualDom.Proofs.Ownership.Owns
import VirtualDom.Proofs.View.Stands

/-!
This module contains when a mounted view is at a site in the place of another one, put together from
when those inside of it are.
-/

namespace VirtualDom.View

open Document (Site)
open Template (Marked Opening)

variable {u : Usage} {p : NodeId} {s : Site} {d : Document}

/-- The view owns all that is at the site, and may be patched by all that `w` may be patched by. -/
def Lodged (u : Usage) (w : View) (sole : Bool) (s : Site) (v : View) (d : Document) : Prop :=
  ∃ F, Owns u v s.node F ∧ (u.proper → StandsFor u v w) ∧ (v.isSole → sole) ∧ d.Carries s F

/-- The view is lodged where nothing was, and all that it holds has come. -/
def Arrives (u : Usage) (w : View) (sole : Bool) (s : Site) (v : View) (x : Exchange) (d : Document)
    : Prop :=
  Lodged u w sole s v d ∧ x = (v.holdings s.node, 0)

/-- The view is lodged in the place of an old one, of which that has gone which had to. -/
def Succeeds (u : Usage) (w old : View) (sole : Bool) (s : Site) (v : View) (x : Exchange)
    (d : Document) : Prop :=
  Lodged u w sole s v d ∧ (u.proper → Sheds s.node old w x.2 ∧
    Trades u.faithful (old.holdings s.node) x (v.holdings s.node))

/-- What becomes of a child that may be absent, where the next view has `next` in its place. -/
def Follows (u : Usage) (p : NodeId) (old next new : Option View) (x : Exchange) : Prop :=
  u.proper → ChildSheds p old next x.2 ∧
    Trades u.faithful (holdingsAt p old) x (holdingsAt p new)

namespace Follows

theorem absent : Follows u p none none none 0 :=
  fun _ => ⟨.absent, .keep 0⟩

theorem come (w v : View) : Follows u p none (some w) (some v) (v.holdings p, 0) :=
  fun _ => ⟨.absent, .come _⟩

theorem leave (v : View) : Follows u p (some v) none none (0, {⟨p, v⟩}) :=
  fun _ => ⟨.left, .leave p v⟩

theorem kept {v w v' : View} {x : Exchange}
    (h : u.proper → Sheds p v w x.2 ∧ Trades u.faithful (v.holdings p) x (v'.holdings p))
    : Follows u p (some v) (some w) (some v') x :=
  fun hp => ⟨.kept (h hp).1, (h hp).2⟩

end Follows

structure Row.Suits (u : Usage) (p : NodeId) (r : Row) (item : Key × View) : Prop where
  key : r.key = item.1
  stands : u.proper → StandsFor u r.view item.2
  owns : Owns u r.view p r.forest
  not_sole : r.view.isSole = false

inductive Cell.Suits (u : Usage) (p : NodeId) : Cell → Option View → Prop
  | absent {id : NodeId} {T : Forest (NodeId × Content)} (tree : T.rootIds = [id]) :
      Suits u p ⟨none, some id, T⟩ none
  | present {v w : View} {standIn : Option NodeId} {F : Forest (NodeId × Content)}
      (owns : Owns u v p F) (stands : u.proper → StandsFor u v w) (not_sole : v.isSole = false) :
      Suits u p ⟨some v, standIn, F⟩ (some w)

/-- A child of a block has the nodes of its opening, or there are none. -/
inductive Houses (u : Usage) (o : Opening) :
    Option View → Option View → Forest (NodeId × Content) → Prop
  | absent : Houses u o none none .nil
  | present {v w : View} {F : Forest (NodeId × Content)} (owns : Owns u v o.parent F)
      (stands : u.proper → StandsFor u v w) (sole : v.isSole → o.sole) :
      Houses u o (some v) (some w) F

section Rows

variable {rows : List Row} {items : List (Key × View)}

theorem exists_suits_row (hrows : List.Forall₂ (Row.Suits u p) rows items) {r : Row} (hr : r ∈ rows)
    : ∃ item, r.Suits u p item := by
  obtain ⟨i, hi⟩ := List.getElem?_of_mem hr
  have hlt : i < items.length := hrows.length_eq ▸ (List.getElem?_eq_some_iff.1 hi).1
  exact ⟨_, forall₂_getElem? hrows hi (List.getElem?_eq_getElem hlt)⟩

theorem standsFor_list (hrows : List.Forall₂ (Row.Suits u p) rows items) (hp : u.proper)
    {anchor anchor' parent parent' : Option NodeId} {sole sole' : Bool}
    : StandsFor u (.list (rows.map Row.item) anchor parent sole) (.list items anchor' parent' sole') := by
  intro next hnext
  cases hnext with
  | replaced kind => exact .replaced kind nofun
  | list item =>
    refine .list fun a ha b hb hk => ?_
    obtain ⟨i, hi⟩ := List.getElem?_of_mem ha
    rw [List.getElem?_map] at hi
    obtain ⟨r, hr, rfl⟩ := Option.map_eq_some_iff.1 hi
    have hlt : i < items.length := hrows.length_eq ▸ (List.getElem?_eq_some_iff.1 hr).1
    have hsuits := forall₂_getElem? hrows hr (List.getElem?_eq_getElem hlt)
    exact hsuits.stands hp _ (item _ (List.getElem_mem hlt) b hb (hsuits.key.symm.trans hk))

theorem lodged_list (hrows : List.Forall₂ (Row.Suits u s.node) rows items) {anchor : NodeId}
    {T : Forest (NodeId × Content)} (tree : T.rootIds = [anchor])
    (hd : d.Carries s (.join (rows.map Row.forest) ++ T)) {anchor' parent' : Option NodeId}
    {sole sole' sole'' : Bool} (hsole : sole → sole'')
    : Lodged u (.list items anchor' parent' sole') sole'' s
        (.list (rows.map Row.item) (some anchor) (some s.node) sole) d := by
  refine ⟨_, .list ?_ ?_ tree, fun hp => standsFor_list hrows hp, hsole, hd⟩
  . intro r hr
    obtain ⟨_, hsuits⟩ := exists_suits_row hrows hr
    exact hsuits.owns
  . intro r hr
    obtain ⟨_, hsuits⟩ := exists_suits_row hrows hr
    exact hsuits.not_sole

end Rows

section Cells

variable {cells : List Cell} {children : List (Option View)}

theorem exists_suits_cell (hcells : List.Forall₂ (Cell.Suits u p) cells children) {c : Cell}
    (hc : c ∈ cells) : ∃ child, c.Suits u p child := by
  obtain ⟨i, hi⟩ := List.getElem?_of_mem hc
  have hlt : i < children.length := hcells.length_eq ▸ (List.getElem?_eq_some_iff.1 hi).1
  exact ⟨_, forall₂_getElem? hcells hi (List.getElem?_eq_getElem hlt)⟩

theorem standsFor_multi (hcells : List.Forall₂ (Cell.Suits u p) cells children) (hp : u.proper)
    {standIns standIns' : List (Option NodeId)} {parent parent' : Option NodeId} {sole sole' : Bool}
    : StandsFor u (.multi (cells.map Cell.child) standIns parent sole)
        (.multi children standIns' parent' sole') := by
  intro next hnext
  cases hnext with
  | replaced kind => exact .replaced kind nofun
  | multi length child =>
    refine .multi (by rw [List.length_map, hcells.length_eq, length]) fun i a b ha hb => ?_
    rw [List.getElem?_map] at ha
    obtain ⟨c, hc, hca⟩ := Option.map_eq_some_iff.1 ha
    have hlt : i < children.length := hcells.length_eq ▸ (List.getElem?_eq_some_iff.1 hc).1
    have hsuits := forall₂_getElem? hcells hc (List.getElem?_eq_getElem hlt)
    generalize hw : children[i] = w at hsuits
    cases hsuits with
    | absent => cases hca
    | present _ stands =>
      cases hca
      exact stands hp b (child i _ b (by rw [List.getElem?_eq_getElem hlt, hw]) hb)

theorem lodged_multi (hcells : List.Forall₂ (Cell.Suits u s.node) cells children)
    (hd : d.Carries s (.join (cells.map Cell.forest))) {standIns : List (Option NodeId)}
    {parent' : Option NodeId} {sole sole' sole'' : Bool} (hsole : sole → sole'')
    : Lodged u (.multi children standIns parent' sole') sole'' s
        (.multi (cells.map Cell.child) (cells.map Cell.standIn) (some s.node) sole) d := by
  refine ⟨_, .multi ?_ ?_ ?_, fun hp => standsFor_multi hcells hp, hsole, hd⟩
  . intro c hc v hv
    obtain ⟨_, hsuits⟩ := exists_suits_cell hcells hc
    cases hsuits with
    | absent => cases hv
    | present owns => cases hv; exact owns
  . intro c hc v hv
    obtain ⟨_, hsuits⟩ := exists_suits_cell hcells hc
    cases hsuits with
    | absent => cases hv
    | present _ _ not_sole => cases hv; exact not_sole
  . intro c hc hv
    obtain ⟨_, hsuits⟩ := exists_suits_cell hcells hc
    cases hsuits with
    | absent tree => exact ⟨_, rfl, tree⟩
    | present => cases hv

end Cells

section Block

variable {template : Template} {data : Data} {children children' : List (Option View)}
  {root : NodeId} {references : List NodeId} {S : Marked} {held : NodeId → Content}
  {guests : Nat → Forest (NodeId × Content)}

theorem standsFor_block (copied : template.Copied root references S) (hp : u.proper)
    (houses : ∀ o ∈ S.openings p, ∃ v w, children[o.index]? = some v ∧
      children'[o.index]? = some w ∧ Houses u o v w (guests o.index))
    {mounted mounted' : Option Anchorage}
    : StandsFor u (.block template data children mounted) (.block template data children' mounted') := by
  intro next hnext
  cases hnext with
  | replaced kind => exact .replaced kind nofun
  | block callback child =>
    refine .block callback fun slot hs a b ha hb => ?_
    obtain ⟨o, ho, hso⟩ := copied.exists_opening hs p
    obtain ⟨v, w, hv, hw, housed⟩ := houses o ho
    have hchild := child slot hs
    rw [hso] at ha hb hchild
    cases ha.symm.trans hv
    cases housed with
    | present _ stands => exact stands hp b (hchild _ b hw hb)

theorem lodged_block
    (mountable : Mountable u (.block template data children none))
    (copied : template.Copied root references S)
    (houses : ∀ o ∈ S.openings s.node, ∃ v w, children'[o.index]? = some v ∧
      children[o.index]? = some w ∧ Houses u o v w (guests o.index))
    {before : List (Option View)}
    (hbefore : ∀ (i : Nat) (w : View), before[i]? = some (some w) → Mountable u w ∧
      (u.custom → ∃ slot ∈ template.wiring.slots, slot.index = i))
    (others : ∀ i, (∀ o ∈ S.openings s.node, i ≠ o.index) → children'[i]? = before[i]?)
    (hd : d.Carries s (S.filled held guests)) {mounted : Option Anchorage} {sole : Bool}
    : Lodged u (.block template data children mounted) sole s
        (.block template data children' (some ⟨root, references⟩)) d := by
  have hmountable : Mountable u (.block template data children' none) := by
    cases mountable with
    | block known compiled indices capacity placed child =>
      have hchild : ∀ (i : Nat) (w : View), children'[i]? = some (some w) → Mountable u w ∧
          (u.custom → ∃ slot ∈ template.wiring.slots, slot.index = i) := by
        intro i w hw
        by_cases hi : ∀ o ∈ S.openings s.node, i ≠ o.index
        . exact hbefore i w ((others i hi).symm.trans hw)
        . simp only [not_forall, not_not] at hi
          obtain ⟨o, ho, rfl⟩ := hi
          obtain ⟨v, w', hv, -, housed⟩ := houses o ho
          cases hw.symm.trans hv
          cases housed with
          | present owns => exact ⟨owns.mountable, fun _ => copied.exists_slot ho⟩
      refine .block known compiled indices ?_ (fun hc i w hw => (hchild i w hw).2 hc) ?_
      . intro slot hs
        obtain ⟨o, ho, hso⟩ := copied.exists_opening hs s.node
        obtain ⟨v, _, hv, -⟩ := houses o ho
        exact hso ▸ (List.getElem?_eq_some_iff.1 hv).1
      . intro w hw
        obtain ⟨i, hi⟩ := List.getElem?_of_mem hw
        exact (hchild i w hi).1
  refine ⟨_, .block hmountable copied ?_ ?_ ?_, fun hp => standsFor_block copied hp houses, nofun, hd⟩
  . intro o ho v hv
    obtain ⟨v', w, hv', -, housed⟩ := houses o ho
    cases hv.symm.trans hv'
    cases housed with
    | present owns => exact owns
  . intro o ho v hv
    obtain ⟨v', w, hv', -, housed⟩ := houses o ho
    cases hv.symm.trans hv'
    cases housed with
    | present _ _ sole => exact sole
  . intro o ho hv
    obtain ⟨v', w, hv', -, housed⟩ := houses o ho
    cases hv.symm.trans hv'
    generalize guests o.index = G at housed
    cases housed
    rfl

end Block

theorem standsFor_toggler {key : Key} {child child' : View} {parent parent' : Option NodeId}
    (h : StandsFor u child child')
    : StandsFor u (.toggler key child parent) (.toggler key child' parent') := by
  intro next hnext
  cases hnext with
  | replaced kind => exact .replaced kind nofun
  | toggler inner => exact .toggler fun hk => h _ (inner hk)

theorem standsFor_component {name name' : String} {child child' : Option View}
    {node node' : Option NodeId} (isSome : child.isSome = child'.isSome)
    (h : ∀ a b, child = some a → child' = some b → StandsFor u a b)
    : StandsFor u (.component name child node) (.component name' child' node') := by
  intro next hnext
  cases hnext with
  | replaced kind => exact .replaced kind nofun
  | component isSome' inner =>
    refine .component (isSome.trans isSome') fun a b ha hb => ?_
    subst ha
    obtain ⟨c, rfl⟩ := Option.isSome_iff_exists.1 isSome.symm
    exact h a c rfl rfl b (inner c b rfl hb)

end VirtualDom.View
