import VirtualDom.Proofs.View.Ledger
import VirtualDom.Proofs.View.Renewal

/-!
This module contains what patching comes to for views that were taken out: they take over what the next
view is like, or the next view is mounted at the end of the parent that they had.
-/

namespace VirtualDom.View

open Engine
open Document (Place Shows)

variable {alloc : Allocations} {session : Session} {p : NodeId} {F : Forest (NodeId × Content)}
  {h h' : Host} {v v' w : View}

/--
What is left of a view that was taken out of `p`. It has no first node; texts, markup, lists and togglers
remember their parent, but blocks and multis do not.
-/
inductive Vacant (alloc : Allocations) (p : NodeId) : View → Prop
  | text {value : Value} (value_from : value.From alloc) : Vacant alloc p (.text value none (some p))
  | html {markup : String} : Vacant alloc p (.html markup [] (some p))
  | list {items : List (Key × View)}
      (first : ∀ item, items.head? = some item → item.2.firstNode = none) :
      Vacant alloc p (.list items none (some p) false)
  | multi {children : List (Option View)}
      (first : ∀ child, children.head? = some (some child) → child.firstNode = none) :
      Vacant alloc p (.multi children [] none false)
  | toggler {key : Key} {child : View} (inner : Vacant alloc p child) :
      Vacant alloc p (.toggler key child (some p))
  | block {template : Template} {data : Data} {children : List (Option View)} :
      Vacant alloc p (.block template data children none)

/-- Whether a view that was taken out has the nodes of `w` when it is patched by it, instead of none. -/
def revives : View → View → Bool
  | .block _ _ _ _, _ | .multi _ _ _ _, _ => false
  | .html markup _ _, .html markup' _ _ => markup ≠ markup'
  | .toggler key child _, .toggler key' child' _ => key ≠ key' || child.revives child'
  | v, w => v.kind ≠ w.kind

def Agrees : View → View → Prop
  | .block template _ _ _, .block template' _ _ _ => template.source = template'.source
  | .toggler key child _, .toggler key' child' _ => key = key' → child.Agrees child'
  | _, _ => True

section Remove

theorem head?_of_removeItems {items items' : List (Key × View)} {item' : Key × View}
    (hr : removeItems items h = .ok items' h') (hi : items'.head? = some item')
    : ∃ item h₁, items.head? = some item ∧ item.2.remove h = .ok item'.2 h₁ := by
  cases items with
  | nil =>
    rw [removeItems] at hr
    cases hr
    cases hi
  | cons item rest =>
    rw [removeItems] at hr
    obtain ⟨v, h₁, hfirst, hr⟩ := bind_eq_result.1 hr
    obtain ⟨_, _, -, hr⟩ := bind_eq_result.1 hr
    cases hr
    cases hi
    exact ⟨item, h₁, rfl, hfirst⟩

theorem head?_of_removeChildren {cells : List Cell} {children : List (Option View)} {v : View}
    (hr : removeChildren (cells.map Cell.child) (cells.map Cell.standIn) h = .ok children h')
    (hv : children.head? = some (some v))
    : ∃ c ∈ cells, ∃ w h₁, c.child = some w ∧ w.remove h = .ok v h₁ := by
  cases cells with
  | nil =>
    rw [List.map_nil, removeChildren.eq_def] at hr
    cases hr
    cases hv
  | cons c cells =>
    rw [List.map_cons, List.map_cons] at hr
    cases hc : c.child with
    | none =>
      rw [hc, removeChildren] at hr
      obtain ⟨_, _, -, hr⟩ := bind_eq_result.1 hr
      obtain ⟨_, _, -, hr⟩ := bind_eq_result.1 hr
      cases hr
      cases hv
    | some w =>
      rw [hc, removeChildren] at hr
      obtain ⟨v', h₁, hfirst, hr⟩ := bind_eq_result.1 hr
      obtain ⟨_, _, -, hr⟩ := bind_eq_result.1 hr
      cases hr
      cases hv
      exact ⟨c, List.mem_cons_self, w, h₁, hc, hfirst⟩

theorem Vacant.firstNode_eq (hv : Vacant alloc p v) : v.firstNode = none := by
  induction hv with
  | text | html | block => rfl
  | @list items first =>
    cases items with
    | nil => rfl
    | cons item rest =>
      rw [firstNode]
      exact first item rfl
  | @multi children first =>
    cases children with
    | nil => rfl
    | cons child rest =>
      cases child with
      | none => rfl
      | some child =>
        rw [firstNode]
        exact first child rfl
  | toggler inner ih => exact ih

theorem Vacant.not_sole (hv : Vacant alloc p v) : v.isSole = false := by
  cases hv <;> rfl

theorem Draws.vacant_of_remove (hv : Draws alloc v p F) (hnot : v.isSole = false)
    (hr : v.remove h = .ok v' h') : Vacant alloc p v' := by
  induction hv generalizing h h' v' with
  | text value_from =>
    obtain ⟨_, _, -, hr⟩ := bind_eq_result.1 hr
    cases hr
    exact .text value_from
  | html shapes =>
    obtain ⟨_, _, -, hr⟩ := bind_eq_result.1 hr
    cases hr
    exact .html
  | @list rows anchor p sole row not_sole ih =>
    obtain rfl : sole = false := hnot
    rw [View.remove] at hr
    obtain ⟨items, h₁, hitems, hr⟩ := bind_eq_result.1 hr
    obtain ⟨_, _, -, hr⟩ := bind_eq_result.1 hr
    cases hr
    refine .list fun item' hi => ?_
    obtain ⟨item, h₂, hitem, hfirst⟩ := head?_of_removeItems hitems hi
    obtain ⟨r, hr, rfl⟩ := List.mem_map.1 (List.mem_of_mem_head? hitem)
    exact (ih r hr (not_sole r hr) hfirst).firstNode_eq
  | @multi cells p sole ne_nil child not_sole standIn ih =>
    obtain rfl : sole = false := hnot
    rw [View.remove] at hr
    obtain ⟨children, h₁, hchildren, hr⟩ := bind_eq_result.1 hr
    cases hr
    refine .multi fun v hv => ?_
    obtain ⟨c, hc, w, h₂, hcw, hfirst⟩ := head?_of_removeChildren hchildren hv
    exact (ih c hc w hcw (not_sole c hc w hcw) hfirst).firstNode_eq
  | toggler inner not_sole ih =>
    rw [View.remove] at hr
    obtain ⟨child, _, hchild, hr⟩ := bind_eq_result.1 hr
    cases hr
    exact .toggler (ih not_sole hchild)
  | block copied =>
    obtain ⟨_, _, -, hr⟩ := bind_eq_result.1 hr
    obtain ⟨_, _, -, hr⟩ := bind_eq_result.1 hr
    cases hr
    exact .block

theorem Draws.revives_of_remove (hv : Draws alloc v p F) (hr : v.remove h = .ok v' h') (w : View)
    : v'.revives w = v.revives w ∧ (v'.Agrees w ↔ v.Agrees w) := by
  induction hv generalizing h h' v' w with
  | text | html =>
    obtain ⟨_, _, -, hr⟩ := bind_eq_result.1 hr
    cases hr
    cases w <;> exact ⟨rfl, .rfl⟩
  | @list rows anchor p sole row not_sole ih =>
    rw [View.remove] at hr
    cases sole with
    | true =>
      obtain ⟨_, _, -, hr⟩ := bind_eq_result.1 hr
      cases hr
      cases w <;> exact ⟨rfl, .rfl⟩
    | false =>
      obtain ⟨_, _, -, hr⟩ := bind_eq_result.1 hr
      obtain ⟨_, _, -, hr⟩ := bind_eq_result.1 hr
      cases hr
      cases w <;> exact ⟨rfl, .rfl⟩
  | @multi cells p sole ne_nil child not_sole standIn ih =>
    rw [View.remove] at hr
    cases sole with
    | true =>
      obtain ⟨_, _, -, hr⟩ := bind_eq_result.1 hr
      cases hr
      cases w <;> exact ⟨rfl, .rfl⟩
    | false =>
      obtain ⟨_, _, -, hr⟩ := bind_eq_result.1 hr
      cases hr
      cases w <;> exact ⟨rfl, .rfl⟩
  | toggler inner not_sole ih =>
    rw [View.remove] at hr
    obtain ⟨child, _, hchild, hr⟩ := bind_eq_result.1 hr
    cases hr
    cases w with
    | toggler key child parent =>
      obtain ⟨hrevives, hagrees⟩ := ih hchild child
      simp only [revives, Agrees, hrevives, hagrees, and_self]
    | _ => exact ⟨rfl, .rfl⟩
  | block copied =>
    obtain ⟨_, _, -, hr⟩ := bind_eq_result.1 hr
    obtain ⟨_, _, -, hr⟩ := bind_eq_result.1 hr
    cases hr
    cases w <;> exact ⟨rfl, .rfl⟩

theorem Vacant.remove_eq (hv : Vacant alloc p v) : v.remove = pure v := by
  induction hv with
  | list first =>
    rw [View.remove]
    nofun
  | toggler inner ih =>
    rw [View.remove, ih]
    rfl
  | _ => rfl

end Remove

section Patch

/-- Mounting the two views does the same to every host, and gives the same nodes. -/
def MountsLike (v w : View) : Prop :=
  ∀ (sole sole' : Bool) (p : NodeId) (anchor : Option NodeId),
    nodes <$> v.mountAs sole p anchor = nodes <$> w.mountAs sole' p anchor

/-- The run mounts `w` at the end of `p`; only then the components in `v` are told that they go. -/
def Revives (p : NodeId) (v w : View) (x : Engine View) : Prop :=
  nodes <$> x = do
    let mounted ← w.mount p none
    v.beforeRemove
    return mounted.nodes

theorem mountsLike_refl (w : View) : MountsLike w w := by
  intro sole sole' p anchor
  cases w with
  | list | multi =>
    rw [mountAs, mountAs]
    simp only [map_bind, map_pure, nodes]
  | component => rw [mountAs, mountAs]
  | _ => rfl

theorem map_nodes_mountAs_toggler (key : Key) (child : View) (parent : Option NodeId) (sole : Bool)
    (p : NodeId) (anchor : Option NodeId)
    : nodes <$> (View.toggler key child parent).mountAs sole p anchor
        = nodes <$> child.mountAs child.isSole p anchor := by
  rw [mountAs, map_bind]
  simp only [map_pure, nodes]
  exact bind_pure_comp _ _

theorem MountsLike.toggler {key : Key} {child child' : View} {parent parent' : Option NodeId}
    (h : MountsLike child child')
    : MountsLike (.toggler key child parent) (.toggler key child' parent') := by
  intro sole sole' p anchor
  rw [map_nodes_mountAs_toggler, map_nodes_mountAs_toggler]
  exact h _ _ p anchor

theorem mountsLike_text {value value' : Value} {node node' parent parent' : Option NodeId}
    (h : value.text = value'.text)
    : MountsLike (.text value node parent) (.text value' node' parent') := by
  intro sole sole' p anchor
  rw [mountAs, mountAs, h]
  simp only [map_bind, map_pure, nodes]

theorem Vacant.parentNode_eq (hv : Vacant alloc p v) (hk : v.kind ≠ w.kind) (d : Document)
    : v.parentNode d = .ok (if v.revives w then some p else none) := by
  cases hv <;> cases w <;> first
    | exact absurd rfl hk
    | rfl

theorem Vacant.tearDown_eq (hv : Vacant alloc p v) : v.tearDown = do v.beforeRemove; return v := by
  rw [tearDown, hv.remove_eq]

theorem Vacant.supersede_revives (hv : Vacant alloc p v) (hw : w.isSole = false)
    : Revives p v w (do
        let mounted ← w.mountAs false p v.firstNode
        let _ ← v.tearDown
        return mounted) := by
  rw [Revives, hv.firstNode_eq, hv.tearDown_eq, mount, hw]
  simp only [map_bind, map_pure, bind_assoc, pure_bind]

theorem Vacant.replace_revives (hv : Vacant alloc p v) (hw : w.isSole = false)
    (hk : v.kind ≠ w.kind) (hrevives : v.revives w) : Revives p v w (replace w false v) := by
  have hread : read (v.parentNode ·) = (pure (some p) : Engine (Option NodeId)) := by
    funext h
    exact read_eq_ok (by rw [hv.parentNode_eq hk, if_pos hrevives])
  rw [replace, hread, pure_bind, hv.not_sole, withSole_of_not_sole hv.not_sole]
  exact hv.supersede_revives hw

theorem Vacant.replace_eq (hv : Vacant alloc p v) (hw : w.isSole = false) (hk : v.kind ≠ w.kind)
    (hrevives : ¬ v.revives w) : replace w false v = pure w := by
  have hread : read (v.parentNode ·) = (pure none : Engine (Option NodeId)) := by
    funext h
    exact read_eq_ok (by rw [hv.parentNode_eq hk, if_neg hrevives])
  rw [replace, hread, pure_bind, withSole_of_not_sole hw]

/--
What a late patch comes to: the view takes over what the next one is like, or the next one is mounted.
-/
structure Late (p : NodeId) (v w : View) : Prop where
  idle : ¬ v.revives w → ∃ v', w.patchAs false v = pure v' ∧ MountsLike v' w
  revived : v.revives w → Revives p v w (w.patchAs false v)

theorem Late.of_idle (hnot : ¬ v.revives w) (hidle : ∃ v', w.patchAs false v = pure v' ∧ MountsLike v' w)
    : Late p v w :=
  ⟨fun _ => hidle, fun hrevives => absurd hrevives hnot⟩

theorem Vacant.late_of_kind (hv : Vacant alloc p v) (hw : w.isSole = false)
    (same : v.kind = w.kind → Late p v w) : Late p v w := by
  by_cases hk : v.kind = w.kind
  . exact same hk
  . refine ⟨fun hrevives => ⟨w, ?_, mountsLike_refl w⟩, fun hrevives => ?_⟩
    . rw [patchAs_eq_replace hk, hv.replace_eq hw hk hrevives]
    . rw [patchAs_eq_replace hk]
      exact hv.replace_revives hw hk hrevives

theorem late_text {value value' : Value} (hfrom : value.From alloc) (hfrom' : value'.From alloc)
    : Late p (.text value none (some p)) (.ofText value') := by
  refine .of_idle Bool.false_ne_true ?_
  rw [ofText, patchAs]
  split
  . next hsame => exact ⟨_, rfl, mountsLike_text (Value.text_eq_of_same hfrom hfrom' hsame)⟩
  . exact ⟨_, rfl, mountsLike_text rfl⟩

theorem late_html (markup markup' : String)
    : Late p (.html markup [] (some p)) (.ofMarkup markup') := by
  constructor
  . intro hrevives
    obtain rfl : markup = markup' := not_not.1 fun hne => hrevives (decide_eq_true hne)
    rw [ofMarkup, patchAs, if_pos rfl]
    refine ⟨_, rfl, fun _ _ _ _ => ?_⟩
    rw [mountAs, mountAs]
  . intro hrevives
    have hne : markup ≠ markup' := of_decide_eq_true hrevives
    rw [Revives, ofMarkup, patchAs, mount, mountAs, if_neg hne, beforeRemove]
    simp only [map_bind, map_pure, bind_assoc, pure_bind, nodes, List.head?_nil]
    rfl

theorem Revives.toggler {x y : Engine View} {key key' : Key} {parent : Option NodeId}
    (hx : Revives p v w x) (heq : nodes <$> y = nodes <$> x)
    : Revives p (.toggler key v parent) (.ofKey key' w) y := by
  have hmount : (ofKey key' w).mount p none = do return .toggler key' (← w.mount p none) (some p) := by
    rw [mount, ofKey, mountAs]
    rfl
  rw [Revives, heq, hx, hmount, beforeRemove]
  simp only [bind_assoc, pure_bind, nodes]

theorem Vacant.late_toggler {key key' : Key} (hv : Vacant alloc p v) (hw : w.isSole = false)
    (inner : key = key' → Late p v w) : Late p (.toggler key v (some p)) (.ofKey key' w) := by
  by_cases hk : key = key'
  . subst hk
    have hrevives : (View.toggler key v (some p)).revives (.ofKey key w) = v.revives w := by
      simp [revives, ofKey]
    have hpatch : (ofKey key w).patchAs false (.toggler key v (some p))
        = do return .toggler key (← w.patchAs false v) (some p) := by
      rw [ofKey, patchAs, if_pos rfl, hw]
    constructor
    . intro hnot
      obtain ⟨v', hv', hlike⟩ := (inner rfl).idle (hrevives ▸ hnot)
      refine ⟨.toggler key v' (some p), ?_, hlike.toggler⟩
      rw [hpatch, hv', pure_bind]
    . intro hrev
      refine ((inner rfl).revived (hrevives ▸ hrev)).toggler ?_
      rw [hpatch]
      simp only [map_bind, map_pure, nodes]
      exact bind_pure_comp _ _
  . refine ⟨fun hnot => absurd ?_ hnot, fun _ => (hv.supersede_revives hw).toggler ?_⟩
    . simp [revives, ofKey, hk]
    . rw [ofKey, patchAs, if_neg hk, mount, hw]
      simp only [map_bind, map_pure, nodes]

theorem Vacant.late (hv : Vacant alloc p v) (hw : Built alloc w) (hagree : v.Agrees w) : Late p v w := by
  induction hw generalizing v with
  | text value_from =>
    refine hv.late_of_kind rfl fun hk => ?_
    cases hv with
    | text value_from' => exact late_text value_from' value_from
    | _ => exact absurd hk (by simp [kind, ofText])
  | html markup =>
    refine hv.late_of_kind rfl fun hk => ?_
    cases hv with
    | html => exact late_html _ markup
    | _ => exact absurd hk (by simp [kind, ofMarkup])
  | @list items item ih =>
    refine hv.late_of_kind rfl fun hk => ?_
    cases hv with
    | list first =>
      refine .of_idle Bool.false_ne_true ⟨.list items none (some p) false, ?_, fun sole sole' q anchor => ?_⟩
      . rw [ofItems, patchAs]
        simp
      . rw [ofItems, mountAs, mountAs]
        simp only [map_bind, map_pure, nodes]
    | _ => exact absurd hk (by simp [kind, ofItems])
  | @multi children ne_nil child ih =>
    refine hv.late_of_kind rfl fun hk => ?_
    cases hv with
    | multi first =>
      refine .of_idle Bool.false_ne_true ⟨.multi children [] none false, ?_, fun sole sole' q anchor => ?_⟩
      . rw [ofChildren, patchAs]
      . rw [ofChildren, mountAs, mountAs]
        simp only [map_bind, map_pure, nodes]
    | _ => exact absurd hk (by simp [kind, ofChildren])
  | toggler inner ih =>
    refine hv.late_of_kind rfl fun hk => ?_
    cases hv with
    | toggler inner' => exact inner'.late_toggler inner.not_sole fun heq => ih inner' (hagree heq)
    | _ => exact absurd hk (by simp [kind, ofKey])
  | block compiled indices data_from child made ih =>
    obtain ⟨children', rfl, -⟩ := ofTemplate_eq_ok made
    refine hv.late_of_kind rfl fun hk => ?_
    cases hv with
    | block =>
      have hsource : ¬ _ ≠ _ := not_not.2 hagree
      refine .of_idle Bool.false_ne_true ⟨_, ?_, mountsLike_refl _⟩
      rw [patchAs, if_neg hsource]
    | _ => exact absurd hk (by simp [kind])

end Patch

theorem exists_of_map_eq_ok {α β : Type} {f : α → β} {x : Engine α} {b : β}
    (hx : (f <$> x) h = .ok b h') : ∃ a, x h = .ok a h' ∧ f a = b := by
  rw [map_eq_pure_bind] at hx
  obtain ⟨a, h₁, ha, hx⟩ := bind_eq_result.1 hx
  cases hx
  exact ⟨a, ha, rfl⟩

theorem gone_of_shows {pl : Place} {d d' : Document} (h : d.Shows pl F) (h' : d'.Shows pl .nil)
    {x : NodeId} (hx : x ∈ F.ids) : d'.contains x = false := by
  have hnd := Document.Holds.nodup h
  rw [Place.map_census] at hnd
  rw [Bool.eq_false_iff, ne_eq, Document.Holds.contains_iff h']
  exact Multiset.disjoint_left.1 (Multiset.nodup_add.1 hnd).2.2 hx

theorem Revives.exists_nodes {x : Engine View} (hx : Revives p v w x) (hw : Built alloc w)
    (hwf : h.document.WellFormed) {a : Option NodeId} {ks : List NodeId} {c : Content}
    (hp : h.document.standing? p = some ⟨a, ks, c⟩)
    : ∃ v' h', x h = .ok v' h' ∧ v'.nodes ≠ [] ∧ h'.document.children p = .ok (ks ++ v'.nodes) := by
  have hp : h.document.standing? p = some ⟨a, ks ++ [], c⟩ := by rwa [List.append_nil]
  obtain ⟨M, hd⟩ := hwf.exists_place hp
  obtain ⟨m, h₁, hmount, F, hdraws, -, -, hd⟩ := mount_yields hw hd
  have hrun : (nodes <$> x) h = .ok m.nodes { h₁ with trace := h₁.trace ++ v.farewells h₁.document } := by
    rw [hx]
    exact (bind_run hmount).trans (bind_run (beforeRemove_eq h₁ v))
  obtain ⟨v', hx, hnodes⟩ := exists_of_map_eq_ok hrun
  have hchildren := hd.wellFormed.children_of_standing? hd.standing?_node
  obtain ⟨n, -, hn⟩ := hdraws.exists_firstNode
  refine ⟨v', _, hx, ?_, ?_⟩
  . rintro hnil
    rw [← hdraws.nodes_eq, ← hnodes, hnil] at hn
    cases hn
  . rw [hnodes, hdraws.nodes_eq]
    simpa using hchildren

section Theorems

variable {parent : NodeId}

/--
A view that was taken out and is patched late either takes over what the next view is like, and does
nothing, or has the next view mounted at the end of the parent that it had.
-/
theorem late_patch (hv : Reached alloc session parent v h)
    : ∃ v₁ h₁ ks, v.tearDown h = .ok v₁ h₁ ∧ h₁.document.children parent = .ok ks ∧
        (∀ n ∈ v.nodes, h₁.document.contains n = false) ∧
        ∀ w, Built alloc w → v.Agrees w →
          (¬ v.revives w → ∃ v₂, patch v₁ w = pure v₂ ∧
            ∀ p anchor, nodes <$> v₂.mount p anchor = nodes <$> w.mount p anchor) ∧
          (v.revives w →
            nodes <$> patch v₁ w = (do
              let mounted ← w.mount parent none
              v₁.beforeRemove
              return mounted.nodes) ∧
            ∃ v₂ h₂, patch v₁ w h₁ = .ok v₂ h₂ ∧ v₂.nodes ≠ [] ∧
              h₂.document.children parent = .ok (ks ++ v₂.nodes)) := by
  obtain ⟨_, pl, A, B, -, rfl, -, -, F, hdraws, -, hsole, hd⟩ := hv.sits
  have hnot : v.isSole = false := by simpa using hsole
  obtain ⟨v₁, h₁, htear, -, hd₁⟩ := hdraws.tearDown_yields hd (by simp [hnot])
  obtain ⟨_, h₀, htold, hremove⟩ := bind_eq_result.1 htear
  have hvacant := hdraws.vacant_of_remove hnot hremove
  have hnode := hd₁.standing?_node
  refine ⟨v₁, h₁, _, htear, hd₁.wellFormed.children_of_standing? hnode, ?_, fun w hw hagree => ?_⟩
  . intro n hn
    rw [hdraws.nodes_eq] at hn
    exact gone_of_shows hd hd₁ (Forest.mem_rootIds hn)
  obtain ⟨hrevives, hagrees⟩ := hdraws.revives_of_remove hremove w
  have hlate := hvacant.late hw (hagrees.2 hagree)
  have hpatch : patch v₁ w = w.patchAs false v₁ := by rw [patch, hw.not_sole]
  rw [hpatch, ← hrevives]
  refine ⟨fun hrev => ?_, fun hrev => ?_⟩
  . obtain ⟨v₂, hv₂, hlike⟩ := hlate.idle hrev
    exact ⟨v₂, hv₂, fun p anchor => hlike _ _ p anchor⟩
  . have hrun := hlate.revived hrev
    exact ⟨hrun, hrun.exists_nodes hw hd₁.wellFormed hnode⟩

def keyedList : View :=
  .ofKey (.int 1) (.ofItems [(.int 2, .ofText (.str "a"))])

theorem late_patch_keyedList
    : ∃ v h v₁ h₁ ks v₂ h₂ v₃, keyedList.mount ⟨0, 0⟩ none .paragraph = .ok v h ∧
        v.tearDown h = .ok v₁ h₁ ∧ h₁.document.children ⟨0, 0⟩ = .ok ks ∧
        (∀ n ∈ v.nodes, h₁.document.contains n = false) ∧
        patch v₁ (.ofKey (.int 1) (.ofMarkup "<b></b>")) h₁ = .ok v₂ h₂ ∧ v₂.nodes ≠ [] ∧
        h₂.document.children ⟨0, 0⟩ = .ok (ks ++ v₂.nodes) ∧
        patch v₁ (.ofKey (.int 1) (.ofItems [])) = pure v₃ ∧
        ∀ p anchor, nodes <$> v₃.mount p anchor
          = nodes <$> (ofKey (.int 1) (.ofItems [])).mount p anchor := by
  have hbuilt : Built noData keyedList := .toggler (.list (by simpa using .text trivial))
  have hfresh : Fresh ⟨{}, [], []⟩ keyedList := .toggler (.list (by simpa using .text _))
  obtain ⟨M, hd⟩ := exists_paragraph_place
  obtain ⟨v, h, hmount, _, -, halike, -⟩ := mount_yields hbuilt hd
  have hreached : Reached noData ⟨{}, [], []⟩ ⟨0, 0⟩ v h :=
    .mount (h := .paragraph) hd.wellFormed rfl (by rintro _ ⟨⟩) hbuilt hfresh hmount
  obtain ⟨v₁, h₁, ks, htear, hchildren, hgone, hlate⟩ := late_patch hreached
  cases halike with
  | toggler inner =>
    cases inner with
    | list =>
      obtain ⟨-, hrevived⟩ :=
        hlate (.ofKey (.int 1) (.ofMarkup "<b></b>")) (.toggler (.html _)) fun _ => trivial
      obtain ⟨-, v₂, h₂, hpatch, hne, hchildren₂⟩ := hrevived rfl
      obtain ⟨hidle, -⟩ := hlate (.ofKey (.int 1) (.ofItems [])) (.toggler (.list (by simp))) fun _ => trivial
      obtain ⟨v₃, hv₃, hlike⟩ := hidle (by simp [revives, kind, ofKey, ofItems])
      exact ⟨_, h, v₁, h₁, ks, v₂, h₂, v₃, hmount, htear, hchildren, hgone, hpatch, hne, hchildren₂,
        hv₃, hlike⟩

def returns : Bool :=
  match (do (← (ofText (.str "a")).mount ⟨0, 0⟩ none).tearDown : Engine View) .paragraph with
  | .ok v h =>
    match patch v (.ofMarkup "<b></b>") h with
    | .ok _ h' => (h.document.children ⟨0, 0⟩).toOption = some [] &&
      (h'.document.children ⟨0, 0⟩).toOption = some [⟨1, 1⟩]
    | .error _ _ => false
  | .error _ _ => false

/-- A text that was taken out is patched by markup, and there are nodes again. -/
theorem late_patch_inserts
    : ∃ v h₁ v₁ h₂ v₂ h₃, (ofText (.str "a")).mount ⟨0, 0⟩ none .paragraph = .ok v h₁ ∧
        v.tearDown h₁ = .ok v₁ h₂ ∧ h₂.document.children ⟨0, 0⟩ = .ok [] ∧
        patch v₁ (.ofMarkup "<b></b>") h₂ = .ok v₂ h₃ ∧
        h₃.document.children ⟨0, 0⟩ = .ok [⟨1, 1⟩] := by
  have htest : returns := by decide +kernel
  unfold returns at htest
  split at htest
  case h_2 => cases htest
  next v₁ h₂ hrun =>
  obtain ⟨v, h₁, hmount, htear⟩ := bind_eq_result.1 hrun
  split at htest
  case h_2 => cases htest
  next v₂ h₃ hpatch =>
  simp only [Bool.and_eq_true, decide_eq_true_eq] at htest
  exact ⟨v, h₁, v₁, h₂, v₂, h₃, hmount, htear, toOption_eq_some htest.1, hpatch,
    toOption_eq_some htest.2⟩

end Theorems

end VirtualDom.View
