import VirtualDom.Proofs.Ownership.Lifetime
import VirtualDom.Session

/-!
This module contains views without nodes: those that were just made, and what is left of those that
were taken out. They come back where they were, or not at all.
-/

namespace VirtualDom

open Engine
open Document (Site)

/-- The use of views that are made from the templates of a session; faults may come up. -/
def Session.usage (session : Session) : Usage where
  proper := False
  custom := False
  faithful := False
  known t := session.templates.get? t.source = some t
  unique _ s t hs ht h := by
    rw [h, ht] at hs
    exact (Option.some.inj hs).symm
  proper_of_custom := False.elim

namespace View

inductive Fresh (session : Session) : View → Prop
  | text (value : Value) : Fresh session (.ofText value)
  | html (markup : String) : Fresh session (.ofMarkup markup)
  | list {items : List (Key × View)} (item : ∀ item ∈ items, Fresh session item.2) :
      Fresh session (.ofItems items)
  | multi {children : List (Option View)} (child : ∀ w, some w ∈ children → Fresh session w) :
      Fresh session (.ofChildren children)
  | toggler {key : Key} {child : View} (inner : Fresh session child) :
      Fresh session (.ofKey key child)
  | block {template : Template} {source : String} {normalize : Bool} {data : Data}
      {children : List (Option View)} {view : View}
      (known : session.templates.get? template.source = some template)
      (compiled : template.Compiled source normalize)
      (indices : (template.wiring.slots.map (·.index)).Nodup)
      (child : ∀ w, some w ∈ children → Fresh session w)
      (made : View.ofTemplate template data children = .ok view) : Fresh session view

variable {session : Session} {u : Usage} {v w next : View} {p : NodeId} {q : Option NodeId} {s : Site}
  {h : Host} {d₀ d : Document} {F : Forest (NodeId × Content)}

namespace Fresh

theorem isSole_eq (hv : Fresh session v) : v.isSole = false := by
  cases hv with
  | block known compiled indices child made =>
    obtain ⟨_, rfl, -⟩ := ofTemplate_eq_ok made
    rfl
  | _ => rfl

theorem mountable (hv : Fresh session v) : Mountable session.usage v := by
  induction hv with
  | text => exact .text
  | html => exact .html
  | list item ih => exact .list ih fun i hi => (item i hi).isSole_eq
  | multi child ih => exact .multi ih fun w hw => (child w hw).isSole_eq
  | toggler inner ih => exact .toggler ih inner.isSole_eq
  | block known compiled indices child made ih =>
    obtain ⟨_, rfl, hmem, capacity⟩ := ofTemplate_eq_ok made
    exact .block known compiled indices capacity False.elim fun w hw => ih w (hmem w hw)

theorem rests (hv : Fresh session v) : Rests v none := by
  induction hv with
  | text => exact .text
  | html => exact .html
  | list item ih => exact .list fun i hi => (ih i (List.mem_of_mem_head? hi)).firstNode_eq
  | multi child ih => exact .multi (fun w hw => (ih w (List.mem_of_mem_head? hw)).firstNode_eq) rfl
  | toggler inner ih => exact .toggler ih (.inl rfl)
  | block known compiled indices child made ih =>
    obtain ⟨_, rfl, -⟩ := ofTemplate_eq_ok made
    exact .block

end Fresh

namespace Rests

theorem parentNode_eq (hv : Rests v q) (d : Document) : v.parentNode d = .ok q := by
  cases hv <;> rfl

theorem withSole (hv : Rests v q) (sole : Bool) : Rests (v.withSole sole) q := by
  cases hv with
  | text => exact .text
  | html => exact .html
  | list first => exact .list first
  | multi first standIn => exact .multi first standIn
  | toggler inner home => exact .toggler inner home
  | block => exact .block

theorem moveBefore_eq (hv : Rests v q) (target : Option NodeId) : v.moveBefore target = pure () := by
  induction hv with
  | @html _ parent => cases parent <;> rfl
  | toggler inner home ih => exact ih
  | _ => rfl

theorem remove_eq (hv : Rests v q) : v.remove = pure v := by
  induction hv with
  | list =>
    rw [remove]
    nofun
  | toggler inner home ih =>
    rw [remove, ih]
    rfl
  | _ => rfl

theorem tearDown_settles {proper : Prop} (hv : Rests v q) (hmountable : Mountable u v) (hc : ¬ u.custom)
    : Settles proper v.tearDown h fun v' d => v' = v ∧ d = h.document := by
  have hdown : v.tearDown h = .ok v h := by
    rw [tearDown, hv.remove_eq]
    refine (bind_run (beforeRemove_eq h v)).trans ?_
    rw [hmountable.farewells_eq_nil hc, List.append_nil]
    rfl
  exact Performs.of_ok hdown (.refl h) ⟨rfl, rfl, rfl⟩

end Rests

/-- The view has the nodes of `F` in the parent `q`, or none and would come back there. -/
inductive Kept (u : Usage) : View → Option NodeId → Forest (NodeId × Content) → Prop
  | mounted {v : View} {p : NodeId} {F : Forest (NodeId × Content)} (owns : Owns u v p F) :
      Kept u v (some p) F
  | resting {v : View} {q : Option NodeId} (mountable : Mountable u v) (rests : Rests v q) :
      Kept u v q .nil

theorem Kept.mountable (hv : Kept u v q F) : Mountable u v := by
  cases hv with
  | mounted owns => exact owns.mountable
  | resting mountable => exact mountable

/-- The parent, if there is one, is the node of the site, where the document has `F`. -/
def Seats (q : Option NodeId) (s : Site) (F : Forest (NodeId × Content)) (d : Document) : Prop :=
  ∀ p, q = some p → s.node = p ∧ d.Carries s F

/--
What becomes of a view that was kept in the parent `q` of the document `d₀`: it is kept there, or it has
no parent any more. Without a parent, nothing is done.
-/
structure Endures (u : Usage) (q : Option NodeId) (s : Site) (d₀ : Document) (v : View)
    (d : Document) : Prop where
  isSole : v.isSole = false
  kept : ∃ q' F, Kept u v q' F ∧ (q' = none ∨ q' = q) ∧ Seats q s F d
  idle : q = none → d = d₀

namespace Endures

theorem of_lodged (hq : q = some s.node) (hv : Lodged u w false s v d) : Endures u q s d₀ v d := by
  obtain ⟨F, howns, -, hsole, hd⟩ := hv
  refine ⟨by simpa using hsole, ⟨_, F, .mounted howns, .inr hq.symm, fun p hp => ⟨?_, hd⟩⟩, ?_⟩
  . exact Option.some.inj (hq.symm.trans hp)
  . rintro rfl
    cases hq

theorem of_rests {q' : Option NodeId} (hmountable : Mountable u v) (hrests : Rests v q')
    (hq : q' = none ∨ q' = q) (hnot : v.isSole = false) (hd : Seats q s .nil d)
    : Endures u q s d v d :=
  ⟨hnot, ⟨q', .nil, .resting hmountable hrests, hq, hd⟩, fun _ => rfl⟩

theorem of_fresh (hv : Fresh session v) (hd : Seats q s .nil d) : Endures session.usage q s d v d :=
  .of_rests hv.mountable hv.rests (.inl rfl) hv.isSole_eq hd

theorem toggler {q' : Option NodeId} {key : Key} (hv : Endures u q' s d₀ v d)
    (home : q' = none ∨ q' = q) (hd : Seats q s .nil d₀) : Endures u q s d₀ (.toggler key v q) d := by
  obtain ⟨hnot, ⟨q'', F, hkept, hq, hseats⟩, hidle⟩ := hv
  have hstill : q = none → d = d₀ := by
    rintro rfl
    exact hidle (home.elim id id)
  cases hkept with
  | mounted owns =>
    obtain rfl := hq.resolve_left nofun
    obtain rfl := home.resolve_left nofun
    exact ⟨rfl, ⟨_, F, .mounted (.toggler owns hnot), .inr rfl, hseats⟩, hstill⟩
  | resting mountable rests =>
    refine ⟨rfl, ⟨q, .nil, .resting (.toggler mountable hnot) (.toggler rests ?_), .inr rfl, ?_⟩, hstill⟩
    . rcases hq with hq | rfl
      . exact .inl hq
      . exact home
    . rcases home with rfl | rfl
      . exact hidle rfl ▸ hd
      . exact hseats

end Endures

section Patch

theorem Rests.supersede_performs (hv : Rests v q) (hmountable : Mountable session.usage v)
    (hw : Fresh session w)
    (hd : h.document.Carries s .nil) {f : View → View} {Q : View → Exchange → Document → Prop}
    (hf : ∀ w' x d, Lodged session.usage w false s w' d → Q (f w') x d)
    : Performs session.usage.proper (do
        let mounted ← w.mountAs false s.node v.firstNode
        let _ ← v.tearDown
        return f mounted) h Q := by
  rw [hv.firstNode_eq]
  refine Performs.bind (hw.mountable.lodges false s h none hd .none) ?_
  rintro w' x h₁ ⟨hlodged, -⟩
  refine Performs.settled (hv.tearDown_settles hmountable id) ?_
  rintro _ h₂ ⟨-, heq⟩
  exact Performs.pure (hf w' _ _ (heq ▸ hlodged))

theorem Rests.replace_performs (hv : Rests v q) (hmountable : Mountable session.usage v)
    (hnot : v.isSole = false) (hw : Fresh session w) (hd : Seats q s .nil h.document)
    : Performs session.usage.proper (replace w false v) h
        fun v' _ d => Endures session.usage q s h.document v' d := by
  unfold replace
  refine Performs.read_ok (hv.parentNode_eq _) ?_
  cases q with
  | none =>
    rw [withSole_of_not_sole hw.isSole_eq]
    exact Performs.pure (.of_fresh hw hd)
  | some p =>
    obtain ⟨rfl, hcarries⟩ := hd p rfl
    have hsole : (false || v.isSole) = false := by rw [hnot]; rfl
    rw [hsole, ← firstNode_withSole v false]
    refine (hv.withSole false).supersede_performs ?_ hw hcarries fun w' _ _ hw' => .of_lodged rfl hw'
    rwa [withSole_of_not_sole hnot]

theorem Rests.patch_of_kind (hv : Rests v q) (hmountable : Mountable session.usage v)
    (hnot : v.isSole = false) (hw : Fresh session w) (hd : Seats q s .nil h.document)
    (same : v.kind = w.kind → Performs session.usage.proper (w.patchAs false v) h
      fun v' _ d => Endures session.usage q s h.document v' d)
    : Performs session.usage.proper (w.patchAs false v) h
        fun v' _ d => Endures session.usage q s h.document v' d := by
  by_cases hk : v.kind = w.kind
  . exact same hk
  . rw [patchAs_eq_replace hk]
    exact hv.replace_performs hmountable hnot hw hd

theorem patch_html_performs {before : String} (markup : String) (hd : Seats q s .nil h.document)
    : Performs session.usage.proper ((ofMarkup markup).patchAs false (.html before [] q)) h
        fun v' _ d => Endures session.usage q s h.document v' d := by
  cases q with
  | none =>
    rw [ofMarkup, patchAs]
    split
    . exact Performs.pure (.of_rests .html .html (.inr rfl) rfl hd)
    . exact Performs.pure (.of_rests .html .html (.inr rfl) rfl hd)
  | some p =>
    obtain ⟨rfl, hcarries⟩ := hd p rfl
    have howns : Owns session.usage (.html before [] (some s.node)) s.node .nil :=
      .html (F := .nil) fun hproper => hproper.elim
    have hlodged : Lodged session.usage (.ofMarkup markup) false s (.html before [] (some s.node))
        h.document :=
      ⟨.nil, howns, fun hproper => hproper.elim, by simp [isSole], hcarries⟩
    have hnext : Mountable session.usage (.ofMarkup markup) := .html
    refine (patch_succeeds hlodged hnext rfl fun hproper => hproper.elim).mono ?_
    exact fun _ _ _ hsucceeds => .of_lodged rfl hsucceeds.1

theorem Rests.patch_toggler_performs {key key' : Key} {q' : Option NodeId} (hv : Rests v q')
    (hmountable : Mountable session.usage v) (home : q' = none ∨ q' = q) (hw : Fresh session w)
    (hd : Seats q s .nil h.document)
    (inner : Seats q' s .nil h.document → Performs session.usage.proper (w.patchAs w.isSole v) h
      fun v' _ d => Endures session.usage q' s h.document v' d)
    : Performs session.usage.proper ((ofKey key' w).patchAs false (.toggler key v q)) h
        fun v' _ d => Endures session.usage q s h.document v' d := by
  have hd' : Seats q' s .nil h.document := by
    rintro p rfl
    exact hd p (home.resolve_left nofun).symm
  cases q with
  | none =>
    rw [ofKey, patchAs]
    split
    . exact (inner hd').finish fun child' _ d hchild => hchild.toggler home hd
    . exact Performs.pure (.of_fresh (.toggler hw) hd)
  | some p =>
    rw [ofKey, patchAs]
    split
    . exact (inner hd').finish fun child' _ d hchild => hchild.toggler home hd
    . obtain ⟨rfl, hcarries⟩ := hd p rfl
      rw [mount, hw.isSole_eq]
      refine hv.supersede_performs hmountable hw hcarries ?_
      rintro v' _ d ⟨F, howns, -, hsole, hd⟩
      exact .of_lodged (w := .ofKey key' w) rfl
        ⟨F, .toggler howns (by simpa using hsole), fun hproper => hproper.elim, by simp [isSole], hd⟩

theorem Rests.patch_performs (hv : Rests v q) (hmountable : Mountable session.usage v)
    (hnot : v.isSole = false) (hw : Fresh session w) (hd : Seats q s .nil h.document)
    (horderly : h.document.Orderly)
    : Performs session.usage.proper (w.patchAs false v) h
        fun v' _ d => Endures session.usage q s h.document v' d := by
  induction hw generalizing v q h with
  | text value =>
    refine hv.patch_of_kind hmountable hnot (.text value) hd fun hk => ?_
    cases hv with
    | text =>
      rw [ofText, patchAs]
      split
      . exact Performs.pure (.of_rests .text .text (.inr rfl) rfl hd)
      . exact Performs.pure (.of_rests .text .text (.inr rfl) rfl hd)
    | _ => exact absurd hk (by simp [kind, ofText])
  | html markup =>
    refine hv.patch_of_kind hmountable hnot (.html markup) hd fun hk => ?_
    cases hv with
    | html => exact patch_html_performs markup hd
    | _ => exact absurd hk (by simp [kind, ofMarkup])
  | list item ih =>
    have hw := Fresh.list item
    refine hv.patch_of_kind hmountable hnot hw hd fun hk => ?_
    cases hv with
    | list first =>
      rw [ofItems, patchAs]
      swap
      . simp
      refine Performs.pure (.of_rests ?_ (.list ?_) (.inr rfl) hnot hd)
      . exact .list (fun i hi => (item i hi).mountable) fun i hi => (item i hi).isSole_eq
      . exact fun i hi => (item i (List.mem_of_mem_head? hi)).rests.firstNode_eq
    | _ => exact absurd hk (by simp [kind, ofItems])
  | multi child ih =>
    refine hv.patch_of_kind hmountable hnot (.multi child) hd fun hk => ?_
    cases hv with
    | multi first standIn =>
      rw [ofChildren, patchAs]
      refine Performs.pure (.of_rests ?_ (.multi ?_ standIn) (.inr rfl) hnot hd)
      . exact .multi (fun w hw => (child w hw).mountable) fun w hw => (child w hw).isSole_eq
      . exact fun w hw => (child w (List.mem_of_mem_head? hw)).rests.firstNode_eq
    | _ => exact absurd hk (by simp [kind, ofChildren])
  | @toggler key' next inner' ih =>
    refine hv.patch_of_kind hmountable hnot (.toggler inner') hd fun hk => ?_
    cases hv with
    | toggler inner home =>
      cases hmountable with
      | toggler mountable not_sole =>
        exact inner.patch_toggler_performs mountable home inner' hd fun hd' =>
          inner'.isSole_eq ▸ ih inner mountable not_sole hd' horderly
    | _ => exact absurd hk (by simp [kind, ofKey])
  | block known compiled indices child made ih =>
    have hw := Fresh.block known compiled indices child made
    refine hv.patch_of_kind hmountable hnot hw hd fun hk => ?_
    obtain ⟨children', rfl, -⟩ := ofTemplate_eq_ok made
    cases hv with
    | block =>
      rw [patchAs]
      split
      . exact Performs.throw id horderly
      . exact Performs.pure (.of_fresh hw hd)
    | _ => exact absurd hk (by simp [kind])

end Patch

namespace Kept

theorem parentNode_eq (hv : Kept u v q F) (hc : ¬ u.custom) (hd : Seats q s F d)
    : v.parentNode d = .ok q := by
  cases hv with
  | mounted owns =>
    obtain ⟨rfl, hcarries⟩ := hd _ rfl
    exact owns.parentNode hcarries (owns.ne_ghost hc)
  | resting mountable rests => exact rests.parentNode_eq d

theorem patch_performs (hv : Kept session.usage v q F) (hnot : v.isSole = false)
    (hw : Fresh session w) (hd : Seats q s F h.document) (horderly : h.document.Orderly)
    : Performs session.usage.proper (patch v w) h
        fun v' _ d => Endures session.usage q s h.document v' d := by
  cases hv with
  | mounted owns =>
    obtain ⟨rfl, hcarries⟩ := hd _ rfl
    have hlodged : Lodged session.usage v false s v h.document :=
      ⟨F, owns, fun hproper => hproper.elim, by simp [hnot], hcarries⟩
    refine (patch_succeeds hlodged hw.mountable hw.isSole_eq fun hproper => hproper.elim).mono ?_
    exact fun _ _ _ hsucceeds => .of_lodged rfl hsucceeds.1
  | resting mountable rests =>
    rw [patch, hw.isSole_eq]
    exact rests.patch_performs mountable hnot hw hd horderly

theorem moveBefore_performs (hv : Kept u v q F) (hp : ¬ u.proper) (hnot : v.isSole = false)
    (hd : Seats q s F h.document) (target : Option NodeId)
    : Performs u.proper (do v.moveBefore target; return v) h
        fun v' _ d => Endures u q s h.document v' d := by
  cases hv with
  | mounted owns =>
    obtain ⟨rfl, hcarries⟩ := hd _ rfl
    refine Performs.settled (owns.stays s h rfl hcarries fun hproper => absurd hproper hp) ?_
    intro _ h' hd
    exact Performs.pure (.of_lodged (w := v) rfl
      ⟨F, owns, fun hproper => absurd hproper hp, by simp [hnot], hd⟩)
  | resting mountable rests =>
    rw [rests.moveBefore_eq]
    exact Performs.pure (.of_rests mountable rests (.inr rfl) hnot hd)

theorem remove_yields (hv : Kept u v q F) (hp : ¬ u.proper) (hnot : v.isSole = false)
    (hd : Seats q s F h.document)
    : v.remove.Yields h fun v' h' => Endures u q s h.document v' h'.document := by
  cases hv with
  | mounted owns =>
    obtain ⟨rfl, hcarries⟩ := hd _ rfl
    refine (owns.remove_yields rfl hcarries (by simp [hnot])).mono ?_
    rintro v' h' ⟨hremains, hd⟩
    obtain ⟨q', hrests, hq⟩ := hremains.rests hp hnot
    refine ⟨hremains.isSole.trans hnot, ⟨q', .nil, .resting hremains.mountable hrests, hq, ?_⟩, nofun⟩
    rintro _ ⟨⟩
    exact ⟨rfl, hd⟩
  | resting mountable rests =>
    rw [rests.remove_eq]
    exact Yields.pure (.of_rests mountable rests (.inr rfl) hnot hd)

end Kept
end View
end VirtualDom
