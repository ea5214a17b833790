import VirtualDom.Proofs.Document.Shares
import VirtualDom.Proofs.Ownership.Rests

/-!
This module contains stages: documents with several views in hand, which are mounted, patched, moved and
taken out in any order. Whatever is cleared as a whole then belongs to the one that clears it.
-/

namespace VirtualDom

open Engine
open Document (Site)

namespace View

inductive Act where
  | mount (parent : NodeId) (anchor : Option NodeId)
  | patch (next : View)
  | moveBefore (target : Option NodeId)
  | beforeRemove
  | remove

def Avoids (v : View) (d : Document) (x : NodeId) : Prop :=
  ∀ n ∈ v.nodes, ¬ d.Within x n

namespace Act

def run (v : View) : Act → Engine View
  | .mount parent anchor => v.mount parent anchor
  | .patch next => View.patch v next
  | .moveBefore target => do
    v.moveBefore target
    return v
  | .beforeRemove => do
    v.beforeRemove
    return v
  | .remove => v.remove

def outcome (act : Act) (v : View) (h : Host) : Document :=
  match act.run v h with
  | .ok _ h' | .error _ h' => h'.document

/--
A view is mounted into a node outside of the other views, and before nodes that are there. It is patched
with views as they are made.
-/
def Fits (session : Session) (others : Multiset View) (d : Document) : Act → Prop
  | .mount parent anchor =>
    d.contains parent ∧ (∀ v ∈ others, v.Avoids d parent) ∧ ∀ x, anchor = some x → d.contains x
  | .patch next => Fresh session next
  | _ => True

end Act

/-- What is in the view stays as it is, and the parent that the view has stays there. -/
structure Undisturbed (d d' : Document) (v : View) : Prop where
  below : ∀ n ∈ v.nodes, ∀ x, d.Within x n → d'.parent x = d.parent x ∧ d'.children x = d.children x
  parent : ∀ p, v.parentNode d = .ok (some p) → d'.contains p

/--
The views in hand, and the host, after any number of acts. Views are made and let go at any time, and
what is outside of them changes at will.
-/
inductive Stage (session : Session) : Multiset View → Host → Prop
  | start {h : Host} (wellFormed : h.document.WellFormed) (clearings : h.document.annals.clearings = []) :
      Stage session 0 h
  | make {views : Multiset View} {h : Host} {v : View} (stage : Stage session views h)
      (fresh : Fresh session v) : Stage session (v ::ₘ views) h
  | act {views : Multiset View} {h h' : Host} {v v' : View} {act : Act}
      (stage : Stage session (v ::ₘ views) h) (fits : act.Fits session views h.document)
      (run : act.run v h = .ok v' h') : Stage session (v' ::ₘ views) h'
  | letGo {views : Multiset View} {h : Host} {v : View} (stage : Stage session (v ::ₘ views) h) :
      Stage session views h
  | elsewhere {views : Multiset View} {h h' : Host} (stage : Stage session views h)
      (wellFormed : h'.document.WellFormed) (annals : h'.document.annals = h.document.annals)
      (undisturbed : ∀ v ∈ views, Undisturbed h.document h'.document v) : Stage session views h'

variable {session : Session} {u : Usage} {views : Multiset View} {v v' : View} {h h' : Host}
  {d d' : Document} {q : Option NodeId} {F : Forest (NodeId × Content)} {L : Multiset Tenancy}

section Seats

theorem Kept.eq_nil (hv : Kept u v none F) : F = .nil := by
  cases hv with
  | resting => rfl

theorem Kept.mem_ids (hv : Kept u v q F) (hF : ∀ t ∈ F.bonds q, d.bond? t.1 = some t.2) {x : NodeId}
    (hx : x ∈ F.ids) : ∃ n ∈ v.nodes, d.Within x n := by
  cases hv with
  | mounted owns =>
    rw [owns.nodes_eq]
    exact Document.exists_root_within hF hx
  | resting => cases hx

theorem exists_seat (hv : Kept u v q F) (hd : d.Shares ((q, F) ::ₘ L))
    : ∃ s : Site, Seats q s F d ∧ ∀ v' d', Endures u q s d v' d' →
        ∃ q' F', Kept u v' q' F' ∧ d'.Shares ((q', F') ::ₘ L) := by
  cases q with
  | none =>
    refine ⟨⟨⟨0, 0⟩, none, 0, 0⟩, nofun, ?_⟩
    rintro v' d' ⟨-, ⟨q', F', hkept, hq, -⟩, hidle⟩
    obtain rfl : q' = none := hq.elim id id
    obtain rfl := hkept.eq_nil
    exact ⟨none, .nil, hkept, hidle rfl ▸ hd.drop.settle nofun⟩
  | some p =>
    obtain ⟨s, rfl, hcarries, -, hback⟩ := hd.focus
    refine ⟨s, ?_, ?_⟩
    . rintro _ ⟨⟩
      exact ⟨rfl, hcarries⟩
    rintro v' d' ⟨-, ⟨q', F', hkept, hq, hseats⟩, -⟩
    have hd' := hback d' F' (hseats _ rfl).2
    rcases hq with rfl | rfl
    . obtain rfl := hkept.eq_nil
      exact ⟨none, .nil, hkept, hd'.drop.settle nofun⟩
    . exact ⟨_, F', hkept, hd'⟩

end Seats

def Staged (session : Session) (views : Multiset View) (d : Document) : Prop :=
  ∃ L : Multiset (View × Tenancy), L.map (·.1) = views ∧ d.Shares (L.map (·.2)) ∧
    ∀ e ∈ L, e.1.isSole = false ∧ Kept session.usage e.1 e.2.1 e.2.2

def Minds (x : Engine View) (h : Host) (Q : View → Document → Prop) : Prop :=
  match x h with
  | .ok v h' => Q v h'.document
  | .error _ h' => h'.document.Orderly

namespace Minds

variable {x : Engine View} {Q R : View → Document → Prop}

theorem of_performs {proper : Prop} {P : View → Exchange → Document → Prop}
    (hx : Performs proper x h P) (hP : ∀ v c d, P v c d → Q v d) : Minds x h Q := by
  unfold Performs at hx
  unfold Minds
  cases hr : x h with
  | ok v h' =>
    rw [hr] at hx
    obtain ⟨_, _, -, hx⟩ := hx
    exact hP _ _ _ hx
  | error e h' =>
    rw [hr] at hx
    exact hx.2

theorem of_yields (hx : x.Yields h fun v h' => Q v h'.document) : Minds x h Q := by
  obtain ⟨v, h', hr, hQ⟩ := hx
  unfold Minds
  rwa [hr]

theorem mono (hx : Minds x h Q) (hQ : ∀ v d, Q v d → R v d) : Minds x h R := by
  unfold Minds at hx ⊢
  cases hr : x h with
  | ok v h' =>
    rw [hr] at hx
    exact hQ _ _ hx
  | error e h' => rwa [hr] at hx

end Minds

namespace Staged

theorem exists_cons (hs : Staged session (v ::ₘ views) d)
    : ∃ q F, ∃ L : Multiset (View × Tenancy), v.isSole = false ∧ Kept session.usage v q F ∧
        L.map (·.1) = views ∧ d.Shares ((q, F) ::ₘ L.map (·.2)) ∧
          ∀ e ∈ L, e.1.isSole = false ∧ Kept session.usage e.1 e.2.1 e.2.2 := by
  obtain ⟨L, hviews, hshares, hkept⟩ := hs
  obtain ⟨⟨_, q, F⟩, he, rfl⟩ := Multiset.mem_map.1 (hviews ▸ Multiset.mem_cons_self v views)
  obtain ⟨L, rfl⟩ := Multiset.exists_cons_of_mem he
  rw [Multiset.map_cons] at hviews hshares
  have hL := (Multiset.cons_inj_right _).1 hviews
  obtain ⟨⟨hnot, hv⟩, hkept⟩ := Multiset.forall_mem_cons.1 hkept
  exact ⟨q, F, L, hnot, hv, hL, hshares, hkept⟩

theorem cons {L : Multiset (View × Tenancy)} (hnot : v.isSole = false)
    (hv : Kept session.usage v q F) (hviews : L.map (·.1) = views)
    (hshares : d.Shares ((q, F) ::ₘ L.map (·.2)))
    (hkept : ∀ e ∈ L, e.1.isSole = false ∧ Kept session.usage e.1 e.2.1 e.2.2)
    : Staged session (v ::ₘ views) d := by
  refine ⟨(v, q, F) ::ₘ L, ?_, ?_, Multiset.forall_mem_cons.2 ⟨⟨hnot, hv⟩, hkept⟩⟩
  . rw [Multiset.map_cons, hviews]
  . rwa [Multiset.map_cons]

theorem act (hs : Staged session (v ::ₘ views) h.document) {act : Act}
    (hfits : act.Fits session views h.document)
    : Minds (act.run v) h fun v' d => Staged session (v' ::ₘ views) d := by
  obtain ⟨q, F, L, hnot, hv, hviews, hshares, hkept⟩ := hs.exists_cons
  obtain ⟨s, hseats, hback⟩ := exists_seat hv hshares
  have hendures : ∀ v' d, Endures session.usage q s h.document v' d →
      Staged session (v' ::ₘ views) d := by
    intro v' d hv'
    obtain ⟨q', F', hv'', hd⟩ := hback v' d hv'
    exact .cons hv'.isSole hv'' hviews hd hkept
  cases act with
  | mount parent anchor =>
    obtain ⟨hparent, havoids, hanchor⟩ := hfits
    -- What the view had before is let go.
    have hfree : ∀ e ∈ L.map (·.2), parent ∉ e.2.ids := by
      intro e he hids
      obtain ⟨⟨w, e⟩, hwe, rfl⟩ := Multiset.mem_map.1 he
      have hw := (hkept _ hwe).2
      obtain ⟨n, hn, hwithin⟩ := hw.mem_ids
        (hshares.stands e (Multiset.mem_cons_of_mem he)) hids
      exact havoids w (hviews ▸ Multiset.mem_map_of_mem (·.1) hwe) n hn hwithin
    have hsettled := hshares.drop.settle (a := some parent) (by
      rintro _ ⟨⟩
      exact ⟨hparent, hfree⟩)
    obtain ⟨s, rfl, hd, hknown, hback⟩ := hsettled.focus
    have hadmits : Admits session.usage s anchor := fun x hx =>
      .inr ⟨id, (hknown x (hanchor x hx)).resolve_left (by simp)⟩
    refine .of_performs (hv.mountable.lodges v.isSole s h anchor hd hadmits) ?_
    rintro v' _ d ⟨⟨F', howns, -, hsole, hd⟩, -⟩
    exact .cons (by simpa [hnot] using hsole) (.mounted howns) hviews (hback d F' hd) hkept
  | patch next =>
    exact .of_performs (hv.patch_performs hnot hfits hseats hshares.orderly) fun v' _ d => hendures v' d
  | moveBefore target =>
    exact .of_performs (hv.moveBefore_performs id hnot hseats target) fun v' _ d => hendures v' d
  | beforeRemove =>
    have htold : (Act.run v .beforeRemove).Yields h fun v' h' => v' = v ∧ h'.document = h.document := by
      refine Yields.bind (beforeRemove_yields h v) ?_
      intro _ h' heq
      exact Yields.pure ⟨rfl, heq⟩
    refine .of_yields (htold.mono ?_)
    rintro _ h' ⟨rfl, heq⟩
    rw [heq]
    exact hs
  | remove => exact (Minds.of_yields (hv.remove_yields id hnot hseats)).mono hendures

theorem elsewhere (hs : Staged session views d) (hwf : d'.WellFormed)
    (hannals : d'.annals = d.annals) (hsame : ∀ v ∈ views, Undisturbed d d' v)
    : Staged session views d' := by
  obtain ⟨L, rfl, hshares, hkept⟩ := hs
  refine ⟨L, rfl, hshares.undisturbed hwf (hshares.orderly.of_annals_eq hannals) ?_ ?_, hkept⟩
  . intro e he x hx
    obtain ⟨⟨v, e⟩, hv, rfl⟩ := Multiset.mem_map.1 he
    obtain ⟨n, hn, hwithin⟩ := (hkept _ hv).2.mem_ids (hshares.stands e he) hx
    exact (hsame v (Multiset.mem_map_of_mem (·.1) hv)).below n hn x hwithin
  . intro e he p hp
    obtain ⟨⟨v, q, F⟩, hv, rfl⟩ := Multiset.mem_map.1 he
    obtain rfl : q = some p := hp
    obtain ⟨L, rfl⟩ := Multiset.exists_cons_of_mem hv
    rw [Multiset.map_cons] at hshares
    obtain ⟨s, hseats, -⟩ := exists_seat (hkept _ hv).2 hshares
    exact (hsame v (Multiset.mem_map_of_mem (·.1) hv)).parent p ((hkept _ hv).2.parentNode_eq id hseats)

end Staged

theorem Stage.staged (hs : Stage session views h) : Staged session views h.document := by
  induction hs with
  | start wellFormed clearings =>
    refine ⟨0, rfl, ⟨wellFormed, ?_, by simp, by simp, by simp⟩, by simp⟩
    unfold Document.Orderly
    simp [clearings]
  | make stage fresh ih =>
    obtain ⟨L, hviews, hshares, hkept⟩ := ih
    exact .cons fresh.isSole_eq (.resting fresh.mountable fresh.rests) hviews (hshares.settle nofun) hkept
  | @act views h h' v v' act stage fits run ih =>
    have hact := ih.act fits
    unfold Minds at hact
    rwa [run] at hact
  | letGo stage ih =>
    obtain ⟨q, F, L, -, -, hviews, hshares, hkept⟩ := ih.exists_cons
    exact ⟨L, hviews, hshares.drop, hkept⟩
  | elsewhere stage wellFormed annals undisturbed ih => exact ih.elsewhere wellFormed annals undisturbed

section List

def listIn (t : Template) (items : List (Key × View)) : Except Fault View :=
  View.ofTemplate t ⟨0, []⟩ [some (.ofItems items)]

theorem exists_paragraph_place
    : ∃ M, Host.paragraph.document.Shows ⟨⟨0, 0⟩, none, .element { tag := "p" }, [], [], M⟩ .nil :=
  Host.paragraph_run.wellFormed_and_capacity.1.exists_place rfl

def clearsList (t : Template) : Bool :=
  match listIn t [(.int 1, .ofText (.str "a"))], listIn t [] with
  | .ok v, .ok next =>
    match (Act.mount ⟨0, 0⟩ none).run v .paragraph with
    | .ok v' h' => ((Act.patch next).outcome v' h').annals.clearings.length = 1
    | .error _ _ => false
  | _, _ => false

theorem exists_stage
    : ∃ session v next h, Stage session (v ::ₘ 0) h ∧ Fresh session next ∧
        ((Act.patch next).outcome v h).annals.clearings.length = 1 := by
  have hmakes : Template.makes "<ul><block-child-0/></ul>" true
      fun t => t.wiring.slots.map (·.index) = [0] && clearsList t := by
    decide +kernel
  obtain ⟨t, ht, htest⟩ := Template.exists_compiled hmakes
  obtain ⟨hindices, htest⟩ := Bool.and_eq_true_iff.1 htest
  have hindices := of_decide_eq_true hindices
  have hfresh : ∀ items v, (∀ item ∈ items, Fresh ⟨{}, Dict.put [] t.source t, []⟩ item.2) →
      listIn t items = .ok v → Fresh ⟨{}, Dict.put [] t.source t, []⟩ v := by
    intro items v hitems hv
    refine .block (by simp [Dict.get?_put]) ht (by rw [hindices]; decide) ?_ hv
    simpa using Fresh.list hitems
  unfold clearsList at htest
  split at htest
  . next v next hv hnext =>
    split at htest
    . next v' h' hrun =>
      have hfits : (Act.mount ⟨0, 0⟩ none).Fits ⟨{}, Dict.put [] t.source t, []⟩ 0 Host.paragraph.document :=
        ⟨rfl, by simp, nofun⟩
      have hwf := Host.paragraph_run.wellFormed_and_capacity.1
      exact ⟨_, v', next, h', .act (.make (.start hwf rfl) (hfresh _ v (by simpa using .text _) hv))
        hfits hrun, hfresh _ next (by simp) hnext, of_decide_eq_true htest⟩
    . cases htest
  . cases htest

end List

section Theorems

/--
Whenever a list or a multi clears its parent as a whole, the children of that parent are its own nodes,
whatever was done with all the views before, and even if the act does not come to an end.
-/
theorem Stage.clears_own (hs : Stage session (v ::ₘ views) h) {act : Act}
    (hfits : act.Fits session views h.document)
    : ∀ c ∈ (act.outcome v h).annals.clearings, c.children.Perm c.own := by
  have hact := hs.staged.act hfits
  unfold Minds at hact
  unfold Act.outcome
  split at hact
  . obtain ⟨L, -, hshares, -⟩ := hact
    exact hshares.orderly
  . exact hact

theorem Stage.clears_own_list
    : ∃ session v next h, Stage session (v ::ₘ 0) h ∧ Fresh session next ∧
        ((Act.patch next).outcome v h).annals.clearings.length = 1 ∧
        ∀ c ∈ ((Act.patch next).outcome v h).annals.clearings, c.children.Perm c.own := by
  obtain ⟨session, v, next, h, hs, hnext, hclears⟩ := exists_stage
  exact ⟨session, v, next, h, hs, hnext, hclears, hs.clears_own hnext⟩

end Theorems

end View
end VirtualDom
