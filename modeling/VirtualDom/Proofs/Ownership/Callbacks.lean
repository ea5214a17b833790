import VirtualDom.Proofs.Ownership.Lifetime

/-!
This module contains the balance of callbacks: along whole runs, each one that is told an element is told
once that this is gone, when the view goes that it is in. Only callbacks of blocks that are not freed by
themselves are never told.
-/

namespace VirtualDom

open Engine

/-- There are no components, and patches keep callbacks. -/
def Usage.loyal : Usage :=
  .along False True

theorem labelsOf_eq_zero {ls : List Lodger} : labelsOf ls = 0 ↔ ∀ l ∈ ls, l.links = [] := by
  rw [labelsOf, Multiset.coe_eq_zero, List.map_eq_nil_iff, List.flatMap_eq_nil_iff]

theorem sum_buried_eq_zero {gone : Multiset Lodger}
    : (gone.map fun l => labelsOf (l.view.buried l.parent)).sum = 0
        ↔ ∀ l ∈ gone, ∀ b ∈ l.view.buried l.parent, b.links = [] := by
  induction gone using Multiset.induction_on with
  | empty => simp
  | cons l gone ih =>
    rw [Multiset.map_cons, Multiset.sum_cons,
      add_eq_zero_iff_of_nonneg (Multiset.zero_le _) (Multiset.zero_le _), ih, labelsOf_eq_zero,
      Multiset.forall_mem_cons]

namespace View

section Theorems

variable {h : Host} {first : View} {later : List View} {parent : NodeId} {above : Option NodeId}
  {content : Content} {before after : List NodeId}

/--
Along any run that keeps callbacks, those that are told an element are the callbacks in the views that go,
the last view among them. Each is told once that its element is gone, when its view goes, but for those
that are buried in what is freed as a whole. So all is in balance just if no callback is buried.
-/
theorem run_balances_callbacks (hwf : h.document.WellFormed) (horderly : h.document.Orderly)
    (hparent : h.document.standing? parent = some ⟨above, before ++ after, content⟩)
    (hmountable : ∀ w ∈ first :: later, Mountable .loyal w ∧ w.isSole = false)
    (hchain : (first :: later).IsChain (Precedes .loyal))
    : ∃ v h₀ v₁ h₁ gone v₂ h₂ es all,
        first.mount parent after.head? h = .ok v h₀ ∧ Tracks parent v h₀ later v₁ h₁ gone ∧
        v₁.tearDown h₁ = .ok v₂ h₂ ∧ h₂.trace = h.trace ++ es ∧
        all = gone + {⟨parent, v₁⟩} ∧ Tells es all ∧
        (es.filterMap Entry.link? : Multiset Link) = (holdingsGone all).2 ∧
        ((es.filterMap Entry.link?).map Prod.fst : Multiset String)
          = es.filterMap Entry.unlink? + (all.map fun l => labelsOf (l.view.buried l.parent)).sum ∧
        (((es.filterMap Entry.link?).map Prod.fst : Multiset String) = es.filterMap Entry.unlink?
          ↔ ∀ l ∈ all, ∀ b ∈ l.view.buried l.parent, b.links = []) := by
  obtain ⟨v, h₀, _, v₁, h₁, gone, v₂, h₂, es, came, hmount, -, htracks, -, hdown, haccounts, hagree⟩ :=
    run_ends (u := .loyal) trivial hwf horderly hparent hmountable hchain
  have htells := haccounts.tells trivial
  have hlinks : (es.filterMap Entry.link? : Multiset Link) = (holdingsGone (gone + {⟨parent, v₁⟩})).2 :=
    haccounts.links.trans (hagree.2 trivial)
  have hbalance : ((es.filterMap Entry.link?).map Prod.fst : Multiset String) = es.filterMap Entry.unlink?
      + ((gone + {⟨parent, v₁⟩}).map fun l => labelsOf (l.view.buried l.parent)).sum := by
    rw [← Multiset.map_coe, hlinks, htells.filterMap_unlink?]
  refine ⟨v, h₀, v₁, h₁, gone, v₂, h₂, es, _, hmount, htracks, hdown, haccounts.trace, rfl, htells, hlinks,
    hbalance, ?_⟩
  rw [hbalance, ← sum_buried_eq_zero]
  exact add_eq_left

def callers (t : Template) (labels : List String) : View :=
  .ofItems (labels.zipIdx.map fun (label, i) => (.int i, .block t ⟨i, [.ref i label]⟩ [] none))

/-- There are two paragraphs and then one, which goes at last. -/
def callersGo (t : Template) : Engine View := do
  let view ← run (callers t ["r", "q"]) [callers t ["r"]] ⟨0, 0⟩ none
  view.tearDown

theorem exists_callers
    : ∃ t v h, t.Compiled "<p block-ref='0'></p>" true ∧
        (∀ labels, Mountable .loyal (callers t labels) ∧ (callers t labels).isSole = false) ∧
        Precedes .loyal (callers t ["r", "q"]) (callers t ["r"]) ∧ callersGo t .paragraph = .ok v h ∧
        (h.trace.filterMap Entry.link?).map Prod.fst = ["r", "q"] ∧
        h.trace.filterMap Entry.unlink? = ["q", "r"] := by
  have hmakes : Template.makes "<p block-ref='0'></p>" true fun t => t.wiring.slots.isEmpty &&
      (callersGo t).passes .paragraph fun h => (h.trace.filterMap Entry.link?).map Prod.fst = ["r", "q"] &&
        h.trace.filterMap Entry.unlink? = ["q", "r"] := by
    decide +kernel
  obtain ⟨t, ht, htest⟩ := Template.exists_compiled hmakes
  rw [Bool.and_eq_true, List.isEmpty_iff] at htest
  obtain ⟨hslots, hpasses⟩ := htest
  obtain ⟨v, h, hgo, htest⟩ := exists_of_passes hpasses
  simp only [Bool.and_eq_true, decide_eq_true_eq] at htest
  refine ⟨t, v, h, ht, fun labels => ⟨.list ?_ ?_, rfl⟩, .list ?_, hgo, htest⟩
  . intro item hi
    obtain ⟨e, -, rfl⟩ := List.mem_map.1 hi
    exact .block trivial ht (by simp [hslots]) (by simp [hslots]) False.elim (by simp)
  . intro item hi
    obtain ⟨e, -, rfl⟩ := List.mem_map.1 hi
    rfl
  . intro a ha b hb hk
    obtain rfl := List.mem_singleton.1 hb
    rcases List.mem_pair.1 ha with rfl | rfl
    . exact .block (fun _ _ _ _ => rfl) (by simp [hslots])
    . cases hk

theorem run_balances_callbacks_callers
    : ∃ t v h₀ v₁ h₁ gone v₂ h₂ all, t.Compiled "<p block-ref='0'></p>" true ∧
        (callers t ["r", "q"]).mount ⟨0, 0⟩ none .paragraph = .ok v h₀ ∧
        Tracks ⟨0, 0⟩ v h₀ [callers t ["r"]] v₁ h₁ gone ∧ v₁.tearDown h₁ = .ok v₂ h₂ ∧
        all = gone + {⟨⟨0, 0⟩, v₁⟩} ∧ Tells h₂.trace all ∧
        (h₂.trace.filterMap Entry.link? : Multiset Link) = (holdingsGone all).2 ∧
        (h₂.trace.filterMap Entry.link?).map Prod.fst = ["r", "q"] ∧
        h₂.trace.filterMap Entry.unlink? = ["q", "r"] ∧
        ∀ l ∈ all, ∀ b ∈ l.view.buried l.parent, b.links = [] := by
  obtain ⟨t, v', h', ht, hmountable, hprecedes, hgo, hlinked, hunlinked⟩ := exists_callers
  have hparent : Host.paragraph.document.standing? ⟨0, 0⟩
      = some ⟨none, [] ++ [], .element { tag := "p" }⟩ := rfl
  obtain ⟨v, h₀, v₁, h₁, gone, v₂, h₂, es, all, hmount, htracks, hdown, htrace, hall, htells, hlinks, -,
    hbalanced⟩ := run_balances_callbacks (h := .paragraph) Host.paragraph_run.wellFormed_and_capacity.1
      Host.paragraph_run.orderly hparent
      (List.forall_mem_cons.2 ⟨hmountable _, List.forall_mem_singleton.2 (hmountable ["r"])⟩)
      (.cons_cons hprecedes (.singleton _))
  have hrun : callersGo t .paragraph = .ok v₂ h₂ :=
    (bind_run ((bind_run hmount).trans htracks.foldlM)).trans hdown
  obtain ⟨rfl, rfl⟩ : v' = v₂ ∧ h' = h₂ := by
    cases hgo.symm.trans hrun
    exact ⟨rfl, rfl⟩
  have htrace : h'.trace = es := htrace
  rw [← htrace, hlinked, hunlinked] at hbalanced
  have hswap : (["r", "q"] : Multiset String) = ["q", "r"] := Multiset.coe_eq_coe.2 (.swap _ _ _)
  exact ⟨t, v, h₀, v₁, h₁, gone, v', h', all, ht, hmount, htracks, hdown, hall, htrace ▸ htells,
    htrace ▸ hlinks, hlinked, hunlinked, hbalanced.1 hswap⟩

/-- Mounts a block that has a block with a callback in it, and takes it out again. -/
def nestedCallback (outer inner : Template) : Engine View := do
  let inner := .block inner ⟨1, [.ref 0 "r"]⟩ [] none
  let view ← run (.block outer ⟨0, []⟩ [some inner] none) [] ⟨0, 0⟩ none
  view.tearDown

/-- The callback of a block in another block is told its element, but not that this is gone. -/
theorem nestedCallback_untold
    : ∃ outer inner v h, outer.Compiled "<div><block-child-0/></div>" true ∧
        inner.Compiled "<p block-ref='0'></p>" true ∧
        nestedCallback outer inner ⟨(Document.createElement {} "div").2, []⟩ = .ok v h ∧
        h.document.size = 1 ∧ h.trace.map Entry.text = ["ref:r:#2"] := by
  have hmakes : Template.makes "<div><block-child-0/></div>" true fun outer =>
      Template.makes "<p block-ref='0'></p>" true fun inner =>
        (nestedCallback outer inner).passes ⟨(Document.createElement {} "div").2, []⟩ fun h =>
          h.document.size = 1 ∧ h.trace.map Entry.text = ["ref:r:#2"] := by
    decide +kernel
  obtain ⟨outer, houter, hmakes⟩ := Template.exists_compiled hmakes
  obtain ⟨inner, hinner, hpasses⟩ := Template.exists_compiled hmakes
  obtain ⟨v, h, hrun, htest⟩ := exists_of_passes hpasses
  exact ⟨outer, inner, v, h, houter, hinner, hrun, of_decide_eq_true htest⟩

end Theorems

end View
end VirtualDom
