import VirtualDom.Proofs.Document.Run
import VirtualDom.Proofs.View.Patch

/-!
This module contains the correctness of whole runs: a view is mounted, brought in line with the views of
later renders, and taken out in the end.
-/

namespace VirtualDom.View

open Engine
open Document (Place Shows)

/-- Mounts a view and brings it in line with all later ones. -/
def run (first : View) (later : List View) (parent : NodeId) (anchor : Option NodeId)
    : Engine View := do
  later.foldlM patch (← first.mount parent anchor)

variable {alloc : Allocations} {lore : Lore} {pl : Place} {h : Host} {v w first : View} {later : List View}

section Stands

theorem Stands.patch_gives {sure : Prop} (hv : Stands lore v false pl w h) {next : View}
    (hnext : Incoming.Serves sure lore ⟨next, next.patchAs⟩) (hmeets : Meets sure v next)
    : (patch w next).Gives sure h (Stands lore next false pl) := by
  obtain ⟨F, hof, halike, hsole, hd⟩ := hv
  refine (hnext.patch_gives hof (by simpa using hsole) (.of_alike halike hmeets) hd).mono ?_
  rintro v' h' ⟨G, hG, halike, hnot, hd⟩
  exact ⟨G, hG, halike, by simp [hnot], hd⟩

theorem Stands.patchAll_yields (hv : Stands lore v false pl w h)
    (hlater : ∀ w ∈ later, Incoming.Serves True lore ⟨w, w.patchAs⟩)
    (hchain : (v :: later).IsChain Compatible)
    : (later.foldlM patch w).Yields h (Stands lore (later.getLastD v) false pl) := by
  induction later generalizing v w h with
  | nil => exact Yields.pure hv
  | cons next later ih =>
    obtain ⟨hcompatible, hchain⟩ := List.isChain_cons_cons.1 hchain
    have hnext := hv.patch_gives (hlater next List.mem_cons_self) hcompatible.meets
    rw [List.foldlM_cons, List.getLastD_cons]
    refine Yields.bind (Gives.yields hnext trivial) ?_
    intro v' h' hv
    exact ih hv (fun w hw => hlater w (List.mem_cons_of_mem _ hw)) hchain

theorem Incoming.Serves.mount_yields {sure : Prop} (hw : Incoming.Serves sure lore ⟨w, w.patchAs⟩)
    (hd : h.document.Shows pl .nil)
    : (w.mount pl.node pl.after.head?).Yields h (Stands lore w false pl) := by
  unfold View.mount
  rw [hw.not_sole]
  exact hw.mounts false pl h hd

theorem Incoming.Serves.run_yields
    (hserves : ∀ w ∈ first :: later, Incoming.Serves True lore ⟨w, w.patchAs⟩)
    (hchain : (first :: later).IsChain Compatible) (hd : h.document.Shows pl .nil)
    : (run first later pl.node pl.after.head?).Yields h (Stands lore (later.getLastD first) false pl) := by
  refine Yields.bind ((hserves first List.mem_cons_self).mount_yields hd) ?_
  intro v h' hv
  exact hv.patchAll_yields (fun w hw => hserves w (List.mem_cons_of_mem _ hw)) hchain

end Stands

theorem patch_gives {sure : Prop} (hv : Stands alloc v false pl w h) {next : View}
    (hnext : Built alloc next) (hmeets : Meets sure v next)
    : (patch w next).Gives sure h (Stands alloc next false pl) :=
  hv.patch_gives (hnext.serves sure) hmeets

theorem mount_yields (hw : Built alloc w) (hd : h.document.Shows pl .nil)
    : (w.mount pl.node pl.after.head?).Yields h (Stands alloc w false pl) :=
  (hw.serves True).mount_yields hd

theorem run_yields (hbuilt : ∀ w ∈ first :: later, Built alloc w)
    (hchain : (first :: later).IsChain Compatible) (hd : h.document.Shows pl .nil)
    : (run first later pl.node pl.after.head?).Yields h (Stands alloc (later.getLastD first) false pl) :=
  Incoming.Serves.run_yields (fun w hw => (hbuilt w hw).serves True) hchain hd

section Renders

/-- Renders that follow on a text: a block in a list, and the block with other content behind an item. -/
def paragraphs (t : Template) : List View :=
  [.ofItems [(.int 1, .block t ⟨0, [.str "x"]⟩ [some (.ofText (.str "y"))] none)],
    .ofItems [(.int 2, .ofMarkup "<i/>"), (.int 1, .block t ⟨1, [.str "z"]⟩ [some (.ofItems [])] none)]]

def paragraphData : Allocations where
  items := fun _ => []
  display := fun _ => ""
  data := fun i => if i = 0 then [.str "x"] else [.str "z"]

theorem exists_paragraphs
    : ∃ t : Template, t.Compiled "<p>a<b><block-child-0/></b><block-text-0/></p>" true ∧
        (∀ w ∈ .ofText (.str "a") :: paragraphs t, Built paragraphData w) ∧
        (.ofText (.str "a") :: paragraphs t).IsChain Compatible := by
  have hmakes : Template.makes "<p>a<b><block-child-0/></b><block-text-0/></p>" true
      fun t => t.wiring.slots.map (·.index) = [0] := by
    decide +kernel
  obtain ⟨t, ht, htest⟩ := Template.exists_compiled hmakes
  have hindices := of_decide_eq_true htest
  have hmake : ∀ data child,
      ofTemplate t data [some child] = .ok (.block t data [some child] none) := by
    intro data child
    obtain ⟨s, hs, hi⟩ := List.map_eq_singleton_iff.1 hindices
    simp [ofTemplate, Template.Wiring.childCapacity, hs, hi, Template.indexLimit, childLimit]
    rfl
  have hblock : ∀ i s child, paragraphData.data i = [.str s] → Built paragraphData child →
      Built paragraphData (.block t ⟨i, [.str s]⟩ [some child] none) := by
    intro i s child hi hchild
    refine .block ht (by rw [hindices]; decide) ⟨hi.symm, ?_⟩ ?_ (hmake _ child)
    . intro v hv
      cases List.mem_singleton.1 hv
      trivial
    . intro w hw
      cases List.mem_singleton.1 hw
      exact hchild
  have htext : ∀ s, Built paragraphData (.ofText (.str s)) := fun s => .text trivial
  refine ⟨t, ht, ?_, ?_⟩
  . have hfirst := hblock 0 "x" (.ofText (.str "y")) rfl (htext "y")
    have hsecond := hblock 1 "z" (.ofItems []) rfl (.list (by simp))
    simp only [paragraphs, List.forall_mem_cons]
    exact ⟨htext "a", .list (by simpa using hfirst),
      .list (by simpa using ⟨.html "<i/>", hsecond⟩), by simp⟩
  . have hblocks : Compatible
        (.block t ⟨0, [.str "x"]⟩ [some (.ofText (.str "y"))] none)
        (.block t ⟨1, [.str "z"]⟩ [some (.ofItems [])] none) := by
      refine .block fun slot hs a b ha hb => .replaced ?_
      cases List.mem_singleton.1 (List.mem_of_getElem? ha)
      cases List.mem_singleton.1 (List.mem_of_getElem? hb)
      simp [kind, ofText, ofItems]
    refine .cons_cons (.replaced (by simp [kind, ofText, ofItems])) ?_
    exact .cons_cons (.list (by simpa using hblocks)) (.singleton _)

end Renders

section Theorems

variable {parent : NodeId} {above : Option NodeId} {content : Content} {before after : List NodeId}

/--
After any run, what is in the parent looks as if the last view had been mounted there at once, and
nothing else has changed. As a run may stop after each of its patches, this holds after each of them.
-/
theorem run_shows_mount (hwf : h.document.WellFormed)
    (hparent : h.document.standing? parent = some ⟨above, before ++ after, content⟩)
    (hbuilt : ∀ w ∈ first :: later, Built alloc w) (hchain : (first :: later).IsChain Compatible)
    : ∃ v₁ h₁ v₂ h₂ F₁ F₂ nodes,
        run first later parent after.head? h = .ok v₁ h₁ ∧
        (later.getLastD first).mount parent after.head? h = .ok v₂ h₂ ∧
        h₁.document.below parent = .ok F₁ ∧ h₂.document.below parent = .ok F₂ ∧
        F₁.map (·.2.shape) = F₂.map (·.2.shape) ∧ h₁.document.WellFormed ∧
        h₁.document.standing? parent = some ⟨above, before ++ nodes ++ after, content⟩ ∧
        ∀ id s, id ≠ parent → h.document.standing? id = some s → h₁.document.standing? id = some s := by
  obtain ⟨M, hd⟩ := hwf.exists_place hparent
  obtain ⟨A, B, hbelow⟩ := hd.exists_below
  have hlast : Built alloc (later.getLastD first) := hbuilt _ List.getLastD_mem_cons
  obtain ⟨v₁, h₁, hrun, F₁, hdraws₁, halike₁, -, hd₁⟩ := run_yields hbuilt hchain hd
  obtain ⟨v₂, h₂, hmount, F₂, hdraws₂, halike₂, -, hd₂⟩ := mount_yields hlast hd
  refine ⟨v₁, h₁, v₂, h₂, _, _, F₁.rootIds, hrun, hmount, hbelow _ _ hd₁, hbelow _ _ hd₂, ?_,
    hd₁.wellFormed, hd₁.standing?_node, fun id s hid hs => hd.frame hd₁ hid hs⟩
  have hshapes := (hdraws₁.shapes_eq halike₁).trans (hdraws₂.shapes_eq halike₂).symm
  rw [Forest.map_append, Forest.map_append, Forest.map_append, Forest.map_append, hshapes]

theorem run_shows_mount_paragraphs
    : ∃ d t, d.children ⟨0, 0⟩ = .ok [⟨1, 0⟩] ∧
        t.Compiled "<p>a<b><block-child-0/></b><block-text-0/></p>" true ∧
        ∃ c v₁ h₁ v₂ h₂ F₁ F₂ nodes,
          run (.ofText (.str "a")) (paragraphs t) ⟨0, 0⟩ (some ⟨1, 0⟩) ⟨d, []⟩ = .ok v₁ h₁ ∧
          ((paragraphs t).getLastD (.ofText (.str "a"))).mount ⟨0, 0⟩ (some ⟨1, 0⟩) ⟨d, []⟩
            = .ok v₂ h₂ ∧
          h₁.document.below ⟨0, 0⟩ = .ok F₁ ∧ h₂.document.below ⟨0, 0⟩ = .ok F₂ ∧
          F₁.map (·.2.shape) = F₂.map (·.2.shape) ∧ h₁.document.WellFormed ∧
          h₁.document.standing? ⟨0, 0⟩ = some ⟨none, nodes ++ [⟨1, 0⟩], c⟩ ∧
          ∀ id s, id ≠ ⟨0, 0⟩ → d.standing? id = some s → h₁.document.standing? id = some s := by
  obtain ⟨d, c, hrun, hchildren, hparent⟩ := Document.Run.exists_paragraph
  have hparent : d.standing? ⟨0, 0⟩ = some ⟨none, [] ++ [⟨1, 0⟩], c⟩ := hparent
  obtain ⟨t, ht, hbuilt, hchain⟩ := exists_paragraphs
  exact ⟨d, t, hchildren, ht, c, run_shows_mount (h := ⟨d, []⟩) hrun.wellFormed_and_capacity.1 hparent
    hbuilt hchain⟩

/--
After any run, taking the view out leaves the document with the nodes that it had at first, and doing
that once more does nothing.
-/
theorem run_tearDown (hwf : h.document.WellFormed)
    (hparent : h.document.standing? parent = some ⟨above, before ++ after, content⟩)
    (hbuilt : ∀ w ∈ first :: later, Built alloc w) (hchain : (first :: later).IsChain Compatible)
    : ∃ v₁ h₁ v₂ h₂ v₃ h₃,
        run first later parent after.head? h = .ok v₁ h₁ ∧ v₁.tearDown h₁ = .ok v₂ h₂ ∧
        h₂.document.WellFormed ∧ (∀ id, h₂.document.standing? id = h.document.standing? id) ∧
        h₂.document.size = h.document.size ∧
        v₂.tearDown h₂ = .ok v₃ h₃ ∧ h₃.document = h₂.document := by
  obtain ⟨M, hd⟩ := hwf.exists_place hparent
  obtain ⟨v₁, h₁, hrun, F, hdraws, -, hsole, hd₁⟩ := run_yields hbuilt hchain hd
  obtain ⟨v₂, h₂, hfirst, hspent, hd₂⟩ :=
    hdraws.tearDown_yields hd₁ fun hs => absurd (hsole hs) nofun
  obtain ⟨v₃, h₃, hsecond, heq⟩ := hspent.tearDown_yields h₂
  exact ⟨v₁, h₁, v₂, h₂, v₃, h₃, hrun, hfirst, hd₂.wellFormed, Document.Holds.standing?_eq hd hd₂,
    (Document.Holds.size_eq hd₂).trans (Document.Holds.size_eq hd).symm, hsecond, heq⟩

theorem run_tearDown_paragraphs
    : ∃ d t, d.children ⟨0, 0⟩ = .ok [⟨1, 0⟩] ∧
        t.Compiled "<p>a<b><block-child-0/></b><block-text-0/></p>" true ∧
        ∃ v₁ h₁ v₂ h₂ v₃ h₃,
          run (.ofText (.str "a")) (paragraphs t) ⟨0, 0⟩ (some ⟨1, 0⟩) ⟨d, []⟩ = .ok v₁ h₁ ∧
          v₁.tearDown h₁ = .ok v₂ h₂ ∧ h₂.document.WellFormed ∧
          (∀ id, h₂.document.standing? id = d.standing? id) ∧ h₂.document.size = d.size ∧
          v₂.tearDown h₂ = .ok v₃ h₃ ∧ h₃.document = h₂.document := by
  obtain ⟨d, c, hrun, hchildren, hparent⟩ := Document.Run.exists_paragraph
  have hparent : d.standing? ⟨0, 0⟩ = some ⟨none, [] ++ [⟨1, 0⟩], c⟩ := hparent
  obtain ⟨t, ht, hbuilt, hchain⟩ := exists_paragraphs
  exact ⟨d, t, hchildren, ht, run_tearDown (h := ⟨d, []⟩) hrun.wellFormed_and_capacity.1 hparent
    hbuilt hchain⟩

end Theorems

end VirtualDom.View
