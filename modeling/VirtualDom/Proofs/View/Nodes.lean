import VirtualDom.Proofs.Document.Place
import VirtualDom.Proofs.Engine
import VirtualDom.View.Patch

/-!
This module contains what the actions of views on single nodes and on lists of nodes do at a place.
-/

namespace VirtualDom

open Engine
open Document (Place Shows)

variable {h : Host} {pl : Place} {id : NodeId} {A B F : Forest (NodeId × Content)}

theorem insert_yields (hd : h.document.Shows (pl.beside (F.census none)) (A ++ B))
    (hF : F.rootIds = [id])
    : (insert pl.node id (B.rootIds ++ pl.after).head?).Yields h
        fun _ h' => h'.document.Shows pl (A ++ F ++ B) :=
  Yields.edit (hd.insert hF)

theorem discard_yields (hd : h.document.Shows pl (A ++ F ++ B)) (hF : F.rootIds = [id])
    : (discard id).Yields h fun _ h' => h'.document.Shows pl (A ++ B) :=
  Yields.edit (hd.discard hF)

theorem discard_whole_yields (hd : h.document.Shows pl F) (hF : F.rootIds = [id])
    : (discard id).Yields h fun _ h' => h'.document.Shows pl .nil := by
  rw [← Forest.append_nil F] at hd
  exact discard_yields (A := .nil) hd hF

theorem clear_yields (hd : h.document.Shows pl F) (hpl : pl.before = [] ∧ pl.after = [])
    (own : List NodeId) : (clear pl.node own).Yields h fun _ h' => h'.document.Shows pl .nil := by
  refine Yields.bind_ok (read_eq_ok (hd.wellFormed.children_of_standing? hd.standing?_node)) ?_
  refine Yields.bind_ok (edit_eq_ok rfl) ?_
  exact Yields.edit (Document.Shows.clear (Document.Holds.withAnnals hd _) hpl.1 hpl.2)

theorem discardAll_yields (hd : h.document.Shows pl F)
    : (F.rootIds.forM discard).Yields h fun _ h' => h'.document.Shows pl .nil := by
  induction F generalizing h with
  | nil => exact Yields.pure hd
  | cons label children siblings _ ih =>
    obtain ⟨id, c⟩ := label
    have hd : h.document.Shows pl (.nil ++ .cons (id, c) children .nil ++ siblings) := hd
    refine Yields.bind (discard_yields hd rfl) ?_
    intro _ h' hd
    exact ih hd

theorem createText_yields (hd : h.document.Shows pl F) (s : String)
    : (createText s).Yields h fun id h' =>
        h'.document.Shows (pl.beside ((Forest.cons (id, .text s) .nil .nil).census none)) F := by
  obtain ⟨id, d, hcreate, hd⟩ := hd.create (.text s)
  exact ⟨id, _, create_eq_ok hcreate, hd⟩

namespace View

theorem mountStandIn_yields (hd : h.document.Shows pl (A ++ B))
    : (mountStandIn pl.node (B.rootIds ++ pl.after).head?).Yields h fun id h' =>
        h'.document.Shows pl (A ++ .cons (id, .text "") .nil .nil ++ B) := by
  refine Yields.bind (createText_yields hd "") ?_
  intro id h' hd
  refine Yields.bind (insert_yields hd rfl) ?_
  intro _ h'' hd
  exact Yields.pure hd

theorem insertAll_yields {L : Forest (NodeId × Content)}
    (hd : h.document.Shows (pl.beside (L.census none)) (A ++ B))
    : (insertAll pl.node L.rootIds (B.rootIds ++ pl.after).head?).Yields h fun _ h' =>
        h'.document.Shows pl (A ++ L ++ B) := by
  induction L generalizing A h with
  | nil =>
    rw [Forest.census_nil, Place.beside_zero] at hd
    rw [Forest.append_nil]
    exact Yields.pure hd
  | cons label children siblings _ ih =>
    obtain ⟨id, c⟩ := label
    have hs : Forest.cons (id, c) children siblings = .cons (id, c) children .nil ++ siblings := rfl
    rw [hs, Forest.census_append, ← Place.beside_beside] at hd
    have hinsert := insert_yields hd rfl
    refine Yields.bind hinsert ?_
    intro _ h' hd
    have := ih hd
    rwa [Forest.append_assoc A] at this

end View
end VirtualDom
