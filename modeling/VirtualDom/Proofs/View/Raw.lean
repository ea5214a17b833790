import VirtualDom.Proofs.View.Compatible
import VirtualDom.Proofs.View.Nodes

/-!
This module contains the nodes of raw markup with all that they hold, and the proof that these are the
nodes that are made.
-/

namespace VirtualDom

open Engine
open Document (Place Shows Standing)

/-- The nodes of markup with what they hold. The last of several attributes of one name counts. -/
def Markup.contents : Markup → Forest Content
  | .nil => .nil
  | .cons item children siblings =>
    match item with
    | .element tag attributes =>
      .cons (.element { tag, attributes := .ofEntries attributes }) (contents children) (contents siblings)
    | .text s | .cdata s => .cons (.text s) .nil (contents siblings)
    | .comment s => .cons (.comment s) .nil (contents siblings)
    | .doctype _ | .instruction _ => contents siblings

/-- The nodes of raw markup with what they hold, at least one. -/
def rawContents (s : String) : Forest Content :=
  match Markup.parse s with
  | .error _ => .leaf (.text s)
  | .ok m =>
    match m.contents with
    | .nil => .leaf (.text "")
    | contents => contents

theorem Markup.map_contents (m : Markup) : m.contents.map Content.shape = m.shapes := by
  induction m with
  | nil => rfl
  | cons item children siblings ihc ihs =>
    cases item <;> simp [contents, shapes, ihc, ihs]

theorem map_rawContents (s : String) : (rawContents s).map Content.shape = rawShapes s := by
  unfold rawContents rawShapes
  cases Markup.parse s with
  | error e => rfl
  | ok m =>
    dsimp only
    rw [← m.map_contents]
    cases m.contents <;> rfl

namespace View

def Makes (x : Engine (List NodeId)) (T : Forest Content) : Prop :=
  ∀ (h : Host) (M : Multiset (NodeId × Standing)), h.document.Holds M → x.Yields h fun ids h' =>
    ∃ L : Forest (NodeId × Content), ids = L.rootIds ∧ L.map (·.2) = T ∧
      h'.document.Holds (L.census none + M)

theorem Makes.nil : Makes (pure []) .nil := by
  intro h M hd
  exact Yields.pure ⟨.nil, rfl, rfl, by simpa using hd⟩

theorem Makes.leaf {x : Engine (List NodeId)} {T : Forest Content} (hx : Makes x T) (c : Content)
    : Makes (do let node ← create (·.create c); return node :: (← x)) (.cons c .nil T) := by
  intro h M hd
  obtain ⟨id, d, hcreate, -, hd⟩ := hd.create c
  refine Yields.bind_ok (create_eq_ok hcreate) ?_
  refine Yields.bind (hx _ _ hd) ?_
  rintro _ h' ⟨L, rfl, rfl, hd⟩
  refine Yields.pure ⟨.cons (id, c) .nil L, rfl, rfl, ?_⟩
  rw [Forest.census_cons, Multiset.cons_add]
  simpa using hd

section Attributes

variable {h : Host} {id : NodeId} {a : Option NodeId} {ks : List NodeId}
  {M : Multiset (NodeId × Standing)} {e : Element}

theorem setAttribute_yields (name value : String)
    (hd : h.document.Holds ((id, ⟨a, ks, .element e⟩) ::ₘ M))
    : (edit (·.setAttribute id name value)).Yields h fun _ h' => h'.document.Holds
        ((id, ⟨a, ks, .element { e with attributes := e.attributes.put name value }⟩) ::ₘ M) :=
  Yields.edit (hd.modifyElement_changed _ _)

theorem setAttributes_yields (attributes : List (String × String))
    (hd : h.document.Holds ((id, ⟨a, ks, .element e⟩) ::ₘ M))
    : (attributes.forM fun (name, value) => edit (·.setAttribute id name value)).Yields h
        fun _ h' => h'.document.Holds ((id, ⟨a, ks, .element { e with
          attributes := attributes.foldl (fun d (name, value) => d.put name value) e.attributes }⟩) ::ₘ M)
    := by
  induction attributes generalizing h e with
  | nil => exact Yields.pure hd
  | cons entry attributes ih =>
    obtain ⟨name, value⟩ := entry
    refine Yields.bind (setAttribute_yields name value hd) ?_
    intro _ h' hd
    exact ih hd

end Attributes

theorem buildMarkup_makes (m : Markup) : Makes (buildMarkup m) m.contents := by
  induction m with
  | nil => exact .nil
  | cons item children siblings ihc ihs =>
    cases item with
    | element tag attributes =>
      intro h M hd
      obtain ⟨id, d, hcreate, -, hd⟩ := hd.create (.element { tag })
      refine Yields.bind_ok (create_eq_ok hcreate) ?_
      refine Yields.bind (setAttributes_yields attributes hd) ?_
      intro _ h₁ hd
      let c : Content := .element { tag, attributes := .ofEntries attributes }
      have hd : h₁.document.Holds ((id, ⟨none, [], c⟩) ::ₘ M) := hd
      refine Yields.bind (ihc _ _ hd) ?_
      rintro _ h₂ ⟨L, rfl, hL, hd⟩
      -- The element is still empty, and its children are detached trees beside it.
      let pl : Place := ⟨id, none, c, [], [], M⟩
      have hd : h₂.document.Shows (pl.beside (L.census none)) .nil := by
        rw [Document.shows_beside]
        simpa [pl, Place.census_nil] using hd
      refine Yields.bind (insertAll_yields (A := .nil) (B := .nil) hd) ?_
      intro _ h₃ hd
      have hd : h₃.document.Holds ((Forest.cons (id, c) L .nil).census none + M) := by
        rw [Forest.census_cons, Multiset.cons_add]
        simpa [pl, Shows, Place.census] using hd
      refine Yields.bind (ihs _ _ hd) ?_
      rintro _ h₄ ⟨K, rfl, hK, hd⟩
      refine Yields.pure ⟨.cons (id, c) L K, rfl, ?_, ?_⟩
      . rw [Markup.contents, Forest.map_cons, hL, hK]
      . have hs : Forest.cons (id, c) L K = .cons (id, c) L .nil ++ K := rfl
        rw [hs, Forest.census_append, Multiset.add_comm (Forest.census none _), Multiset.add_assoc]
        exact hd
    | text s => exact ihs.leaf (.text s)
    | cdata s => exact ihs.leaf (.text s)
    | comment s => exact ihs.leaf (.comment s)
    | doctype s => exact ihs
    | instruction s => exact ihs

theorem rawNodes_makes (s : String) : Makes (rawNodes s) (rawContents s) := by
  intro h M hd
  unfold rawNodes rawContents
  cases Markup.parse s with
  | error e => exact Yields.bind_ok rfl (Makes.nil.leaf (.text s) _ M hd)
  | ok m =>
    refine Yields.bind (buildMarkup_makes m h M hd) ?_
    rintro _ h' ⟨L, rfl, hL, hd⟩
    dsimp only
    rw [← hL]
    cases L with
    | nil =>
      refine Makes.nil.leaf (.text "") h' M ?_
      simpa using hd
    | cons label children siblings => exact Yields.pure ⟨_, rfl, rfl, hd⟩

end View
end VirtualDom
