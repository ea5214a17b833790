import Mathlib.Data.Finset.Card
import Mathlib.Algebra.Order.Group.Multiset
import Mathlib.Data.Set.Finite.Basic
import Mathlib.Tactic.Abel
import VirtualDom.Proofs.Document.Census

/-!
This module contains what holds of whole subtrees of a well-formed document: every node has one, it
can be read, and freeing it frees just its nodes.
-/

namespace VirtualDom

namespace Forest

/-- Whether the children of the nodes in a forest are those that `kids` says. -/
def Spans (kids : NodeId → List NodeId) : Forest (NodeId × Content) → Prop
  | .nil => True
  | .cons (id, _) children siblings =>
    kids id = children.rootIds ∧ children.Spans kids ∧ siblings.Spans kids

variable {F : Forest (NodeId × Content)} {kids : NodeId → List NodeId} {a : Option NodeId}

theorem spans_of_census (h : ∀ id s, (id, s) ∈ F.census a → kids id = s.children) : F.Spans kids := by
  induction F generalizing a with
  | nil => trivial
  | cons label children siblings ihc ihs =>
    obtain ⟨id, c⟩ := label
    refine ⟨h id _ (Multiset.mem_cons_self _ _), ihc (a := some id) fun x s hx => ?_,
      ihs (a := a) fun x s hx => ?_⟩
    . exact h x s (by simp [census, hx])
    . exact h x s (by simp [census, hx])

theorem spans_iff_roots
    : F.Spans kids ↔ ∀ t ∈ F.roots, kids t.1.1 = t.2.rootIds ∧ t.2.Spans kids := by
  induction F with
  | nil => simp [Spans, roots]
  | cons label children siblings _ ih => simp [Spans, roots, ih, and_assoc]

def idsOf (ts : List ((NodeId × Content) × Forest (NodeId × Content))) : List NodeId :=
  ts.flatMap fun t => t.1.1 :: t.2.ids

theorem idsOf_roots : idsOf F.roots = F.ids := by
  induction F with
  | nil => rfl
  | cons label children siblings _ ih =>
    obtain ⟨id, c⟩ := label
    simp only [idsOf] at ih
    simp [idsOf, roots, ih]

theorem idsOf_append (ts us : List ((NodeId × Content) × Forest (NodeId × Content)))
    : idsOf (ts ++ us) = idsOf ts ++ idsOf us := by
  simp [idsOf]

theorem idsOf_reverse (ts : List ((NodeId × Content) × Forest (NodeId × Content)))
    : (idsOf ts.reverse).Perm (idsOf ts) :=
  List.Perm.flatMap_right _ (List.reverse_perm ts)

/-- The slots of the trees in the order in which they are emptied. -/
def releases (ts : List ((NodeId × Content) × Forest (NodeId × Content))) : List Nat :=
  ts.flatMap fun t => (t.1 :: t.2.lastFirst).map (·.1.index)

theorem releases_append (ts us : List ((NodeId × Content) × Forest (NodeId × Content)))
    : releases (ts ++ us) = releases ts ++ releases us := by
  simp [releases]

theorem releases_roots : releases F.roots.reverse = F.lastFirst.map (·.1.index) := by
  induction F with
  | nil => rfl
  | cons label children siblings _ ih =>
    rw [roots, List.reverse_cons, releases_append, ih, lastFirst]
    simp [releases]

end Forest

namespace Document

theorem plant_cons {d d' : Document} {content : Content} {children siblings : Forest Content}
    {parent : Option NodeId} {ids : List NodeId}
    (h : d.plant parent (.cons content children siblings) = .ok (ids, d'))
    : ∃ id d₁ inner d₂ d₃ later, d.create content = (id, d₁) ∧
        d₁.plant (some id) children = .ok (inner, d₂) ∧
        (parent = none ∧ d₃ = d₂ ∨ ∃ p, parent = some p ∧ d₂.link p id none = .ok d₃) ∧
        d₃.plant parent siblings = .ok (later, d') ∧ ids = id :: later := by
  rw [plant] at h
  generalize d.create content = created at h ⊢
  obtain ⟨id, d₁⟩ := created
  obtain ⟨⟨inner, d₂⟩, h₂, h⟩ := bind_eq_ok.1 h
  cases parent with
  | none =>
    obtain ⟨d₃, h₃, h⟩ := bind_eq_ok.1 h
    cases h₃
    obtain ⟨⟨later, d₄⟩, h₄, h⟩ := bind_eq_ok.1 h
    cases h
    exact ⟨id, d₁, inner, d₂, d₂, later, rfl, h₂, .inl ⟨rfl, rfl⟩, h₄, rfl⟩
  | some p =>
    obtain ⟨d₃, h₃, h⟩ := bind_eq_ok.1 h
    obtain ⟨⟨later, d₄⟩, h₄, h⟩ := bind_eq_ok.1 h
    cases h
    exact ⟨id, d₁, inner, d₂, d₃, later, rfl, h₂, .inr ⟨p, rfl, h₃⟩, h₄, rfl⟩

theorem plant_of_copy {d d' source : Document} {id root : NodeId}
    (h : d.copy source id = .ok (root, d'))
    : ∃ (T : Forest Content) (later : List NodeId), d.plant none T = .ok (root :: later, d') := by
  obtain ⟨tree, -, h⟩ := bind_eq_ok.1 h
  obtain ⟨⟨roots, d₁⟩, h₁, h⟩ := bind_eq_ok.1 h
  cases roots with
  | nil => cases h
  | cons first later =>
    cases h
    exact ⟨_, later, h₁⟩

section Release

variable {d : Document} {look : NodeId → Option Node} {kids : NodeId → List NodeId}

theorem free_release {id : NodeId} {n : Node} (hn : d.node? id = some n) (hnd : d.free.Nodup)
    (hfree : ∀ i : Nat, i ∈ d.free ↔ ∃ g, d.slots[i]? = some ⟨g, none⟩)
    : (d.release id.index).free.Nodup ∧
        ∀ i : Nat, i ∈ (d.release id.index).free
          ↔ ∃ g, (d.release id.index).slots[i]? = some ⟨g, none⟩ := by
  have hs := node?_eq_some.1 hn
  constructor
  . refine List.nodup_cons.2 ⟨?_, hnd⟩
    intro hi
    obtain ⟨g, hg⟩ := (hfree _).1 hi
    simp [hs] at hg
  . intro i
    simp only [release, List.mem_cons, hfree, Array.getElem?_modify]
    by_cases hi : id.index = i
    . subst hi
      simp [hs]
    . simp [hi, Ne.symm hi]

/--
Freeing the trees `ts`. What is still to be freed is as it was when nothing was freed, and there
`look` and `kids` show it.
-/
theorem releaseAll_eq (hl : Links look kids)
    (ts : List ((NodeId × Content) × Forest (NodeId × Content)))
    (hs : ∀ t ∈ ts, kids t.1.1 = t.2.rootIds ∧ t.2.Spans kids) (hnd : (Forest.idsOf ts).Nodup)
    (hd : ∀ x ∈ Forest.idsOf ts, ∃ n, look x = some n ∧ d.node? x = some n) (hfn : d.free.Nodup)
    (hfm : ∀ i : Nat, i ∈ d.free ↔ ∃ g, d.slots[i]? = some ⟨g, none⟩)
    : ∃ d', d.releaseAll (ts.map (·.1.1)) = .ok d' ∧
        (∀ x, d'.node? x = if x ∈ Forest.idsOf ts then none else d.node? x) ∧
        d'.free.Nodup ∧ (∀ i : Nat, i ∈ d'.free ↔ ∃ g, d'.slots[i]? = some ⟨g, none⟩) ∧
        d'.free = (Forest.releases ts).reverse ++ d.free := by
  induction hlen : (Forest.idsOf ts).length using Nat.strong_induction_on generalizing d ts with
  | _ len ih =>
    cases ts with
    | nil => exact ⟨d, by simp [releaseAll], by simp [Forest.idsOf], hfn, hfm, rfl⟩
    | cons t ts =>
      obtain ⟨⟨id, c⟩, F⟩ := t
      obtain ⟨hk, hF⟩ := hs _ (List.mem_cons_self)
      have hids : Forest.idsOf (((id, c), F) :: ts) = id :: (F.ids ++ Forest.idsOf ts) := by
        simp [Forest.idsOf]
      rw [hids] at hnd hd hlen
      obtain ⟨n, hn, hdn⟩ := hd id (by simp)
      have hchildren : d.children id = .ok (kids id) := by
        apply children_eq hdn (hl.firstChild hn) (hl.nodup hn)
        intro xs x ys hx
        obtain ⟨m, hm, -, -, hnext⟩ := hl.child hn hx
        have : x ∈ F.ids := Forest.mem_rootIds (by rw [← hk, hx]; simp)
        obtain ⟨m', hm', hdm⟩ := hd x (by simp [this])
        cases hm.symm.trans hm'
        exact ⟨m, hdm, hnext⟩
      have hperm : (Forest.idsOf (F.roots.reverse ++ ts)).Perm (F.ids ++ Forest.idsOf ts) := by
        rw [Forest.idsOf_append, ← Forest.idsOf_roots]
        exact (Forest.idsOf_reverse _).append_right _
      -- nothing that is left shares the slot of `id`
      have hother : ∀ x ∈ F.ids ++ Forest.idsOf ts, x.index ≠ id.index := by
        intro x hx hi
        obtain ⟨m, -, hm⟩ := hd x (List.mem_cons_of_mem _ hx)
        cases eq_of_index_eq hm hdn hi
        exact (List.nodup_cons.1 hnd).1 hx
      obtain ⟨hfn', hfm'⟩ := free_release hdn hfn hfm
      obtain ⟨d', hd', hl', hfn'', hfm'', hfree⟩ := ih _ (by rw [hperm.length_eq, ← hlen]; simp)
        (d := d.release id.index) (F.roots.reverse ++ ts)
        (by
          intro t ht
          rcases List.mem_append.1 ht with ht | ht
          . exact Forest.spans_iff_roots.1 hF t (List.mem_reverse.1 ht)
          . exact hs t (List.mem_cons_of_mem _ ht))
        (hperm.nodup_iff.2 (List.nodup_cons.1 hnd).2)
        (by
          intro x hx
          have hx := hperm.subset hx
          obtain ⟨m, hm, hdm⟩ := hd x (List.mem_cons_of_mem _ hx)
          exact ⟨m, hm, by rw [node?_release, if_neg (hother x hx), hdm]⟩)
        hfn' hfm' rfl
      refine ⟨d', ?_, ?_, hfn'', hfm'', ?_⟩
      . rw [List.map_cons, releaseAll]
        split
        . next hc =>
          cases hchildren.symm.trans hc
          rw [← hd', hk]
          simp [Forest.rootIds]
        . next hc => cases hchildren.symm.trans hc
      . intro x
        rw [hl', node?_release, hids]
        simp only [hperm.mem_iff, List.mem_cons]
        by_cases hx : x = id
        . subst hx
          simp
        . by_cases hi : x.index = id.index
          . have : d.node? x = none := by
              cases hm : d.node? x with
              | none => rfl
              | some m => exact absurd (eq_of_index_eq hm hdn hi) hx
            simp [hx, hi, this]
          . simp [hx, hi]
      . rw [hfree, Forest.releases_append, Forest.releases_roots]
        simp [release, Forest.releases]

end Release

namespace Holds

variable {d : Document} {M N : Multiset (NodeId × Standing)} {F : Forest (NodeId × Content)}
  {a : Option NodeId} {id p : NodeId} {c cp : Content} {xs ys : List NodeId}

theorem nodup_ids (h : d.Holds (F.census a + M)) : F.ids.Nodup := by
  have hnd := h.nodup
  rw [Multiset.map_add, Forest.map_census] at hnd
  exact Multiset.coe_nodup.1 (Multiset.nodup_add.1 hnd).1

theorem node?_of_mem_ids (h : d.Holds (F.census a + M)) {x : NodeId} (hx : x ∈ F.ids)
    : ∃ n, d.node? x = some n ∧ (x, ⟨n.parent, d.kids x, n.content⟩) ∈ F.census a := by
  obtain ⟨⟨b, ks, e⟩, hs⟩ := Forest.exists_mem_census (a := a) hx
  obtain ⟨n, hn, rfl, rfl, rfl⟩ := standing?_eq_some.1 (h.left hs)
  exact ⟨n, hn, hs⟩

theorem spans (h : d.Holds (F.census a + M)) : F.Spans d.kids := by
  apply Forest.spans_of_census (a := a)
  intro x s hs
  obtain ⟨b, ks, e⟩ := s
  obtain ⟨n, hn, -, hk, -⟩ := standing?_eq_some.1 (h.left hs)
  exact hk

theorem releaseAll (h : d.Holds (F.census none + M))
    : ∃ d', d.releaseAll F.rootIds = .ok d' ∧ d'.Holds M := by
  obtain ⟨hlinks, ⟨height, hh⟩, hfn, hfm⟩ := h.wellFormed
  obtain ⟨d', hd', hl, hfn', hfm', -⟩ := releaseAll_eq (d := d) hlinks F.roots
    (Forest.spans_iff_roots.1 h.spans) (by rw [Forest.idsOf_roots]; exact h.nodup_ids)
    (by
      intro x hx
      rw [Forest.idsOf_roots] at hx
      obtain ⟨n, hn, -⟩ := h.node?_of_mem_ids hx
      exact ⟨n, hn, hn⟩)
    hfn hfm
  rw [Forest.idsOf_roots] at hl
  -- No link leads from the nodes that are left into the trees, or the other way.
  have hlinks' : Links d'.node? d.kids := by
    apply hlinks.restrict (· ∈ F.ids) _ _ hl
    . intro x n hn hx y hy
      obtain ⟨m, -, hm⟩ := h.node?_of_mem_ids hx
      exact Forest.mem_ids_of_mem_children hm hy
    . intro x n q hn hx hq
      obtain ⟨m, hm, hs⟩ := h.node?_of_mem_ids hx
      cases hn.symm.trans hm
      exact (Forest.mem_ids_of_parent hs hq).resolve_left (by simp)
  have hwf : d'.WellFormed := by
    apply hlinks'.wellFormed ⟨height, ?_⟩ hfn' hfm'
    intro x m q hm hq
    rw [hl] at hm
    split at hm
    . cases hm
    . exact hh hm hq
  refine ⟨d', hd', h.drop hwf Forest.map_census ?_⟩
  intro x
  cases hx : d'.node? x with
  | none =>
    rw [standing?_eq_none.2 hx]
    rw [hl] at hx
    split
    . rfl
    . next hg =>
      rw [if_neg hg] at hx
      rw [standing?_eq_none.2 hx]
  | some m =>
    rw [standing?_of_node? hx, hlinks'.kids_eq hx]
    rw [hl] at hx
    split at hx
    . cases hx
    . next hg => rw [if_neg hg, standing?_of_node? hx]

theorem parent {s : Standing} (h : d.Holds (N + (p, s) ::ₘ M)) : d.standing? p = some s :=
  h.standing? (by simp)

theorem parent_of_root (h : d.Holds (F.census a + M)) {x : NodeId} (hx : x ∈ F.rootIds)
    : ∃ ks e, d.standing? x = some ⟨a, ks, e⟩ := by
  obtain ⟨ks, e, hs⟩ := Forest.mem_census_of_root (a := a) hx
  exact ⟨ks, e, h.left hs⟩

theorem mem_ids_of_within (h : d.Holds (F.census a + M)) {x y : NodeId} (hw : d.Within x y)
    (hy : y ∈ F.ids) : x ∈ F.ids := by
  induction hw using Relation.ReflTransGen.head_induction_on with
  | refl => exact hy
  | head hz _ ih =>
    obtain ⟨n, hn, hp⟩ := hz
    obtain ⟨m, hm, hs⟩ := h.node?_of_mem_ids ih
    exact Forest.mem_ids_of_mem_children hs (h.wellFormed.links.mem_kids hn hp).2

theorem not_within (h : d.Holds (F.census a + M)) {x y : NodeId} {s : Standing}
    (hx : (x, s) ∈ M) (hy : y ∈ F.ids) : ¬ d.Within x y := by
  intro hw
  obtain ⟨t, ht⟩ := Forest.exists_mem_census (a := a) (h.mem_ids_of_within hw hy)
  exact h.ne ht hx rfl

section Discard

theorem discard
    (h : d.Holds (F.census (some p) + (p, ⟨a, xs ++ F.rootIds ++ ys, cp⟩) ::ₘ M))
    (hF : F.rootIds = [id])
    : ∃ d', d.discard id = .ok d' ∧ d'.Holds ((p, ⟨a, xs ++ ys, cp⟩) ::ₘ M) := by
  obtain ⟨c, G, rfl⟩ := Forest.eq_cons_of_rootIds hF
  have hs : (Forest.cons (id, c) G .nil).census (some p)
      + (p, ⟨a, xs ++ id :: ys, cp⟩) ::ₘ M
      = (id, ⟨some p, G.rootIds, c⟩) ::ₘ (p, ⟨a, xs ++ id :: ys, cp⟩) ::ₘ
        (G.census (some id) + M) := by
    simp only [Forest.census_cons, Forest.census_nil, ← Multiset.singleton_add]
    abel
  rw [hF, List.append_assoc, List.singleton_append, hs] at h
  obtain ⟨d₁, h₁, hd₁⟩ := h.remove
  have hs₁ : (id, ⟨none, G.rootIds, c⟩) ::ₘ (p, ⟨a, xs ++ ys, cp⟩) ::ₘ (G.census (some id) + M)
      = (Forest.cons (id, c) G .nil).census none + (p, ⟨a, xs ++ ys, cp⟩) ::ₘ M := by
    simp only [Forest.census_cons, Forest.census_nil, ← Multiset.singleton_add]
    abel
  rw [hs₁] at hd₁
  obtain ⟨d', h', hd'⟩ := hd₁.releaseAll
  refine ⟨d', ?_, hd'⟩
  simp only [Document.discard, h₁, bind, Except.bind]
  exact h'

theorem discard_root (h : d.Holds (F.census none + M)) (hF : F.rootIds = [id])
    : ∃ d', d.discard id = .ok d' ∧ d'.Holds M := by
  obtain ⟨ks, e, hid⟩ := h.parent_of_root (x := id) (by simp [hF])
  obtain ⟨d', h', hd'⟩ := (h.withTally d.tally).releaseAll
  refine ⟨d', ?_, hd'⟩
  simp only [Document.discard, Document.remove, WellFormed.unlink_root hid, bind, Except.bind, pure,
    Except.pure]
  rw [← hF]
  exact h'

theorem discardChildren (h : d.Holds (F.census (some p) + (p, ⟨a, F.rootIds, cp⟩) ::ₘ M))
    : ∃ d', d.discardChildren p = .ok d' ∧ d'.Holds ((p, ⟨a, [], cp⟩) ::ₘ M) := by
  induction F generalizing d with
  | nil =>
    obtain ⟨n, hn, -, hk, -⟩ := standing?_eq_some.1 h.parent
    have hfirst : d.firstChild p = .ok none := by
      simp only [firstChild, node_eq_ok.2 hn, bind, Except.bind]
      rw [h.wellFormed.links.firstChild hn, hk]
      rfl
    refine ⟨d, ?_, by simpa using h⟩
    rw [Document.discardChildren, hfirst]
  | cons label children siblings _ ih =>
    obtain ⟨id, c⟩ := label
    obtain ⟨n, hn, -, hk, -⟩ := standing?_eq_some.1 h.parent
    have hfirst : d.firstChild p = .ok (some id) := by
      simp only [firstChild, node_eq_ok.2 hn, bind, Except.bind]
      rw [h.wellFormed.links.firstChild hn, hk]
      rfl
    -- The first child is a tree of its own in front of the others.
    have hs : (Forest.cons (id, c) children siblings).census (some p)
          + (p, ⟨a, id :: siblings.rootIds, cp⟩) ::ₘ M
        = (Forest.cons (id, c) children .nil).census (some p)
          + (p, ⟨a, [] ++ (Forest.cons (id, c) children .nil).rootIds ++ siblings.rootIds, cp⟩) ::ₘ
            (siblings.census (some p) + M) := by
      simp only [Forest.census_cons, Forest.census_nil, Forest.rootIds_cons, Forest.rootIds_nil,
        Multiset.add_zero, Multiset.cons_add, Multiset.add_cons, Multiset.add_assoc,
        List.nil_append, List.singleton_append]
    rw [Forest.rootIds_cons, hs] at h
    obtain ⟨d₁, h₁, hd₁⟩ := h.discard rfl
    rw [← Multiset.add_cons] at hd₁
    obtain ⟨d', h', hd'⟩ := ih hd₁
    refine ⟨d', ?_, hd'⟩
    rw [Document.discardChildren, hfirst]
    dsimp only
    split
    . next hd =>
      cases h₁.symm.trans hd
      exact h'
    . next hd => cases h₁.symm.trans hd

end Discard

section Read

theorem length_ids_le (h : d.Holds (F.census a + M)) : F.ids.length ≤ d.slots.size := by
  apply length_le_size h.nodup_ids
  intro x hx
  obtain ⟨n, hn, -⟩ := h.node?_of_mem_ids hx
  exact ⟨n, hn⟩

theorem forest (h : d.Holds (F.census a + M)) {depth : Nat} (hd : F.ids.length < depth)
    : d.forest depth F.rootIds = .ok F := by
  induction F generalizing a M depth with
  | nil => cases depth <;> rfl
  | cons label children siblings ihc ihs =>
    obtain ⟨id, c⟩ := label
    obtain ⟨depth, rfl⟩ : ∃ n, depth = n + 1 := ⟨depth - 1, by omega⟩
    rw [Forest.ids_cons, List.length_cons, List.length_append] at hd
    obtain ⟨n, hn, -, hk, hc⟩ := standing?_eq_some.1 (h.left (Multiset.mem_cons_self _ _))
    have hch : d.forest depth children.rootIds = .ok children := ihc (a := some id)
      (M := (id, ⟨a, children.rootIds, c⟩) ::ₘ (siblings.census a + M))
      (by
        rw [Forest.census_cons, Multiset.cons_add, Multiset.add_assoc] at h
        rwa [Multiset.add_cons])
      (by omega)
    have hsib : d.forest (depth + 1) siblings.rootIds = .ok siblings := ihs (a := a)
      (M := (id, ⟨a, children.rootIds, c⟩) ::ₘ (children.census (some id) + M))
      (by
        rw [Forest.census_cons, Multiset.cons_add, Multiset.add_comm (children.census _),
          Multiset.add_assoc] at h
        rwa [Multiset.add_cons])
      (by omega)
    rw [Document.forest] at hsib ⊢
    rw [Forest.rootIds_cons, List.foldr_cons, hsib]
    simp only [content, node_eq_ok.2 hn, h.wellFormed.children hn, hk, hch, hc, bind, Except.bind,
      pure, Except.pure]

theorem subtree (h : d.Holds (F.census a + M)) (hF : F.rootIds = [id])
    : d.subtree id = .ok F := by
  rw [Document.subtree, ← hF]
  exact h.forest (Nat.lt_succ_of_le h.length_ids_le)

theorem below (h : d.Holds (F.census (some p) + (p, ⟨a, F.rootIds, cp⟩) ::ₘ M))
    : d.below p = .ok F := by
  obtain ⟨n, hn, -, hk, -⟩ := standing?_eq_some.1 h.parent
  simp only [Document.below, h.wellFormed.children hn, hk, bind, Except.bind]
  exact h.forest (Nat.lt_succ_of_le h.length_ids_le)

end Read

section Plant

theorem plant_child (h : d.Holds ((p, ⟨a, xs, cp⟩) ::ₘ M)) (T : Forest Content)
    : ∃ (L : Forest (NodeId × Content)) (d' : Document), d.plant (some p) T = .ok (L.rootIds, d') ∧
        L.map (·.2) = T ∧ d'.Holds (L.census (some p) + (p, ⟨a, xs ++ L.rootIds, cp⟩) ::ₘ M) := by
  induction T generalizing d p a xs cp M with
  | nil =>
    refine ⟨.nil, d, rfl, rfl, ?_⟩
    rwa [Forest.rootIds_nil, List.append_nil, Forest.census_nil, Multiset.zero_add]
  | cons content children siblings ihc ihs =>
    obtain ⟨id, d₁, h₁, -, hd₁⟩ := h.create content
    obtain ⟨L₁, d₂, h₂, hL₁, hd₂⟩ := ihc hd₁
    rw [List.nil_append] at hd₂
    -- A node that was just made has nothing above it.
    have hw : ¬ d₂.Within p id := by
      rw [← Forest.census_single] at hd₂
      exact hd₂.not_within (Multiset.mem_cons_self _ _) (by simp)
    have hs : L₁.census (some id) + (id, ⟨none, L₁.rootIds, content⟩) ::ₘ (p, ⟨a, xs, cp⟩) ::ₘ M
        = (id, ⟨none, L₁.rootIds, content⟩) ::ₘ (p, ⟨a, xs ++ [], cp⟩) ::ₘ
          (L₁.census (some id) + M) := by
      simp only [List.append_nil, ← Multiset.singleton_add]
      abel
    rw [hs] at hd₂
    obtain ⟨d₃, h₃, hd₃⟩ := hd₂.link hw
    rw [Multiset.cons_swap] at hd₃
    obtain ⟨L₂, d', h₄, hL₂, hd'⟩ := ihs hd₃
    refine ⟨.cons (id, content) L₁ L₂, d', ?_, by simp [Forest.map, hL₁, hL₂], ?_⟩
    . rw [List.head?_nil] at h₃
      simp only [Document.plant, h₁, h₂, h₃, h₄, bind, Except.bind, pure, Except.pure,
        Forest.rootIds_cons]
    . have hs : (Forest.cons (id, content) L₁ L₂).census (some p)
            + (p, ⟨a, xs ++ id :: L₂.rootIds, cp⟩) ::ₘ M
          = L₂.census (some p) + (p, ⟨a, xs ++ [id] ++ L₂.rootIds, cp⟩) ::ₘ
            (id, ⟨some p, L₁.rootIds, content⟩) ::ₘ (L₁.census (some id) + M) := by
        simp only [Forest.census_cons, List.append_assoc, List.singleton_append,
          ← Multiset.singleton_add]
        abel
      rwa [Forest.rootIds_cons, hs]

theorem plant (h : d.Holds M) (T : Forest Content)
    : ∃ (L : Forest (NodeId × Content)) (d' : Document), d.plant none T = .ok (L.rootIds, d') ∧
        L.map (·.2) = T ∧ d'.Holds (L.census none + M) := by
  induction T generalizing d M with
  | nil => exact ⟨.nil, d, rfl, rfl, by simpa using h⟩
  | cons content children siblings _ ihs =>
    obtain ⟨id, d₁, h₁, -, hd₁⟩ := h.create content
    obtain ⟨L₁, d₂, h₂, hL₁, hd₂⟩ := hd₁.plant_child children
    obtain ⟨L₂, d', h₃, hL₂, hd'⟩ := ihs hd₂
    refine ⟨.cons (id, content) L₁ L₂, d', ?_, by simp [Forest.map, hL₁, hL₂], ?_⟩
    . simp only [Document.plant, h₁, h₂, h₃, bind, Except.bind, pure, Except.pure,
        Forest.rootIds_cons]
    . have hs : (Forest.cons (id, content) L₁ L₂).census none + M
          = L₂.census none + (L₁.census (some id) + (id, ⟨none, [] ++ L₁.rootIds, content⟩) ::ₘ M) := by
        simp only [Forest.census_cons, List.nil_append, ← Multiset.singleton_add]
        abel
      rwa [hs]

end Plant

end Holds

namespace WellFormed

variable {d : Document} {id : NodeId} {a : Option NodeId} {ks : List NodeId} {c : Content}

theorem exists_holds (h : d.WellFormed) : ∃ M, d.Holds M := by
  have hfin : {e : NodeId × Standing | d.standing? e.1 = some e.2}.Finite := by
    apply Set.Finite.of_injOn (f := fun e => e.1.index) (t := {i | i < d.slots.size})
    . rintro ⟨x, b, ls, e⟩ hx
      obtain ⟨n, hn, -⟩ := standing?_eq_some.1 hx
      exact index_lt hn
    . rintro ⟨x, s⟩ hx ⟨y, t⟩ hy hxy
      simp only [Set.mem_ofPred_eq] at hx hy
      obtain ⟨n, hn, -⟩ := Option.map_eq_some_iff.1 hx
      obtain ⟨m, hm, -⟩ := Option.map_eq_some_iff.1 hy
      cases eq_of_index_eq hn hm hxy
      cases hx.symm.trans hy
      rfl
    . exact Set.finite_lt_nat _
  refine ⟨hfin.toFinset.val, h, ?_, ?_⟩
  . apply Multiset.Nodup.map_on _ hfin.toFinset.nodup
    rintro ⟨x, s⟩ hx ⟨y, t⟩ hy hxy
    simp only [Finset.mem_val, Set.Finite.mem_toFinset, Set.mem_ofPred_eq] at hx hy hxy
    subst hxy
    cases hx.symm.trans hy
    rfl
  . intro x s
    simp

theorem exists_forest {height : NodeId → Nat}
    (hh : ∀ {c m p}, d.node? c = some m → m.parent = some p → height c < height p)
    (h : d.WellFormed) (bound : Nat) (ids : List NodeId) (hnd : ids.Nodup)
    (hids : ∀ x ∈ ids, height x < bound ∧ ∃ ls e, d.standing? x = some ⟨a, ls, e⟩)
    : ∃ F : Forest (NodeId × Content), F.rootIds = ids ∧ F.ids.Nodup ∧
        (∀ x ∈ F.ids, ∃ y ∈ ids, d.Within x y) ∧
        ∀ x s, (x, s) ∈ F.census a → d.standing? x = some s := by
  induction bound generalizing a ids with
  | zero =>
    cases ids with
    | nil => exact ⟨.nil, rfl, by simp, by simp, by simp⟩
    | cons x ids => exact absurd (hids x (by simp)).1 (Nat.not_lt_zero _)
  | succ bound ih =>
    induction ids with
    | nil => exact ⟨.nil, rfl, by simp, by simp, by simp⟩
    | cons id ids ih' =>
      obtain ⟨G, hG, hGn, hGw, hGs⟩ := ih' (List.nodup_cons.1 hnd).2
        fun x hx => hids x (List.mem_cons_of_mem _ hx)
      obtain ⟨hlt, ls, e, hid⟩ := hids id (by simp)
      obtain ⟨F, hF, hFn, hFw, hFs⟩ := ih (a := some id) ls (h.nodup_children hid) (by
        intro x hx
        obtain ⟨ls', e', hx⟩ := h.standing?_child hid hx
        obtain ⟨n, hn, hnp, -⟩ := standing?_eq_some.1 hx
        have := hh hn hnp
        exact ⟨by omega, ls', e', hx⟩)
      -- what is below `id` is lower, and not below its siblings
      have hbelow : ∀ x ∈ F.ids, d.Within x id ∧ height x < height id := by
        intro x hx
        obtain ⟨y, hy, hw⟩ := hFw x hx
        obtain ⟨ls', e', hy⟩ := h.standing?_child hid hy
        obtain ⟨n, hn, hnp, -⟩ := standing?_eq_some.1 hy
        have := hh hn hnp
        have := height_le_of_within height hh hw
        exact ⟨hw.tail ⟨n, hn, hnp⟩, by omega⟩
      have hother : ∀ x, d.Within x id → x ∉ G.ids := by
        intro x hw hx
        obtain ⟨y, hy, hw'⟩ := hGw x hx
        obtain ⟨ls', e', hy'⟩ := (hids y (List.mem_cons_of_mem _ hy)).2
        have hne : y ≠ id := by
          rintro rfl
          exact (List.nodup_cons.1 hnd).1 hy
        exact not_within_sibling hh hid hy' hne hw hw'
      refine ⟨.cons (id, e) F G, by simp [hG], ?_, ?_, ?_⟩
      . rw [Forest.ids_cons, List.nodup_cons, List.mem_append, List.nodup_append]
        refine ⟨?_, hFn, hGn, ?_⟩
        . rintro (hx | hx)
          . exact Nat.lt_irrefl _ (hbelow id hx).2
          . exact hother id Relation.ReflTransGen.refl hx
        . rintro x hx y hy rfl
          exact hother x (hbelow x hx).1 hy
      . intro x hx
        simp only [Forest.ids_cons, List.mem_cons, List.mem_append] at hx
        rcases hx with rfl | hx | hx
        . exact ⟨x, by simp, Relation.ReflTransGen.refl⟩
        . exact ⟨id, by simp, (hbelow x hx).1⟩
        . obtain ⟨y, hy, hw⟩ := hGw x hx
          exact ⟨y, List.mem_cons_of_mem _ hy, hw⟩
      . intro x s hs
        simp only [Forest.census_cons, Multiset.mem_cons, Multiset.mem_add] at hs
        rcases hs with hs | hs | hs
        . cases hs
          rw [hF, hid]
        . exact hFs x s hs
        . exact hGs x s hs

theorem exists_tree (h : d.WellFormed) (hid : d.standing? id = some ⟨a, ks, c⟩)
    : ∃ (F : Forest (NodeId × Content)) (M : _), F.rootIds = ks ∧
        (∀ x ∈ F.ids, d.Within x id) ∧ d.Holds ((Forest.cons (id, c) F .nil).census a + M) := by
  obtain ⟨height, hh⟩ := h.acyclic
  obtain ⟨T, hT, hnd, hw, hs⟩ := h.exists_forest (a := a) hh (height id + 1) [id]
    (List.nodup_singleton _) (by
      intro x hx
      rw [List.mem_singleton] at hx
      subst hx
      exact ⟨Nat.lt_succ_self _, ks, c, hid⟩)
  obtain ⟨c', F, rfl⟩ := Forest.eq_cons_of_rootIds hT
  have hid' := hs id ⟨a, F.rootIds, c'⟩ (Multiset.mem_cons_self _ _)
  cases hid.symm.trans hid'
  obtain ⟨N, hN⟩ := h.exists_holds
  have hle : (Forest.cons (id, c) F .nil).census a ≤ N := by
    rw [Multiset.le_iff_subset]
    . rintro ⟨x, s⟩ hx
      exact (hN.mem x s).2 (hs x s hx)
    . apply Multiset.Nodup.of_map (·.1)
      rw [Forest.map_census]
      exact hnd
  obtain ⟨M, rfl⟩ := Multiset.le_iff_exists_add.1 hle
  refine ⟨F, M, rfl, ?_, hN⟩
  intro x hx
  obtain ⟨y, hy, hw⟩ := hw x (by simp [hx])
  rw [List.mem_singleton] at hy
  exact hy ▸ hw

end WellFormed

end Document
end VirtualDom
