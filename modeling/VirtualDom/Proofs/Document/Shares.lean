import Mathlib.Data.Multiset.Bind
import VirtualDom.Proofs.Document.Outline
import VirtualDom.Proofs.Document.Site

/-!
This module contains documents that several forests are in, each at a site outside of all of them. What
is done at the site of one of them leaves the others as they are.
-/

namespace VirtualDom

open Document (Bond Site)

abbrev Tenancy :=
  Option NodeId × Forest (NodeId × Content)

namespace Document

def bond? (d : Document) (id : NodeId) : Option Bond :=
  (d.standing? id).map Standing.bond

/-- Each of the forests is in its parent, which is in none of them. -/
structure Shares (d : Document) (L : Multiset Tenancy) : Prop where
  wellFormed : d.WellFormed
  orderly : d.Orderly
  nodup : (L.bind fun e => (e.2.ids : Multiset NodeId)).Nodup
  stands : ∀ e ∈ L, ∀ t ∈ e.2.bonds e.1, d.bond? t.1 = some t.2
  home : ∀ e ∈ L, ∀ p, e.1 = some p → d.contains p ∧ ∀ e' ∈ L, p ∉ e'.2.ids

variable {d d' : Document} {M : Multiset (NodeId × Standing)} {L : Multiset Tenancy} {e : Tenancy}
  {F G : Forest (NodeId × Content)} {a : Option NodeId} {p x : NodeId} {b : Bond} {s : Site}

theorem Holds.mem_bonds (h : d.Holds M) : (x, b) ∈ bonds M ↔ d.bond? x = some b := by
  unfold bonds bond?
  rw [Multiset.mem_map, Option.map_eq_some_iff]
  constructor
  . rintro ⟨⟨y, s⟩, hs, heq⟩
    cases heq
    exact ⟨s, h.standing? hs, rfl⟩
  . rintro ⟨s, hs, rfl⟩
    exact ⟨(x, s), (h.mem x s).2 hs, rfl⟩

theorem map_bonds : (F.bonds a).map (·.1) = (F.ids : Multiset NodeId) := by
  rw [Forest.bonds, map_fst_bonds, Forest.map_census]

theorem Holds.nodup_bonds (h : d.Holds M) : ((bonds M).map (·.1)).Nodup := by
  rw [map_fst_bonds]
  exact h.nodup

theorem bond?_eq_some (h : d.WellFormed)
    : d.bond? x = some b ↔ d.parent x = .ok b.parent ∧
        ∃ ks : List NodeId, d.children x = .ok ks ∧ (ks : Multiset NodeId) = b.children := by
  unfold bond?
  rw [Option.map_eq_some_iff]
  constructor
  . rintro ⟨s, hs, rfl⟩
    obtain ⟨hparent, hchildren, -⟩ := h.standing?_iff.1 hs
    exact ⟨hparent, s.children, hchildren, rfl⟩
  . rintro ⟨hparent, ks, hchildren, hks⟩
    obtain ⟨n, hn, -⟩ := parent_eq_ok.1 hparent
    obtain ⟨hparent', hchildren', -⟩ := h.standing?_iff.1 (standing?_of_node? hn)
    refine ⟨_, standing?_of_node? hn, ?_⟩
    rw [Standing.bond, Except.ok.inj (hparent'.symm.trans hparent),
      Except.ok.inj (hchildren'.symm.trans hchildren), hks]

theorem bond?_congr (h : d.WellFormed) (h' : d'.WellFormed) (hparent : d'.parent x = d.parent x)
    (hchildren : d'.children x = d.children x) : d'.bond? x = d.bond? x := by
  apply Option.ext
  intro b
  rw [bond?_eq_some h, bond?_eq_some h', hparent, hchildren]

theorem exists_root_within (h : ∀ t ∈ F.bonds a, d.bond? t.1 = some t.2) (hx : x ∈ F.ids)
    : ∃ r ∈ F.rootIds, d.Within x r := by
  induction F generalizing a with
  | nil => cases hx
  | cons label children siblings ihc ihs =>
    obtain ⟨id, c⟩ := label
    rw [Forest.bonds_cons] at h
    rw [Forest.ids_cons, List.mem_cons, List.mem_append] at hx
    rw [Forest.rootIds_cons]
    rcases hx with rfl | hx | hx
    . exact ⟨x, List.mem_cons_self, Relation.ReflTransGen.refl⟩
    . have hbelow : ∀ t ∈ children.bonds (some id), d.bond? t.1 = some t.2 := fun t ht =>
        h t (Multiset.mem_cons_of_mem (Multiset.mem_add.2 (.inl ht)))
      obtain ⟨r, hr, hw⟩ := ihc hbelow hx
      obtain ⟨ks, e, hr⟩ := Forest.mem_census_of_root (a := some id) hr
      have hbond := hbelow _ (Multiset.mem_map_of_mem _ hr)
      obtain ⟨s, hs, heq⟩ := Option.map_eq_some_iff.1 hbond
      obtain ⟨n, hn, hp, -⟩ := standing?_eq_some.1 hs
      exact ⟨id, List.mem_cons_self, hw.tail ⟨n, hn, hp.trans (congrArg Bond.parent heq)⟩⟩
    . obtain ⟨r, hr, hw⟩ := ihs (fun t ht => h t
        (Multiset.mem_cons_of_mem (Multiset.mem_add.2 (.inr ht)))) hx
      exact ⟨r, List.mem_cons_of_mem _ hr, hw⟩

theorem rootIds_sublist (F : Forest (NodeId × Content)) : F.rootIds.Sublist F.ids := by
  induction F with
  | nil => exact .slnil
  | cons label children siblings _ ih =>
    obtain ⟨id, c⟩ := label
    rw [Forest.rootIds_cons, Forest.ids_cons]
    exact .cons_cons _ (ih.trans (List.sublist_append_right _ _))

namespace Shares

theorem drop (h : d.Shares (e ::ₘ L)) : d.Shares L where
  wellFormed := h.wellFormed
  orderly := h.orderly
  nodup := by
    have hnd := h.nodup
    rw [Multiset.cons_bind] at hnd
    exact (Multiset.nodup_add.1 hnd).2.1
  stands e' he' := h.stands e' (Multiset.mem_cons_of_mem he')
  home e' he' p hp :=
    (h.home e' (Multiset.mem_cons_of_mem he') p hp).imp id fun hnot e he =>
      hnot e (Multiset.mem_cons_of_mem he)

theorem settle (h : d.Shares L) (hp : ∀ p, a = some p → d.contains p ∧ ∀ e ∈ L, p ∉ e.2.ids)
    : d.Shares ((a, .nil) ::ₘ L) where
  wellFormed := h.wellFormed
  orderly := h.orderly
  nodup := by
    rw [Multiset.cons_bind]
    simpa using h.nodup
  stands := by
    rw [Multiset.forall_mem_cons]
    exact ⟨by simp, h.stands⟩
  home := by
    rw [Multiset.forall_mem_cons]
    have hnil : ∀ p : NodeId, p ∉ (Forest.nil : Forest (NodeId × Content)).ids := by simp
    refine ⟨fun p ha => ⟨(hp p ha).1, ?_⟩, fun e he q hq => ⟨(h.home e he q hq).1, ?_⟩⟩
    . rw [Multiset.forall_mem_cons]
      exact ⟨hnil p, (hp p ha).2⟩
    . rw [Multiset.forall_mem_cons]
      exact ⟨hnil q, (h.home e he q hq).2⟩

theorem le_children (h : d.Shares ((some p, F) ::ₘ L)) {b : Option NodeId} {ks : List NodeId}
    {c : Content} (hp : d.standing? p = some ⟨b, ks, c⟩) : (F.rootIds : Multiset NodeId) ≤ ks := by
  have hnd := h.nodup
  rw [Multiset.cons_bind, Multiset.nodup_add] at hnd
  have hroots : F.rootIds.Nodup := (rootIds_sublist F).nodup hnd.1
  rw [Multiset.coe_le]
  refine hroots.subperm fun x hx => ?_
  obtain ⟨ls, e, hx⟩ := Forest.mem_census_of_root (a := some p) hx
  have hbond := h.stands _ (Multiset.mem_cons_self _ _) _ (Multiset.mem_map_of_mem _ hx)
  obtain ⟨⟨q, _, _⟩, hx, heq⟩ := Option.map_eq_some_iff.1 hbond
  obtain rfl : q = some p := congrArg Bond.parent heq
  obtain ⟨_, _, _, hp', hmem⟩ := h.wellFormed.standing?_parent hx
  cases hp.symm.trans hp'
  exact hmem

theorem exists_site (h : d.Shares ((some p, F) ::ₘ L))
    : ∃ s : Site, s.node = p ∧ d.Carries s F ∧
        (∀ e ∈ L, ∀ t ∈ e.2.bonds e.1, t ∈ s.rest) ∧
          ∀ x, d.contains x → x ∈ F.ids ∨ x ∈ s.known := by
  obtain ⟨hF, hL⟩ := Multiset.forall_mem_cons.1 h.stands
  obtain ⟨hlive, hnot⟩ := h.home _ (Multiset.mem_cons_self _ _) p rfl
  obtain ⟨hnotF, hnotL⟩ := Multiset.forall_mem_cons.1 hnot
  have hnd := h.nodup
  rw [Multiset.cons_bind, Multiset.nodup_add, Multiset.disjoint_left] at hnd
  obtain ⟨hndF, -, hdisjoint⟩ := hnd
  obtain ⟨M, hM⟩ := h.wellFormed.exists_holds
  obtain ⟨a, ks, c, hs⟩ := contains_iff.1 hlive
  -- All nodes are those of the forest, its parent, and the rest.
  obtain ⟨N, hN⟩ : ∃ N, bonds M = F.bonds (some p) + N := by
    refine Multiset.le_iff_exists_add.1 ((Multiset.le_iff_subset ?_).2 fun t ht => ?_)
    . exact Multiset.Nodup.of_map (·.1) (map_bonds ▸ hndF)
    . exact hM.mem_bonds.2 (hF t ht)
  have hmem : ∀ x b, d.bond? x = some b → x ∉ F.ids → (x, b) ∈ N := by
    intro x b hb hx
    have hxM := hM.mem_bonds.2 hb
    rw [hN, Multiset.mem_add] at hxM
    refine hxM.resolve_left fun hxF => hx ?_
    have := Multiset.mem_map_of_mem (·.1) hxF
    rwa [map_bonds] at this
  have hbond : d.bond? p = some ⟨a, ks⟩ := by
    rw [bond?, hs]
    rfl
  obtain ⟨rest, rfl⟩ := Multiset.exists_cons_of_mem (hmem p _ hbond hnotF)
  obtain ⟨others, hothers⟩ := Multiset.le_iff_exists_add.1 (h.le_children hs)
  refine ⟨⟨p, a, others, rest⟩, rfl, ⟨h.orderly, M, hM, ?_⟩, fun e he t ht => ?_, fun x hx => ?_⟩
  . rw [hN, Site.bonds, hothers, add_comm others]
  . have hids : t.1 ∈ e.2.ids := by
      have := Multiset.mem_map_of_mem (·.1) ht
      rwa [map_bonds] at this
    have ht := hmem t.1 t.2 (hL e he t ht) fun hF => hdisjoint hF (Multiset.mem_bind.2 ⟨e, he, hids⟩)
    refine (Multiset.mem_cons.1 ht).resolve_left fun heq => hnotL e he ?_
    rwa [congrArg Prod.fst heq] at hids
  . by_cases hxF : x ∈ F.ids
    . exact .inl hxF
    . obtain ⟨_, _, _, hx⟩ := contains_iff.1 hx
      have hx := hmem x _ (by rw [bond?, hx]; rfl) hxF
      rw [Site.known, ← Multiset.map_cons (·.1) (p, (⟨a, ks⟩ : Bond))]
      exact .inr (Multiset.mem_map_of_mem (·.1) hx)

theorem of_carries (h : d.Shares ((some s.node, F) ::ₘ L))
    (hrest : ∀ e ∈ L, ∀ t ∈ e.2.bonds e.1, t ∈ s.rest)
    (hknown : ∀ x, d.contains x → x ∈ F.ids ∨ x ∈ s.known) (hd : d'.Carries s G)
    : d'.Shares ((some s.node, G) ::ₘ L) := by
  obtain ⟨M, hM, hbonds⟩ := hd.holds
  have hnd := hM.nodup_bonds
  rw [hbonds, Site.bonds, Multiset.map_add, map_bonds, Multiset.map_cons] at hnd
  obtain ⟨hndG, hndrest, hdisjoint⟩ := Multiset.nodup_add.1 hnd
  rw [Multiset.disjoint_left] at hdisjoint
  obtain ⟨-, hhome⟩ := Multiset.forall_mem_cons.1 h.home
  obtain ⟨-, hnot⟩ := h.home _ (Multiset.mem_cons_self _ _) _ rfl
  obtain ⟨-, hnot⟩ := Multiset.forall_mem_cons.1 hnot
  have hlive : ∀ x ∈ s.known, d'.contains x := by
    intro x hx
    obtain ⟨⟨_, b⟩, hb, rfl⟩ : ∃ t ∈ s.bonds G, t.1 = x := by
      rcases Multiset.mem_cons.1 hx with rfl | hx
      . exact ⟨_, Multiset.mem_add.2 (.inr (Multiset.mem_cons_self _ _)), rfl⟩
      . obtain ⟨t, ht, heq⟩ := Multiset.mem_map.1 hx
        exact ⟨t, Multiset.mem_add.2 (.inr (Multiset.mem_cons_of_mem ht)), heq⟩
    obtain ⟨⟨a, ks, c⟩, hs, -⟩ := Option.map_eq_some_iff.1 (hM.mem_bonds.1 (hbonds ▸ hb))
    exact contains_iff.2 ⟨a, ks, c, hs⟩
  have helse : ∀ e ∈ L, ∀ x ∈ e.2.ids, x ∈ s.rest.map (·.1) := by
    intro e he x hx
    rw [← Multiset.mem_coe, ← map_bonds (a := e.1)] at hx
    obtain ⟨t, ht, rfl⟩ := Multiset.mem_map.1 hx
    exact Multiset.mem_map_of_mem _ (hrest e he t ht)
  have hndL := h.nodup
  rw [Multiset.cons_bind, Multiset.nodup_add] at hndL
  refine ⟨hd.wellFormed, hd.orderly, ?_, ?_, ?_⟩
  . rw [Multiset.cons_bind, Multiset.nodup_add, Multiset.disjoint_left]
    refine ⟨hndG, hndL.2.1, @fun x hx hxL => hdisjoint hx (Multiset.mem_cons_of_mem ?_)⟩
    obtain ⟨e, he, hx⟩ := Multiset.mem_bind.1 hxL
    exact helse e he x hx
  . rw [Multiset.forall_mem_cons]
    refine ⟨fun t ht => hM.mem_bonds.1 (hbonds ▸ Multiset.mem_add.2 (.inl ht)), fun e he t ht => ?_⟩
    refine hM.mem_bonds.1 (hbonds ▸ Multiset.mem_add.2 (.inr (Multiset.mem_cons_of_mem ?_)))
    exact hrest e he t ht
  . rw [Multiset.forall_mem_cons]
    refine ⟨?_, fun e he q hq => ?_⟩
    . rintro _ ⟨⟩
      refine ⟨hlive _ (Multiset.mem_cons_self _ _), ?_⟩
      rw [Multiset.forall_mem_cons]
      exact ⟨fun hp => hdisjoint hp (Multiset.mem_cons_self _ _), hnot⟩
    . obtain ⟨hq, hnotq⟩ := hhome e he q hq
      obtain ⟨hnotF, hnotL⟩ := Multiset.forall_mem_cons.1 hnotq
      have hq := (hknown q hq).resolve_left hnotF
      refine ⟨hlive q hq, ?_⟩
      rw [Multiset.forall_mem_cons]
      exact ⟨fun hG => hdisjoint hG hq, hnotL⟩

theorem focus (h : d.Shares ((some p, F) ::ₘ L))
    : ∃ s : Site, s.node = p ∧ d.Carries s F ∧ (∀ x, d.contains x → x ∈ F.ids ∨ x ∈ s.known) ∧
        ∀ (d' : Document) (G : Forest (NodeId × Content)), d'.Carries s G →
          d'.Shares ((some p, G) ::ₘ L) := by
  obtain ⟨s, rfl, hd, hrest, hknown⟩ := h.exists_site
  exact ⟨s, rfl, hd, hknown, fun _ _ => h.of_carries hrest hknown⟩

theorem undisturbed (h : d.Shares L) (hwf : d'.WellFormed) (horderly : d'.Orderly)
    (same : ∀ e ∈ L, ∀ x ∈ e.2.ids, d'.parent x = d.parent x ∧ d'.children x = d.children x)
    (live : ∀ e ∈ L, ∀ p, e.1 = some p → d'.contains p) : d'.Shares L where
  wellFormed := hwf
  orderly := horderly
  nodup := h.nodup
  stands e he t ht := by
    have hx : t.1 ∈ e.2.ids := by
      have := Multiset.mem_map_of_mem (·.1) ht
      rwa [map_bonds] at this
    obtain ⟨hparent, hchildren⟩ := same e he t.1 hx
    rw [← h.stands e he t ht]
    exact bond?_congr h.wellFormed hwf hparent hchildren
  home e he p hp := ⟨live e he p hp, (h.home e he p hp).2⟩

end Shares
end Document
end VirtualDom
