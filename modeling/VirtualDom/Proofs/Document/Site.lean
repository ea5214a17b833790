import VirtualDom.Proofs.Document.Annals
import VirtualDom.Proofs.Document.Place

/-!
This module contains sites: places in documents at which the order of siblings is of no account. What
is at a site is told apart from the rest of the document, wherever it is among its siblings.
-/

namespace VirtualDom

open Document (Standing)

namespace Document

/-- A standing without the order of the children, and without what the node holds. -/
structure Bond where
  parent : Option NodeId
  children : Multiset NodeId

def Standing.bond (s : Standing) : Bond :=
  ⟨s.parent, s.children⟩

def bonds (M : Multiset (NodeId × Standing)) : Multiset (NodeId × Bond) :=
  M.map fun e => (e.1, e.2.bond)

variable {M N : Multiset (NodeId × Standing)}

@[simp]
theorem bonds_zero : bonds 0 = 0 :=
  rfl

@[simp]
theorem bonds_cons (id : NodeId) (s : Standing) : bonds ((id, s) ::ₘ M) = (id, s.bond) ::ₘ bonds M :=
  Multiset.map_cons _ _ _

@[simp]
theorem bonds_add : bonds (M + N) = bonds M + bonds N :=
  Multiset.map_add _ _ _

theorem map_fst_bonds : (bonds M).map (·.1) = M.map (·.1) := by
  rw [bonds, Multiset.map_map]
  rfl

theorem exists_of_bonds_cons {id : NodeId} {b : Bond} {N : Multiset (NodeId × Bond)}
    (h : bonds M = (id, b) ::ₘ N)
    : ∃ ks c M', M = (id, ⟨b.parent, ks, c⟩) ::ₘ M' ∧ (ks : Multiset NodeId) = b.children ∧
        bonds M' = N := by
  have hmem : (id, b) ∈ bonds M := h ▸ Multiset.mem_cons_self _ _
  obtain ⟨⟨x, s⟩, hs, heq⟩ := Multiset.mem_map.1 hmem
  cases heq
  obtain ⟨M', rfl⟩ := Multiset.exists_cons_of_mem hs
  rw [bonds_cons, Multiset.cons_inj_right] at h
  exact ⟨s.children, s.content, M', rfl, rfl, h⟩

end Document

namespace Forest

open Document (Bond)

variable {F G : Forest (NodeId × Content)} {a : Option NodeId}

def bonds (a : Option NodeId) (F : Forest (NodeId × Content)) : Multiset (NodeId × Bond) :=
  Document.bonds (F.census a)

@[simp]
theorem bonds_nil : bonds a .nil = 0 :=
  rfl

theorem bonds_cons (id : NodeId) (c : Content) (F G : Forest (NodeId × Content))
    : bonds a (.cons (id, c) F G) = (id, ⟨a, F.rootIds⟩) ::ₘ (F.bonds (some id) + G.bonds a) := by
  rw [bonds, census_cons, Document.bonds_cons, Document.bonds_add]
  rfl

@[simp]
theorem bonds_append : (F ++ G).bonds a = F.bonds a + G.bonds a := by
  rw [bonds, census_append, Document.bonds_add]
  rfl

theorem exists_of_perm {ids : List NodeId} (h : F.rootIds.Perm ids)
    : ∃ G : Forest (NodeId × Content), G.rootIds = ids ∧ ∀ a, G.census a = F.census a := by
  generalize hF : F.rootIds = ks at h
  induction h generalizing F with
  | nil => exact ⟨F, hF, fun _ => rfl⟩
  | cons x _ ih =>
    cases F with
    | nil => cases hF
    | cons label children siblings =>
      obtain ⟨id, c⟩ := label
      rw [rootIds_cons, List.cons.injEq] at hF
      obtain ⟨rfl, hF⟩ := hF
      obtain ⟨G, rfl, hG⟩ := ih hF
      exact ⟨.cons (id, c) children G, rfl, fun a => by rw [census_cons, census_cons, hG]⟩
  | swap x y l =>
    have hF : F.rootIds = [y] ++ x :: l := hF
    obtain ⟨A, B, rfl, hA, hB⟩ := exists_append_of_rootIds hF
    have hB : B.rootIds = [x] ++ l := hB
    obtain ⟨C, D, rfl, hC, hD⟩ := exists_append_of_rootIds hB
    refine ⟨C ++ (A ++ D), by simp [hA, hC, hD], fun a => ?_⟩
    simp only [census_append]
    exact add_left_comm _ _ _
  | trans _ _ ih ih' =>
    obtain ⟨G, hG, hFG⟩ := ih hF
    obtain ⟨K, hK, hGK⟩ := ih' hG
    exact ⟨K, hK, fun a => (hGK a).trans (hFG a)⟩

theorem exists_of_bonds {M : Multiset (NodeId × Standing)} {N : Multiset (NodeId × Bond)}
    (h : Document.bonds M = F.bonds a + N)
    : ∃ (G : Forest (NodeId × Content)) (M' : Multiset (NodeId × Standing)), M = G.census a + M' ∧
        G.rootIds.Perm F.rootIds ∧ (∀ b, G.bonds b = F.bonds b) ∧ Document.bonds M' = N := by
  induction F generalizing a M N with
  | nil =>
    rw [bonds_nil, Multiset.zero_add] at h
    exact ⟨.nil, M, by simp, .nil, fun _ => rfl, h⟩
  | cons label children siblings ihc ihs =>
    obtain ⟨id, c⟩ := label
    rw [bonds_cons, Multiset.cons_add, Multiset.add_assoc] at h
    obtain ⟨ks, c', M, rfl, hks, h⟩ := Document.exists_of_bonds_cons h
    obtain ⟨C, M, rfl, hC, hbC, hM⟩ := ihc h
    obtain ⟨S, M', rfl, hS, hbS, hM⟩ := ihs hM
    obtain ⟨C, rfl, hCs⟩ := exists_of_perm (hC.trans (Multiset.coe_eq_coe.1 hks.symm))
    refine ⟨.cons (id, c') C S, M', ?_, .cons _ hS, fun b => ?_, hM⟩
    . rw [census_cons, hCs, Multiset.cons_add, Multiset.add_assoc]
    . rw [bonds_cons, bonds_cons, bonds, hCs, ← bonds, hbC, hbS, hks]

end Forest

namespace Document

/-- A node with those of its children that are of no interest, and the bonds of all other nodes. -/
structure Site where
  node : NodeId
  parent : Option NodeId
  others : Multiset NodeId
  rest : Multiset (NodeId × Bond)

namespace Site

def bonds (s : Site) (F : Forest (NodeId × Content)) : Multiset (NodeId × Bond) :=
  F.bonds (some s.node) + (s.node, ⟨s.parent, s.others + F.rootIds⟩) ::ₘ s.rest

/-- The site of what is next to `A`. -/
def beside (s : Site) (A : Forest (NodeId × Content)) : Site :=
  { s with others := s.others + A.rootIds, rest := A.bonds (some s.node) + s.rest }

/-- The site of all that is in the node `id`, which is alone at the site. -/
def inside (s : Site) (id : NodeId) : Site where
  node := id
  parent := some s.node
  others := 0
  rest := (s.node, ⟨s.parent, s.others + [id]⟩) ::ₘ s.rest

def aside (s : Site) (L : Forest (NodeId × Content)) : Site :=
  { s with rest := L.bonds none + s.rest }

def known (s : Site) : Multiset NodeId :=
  s.node ::ₘ s.rest.map (·.1)

variable (s : Site) (A B F : Forest (NodeId × Content))

theorem bonds_aside : (s.aside A).bonds F = A.bonds none + s.bonds F := by
  simp only [bonds, aside, ← Multiset.singleton_add]
  abel

theorem bonds_beside : (s.beside A).bonds F = s.bonds (A ++ F) := by
  simp only [bonds, beside, Forest.bonds_append, Forest.rootIds_append, ← Multiset.singleton_add,
    ← Multiset.coe_add, Multiset.add_assoc]
  abel

theorem bonds_append_comm : s.bonds (A ++ B) = s.bonds (B ++ A) := by
  simp only [bonds, Forest.bonds_append, Forest.rootIds_append, ← Multiset.coe_add,
    Multiset.add_comm (A.bonds _), Multiset.add_comm (A.rootIds : Multiset NodeId)]

theorem bonds_append_right_comm : s.bonds (A ++ B ++ F) = s.bonds (A ++ F ++ B) := by
  simp only [bonds, Forest.bonds_append, Forest.rootIds_append, ← Multiset.coe_add, add_right_comm]

theorem bonds_inside (id : NodeId) (c : Content)
    : (s.inside id).bonds F = s.bonds (.cons (id, c) F .nil) := by
  simp only [bonds, inside, Forest.bonds_cons, Forest.bonds_nil, Forest.rootIds_cons,
    Forest.rootIds_nil, Multiset.zero_add, Multiset.add_zero, ← Multiset.singleton_add]
  abel

end Site

/-- The document has `F` at the site, and all its clearings were in order. -/
structure Carries (d : Document) (s : Site) (F : Forest (NodeId × Content)) : Prop where
  orderly : d.Orderly
  holds : ∃ M, d.Holds M ∧ bonds M = s.bonds F

variable {d d' : Document} {s s' : Site} {A B F G T : Forest (NodeId × Content)} {id : NodeId}
  {c : Content} {anchor : Option NodeId}

namespace Carries

theorem congr (h : d.Carries s F) (hs : s.bonds F = s'.bonds G) : d.Carries s' G :=
  ⟨h.orderly, hs ▸ h.holds⟩

theorem beside_iff : d.Carries (s.beside A) F ↔ d.Carries s (A ++ F) :=
  ⟨fun h => h.congr (s.bonds_beside A F), fun h => h.congr (s.bonds_beside A F).symm⟩

theorem append_comm (h : d.Carries s (A ++ B)) : d.Carries s (B ++ A) :=
  h.congr (s.bonds_append_comm A B)

theorem focus_iff : d.Carries (s.beside B) F ↔ d.Carries s (F ++ B) :=
  beside_iff.trans ⟨append_comm, append_comm⟩

theorem recordArrival (h : d.Carries s F) (c : Component) : (d.recordArrival c).Carries s F := by
  obtain ⟨M, hM, hbonds⟩ := h.holds
  exact ⟨h.orderly.recordArrival c, M, hM.withAnnals _, hbonds⟩

theorem gone_iff : d.Carries (s.beside A) .nil ↔ d.Carries s A := by
  rw [focus_iff, Forest.nil_append]

theorem inside_iff : d.Carries (s.inside id) F ↔ d.Carries s (.cons (id, c) F .nil) :=
  ⟨fun h => h.congr (s.bonds_inside F id c), fun h => h.congr (s.bonds_inside F id c).symm⟩

theorem wellFormed (h : d.Carries s F) : d.WellFormed := by
  obtain ⟨M, hM, -⟩ := h.holds
  exact hM.wellFormed

theorem exists_standing (h : d.Carries s F)
    : ∃ ks c, d.standing? s.node = some ⟨s.parent, ks, c⟩ ∧
        (ks : Multiset NodeId) = s.others + F.rootIds := by
  obtain ⟨M, hM, hbonds⟩ := h.holds
  rw [Site.bonds, Multiset.add_cons] at hbonds
  obtain ⟨ks, c, M', rfl, hks, -⟩ := exists_of_bonds_cons hbonds
  exact ⟨ks, c, hM.head, hks⟩

/--
Where the trees of `F` are next to each other, with `xs` before and `ys` after them, they are at a place
there. What comes to that place instead comes to the site.
-/
theorem exists_place (h : d.Carries s (A ++ F)) {b : Option NodeId} (xs ids ys : List NodeId)
    (hs : d.standing? s.node = some ⟨b, xs ++ ids ++ ys, c⟩) (hids : F.rootIds.Perm ids)
    : ∃ (pl : Place) (F' : Forest (NodeId × Content)), pl.node = s.node ∧ pl.before = xs ∧
        pl.after = ys ∧ F'.rootIds = ids ∧ d.Shows pl F' ∧
        ∀ (d' : Document) (G : Forest (NodeId × Content)), d'.Orderly → d'.Shows pl G →
          d'.Carries s (A ++ G) := by
  obtain ⟨M, hM, hbonds⟩ := h.holds
  have hsplit : s.bonds (A ++ F) = F.bonds (some s.node) +
      ((s.node, ⟨s.parent, s.others + (A.rootIds + F.rootIds)⟩) ::ₘ
        (A.bonds (some s.node) + s.rest)) := by
    simp only [Site.bonds, Forest.bonds_append, Forest.rootIds_append, ← Multiset.coe_add,
      ← Multiset.singleton_add]
    abel
  rw [hsplit] at hbonds
  obtain ⟨F', M, rfl, hF, -, hbonds⟩ := Forest.exists_of_bonds hbonds
  obtain ⟨F', rfl, hcensus⟩ := Forest.exists_of_perm (hF.trans hids)
  rw [← hcensus] at hM
  obtain ⟨ks, c', M, rfl, hks, hrest⟩ := exists_of_bonds_cons hbonds
  have hnode : d.standing? s.node = some _ :=
    hM.standing? (Multiset.mem_add.2 (.inr (Multiset.mem_cons_self _ _)))
  cases hs.symm.trans hnode
  refine ⟨⟨s.node, s.parent, c, xs, ys, M⟩, F', rfl, rfl, rfl, rfl, hM, fun d' G horderly hG => ?_⟩
  refine ⟨horderly, _, hG, ?_⟩
  -- What is left of the children, when those of `F` are taken away, is the same on both sides.
  have hothers : (xs : Multiset NodeId) + ys = s.others + A.rootIds := by
    have hF : (F.rootIds : Multiset NodeId) = F'.rootIds := Multiset.coe_eq_coe.2 hids
    rw [← Multiset.coe_add, ← Multiset.coe_add, hF] at hks
    apply Multiset.add_right_inj (s := (F'.rootIds : Multiset NodeId)).1
    calc (F'.rootIds : Multiset NodeId) + (xs + ys) = xs + F'.rootIds + ys := by abel
      _ = s.others + (A.rootIds + F'.rootIds) := hks
      _ = F'.rootIds + (s.others + A.rootIds) := by abel
  have hall : ((xs ++ G.rootIds ++ ys : List NodeId) : Multiset NodeId)
      = s.others + ((A ++ G).rootIds : Multiset NodeId) := by
    rw [Forest.rootIds_append, ← Multiset.coe_add, ← Multiset.coe_add, ← Multiset.coe_add,
      ← add_assoc, ← hothers]
    abel
  rw [Place.census, bonds_add, Document.bonds_cons, Standing.bond, hall, hrest, Site.bonds,
    Forest.bonds_append]
  simp only [Forest.bonds, ← Multiset.singleton_add]
  abel

theorem parent_of_mem (h : d.Carries s F) {b : Bond} (hid : (id, b) ∈ s.bonds F)
    : d.parent id = .ok b.parent := by
  obtain ⟨M, hM, hbonds⟩ := h.holds
  rw [← hbonds] at hid
  obtain ⟨⟨x, t⟩, ht, heq⟩ := Multiset.mem_map.1 hid
  cases heq
  obtain ⟨n, hn, hp, -⟩ := standing?_eq_some.1 (hM.standing? ht)
  simp only [Document.parent, node_eq_ok.2 hn, bind, Except.bind, hp]
  rfl

theorem parent (h : d.Carries s F) (hid : id ∈ F.rootIds) : d.parent id = .ok (some s.node) := by
  obtain ⟨ks, e, hs⟩ := Forest.mem_census_of_root (a := some s.node) hid
  exact h.parent_of_mem (b := ⟨some s.node, ks⟩)
    (Multiset.mem_add.2 (.inl (Multiset.mem_map_of_mem _ hs)))

theorem nodup (h : d.Carries s F) : F.ids.Nodup := by
  obtain ⟨M, hM, hbonds⟩ := h.holds
  obtain ⟨G, M', rfl, -, -, hM'⟩ := Forest.exists_of_bonds hbonds
  rw [Site.bonds, ← hM', bonds_add, Multiset.add_left_inj] at hbonds
  have hids : (G.ids : Multiset NodeId) = F.ids := by
    rw [← Forest.map_census (a := some s.node), ← Forest.map_census (a := some s.node)]
    have := congrArg (Multiset.map Prod.fst) hbonds
    simpa only [bonds, Forest.bonds, Multiset.map_map, Function.comp_def] using this
  rw [← Multiset.coe_nodup, ← hids]
  exact Multiset.coe_nodup.2 hM.nodup_ids

theorem exists_spot (h : d.Carries s A) (ha : ∀ x, anchor = some x → x ∈ s.others + A.rootIds)
    : ∃ pl : Place, pl.node = s.node ∧ pl.after.head? = anchor ∧ d.Shows pl .nil ∧
        ∀ (d' : Document) (G : Forest (NodeId × Content)), d'.Orderly → d'.Shows pl G →
          d'.Carries s (A ++ G) := by
  obtain ⟨ks, c, hs, hks⟩ := h.exists_standing
  obtain ⟨xs, ys, rfl, hys⟩ : ∃ xs ys, ks = xs ++ ys ∧ ys.head? = anchor := by
    cases anchor with
    | none => exact ⟨ks, [], (List.append_nil _).symm, rfl⟩
    | some x =>
      obtain ⟨xs, ys, rfl⟩ := List.append_of_mem (Multiset.mem_coe.1 (hks ▸ ha x rfl))
      exact ⟨xs, x :: ys, rfl, rfl⟩
  have h : d.Carries s (A ++ .nil) := by rwa [Forest.append_nil]
  obtain ⟨pl, F, hnode, -, rfl, hF, hd, hback⟩ := h.exists_place xs [] ys
    (by rwa [List.append_nil]) .nil
  cases F with
  | nil => exact ⟨pl, hnode, hys, hd, hback⟩
  | cons label _ _ => cases hF

theorem exists_tree (h : d.Carries s (A ++ T)) (hT : T.rootIds = [id])
    : ∃ (pl : Place) (T' : Forest (NodeId × Content)), pl.node = s.node ∧ T'.rootIds = [id] ∧
        d.Shows pl T' ∧
        ∀ (d' : Document) (G : Forest (NodeId × Content)), d'.Orderly → d'.Shows pl G →
          d'.Carries s (A ++ G) := by
  obtain ⟨ks, c, hs, hks⟩ := h.exists_standing
  have hid : id ∈ ks := by
    rw [← Multiset.mem_coe, hks, Multiset.mem_add]
    exact .inr (by simp [hT])
  obtain ⟨xs, ys, rfl⟩ := List.append_of_mem hid
  obtain ⟨pl, T', hnode, -, -, hT', hd, hback⟩ := h.exists_place xs [id] ys
    (by simpa using hs) (by rw [hT])
  exact ⟨pl, T', hnode, hT', hd, hback⟩

theorem exists_whole (h : d.Carries s F) (ho : s.others = 0)
    : ∃ (pl : Place) (F' : Forest (NodeId × Content)), pl.node = s.node ∧ pl.before = [] ∧
        pl.after = [] ∧ F'.rootIds.Perm F.rootIds ∧ d.Shows pl F' ∧
        ∀ (d' : Document) (G : Forest (NodeId × Content)), d'.Orderly → d'.Shows pl G →
          d'.Carries s G := by
  obtain ⟨ks, c, hs, hks⟩ := h.exists_standing
  rw [ho, zero_add, Multiset.coe_eq_coe] at hks
  have h : d.Carries s (.nil ++ F) := h
  obtain ⟨pl, F', hnode, hb, ha, rfl, hd, hback⟩ := h.exists_place [] ks []
    (by simpa using hs) hks.symm
  exact ⟨pl, F', hnode, hb, ha, hks, hd, hback⟩

theorem clear (h : d.Carries s F) (ho : s.others = 0) {own : List NodeId} (hown : own.Perm F.rootIds)
    : ∃ children d', d.children s.node = .ok children ∧
        (d.recordClearing ⟨s.node, children, own⟩).discardChildren s.node = .ok d' ∧
          d'.Carries s .nil := by
  obtain ⟨pl, F', hnode, hb, ha, hF, hd, hback⟩ := h.exists_whole ho
  have hchildren := hd.wellFormed.children_of_standing? hd.standing?_node
  rw [hb, ha, List.nil_append, List.append_nil, hnode] at hchildren
  have hclearing : (d.recordClearing ⟨s.node, F'.rootIds, own⟩).Orderly :=
    h.orderly.recordClearing (hF.trans hown.symm)
  obtain ⟨d', hd', hshows⟩ :=
    Shows.clear (Holds.withAnnals hd (d.recordClearing ⟨s.node, F'.rootIds, own⟩).annals) hb ha
  rw [hnode] at hd'
  exact ⟨F'.rootIds, d', hchildren, hd',
    hback d' .nil (hclearing.of_annals_eq (annals_discardChildren hd')) hshows⟩

theorem clear_around (h : d.Carries s (A ++ T)) (ho : s.others = 0) (hT : T.rootIds = [id])
    {own : List NodeId} (hown : own.Perm A.rootIds)
    : ∃ d₁ children d₂ d₃ T', d.remove id = .ok d₁ ∧ d₁.children s.node = .ok children ∧
        (d₁.recordClearing ⟨s.node, children, own⟩).discardChildren s.node = .ok d₂ ∧
          d₂.append s.node id = .ok d₃ ∧ T'.rootIds = [id] ∧ d₃.Carries s T' := by
  obtain ⟨pl, K, hnode, hb, ha, hK, hd, hback⟩ := h.exists_whole ho
  rw [Forest.rootIds_append, hT] at hK
  obtain ⟨xs, ys, hxs⟩ := List.append_of_mem (hK.mem_iff.2 (List.mem_append_right _ List.mem_cons_self))
  obtain ⟨X, K, rfl, rfl, hK'⟩ := Forest.exists_append_of_rootIds hxs
  have hK' : K.rootIds = [id] ++ ys := hK'
  obtain ⟨T', Y, rfl, hT', rfl⟩ := Forest.exists_append_of_rootIds hK'
  rw [← Forest.append_assoc] at hd
  obtain ⟨d₁, hremove, hd⟩ := hd.remove hT'
  have hchildren := hd.wellFormed.children_of_standing? hd.standing?_node
  simp only [Place.beside, hb, ha, List.nil_append, List.append_nil, hnode, Forest.rootIds_append]
    at hchildren
  -- Without the tree, the children are the ones of `A`, in some order.
  have hperm : (X.rootIds ++ Y.rootIds).Perm A.rootIds := by
    rw [hxs] at hK
    exact (List.perm_middle.symm.trans (hK.trans List.perm_append_comm)).cons_inv
  have hclearing : (d₁.recordClearing ⟨s.node, X.rootIds ++ Y.rootIds, own⟩).Orderly :=
    (h.orderly.of_annals_eq (annals_remove hremove)).recordClearing (hperm.trans hown.symm)
  obtain ⟨d₂, hclear, hd⟩ :=
    Shows.clear (Holds.withAnnals hd (d₁.recordClearing ⟨s.node, X.rootIds ++ Y.rootIds, own⟩).annals) hb ha
  obtain ⟨d₃, hinsert, hd⟩ := Shows.insert (A := .nil) (B := .nil) hd hT'
  simp only [Place.beside, hnode, ha, Forest.rootIds_nil, List.nil_append, List.head?_nil]
    at hclear hinsert
  rw [Forest.nil_append, Forest.append_nil] at hd
  refine ⟨d₁, _, d₂, d₃, T', hremove, hchildren, hclear, hinsert, hT', hback d₃ T' ?_ hd⟩
  exact (hclearing.of_annals_eq (annals_discardChildren hclear)).of_annals_eq
    (annals_insertBefore hinsert)

theorem discard (h : d.Carries s (A ++ T)) (hT : T.rootIds = [id])
    : ∃ d', d.discard id = .ok d' ∧ d'.Carries s A := by
  obtain ⟨pl, T', -, hT', hd, hback⟩ := h.exists_tree hT
  have hd : d.Shows pl (.nil ++ T' ++ .nil) := by simpa using hd
  obtain ⟨d', hd', hshows⟩ := hd.discard hT'
  have := hback d' .nil (h.orderly.of_annals_eq (annals_discard hd')) hshows
  rw [Forest.append_nil] at this
  exact ⟨d', hd', this⟩

theorem exists_holds (h : d.Carries s F) (hid : id ∈ (s.bonds F).map (·.1))
    : ∃ a ks c M, d.Holds ((id, ⟨a, ks, c⟩) ::ₘ M) ∧
        ∀ (d' : Document) (c' : Content), d'.Orderly → d'.Holds ((id, ⟨a, ks, c'⟩) ::ₘ M) →
          d'.Carries s F := by
  obtain ⟨M, hM, hbonds⟩ := h.holds
  obtain ⟨⟨_, b⟩, hb, rfl⟩ := Multiset.mem_map.1 hid
  obtain ⟨N, hN⟩ := Multiset.exists_cons_of_mem hb
  obtain ⟨ks, c, M, rfl, hks, hrest⟩ := exists_of_bonds_cons (hbonds.trans hN)
  refine ⟨_, ks, c, M, hM, fun d' c' horderly hd' => ⟨horderly, _, hd', ?_⟩⟩
  rwa [bonds_cons] at hbonds ⊢

end Carries

section Stray

variable {p x : NodeId} {a : Option NodeId} {ks : List NodeId}

theorem WellFormed.link_stray (h : d.WellFormed) (hp : d.standing? p = some ⟨a, ks, c⟩)
    (hx : x ∉ ks) (id : NodeId) : ∃ e, d.link p id (some x) = .error e := by
  have hprev : ∃ e, d.prevAt p (some x) = .error e := by
    cases hn : d.node x with
    | error e =>
      refine ⟨e, ?_⟩
      simp only [prevAt, hn, bind, Except.bind]
    | ok n =>
      refine ⟨.strayReference x p, ?_⟩
      simp only [prevAt, hn, bind, Except.bind]
      rw [if_neg]
      . rfl
      intro hparent
      have hx' := standing?_of_node? (node_eq_ok.1 hn)
      rw [hparent] at hx'
      obtain ⟨_, _, _, hp', hmem⟩ := h.standing?_parent hx'
      cases hp.symm.trans hp'
      exact hx hmem
  obtain ⟨e, he⟩ := hprev
  refine ⟨e, ?_⟩
  simp only [Document.link, he, bind, Except.bind]

theorem WellFormed.insertBefore_stray {d₁ : Document} {attached : Bool}
    (hun : d.unlink id = .ok (d₁, attached)) (h : d₁.WellFormed)
    (hp : d₁.standing? p = some ⟨a, ks, c⟩) (hx : x ∉ ks) (hne : x ≠ id)
    : ∃ e, d.insertBefore p id (some x) = .error e := by
  obtain ⟨hwf, -, hs⟩ := h.withTally (if attached then { d₁.tally with moved := d₁.tally.moved + 1 }
    else { d₁.tally with inserted := d₁.tally.inserted + 1 })
  obtain ⟨e, he⟩ := hwf.link_stray ((hs p).trans hp) hx id
  refine ⟨e, ?_⟩
  unfold Document.insertBefore
  rw [if_neg (by simpa using hne), hun]
  exact he

namespace Carries

theorem ne_aside (h : d.Carries (s.aside T) A) (hT : T.rootIds = [id])
    (hx : x ∈ s.others + A.rootIds ∨ x ∈ s.known) : x ≠ id := by
  obtain ⟨c, G, rfl⟩ := Forest.eq_cons_of_rootIds hT
  have hid : (id, (⟨none, G.rootIds⟩ : Bond)) ∈ (Forest.cons (id, c) G .nil).bonds none := by
    rw [Forest.bonds_cons]
    exact Multiset.mem_cons_self _ _
  rintro rfl
  rcases hx with hx | hx
  . have hroot := h.parent_of_mem (b := ⟨none, G.rootIds⟩)
      (by rw [Site.bonds_aside]; exact Multiset.mem_add.2 (.inl hid))
    obtain ⟨ks, c', hs, hks⟩ := h.exists_standing
    obtain ⟨ks', c'', hchild⟩ := h.wellFormed.standing?_child hs (x := x)
      (by rw [← Multiset.mem_coe, hks]; exact hx)
    obtain ⟨n, hn, hp, -⟩ := standing?_eq_some.1 hchild
    simp only [Document.parent, node_eq_ok.2 hn, bind, Except.bind, hp] at hroot
    cases hroot
  . obtain ⟨M, hM, hbonds⟩ := h.holds
    have hnd := hM.nodup
    have hids : M.map (·.1) = (bonds M).map (·.1) := by
      rw [bonds, Multiset.map_map]
      rfl
    rw [hids, hbonds, Site.bonds_aside, Multiset.map_add] at hnd
    refine Multiset.disjoint_left.1 (Multiset.nodup_add.1 hnd).2.2 (Multiset.mem_map_of_mem _ hid) ?_
    rw [Site.bonds, Multiset.map_add, Multiset.map_cons]
    exact Multiset.mem_add.2 (.inr hx)

theorem insert (h : d.Carries (s.aside T) A) (hT : T.rootIds = [id]) (hself : anchor ≠ some id)
    : ((∀ x, anchor = some x → x ∈ s.others + A.rootIds) ∧
        ∃ d', d.insertBefore s.node id anchor = .ok d' ∧ d'.Carries s (A ++ T)) ∨
        ((∃ x, anchor = some x ∧ x ∉ s.others + A.rootIds) ∧
          ∃ e, d.insertBefore s.node id anchor = .error e) := by
  obtain ⟨M, hM, hbonds⟩ := h.holds
  rw [Site.bonds_aside] at hbonds
  obtain ⟨T', M, rfl, hT', hb, hsite⟩ := Forest.exists_of_bonds hbonds
  obtain ⟨c, G, rfl⟩ := Forest.eq_cons_of_rootIds (List.perm_singleton.1 (hT ▸ hT'))
  rw [Site.bonds, Multiset.add_cons] at hsite
  obtain ⟨ks, e, M, rfl, hks, hrest⟩ := exists_of_bonds_cons hsite
  have hwithin : ¬ d.Within s.node id :=
    hM.not_within (Multiset.mem_cons_self _ _) (by simp)
  have htree : ∀ a N, (Forest.cons (id, c) G .nil).census a + N
      = (id, ⟨a, G.rootIds, c⟩) ::ₘ (G.census (some id) + N) := by
    intro a N
    rw [Forest.census_cons, Forest.census_nil, Multiset.add_zero, Multiset.cons_add]
  rw [htree, Multiset.add_cons] at hM
  by_cases hx : ∀ x, anchor = some x → x ∈ ks
  . obtain ⟨xs, ys, rfl, rfl⟩ : ∃ xs ys, ks = xs ++ ys ∧ ys.head? = anchor := by
      cases anchor with
      | none => exact ⟨ks, [], (List.append_nil _).symm, rfl⟩
      | some x =>
        obtain ⟨xs, ys, rfl⟩ := List.append_of_mem (hx x rfl)
        exact ⟨xs, x :: ys, rfl, rfl⟩
    obtain ⟨d', hd', hM'⟩ := hM.insertBefore hwithin
    rw [← Multiset.add_cons, ← htree] at hM'
    refine .inl ⟨fun x hx => ?_, d', hd', h.orderly.of_annals_eq (annals_insertBefore hd'), _,
      hM', ?_⟩
    . refine (congrArg (x ∈ ·) hks).mp (Multiset.mem_coe.2 (List.mem_append_right _ ?_))
      exact List.mem_of_mem_head? hx
    have hchildren : ((xs ++ id :: ys : List NodeId) : Multiset NodeId) = s.others + (A ++ T).rootIds := by
      rw [Forest.rootIds_append, hT, ← Multiset.coe_add A.rootIds, ← add_assoc]
      refine Eq.trans ?_ (congrArg (· + (([id] : List NodeId) : Multiset NodeId)) hks)
      rw [Multiset.coe_add, Multiset.coe_eq_coe]
      exact List.perm_middle.trans (List.perm_append_singleton _ _).symm
    rw [bonds_add, bonds_cons, Standing.bond, hrest, hchildren, ← Forest.bonds, hb, Site.bonds,
      Forest.bonds_append]
    simp only [← Multiset.singleton_add]
    abel
  . simp only [not_forall] at hx
    obtain ⟨x, rfl, hx⟩ := hx
    refine .inr ⟨⟨x, rfl, by rwa [← Multiset.mem_coe, hks] at hx⟩, ?_⟩
    exact WellFormed.insertBefore_stray (WellFormed.unlink_root hM.head) hM.wellFormed hM.second hx
      fun heq => hself (congrArg some heq)

theorem move (h : d.Carries s (A ++ T)) (hT : T.rootIds = [id]) (target : Option NodeId)
    : (∃ d', d.insertBefore s.node id target = .ok d' ∧ d'.Carries s (A ++ T)) ∨
        ((∃ e, d.insertBefore s.node id target = .error e) ∧
          ∃ x, target = some x ∧ x ∉ s.others + (A ++ T).rootIds) := by
  obtain ⟨M, hM, hbonds⟩ := h.holds
  obtain ⟨ks, c, M', rfl, hks, hrest⟩ :=
    exists_of_bonds_cons (hbonds.trans (by rw [Site.bonds, Multiset.add_cons]))
  have hid : id ∈ ks := by
    rw [← Multiset.mem_coe, hks, Forest.rootIds_append, hT]
    simp
  obtain ⟨us, vs, rfl⟩ := List.append_of_mem hid
  -- Wherever it is put among the others, the children are the same.
  have hmove : ∀ xs ys, us ++ vs = xs ++ ys → ∃ d', d.insertBefore s.node id ys.head? = .ok d' ∧
      d'.Carries s (A ++ T) := by
    intro xs ys hs
    obtain ⟨d', hd', hM'⟩ := hM.move hs
    refine ⟨d', hd', h.orderly.of_annals_eq (annals_insertBefore hd'), _, hM', ?_⟩
    have hperm : (xs ++ id :: ys).Perm (us ++ id :: vs) := by
      refine List.perm_middle.trans (.trans (.cons id ?_) List.perm_middle.symm)
      rw [hs]
    rw [← hbonds, bonds_cons, bonds_cons, Standing.bond, Standing.bond, Multiset.coe_eq_coe.2 hperm]
  by_cases hself : target = some id
  . refine .inl ⟨d, ?_, h⟩
    rw [insertBefore, if_pos hself]
    rfl
  cases target with
  | none => exact .inl (hmove (us ++ vs) [] (by simp))
  | some x =>
    have hne : x ≠ id := fun heq => hself (congrArg some heq)
    by_cases hx : x ∈ us ++ vs
    . obtain ⟨xs, ys, hs⟩ := List.append_of_mem hx
      exact .inl (hmove xs (x :: ys) hs)
    . have hx' : x ∉ us ++ id :: vs := by
        simp only [List.mem_append, List.mem_cons, not_or] at hx ⊢
        exact ⟨hx.1, hne, hx.2⟩
      obtain ⟨_, _, hid⟩ := hM.wellFormed.standing?_child (x := id) hM.head (by simp)
      obtain ⟨d₁, hun, hwf, -, -, hs⟩ := hM.wellFormed.unlink hid hM.head
      have hnode : d₁.standing? s.node = some ⟨s.parent, us ++ vs, c⟩ := by
        rw [hs, if_neg (hM.wellFormed.parent_ne hid), if_pos rfl]
      refine .inr ⟨WellFormed.insertBefore_stray hun hwf hnode hx hne, x, rfl, ?_⟩
      rwa [← Multiset.mem_coe, hks] at hx'

end Carries
end Stray

end Document
end VirtualDom
