import VirtualDom.Proofs.Document.Cell
import VirtualDom.Proofs.Document.Place
import VirtualDom.Proofs.Document.Twin

/-!
This module contains documents some nodes of which were freed: by which nodes are left, and by the order
of the free slots, the document is determined.
-/

namespace VirtualDom.Document

variable {d d' d'' : Document} {M : Multiset (NodeId × Standing)} {F A B T : Forest (NodeId × Content)}
  {pl : Place} {id : NodeId}

section Determined

theorem Holds.node?_eq (h : d.Holds M) (h' : d'.Holds M) (x : NodeId) : d'.node? x = d.node? x := by
  have hsame := h.standing?_eq h'
  cases hx : d.node? x with
  | none =>
    have := hsame x
    rw [standing?_eq_none.2 hx] at this
    exact standing?_eq_none.1 this
  | some n =>
    have hs := standing?_of_node? hx
    obtain ⟨m, hm, hparent, hkids, hcontent⟩ := standing?_eq_some.1 ((hsame x).trans hs)
    have hl := h.wellFormed.links
    have hl' := h'.wellFormed.links
    have hsiblings : m.prevSibling = n.prevSibling ∧ m.nextSibling = n.nextSibling := by
      cases hp : n.parent with
      | none =>
        obtain ⟨hprev, hnext⟩ := hl.root hx hp
        obtain ⟨hprev', hnext'⟩ := hl'.root hm (hparent.trans hp)
        exact ⟨hprev'.trans hprev.symm, hnext'.trans hnext.symm⟩
      | some p =>
        obtain ⟨⟨pn, hpn⟩, hmem⟩ := hl.mem_kids hx hp
        obtain ⟨xs, ys, hsplit⟩ := List.append_of_mem hmem
        obtain ⟨pm, hpm, -, hpkids, -⟩ := standing?_eq_some.1 ((hsame p).trans (standing?_of_node? hpn))
        obtain ⟨n', hn', -, hprev, hnext⟩ := hl.child hpn hsplit
        obtain ⟨m', hm', -, hprev', hnext'⟩ := hl'.child hpm (hpkids.trans hsplit)
        cases hx.symm.trans hn'
        cases hm.symm.trans hm'
        exact ⟨hprev'.trans hprev.symm, hnext'.trans hnext.symm⟩
    have hfirst := (hl'.firstChild hm).trans ((congrArg List.head? hkids).trans (hl.firstChild hx).symm)
    have hlast := (hl'.lastChild hm).trans ((congrArg List.getLast? hkids).trans (hl.lastChild hx).symm)
    rw [hm]
    cases n
    cases m
    simp_all

theorem Shrinks.cell_eq (h : d.Shrinks d') (h' : d.Shrinks d'') (hnode : ∀ x, d''.node? x = d'.node? x)
    : d''.cell = d'.cell := by
  have hlive : ∀ i g c, d'.cell i = (g, some c) ↔ d''.cell i = (g, some c) := by
    intro i g c
    have hd := cell_eq_some (d := d') (x := ⟨i, g⟩) (c := c)
    have hd' := cell_eq_some (d := d'') (x := ⟨i, g⟩) (c := c)
    rw [hnode] at hd'
    exact hd.trans hd'.symm
  funext i
  rcases h i with hkept | ⟨g, c, hold, hgone⟩
  . rcases h' i with hkept' | ⟨g, c, hold, hgone'⟩
    . exact hkept'.trans hkept.symm
    . have := (hlive i g c).1 (hkept.trans hold)
      cases congrArg Prod.snd (this.symm.trans hgone')
  . rcases h' i with hkept' | ⟨g', c', hold', hgone'⟩
    . have := (hlive i g c).2 (hkept'.trans hold)
      cases congrArg Prod.snd (this.symm.trans hgone)
    . cases hold.symm.trans hold'
      exact hgone'.trans hgone.symm

/-- Freeing the same nodes of a document leaves the same, if it also frees the slots in the same order. -/
theorem Shrinks.twin (h : d.Shrinks d') (h' : d.Shrinks d'') (hd : d'.Holds M) (hd' : d''.Holds M)
    (hcapacity : d''.capacity = d'.capacity) (hfree : d''.free = d'.free) : d'.Twin d'' where
  slots := by
    have hnode := hd.node?_eq hd'
    have hcell := h.cell_eq h' hnode
    apply Array.ext_getElem?
    intro i
    cases hi : d'.slots[i]? with
    | none =>
      rw [Array.getElem?_eq_none_iff] at hi ⊢
      exact hcapacity.le.trans hi
    | some slot =>
      have hlt : i < d''.slots.size := (Array.getElem?_eq_some_iff.1 hi).1.trans_eq hcapacity.symm
      obtain ⟨slot', hi'⟩ : ∃ slot', d''.slots[i]? = some slot' := ⟨_, Array.getElem?_eq_getElem hlt⟩
      have hi'' := congrFun hcell i
      have hx := hnode ⟨i, slot.generation⟩
      unfold cell at hi''
      unfold node? at hx
      rw [hi, hi'] at hi'' hx
      obtain ⟨hg, -⟩ := Prod.mk.inj hi''
      simp only [hg, if_true] at hx
      rw [hi']
      cases slot
      cases slot'
      simp_all
  free := hfree

end Determined

section Discard

theorem Holds.free_releaseAll (h : d.Holds (F.census none + M)) (hd : d.releaseAll F.rootIds = .ok d')
    : d'.free = (Forest.releases F.roots).reverse ++ d.free := by
  obtain ⟨hlinks, -, hfn, hfm⟩ := h.wellFormed
  obtain ⟨d₁, h₁, -, -, -, hfree⟩ := releaseAll_eq (d := d) hlinks F.roots
    (Forest.spans_iff_roots.1 h.spans) (by rw [Forest.idsOf_roots]; exact h.nodup_ids)
    (by
      intro x hx
      rw [Forest.idsOf_roots] at hx
      obtain ⟨n, hn, -⟩ := h.node?_of_mem_ids hx
      exact ⟨n, hn, hn⟩)
    hfn hfm
  have hroots : F.roots.map (·.1.1) = F.rootIds := by simp [Forest.rootIds]
  rw [hroots] at h₁
  cases h₁.symm.trans hd
  exact hfree

namespace Shows

theorem free_discard (h : d.Shows pl (A ++ T ++ B)) (hT : T.rootIds = [id]) (hd : d.discard id = .ok d')
    : d'.free = (Forest.releases T.roots).reverse ++ d.free := by
  obtain ⟨d₁, h₁, hd₁⟩ := h.remove hT
  obtain ⟨_, h₁', hd⟩ := bind_eq_ok.1 hd
  cases h₁.symm.trans h₁'
  rw [← hT] at hd
  rw [Holds.free_releaseAll (shows_beside.1 hd₁) hd, (sameSlots_remove h₁).free]

theorem discardAll (h : d.Shows pl (F ++ B))
    : ∃ d', F.rootIds.foldlM Document.discard d = .ok d' ∧ d'.Shows pl B ∧ d.Shrinks d' ∧
        d'.capacity = d.capacity ∧ d'.free = (Forest.releases F.roots).reverse ++ d.free := by
  induction F generalizing d with
  | nil => exact ⟨d, rfl, h, .of_eq rfl, rfl, rfl⟩
  | cons label children siblings _ ih =>
    obtain ⟨id, c⟩ := label
    have h : d.Shows pl (.nil ++ Forest.cons (id, c) children .nil ++ (siblings ++ B)) := h
    obtain ⟨d₁, hdiscard, hd₁⟩ := h.discard rfl
    obtain ⟨d', hall, hd', hshrinks, hcapacity, hfree⟩ := ih hd₁
    obtain ⟨-, hshrinks₁⟩ := discard_shrinks h.wellFormed.reusable hdiscard
    refine ⟨d', ?_, hd', hshrinks₁.trans hshrinks, hcapacity.trans (capacity_discard hdiscard), ?_⟩
    . rw [Forest.rootIds_cons, List.foldlM_cons, hdiscard]
      exact hall
    . rw [hfree, h.free_discard rfl hdiscard]
      simp [Forest.releases, Forest.roots]

theorem firstChild_eq_ok (h : d.Shows pl F)
    : d.firstChild pl.node = .ok (pl.before ++ F.rootIds ++ pl.after).head? := by
  obtain ⟨n, hn, -, hkids, -⟩ := standing?_eq_some.1 h.standing?_node
  rw [← hkids, ← h.wellFormed.links.firstChild hn]
  unfold firstChild
  rw [node_eq_ok.2 hn]
  rfl

theorem discardChildren_eq (h : d.Shows pl F) (hpl : pl.before = [] ∧ pl.after = [])
    : d.discardChildren pl.node = F.rootIds.foldlM Document.discard d := by
  induction F generalizing d with
  | nil =>
    rw [Document.discardChildren_eq, h.firstChild_eq_ok, hpl.1, hpl.2]
    rfl
  | cons label children siblings _ ih =>
    obtain ⟨id, c⟩ := label
    have hfirst : d.firstChild pl.node = .ok (some id) := by
      rw [h.firstChild_eq_ok, hpl.1]
      rfl
    have h : d.Shows pl (.nil ++ .cons (id, c) children .nil ++ siblings) := h
    obtain ⟨d₁, hdiscard, hd₁⟩ : ∃ d₁, d.discard id = .ok d₁ ∧ d₁.Shows pl siblings := h.discard rfl
    rw [Document.discardChildren_eq, hfirst, Forest.rootIds_cons, List.foldlM_cons, hdiscard]
    dsimp only [bind, Except.bind]
    rw [hdiscard]
    exact ih hd₁

/--
The last child of a node, kept aside while the node is cleared, comes back to the document that freeing
the other children one after the other leaves.
-/
theorem clear_twin (h : d.Shows pl (F ++ T)) (hT : T.rootIds = [id]) (hpl : pl.before = [] ∧ pl.after = [])
    (c : Clearing)
    : ∃ d₁ d₂ d' d'', d.remove id = .ok d₁ ∧ d₁.children pl.node = .ok F.rootIds ∧
        (d₁.recordClearing c).discardChildren pl.node = .ok d₂ ∧ d₂.append pl.node id = .ok d' ∧
        F.rootIds.foldlM Document.discard d = .ok d'' ∧ d'.Shows pl T ∧ d'.Twin d'' := by
  obtain ⟨d'', hall, hd'', hshrinks, hcapacity, hfree⟩ := h.discardAll
  rw [← Forest.append_nil (F ++ T)] at h
  obtain ⟨d₁, h₁, hd₁⟩ := h.remove hT
  have hchildren : d₁.children pl.node = .ok (pl.before ++ (F ++ .nil).rootIds ++ pl.after) :=
    hd₁.wellFormed.children_of_standing? hd₁.standing?_node
  rw [hpl.1, hpl.2, Forest.append_nil, List.append_nil] at hchildren
  have hd₁ : (d₁.recordClearing c).Shows (pl.beside (T.census none)) (F ++ .nil) := hd₁.withAnnals _
  obtain ⟨d₂, h₂, hd₂, hshrinks₂, hcapacity₂, hfree₂⟩ := hd₁.discardAll
  rw [Forest.append_nil] at hd₁
  have hd₂ : d₂.Shows (pl.beside (T.census none)) (.nil ++ .nil) := hd₂
  obtain ⟨d', h', hd'⟩ := hd₂.insert hT
  rw [hpl.2] at h'
  have hd' : d'.Shows pl T := by simpa using hd'
  have hslots := sameSlots_remove h₁
  have hslots' := sameSlots_insertBefore h'
  refine ⟨d₁, d₂, d', d'', h₁, hchildren, (hd₁.discardChildren_eq hpl).trans h₂, h', hall, hd', ?_⟩
  have hd₁cell : (d₁.recordClearing c).cell = d.cell :=
    (show (d₁.recordClearing c).cell = d₁.cell from rfl).trans (cell_remove h₁)
  have hshrinks' : d.Shrinks d' :=
    (Shrinks.of_eq hd₁cell).trans (hshrinks₂.trans (.of_eq (cell_insertBefore h')))
  refine hshrinks'.twin hshrinks hd' hd'' ?_ ?_
  . exact hcapacity.trans (hslots'.size.trans (hcapacity₂.trans hslots.size)).symm
  . rw [hfree, hslots'.free, hfree₂]
    exact congrArg (_ ++ ·) hslots.free.symm

end Shows

theorem WellFormed.exists_whole {p : NodeId} {ks : List NodeId} (h : d.WellFormed)
    (hp : d.children p = .ok ks)
    : ∃ pl F, pl.node = p ∧ (pl.before = [] ∧ pl.after = []) ∧ F.rootIds = ks ∧ d.Shows pl F := by
  obtain ⟨n, hn⟩ := node?_of_children hp
  have hs := standing?_of_node? hn
  have hkids := (h.children hn).symm.trans hp
  obtain ⟨F, M, hF, -, hM⟩ := h.exists_tree hs
  refine ⟨⟨p, n.parent, n.content, [], [], M⟩, F, rfl, ⟨rfl, rfl⟩, hF.trans (Except.ok.inj hkids), ?_⟩
  unfold Shows Place.census
  have hcensus : (Forest.cons (p, n.content) F .nil).census n.parent + M
      = F.census (some p) + (p, ⟨n.parent, [] ++ F.rootIds ++ [], n.content⟩) ::ₘ M := by
    simp only [Forest.census_cons, Forest.census_nil, List.nil_append, List.append_nil,
      ← Multiset.singleton_add]
    abel
  rwa [← hcensus]

end Discard

end VirtualDom.Document
