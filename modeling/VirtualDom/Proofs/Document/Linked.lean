import VirtualDom.Proofs.Document.Cell

/-!
This module contains documents whose lists of children are in order, even if a node is below itself.
All operations that succeed keep them so, whether they make sense or not, and discarding frees what was
within a node.
-/

namespace VirtualDom.Document

def above (d : Document) (x : NodeId) : Option (Option NodeId) :=
  (d.node? x).map Node.parent

/-- The lists of children are linked in both directions. -/
structure Linked (d : Document) : Prop where
  links : Links d.node? d.kids
  reusable : d.Reusable

/-- The children of a node, if they can be listed, are the nodes that it is the parent of. -/
def Listed (d : Document) : Prop :=
  ∀ {p ids}, d.children p = .ok ids → ∀ c, c ∈ ids ↔ d.above c = some (some p)

variable {d d' d'' : Document} {id p q x c : NodeId} {reference : Option NodeId}

section Above

theorem above_eq_some {a : Option NodeId} : d.above x = some a ↔ ∃ n, d.node? x = some n ∧ n.parent = a :=
  Option.map_eq_some_iff

theorem above_eq_none : d.above x = none ↔ d.contains x = false := by
  unfold above contains
  cases d.node? x <;> simp

theorem contains_of_above {a : Option NodeId} (h : d.above x = some a) : d.contains x := by
  obtain ⟨n, hn, -⟩ := above_eq_some.1 h
  simp [contains, hn]

theorem contains_congr (h : d'.above x = d.above x) : d'.contains x = d.contains x := by
  have hiff := above_eq_none (d := d') (x := x)
  rw [h, above_eq_none] at hiff
  cases h' : d'.contains x with
  | false => exact (hiff.2 h').symm
  | true =>
    rw [h'] at hiff
    cases hx : d.contains x with
    | false => cases hiff.1 hx
    | true => rfl

theorem Within.mono (hle : ∀ y z, d'.above y = some (some z) → d.above y = some (some z))
    (hw : d'.Within x q) : d.Within x q :=
  Relation.ReflTransGen.mono (fun y z hyz => above_eq_some.1 (hle y z (above_eq_some.2 hyz))) _ _ hw

theorem within_of_not_within (hsame : ∀ y, ¬ d.Within y c → d'.above y = d.above y)
    (hnot : ¬ d.Within x c) (hw : d.Within x q) : d'.Within x q := by
  induction hw using Relation.ReflTransGen.head_induction_on with
  | refl => exact .refl
  | head hstep _ ih =>
    refine .head (above_eq_some.1 ?_) (ih fun hz => hnot (.head hstep hz))
    exact (hsame _ hnot).trans (above_eq_some.2 hstep)

end Above

namespace Linked

theorem empty : Linked {} :=
  ⟨WellFormed.empty.links, reusable_empty⟩

theorem of_links {kids : NodeId → List NodeId} (h : Links d.node? kids) (hr : d.Reusable) : d.Linked :=
  ⟨h.congr fun _ _ hn => h.kids_eq hn, hr⟩

theorem of_slots_eq (h : d.Linked) (hslots : d'.slots = d.slots) (hfree : d'.free = d.free)
    : d'.Linked ∧ d'.above = d.above := by
  have hnode : d'.node? = d.node? := by
    funext x
    unfold node?
    rw [hslots]
  refine ⟨of_links (hnode ▸ h.links) ⟨hfree ▸ h.reusable.nodup, ?_⟩, ?_⟩
  . rw [hslots, hfree]
    exact h.reusable.empty
  . unfold above
    rw [hnode]

theorem withTally (h : d.Linked) (tally : Tally)
    : Linked { d with tally } ∧ above { d with tally } = d.above :=
  h.of_slots_eq rfl rfl

theorem listed (h : d.Linked) : d.Listed := by
  intro p ids hids c
  obtain ⟨n, hn⟩ := node?_of_children hids
  cases hids.symm.trans (h.links.children hn)
  rw [above_eq_some]
  constructor
  . exact h.links.of_mem hn
  . rintro ⟨m, hm, hp⟩
    exact (h.links.mem_kids hm hp).2

theorem firstChild_eq_ok {first : Option NodeId} (h : d.Linked) (hf : d.firstChild p = .ok first)
    : d.contains p ∧ (d.kids p).head? = first := by
  obtain ⟨n, hn, heq⟩ := bind_eq_ok.1 hf
  cases heq
  have hn := node_eq_ok.1 hn
  exact ⟨by simp [contains, hn], (h.links.firstChild hn).symm⟩

theorem mem_kids (h : d.Linked) (hp : d.contains p) : c ∈ d.kids p ↔ d.above c = some (some p) := by
  obtain ⟨n, hn⟩ := Option.isSome_iff_exists.1 hp
  exact h.listed (h.links.children hn) c

section Links

theorem unlink {attached : Bool} (h : d.Linked) (hd : d.unlink id = .ok (d', attached))
    : d'.Linked ∧ d'.above id = some none ∧ ∀ x, x ≠ id → d'.above x = d.above x := by
  obtain ⟨n, hn, hrest⟩ := bind_eq_ok.1 hd
  have hn := node_eq_ok.1 hn
  cases hparent : n.parent with
  | none =>
    rw [hparent] at hrest
    cases hrest
    exact ⟨h, above_eq_some.2 ⟨n, hn, hparent⟩, fun _ _ => rfl⟩
  | some p =>
    obtain ⟨⟨pn, hp⟩, hmem⟩ := h.links.mem_kids hn hparent
    obtain ⟨xs, ys, hk⟩ := List.append_of_mem hmem
    obtain ⟨d₁, hd₁, hs, -, hl⟩ := h.links.unlink_eq hp hk
    cases hd.symm.trans hd₁
    refine ⟨of_links (h.links.detach hp hk hl) (hs.reusable h.reusable), ?_, fun x hx => ?_⟩
    . simp [above, hl, hn, detached]
    . unfold above
      rw [hl]
      cases d.node? x <;> simp [detached, hx]

theorem link (h : d.Linked) (hroot : d.above id = some none) (hd : d.link p id reference = .ok d')
    : d'.Linked ∧ d.contains p ∧ (∀ r, reference = some r → d.contains r) ∧
        ∀ x, x ≠ id → d'.above x = d.above x := by
  obtain ⟨n, hn, hparent⟩ := above_eq_some.1 hroot
  have hplace : ∃ pn xs ys, d.node? p = some pn ∧ d.kids p = xs ++ ys ∧ ys.head? = reference := by
    obtain ⟨prev, hprev, -⟩ := bind_eq_ok.1 hd
    cases reference with
    | none =>
      obtain ⟨pn, hp, -⟩ := bind_eq_ok.1 hprev
      exact ⟨pn, d.kids p, [], node_eq_ok.1 hp, (List.append_nil _).symm, rfl⟩
    | some r =>
      obtain ⟨m, hm, hprev⟩ := bind_eq_ok.1 hprev
      split at hprev
      . next hmp =>
        obtain ⟨⟨pn, hp⟩, hmem⟩ := h.links.mem_kids (node_eq_ok.1 hm) hmp
        obtain ⟨xs, ys, hk⟩ := List.append_of_mem hmem
        exact ⟨pn, xs, r :: ys, hp, hk, rfl⟩
      . cases hprev
  obtain ⟨pn, xs, ys, hp, hk, rfl⟩ := hplace
  obtain ⟨d₁, hd₁, hs, -, hl⟩ := h.links.link_eq hn hparent hp hk
  cases hd.symm.trans hd₁
  refine ⟨of_links (h.links.attach hn hparent hp hk hl) (hs.reusable h.reusable), ?_, ?_, ?_⟩
  . simp [contains, hp]
  . intro r hr
    obtain ⟨m, hm, -⟩ := h.links.of_mem hp (hk.symm ▸ List.mem_append_right _ (List.mem_of_head? hr))
    simp [contains, hm]
  . intro x hx
    unfold above
    rw [hl]
    cases d.node? x <;> simp [attached, hx]

theorem insertBefore (h : d.Linked) (hself : reference ≠ some id)
    (hd : d.insertBefore p id reference = .ok d')
    : d'.Linked ∧ d.contains p ∧ ∀ r, reference = some r → d.contains r := by
  rw [Document.insertBefore, if_neg hself] at hd
  obtain ⟨⟨d₁, attached⟩, hun, hd⟩ := bind_eq_ok.1 hd
  obtain ⟨h₁, hroot, -⟩ := h.unlink hun
  have live : ∀ {y}, d₁.contains y → d.contains y :=
    fun hy => (contains_of_cell_eq (cell_unlink hun)).symm.trans hy
  obtain ⟨h', hp, hr, -⟩ := (h₁.withTally _).1.link ((h₁.withTally _).2 ▸ hroot) hd
  exact ⟨h', live hp, fun r hr' => live (hr r hr')⟩

theorem remove (h : d.Linked) (hd : d.remove id = .ok d')
    : d'.Linked ∧ d'.above id = some none ∧ ∀ x, x ≠ id → d'.above x = d.above x := by
  obtain ⟨⟨d₁, attached⟩, hun, hd⟩ := bind_eq_ok.1 hd
  cases hd
  obtain ⟨h₁, hroot, habove⟩ := h.unlink hun
  obtain ⟨h', heq⟩ := h₁.withTally (if attached then { d₁.tally with removed := d₁.tally.removed + 1 }
    else d₁.tally)
  exact ⟨h', heq ▸ hroot, heq ▸ habove⟩

end Links

section Additions

theorem create (h : d.Linked) (content : Content)
    : (d.create content).2.Linked ∧ (d.create content).2.above (d.create content).1 = some none ∧
        ∀ x, d.contains x → (d.create content).2.above x = d.above x := by
  obtain ⟨hfree, hl⟩ := h.reusable.node?_create content
  refine ⟨of_links (h.links.add hfree hl) (create_grows h.reusable content).1, ?_, fun x hx => ?_⟩
  . rw [above, hl, if_pos rfl]
    rfl
  . rw [above, hl, if_neg]
    . rfl
    . rintro rfl
      simp [contains, hfree] at hx

theorem plant {T : Forest Content} {parent : Option NodeId} {ids : List NodeId} (h : d.Linked)
    (hd : d.plant parent T = .ok (ids, d'))
    : d'.Linked ∧ ∀ x, d.contains x → d'.above x = d.above x := by
  induction T generalizing d d' parent ids with
  | nil =>
    cases hd
    exact ⟨h, fun _ _ => rfl⟩
  | cons content children siblings ihc ihs =>
    obtain ⟨id, d₁, inner, d₂, d₃, later, hcreate, h₂, h₃, h₄, rfl⟩ := plant_cons hd
    obtain ⟨h₁, hroot, habove₁⟩ := h.create content
    obtain ⟨hfresh, -⟩ := create_fresh h.reusable content
    rw [hcreate] at h₁ hroot habove₁ hfresh
    obtain ⟨hl₂, habove₂⟩ := ihc h₁ h₂
    have hne : ∀ x, d.contains x → x ≠ id := by
      rintro x hx rfl
      exact Bool.noConfusion (hx.symm.trans hfresh)
    have before : ∀ x, d.contains x → d₂.above x = d.above x := by
      intro x hx
      rw [habove₂, habove₁ x hx]
      rwa [contains_congr (habove₁ x hx)]
    obtain ⟨hl₃, habove₃⟩ : d₃.Linked ∧ ∀ x, x ≠ id → d₃.above x = d₂.above x := by
      rcases h₃ with ⟨-, rfl⟩ | ⟨p, -, h₃⟩
      . exact ⟨hl₂, fun _ _ => rfl⟩
      . obtain ⟨hl₃, -, -, habove₃⟩ :=
          hl₂.link ((habove₂ id (contains_of_above hroot)).trans hroot) h₃
        exact ⟨hl₃, habove₃⟩
    obtain ⟨hl, habove⟩ := ihs hl₃ h₄
    have still : ∀ x, d.contains x → d₃.above x = d.above x :=
      fun x hx => (habove₃ x (hne x hx)).trans (before x hx)
    refine ⟨hl, fun x hx => ?_⟩
    rw [habove x (by rwa [contains_congr (still x hx)]), still x hx]

theorem copy {source : Document} {root : NodeId} (h : d.Linked)
    (hd : d.copy source id = .ok (root, d')) : d'.Linked := by
  obtain ⟨T, later, hplant⟩ := plant_of_copy hd
  exact (h.plant hplant).1

theorem edit (h : d.Linked) (he : d.Edits id d') : d'.Linked := by
  obtain ⟨f, hf⟩ := he.contents
  exact of_links (h.links.relabel f hf) (he.slots.reusable h.reusable)

end Additions

end Linked

section Release

theorem node?_of_release {i : Nat} {n : Node} (hn : (d.release i).node? x = some n)
    : d.node? x = some n := by
  rw [node?_release] at hn
  split at hn
  . cases hn
  . exact hn

theorem above_of_release {i : Nat} {a : Option NodeId} (h : (d.release i).above x = some a)
    : d.above x = some a := by
  obtain ⟨n, hn, ha⟩ := above_eq_some.1 h
  exact above_eq_some.2 ⟨n, node?_of_release hn, ha⟩

theorem siblingsFrom_of_release {i bound : Nat} {start : Option NodeId} {ids : List NodeId}
    (h : (d.release i).siblingsFrom bound start = .ok ids)
    : d.siblingsFrom bound start = .ok ids ∧ ∀ c ∈ ids, (d.release i).contains c := by
  induction bound generalizing start ids with
  | zero =>
    cases start <;> cases h <;> exact ⟨rfl, nofun⟩
  | succ bound ih =>
    cases start with
    | none =>
      cases h
      exact ⟨rfl, nofun⟩
    | some x =>
      obtain ⟨next, hnext, h⟩ := bind_eq_ok.1 h
      obtain ⟨later, hlater, h⟩ := bind_eq_ok.1 h
      cases h
      obtain ⟨n, hn, heq⟩ := bind_eq_ok.1 hnext
      cases heq
      have hn := node_eq_ok.1 hn
      obtain ⟨hsame, hlive⟩ := ih hlater
      constructor
      . simp only [siblingsFrom, nextSibling, node_eq_ok.2 (node?_of_release hn), bind, Except.bind,
          pure, Except.pure, hsame]
      . intro c hc
        rcases List.mem_cons.1 hc with rfl | hc
        . simp [contains, hn]
        . exact hlive c hc

theorem Listed.release (h : d.Listed) (i : Nat) : (d.release i).Listed := by
  intro p ids hids c
  obtain ⟨first, hfirst, hfrom⟩ := bind_eq_ok.1 hids
  obtain ⟨n, hn, heq⟩ := bind_eq_ok.1 hfirst
  cases heq
  obtain ⟨hsame, hlive⟩ := siblingsFrom_of_release hfrom
  have hbound : (d.release i).slots.size = d.slots.size := Array.size_modify
  have hids : d.children p = .ok ids := by
    rw [hbound] at hsame
    simp only [Document.children, firstChild, node_eq_ok.2 (node?_of_release (node_eq_ok.1 hn)), bind,
      Except.bind, pure, Except.pure, hsame]
  constructor
  . intro hc
    have habove := (h hids c).1 hc
    cases hc' : (d.release i).above c with
    | none => exact Bool.noConfusion ((hlive c hc).symm.trans (above_eq_none.1 hc'))
    | some a => rw [← habove, ← above_of_release hc']
  . exact fun hc => (h hids c).2 (above_of_release hc)

/--
On the way up from `x` to `q` the node `id` is not met at all, or it is where the way starts, or it is
met next after one of its children.
-/
theorem within_release (hid : d.contains id) (hw : d.Within x q)
    : q ≠ id ∧ (d.release id.index).Within x q ∨ x = id ∨
        ∃ c, d.above c = some (some id) ∧ (d.release id.index).Within x c := by
  obtain ⟨m, hm⟩ := Option.isSome_iff_exists.1 hid
  induction hw using Relation.ReflTransGen.head_induction_on with
  | refl =>
    by_cases hq : q = id
    . exact .inr (.inl hq)
    . exact .inl ⟨hq, .refl⟩
  | @head x y hstep _ ih =>
    obtain ⟨n, hn, hy⟩ := hstep
    by_cases hx : x = id
    . exact .inr (.inl hx)
    . have hn' : (d.release id.index).node? x = some n := by
        rw [node?_release, if_neg fun hi => hx (eq_of_index_eq hn hm hi), hn]
      rcases ih with ⟨hq, hw⟩ | rfl | ⟨c, hc, hw⟩
      . exact .inl ⟨hq, .head ⟨n, hn', hy⟩ hw⟩
      . exact .inr (.inr ⟨x, above_eq_some.2 ⟨n, hn, hy⟩, .refl⟩)
      . exact .inr (.inr ⟨c, hc, .head ⟨n, hn', hy⟩ hw⟩)

theorem node?_releaseAll {pending : List NodeId} (h : d.Listed) (hd : d.releaseAll pending = .ok d')
    (x : NodeId)
    : ((∃ q ∈ pending, d.Within x q) → d'.node? x = none) ∧
        ((¬ ∃ q ∈ pending, d.Within x q) → d'.node? x = d.node? x) := by
  refine releaseAll_induction (P := fun d pending => d.Listed →
    ((∃ q ∈ pending, d.Within x q) → d'.node? x = none) ∧
      ((¬ ∃ q ∈ pending, d.Within x q) → d'.node? x = d.node? x)) (fun _ => by simp) ?_ hd h
  intro d id pending children n hn hc ih h
  have hid : d.contains id := by simp [contains, hn]
  have hlist := h hc
  obtain ⟨hgone, hkept⟩ := ih (h.release _)
  have hself : x = id → d'.node? x = none := by
    rintro rfl
    by_cases hw : ∃ q ∈ children.reverse ++ pending, (d.release x.index).Within x q
    . exact hgone hw
    . rw [hkept hw, node?_release, if_pos rfl]
  constructor
  . rintro ⟨q, hq, hw⟩
    rcases within_release hid hw with ⟨hne, hw⟩ | rfl | ⟨c, hc, hw⟩
    . exact hgone ⟨q, List.mem_append_right _ ((List.mem_cons.1 hq).resolve_left hne), hw⟩
    . exact hself rfl
    . exact hgone ⟨c, List.mem_append_left _ (List.mem_reverse.2 ((hlist c).2 hc)), hw⟩
  . intro hnot
    have hne : x ≠ id := fun hx => hnot ⟨id, List.mem_cons_self, hx ▸ .refl⟩
    rw [hkept]
    . rw [node?_release]
      split
      . next hi =>
        cases hx : d.node? x with
        | none => rfl
        | some m => exact absurd (eq_of_index_eq hx hn hi) hne
      . rfl
    . rintro ⟨q, hq, hw⟩
      have hw := hw.mono fun _ _ => above_of_release
      rcases List.mem_append.1 hq with hq | hq
      . obtain ⟨m, hm, hp⟩ := above_eq_some.1 ((hlist q).1 (List.mem_reverse.1 hq))
        exact hnot ⟨id, List.mem_cons_self, hw.tail ⟨m, hm, hp⟩⟩
      . exact hnot ⟨q, List.mem_cons_of_mem _ hq, hw⟩

end Release

namespace Linked

theorem within_remove (h : d.Linked) (hd : d.remove id = .ok d') : d'.Within x id ↔ d.Within x id := by
  obtain ⟨-, hroot, habove⟩ := h.remove hd
  constructor
  . refine Within.mono fun y z hyz => ?_
    have hy : y ≠ id := by
      rintro rfl
      cases hroot.symm.trans hyz
    exact (habove y hy).symm.trans hyz
  . intro hw
    induction hw using Relation.ReflTransGen.head_induction_on with
    | refl => exact .refl
    | @head x y hstep _ ih =>
      by_cases hx : x = id
      . subst hx
        exact .refl
      . exact .head (above_eq_some.1 ((habove x hx).trans (above_eq_some.2 hstep))) ih

theorem discard (h : d.Linked) (hd : d.discard id = .ok d')
    : d'.Linked ∧ ∀ x, (d.Within x id → d'.contains x = false) ∧
        (¬ d.Within x id → d'.above x = d.above x) := by
  classical
  obtain ⟨d₁, h₁, hd⟩ := bind_eq_ok.1 hd
  obtain ⟨hl₁, hroot, habove⟩ := h.remove h₁
  have hnode := node?_releaseAll hl₁.listed hd
  simp only [List.mem_singleton, exists_eq_left] at hnode
  constructor
  . refine of_links (hl₁.links.restrict (fun x => d₁.Within x id) ?_ ?_ fun x => ?_)
      (discard_shrinks h.reusable (bind_eq_ok.2 ⟨d₁, h₁, hd⟩)).1
    . intro x m hm hx c hc
      obtain ⟨n, hn, hp⟩ := hl₁.links.of_mem hm hc
      exact .head ⟨n, hn, hp⟩ hx
    . intro x m q hm hx hq
      rcases Relation.ReflTransGen.cases_head hx with rfl | ⟨y, ⟨n, hn, hy⟩, hw⟩
      . cases hroot.symm.trans (above_eq_some.2 ⟨m, hm, hq⟩)
      . cases hm.symm.trans hn
        cases hq.symm.trans hy
        exact hw
    . split
      . next hx => exact (hnode x).1 hx
      . next hx => exact (hnode x).2 hx
  . intro x
    rw [← h.within_remove h₁]
    refine ⟨fun hx => by simp [contains, (hnode x).1 hx], fun hx => ?_⟩
    have hne : x ≠ id := fun heq => hx (heq ▸ .refl)
    rw [← habove x hne, above, (hnode x).2 hx]
    rfl

theorem discardChildren (h : d.Linked) (hd : d.discardChildren p = .ok d')
    : d'.Linked ∧ d'.contains p ∧
        ∀ x, d.contains x → (d'.contains x = false ↔ x ≠ p ∧ d.Within x p) := by
  refine discardChildren_induction (P := fun d => d.Linked → d'.Linked ∧ d'.contains p ∧
    ∀ x, d.contains x → (d'.contains x = false ↔ x ≠ p ∧ d.Within x p)) ?_ ?_ hd h
  . intro hf h
    obtain ⟨hp, hnone⟩ := h.firstChild_eq_ok hf
    refine ⟨h, hp, fun x hx => ?_⟩
    rw [hx]
    refine iff_of_false (by simp) ?_
    rintro ⟨hne, hw⟩
    rcases Relation.ReflTransGen.cases_tail hw with rfl | ⟨c, -, hc⟩
    . exact hne rfl
    . have hmem := (h.mem_kids hp).2 (above_eq_some.2 hc)
      rw [List.head?_eq_none_iff.1 hnone] at hmem
      cases hmem
  . intro d child d₁ hf h₁ hd ih h
    obtain ⟨hl₁, hfreed⟩ := h.discard h₁
    obtain ⟨hl, hp, hlater⟩ := ih hl₁
    refine ⟨hl, hp, fun x hx => ?_⟩
    obtain ⟨hr₁, -⟩ := discard_shrinks h.reusable h₁
    obtain ⟨-, hshrinks⟩ := discardChildren_shrinks hr₁ hd
    obtain ⟨hp₀, hfirst⟩ := h.firstChild_eq_ok hf
    have hchild : d.above child = some (some p) := (h.mem_kids hp₀).1 (List.mem_of_head? hfirst)
    have hpnot : ¬ d.Within p child := by
      intro hw
      rw [hshrinks.not_contains ((hfreed p).1 hw)] at hp
      cases hp
    by_cases hw : d.Within x child
    . have hup : d.Within x p := hw.tail (above_eq_some.1 hchild)
      have hne : x ≠ p := by
        rintro rfl
        exact hpnot hw
      exact iff_of_true (hshrinks.not_contains ((hfreed x).1 hw)) ⟨hne, hup⟩
    . have hx₁ : d₁.contains x := by rwa [contains_congr ((hfreed x).2 hw)]
      rw [hlater x hx₁]
      refine and_congr_right fun _ => ⟨?_, ?_⟩
      . refine Within.mono fun y z hyz => ?_
        by_cases hy : d.Within y child
        . rw [above_eq_none.2 ((hfreed y).1 hy)] at hyz
          cases hyz
        . exact ((hfreed y).2 hy).symm.trans hyz
      . exact within_of_not_within (fun y => (hfreed y).2) hw

end Linked

end VirtualDom.Document
