import VirtualDom.Document.Content
import VirtualDom.Proofs.Document.WellFormed

/-!
This module contains what creating, linking, unlinking and writing nodes does to a well-formed
document: which nodes have which parents, children and content afterwards.
-/

namespace VirtualDom.Document

structure Standing where
  parent : Option NodeId
  children : List NodeId
  content : Content

def standing? (d : Document) (id : NodeId) : Option Standing :=
  (d.node? id).map fun n => ⟨n.parent, d.kids id, n.content⟩

def Within (d : Document) : NodeId → NodeId → Prop :=
  Relation.ReflTransGen fun x y => ∃ n, d.node? x = some n ∧ n.parent = some y

section Standing

variable {d : Document} {id : NodeId}

theorem standing?_eq_some {a : Option NodeId} {ks : List NodeId} {c : Content}
    : d.standing? id = some ⟨a, ks, c⟩ ↔
      ∃ n, d.node? id = some n ∧ n.parent = a ∧ d.kids id = ks ∧ n.content = c := by
  unfold standing?
  rw [Option.map_eq_some_iff]
  constructor
  . rintro ⟨n, hn, hs⟩
    cases hs
    exact ⟨n, hn, rfl, rfl, rfl⟩
  . rintro ⟨n, hn, rfl, rfl, rfl⟩
    exact ⟨n, hn, rfl⟩

theorem standing?_of_node? {n : Node} (hn : d.node? id = some n)
    : d.standing? id = some ⟨n.parent, d.kids id, n.content⟩ := by
  simp [standing?, hn]

theorem standing?_eq_none : d.standing? id = none ↔ d.node? id = none := by
  simp [standing?]

variable {a : Option NodeId} {ks : List NodeId} {c : Content} {x p : NodeId}

theorem WellFormed.standing?_child (h : d.WellFormed) (hs : d.standing? id = some ⟨a, ks, c⟩)
    (hx : x ∈ ks) : ∃ ls e, d.standing? x = some ⟨some id, ls, e⟩ := by
  obtain ⟨n, hn, -, rfl, -⟩ := standing?_eq_some.1 hs
  obtain ⟨m, hm, hp⟩ := h.links.of_mem hn hx
  exact ⟨_, _, standing?_eq_some.2 ⟨m, hm, hp, rfl, rfl⟩⟩

theorem WellFormed.standing?_parent (h : d.WellFormed) (hs : d.standing? id = some ⟨some p, ks, c⟩)
    : ∃ b ls e, d.standing? p = some ⟨b, ls, e⟩ ∧ id ∈ ls := by
  obtain ⟨n, hn, hp, -, -⟩ := standing?_eq_some.1 hs
  obtain ⟨⟨m, hm⟩, hx⟩ := h.links.mem_kids hn hp
  exact ⟨_, _, _, standing?_of_node? hm, hx⟩

theorem WellFormed.nodup_children (h : d.WellFormed) (hs : d.standing? id = some ⟨a, ks, c⟩)
    : ks.Nodup := by
  obtain ⟨n, hn, -, rfl, -⟩ := standing?_eq_some.1 hs
  exact h.links.nodup hn

theorem WellFormed.children_of_standing? (h : d.WellFormed) (hs : d.standing? id = some ⟨a, ks, c⟩)
    : d.children id = .ok ks := by
  obtain ⟨n, hn, -, rfl, -⟩ := standing?_eq_some.1 hs
  exact h.children hn

theorem WellFormed.parent_ne (h : d.WellFormed) (hs : d.standing? id = some ⟨some p, ks, c⟩)
    : p ≠ id := by
  obtain ⟨n, hn, hp, -, -⟩ := standing?_eq_some.1 hs
  obtain ⟨height, hh⟩ := h.acyclic
  rintro rfl
  exact Nat.lt_irrefl _ (hh hn hp)

theorem height_le_of_within (height : NodeId → Nat)
    (hh : ∀ {c m p}, d.node? c = some m → m.parent = some p → height c < height p)
    {x y : NodeId} (hw : d.Within x y) : height x ≤ height y := by
  induction hw with
  | refl => exact Nat.le_refl _
  | tail _ hz ih =>
    obtain ⟨n, hn, hp⟩ := hz
    exact Nat.le_trans ih (Nat.le_of_lt (hh hn hp))

theorem not_within_sibling {height : NodeId → Nat}
    (hh : ∀ {c m p}, d.node? c = some m → m.parent = some p → height c < height p)
    {x y : NodeId} {ls : List NodeId} {e : Content} (hid : d.standing? id = some ⟨a, ks, c⟩)
    (hy : d.standing? y = some ⟨a, ls, e⟩) (hne : y ≠ id) (hw : d.Within x id)
    : ¬ d.Within x y := by
  intro hw'
  -- of two siblings, neither is within the other, since their parent would be within it too
  have apart : ∀ {u v : NodeId} {ls ls' : List NodeId} {e e' : Content},
      d.standing? u = some ⟨a, ls, e⟩ → d.standing? v = some ⟨a, ls', e'⟩ → u ≠ v →
      ¬ d.Within u v := by
    intro u v ls ls' e e' hu hv huv hw
    obtain ⟨n, hn, hnp, -⟩ := standing?_eq_some.1 hu
    obtain ⟨m, hm, hmp, -⟩ := standing?_eq_some.1 hv
    rcases Relation.ReflTransGen.cases_head hw with rfl | ⟨q, ⟨n', hn', hq⟩, hw⟩
    . exact huv rfl
    . cases hn.symm.trans hn'
      have := hh hm (hmp.trans (hnp.symm.trans hq))
      have := height_le_of_within height hh hw
      omega
  have huniq : Relator.RightUnique fun x y => ∃ n, d.node? x = some n ∧ n.parent = some y := by
    rintro u v w ⟨n, hn, hv⟩ ⟨m, hm, hw⟩
    cases hn.symm.trans hm
    exact Option.some.inj (hv.symm.trans hw)
  rcases Relation.ReflTransGen.total_of_right_unique huniq hw hw' with h | h
  . exact apart hid hy hne.symm h
  . exact apart hy hid hne h

end Standing

theorem Reusable.node?_create {d : Document} (h : d.Reusable) (content : Content)
    : d.node? (d.create content).1 = none ∧
      ∀ x, (d.create content).2.node? x
        = if x = (d.create content).1 then some { content } else d.node? x := by
  unfold Document.create
  cases hf : d.free with
  | nil =>
    constructor
    . simp [node?]
    . intro x
      obtain ⟨i, g⟩ := x
      simp only [node?, Array.getElem?_push, NodeId.mk.injEq]
      by_cases hi : i = d.slots.size
      . subst hi
        by_cases hg : (0 : UInt32) = g <;> simp [hg, eq_comm (a := g)]
      . simp [hi]
  | cons i free =>
    obtain ⟨g, hg⟩ := h.empty i (by simp [hf])
    simp only [hg, Option.map_some, Option.getD_some]
    constructor
    . simp [node?, hg]
    . intro x
      obtain ⟨j, g'⟩ := x
      simp only [node?, Array.getElem?_modify, NodeId.mk.injEq]
      by_cases hj : i = j
      . subst hj
        by_cases hg' : g = g' <;> simp [hg, hg', eq_comm (a := g')]
      . simp [hj, Ne.symm hj]

namespace WellFormed

variable {d : Document} {p id : NodeId} {xs ys ks : List NodeId} {c cp : Content}
  {a : Option NodeId}

theorem of_sameSlots {d' : Document} {kids : NodeId → List NodeId} (h : d.WellFormed)
    (hs : d.SameSlots d') (hl : Links d'.node? kids)
    (hacyc : ∃ height : NodeId → Nat,
      ∀ {c m p}, d'.node? c = some m → m.parent = some p → height c < height p)
    : d'.WellFormed := by
  apply hl.wellFormed hacyc
  . rw [hs.free]
    exact h.free_nodup
  . intro i
    rw [hs.free, h.mem_free]
    simp only [hs.empty]

theorem unlink_root (hid : d.standing? id = some ⟨none, ks, c⟩) : d.unlink id = .ok (d, false) := by
  obtain ⟨n, hn, hnp, -, -⟩ := standing?_eq_some.1 hid
  simp only [Document.unlink, node_eq_ok.2 hn, bind, Except.bind, hnp]
  rfl

theorem unlink (h : d.WellFormed) (hid : d.standing? id = some ⟨some p, ks, c⟩)
    (hp : d.standing? p = some ⟨a, xs ++ id :: ys, cp⟩)
    : ∃ d', d.unlink id = .ok (d', true) ∧ d'.WellFormed ∧ d.SameSlots d' ∧ d'.tally = d.tally ∧
        ∀ x, d'.standing? x = if x = id then some ⟨none, ks, c⟩
          else if x = p then some ⟨a, xs ++ ys, cp⟩ else d.standing? x := by
  obtain ⟨n, hn, hnp, hnk, hnc⟩ := standing?_eq_some.1 hid
  obtain ⟨pn, hpn, hpp, hpk, hpc⟩ := standing?_eq_some.1 hp
  have hne := h.parent_ne hid
  obtain ⟨d', hd', hs, ht, hl⟩ := h.links.unlink_eq hpn hpk
  have hlinks := h.links.detach hpn hpk hl
  have hacyc : ∃ height : NodeId → Nat,
      ∀ {c m p}, d'.node? c = some m → m.parent = some p → height c < height p := by
    obtain ⟨height, hh⟩ := h.acyclic
    refine ⟨height, ?_⟩
    intro x m' q hm' hq
    rw [hl] at hm'
    obtain ⟨m, hm, rfl⟩ := Option.map_eq_some_iff.1 hm'
    apply hh hm
    by_cases hx : x = id <;> simp [detached, hx] at hq
    exact hq
  refine ⟨d', hd', h.of_sameSlots hs hlinks hacyc, hs, ht, ?_⟩
  intro x
  cases hx : d.node? x with
  | none =>
    have hxi : x ≠ id := by rintro rfl; simp_all
    have hxp : x ≠ p := by rintro rfl; simp_all
    simp [standing?, hl, hx, hxi, hxp]
  | some m =>
    have hm : d'.node? x = some (detached p id xs.getLast? ys.head? x m) := by rw [hl, hx]; rfl
    rw [standing?_of_node? hm, hlinks.kids_eq hm]
    by_cases hxi : x = id
    . subst hxi
      cases hn.symm.trans hx
      simp [detached, Function.update_of_ne hne.symm, hnk, hnc]
    . by_cases hxp : x = p
      . subst hxp
        cases hpn.symm.trans hx
        simp [detached, hxi, hpp, hpc]
      . simp [detached, hxi, hxp, standing?, hx]

/-- What is within `id`, where it is still a root, gets above everything from `p` on up. -/
theorem acyclic_attach {d' : Document} (h : d.WellFormed) {prev next : Option NodeId}
    (hw : ¬ d.Within p id) (hl : ∀ x, d'.node? x = (d.node? x).map (attached p id prev next x))
    : ∃ height : NodeId → Nat,
      ∀ {c m p}, d'.node? c = some m → m.parent = some p → height c < height p := by
  classical
  obtain ⟨height, hh⟩ := h.acyclic
  refine ⟨fun x => height x + if d.Within p x then height id + 1 else 0, ?_⟩
  intro x m' q hm' hq
  rw [hl] at hm'
  obtain ⟨m, hm, rfl⟩ := Option.map_eq_some_iff.1 hm'
  by_cases hx : x = id
  . have hqp : p = q := by simpa [attached, hx] using hq
    subst hx hqp
    have hpp : d.Within p p := Relation.ReflTransGen.refl
    dsimp only
    rw [if_neg hw, if_pos hpp]
    omega
  . have hmq : m.parent = some q := by simpa [attached, hx] using hq
    have hlt := hh hm hmq
    dsimp only
    by_cases hpx : d.Within p x
    . have hpq : d.Within p q := hpx.tail ⟨m, hm, hmq⟩
      rw [if_pos hpx, if_pos hpq]
      omega
    . rw [if_neg hpx]
      split <;> omega

theorem link (h : d.WellFormed) (hid : d.standing? id = some ⟨none, ks, c⟩)
    (hp : d.standing? p = some ⟨a, xs ++ ys, cp⟩) (hw : ¬ d.Within p id)
    : ∃ d', d.link p id ys.head? = .ok d' ∧ d'.WellFormed ∧ d.SameSlots d' ∧ d'.tally = d.tally ∧
        ∀ x, d'.standing? x = if x = id then some ⟨some p, ks, c⟩
          else if x = p then some ⟨a, xs ++ id :: ys, cp⟩ else d.standing? x := by
  obtain ⟨n, hn, hnp, hnk, hnc⟩ := standing?_eq_some.1 hid
  obtain ⟨pn, hpn, hpp, hpk, hpc⟩ := standing?_eq_some.1 hp
  have hne : p ≠ id := by
    rintro rfl
    exact hw Relation.ReflTransGen.refl
  obtain ⟨d', hd', hs, ht, hl⟩ := h.links.link_eq hn hnp hpn hpk
  have hlinks := h.links.attach hn hnp hpn hpk hl
  refine ⟨d', hd', h.of_sameSlots hs hlinks (h.acyclic_attach hw hl), hs, ht, ?_⟩
  intro x
  cases hx : d.node? x with
  | none =>
    have hxi : x ≠ id := by rintro rfl; simp_all
    have hxp : x ≠ p := by rintro rfl; simp_all
    simp [standing?, hl, hx, hxi, hxp]
  | some m =>
    have hm : d'.node? x = some (attached p id xs.getLast? ys.head? x m) := by rw [hl, hx]; rfl
    rw [standing?_of_node? hm, hlinks.kids_eq hm]
    by_cases hxi : x = id
    . subst hxi
      cases hn.symm.trans hx
      simp [attached, Function.update_of_ne hne.symm, hnk, hnc]
    . by_cases hxp : x = p
      . subst hxp
        cases hpn.symm.trans hx
        simp [attached, hxi, hpp, hpc]
      . simp [attached, hxi, hxp, standing?, hx]

theorem setContent (h : d.WellFormed) (hid : d.standing? id = some ⟨a, ks, c⟩) (c' : Content)
    : (d.setContent id c').WellFormed ∧ d.SameSlots (d.setContent id c') ∧
        ∀ x, (d.setContent id c').standing? x
          = if x = id then some ⟨a, ks, c'⟩ else d.standing? x := by
  obtain ⟨n, hn, hnp, hnk, hnc⟩ := standing?_eq_some.1 hid
  have hl : ∀ x, (d.setContent id c').node? x
      = (d.node? x).map fun m => { m with content := if x = id then c' else m.content } := by
    intro x
    rw [Document.setContent, node?_modify]
    split <;> cases d.node? x <;> simp
  have hlinks := h.links.relabel _ hl
  have hacyc : ∃ height : NodeId → Nat, ∀ {c m p}, (d.setContent id c').node? c = some m →
      m.parent = some p → height c < height p := by
    obtain ⟨height, hh⟩ := h.acyclic
    refine ⟨height, ?_⟩
    intro x m' q hm' hq
    rw [hl] at hm'
    obtain ⟨m, hm, rfl⟩ := Option.map_eq_some_iff.1 hm'
    exact hh hm hq
  have hs := SameSlots.modify d id ({ · with content := c' })
  refine ⟨h.of_sameSlots hs hlinks hacyc, hs, ?_⟩
  intro x
  cases hx : d.node? x with
  | none =>
    have hxi : x ≠ id := by rintro rfl; simp_all
    simp [standing?, hl, hx, hxi]
  | some m =>
    have hm := hl x
    rw [hx, Option.map_some] at hm
    rw [standing?_of_node? hm, hlinks.kids_eq hm]
    by_cases hxi : x = id
    . subst hxi
      cases hn.symm.trans hx
      simp [hnp, hnk]
    . simp [hxi, standing?, hx]

theorem of_slots_eq {d' : Document} (h : d.WellFormed) (hslots : d'.slots = d.slots)
    (hfree : d'.free = d.free)
    : d'.WellFormed ∧ d.SameSlots d' ∧ ∀ x, d'.standing? x = d.standing? x := by
  have hs : d.SameSlots d' := ⟨by rw [hslots], hfree, fun _ _ => by rw [hslots]⟩
  have hnode : d'.node? = d.node? := by
    funext x
    unfold node?
    rw [hslots]
  have hl : Links d'.node? d.kids := hnode ▸ h.links
  refine ⟨h.of_sameSlots hs hl (hnode ▸ h.acyclic), hs, ?_⟩
  intro x
  cases hx : d.node? x with
  | none =>
    have hx' : d'.node? x = none := hnode ▸ hx
    rw [standing?_eq_none.2 hx, standing?_eq_none.2 hx']
  | some m =>
    have hx' : d'.node? x = some m := hnode ▸ hx
    rw [standing?_of_node? hx, standing?_of_node? hx', hl.kids_eq hx']

theorem withTally (h : d.WellFormed) (tally : Tally)
    : WellFormed { d with tally } ∧ d.SameSlots { d with tally } ∧
        ∀ x, standing? { d with tally } x = d.standing? x :=
  h.of_slots_eq rfl rfl

section Create

theorem length_free_le (h : d.WellFormed) : d.free.length ≤ d.slots.size := by
  have hsub : d.free ⊆ List.range d.slots.size := by
    intro i hi
    obtain ⟨g, hg⟩ := (h.mem_free i).1 hi
    exact List.mem_range.2 (Array.getElem?_eq_some_iff.1 hg).1
  simpa using h.free_nodup.length_le_of_subset hsub

theorem free_create (content : Content) : (d.create content).2.free = d.free.tail := by
  unfold Document.create
  cases d.free <;> simp

theorem mem_free_create (h : d.WellFormed) (content : Content) (i : Nat)
    : i ∈ (d.create content).2.free
      ↔ ∃ g, (d.create content).2.slots[i]? = some ⟨g, none⟩ := by
  unfold Document.create
  cases hf : d.free with
  | nil =>
    have hmem := h.mem_free i
    rw [hf] at hmem
    simp only [Array.getElem?_push]
    split
    . next hi =>
      subst hi
      simp
    . exact hmem
  | cons j free =>
    have hmem := h.mem_free i
    have hnd := h.free_nodup
    rw [hf, List.nodup_cons] at hnd
    rw [hf, List.mem_cons] at hmem
    simp only [Array.getElem?_modify]
    split
    . next hj =>
      subst hj
      cases d.slots[j]? <;> simp [hnd.1]
    . next hj => simpa [Ne.symm hj] using hmem

theorem create (h : d.WellFormed) (content : Content)
    : ∃ id d', d.create content = (id, d') ∧ d'.WellFormed ∧ d.standing? id = none ∧
        ∀ x, d'.standing? x = if x = id then some ⟨none, [], content⟩ else d.standing? x := by
  obtain ⟨hfree, hl⟩ := h.reusable.node?_create content
  refine ⟨(d.create content).1, (d.create content).2, rfl, ?_, standing?_eq_none.2 hfree, ?_⟩
  . apply (h.links.add hfree hl).wellFormed
    . obtain ⟨height, hh⟩ := h.acyclic
      refine ⟨height, ?_⟩
      intro x m p hm hp
      rw [hl] at hm
      split at hm
      . cases hm
        cases hp
      . exact hh hm hp
    . rw [free_create content]
      exact h.free_nodup.sublist (List.tail_sublist _)
    . exact h.mem_free_create content
  . intro x
    have hlinks := h.links.add hfree hl
    unfold standing?
    cases hx : (d.create content).2.node? x with
    | none =>
      rw [hl] at hx
      split at hx
      . cases hx
      . next hxi => simp [hxi, hx]
    | some m =>
      rw [hlinks.kids_eq hx]
      rw [hl] at hx
      split at hx
      . next hxi =>
        cases hx
        simp [hxi]
      . next hxi => simp [hxi, hx]

end Create

section Insert

theorem within_of_parent {d' : Document} {x y : NodeId}
    (h : ∀ {z m q}, d'.node? z = some m → m.parent = some q →
      ∃ n, d.node? z = some n ∧ n.parent = some q)
    (hw : d'.Within x y) : d.Within x y := by
  induction hw with
  | refl => exact Relation.ReflTransGen.refl
  | tail _ hz ih =>
    obtain ⟨m, hm, hq⟩ := hz
    exact ih.tail (h hm hq)

theorem within_of_standing? {d' : Document} {x y : NodeId}
    (h : ∀ {z q ls e}, d'.standing? z = some ⟨some q, ls, e⟩ →
      ∃ ls e, d.standing? z = some ⟨some q, ls, e⟩)
    (hw : d'.Within x y) : d.Within x y := by
  apply within_of_parent _ hw
  intro z m q hm hq
  obtain ⟨ls, e, hz⟩ := h (standing?_eq_some.2 ⟨m, hm, hq, rfl, rfl⟩)
  obtain ⟨n, hn, hnq, -⟩ := standing?_eq_some.1 hz
  exact ⟨n, hn, hnq⟩

theorem insertBefore_of_unlink {d₁ : Document} {attached : Bool} {reference : Option NodeId}
    (hun : d.unlink id = .ok (d₁, attached)) (h : d₁.WellFormed)
    (hid : d₁.standing? id = some ⟨none, ks, c⟩) (hp : d₁.standing? p = some ⟨a, xs ++ ys, cp⟩)
    (hr : reference = ys.head?) (hne : reference ≠ some id) (hw : ¬ d₁.Within p id)
    : ∃ d', d.insertBefore p id reference = .ok d' ∧ d'.WellFormed ∧ d₁.SameSlots d' ∧
        ∀ x, d'.standing? x = if x = id then some ⟨some p, ks, c⟩
          else if x = p then some ⟨a, xs ++ id :: ys, cp⟩ else d₁.standing? x := by
  subst hr
  let tally :=
    if attached then { d₁.tally with moved := d₁.tally.moved + 1 }
    else { d₁.tally with inserted := d₁.tally.inserted + 1 }
  obtain ⟨ht, hst, hs⟩ := h.withTally tally
  have hw' : ¬ Within { d₁ with tally } p id := by
    intro hw'
    apply hw
    apply within_of_standing? _ hw'
    intro z q ls e hz
    rw [hs] at hz
    exact ⟨_, _, hz⟩
  obtain ⟨d', hd', hwf, hss, -, hx⟩ := ht.link (by rw [hs]; exact hid) (by rw [hs]; exact hp) hw'
  refine ⟨d', ?_, hwf, hst.trans hss, ?_⟩
  . rw [insertBefore, if_neg hne, hun]
    exact hd'
  . intro x
    rw [hx, hs]

theorem insertBefore_root (h : d.WellFormed) (hid : d.standing? id = some ⟨none, ks, c⟩)
    (hp : d.standing? p = some ⟨a, xs ++ ys, cp⟩) (hw : ¬ d.Within p id)
    : ∃ d', d.insertBefore p id ys.head? = .ok d' ∧ d'.WellFormed ∧ d.SameSlots d' ∧
        ∀ x, d'.standing? x = if x = id then some ⟨some p, ks, c⟩
          else if x = p then some ⟨a, xs ++ id :: ys, cp⟩ else d.standing? x := by
  apply insertBefore_of_unlink (unlink_root hid) h hid hp rfl _ hw
  intro hy
  obtain ⟨_, _, hs⟩ := h.standing?_child (x := id) hp (by simp [List.mem_of_head? hy])
  simp_all

theorem insertBefore_sibling {us vs : List NodeId} (h : d.WellFormed)
    (hid : d.standing? id = some ⟨some p, ks, c⟩)
    (hp : d.standing? p = some ⟨a, us ++ id :: vs, cp⟩) (hs : us ++ vs = xs ++ ys)
    : ∃ d', d.insertBefore p id ys.head? = .ok d' ∧ d'.WellFormed ∧ d.SameSlots d' ∧
        ∀ x, d'.standing? x =
          if x = p then some ⟨a, xs ++ id :: ys, cp⟩ else d.standing? x := by
  obtain ⟨d₁, hun, hwf, hss, -, hx⟩ := h.unlink hid hp
  have hne := h.parent_ne hid
  have hnd := h.nodup_children hp
  have hr : ys.head? ≠ some id := by
    intro hy
    have : id ∈ us ++ vs := by simp [hs, List.mem_of_head? hy]
    rw [(List.perm_middle).nodup_iff, List.nodup_cons] at hnd
    exact hnd.1 this
  -- Heights of the document before still fit, as nothing has come under another node since.
  have hw : ¬ d₁.Within p id := by
    intro hw
    obtain ⟨height, hh⟩ := h.acyclic
    obtain ⟨n, hn, hnp, -⟩ := standing?_eq_some.1 hid
    have hlt := hh hn hnp
    have hle : height p ≤ height id := by
      apply height_le_of_within height hh
      apply within_of_standing? _ hw
      intro z q ls e hz
      rw [hx] at hz
      split at hz
      . cases hz
      . split at hz
        . cases hz
          next hzp =>
          subst hzp
          exact ⟨_, _, hp⟩
        . exact ⟨_, _, hz⟩
    omega
  obtain ⟨d', hd', hwf', hss', hx'⟩ := insertBefore_of_unlink hun hwf
    (show d₁.standing? id = some ⟨none, ks, c⟩ by rw [hx, if_pos rfl])
    (by rw [hx, if_neg hne, if_pos rfl, hs]) rfl hr hw
  refine ⟨d', hd', hwf', hss.trans hss', ?_⟩
  intro x
  rw [hx', hx]
  by_cases hxi : x = id
  . subst hxi
    simp [hne.symm, hid]
  . simp only [if_neg hxi]
    split <;> rfl

end Insert

end WellFormed

end VirtualDom.Document
