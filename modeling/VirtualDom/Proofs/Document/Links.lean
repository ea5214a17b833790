import Mathlib.Data.List.Induction
import Mathlib.Data.List.Nodup
import Mathlib.Logic.Function.Basic
import VirtualDom.Document.Tree

/-!
This module contains what the links between nodes mean: lists of children that are linked in both
directions. Taking a node out of its parent and putting it into one are changes of such lists.
-/

namespace VirtualDom.Document

/-- The nodes that `look` finds are linked as lists of children, those of `id` being `kids id`. -/
structure Links (look : NodeId → Option Node) (kids : NodeId → List NodeId) : Prop where
  firstChild : ∀ {id n}, look id = some n → n.firstChild = (kids id).head?
  lastChild : ∀ {id n}, look id = some n → n.lastChild = (kids id).getLast?
  nodup : ∀ {id n}, look id = some n → (kids id).Nodup
  child : ∀ {id n xs c ys}, look id = some n → kids id = xs ++ c :: ys →
    ∃ m, look c = some m ∧ m.parent = some id ∧ m.prevSibling = xs.getLast? ∧
      m.nextSibling = ys.head?
  mem_kids : ∀ {c m p}, look c = some m → m.parent = some p → (∃ n, look p = some n) ∧ c ∈ kids p
  root : ∀ {c m}, look c = some m → m.parent = none → m.prevSibling = none ∧ m.nextSibling = none

namespace Links

variable {look : NodeId → Option Node} {kids : NodeId → List NodeId}

theorem of_mem (h : Links look kids) {id c : NodeId} {n : Node} (hn : look id = some n)
    (hc : c ∈ kids id) : ∃ m, look c = some m ∧ m.parent = some id := by
  obtain ⟨xs, ys, hk⟩ := List.append_of_mem hc
  obtain ⟨m, hm, hp, _⟩ := h.child hn hk
  exact ⟨m, hm, hp⟩

theorem congr {kids' : NodeId → List NodeId} (h : Links look kids)
    (hk : ∀ id n, look id = some n → kids' id = kids id) : Links look kids' where
  firstChild hn := by rw [hk _ _ hn]; exact h.firstChild hn
  lastChild hn := by rw [hk _ _ hn]; exact h.lastChild hn
  nodup hn := by rw [hk _ _ hn]; exact h.nodup hn
  child hn hs := h.child hn (by rw [← hk _ _ hn]; exact hs)
  mem_kids hm hp := by
    obtain ⟨⟨n, hn⟩, hc⟩ := h.mem_kids hm hp
    exact ⟨⟨n, hn⟩, by rwa [hk _ _ hn]⟩
  root := h.root

theorem exists_of_map {look' : NodeId → Option Node} {f : NodeId → Node → Node}
    (hl : ∀ x, look' x = (look x).map (f x)) {x : NodeId} {m : Node} (hm : look' x = some m)
    : ∃ m₀, look x = some m₀ ∧ f x m₀ = m := by
  rw [hl] at hm
  exact Option.map_eq_some_iff.1 hm

theorem relabel {look' : NodeId → Option Node} (h : Links look kids) (f : NodeId → Node → Content)
    (hl : ∀ x, look' x = (look x).map fun m => { m with content := f x m })
    : Links look' kids := by
  constructor
  case firstChild =>
    intro x m' hm'
    obtain ⟨m, hm, rfl⟩ := exists_of_map hl hm'
    exact (h.firstChild hm :)
  case lastChild =>
    intro x m' hm'
    obtain ⟨m, hm, rfl⟩ := exists_of_map hl hm'
    exact (h.lastChild hm :)
  case nodup =>
    intro x m' hm'
    obtain ⟨m, hm, rfl⟩ := exists_of_map hl hm'
    exact h.nodup hm
  case child =>
    intro q m' us c vs hm' hs
    obtain ⟨m, hm, rfl⟩ := exists_of_map hl hm'
    obtain ⟨m, hm, hc⟩ := h.child hm hs
    exact ⟨{ m with content := f c m }, by rw [hl, hm, Option.map_some], hc⟩
  case mem_kids =>
    intro c m' q hm' hq
    obtain ⟨m, hm, rfl⟩ := exists_of_map hl hm'
    obtain ⟨⟨n, hn⟩, hc⟩ := h.mem_kids hm hq
    exact ⟨⟨_, by rw [hl, hn]; rfl⟩, hc⟩
  case root =>
    intro c m' hm' hp
    obtain ⟨m, hm, rfl⟩ := exists_of_map hl hm'
    exact (h.root hm hp :)

end Links

def detached (p id : NodeId) (prev next : Option NodeId) (x : NodeId) (m : Node) : Node where
  content := m.content
  parent := if x = id then none else m.parent
  firstChild := if x = p ∧ prev = none then next else m.firstChild
  lastChild := if x = p ∧ next = none then prev else m.lastChild
  prevSibling := if x = id then none else if next = some x then prev else m.prevSibling
  nextSibling := if x = id then none else if prev = some x then next else m.nextSibling

/-- What becomes of the node `x` when `id` is put between `prev` and `next` in `p`. -/
def attached (p id : NodeId) (prev next : Option NodeId) (x : NodeId) (m : Node) : Node where
  content := m.content
  parent := if x = id then some p else m.parent
  firstChild := if x = p ∧ prev = none then some id else m.firstChild
  lastChild := if x = p ∧ next = none then some id else m.lastChild
  prevSibling := if x = id then prev else if next = some x then some id else m.prevSibling
  nextSibling := if x = id then next else if prev = some x then some id else m.nextSibling

namespace Links

variable {look : NodeId → Option Node} {kids : NodeId → List NodeId}
variable {p id : NodeId} {xs ys : List NodeId}

theorem split_append {α : Type u} {xs ys us vs : List α} {c : α} (h : xs ++ ys = us ++ c :: vs)
    : (∃ as, us = xs ++ as ∧ ys = as ++ c :: vs) ∨ (∃ bs, xs = us ++ c :: bs ∧ vs = bs ++ ys) := by
  obtain ⟨as, rfl, hy⟩ | ⟨bs, rfl, hc⟩ := List.append_eq_append_iff.1 h
  . exact .inl ⟨as, rfl, hy⟩
  . cases bs with
    | nil => exact .inl ⟨[], by simp, by simpa using hc.symm⟩
    | cons b bs =>
      obtain ⟨rfl, rfl⟩ := List.cons.inj hc
      exact .inr ⟨bs, rfl, rfl⟩

variable {look' : NodeId → Option Node}

theorem not_near (h : Links look kids) {pn m : Node} (hp : look p = some pn) (hxs : xs ⊆ kids p)
    (hys : ys ⊆ kids p) {x : NodeId} (hm : look x = some m) (hne : m.parent ≠ some p)
    : ys.head? ≠ some x ∧ xs.getLast? ≠ some x := by
  have hx : x ∉ kids p := by
    intro hx
    obtain ⟨m', hm', hp'⟩ := h.of_mem hp hx
    cases hm.symm.trans hm'
    exact hne hp'
  exact ⟨fun hy => hx (hys (List.mem_of_head? hy)), fun hy => hx (hxs (List.mem_of_getLast? hy))⟩

theorem detach_sibling (h : Links look kids) {pn : Node} (hp : look p = some pn)
    (hk : kids p = xs ++ id :: ys) {us vs : List NodeId} {c : NodeId} (hs : xs ++ ys = us ++ c :: vs)
    : ∃ m, look c = some m ∧ (detached p id xs.getLast? ys.head? c m).parent = some p ∧
        (detached p id xs.getLast? ys.head? c m).prevSibling = us.getLast? ∧
        (detached p id xs.getLast? ys.head? c m).nextSibling = vs.head? := by
  have hnd : (xs ++ id :: ys).Nodup := hk ▸ h.nodup hp
  obtain ⟨as, rfl, rfl⟩ | ⟨bs, rfl, rfl⟩ := split_append hs
  . obtain ⟨m, hm, hmp, hprev, hnext⟩ := h.child hp
      (show kids p = (xs ++ id :: as) ++ c :: vs by simp [hk])
    refine ⟨m, hm, ?_⟩
    have hid : c ≠ id := by rintro rfl; simp [List.nodup_append] at hnd
    have hx : xs.getLast? ≠ some c := by
      intro hx
      have := List.mem_of_getLast? hx
      simp only [List.nodup_append, List.nodup_cons] at hnd
      grind
    cases as with
    | nil => simp [detached, hid, hmp, hx, hnext]
    | cons a as =>
      have ha : a ≠ c := by rintro rfl; simp [List.nodup_append] at hnd
      simp [detached, hid, hmp, hx, hnext, hprev, ha]
  . obtain ⟨m, hm, hmp, hprev, hnext⟩ := h.child hp
      (show kids p = us ++ c :: (bs ++ id :: ys) by simp [hk])
    refine ⟨m, hm, ?_⟩
    have hid : c ≠ id := by rintro rfl; simp [List.nodup_append] at hnd
    have hy : ys.head? ≠ some c := by
      intro hy
      have := List.mem_of_head? hy
      simp only [List.nodup_append, List.nodup_cons] at hnd
      grind
    cases bs using List.reverseRecOn with
    | nil => simp [detached, hid, hmp, hy, hprev]
    | append_singleton bs b =>
      have hb : b ≠ c := by rintro rfl; simp [List.nodup_append] at hnd
      have hlast : (us ++ c :: (bs ++ [b])).getLast? = some b := by
        rw [← List.cons_append, ← List.append_assoc, List.getLast?_concat]
      simp [detached, hid, hmp, hy, hnext, hprev, hlast, hb]

theorem detach (h : Links look kids) {pn : Node} (hp : look p = some pn)
    (hk : kids p = xs ++ id :: ys)
    (hl : ∀ x, look' x = (look x).map (detached p id xs.getLast? ys.head? x))
    : Links look' (Function.update kids p (xs ++ ys)) := by
  have hnd : (xs ++ id :: ys).Nodup := hk ▸ h.nodup hp
  obtain ⟨n, hn, hnp, -⟩ := h.child hp hk
  have hxs : xs ⊆ kids p := by simp [hk]
  have hys : ys ⊆ kids p := by simp [hk]
  constructor
  case firstChild =>
    intro x m' hm'
    obtain ⟨m, hm, rfl⟩ := exists_of_map hl hm'
    have := h.firstChild hm
    by_cases hx : x = p
    . subst hx
      cases xs <;> simp_all [detached]
    . simpa [detached, hx] using this
  case lastChild =>
    intro x m' hm'
    obtain ⟨m, hm, rfl⟩ := exists_of_map hl hm'
    have := h.lastChild hm
    by_cases hx : x = p
    . subst hx
      cases ys <;> simp_all [detached]
    . simpa [detached, hx] using this
  case nodup =>
    intro x m' hm'
    obtain ⟨m, hm, rfl⟩ := exists_of_map hl hm'
    by_cases hx : x = p
    . subst hx
      rw [Function.update_self]
      exact hnd.sublist (by simp)
    . rw [Function.update_of_ne hx]
      exact h.nodup hm
  case child =>
    intro q m' us c vs hm' hs
    obtain ⟨m, hm, rfl⟩ := exists_of_map hl hm'
    by_cases hq : q = p
    . subst hq
      rw [Function.update_self] at hs
      obtain ⟨m, hm, hs⟩ := detach_sibling h hp hk hs
      exact ⟨_, by rw [hl, hm]; rfl, hs⟩
    . rw [Function.update_of_ne hq] at hs
      obtain ⟨m, hm, hmp, hprev, hnext⟩ := h.child hm hs
      refine ⟨_, by rw [hl, hm]; rfl, ?_⟩
      have hid : c ≠ id := by rintro rfl; simp_all
      obtain ⟨h₁, h₂⟩ := h.not_near hp hxs hys hm (by simpa [hmp] using hq)
      simp [detached, hid, h₁, h₂, hmp, hprev, hnext]
  case mem_kids =>
    intro c m' q hm' hq
    obtain ⟨m, hm, rfl⟩ := exists_of_map hl hm'
    have hid : c ≠ id := by rintro rfl; simp [detached] at hq
    obtain ⟨⟨n, hn⟩, hc⟩ := h.mem_kids hm (p := q) (by simpa [detached, hid] using hq)
    refine ⟨⟨_, by rw [hl, hn]; rfl⟩, ?_⟩
    by_cases hqp : q = p
    . subst hqp
      rw [Function.update_self]
      rw [hk] at hc
      simpa [hid] using hc
    . rwa [Function.update_of_ne hqp]
  case root =>
    intro c m' hm' hc
    obtain ⟨m, hm, rfl⟩ := exists_of_map hl hm'
    by_cases hid : c = id
    . simp [detached, hid]
    . have hmp : m.parent = none := by simpa [detached, hid] using hc
      obtain ⟨h₁, h₂⟩ := h.not_near hp hxs hys hm (by simp [hmp])
      simpa [detached, hid, h₁, h₂] using h.root hm hmp

theorem attach_sibling (h : Links look kids) {n pn : Node} (hn : look id = some n)
    (hroot : n.parent = none) (hp : look p = some pn) (hk : kids p = xs ++ ys)
    {us vs : List NodeId} {c : NodeId} (hs : xs ++ id :: ys = us ++ c :: vs)
    : ∃ m, look c = some m ∧ (attached p id xs.getLast? ys.head? c m).parent = some p ∧
        (attached p id xs.getLast? ys.head? c m).prevSibling = us.getLast? ∧
        (attached p id xs.getLast? ys.head? c m).nextSibling = vs.head? := by
  have hnd : (xs ++ ys).Nodup := hk ▸ h.nodup hp
  have hid : ∀ c ∈ kids p, c ≠ id := by
    rintro c hc rfl
    obtain ⟨m, hm, hmp⟩ := h.of_mem hp hc
    simp_all
  obtain ⟨as, rfl, hy⟩ | ⟨bs, rfl, rfl⟩ := split_append hs
  . cases as with
    | nil =>
      obtain ⟨rfl, rfl⟩ := List.cons.inj hy
      exact ⟨n, hn, by simp [attached]⟩
    | cons a as =>
      obtain ⟨rfl, rfl⟩ := List.cons.inj hy
      obtain ⟨m, hm, hmp, hprev, hnext⟩ := h.child hp
        (show kids p = (xs ++ as) ++ c :: vs by simp [hk])
      refine ⟨m, hm, ?_⟩
      have hid : c ≠ id := hid c (by simp [hk])
      have hx : xs.getLast? ≠ some c := by
        intro hx
        have := List.mem_of_getLast? hx
        simp only [List.nodup_append] at hnd
        grind
      cases as using List.reverseRecOn with
      | nil => simp [attached, hid, hmp, hx, hnext]
      | append_singleton as a =>
        have ha : as.head?.getD a ≠ c := by
          intro ha
          have : as.head?.getD a ∈ as ++ [a] := by cases as <;> simp
          simp only [List.nodup_append, List.append_eq] at hnd
          grind
        have hlast : (xs ++ id :: (as ++ [a])).getLast? = some a := by
          rw [← List.cons_append, ← List.append_assoc, List.getLast?_concat]
        simp [attached, hid, hmp, hx, hnext, hprev, hlast, ha]
  . obtain ⟨m, hm, hmp, hprev, hnext⟩ := h.child hp
      (show kids p = us ++ c :: (bs ++ ys) by simp [hk])
    refine ⟨m, hm, ?_⟩
    have hid : c ≠ id := hid c (by simp [hk])
    have hy : ys.head? ≠ some c := by
      intro hy
      have := List.mem_of_head? hy
      simp only [List.nodup_append] at hnd
      grind
    cases bs using List.reverseRecOn with
    | nil => simp [attached, hid, hmp, hy, hprev]
    | append_singleton bs b =>
      have hb : b ≠ c := by rintro rfl; simp [List.nodup_append] at hnd
      have hlast : (us ++ c :: (bs ++ [b])).getLast? = some b := by
        rw [← List.cons_append, ← List.append_assoc, List.getLast?_concat]
      simp [attached, hid, hmp, hy, hnext, hprev, hlast, hb]

theorem attach (h : Links look kids) {n pn : Node} (hn : look id = some n)
    (hroot : n.parent = none) (hp : look p = some pn) (hk : kids p = xs ++ ys)
    (hl : ∀ x, look' x = (look x).map (attached p id xs.getLast? ys.head? x))
    : Links look' (Function.update kids p (xs ++ id :: ys)) := by
  have hxs : xs ⊆ kids p := by simp [hk]
  have hys : ys ⊆ kids p := by simp [hk]
  constructor
  case firstChild =>
    intro x m' hm'
    obtain ⟨m, hm, rfl⟩ := exists_of_map hl hm'
    have := h.firstChild hm
    by_cases hx : x = p
    . subst hx
      cases xs <;> simp_all [attached]
    . simpa [attached, hx] using this
  case lastChild =>
    intro x m' hm'
    obtain ⟨m, hm, rfl⟩ := exists_of_map hl hm'
    have := h.lastChild hm
    by_cases hx : x = p
    . subst hx
      cases ys <;> simp_all [attached]
    . simpa [attached, hx] using this
  case nodup =>
    intro x m' hm'
    obtain ⟨m, hm, rfl⟩ := exists_of_map hl hm'
    have hnd := h.nodup hm
    by_cases hx : x = p
    . subst hx
      rw [Function.update_self]
      rw [hk] at hnd
      apply (List.perm_middle.nodup_iff).2
      refine List.nodup_cons.2 ⟨?_, hnd⟩
      intro hid
      obtain ⟨m', hm', hmp⟩ := h.of_mem hp (hk ▸ hid)
      simp_all
    . rwa [Function.update_of_ne hx]
  case child =>
    intro q m' us c vs hm' hs
    obtain ⟨m, hm, rfl⟩ := exists_of_map hl hm'
    by_cases hq : q = p
    . subst hq
      rw [Function.update_self] at hs
      obtain ⟨m, hm, hs⟩ := attach_sibling h hn hroot hp hk hs
      exact ⟨_, by rw [hl, hm]; rfl, hs⟩
    . rw [Function.update_of_ne hq] at hs
      obtain ⟨m, hm, hmp, hprev, hnext⟩ := h.child hm hs
      refine ⟨_, by rw [hl, hm]; rfl, ?_⟩
      have hid : c ≠ id := by rintro rfl; simp_all
      obtain ⟨h₁, h₂⟩ := h.not_near hp hxs hys hm (by simpa [hmp] using hq)
      simp [attached, hid, h₁, h₂, hmp, hprev, hnext]
  case mem_kids =>
    intro c m' q hm' hq
    obtain ⟨m, hm, rfl⟩ := exists_of_map hl hm'
    by_cases hid : c = id
    . have hqp : p = q := by simpa [attached, hid] using hq
      subst hid hqp
      exact ⟨⟨_, by rw [hl, hp]; rfl⟩, by simp⟩
    . obtain ⟨⟨n, hn⟩, hc⟩ := h.mem_kids hm (p := q) (by simpa [attached, hid] using hq)
      refine ⟨⟨_, by rw [hl, hn]; rfl⟩, ?_⟩
      by_cases hqp : q = p
      . subst hqp
        rw [Function.update_self]
        rw [hk] at hc
        simp at hc ⊢
        tauto
      . rwa [Function.update_of_ne hqp]
  case root =>
    intro c m' hm' hc
    obtain ⟨m, hm, rfl⟩ := exists_of_map hl hm'
    by_cases hid : c = id
    . simp [attached, hid] at hc
    . have hmp : m.parent = none := by simpa [attached, hid] using hc
      obtain ⟨h₁, h₂⟩ := h.not_near hp hxs hys hm (by simp [hmp])
      simpa [attached, hid, h₁, h₂] using h.root hm hmp

theorem add (h : Links look kids) {content : Content} (hfree : look id = none)
    (hl : ∀ x, look' x = if x = id then some { content } else look x)
    : Links look' (Function.update kids id []) := by
  have inv : ∀ {x m}, x ≠ id → look' x = some m → look x = some m := by
    intro x m hx hm
    simpa [hl, hx] using hm
  have new : ∀ {m}, look' id = some m → m = { content } := by
    intro m hm
    simpa [hl] using hm.symm
  have old : ∀ {x m}, look x = some m → x ≠ id ∧ look' x = some m := by
    intro x m hm
    have hx : x ≠ id := by rintro rfl; simp_all
    exact ⟨hx, by simp [hl, hx, hm]⟩
  constructor
  case firstChild =>
    intro x m hm
    by_cases hx : x = id
    . subst hx
      simp [new hm]
    . simpa [hx] using h.firstChild (inv hx hm)
  case lastChild =>
    intro x m hm
    by_cases hx : x = id
    . subst hx
      simp [new hm]
    . simpa [hx] using h.lastChild (inv hx hm)
  case nodup =>
    intro x m hm
    by_cases hx : x = id
    . simp [hx]
    . simpa [hx] using h.nodup (inv hx hm)
  case child =>
    intro q m us c vs hm hs
    by_cases hq : q = id
    . subst hq
      simp at hs
    . obtain ⟨m, hm, hc⟩ := h.child (inv hq hm) (by simpa [hq] using hs)
      exact ⟨m, (old hm).2, hc⟩
  case mem_kids =>
    intro c m q hm hq
    have hc : c ≠ id := by
      rintro rfl
      simp [new hm] at hq
    obtain ⟨⟨n, hn⟩, hk⟩ := h.mem_kids (inv hc hm) hq
    exact ⟨⟨n, (old hn).2⟩, by simpa [(old hn).1] using hk⟩
  case root =>
    intro c m hm hp
    by_cases hc : c = id
    . subst hc
      simp [new hm]
    . exact h.root (inv hc hm) hp

theorem restrict (h : Links look kids) (gone : NodeId → Prop) [DecidablePred gone]
    (hdown : ∀ x m, look x = some m → gone x → ∀ c ∈ kids x, gone c)
    (hup : ∀ x m q, look x = some m → gone x → m.parent = some q → gone q)
    (hl : ∀ x, look' x = if gone x then none else look x)
    : Links look' kids := by
  have inv : ∀ {x m}, look' x = some m → ¬ gone x ∧ look x = some m := by
    intro x m hm
    by_cases hx : gone x <;> simp_all
  constructor
  case firstChild =>
    intro x m hm
    exact h.firstChild (inv hm).2
  case lastChild =>
    intro x m hm
    exact h.lastChild (inv hm).2
  case nodup =>
    intro x m hm
    exact h.nodup (inv hm).2
  case child =>
    intro q m us c vs hm hs
    obtain ⟨hq, hm⟩ := inv hm
    obtain ⟨m, hc, hp⟩ := h.child hm hs
    have : ¬ gone c := fun hg => hq (hup c m q hc hg hp.1)
    exact ⟨m, by simp [hl, this, hc], hp⟩
  case mem_kids =>
    intro c m q hm hq
    obtain ⟨hc, hm⟩ := inv hm
    obtain ⟨⟨n, hn⟩, hk⟩ := h.mem_kids hm hq
    have : ¬ gone q := fun hg => hc (hdown q n hn hg c hk)
    exact ⟨⟨n, by simp [hl, this, hn]⟩, hk⟩
  case root =>
    intro c m hm
    exact h.root (inv hm).2

end Links

end VirtualDom.Document
