import Mathlib.Algebra.Group.Nat.Defs
import Mathlib.Data.List.Induction
import Mathlib.Data.List.Nodup
import VirtualDom.Document.NodeId

/-!
This module contains logs of what happens to ids. When a slot is filled and emptied in turns, and an id
has the number of times that its slot was emptied as its generation, an id comes back only after a full
round of the generations.
-/

namespace VirtualDom.Document

inductive Fate where
  | issued (id : NodeId)
  | freed (id : NodeId)
  | written (id : NodeId)

namespace Fate

def issued? : Fate → Option NodeId
  | .issued id => some id
  | _ => none

def empties (i : Nat) : Fate → Bool
  | .freed id => id.index = i
  | _ => false

def holder (i : Nat) (before : Option NodeId) : Fate → Option NodeId
  | .issued id => if id.index = i then some id else before
  | .freed id => if id.index = i then none else before
  | .written _ => before

end Fate

def issues (log : List Fate) : List NodeId :=
  log.filterMap Fate.issued?

def frees (i : Nat) (log : List Fate) : Nat :=
  log.countP (Fate.empties i)

def holder (i : Nat) (log : List Fate) : Option NodeId :=
  log.foldl (Fate.holder i) none

/--
Slots are filled when they are empty and emptied when they are filled, and the generation of an id
counts how many times its slot was emptied.
-/
inductive Sound : List Fate → Prop
  | nil : Sound []
  | issued {log : List Fate} {id : NodeId} (sound : Sound log) (empty : holder id.index log = none)
      (generation : id.generation = UInt32.ofNat (frees id.index log)) : Sound (log ++ [.issued id])
  | freed {log : List Fate} {id : NodeId} (sound : Sound log)
      (filled : holder id.index log = some id) : Sound (log ++ [.freed id])
  | written {log : List Fate} {id : NodeId} (sound : Sound log) : Sound (log ++ [.written id])

section Fates

variable {log : List Fate} {i : Nat} {id : NodeId}

theorem holder_append (a b : List Fate) : holder i (a ++ b) = b.foldl (Fate.holder i) (holder i a) :=
  List.foldl_append

theorem frees_append (a b : List Fate) : frees i (a ++ b) = frees i a + frees i b :=
  List.countP_append

theorem frees_cons_issued (x : NodeId) (b : List Fate) : frees i (.issued x :: b) = frees i b :=
  rfl

theorem issues_append (a b : List Fate) : issues (a ++ b) = issues a ++ issues b :=
  List.filterMap_append

theorem mem_issues : id ∈ issues log ↔ .issued id ∈ log := by
  unfold issues
  rw [List.mem_filterMap]
  constructor
  . rintro ⟨f, hf, hid⟩
    cases f with
    | issued x =>
      cases hid
      exact hf
    | freed x | written x => cases hid
  . exact fun h => ⟨_, h, rfl⟩

theorem isSome_holder {before : Option NodeId} (hbefore : before.isSome) (hfrees : frees i log = 0)
    : (log.foldl (Fate.holder i) before).isSome := by
  induction log generalizing before with
  | nil => exact hbefore
  | cons f log ih =>
    have hcons : frees i (f :: log) = frees i log + if f.empties i then 1 else 0 := List.countP_cons
    rw [hcons] at hfrees
    apply ih _ (by omega)
    cases f with
    | issued x =>
      simp only [Fate.holder]
      split
      . rfl
      . exact hbefore
    | freed x =>
      simp only [Fate.holder]
      split
      . next hx => simp [Fate.empties, hx] at hfrees
      . exact hbefore
    | written x => exact hbefore

theorem frees_freed (ids : List NodeId)
    : frees i (ids.map .freed) = (ids.map NodeId.index).count i := by
  unfold frees
  rw [List.countP_map, List.count_eq_countP, List.countP_map]
  rfl

theorem frees_issued (ids : List NodeId) : frees i (ids.map .issued) = 0 := by
  unfold frees
  rw [List.countP_map]
  exact List.countP_eq_zero.2 fun _ _ => nofun

namespace Sound

theorem of_append {a b : List Fate} (h : Sound (a ++ b)) : Sound a := by
  induction b using List.reverseRecOn with
  | nil => rwa [List.append_nil] at h
  | append_singleton b f ih =>
    apply ih
    rw [← List.append_assoc] at h
    generalize hlog : a ++ b ++ [f] = log at h
    cases h with
    | nil => simp at hlog
    | issued sound _ _ | freed sound _ | written sound =>
      exact (List.append_inj' hlog rfl).1 ▸ sound

theorem of_issued {a b : List Fate} (h : Sound (a ++ .issued id :: b))
    : holder id.index a = none ∧ id.generation = UInt32.ofNat (frees id.index a) := by
  rw [List.append_cons] at h
  have h := h.of_append
  generalize hlog : a ++ [.issued id] = log at h
  cases h with
  | nil => simp at hlog
  | issued sound empty generation =>
    obtain ⟨rfl, hid⟩ := List.append_inj' hlog rfl
    cases hid
    exact ⟨empty, generation⟩
  | freed sound _ | written sound =>
    cases (List.append_inj' hlog rfl).2

theorem of_freed {a : List Fate} (h : Sound (a ++ [.freed id])) : holder id.index a = some id := by
  generalize hlog : a ++ [.freed id] = log at h
  cases h with
  | nil => simp at hlog
  | freed sound filled =>
    obtain ⟨rfl, hid⟩ := List.append_inj' hlog rfl
    cases hid
    exact filled
  | issued sound _ _ | written sound =>
    cases (List.append_inj' hlog rfl).2

/-- An id comes back when its slot was emptied, and when the generations of the slot came round. -/
theorem issued_again {a b c : List Fate} (h : Sound (a ++ .issued id :: (b ++ .issued id :: c)))
    : ∃ n, 0 < n ∧ frees id.index b = n * 2 ^ 32 := by
  obtain ⟨-, hfirst⟩ := h.of_issued
  have h' : Sound ((a ++ .issued id :: b) ++ .issued id :: c) := by
    rwa [List.append_assoc, List.cons_append]
  obtain ⟨hempty, hsecond⟩ := h'.of_issued
  have hpos : frees id.index b ≠ 0 := by
    intro hzero
    have hfilled : (holder id.index (a ++ .issued id :: b)).isSome := by
      rw [holder_append, List.foldl_cons]
      exact isSome_holder (by simp [Fate.holder]) hzero
    rw [hempty] at hfilled
    cases hfilled
  have hcount : frees id.index (a ++ .issued id :: b) = frees id.index a + frees id.index b := by
    rw [frees_append, frees_cons_issued]
  rw [hcount] at hsecond
  have hmod := congrArg UInt32.toNat (hfirst.symm.trans hsecond)
  rw [UInt32.toNat_ofNat', UInt32.toNat_ofNat'] at hmod
  refine ⟨frees id.index b / 2 ^ 32, ?_, ?_⟩ <;> omega

theorem nodup_issues (h : Sound log) (hfrees : ∀ i, frees i log < 2 ^ 32) : (issues log).Nodup := by
  induction log using List.reverseRecOn with
  | nil => exact List.nodup_nil
  | append_singleton log f ih =>
    have hlog := ih h.of_append fun i => by
      have := hfrees i
      rw [frees_append] at this
      omega
    cases f with
    | freed x | written x =>
      rw [issues_append]
      exact (List.append_nil (issues log)).symm ▸ hlog
    | issued x =>
      have hx : x ∉ issues log := by
        intro hx
        obtain ⟨a, b, rfl⟩ := List.append_of_mem (mem_issues.1 hx)
        obtain ⟨n, hn, heq⟩ := issued_again (c := []) (by simpa using h)
        have := hfrees x.index
        have hle : frees x.index b ≤ frees x.index (a ++ .issued x :: b ++ [.issued x]) := by
          rw [frees_append, frees_append, frees_cons_issued]
          omega
        omega
      have happend : issues (log ++ [.issued x]) = issues log ++ [x] := issues_append _ _
      rw [happend, ← List.concat_eq_append, List.nodup_concat]
      exact ⟨hx, hlog⟩

theorem holder_of_issued {a b : List Fate} (h : Sound (a ++ .issued id :: b)) (hb : .freed id ∉ b)
    : holder id.index (a ++ .issued id :: b) = some id := by
  induction b using List.reverseRecOn with
  | nil =>
    rw [holder_append]
    exact if_pos rfl
  | append_singleton b f ih =>
    have hcons : a ++ .issued id :: (b ++ [f]) = (a ++ .issued id :: b) ++ [f] := by simp
    rw [hcons] at h ⊢
    have ih := ih h.of_append fun hm => hb (List.mem_append_left _ hm)
    rw [holder_append, ih]
    cases f with
    | issued x =>
      obtain ⟨hempty, -⟩ := h.of_issued
      refine if_neg ?_
      intro hx
      rw [hx, ih] at hempty
      cases hempty
    | freed x =>
      refine if_neg ?_
      intro hx
      have hfilled := h.of_freed
      rw [hx, ih] at hfilled
      cases hfilled
      exact hb (by simp)
    | written x => rfl

theorem exists_issued (h : Sound log) (hid : holder i log = some id)
    : id.index = i ∧ ∃ a b, log = a ++ .issued id :: b ∧ frees i b = 0 := by
  induction log using List.reverseRecOn with
  | nil => cases hid
  | append_singleton log f ih =>
    have ih := ih h.of_append
    rw [holder_append] at hid
    have later : f.empties i = false → holder i log = some id →
        id.index = i ∧ ∃ a b, log ++ [f] = a ++ .issued id :: b ∧ frees i b = 0 := by
      intro hf hlog
      obtain ⟨hi, a, b, rfl, hb⟩ := ih hlog
      refine ⟨hi, a, b ++ [f], by simp, ?_⟩
      rw [frees_append, hb]
      simp [frees, hf]
    cases f with
    | issued x =>
      by_cases hx : x.index = i
      . cases (if_pos hx).symm.trans hid
        exact ⟨hx, log, [], rfl, rfl⟩
      . exact later rfl ((if_neg hx).symm.trans hid)
    | freed x =>
      by_cases hx : x.index = i
      . cases (if_pos hx).symm.trans hid
      . exact later (by simp [Fate.empties, hx]) ((if_neg hx).symm.trans hid)
    | written x => exact later rfl hid

theorem holder_of_freed (h : Sound log) (hfrees : ∀ i, frees i log < 2 ^ 32) (hid : .freed id ∈ log)
    : holder id.index log ≠ some id := by
  intro hholds
  obtain ⟨-, a, b, rfl, hb⟩ := h.exists_issued hholds
  have hfreed : .freed id ∈ a := by
    rcases List.mem_append.1 hid with ha | hb'
    . exact ha
    . have hmem := (List.mem_cons.1 hb').resolve_left nofun
      have hzero := List.countP_eq_zero.1 hb _ hmem
      simp [Fate.empties] at hzero
  obtain ⟨a₁, a₂, rfl⟩ := List.append_of_mem hfreed
  have hprefix : Sound (a₁ ++ [.freed id]) := by
    have ha := h.of_append
    rw [List.append_cons] at ha
    exact ha.of_append
  -- The id was issued before it was freed and once more after that.
  have hnd := h.nodup_issues hfrees
  have hfirst : id ∈ issues (a₁ ++ .freed id :: a₂) := by
    obtain ⟨-, a₃, a₄, rfl, -⟩ := hprefix.of_append.exists_issued hprefix.of_freed
    simp [mem_issues]
  rw [issues_append] at hnd
  exact List.disjoint_of_nodup_append hnd hfirst (mem_issues.2 List.mem_cons_self)

section Many

variable {ids : List NodeId}

theorem append_freed (h : Sound log) (hnd : (ids.map NodeId.index).Nodup)
    (hfilled : ∀ x ∈ ids, holder x.index log = some x)
    : Sound (log ++ ids.map .freed) ∧
        (∀ i ∉ ids.map NodeId.index, holder i (log ++ ids.map .freed) = holder i log) ∧
        ∀ i ∈ ids.map NodeId.index, holder i (log ++ ids.map .freed) = none := by
  induction ids generalizing log with
  | nil => simpa using h
  | cons x ids ih =>
    rw [List.map_cons, List.nodup_cons] at hnd
    have hone : ∀ i, holder i (log ++ [.freed x]) = if i = x.index then none else holder i log := by
      intro i
      rw [holder_append]
      simp [Fate.holder, eq_comm]
    obtain ⟨hs, ho, hg⟩ := ih (h.freed (hfilled x List.mem_cons_self)) hnd.2 (by
      intro y hy
      rw [hone, if_neg]
      . exact hfilled y (List.mem_cons_of_mem _ hy)
      . intro hxy
        exact hnd.1 (hxy ▸ List.mem_map_of_mem hy))
    simp only [List.append_assoc, List.singleton_append] at hs ho hg
    refine ⟨hs, fun i hi => ?_, fun i hi => ?_⟩
    . rw [List.map_cons, List.mem_cons, not_or] at hi
      rw [List.map_cons, ho i hi.2, hone, if_neg hi.1]
    . rcases List.mem_cons.1 hi with rfl | hi
      . rw [List.map_cons, ho _ hnd.1, hone, if_pos rfl]
      . exact hg i hi

theorem append_issued (h : Sound log) (hnd : (ids.map NodeId.index).Nodup)
    (hempty : ∀ x ∈ ids, holder x.index log = none)
    (hgeneration : ∀ x ∈ ids, x.generation = UInt32.ofNat (frees x.index log))
    : Sound (log ++ ids.map .issued) ∧
        (∀ i ∉ ids.map NodeId.index, holder i (log ++ ids.map .issued) = holder i log) ∧
        ∀ x ∈ ids, holder x.index (log ++ ids.map .issued) = some x := by
  induction ids generalizing log with
  | nil => simpa using h
  | cons x ids ih =>
    rw [List.map_cons, List.nodup_cons] at hnd
    have hone : ∀ i, holder i (log ++ [.issued x]) = if i = x.index then some x else holder i log := by
      intro i
      rw [holder_append]
      simp [Fate.holder, eq_comm]
    have hcount : ∀ i, frees i (log ++ [.issued x]) = frees i log := by
      intro i
      rw [frees_append]
      rfl
    have hne : ∀ y ∈ ids, y.index ≠ x.index :=
      fun y hy hxy => hnd.1 (hxy ▸ List.mem_map_of_mem hy)
    obtain ⟨hs, ho, hg⟩ := ih
      (h.issued (hempty x List.mem_cons_self) (hgeneration x List.mem_cons_self)) hnd.2
      (fun y hy => by rw [hone, if_neg (hne y hy)]; exact hempty y (List.mem_cons_of_mem _ hy))
      (fun y hy => by rw [hcount]; exact hgeneration y (List.mem_cons_of_mem _ hy))
    simp only [List.append_assoc, List.singleton_append] at hs ho hg
    refine ⟨hs, fun i hi => ?_, fun y hy => ?_⟩
    . rw [List.map_cons, List.mem_cons, not_or] at hi
      rw [List.map_cons, ho i hi.2, hone, if_neg hi.1]
    . rcases List.mem_cons.1 hy with rfl | hy
      . rw [List.map_cons, ho _ hnd.1, hone, if_pos rfl]
      . exact hg y hy

end Many

end Sound

end Fates

end VirtualDom.Document
