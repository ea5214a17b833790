import Mathlib.Data.List.Nodup
import VirtualDom.Dict

/-!
This module contains what is found in dictionaries: of which keys there is a value, and what changes when
a key is given a value or taken out.
-/

namespace VirtualDom.Dict

variable {α : Type u} {d : Dict α} {key : String}

theorem get?_eq_none_iff : d.get? key = none ↔ key ∉ d.keys := by
  induction d with
  | nil => simp [get?, keys]
  | cons entry rest ih =>
    unfold keys at ih
    by_cases h : entry.1 = key
    . simp [get?, keys, h]
    . simp [get?, keys, h, ih, Ne.symm h]

theorem get?_isSome_iff : (d.get? key).isSome ↔ key ∈ d.keys := by
  rw [← Option.ne_none_iff_isSome, Ne, get?_eq_none_iff, not_not]

theorem mem_of_get? {value : α} (h : d.get? key = some value) : (key, value) ∈ d := by
  induction d with
  | nil => cases h
  | cons entry rest ih =>
    obtain ⟨k, v⟩ := entry
    rw [get?] at h
    split at h
    . next hk =>
      cases h
      exact hk ▸ List.mem_cons_self
    . exact List.mem_cons_of_mem _ (ih h)

theorem get?_of_mem (hnd : d.keys.Nodup) {value : α} (h : (key, value) ∈ d)
    : d.get? key = some value := by
  induction d with
  | nil => cases h
  | cons entry rest ih =>
    obtain ⟨k, v⟩ := entry
    obtain ⟨hk, hrest⟩ := List.nodup_cons.1 hnd
    rw [get?]
    rcases List.mem_cons.1 h with heq | h
    . cases heq
      rw [if_pos rfl]
    . rw [if_neg, ih hrest h]
      rintro rfl
      exact hk (List.mem_map.2 ⟨_, h, rfl⟩)

theorem get?_filter (hnd : d.keys.Nodup) (p : String × α → Bool)
    : get? (d.filter p) key = (d.get? key).filter fun value => p (key, value) := by
  have hnd' : (keys (d.filter p)).Nodup := hnd.sublist (List.filter_sublist.map _)
  cases h : d.get? key with
  | none =>
    rw [get?_eq_none_iff] at h
    exact get?_eq_none_iff.2 fun hk => h ((List.filter_sublist.map _).subset hk)
  | some value =>
    have hmem := mem_of_get? h
    cases hp : p (key, value) with
    | true =>
      rw [get?_of_mem hnd' (List.mem_filter.2 ⟨hmem, hp⟩)]
      simp [Option.filter, hp]
    | false =>
      have hnone : (some value).filter (fun value => p (key, value)) = none := by simp [hp]
      rw [hnone]
      refine get?_eq_none_iff.2 fun hk => ?_
      obtain ⟨⟨k, v⟩, hv, rfl⟩ := List.mem_map.1 hk
      obtain ⟨hv, hpv⟩ := List.mem_filter.1 hv
      cases h.symm.trans (get?_of_mem hnd hv)
      exact Bool.false_ne_true (hp.symm.trans hpv)

def assign (d : Dict α) (key : String) : Option α → Dict α
  | some value => d.put key value
  | none => d.erase key

theorem get?_assign (d : Dict α) (key : String) (value : Option α) (k : String)
    : (d.assign key value).get? k = if key = k then value else d.get? k := by
  cases value with
  | none => exact d.get?_erase key k
  | some value => exact d.get?_put key value k

theorem mem_assign {d : Dict α} {key : String} {value : Option α} {entry : String × α}
    (h : entry ∈ d.assign key value) : entry ∈ d ∨ (value.isSome ∧ entry.1 = key) := by
  cases value with
  | none => exact .inl (List.mem_filter.1 h).1
  | some value => exact (mem_put h).imp_right fun heq => ⟨rfl, congrArg Prod.fst heq⟩

theorem erase_of_get?_eq_none {d : Dict α} {key : String} (h : d.get? key = none)
    : d.erase key = d := by
  induction d with
  | nil => rfl
  | cons entry rest ih =>
    obtain ⟨k, v⟩ := entry
    rw [get?] at h
    split at h
    . cases h
    . next hk =>
      rw [erase, List.filter_cons_of_pos (by simpa using hk)]
      exact congrArg _ (ih h)

end VirtualDom.Dict
