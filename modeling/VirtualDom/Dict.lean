/-!
This module contains dictionaries that remember the order in which their keys were first put in.
-/

namespace VirtualDom

abbrev Dict (α : Type u) :=
  List (String × α)

namespace Dict

variable {α : Type u}

def get? : Dict α → String → Option α
  | [], _ => none
  | (k, v) :: rest, key => if k = key then some v else get? rest key

/-- Gives `key` the value `value`: at its own place if it has one, otherwise at the end. -/
def put : Dict α → String → α → Dict α
  | [], key, value => [(key, value)]
  | (k, v) :: rest, key, value =>
    if k = key then (k, value) :: rest else (k, v) :: put rest key value

def erase (d : Dict α) (key : String) : Dict α :=
  d.filter (·.1 ≠ key)

def keys (d : Dict α) : List String :=
  d.map (·.1)

def ofEntries (entries : List (String × α)) : Dict α :=
  entries.foldl (fun d (key, value) => d.put key value) []

theorem get?_put (d : Dict α) (key : String) (value : α) (k : String)
    : (d.put key value).get? k = if key = k then some value else d.get? k := by
  induction d with
  | nil => simp [put, get?]
  | cons entry rest ih =>
    simp only [put]
    split
    . next h =>
      subst h
      simp only [get?]
      split <;> rfl
    . next h =>
      simp only [get?, ih]
      split
      . next hk =>
        subst hk
        simp [Ne.symm h]
      . rfl

theorem get?_erase (d : Dict α) (key k : String)
    : (d.erase key).get? k = if key = k then none else d.get? k := by
  induction d with
  | nil => simp [erase, get?]
  | cons entry rest ih =>
    simp only [erase, List.filter_cons, get?] at ih ⊢
    by_cases h : entry.1 = key
    . simp only [h, ne_eq, not_true_eq_false, decide_false, Bool.false_eq_true, if_false, ih]
      split <;> rfl
    . simp only [h, ne_eq, not_false_eq_true, decide_true, if_true, get?]
      split
      . next hk => simp [← hk, Ne.symm h]
      . exact ih

theorem keys_put (d : Dict α) (key : String) (value : α)
    : (d.put key value).keys = if key ∈ d.keys then d.keys else d.keys ++ [key] := by
  induction d with
  | nil => simp [put, keys]
  | cons entry rest ih =>
    simp only [keys] at ih
    simp only [put]
    split
    . next h => simp [keys, h]
    . next h =>
      simp only [keys, List.map_cons, ih, List.mem_cons, Ne.symm h, false_or]
      by_cases hk : key ∈ List.map (·.1) rest <;> simp [hk]

theorem put_of_not_mem {d : Dict α} {key : String} (h : key ∉ d.keys) (value : α)
    : d.put key value = d ++ [(key, value)] := by
  induction d with
  | nil => rfl
  | cons entry rest ih =>
    simp only [keys, List.map_cons, List.mem_cons, not_or] at h ih
    rw [put, if_neg (Ne.symm h.1), ih h.2, List.cons_append]

theorem nodup_keys_put {d : Dict α} (h : d.keys.Nodup) (key : String) (value : α)
    : (d.put key value).keys.Nodup := by
  rw [keys_put]
  split
  . exact h
  . next hk =>
    rw [List.nodup_append]
    refine ⟨h, by simp, ?_⟩
    intro k hk' l hl hkl
    rw [List.mem_singleton] at hl
    exact hk (hl ▸ hkl ▸ hk')

theorem nodup_keys_ofEntries (entries : List (String × α)) : (ofEntries entries).keys.Nodup := by
  suffices h : ∀ d : Dict α, d.keys.Nodup →
      (entries.foldl (fun d (key, value) => d.put key value) d).keys.Nodup from h [] List.nodup_nil
  induction entries with
  | nil => exact fun d h => h
  | cons entry rest ih => exact fun d h => ih _ (nodup_keys_put h _ _)

theorem mem_put {d : Dict α} {key : String} {value : α} {entry : String × α}
    (h : entry ∈ d.put key value) : entry ∈ d ∨ entry = (key, value) := by
  induction d with
  | nil => exact .inr (List.mem_singleton.1 h)
  | cons first rest ih =>
    obtain ⟨k, v⟩ := first
    rw [put] at h
    split at h
    . next hk =>
      rcases List.mem_cons.1 h with rfl | h
      . exact .inr (hk ▸ rfl)
      . exact .inl (List.mem_cons_of_mem _ h)
    . rcases List.mem_cons.1 h with rfl | h
      . exact .inl List.mem_cons_self
      . exact (ih h).imp_left (List.mem_cons_of_mem _)

theorem mem_ofEntries {entries : List (String × α)} {entry : String × α}
    (h : entry ∈ ofEntries entries) : entry ∈ entries := by
  suffices hd : ∀ d : Dict α, entry ∈ entries.foldl (fun d (key, value) => d.put key value) d →
      entry ∈ d ∨ entry ∈ entries from (hd [] h).resolve_left List.not_mem_nil
  clear h
  induction entries with
  | nil => exact fun d h => .inl h
  | cons first rest ih =>
    intro d h
    rcases ih _ h with h | h
    . rcases mem_put h with h | rfl
      . exact .inl h
      . exact .inr List.mem_cons_self
    . exact .inr (List.mem_cons_of_mem _ h)

/-- Entries without a key twice are a dictionary already. -/
theorem ofEntries_eq_self {entries : Dict α} (h : entries.keys.Nodup) : ofEntries entries = entries := by
  suffices hd : ∀ d : Dict α, (d ++ entries).keys.Nodup →
      entries.foldl (fun d (key, value) => d.put key value) d = d ++ entries from hd [] h
  clear h
  induction entries with
  | nil => simp
  | cons entry rest ih =>
    intro d hd
    obtain ⟨k, v⟩ := entry
    have hkey : k ∉ d.keys := by
      intro hk
      simp only [keys, List.map_append, List.map_cons, List.nodup_append] at hd
      exact hd.2.2 _ hk _ List.mem_cons_self rfl
    simp only [List.foldl_cons, put_of_not_mem hkey]
    rw [ih _ (by simpa using hd), List.append_assoc, List.singleton_append]

end Dict
end VirtualDom
