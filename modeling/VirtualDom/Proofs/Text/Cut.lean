import VirtualDom.Text.Cut

/-!
This module contains where the cuts of texts are: a run of characters of one kind goes on to the first
character of another kind, and a body goes on to the first mark.
-/

namespace VirtualDom.Text

section Runs

variable {p : Char → Bool} {c : Char} {cs ds rest rest' : List Char}

/-- No run of characters with `p` goes on into the text. -/
def Stops (p : Char → Bool) (cs : List Char) : Prop :=
  ∀ c ∈ cs.head?, p c = false

@[simp]
theorem stops_nil : Stops p [] :=
  nofun

@[simp]
theorem stops_cons : Stops p (c :: cs) ↔ p c = false := by
  simp [Stops]

theorem stops_dropWhile (p : Char → Bool) (cs : List Char) : Stops p (cs.dropWhile p) := by
  intro c hc
  have := List.head?_dropWhile_not p cs
  rwa [hc] at this

theorem takeWhile_append (hcs : ∀ c ∈ cs, p c) (hrest : Stops p rest)
    : (cs ++ rest).takeWhile p = cs := by
  rw [List.takeWhile_append_of_pos hcs]
  cases rest with
  | nil => simp
  | cons c rest => simp [stops_cons.1 hrest]

theorem dropWhile_append (hcs : ∀ c ∈ cs, p c) (hrest : Stops p rest)
    : (cs ++ rest).dropWhile p = rest := by
  rw [List.dropWhile_append_of_pos hcs]
  cases rest with
  | nil => rfl
  | cons c rest => simp [stops_cons.1 hrest]

theorem run_append_inj (hcs : ∀ c ∈ cs, p c) (hds : ∀ c ∈ ds, p c) (hrest : Stops p rest)
    (hrest' : Stops p rest') (h : cs ++ rest = ds ++ rest') : cs = ds ∧ rest = rest' := by
  constructor
  . rw [← takeWhile_append hcs hrest, h, takeWhile_append hds hrest']
  . rw [← dropWhile_append hcs hrest, h, dropWhile_append hds hrest']

end Runs

section Marks

variable {front mark start stop cs body rest : List Char}

theorem dropFront?_eq_some : dropFront? front cs = some rest ↔ front ++ rest = cs := by
  constructor
  . exact append_of_dropFront?
  . rintro rfl
    induction front with
    | nil => rfl
    | cons c front ih => simp [dropFront?, ih]

/-- The last character of a mark occurs only once in it, so that no two marks overlap. -/
def IsMark (mark : List Char) : Prop :=
  ∃ front last, mark = front ++ [last] ∧ last ∉ front

theorem not_append_of_isMark (hmark : IsMark mark) {c : Char} (h : ¬ mark <:+: c :: body)
    (rest rest' : List Char) : mark ++ rest' ≠ c :: body ++ (mark ++ rest) := by
  obtain ⟨front, last, rfl, hlast⟩ := hmark
  intro heq
  rcases List.append_eq_append_iff.1 heq with ⟨ds, hds, -⟩ | ⟨ds, hds, hrest⟩
  . exact h (hds ▸ (List.prefix_append _ _).isInfix)
  -- The mark would start in the body and end within its own front.
  . have hlength := congrArg List.length hds
    simp only [List.length_append, List.length_cons, List.length_nil] at hlength
    have hds' : ds <+: front ++ ([last] ++ rest) := by
      rw [← List.append_assoc, hrest]
      exact List.prefix_append _ _
    have hfront : ds <+: front :=
      List.prefix_of_prefix_length_le hds' (List.prefix_append _ _) (by omega)
    rcases List.eq_nil_or_concat ds with rfl | ⟨es, z, rfl⟩
    . rw [hds, List.append_nil] at h
      exact h List.infix_rfl
    . rw [List.concat_eq_append, ← List.append_assoc] at hds
      obtain ⟨-, hz⟩ := List.append_inj' hds rfl
      cases hz
      apply hlast
      apply hfront.subset
      simp

theorem splitAt?_eq_some (hmark : IsMark mark)
    : splitAt? mark cs = some (body, rest) ↔ body ++ (mark ++ rest) = cs ∧ ¬ mark <:+: body := by
  have hne : mark ≠ [] := by
    obtain ⟨front, last, rfl, -⟩ := hmark
    simp
  constructor
  . intro h
    refine ⟨append_of_splitAt? h, ?_⟩
    induction cs generalizing body with
    | nil => simp [splitAt?, hne] at h
    | cons c cs ih =>
      rw [splitAt?] at h
      split at h
      . cases h
        simpa using hne
      . next hnone =>
        obtain ⟨⟨b, r⟩, hs, he⟩ := Option.map_eq_some_iff.1 h
        cases he
        rw [List.infix_cons_iff]
        rintro (⟨ds, hds⟩ | hb)
        . have hfront : mark ++ (ds ++ (mark ++ rest)) = c :: cs := by
            rw [← append_of_splitAt? hs, ← List.append_assoc, hds, List.cons_append]
          rw [dropFront?_eq_some.2 hfront] at hnone
          cases hnone
        . exact ih hs hb
  . rintro ⟨rfl, h⟩
    induction body with
    | nil =>
      cases mark with
      | nil => exact absurd rfl hne
      | cons c mark => simp [splitAt?, dropFront?_eq_some.2 (List.cons_append ..)]
    | cons c body ih =>
      have hnone : dropFront? mark (c :: (body ++ (mark ++ rest))) = none := by
        rw [Option.eq_none_iff_forall_ne_some]
        intro ds hds
        exact not_append_of_isMark hmark h rest ds (dropFront?_eq_some.1 hds)
      rw [List.cons_append, splitAt?, hnone]
      simp [ih fun hb => h (List.infix_cons hb)]

theorem enclosed?_eq_some (hstop : IsMark stop)
    : enclosed? start stop cs = some (body, rest)
        ↔ start ++ (body ++ (stop ++ rest)) = cs ∧ ¬ stop <:+: body := by
  unfold enclosed?
  cases h : dropFront? start cs with
  | none =>
    simp only [reduceCtorEq, false_iff]
    rintro ⟨hcs, -⟩
    rw [dropFront?_eq_some.2 hcs] at h
    cases h
  | some inner =>
    rw [splitAt?_eq_some hstop, ← dropFront?_eq_some.1 h]
    simp

end Marks

end VirtualDom.Text
