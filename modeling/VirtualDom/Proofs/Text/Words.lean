import VirtualDom.Text.Blank

/-!
This module contains the words of texts: the words of some words with spaces between them are these words.
-/

namespace VirtualDom.Text

structure IsWord (s : String) : Prop where
  ne_nil : s.toList ≠ []
  visible : ∀ c ∈ s.toList, isBlankChar c = false

section Pieces

variable {c : Char} {cs rest : List Char}

theorem pieces_of_visible (h : ∀ c ∈ cs, isBlankChar c = false) : pieces cs = [cs] := by
  induction cs with
  | nil => rfl
  | cons c cs ih =>
    obtain ⟨hc, hcs⟩ := List.forall_mem_cons.1 h
    simp [pieces, hc, ih hcs]

theorem pieces_append_blank (h : ∀ c ∈ cs, isBlankChar c = false) (hc : isBlankChar c = true)
    : pieces (cs ++ c :: rest) = cs :: pieces rest := by
  induction cs with
  | nil => simp [pieces, hc]
  | cons d cs ih =>
    obtain ⟨hd, hcs⟩ := List.forall_mem_cons.1 h
    simp [pieces, hd, ih hcs]

theorem visible_of_mem_pieces {piece : List Char} (h : piece ∈ pieces cs)
    : ∀ c ∈ piece, isBlankChar c = false := by
  induction cs generalizing piece with
  | nil =>
    cases List.mem_singleton.1 h
    nofun
  | cons c cs ih =>
    rw [pieces] at h
    split at h
    . rcases List.mem_cons.1 h with rfl | h
      . nofun
      . exact ih h
    . next hc =>
      split at h
      . next hnil => exact absurd hnil (pieces_ne_nil cs)
      . next first later hfirst =>
        have hmem : ∀ piece ∈ first :: later, ∀ c ∈ piece, isBlankChar c = false :=
          fun piece hp => ih (hfirst ▸ hp)
        rcases List.mem_cons.1 h with rfl | h
        . rintro d (_ | ⟨_, hd⟩)
          . simpa using hc
          . exact hmem first List.mem_cons_self d hd
        . exact hmem piece (List.mem_cons_of_mem _ h)

end Pieces

theorem isWord_of_mem_words {s word : String} (h : word ∈ words s) : IsWord word := by
  obtain ⟨piece, hpiece, rfl⟩ := List.mem_map.1 h
  obtain ⟨hpiece, hne⟩ := List.mem_filter.1 hpiece
  refine ⟨by simpa using hne, ?_⟩
  rw [String.toList_ofList]
  exact visible_of_mem_pieces hpiece

theorem words_intercalate {ts : List String} (h : ∀ t ∈ ts, IsWord t)
    : words (" ".intercalate ts) = ts := by
  have hpieces : ∀ ts : List String, ts ≠ [] → (∀ t ∈ ts, IsWord t) →
      pieces (" ".intercalate ts).toList = ts.map String.toList := by
    intro ts hne h
    rw [String.toList_intercalate]
    induction ts with
    | nil => exact absurd rfl hne
    | cons t ts ih =>
      obtain ⟨ht, hts⟩ := List.forall_mem_cons.1 h
      cases ts with
      | nil => simpa using pieces_of_visible ht.visible
      | cons u ts =>
        rw [List.map_cons, List.map_cons, List.intercalate_cons_cons, List.append_assoc]
        refine (pieces_append_blank ht.visible (by decide)).trans ?_
        exact congrArg _ (ih (List.cons_ne_nil _ _) hts)
  cases ts with
  | nil => rfl
  | cons t ts =>
    have hwords : ∀ u ∈ (t :: ts).map String.toList, (!u.isEmpty) = true := by
      intro u hu
      obtain ⟨v, hv, rfl⟩ := List.mem_map.1 hu
      simpa using (h v hv).ne_nil
    rw [words, hpieces _ (List.cons_ne_nil _ _) h, List.filter_eq_self.2 hwords, List.map_map]
    simp

end VirtualDom.Text
