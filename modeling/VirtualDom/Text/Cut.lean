/-!
This module contains the cutting of texts: at the first occurrence of a mark, and off a known front.
-/

namespace VirtualDom.Text

theorem length_dropWhile_le (p : Char → Bool) (cs : List Char)
    : (cs.dropWhile p).length ≤ cs.length :=
  (List.dropWhile_sublist p).length_le

def dropFront? : List Char → List Char → Option (List Char)
  | [], cs => some cs
  | _ :: _, [] => none
  | x :: xs, c :: cs => if x = c then dropFront? xs cs else none

theorem append_of_dropFront? {front cs rest : List Char} (h : dropFront? front cs = some rest)
    : front ++ rest = cs := by
  induction front generalizing cs with
  | nil => simpa [dropFront?] using h.symm
  | cons x xs ih =>
    cases cs with
    | nil => simp [dropFront?] at h
    | cons c cs =>
      simp only [dropFront?] at h
      split at h
      . next hx => rw [hx, List.cons_append, ih h]
      . cases h

def splitAt? (mark : List Char) : List Char → Option (List Char × List Char)
  | [] => if mark.isEmpty then some ([], []) else none
  | c :: cs =>
    match dropFront? mark (c :: cs) with
    | some rest => some ([], rest)
    | none => (splitAt? mark cs).map fun (body, rest) => (c :: body, rest)

theorem append_of_splitAt? {mark cs body rest : List Char} (h : splitAt? mark cs = some (body, rest))
    : body ++ (mark ++ rest) = cs := by
  induction cs generalizing body with
  | nil =>
    simp only [splitAt?] at h
    split at h
    . next hm =>
      rw [List.isEmpty_iff] at hm
      cases h
      simp [hm]
    . cases h
  | cons c cs ih =>
    simp only [splitAt?] at h
    split at h
    . next hp =>
      cases h
      exact (append_of_dropFront? hp : mark ++ rest = c :: cs)
    . obtain ⟨⟨b, r⟩, hs, he⟩ := Option.map_eq_some_iff.1 h
      cases he
      simp [ih hs]

def enclosed? (start stop : List Char) (cs : List Char) : Option (List Char × List Char) :=
  match dropFront? start cs with
  | some rest => splitAt? stop rest
  | none => none

theorem append_of_enclosed? {start stop cs body rest : List Char}
    (h : enclosed? start stop cs = some (body, rest))
    : start ++ (body ++ (stop ++ rest)) = cs := by
  unfold enclosed? at h
  split at h
  . next hp => rw [append_of_splitAt? h, append_of_dropFront? hp]
  . cases h

end VirtualDom.Text
