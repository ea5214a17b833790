import Mathlib.Data.Nat.Digits.Defs
import Mathlib.Tactic.IntervalCases
import VirtualDom.Proofs.Markup.Reference

/-!
This module contains the grammar of character references, and the proof that decoding is one pass from
left to right that replaces the references of this grammar and copies everything else.
-/

namespace VirtualDom.Markup.Reference

def names : List (String × Char) :=
  [("amp", '&'), ("lt", '<'), ("gt", '>'), ("quot", '"'), ("apos", '\''), ("nbsp", '\u00a0')]

/-- `c` is the digit with value `d` to the base `base`, in lower or upper case. -/
def IsDigit (base : Nat) (c : Char) (d : Nat) : Prop :=
  d < base ∧ ("0123456789abcdef".toList[d]? = some c ∨ "0123456789ABCDEF".toList[d]? = some c)

def IsNumeral (base : Nat) (digits : List Char) (n : Nat) : Prop :=
  digits ≠ [] ∧ ∃ values, List.Forall₂ (IsDigit base) digits values ∧
    n = Nat.ofDigits base values.reverse

/--
The text between `&` and `;` of a reference to `c`, where `signs` are the texts that may stand between
the mark of a number and its digits.
-/
inductive Denotes (signs : List (List Char)) : List Char → Char → Prop where
  | name {name : String} {c : Char} (mem : (name, c) ∈ names) : Denotes signs name.toList c
  | decimal {sign digits : List Char} {c : Char} (mem : sign ∈ signs)
    (numeral : IsNumeral 10 digits c.toNat)
    : Denotes signs ('#' :: (sign ++ digits)) c
  | hexadecimal {x : Char} {sign digits : List Char} {c : Char} (x_eq : x = 'x' ∨ x = 'X')
    (mem : sign ∈ signs) (numeral : IsNumeral 16 digits c.toNat)
    : Denotes signs ('#' :: x :: (sign ++ digits)) c

def Begins (signs : List (List Char)) (cs : List Char) : Prop :=
  ∃ body c rest, Denotes signs body c ∧ cs = '&' :: (body ++ ';' :: rest)

/-- One pass from left to right. What it has written is not read again. -/
inductive Pass (signs : List (List Char)) : List Char → List Char → Prop where
  | done : Pass signs [] []
  | replace {body rest out : List Char} {c : Char} (denotes : Denotes signs body c)
    (pass : Pass signs rest out)
    : Pass signs ('&' :: (body ++ ';' :: rest)) (c :: out)
  | copy {c : Char} {rest out : List Char} (plain : ¬ Begins signs (c :: rest)) (pass : Pass signs rest out)
    : Pass signs (c :: rest) (c :: out)

/-- References as they are documented. -/
def documented : List (List Char) := [[]]

/-- References as they are read: a plus sign may stand before the digits. -/
def lenient : List (List Char) := [[], ['+']]

variable {base n m d : Nat} {c : Char} {signs : List (List Char)} {body cs digits rest out : List Char}

section Numerals

theorem exists_eq_ofNat {lo hi : Char} (h : lo ≤ c ∧ c ≤ hi)
    : ∃ k, k ≤ hi.toNat - lo.toNat ∧ c.toNat - lo.toNat = k ∧ c = Char.ofNat (lo.toNat + k) := by
  have hlo : lo.toNat ≤ c.toNat := h.1
  have hhi : c.toNat ≤ hi.toNat := h.2
  refine ⟨c.toNat - lo.toNat, by omega, rfl, ?_⟩
  rw [Nat.add_sub_cancel' hlo, Char.ofNat_toNat]

theorem hexDigit?_eq_some : hexDigit? c = some d ↔ IsDigit 16 c d := by
  constructor
  . intro h
    unfold hexDigit? at h
    split at h
    . next hc =>
      obtain ⟨k, hk, hsub, rfl⟩ := exists_eq_ofNat hc
      rw [hsub] at h
      cases h
      change d ≤ 9 at hk
      interval_cases d <;> exact ⟨by decide, .inl rfl⟩
    . split at h
      . next hc =>
        obtain ⟨k, hk, hsub, rfl⟩ := exists_eq_ofNat hc
        rw [hsub] at h
        cases h
        change k ≤ 5 at hk
        interval_cases k <;> exact ⟨by decide, .inl rfl⟩
      . split at h
        . next hc =>
          obtain ⟨k, hk, hsub, rfl⟩ := exists_eq_ofNat hc
          rw [hsub] at h
          cases h
          change k ≤ 5 at hk
          interval_cases k <;> exact ⟨by decide, .inr rfl⟩
        . cases h
  . rintro ⟨hd, h⟩
    interval_cases d <;> rcases h with h | h <;> (cases h; rfl)

theorem add_eq_some (hbase : base ≤ 16)
    : code?.add base n c = some m ↔ ∃ d, IsDigit base c d ∧ base * n + d = m := by
  simp only [code?.add, Option.bind_eq_bind, Option.bind_eq_some_iff, hexDigit?_eq_some]
  constructor
  . rintro ⟨d, ⟨-, hc⟩, h⟩
    split at h
    . next hd => exact ⟨d, ⟨hd, hc⟩, Option.some.inj h⟩
    . cases h
  . rintro ⟨d, ⟨hd, hc⟩, rfl⟩
    exact ⟨d, ⟨by omega, hc⟩, if_pos hd⟩

theorem foldlM_add (hbase : base ≤ 16)
    : digits.foldlM (code?.add base) n = some m
        ↔ ∃ values, List.Forall₂ (IsDigit base) digits values ∧
            m = Nat.ofDigits base values.reverse + base ^ values.length * n := by
  induction digits generalizing n with
  | nil =>
    rw [List.foldlM_nil]
    constructor
    . intro h
      exact ⟨[], .nil, by simpa using (Option.some.inj h).symm⟩
    . rintro ⟨_, hvalues, rfl⟩
      cases hvalues
      simp
  | cons c digits ih =>
    have hvalue : ∀ d (values : List Nat),
        Nat.ofDigits base (d :: values).reverse + base ^ (d :: values).length * n
          = Nat.ofDigits base values.reverse + base ^ values.length * (base * n + d) := by
      intro d values
      simp only [List.reverse_cons, Nat.ofDigits_append, Nat.ofDigits_singleton, List.length_reverse,
        List.length_cons]
      ring
    simp only [List.foldlM_cons, Option.bind_eq_bind, Option.bind_eq_some_iff, add_eq_some hbase, ih]
    constructor
    . rintro ⟨_, ⟨d, hd, rfl⟩, values, hvalues, rfl⟩
      exact ⟨d :: values, .cons hd hvalues, (hvalue d values).symm⟩
    . rintro ⟨_, hvalues, rfl⟩
      cases hvalues with
      | cons hd hvalues => exact ⟨_, ⟨_, hd, rfl⟩, _, hvalues, hvalue _ _⟩

theorem run_eq_some (hbase : base ≤ 16) : code?.run base digits = some n ↔ IsNumeral base digits n := by
  unfold code?.run IsNumeral
  cases digits with
  | nil => simp
  | cons c digits =>
    rw [if_neg (by simp), foldlM_add hbase]
    simp

theorem IsDigit.mem (h : IsDigit base c d)
    : c ∈ "0123456789abcdef".toList ∨ c ∈ "0123456789ABCDEF".toList :=
  h.2.imp List.mem_of_getElem? List.mem_of_getElem?

theorem IsNumeral.exists_isDigit (h : IsNumeral base digits n) (hc : c ∈ digits)
    : ∃ d, IsDigit base c d := by
  obtain ⟨-, values, hvalues, -⟩ := h
  induction hvalues with
  | nil => cases hc
  | cons hd _ ih =>
    rcases List.mem_cons.1 hc with rfl | hc
    . exact ⟨_, hd⟩
    . exact ih hc

theorem mem_lenient {sign : List Char} : sign ∈ lenient ↔ sign = [] ∨ sign = ['+'] := by
  simp [lenient]

theorem code?_eq_some (hbase : base ≤ 16)
    : code? base cs = some n
        ↔ ∃ sign ∈ lenient, ∃ digits, cs = sign ++ digits ∧ IsNumeral base digits n := by
  unfold code?
  split
  . next more =>
    rw [run_eq_some hbase]
    constructor
    . intro h
      exact ⟨['+'], by decide, more, rfl, h⟩
    . rintro ⟨sign, hsign, digits, heq, hdigits⟩
      rcases mem_lenient.1 hsign with rfl | rfl
      . rw [List.nil_append] at heq
        obtain ⟨_, hd⟩ := hdigits.exists_isDigit (heq ▸ List.mem_cons_self)
        exact absurd hd.mem (by decide)
      . cases heq
        exact hdigits
  . next hplus =>
    rw [run_eq_some hbase]
    constructor
    . intro h
      exact ⟨[], by decide, cs, rfl, h⟩
    . rintro ⟨sign, hsign, digits, rfl, hdigits⟩
      rcases mem_lenient.1 hsign with rfl | rfl
      . exact hdigits
      . exact absurd rfl (hplus digits)

theorem scalar?_eq_some : scalar? n = some c ↔ n = c.toNat := by
  unfold scalar?
  constructor
  . intro h
    split at h
    . next hvalid =>
      cases h
      rw [Char.ofNat, dif_pos hvalid]
      rfl
    . cases h
  . rintro rfl
    have hvalid : c.toNat.isValidChar := c.valid
    rw [if_pos hvalid, Char.ofNat_toNat]

theorem code?_bind_scalar? (hbase : base ≤ 16)
    : code? base cs >>= scalar? = some c
        ↔ ∃ sign ∈ lenient, ∃ digits, cs = sign ++ digits ∧ IsNumeral base digits c.toNat := by
  rw [Option.bind_eq_bind, Option.bind_eq_some_iff]
  constructor
  . rintro ⟨n, hn, hc⟩
    rw [scalar?_eq_some] at hc
    exact (code?_eq_some hbase).1 (hc ▸ hn)
  . intro h
    exact ⟨c.toNat, (code?_eq_some hbase).2 h, scalar?_eq_some.2 rfl⟩

end Numerals

section Bodies

variable {sign : List Char}

theorem mem_signed (hsign : sign ∈ lenient) (h : IsNumeral base digits n) (hc : c ∈ sign ++ digits)
    : c ∈ "+0123456789abcdefABCDEF".toList := by
  rcases List.mem_append.1 hc with hc | hc
  . rcases mem_lenient.1 hsign with rfl | rfl
    . cases hc
    . exact List.mem_singleton.1 hc ▸ by decide
  . obtain ⟨_, hd⟩ := h.exists_isDigit hc
    have hsubset : "0123456789abcdef".toList ⊆ "+0123456789abcdefABCDEF".toList ∧
        "0123456789ABCDEF".toList ⊆ "+0123456789abcdefABCDEF".toList := by decide
    exact hd.mem.elim (hsubset.1 ·) (hsubset.2 ·)

theorem named?_decimal (h : ∀ c ∈ cs, c ∈ "+0123456789abcdefABCDEF".toList)
    : named? ('#' :: cs) = code? 10 cs >>= scalar? := by
  have hx : 'x' ∉ cs := fun hmem => absurd (h _ hmem) (by decide)
  have hX : 'X' ∉ cs := fun hmem => absurd (h _ hmem) (by decide)
  unfold named?
  split <;> simp_all

theorem named?_eq_some : named? body = some c ↔ Denotes lenient body c := by
  constructor
  . intro h
    unfold named? at h
    split at h
    . cases h
      exact .name (by decide : ("amp", '&') ∈ names)
    . cases h
      exact .name (by decide : ("lt", '<') ∈ names)
    . cases h
      exact .name (by decide : ("gt", '>') ∈ names)
    . cases h
      exact .name (by decide : ("quot", '"') ∈ names)
    . cases h
      exact .name (by decide : ("apos", '\'') ∈ names)
    . cases h
      exact .name (by decide : ("nbsp", '\u00a0') ∈ names)
    . obtain ⟨sign, hsign, digits, rfl, hdigits⟩ := (code?_bind_scalar? (by decide)).1 h
      exact .hexadecimal (.inl rfl) hsign hdigits
    . obtain ⟨sign, hsign, digits, rfl, hdigits⟩ := (code?_bind_scalar? (by decide)).1 h
      exact .hexadecimal (.inr rfl) hsign hdigits
    . obtain ⟨sign, hsign, digits, rfl, hdigits⟩ := (code?_bind_scalar? (by decide)).1 h
      exact .decimal hsign hdigits
    . cases h
  . intro h
    cases h with
    | name mem =>
      simp only [names, List.mem_cons, Prod.mk.injEq, List.not_mem_nil, or_false] at mem
      rcases mem with ⟨rfl, rfl⟩ | ⟨rfl, rfl⟩ | ⟨rfl, rfl⟩ | ⟨rfl, rfl⟩ | ⟨rfl, rfl⟩ | ⟨rfl, rfl⟩
      all_goals rfl
    | decimal mem numeral =>
      rw [named?_decimal fun _ => mem_signed mem numeral]
      exact (code?_bind_scalar? (by decide)).2 ⟨_, mem, _, rfl, numeral⟩
    | hexadecimal x_eq mem numeral =>
      rcases x_eq with rfl | rfl <;>
      exact (code?_bind_scalar? (by decide)).2 ⟨_, mem, _, rfl, numeral⟩

theorem Denotes.not_mem (h : Denotes lenient body c) : ';' ∉ body := by
  cases h with
  | name mem =>
    have hnames : ∀ p ∈ names, ';' ∉ p.1.toList := by decide
    exact hnames _ mem
  | decimal mem numeral =>
    intro h
    rcases List.mem_cons.1 h with h | h
    . cases h
    . exact absurd (mem_signed mem numeral h) (by decide)
  | hexadecimal x_eq mem numeral =>
    intro h
    rcases List.mem_cons.1 h with h | h
    . cases h
    . rcases List.mem_cons.1 h with rfl | h
      . rcases x_eq with h | h <;> cases h
      . exact absurd (mem_signed mem numeral h) (by decide)

theorem Denotes.mono {signs' : List (List Char)} (h : Denotes signs body c) (hsigns : signs ⊆ signs')
    : Denotes signs' body c := by
  cases h with
  | name mem => exact .name mem
  | decimal mem numeral => exact .decimal (hsigns mem) numeral
  | hexadecimal x_eq mem numeral => exact .hexadecimal x_eq (hsigns mem) numeral

end Bodies

section Passes

open Text

variable {out out' : List Char}

theorem read?_eq_some
    : read? cs = some (c, rest) ↔ ∃ body, Denotes lenient body c ∧ cs = body ++ ';' :: rest := by
  constructor
  . intro h
    have happend := List.takeWhile_append_dropWhile (p := (· != ';')) (l := cs)
    have hstops := stops_dropWhile (· != ';') cs
    unfold read? at h
    split at h
    . cases h
    . next d after heq =>
      rw [heq] at happend hstops
      obtain ⟨_, hc, heq'⟩ := Option.map_eq_some_iff.1 h
      cases heq'
      have hd : d = ';' := by simpa using hstops
      exact ⟨_, named?_eq_some.1 hc, hd ▸ happend.symm⟩
  . rintro ⟨body, h, rfl⟩
    exact read?_append h.not_mem (named?_eq_some.2 h) rest

theorem decodeChars_replace (h : Denotes lenient body c) (rest : List Char)
    : decodeChars ('&' :: (body ++ ';' :: rest)) = c :: decodeChars rest := by
  simpa using decodeChars_append (.reference body h.not_mem (named?_eq_some.2 h)) rest

theorem decodeChars_copy (h : ¬ Begins lenient (c :: rest))
    : decodeChars (c :: rest) = c :: decodeChars rest := by
  by_cases hc : c = '&'
  . subst hc
    rw [decodeChars]
    split
    . next hread =>
      obtain ⟨body, hbody, rfl⟩ := read?_eq_some.1 hread
      exact absurd ⟨body, _, _, hbody, rfl⟩ h
    . rfl
  . rw [decodeChars]
    exact hc

theorem Pass.decodeChars_eq (h : Pass lenient cs out) : decodeChars cs = out := by
  induction h with
  | done => rw [decodeChars]
  | replace denotes _ ih => rw [decodeChars_replace denotes, ih]
  | copy plain _ ih => rw [decodeChars_copy plain, ih]

theorem pass_decodeChars (cs : List Char) : Pass lenient cs (decodeChars cs) := by
  match cs with
  | [] =>
    rw [decodeChars]
    exact .done
  | c :: rest =>
    by_cases h : Begins lenient (c :: rest)
    . obtain ⟨body, d, after, hbody, heq⟩ := h
      rw [heq, decodeChars_replace hbody]
      have := congrArg List.length heq
      exact .replace hbody (pass_decodeChars after)
    . rw [decodeChars_copy h]
      exact .copy h (pass_decodeChars rest)
termination_by cs.length
decreasing_by all_goals simp_all <;> omega

theorem decodeChars_iff : decodeChars cs = out ↔ Pass lenient cs out :=
  ⟨fun h => h ▸ pass_decodeChars cs, Pass.decodeChars_eq⟩

theorem Pass.congr {signs' : List (List Char)} (h : Pass signs cs out)
    (same : ∀ body c rest, '&' :: (body ++ ';' :: rest) <:+ cs →
      (Denotes signs body c ↔ Denotes signs' body c))
    : Pass signs' cs out := by
  induction h with
  | done => exact .done
  | @replace body rest out c denotes _ ih =>
    refine .replace ((same body c rest List.suffix_rfl).1 denotes) (ih ?_)
    intro body' c' rest' h
    refine same body' c' rest' (h.trans ?_)
    exact ⟨'&' :: (body ++ [';']), by simp⟩
  | @copy c rest out plain _ ih =>
    refine .copy ?_ (ih fun body' c' rest' h => same body' c' rest' (h.trans (List.suffix_cons c rest)))
    rintro ⟨body, d, after, denotes, heq⟩
    exact plain ⟨body, d, after, (same body d after (heq ▸ List.suffix_rfl)).2 denotes, heq⟩

def signedMarks : List (List Char) :=
  ["&#+".toList, "&#x+".toList, "&#X+".toList]

theorem unsigned_of_not_mem (h : '+' ∉ cs) : ∀ mark ∈ signedMarks, ¬ mark <:+: cs := by
  have hplus : ∀ mark ∈ signedMarks, '+' ∈ mark := by decide
  intro mark hmark hcs
  exact h (hcs.subset (hplus mark hmark))

theorem denotes_documented (unsigned : ∀ mark ∈ signedMarks, ¬ mark <+: '&' :: (body ++ rest))
    : Denotes documented body c ↔ Denotes lenient body c := by
  constructor
  . exact fun h => h.mono (by decide)
  . intro h
    cases h with
    | name mem => exact .name mem
    | decimal mem numeral =>
      rcases mem_lenient.1 mem with rfl | rfl
      . exact .decimal (by decide) numeral
      . exact absurd (by simp) (unsigned "&#+".toList (by decide))
    | hexadecimal x_eq mem numeral =>
      rcases mem_lenient.1 mem with rfl | rfl
      . exact .hexadecimal x_eq (by decide) numeral
      . rcases x_eq with rfl | rfl
        . exact absurd (by simp) (unsigned "&#x+".toList (by decide))
        . exact absurd (by simp) (unsigned "&#X+".toList (by decide))

theorem pass_documented (unsigned : ∀ mark ∈ signedMarks, ¬ mark <:+: cs)
    : Pass documented cs out ↔ Pass lenient cs out := by
  have same : ∀ body c rest, '&' :: (body ++ ';' :: rest) <:+ cs →
      (Denotes documented body c ↔ Denotes lenient body c) := by
    intro body c rest h
    exact denotes_documented fun mark hmark hfront =>
      unsigned mark hmark (hfront.isInfix.trans h.isInfix)
  constructor
  . exact fun h => h.congr same
  . exact fun h => h.congr fun body c rest hsuffix => (same body c rest hsuffix).symm

theorem pass_of_not_mem (h : '&' ∉ cs) : Pass signs cs cs := by
  induction cs with
  | nil => exact .done
  | cons c cs ih =>
    refine .copy ?_ (ih fun hmem => h (List.mem_cons_of_mem c hmem))
    rintro ⟨body, d, rest, -, heq⟩
    exact h (heq ▸ List.mem_cons_self)

/--
Decoding is the pass that replaces the references with or without a plus sign. It is the documented pass
over every text without a plus sign in front of digits.
-/
theorem decode_eq_iff (s out : String)
    : (decode s = out ↔ Pass lenient s.toList out.toList) ∧
        ((∀ mark ∈ signedMarks, ¬ mark <:+: s.toList) →
          (decode s = out ↔ Pass documented s.toList out.toList)) := by
  have hdecode : decode s = out ↔ Pass lenient s.toList out.toList := by
    rw [← decodeChars_iff, decode]
    constructor
    . rintro rfl
      rw [String.toList_ofList]
    . intro h
      rw [h, String.ofList_toList]
  refine ⟨hdecode, ?_⟩
  intro unsigned
  rw [hdecode, pass_documented unsigned]

/-- A reference that is written out by a reference stays as it is. -/
theorem decode_eq_iff_ampersand
    : (∀ mark ∈ signedMarks, ¬ mark <:+: "&amp;lt;".toList) ∧ decode "&amp;lt;" = "&lt;" := by
  have unsigned : ∀ mark ∈ signedMarks, ¬ mark <:+: "&amp;lt;".toList := unsigned_of_not_mem (by decide)
  have pass : Pass documented "&amp;lt;".toList "&lt;".toList :=
    .replace (.name (by decide : ("amp", '&') ∈ names)) (pass_of_not_mem (by decide))
  exact ⟨unsigned, ((decode_eq_iff "&amp;lt;" "&lt;").2 unsigned).2 pass⟩

theorem not_begins_documented_plus : ¬ Begins documented ("&#+".toList ++ cs) := by
  rintro ⟨body, c, rest, denotes, heq⟩
  have hbody : '#' :: '+' :: cs = body ++ ';' :: rest := (List.cons.inj heq).2
  cases denotes with
  | @name name c mem =>
    have hnames : ∀ p ∈ names, p.1.toList.head?.any (· != '#') := by decide
    have hhead := hnames _ mem
    cases hname : name.toList with
    | nil =>
      rw [hname] at hhead
      cases hhead
    | cons d ds =>
      rw [hname] at hhead hbody
      exact (bne_iff_ne.1 hhead) (List.cons.inj hbody).1.symm
  | @decimal _ digits c mem numeral =>
    cases List.mem_singleton.1 mem
    cases digits with
    | nil => exact numeral.1 rfl
    | cons d ds =>
      obtain ⟨_, hd⟩ := numeral.exists_isDigit List.mem_cons_self
      cases (List.cons.inj (List.cons.inj hbody).2).1
      exact absurd hd.mem (by decide)
  | hexadecimal x_eq =>
    cases (List.cons.inj (List.cons.inj hbody).2).1
    rcases x_eq with h | h <;> cases h

/-- A number with a plus sign is replaced, where the documented pass copies it. -/
theorem decode_signed
    : decode "&#+65;" = "A" ∧ Pass documented "&#+65;".toList "&#+65;".toList
        ∧ ¬ Pass documented "&#+65;".toList "A".toList := by
  refine ⟨?_, .copy not_begins_documented_plus (pass_of_not_mem (by decide)), ?_⟩
  . have numeral : IsNumeral 10 ['6', '5'] 'A'.toNat :=
      ⟨by decide, [6, 5], by simp [IsDigit], by decide⟩
    have plus : ['+'] ∈ lenient := by decide
    have pass : Pass lenient "&#+65;".toList ['A'] := .replace (.decimal plus numeral) .done
    rw [decode, pass.decodeChars_eq]
  . intro pass
    generalize hcs : "&#+65;".toList = cs at pass
    cases pass with
    | replace denotes _ =>
      have begins : Begins documented "&#+65;".toList := ⟨_, _, _, denotes, hcs⟩
      exact not_begins_documented_plus begins
    | copy => cases hcs

end Passes

end VirtualDom.Markup.Reference
