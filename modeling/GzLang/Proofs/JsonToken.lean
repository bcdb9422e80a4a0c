import GzLang.Json.Read
import GzLang.Json.Write
import GzLang.Proofs.Rounding

/-!
# Texts and numbers in JSON documents

What the writer puts into a document for a text or a number, the reader takes off it again: every
character is recovered from its escape (`text_append`), every integer from its digits
(`number?_int`), and every double from its shortest decimal (`number?_float`), which rounds to it.
A number has to be followed by a character that cannot belong to it (`Ends`).
-/

namespace GzLang.Json

open List Decimal

variable {whole t : List Char} (start : List Char)

variable {c : Char} {r : List Char}
variable {n m : Nat} {s : Scientific} {ds es : List Char} {a : Value × List Char} {q k : Int}

/-! ### Texts -/

theorem hexValue?_digitChar {d : Nat} (h : d < 16) : hexValue? (Nat.digitChar d) = some d := by
  interval_cases d <;> rfl

theorem hexPadded_four (h : n < 65536) : Text.hexPadded 4 n =
    [Nat.digitChar (n / 4096), Nat.digitChar (n / 256 % 16), Nat.digitChar (n / 16 % 16), Nat.digitChar (n % 16)] := by
  have hstep {k : Nat} (hk : 16 ≤ k) : Nat.toDigits 16 k = Nat.toDigits 16 (k / 16) ++ [Nat.digitChar (k % 16)] :=
    Nat.toDigits_of_base_le (by omega) hk
  have hlast {k : Nat} (hk : k < 16) : Nat.toDigits 16 k = [Nat.digitChar k] := Nat.toDigits_of_lt_base hk
  rw [Text.hexPadded]
  by_cases h₁ : n < 16
  · rw [hlast h₁, show n / 4096 = 0 by omega, show n / 256 % 16 = 0 by omega,
      show n / 16 % 16 = 0 by omega, show n % 16 = n by omega]
    rfl
  by_cases h₂ : n < 256
  · rw [hstep (by omega), hlast (by omega), show n / 4096 = 0 by omega,
      show n / 256 % 16 = 0 by omega, show n / 16 % 16 = n / 16 by omega]
    rfl
  by_cases h₃ : n < 4096
  · rw [hstep (by omega), hstep (by omega), hlast (by omega), show n / 4096 = 0 by omega,
      Nat.div_div_eq_div_mul, show n / 256 % 16 = n / 256 by omega]
    rfl
  · rw [hstep (by omega), hstep (by omega), hstep (by omega), hlast (by omega)]
    simp only [Nat.div_div_eq_div_mul]
    rfl

theorem hexUnit?_hexPadded (h : n < 65536) (r : List Char) : hexUnit? (Text.hexPadded 4 n ++ r) = some (n, r) := by
  have h₁ := hexValue?_digitChar (show n / 4096 < 16 by omega)
  have h₂ := hexValue?_digitChar (show n / 256 % 16 < 16 by omega)
  have h₃ := hexValue?_digitChar (show n / 16 % 16 < 16 by omega)
  have h₄ := hexValue?_digitChar (show n % 16 < 16 by omega)
  rw [hexPadded_four h]
  simp only [hexUnit?, cons_append, nil_append, h₁, h₂, h₃, h₄]
  exact congrArg (fun k => some (k, r)) (by omega)

theorem toNat_cases (c : Char) : c.toNat < 0xD800 ∨ 0xDFFF < c.toNat ∧ c.toNat < 0x110000 := c.valid

theorem textBody_unit (acc r : List Char) (fuel : Nat) (h : c.toNat < 0x10000) :
    textBody start (fuel + 1) acc (unitText c.toNat ++ r) = textBody start fuel (c :: acc) r := by
  have hunit : unitChar c.toNat r = (c, r) := by
    have := toNat_cases c
    unfold unitChar
    rw [if_neg (by omega), if_neg (by omega), Char.ofNat_toNat]
  show textBody start (fuel + 1) acc ('\\' :: 'u' :: (Text.hexPadded 4 c.toNat ++ r)) = _
  simp [textBody, hexUnit?_hexPadded h, hunit]

theorem unitChar_pair {u l : Nat} (hu : 0xD800 ≤ u ∧ u < 0xDC00) (hl : 0xDC00 ≤ l ∧ l < 0xE000)
    (hc : c.toNat = 0x10000 + (u - 0xD800) * 0x400 + (l - 0xDC00)) (r : List Char) :
    unitChar u (unitText l ++ r) = (c, r) := by
  have hlow := hexUnit?_hexPadded (show l < 65536 by omega) r
  unfold unitChar
  rw [if_pos hu]
  simp only [unitText, cons_append]
  rw [hlow]
  show (if 0xDC00 ≤ l ∧ l < 0xE000 then
    (Char.ofNat (0x10000 + (u - 0xD800) * 0x400 + (l - 0xDC00)), r) else _) = (c, r)
  rw [if_pos hl, ← hc, Char.ofNat_toNat]

theorem textBody_pair (acc r : List Char) (fuel : Nat) {u l : Nat} (hu : 0xD800 ≤ u ∧ u < 0xDC00)
    (hl : 0xDC00 ≤ l ∧ l < 0xE000) (hc : c.toNat = 0x10000 + (u - 0xD800) * 0x400 + (l - 0xDC00)) :
    textBody start (fuel + 1) acc (unitText u ++ unitText l ++ r) = textBody start fuel (c :: acc) r := by
  have hpair := unitChar_pair hu hl hc r
  have hhigh := hexUnit?_hexPadded (show u < 65536 by omega) (unitText l ++ r)
  rw [append_assoc]
  show textBody start (fuel + 1) acc ('\\' :: 'u' :: (Text.hexPadded 4 u ++ (unitText l ++ r))) = _
  simp [textBody, hhigh, hpair]

theorem textBody_escaped (acc r : List Char) (fuel : Nat) (c : Char) :
    textBody start (fuel + 1) acc (escaped c ++ r) = textBody start fuel (c :: acc) r := by
  have hchar {n : Nat} (h : c.toNat = n) : c = Char.ofNat n := by rw [← h, Char.ofNat_toNat]
  have hc := toNat_cases c
  simp only [escaped]
  split_ifs with hquote hslash hline hreturn htab hback hfeed hplain hunit
  · simp [hquote, textBody, escape?]
  · simp [hslash, textBody, escape?]
  · simp [hline, textBody, escape?]
  · simp [hreturn, textBody, escape?]
  · simp [htab, textBody, escape?]
  · simp [hchar hback, textBody, escape?]
  · simp [hchar hfeed, textBody, escape?]
  · simp only [Bool.and_eq_true, decide_eq_true_eq] at hplain
    simp [textBody, hquote, hslash, show ¬ c.toNat < 32 by omega]
  · exact textBody_unit start acc r fuel hunit
  · exact textBody_pair start acc r fuel (by omega) (by omega) (by omega)

theorem escaped_ne_nil (c : Char) : escaped c ≠ [] := by
  simp only [escaped]
  split_ifs <;> exact cons_ne_nil _ _

theorem length_le_flatMap_escaped (s : List Char) : s.length ≤ (s.flatMap escaped).length := by
  induction s with
  | nil => exact le_rfl
  | cons c s ih =>
    have := length_pos_of_ne_nil (escaped_ne_nil c)
    rw [flatMap_cons, length_append, length_cons]
    omega

theorem textBody_flatMap (r : List Char) (s acc : List Char) (fuel : Nat) (h : s.length < fuel) :
    textBody start fuel acc (s.flatMap escaped ++ '"' :: r) = .ok (String.ofList (acc.reverse ++ s), r) := by
  induction s generalizing acc fuel with
  | nil =>
    obtain ⟨fuel, rfl⟩ := Nat.exists_eq_succ_of_ne_zero (Nat.ne_of_gt h)
    simp [textBody]
  | cons c s ih =>
    obtain ⟨fuel, rfl⟩ := Nat.exists_eq_succ_of_ne_zero (Nat.ne_zero_of_lt h)
    rw [flatMap_cons, append_assoc, Nat.succ_eq_add_one, textBody_escaped,
      ih _ _ (by simpa using h), reverse_cons, append_assoc, singleton_append]

theorem text_append (s r : List Char) : text (s.flatMap escaped ++ '"' :: r) = .ok (String.ofList s, r) := by
  refine textBody_flatMap _ r s [] _ ?_
  have := length_le_flatMap_escaped s
  rw [length_append, length_cons]
  omega

/-! ### Digits -/

def Digits (ds : List Char) : Prop := ∀ c ∈ ds, isDigit c = true

theorem digits_toDigits (n : Nat) : Digits (Nat.toDigits 10 n) := by
  intro c hc
  exact Nat.isDigit_of_mem_toDigits (by omega) le_rfl hc

theorem digits_zeros (n : Nat) : Digits (replicate n '0') := by
  intro c hc
  rw [eq_of_mem_replicate hc]
  rfl

theorem Digits.append (hd : Digits ds) (he : Digits es) : Digits (ds ++ es) :=
  fun c hc => (mem_append.1 hc).elim (hd c) (he c)

theorem natOf_toDigits (n : Nat) : natOf (Nat.toDigits 10 n) = n := Nat.ofDigitChars_ten_toDigits

theorem natOf_zeros_append (n : Nat) (ds : List Char) : natOf (replicate n '0' ++ ds) = natOf ds := by
  show Nat.ofDigitChars 10 _ 0 = Nat.ofDigitChars 10 ds 0
  rw [Nat.ofDigitChars_append, Nat.ofDigitChars_replicate_zero, Nat.mul_zero]

theorem natOf_append_zeros (ds : List Char) (n : Nat) : natOf (ds ++ replicate n '0') = 10 ^ n * natOf ds := by
  show Nat.ofDigitChars 10 _ 0 = 10 ^ n * Nat.ofDigitChars 10 ds 0
  rw [Nat.ofDigitChars_append, Nat.ofDigitChars_replicate_zero]

def NoDigit (r : List Char) : Prop := ∀ c ∈ r.head?, isDigit c = false

theorem NoDigit.takeWhile (h : NoDigit r) : r.takeWhile isDigit = [] := by
  cases r with
  | nil => rfl
  | cons c r => simp [h c rfl]

theorem NoDigit.dropWhile (h : NoDigit r) : r.dropWhile isDigit = r := by
  cases r with
  | nil => rfl
  | cons c r => simp [h c rfl]

theorem Digits.takeWhile_append {r : List Char} (hd : Digits ds) (hr : NoDigit r) :
    (ds ++ r).takeWhile isDigit = ds := by
  rw [takeWhile_append_of_pos hd, hr.takeWhile, append_nil]

theorem Digits.dropWhile_append {r : List Char} (hd : Digits ds) (hr : NoDigit r) :
    (ds ++ r).dropWhile isDigit = r := by
  rw [dropWhile_append_of_pos hd, hr.dropWhile]

theorem head_toDigits (hn : 0 < n) : (Nat.toDigits 10 n).head? ≠ some '0' := by
  induction n using Nat.strong_induction_on with
  | _ n ih =>
    by_cases h : n < 10
    · rw [Nat.toDigits_of_lt_base h]
      interval_cases n <;> decide
    · rw [Nat.toDigits_of_base_le (by omega) (by omega), head?_append_of_ne_nil]
      · exact ih (n / 10) (by omega) (by omega)
      · exact Nat.toDigits_ne_nil

/-! ### The parts of a number -/

/-- What follows a number: nothing, or a character that cannot belong to it. -/
def Ends (r : List Char) : Prop :=
  ∀ c ∈ r.head?, isDigit c = false ∧ c ≠ '.' ∧ c ≠ 'e' ∧ c ≠ 'E'

theorem Ends.noDigit (h : Ends r) : NoDigit r := fun c hc => (h c hc).1

theorem Ends.fractionPart (h : Ends r) : fractionPart r = (none, r) := by
  cases r with
  | nil => rfl
  | cons c r =>
    unfold Json.fractionPart
    split
    next heq => exact absurd (List.cons.inj heq).1 (h c rfl).2.1
    next => rfl

theorem Ends.exponentPart (h : Ends r) : exponentPart r = (none, r) := by
  cases r with
  | nil => rfl
  | cons c r =>
    obtain ⟨-, -, hsmall, hlarge⟩ := h c rfl
    simp [Json.exponentPart, hsmall, hlarge]

theorem fractionPart_append {r : List Char} (hd : Digits ds) (hne : ds ≠ []) (hr : NoDigit r) :
    fractionPart ('.' :: (ds ++ r)) = (some ds, r) := by
  simp [fractionPart, hd.takeWhile_append hr, hd.dropWhile_append hr, hne]

theorem noDigit_exponentText (e : Int) (r : List Char) : NoDigit ((exponentText e).toList ++ r) := by
  intro c hc
  unfold exponentText at hc
  split at hc
  all_goals
    simp at hc
    subst hc
    rfl

theorem fractionPart_exponentText (e : Int) (r : List Char) :
    fractionPart ((exponentText e).toList ++ r) = (none, (exponentText e).toList ++ r) := by
  unfold exponentText
  split <;> simp [fractionPart]

theorem natOf_padded (width n : Nat) : Digits (padded width n).toList ∧
    (padded width n).toList ≠ [] ∧ natOf (padded width n).toList = n := by
  rw [padded, String.toList_ofList]
  refine ⟨(digits_zeros _).append (digits_toDigits _), ?_, ?_⟩
  · exact append_ne_nil_of_right_ne_nil _ Nat.toDigits_ne_nil
  · rw [natOf_zeros_append, natOf_toDigits]

theorem exponentPart_exponentText (e : Int) (hr : NoDigit r) :
    exponentPart ((exponentText e).toList ++ r) = (some e, r) := by
  obtain ⟨hdigits, hne, hnat⟩ := natOf_padded 2 e.natAbs
  rw [exponentText, String.toList_append]
  generalize (padded 2 e.natAbs).toList = ds at hdigits hne hnat
  by_cases hneg : e < 0
  · have he : -(natOf ds : Int) = e := by omega
    simp [hneg, exponentPart, hdigits.takeWhile_append hr, hdigits.dropWhile_append hr, hne, he]
  · have he : (natOf ds : Int) = e := by omega
    simp [hneg, exponentPart, hdigits.takeWhile_append hr, hdigits.dropWhile_append hr, hne, he]

/-! ### Numbers -/

def sign (negative : Bool) : List Char := if negative then ['-'] else []

/-- The digits in front of the point: a zero alone, or digits that do not start with a zero. -/
structure Whole (ds : List Char) : Prop where
  digits : Digits ds
  ne_nil : ds ≠ []
  head : ds = ['0'] ∨ ds.head? ≠ some '0'

theorem Whole.signPart_append (h : Whole whole) (negative : Bool) (t : List Char) :
    signPart (sign negative ++ (whole ++ t)) = (negative, whole ++ t) := by
  obtain ⟨c, ws, rfl⟩ := exists_cons_of_ne_nil h.ne_nil
  have hc : c ≠ '-' := by
    rintro rfl
    exact absurd (h.digits _ mem_cons_self) (by decide)
  cases negative
  · simp [sign, signPart, hc]
  · simp [sign, signPart]

theorem Whole.wholePart_append (h : Whole whole) (ht : NoDigit t) : wholePart (whole ++ t) = whole := by
  rcases h.head with rfl | hhead
  · rfl
  · obtain ⟨c, ws, rfl⟩ := exists_cons_of_ne_nil h.ne_nil
    have hc : c ≠ '0' := fun hc => hhead (congrArg some hc)
    have htake := h.digits.takeWhile_append ht
    rw [cons_append] at htake ⊢
    unfold wholePart
    simp [hc, htake]

/-- A number with a point or an exponent is read by its parts. -/
theorem number?_of_parts (negative : Bool) {t' r : List Char} {f : Option (List Char)} {e : Option Int}
    (h : Whole whole) (ht : NoDigit t) (hf : fractionPart t = (f, t')) (he : exponentPart t' = (e, r))
    (hfe : f.isSome ∨ e.isSome) : number? (sign negative ++ (whole ++ t)) =
      some (.float (floatOf negative (natOf (whole ++ f.getD [])) (e.getD 0 - (f.getD []).length)), r) := by
  unfold number?
  simp only [h.signPart_append, h.wholePart_append ht, List.drop_left, hf, he, List.isEmpty_iff, h.ne_nil, if_false]
  cases f with
  | some f => rfl
  | none =>
    cases e with
    | some e => rfl
    | none => simp at hfe

theorem number?_int (negative : Bool) {r : List Char} (h : Whole whole) (hr : Ends r) :
    number? (sign negative ++ (whole ++ r)) =
      some (.int (if negative then -(natOf whole : Int) else natOf whole), r) := by
  unfold number?
  simp only [h.signPart_append, h.wholePart_append hr.noDigit, List.drop_left, hr.fractionPart,
    hr.exponentPart, List.isEmpty_iff, h.ne_nil, if_false]

theorem whole_toDigits (n : Nat) : Whole (Nat.toDigits 10 n) := by
  refine ⟨digits_toDigits n, Nat.toDigits_ne_nil, ?_⟩
  rcases Nat.eq_zero_or_pos n with rfl | hn
  · exact .inl rfl
  · exact .inr (head_toDigits hn)

/-! ### Doubles -/

theorem ten_zpow_lt_least : (10 : ℝ) ^ (-331 : Int) < 1 / 2 * 2 ^ (-1074 : Int) := by
  have hnat : (2 : Nat) * 2 ^ 1074 < 10 ^ 331 := by decide +kernel
  rw [zpow_neg, zpow_neg, one_div, ← mul_inv, inv_lt_inv₀ (by positivity) (by positivity)]
  exact_mod_cast hnat

theorem greatest_lt_ten_zpow : (2 : ℝ) ^ 53 * 2 ^ (971 : Int) < 10 ^ (310 : Int) := by
  have hnat : (2 : Nat) ^ 53 * 2 ^ 971 < 10 ^ 310 := by decide +kernel
  exact_mod_cast hnat

/-- The numbers that round to a double are neither too small nor too large to be looked at. -/
theorem size_of_rounds (h : InRange m q) (hm : 0 < m) (hn : 0 < n)
    (hr : Rounds m q (n * 10 ^ k)) : -330 ≤ k + digitCount n ∧ k + digitCount n ≤ 310 := by
  have hlow : (10 : ℝ) ^ (-331 : Int) < 10 ^ (k + digitCount n) := by
    have hone : (1 : ℝ) ≤ m := by exact_mod_cast hm
    have hreach := reach_le m q
    calc (10 : ℝ) ^ (-331 : Int) < 1 / 2 * 2 ^ (-1074 : Int) := ten_zpow_lt_least
      _ ≤ 1 / 2 * 2 ^ q := by
        gcongr
        · norm_num
        · exact h.least
      _ ≤ (m - reach m q) * 2 ^ q := by
        gcongr
        linarith
      _ ≤ n * 10 ^ k := hr.low
      _ ≤ 10 ^ digitCount n * 10 ^ k := by
        gcongr
        exact_mod_cast (lt_pow_digitCount n).le
      _ = 10 ^ (k + digitCount n) := by rw [zpow_add₀ (by norm_num), zpow_natCast, mul_comm]
  have hhigh : (10 : ℝ) ^ (k + digitCount n - 1) < 10 ^ (310 : Int) := by
    have hmant : (m : ℝ) + 1 / 2 ≤ 2 ^ 53 := by
      have : (m : ℝ) + 1 ≤ 2 ^ 53 := by exact_mod_cast h.mantissa
      linarith
    have hdigits : (10 : ℝ) ^ ((digitCount n : Int) - 1) ≤ n := by
      have := pow_digitCount_le hn
      rw [← Nat.cast_pred (digitCount_pos n), zpow_natCast]
      exact_mod_cast this
    calc (10 : ℝ) ^ (k + digitCount n - 1) = 10 ^ ((digitCount n : Int) - 1) * 10 ^ k := by
          rw [← zpow_add₀ (by norm_num)]
          ring_nf
      _ ≤ n * 10 ^ k := by gcongr
      _ ≤ (m + 1 / 2) * 2 ^ q := hr.high
      _ ≤ 2 ^ 53 * 2 ^ q := by gcongr
      _ ≤ 2 ^ 53 * 2 ^ (971 : Int) := by
        gcongr
        · norm_num
        · exact h.greatest
      _ < 10 ^ (310 : Int) := greatest_lt_ten_zpow
  have := lt_of_ten_zpow_lt hlow
  have := lt_of_ten_zpow_lt hhigh
  omega

theorem floatOf_of_rounds (negative : Bool) (h : InRange m q) (hm : 0 < m) (hr : Rounds m q (n * 10 ^ k)) :
    floatOf negative n k = encode negative m q := by
  have hn : 0 < n := by
    have := hr.pos hm
    by_contra hzero
    rw [Nat.eq_zero_of_not_pos hzero] at this
    simp at this
  obtain ⟨hsmall, hlarge⟩ := size_of_rounds h hm hn hr
  rw [digitCount] at hsmall hlarge
  unfold floatOf
  simp only [beq_iff_eq, hn.ne', show ¬ k + (Nat.toDigits 10 n).length < -330 by omega, decide_false,
    Bool.or_false, if_false, show ¬ k + (Nat.toDigits 10 n).length > 310 by omega]
  by_cases hk : k < 0
  · have hfraction : (n : ℝ) / (Nat.pow 10 (-k).toNat : Nat) = n * 10 ^ k := by
      rw [cast_pow_toNat 10 (by omega), zpow_neg, div_inv_eq_mul]
      rfl
    rw [if_pos hk, ofFraction?_of_rounds negative h hm (by simp only [Nat.pow_eq]; positivity)
      (hfraction ▸ hr)]
    rfl
  · have hfraction : ((n * Nat.pow 10 k.toNat : Nat) : ℝ) / (1 : Nat) = n * 10 ^ k := by
      rw [Nat.cast_mul, cast_pow_toNat 10 (by omega), Nat.cast_one, div_one]
      rfl
    rw [if_neg hk, ofFraction?_of_rounds negative h hm Nat.one_pos (hfraction ▸ hr)]
    rfl

/-- The digits of a decimal are as many as it counts. -/
theorem length_digits (h : s.Leads) (hcount : 0 < s.count) : (Nat.toDigits 10 s.digits).length = s.count := by
  show digitCount s.digits = s.count
  have hle : digitCount s.digits ≤ s.count := (digitCount_le_iff hcount).2 h.high
  have hpos := digitCount_pos s.digits
  by_contra hlt
  have := (digitCount_le_iff (show 0 < s.count - 1 by omega)).1
    (show digitCount s.digits ≤ s.count - 1 by omega)
  have := h.low
  omega

theorem digits_pos (h : s.Leads) : 0 < s.digits := lt_of_lt_of_le (by positivity) h.low

theorem number?_small (negative : Bool) (zeros : Nat) {r : List Char} (hd : Digits ds) (hne : ds ≠ []) (hr : Ends r) :
    number? (sign negative ++ ('0' :: '.' :: (replicate zeros '0' ++ ds) ++ r)) =
      some (.float (floatOf negative (natOf ds) (0 - (zeros + ds.length : Nat))), r) := by
  have hwhole : Whole ['0'] := whole_toDigits 0
  have hfraction := fractionPart_append ((digits_zeros zeros).append hd)
    (append_ne_nil_of_right_ne_nil _ hne) hr.noDigit
  have h := number?_of_parts negative hwhole (by rintro c ⟨⟩; rfl) hfraction hr.exponentPart (.inl rfl)
  rw [Option.getD_some, Option.getD_none, length_append, length_replicate,
    show ['0'] = replicate 1 '0' from rfl, natOf_zeros_append, natOf_zeros_append] at h
  exact h

theorem number?_point (negative : Bool) {fraction r : List Char} (hw : Whole whole)
    (hf : Digits fraction) (hne : fraction ≠ []) (hr : Ends r) :
    number? (sign negative ++ (whole ++ '.' :: fraction ++ r)) =
      some (.float (floatOf negative (natOf (whole ++ fraction)) (0 - fraction.length)), r) := by
  have h := number?_of_parts negative hw (by rintro c ⟨⟩; rfl) (fractionPart_append hf hne hr.noDigit)
    hr.exponentPart (.inl rfl)
  rw [append_assoc, cons_append]
  exact h

section Decimals

variable (negative : Bool) {ds r : List Char} (hd : Digits ds) (hne : ds ≠ []) (hhead : ds.head? ≠ some '0')
  (hr : Ends r)

theorem Whole.append_digits (hw : Digits whole) (hne : whole ≠ [])
    (hhead : whole.head? ≠ some '0') (he : Digits es) : Whole (whole ++ es) := by
  refine ⟨hw.append he, append_ne_nil_of_left_ne_nil hne es, .inr ?_⟩
  rwa [head?_append_of_ne_nil _ hne]

include hd hne hhead hr in
theorem number?_positional (e : Int) : ∃ (n : Nat) (k : Int),
    number? (sign negative ++ ((positionalText ds e).toList ++ r)) =
      some (.float (floatOf negative n k), r) ∧ (n : ℝ) * 10 ^ k = natOf ds * 10 ^ (e - ds.length + 1) := by
  unfold positionalText
  by_cases he : e < 0
  · refine ⟨_, _, ?_, rfl⟩
    rw [if_pos he, String.toList_ofList, number?_small negative _ hd hne hr]
    congr 4
    omega
  rw [if_neg he, String.toList_ofList]
  by_cases hlong : e.toNat + 1 < ds.length
  · have hfront : (ds.take (e.toNat + 1)).length = e.toNat + 1 := length_take_of_le hlong.le
    have hback : ds.drop (e.toNat + 1) ≠ [] := by
      rw [ne_eq, drop_eq_nil_iff]
      omega
    have hwhole : Whole (ds.take (e.toNat + 1)) :=
      ⟨fun c hc => hd c (mem_of_mem_take hc), by simp [hne], .inr (by simpa [head?_take] using hhead)⟩
    refine ⟨_, _, ?_, rfl⟩
    simp only [hfront, Nat.sub_self, replicate_zero, append_nil, List.isEmpty_iff, hback, if_false]
    rw [number?_point negative hwhole (fun c hc => hd c (mem_of_mem_drop hc)) hback hr, take_append_drop, length_drop]
    congr 4
    omega
  · have hback : ds.drop (e.toNat + 1) = [] := drop_eq_nil_iff.2 (by omega)
    have hfront : ds.take (e.toNat + 1) = ds := take_of_length_le (by omega)
    have hwhole := Whole.append_digits hd hne hhead (digits_zeros (e.toNat + 1 - ds.length))
    simp only [hback, hfront, isEmpty_nil, if_true]
    refine ⟨_, _, number?_point negative hwhole (digits_zeros 1) (cons_ne_nil _ _) hr, ?_⟩
    rw [append_assoc, ← replicate_succ', natOf_append_zeros]
    push_cast
    rw [mul_comm ((10 : ℝ) ^ _), mul_assoc, ← zpow_natCast, ← zpow_add₀ (by norm_num)]
    congr 2
    simp only [length_singleton]
    omega

include hd hne hhead hr in
theorem number?_exponent (e : Int) : number? (sign negative ++ ((mantissaText ds ++ exponentText e).toList ++ r)) =
      some (.float (floatOf negative (natOf ds) (e - ds.length + 1)), r) := by
  have hexponent := exponentPart_exponentText e hr.noDigit
  obtain ⟨d, cs, rfl⟩ := exists_cons_of_ne_nil hne
  have hfirst : Digits [d] := fun c hc => hd c (by simp_all)
  have hwhole : Whole [d] := ⟨hfirst, cons_ne_nil _ _, .inr hhead⟩
  cases cs with
  | nil =>
    have h := number?_of_parts negative hwhole (noDigit_exponentText e r) (fractionPart_exponentText e r)
      hexponent (.inr rfl)
    simpa [mantissaText] using h
  | cons c cs =>
    have hfraction := fractionPart_append (fun x hx => hd x (mem_cons_of_mem d hx))
      (cons_ne_nil c cs) (noDigit_exponentText e r)
    have h := number?_of_parts negative hwhole (by rintro x ⟨⟩; rfl) hfraction hexponent (.inl rfl)
    rw [show e - ((d :: c :: cs).length : Nat) + 1 = e - ((c :: cs).length : Nat) by simp; omega]
    simpa [mantissaText] using h

end Decimals

theorem number?_scientific (negative : Bool) (h : s.Leads) (hcount : 0 < s.count) (hr : Ends r) : ∃ (n : Nat) (k : Int),
      number? (sign negative ++ (s.text.toList ++ r)) = some (.float (floatOf negative n k), r) ∧
      (n : ℝ) * 10 ^ k = s.number := by
  have hdigits := digits_toDigits s.digits
  have hhead := head_toDigits (digits_pos h)
  have hnumber : s.number = natOf (Nat.toDigits 10 s.digits) *
      10 ^ (s.exponent - (Nat.toDigits 10 s.digits).length + 1) := by
    rw [Scientific.number, natOf_toDigits, length_digits h hcount]
  rw [hnumber]
  simp only [Scientific.text]
  split
  · exact number?_positional negative hdigits Nat.toDigits_ne_nil hhead hr _
  · exact ⟨_, _, number?_exponent negative hdigits Nat.toDigits_ne_nil hhead hr _, rfl⟩

theorem number?_shortestText {x : Float} {negative : Bool} (hx : decode x = .finite negative m q) (hr : Ends r) :
    number? ((shortestText x).toList ++ r) = some (.float x, r) := by
  have hrange := inRange_of_decode hx
  have htext : (shortestText x).toList ++ r = sign negative ++
      ((if m == 0 then "0.0" else (shortest m q).text).toList ++ r) := by
    rw [shortestText, hx]
    cases negative <;> simp [sign]
  rw [htext]
  rcases Nat.eq_zero_or_pos m with rfl | hm
  · have hq : q = -1074 := hrange.normal.resolve_left (by omega)
    have hwhole : Whole ['0'] := whole_toDigits 0
    have h := number?_point negative hwhole (digits_zeros 1) (cons_ne_nil _ _) hr
    have hzero : floatOf negative (natOf (['0'] ++ replicate 1 '0')) (0 - (replicate 1 '0').length) = x := by
      apply decode_injective
      rw [hx, hq]
      cases negative <;> rfl
    have htext : "0.0".toList = ['0'] ++ '.' :: replicate 1 '0' := by decide
    rw [if_pos (beq_self_eq_true 0), htext, h, hzero]
  · obtain ⟨hleads, hcount, -, hrounds⟩ := rounds_shortest hrange hm
    obtain ⟨n, k, hread, hnumber⟩ := number?_scientific negative hleads hcount hr
    rw [if_neg (by simpa using hm.ne'), hread, floatOf_of_rounds negative hrange hm (hnumber ▸ hrounds),
      encode_of_decode hx]

/-! ### Words -/

theorem word?_of_head (h : c ∉ ['n', 't', 'f', 'N', 'I', '-']) (r : List Char) : word? (c :: r) = none := by
  simp only [mem_cons, not_mem_nil, or_false, not_or] at h
  obtain ⟨hn, ht, hf, hN, hI, hminus⟩ := h
  simp [word?, Ne.symm hn, Ne.symm ht, Ne.symm hf, Ne.symm hN, Ne.symm hI, Ne.symm hminus]

theorem word?_minus (h : c ≠ 'I') (r : List Char) : word? ('-' :: c :: r) = none := by
  simp [word?, h.symm]

theorem ne_of_isDigit {c c' : Char} (h : isDigit c) (h' : isDigit c' = false) : c ≠ c' := by
  rintro rfl
  rw [h] at h'
  cases h'

theorem exists_digit_of_wholePart (h : wholePart t ≠ []) : ∃ c r, t = c :: r ∧ isDigit c := by
  cases t with
  | nil => exact absurd rfl h
  | cons c r =>
    refine ⟨c, r, rfl, ?_⟩
    by_contra hc
    refine h ?_
    unfold wholePart
    simp [hc, show c ≠ '0' from fun heq => hc (heq ▸ rfl)]

theorem head_of_number? {s : List Char} (h : number? s = some a) :
    (∃ c r, s = c :: r ∧ isDigit c) ∨ ∃ c r, s = '-' :: c :: r ∧ isDigit c := by
  have hwhole : wholePart (signPart s).2 ≠ [] := by
    intro hnil
    unfold number? at h
    simp [hnil] at h
  obtain ⟨c, r, hs, hc⟩ := exists_digit_of_wholePart hwhole
  by_cases hminus : s.head? = some '-'
  · obtain ⟨t, rfl⟩ := head?_eq_some_iff.1 hminus
    exact .inr ⟨c, r, congrArg _ hs, hc⟩
  · refine .inl ⟨c, r, ?_, hc⟩
    rw [← hs]
    unfold signPart
    split
    next heq => exact absurd rfl hminus
    next => rfl

theorem word?_of_number? {s : List Char} (h : number? s = some a) : word? s = none := by
  rcases head_of_number? h with ⟨c, r, rfl, hc⟩ | ⟨c, r, rfl, hc⟩
  · refine word?_of_head (fun hmem => ?_) r
    fin_cases hmem <;> exact absurd hc (by decide)
  · exact word?_minus (ne_of_isDigit hc rfl) r

/-! ### Line ends -/

/-- A text without carriage returns, which is read from a file as it was written. -/
def NoReturn (t : List Char) : Prop := '\r' ∉ t

theorem NoReturn.append {u : List Char} (ht : NoReturn t) (hu : NoReturn u) : NoReturn (t ++ u) :=
  fun h => (mem_append.1 h).elim ht hu

theorem NoReturn.cons (hc : c ≠ '\r') (ht : NoReturn t) : NoReturn (c :: t) :=
  fun h => (mem_cons.1 h).elim (fun heq => hc heq.symm) ht

theorem Digits.noReturn (h : Digits ds) : NoReturn ds := fun hmem => absurd (h _ hmem) (by decide)

theorem noReturn_unitText {u : Nat} (h : u < 65536) : NoReturn (unitText u) := by
  have hdigit : ∀ d < 16, '\r' ≠ Nat.digitChar d := by decide
  rw [NoReturn, unitText, hexPadded_four h]
  simp [hdigit (u / 4096) (by omega), hdigit (u / 256 % 16) (by omega), hdigit (u / 16 % 16) (by omega),
    hdigit (u % 16) (by omega)]

theorem noReturn_escaped (c : Char) : NoReturn (escaped c) := by
  have hc := toNat_cases c
  simp only [escaped]
  split_ifs with hquote hslash hline hreturn htab hback hfeed hplain hunit
  all_goals try simp [NoReturn]; done
  · simp [NoReturn, Ne.symm hreturn]
  · exact noReturn_unitText hunit
  · exact (noReturn_unitText (by omega)).append (noReturn_unitText (by omega))

theorem noReturn_textOf (s : String) : NoReturn (textOf s).toList := by
  rw [textOf, String.toList_ofList]
  intro h
  simp only [mem_cons, mem_append, mem_flatMap, not_mem_nil, or_false] at h
  rcases h with h | ⟨c, -, hc⟩ | h
  · cases h
  · exact noReturn_escaped c hc
  · cases h

theorem noReturn_key (k : String) : NoReturn (textOf k ++ ": ").toList := by
  rw [String.toList_append]
  exact (noReturn_textOf k).append (by simp [NoReturn])

theorem noReturn_positionalText (hd : NoReturn ds) (e : Int) : NoReturn (positionalText ds e).toList := by
  have htake (n : Nat) : '\r' ∉ ds.take n := fun h => hd (mem_of_mem_take h)
  have hdrop (n : Nat) : '\r' ∉ ds.drop n := fun h => hd (mem_of_mem_drop h)
  rw [NoReturn] at hd ⊢
  simp only [positionalText]
  split
  · simp [hd]
  · split
    · simp [htake]
    · simp [htake, hdrop]

theorem noReturn_scientific (s : Scientific) : NoReturn s.text.toList := by
  have hdigits := (digits_toDigits s.digits).noReturn
  have hexponent : NoReturn (exponentText s.exponent).toList := by
    rw [exponentText, String.toList_append]
    refine NoReturn.append ?_ (natOf_padded 2 _).1.noReturn
    split <;> simp [NoReturn]
  simp only [Scientific.text]
  split
  · exact noReturn_positionalText hdigits _
  · rw [String.toList_append]
    refine NoReturn.append ?_ hexponent
    rw [NoReturn] at hdigits ⊢
    unfold mantissaText
    split <;> simp_all

theorem noReturn_floatText (x : Float) : NoReturn (floatText x).toList := by
  cases hx : decode x with
  | nan => simp [floatText, hx, NoReturn]
  | infinite negative => cases negative <;> simp [floatText, hx, NoReturn]
  | finite negative m q =>
    have hbody : NoReturn (if m == 0 then "0.0" else (shortest m q).text).toList := by
      split
      · simp [NoReturn]
      · exact noReturn_scientific _
    have htext : (floatText x).toList = sign negative ++ (if m == 0 then "0.0" else (shortest m q).text).toList := by
      simp only [floatText, shortestText, hx]
      cases negative <;> simp [sign]
    rw [htext]
    refine NoReturn.append ?_ hbody
    cases negative <;> simp [sign, NoReturn]

end GzLang.Json
