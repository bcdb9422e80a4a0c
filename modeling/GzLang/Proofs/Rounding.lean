import GzLang.Decimal.Shortest
import GzLang.Proofs.Double

/-!
# Rounding to doubles and back

The numbers that round to a double make up an interval around it (`Rounds`): it reaches half a unit of
the mantissa to both sides, but only a quarter down to the next smaller power of two.
`ofFraction?_of_rounds` says that every fraction in the interval gives the double. The shortest decimal
of a double is found in that interval, since seventeen digits are always enough to reach it
(`rounds_shortest`), and so it gives the double again.
-/

namespace GzLang.Decimal

variable {n d count : Nat} {f : Nat × Nat} (negative : Bool)

variable {q : Int} {m : Nat}
variable {k : Nat} {i : Interval} {g : Nat × Nat} {s : Scientific}

/-! ### Rounding a quotient -/

/-- A quotient is rounded to the natural number that it is nearest to, and to the even one of two. -/
theorem roundDiv_eq (hlow : 2 * (k * d) ≤ 2 * n + d) (hhigh : 2 * n ≤ 2 * (k * d) + d)
    (hd : 0 < d) (htie : 2 * (k * d) = 2 * n + d ∨ 2 * n = 2 * (k * d) + d → k % 2 = 0) : roundDiv n d = k := by
  have hn := Nat.div_add_mod n d
  have hr := Nat.mod_lt n hd
  rw [Nat.mul_comm] at hn
  have hle : n / d ≤ k := by
    by_contra hlt
    have := Nat.mul_le_mul_right d (show k + 1 ≤ n / d by omega)
    rw [Nat.add_mul] at this
    omega
  have hge : k ≤ n / d + 1 := by
    by_contra hlt
    have := Nat.mul_le_mul_right d (show n / d + 2 ≤ k by omega)
    rw [Nat.add_mul] at this
    omega
  rw [roundDiv, halfEven]
  simp only [beq_iff_eq]
  rcases (by omega : k = n / d ∨ k = n / d + 1) with rfl | rfl
  · split
    · rfl
    · rw [if_neg (by omega), if_pos (htie (.inr (by omega)))]
  · rw [Nat.add_mul] at hlow hhigh htie
    rw [if_neg (by omega)]
    split
    · rfl
    · rw [if_neg (by have := htie (.inl (by omega)); omega)]

theorem cast_two_pow {k : Int} (hk : 0 ≤ k) : ((Nat.pow 2 k.toNat : Nat) : ℝ) = 2 ^ k := by
  rw [Nat.pow_eq, Nat.cast_pow, ← zpow_natCast, Int.toNat_of_nonneg hk, Nat.cast_ofNat]

theorem zpow_neg_mul (b : ℝ) (hb : b ≠ 0) (k : Int) : b ^ (-k) * b ^ k = 1 := by
  rw [← zpow_add₀ hb, neg_add_cancel, zpow_zero]

/-- A number measured in units of a power of two, as a quotient of naturals. -/
theorem exists_scaledRound (n : Nat) (hd : 0 < d) (q : Int) : ∃ n' d', 0 < d' ∧
    scaledRound n d q = roundDiv n' d' ∧ (n' : ℝ) * 2 ^ q = n / d * d' := by
  have hd' : (d : ℝ) ≠ 0 := by positivity
  rw [scaledRound]
  split
  next hq =>
    refine ⟨_, d, hd, rfl, ?_⟩
    rw [Nat.cast_mul, cast_two_pow (by omega), mul_assoc, zpow_neg_mul 2 (by norm_num)]
    field_simp
  next hq =>
    refine ⟨n, _, ?_, rfl, ?_⟩
    · simp only [Nat.pow_eq]
      positivity
    · rw [Nat.cast_mul, cast_two_pow (by omega)]
      field_simp

theorem scaledRound_eq (hd : 0 < d) (hlow : ((k : ℝ) - 1 / 2) * 2 ^ q ≤ n / d)
    (hhigh : (n : ℝ) / d ≤ (k + 1 / 2) * 2 ^ q)
    (htie : (n : ℝ) / d = (k - 1 / 2) * 2 ^ q ∨ (n : ℝ) / d = (k + 1 / 2) * 2 ^ q → k % 2 = 0) :
    scaledRound n d q = k := by
  obtain ⟨n', d', hd', hround, hvalue⟩ := exists_scaledRound n hd q
  have hpow : (0 : ℝ) < 2 ^ q := by positivity
  have hpos : (0 : ℝ) < d' := by exact_mod_cast hd'
  have heq : (n : ℝ) / d = n' / d' * 2 ^ q := by
    rw [div_mul_eq_mul_div, hvalue, mul_div_assoc, div_self hpos.ne', mul_one]
  rw [heq] at hlow hhigh htie
  rw [mul_le_mul_iff_left₀ hpow] at hlow hhigh
  rw [mul_left_inj' hpow.ne', mul_left_inj' hpow.ne'] at htie
  rw [hround]
  rw [le_div_iff₀ hpos] at hlow
  rw [div_le_iff₀ hpos] at hhigh
  rw [div_eq_iff hpos.ne', div_eq_iff hpos.ne'] at htie
  refine roundDiv_eq ?_ ?_ hd' ?_
  · have : (2 * (k * d') : ℝ) ≤ 2 * n' + d' := by linarith
    exact_mod_cast this
  · have : (2 * n' : ℝ) ≤ 2 * (k * d') + d' := by linarith
    exact_mod_cast this
  · rintro (h | h)
    · have h' : (2 * (k * d') : ℝ) = 2 * n' + d' := by exact_mod_cast h
      exact htie (.inl (by linarith))
    · have h' : (2 * n' : ℝ) = 2 * (k * d') + d' := by exact_mod_cast h
      exact htie (.inr (by linarith))

/-! ### The double of a fraction -/

theorem below_iff (hd : 0 < d) (e : Int) : (if e < 0 then n * Nat.pow 2 (-e).toNat < d else n < d * Nat.pow 2 e.toNat) ↔
      (n : ℝ) / d < 2 ^ e := by
  have hpos : (0 : ℝ) < d := by exact_mod_cast hd
  rw [div_lt_iff₀ hpos]
  split
  next he =>
    have hpow : (0 : ℝ) < 2 ^ (-e) := by positivity
    rw [← Nat.cast_lt (α := ℝ), Nat.cast_mul, cast_two_pow (by omega), mul_comm,
      ← mul_lt_mul_iff_right₀ hpow (b := (n : ℝ)), ← mul_assoc, zpow_neg_mul 2 (by norm_num), one_mul]
  next he =>
    rw [← Nat.cast_lt (α := ℝ), Nat.cast_mul, cast_two_pow (by omega), mul_comm]

/-- The lengths of a fraction's parts tell its power of two up to one. -/
theorem log2_bounds (hn : 0 < n) (hd : 0 < d) {e : Int} (he : (Nat.log2 n : Int) - Nat.log2 d = e) :
    (2 : ℝ) ^ (e - 1) < n / d ∧ (n : ℝ) / d < 2 ^ (e + 1) := by
  have hpos : (0 : ℝ) < d := by exact_mod_cast hd
  have hn' : (n : ℝ) < 2 ^ ((Nat.log2 n : Int) + 1) := by exact_mod_cast Nat.lt_log2_self
  have hd' : (d : ℝ) < 2 ^ ((Nat.log2 d : Int) + 1) := by exact_mod_cast Nat.lt_log2_self
  have hn'' : (2 : ℝ) ^ (Nat.log2 n : Int) ≤ n := by exact_mod_cast Nat.log2_self_le hn.ne'
  have hd'' : (2 : ℝ) ^ (Nat.log2 d : Int) ≤ d := by exact_mod_cast Nat.log2_self_le hd.ne'
  constructor
  · rw [lt_div_iff₀ hpos]
    calc (2 : ℝ) ^ (e - 1) * d < 2 ^ (e - 1) * 2 ^ ((Nat.log2 d : Int) + 1) := by gcongr
      _ = 2 ^ (Nat.log2 n : Int) := by
        rw [← zpow_add₀ (by norm_num)]
        congr 1
        omega
      _ ≤ n := hn''
  · rw [div_lt_iff₀ hpos]
    calc (n : ℝ) < 2 ^ ((Nat.log2 n : Int) + 1) := hn'
      _ = 2 ^ (e + 1) * 2 ^ (Nat.log2 d : Int) := by
        rw [← zpow_add₀ (by norm_num)]
        congr 1
        omega
      _ ≤ 2 ^ (e + 1) * d := by gcongr

theorem lt_of_two_zpow_lt {s t : Int} (h : (2 : ℝ) ^ s < 2 ^ t) : s < t := (zpow_lt_zpow_iff_right₀ (by norm_num)).1 h

/-- The double of a fraction between two powers of two. -/
theorem ofFraction?_of_binade (hn : 0 < n) (hd : 0 < d) {t : Int} (hlow : (2 : ℝ) ^ t ≤ n / d)
    (hhigh : (n : ℝ) / d < 2 ^ (t + 1)) (hq : max (t - 52) (-1074) = q) (hm : scaledRound n d q = m) :
    ofFraction? negative n d = if m = 2 ^ 53 then if q + 1 > 971 then none else some (encode negative (2 ^ 52) (q + 1))
      else if q > 971 then none else some (encode negative m q) := by
  have htop {e : Int} (he : (Nat.log2 n : Int) - Nat.log2 d = e) :
      (if (if e < 0 then n * Nat.pow 2 (-e).toNat < d else n < d * Nat.pow 2 e.toNat)
        then e - 1 else e) = t := by
    obtain ⟨hbelow, habove⟩ := log2_bounds hn hd he
    have hle := lt_of_two_zpow_lt (hlow.trans_lt habove)
    have hge := lt_of_two_zpow_lt (hbelow.trans hhigh)
    simp only [below_iff hd]
    split
    next h =>
      have := lt_of_two_zpow_lt (hlow.trans_lt h)
      omega
    next h =>
      have := lt_of_two_zpow_lt ((not_lt.1 h).trans_lt hhigh)
      omega
  rw [ofFraction?, if_neg (by simpa using hn.ne')]
  simp only [htop rfl, hq, hm]
  simp only [Nat.pow_eq, beq_iff_eq]
  by_cases h : m = 2 ^ 53
  · rw [if_pos h, if_pos h]
  · rw [if_neg h, if_neg h]

/-- A fraction that is well below the largest double has a double. -/
theorem isSome_ofFraction? (hd : 0 < d) (h : (n : ℝ) / d < 2 ^ (1023 : Int)) : (ofFraction? negative n d).isSome := by
  rcases Nat.eq_zero_or_pos n with rfl | hn
  · rfl
  have hpos : (0 : ℝ) < n / d := div_pos (by exact_mod_cast hn) (by exact_mod_cast hd)
  obtain ⟨t, hlow, hhigh⟩ := exists_mem_Ico_zpow hpos one_lt_two
  have ht := lt_of_two_zpow_lt (hlow.trans_lt h)
  rw [ofFraction?_of_binade negative hn hd hlow hhigh rfl rfl]
  split
  · rw [if_neg (by omega)]
    rfl
  · rw [if_neg (by omega)]
    rfl

/-- A number rounds to the double `m · 2^q`. -/
structure Rounds (m : Nat) (q : Int) (r : ℝ) : Prop where
  low : (m - reach m q) * 2 ^ q ≤ r
  high : r ≤ (m + 1 / 2) * 2 ^ q
  /-- The ends of the interval belong to an even mantissa. -/
  even : r = (m - reach m q) * 2 ^ q ∨ r = (m + 1 / 2) * 2 ^ q → m % 2 = 0

theorem reach_le (m : Nat) (q : Int) : reach m q ≤ 1 / 2 := by
  rw [reach]
  split <;> norm_num

theorem Rounds.pos {r : ℝ} (h : Rounds m q r) (hm : 0 < m) : 0 < r := by
  have hone : (1 : ℝ) ≤ m := by exact_mod_cast hm
  have hpow : (0 : ℝ) < 2 ^ q := by positivity
  have : 0 < (m - reach m q) * 2 ^ q := mul_pos (by linarith [reach_le m q]) hpow
  linarith [h.low]

theorem Rounds.scaledRound {m : Nat} (hd : 0 < d) (h : Rounds m q (n / d)) : scaledRound n d q = m := by
  have hpow : (0 : ℝ) < 2 ^ q := by positivity
  refine scaledRound_eq hd ?_ h.high ?_
  · refine le_trans ?_ h.low
    gcongr
    exact reach_le m q
  · rintro (htie | htie)
    · by_cases hedge : m = 2 ^ 52 ∧ -1074 < q
      · omega
      · exact h.even (.inl (by rw [htie, reach, if_neg hedge]))
    · exact h.even (.inr htie)

theorem two_zpow_add (q : Int) (k : Nat) : (2 : ℝ) ^ (q + k) = 2 ^ k * 2 ^ q := by
  rw [zpow_add₀ (by norm_num), zpow_natCast, mul_comm]

/-- A fraction just below a power of two is rounded with the finer mantissas below it, up to the power
of two. -/
theorem ofFraction?_of_edge (hleast : -1074 < q) (hgreatest : q ≤ 971) (hn : 0 < n) (hd : 0 < d)
    (hlow : ((2 : ℝ) ^ 52 - 1 / 4) * 2 ^ q ≤ n / d) (hhigh : (n : ℝ) / d < 2 ^ (q + 52)) :
    ofFraction? negative n d = some (encode negative (2 ^ 52) q) := by
  have hpow : (0 : ℝ) < 2 ^ (q - 1) := by positivity
  have hhalf : (2 : ℝ) ^ q = 2 * 2 ^ (q - 1) := by
    rw [zpow_sub_one₀ (by norm_num)]
    ring
  have htop : (2 : ℝ) ^ (q + 52) = 2 ^ 53 * 2 ^ (q - 1) := by
    rw [show q + 52 = q - 1 + (53 : Nat) by omega, two_zpow_add]
  have hbelow : (2 : ℝ) ^ (q + 51) ≤ n / d := by
    rw [show q + 51 = q - 1 + (52 : Nat) by omega, two_zpow_add]
    rw [hhalf] at hlow
    nlinarith
  have hround : scaledRound n d (q - 1) = 2 ^ 53 := by
    rw [hhalf] at hlow
    rw [htop] at hhigh
    refine scaledRound_eq hd ?_ ?_ fun _ => by omega
    · push_cast
      nlinarith
    · push_cast
      nlinarith
  rw [ofFraction?_of_binade negative hn hd hbelow (by convert hhigh using 2; ring)
    (show max (q + 51 - 52) (-1074) = q - 1 by omega) hround, if_pos rfl, if_neg (by omega),
    sub_add_cancel]

/-- A fraction that rounds to a double gives that double. -/
theorem ofFraction?_of_rounds (h : InRange m q) (hm : 0 < m) (hd : 0 < d) (hr : Rounds m q (n / d)) :
    ofFraction? negative n d = some (encode negative m q) := by
  obtain ⟨hmant, hleast, hgreatest, hnormal⟩ := h
  have hpos := hr.pos hm
  have hn : 0 < n := by
    rcases Nat.eq_zero_or_pos n with rfl | hn
    · simp at hpos
    · exact hn
  have hpow : (0 : ℝ) < 2 ^ q := by positivity
  have hround := hr.scaledRound hd
  by_cases hedge : (n : ℝ) / d < 2 ^ (q + 52)
  · by_cases hq : q = -1074
    · obtain ⟨t, hlow, hhigh⟩ := exists_mem_Ico_zpow hpos (show (1 : ℝ) < 2 by norm_num)
      have ht := lt_of_two_zpow_lt (hlow.trans_lt hedge)
      rw [ofFraction?_of_binade negative hn hd hlow hhigh (show max (t - 52) (-1074) = q by omega)
        hround, if_neg (by omega), if_neg (by omega)]
    · -- only the least normal mantissa has fractions below its power of two
      have hpower : m = 2 ^ 52 := by
        have hnormal : 2 ^ 52 ≤ m := hnormal.resolve_right hq
        by_contra hne
        have hone : (2 : ℝ) ^ 52 + 1 ≤ m := by exact_mod_cast (show 2 ^ 52 + 1 ≤ m by omega)
        have : (2 : ℝ) ^ 52 * 2 ^ q ≤ (m - reach m q) * 2 ^ q := by
          gcongr
          linarith [reach_le m q]
        rw [show q + 52 = q + (52 : Nat) from rfl, two_zpow_add] at hedge
        linarith [hr.low]
      have hlow := hr.low
      rw [reach, if_pos ⟨hpower, by omega⟩, hpower] at hlow
      rw [hpower, ofFraction?_of_edge negative (by omega) hgreatest hn hd (by exact_mod_cast hlow) hedge]
  · have hhigh : (n : ℝ) / d < 2 ^ (q + 52 + 1) := by
      have hlt : (m : ℝ) + 1 / 2 < 2 ^ 53 := by
        have : (m : ℝ) + 1 ≤ 2 ^ 53 := by exact_mod_cast hmant
        linarith
      calc (n : ℝ) / d ≤ (m + 1 / 2) * 2 ^ q := hr.high
        _ < 2 ^ 53 * 2 ^ q := by gcongr
        _ = 2 ^ (q + 52 + 1) := by rw [show q + 52 + 1 = q + (53 : Nat) by omega, two_zpow_add]
    rw [ofFraction?_of_binade negative hn hd (not_lt.1 hedge) hhigh
      (show max (q + 52 - 52) (-1074) = q by omega) hround, if_neg (by omega), if_neg (by omega)]

/-! ### Fractions -/

noncomputable def number (f : Nat × Nat) : ℝ := f.1 / f.2

theorem fracLe_iff (hf : 0 < f.2) (hg : 0 < g.2) : fracLe f g ↔ number f ≤ number g := by
  have hf' : (0 : ℝ) < f.2 := by exact_mod_cast hf
  have hg' : (0 : ℝ) < g.2 := by exact_mod_cast hg
  rw [fracLe, decide_eq_true_eq, number, number, div_le_div_iff₀ hf' hg']
  exact_mod_cast Iff.rfl

theorem fracLt_iff (hf : 0 < f.2) (hg : 0 < g.2) : fracLt f g ↔ number f < number g := by
  have hf' : (0 : ℝ) < f.2 := by exact_mod_cast hf
  have hg' : (0 : ℝ) < g.2 := by exact_mod_cast hg
  rw [fracLt, decide_eq_true_eq, number, number, div_lt_div_iff₀ hf' hg']
  exact_mod_cast Iff.rfl

theorem cast_pow_toNat (b : Nat) {k : Int} (hk : 0 ≤ k) : ((Nat.pow b k.toNat : Nat) : ℝ) = (b : ℝ) ^ k := by
  rw [Nat.pow_eq, Nat.cast_pow, ← zpow_natCast, Int.toNat_of_nonneg hk]

theorem number_twoScaled (m : Nat) (q : Int) : 0 < (twoScaled m q).2 ∧ number (twoScaled m q) = m * 2 ^ q := by
  rw [twoScaled, number]
  split
  · refine ⟨by simp only [Nat.pow_eq]; positivity, ?_⟩
    rw [cast_pow_toNat 2 (by omega), zpow_neg, div_inv_eq_mul]
    rfl
  · refine ⟨Nat.one_pos, ?_⟩
    rw [Nat.cast_mul, cast_pow_toNat 2 (by omega), Nat.cast_one, div_one]
    rfl

theorem number_tenScaled (n : Nat) (k : Int) : 0 < (tenScaled n k).2 ∧ number (tenScaled n k) = n * 10 ^ k := by
  rw [tenScaled, number]
  split
  · refine ⟨by simp only [Nat.pow_eq]; positivity, ?_⟩
    rw [cast_pow_toNat 10 (by omega), zpow_neg, div_inv_eq_mul]
    rfl
  · refine ⟨Nat.one_pos, ?_⟩
    rw [Nat.cast_mul, cast_pow_toNat 10 (by omega), Nat.cast_one, div_one]
    rfl

/-! ### The interval of a double -/

theorem number_roundingInterval (hm : 0 < m) (q : Int) : (0 < (roundingInterval m q).low.2 ∧
      number (roundingInterval m q).low = (m - reach m q) * 2 ^ q) ∧
    0 < (roundingInterval m q).high.2 ∧ number (roundingInterval m q).high = (m + 1 / 2) * 2 ^ q := by
  have hhalf : (2 : ℝ) ^ q = 2 * 2 ^ (q - 1) := by
    rw [zpow_sub_one₀ (by norm_num)]
    ring
  have hquarter : (2 : ℝ) ^ q = 4 * 2 ^ (q - 2) := by
    rw [zpow_sub₀ (by norm_num)]
    norm_num
    ring
  have hcast : ((2 * m - 1 : Nat) : ℝ) = 2 * m - 1 := by
    rw [Nat.cast_sub (by omega)]
    push_cast
    rfl
  have hcast' : ((4 * m - 1 : Nat) : ℝ) = 4 * m - 1 := by
    rw [Nat.cast_sub (by omega)]
    push_cast
    rfl
  simp only [roundingInterval, Nat.pow_eq, Bool.and_eq_true, beq_iff_eq, decide_eq_true_eq, gt_iff_lt]
  refine ⟨?_, (number_twoScaled _ _).1, ?_⟩
  · rw [reach]
    split
    · refine ⟨(number_twoScaled _ _).1, ?_⟩
      rw [(number_twoScaled _ _).2, hcast', hquarter]
      ring
    · refine ⟨(number_twoScaled _ _).1, ?_⟩
      rw [(number_twoScaled _ _).2, hcast, hhalf]
      ring
  · rw [(number_twoScaled _ _).2, hhalf]
    push_cast
    ring

/-- The interval of a double has the numbers that round to it. -/
theorem contains_iff (hm : 0 < m) (q : Int) (hf : 0 < f.2) :
    (roundingInterval m q).contains f ↔ Rounds m q (number f) := by
  obtain ⟨⟨hlow, hlow'⟩, hhigh, hhigh'⟩ := number_roundingInterval hm q
  have hclosed : (roundingInterval m q).closed ↔ m % 2 = 0 := by simp [roundingInterval]
  rw [Interval.contains]
  by_cases heven : m % 2 = 0
  · rw [if_pos (hclosed.2 heven), Bool.and_eq_true, fracLe_iff hlow hf, fracLe_iff hf hhigh, hlow', hhigh']
    exact ⟨fun h => ⟨h.1, h.2, fun _ => heven⟩, fun h => ⟨h.low, h.high⟩⟩
  · rw [if_neg (mt hclosed.1 heven), Bool.and_eq_true, fracLt_iff hlow hf, fracLt_iff hf hhigh, hlow', hhigh']
    constructor
    · rintro ⟨h, h'⟩
      refine ⟨h.le, h'.le, ?_⟩
      rintro (he | he)
      · exact absurd he h.ne'
      · exact absurd he h'.ne
    · intro h
      exact ⟨lt_of_le_of_ne h.low fun he => heven (h.even (.inl he.symm)),
        lt_of_le_of_ne h.high fun he => heven (h.even (.inr he))⟩

/-! ### Digits -/

theorem digitCount_pos (n : Nat) : 0 < digitCount n := Nat.length_toDigits_pos

theorem digitCount_le_iff (hk : 0 < k) : digitCount n ≤ k ↔ n < 10 ^ k := Nat.length_toDigits_le_iff (by omega) hk

theorem lt_pow_digitCount (n : Nat) : n < 10 ^ digitCount n := (digitCount_le_iff (digitCount_pos n)).1 le_rfl

theorem pow_digitCount_le (hn : 0 < n) : 10 ^ (digitCount n - 1) ≤ n := by
  by_contra h
  rcases Nat.eq_zero_or_pos (digitCount n - 1) with hzero | hpos
  · rw [hzero] at h
    omega
  · have := (digitCount_le_iff hpos).2 (not_le.1 h)
    omega

theorem lt_of_ten_zpow_lt {s t : Int} (h : (10 : ℝ) ^ s < 10 ^ t) : s < t := (zpow_lt_zpow_iff_right₀ (by norm_num)).1 h

/-- The digit counts of the two numbers of a fraction place it between two powers of ten. -/
theorem digitCount_sub_bounds (hn : 0 < f.1) (hd : 0 < f.2) :
    (10 : ℝ) ^ ((digitCount f.1 : Int) - digitCount f.2 - 1) < number f ∧
      number f < 10 ^ ((digitCount f.1 : Int) - digitCount f.2 + 1) := by
  have hpos : (0 : ℝ) < f.2 := by exact_mod_cast hd
  have hpow (k : Nat) (hk : 0 < k) : ((10 ^ (k - 1) : Nat) : ℝ) = 10 ^ ((k : Int) - 1) := by
    rw [Nat.cast_pow, ← zpow_natCast, Nat.cast_sub hk]
    rfl
  have hn₁ : (10 : ℝ) ^ ((digitCount f.1 : Int) - 1) ≤ f.1 := by
    rw [← hpow _ (digitCount_pos _)]
    exact_mod_cast pow_digitCount_le hn
  have hn₂ : (f.1 : ℝ) < 10 ^ (digitCount f.1 : Int) := by
    rw [zpow_natCast]
    exact_mod_cast lt_pow_digitCount f.1
  have hd₁ : (10 : ℝ) ^ ((digitCount f.2 : Int) - 1) ≤ f.2 := by
    rw [← hpow _ (digitCount_pos _)]
    exact_mod_cast pow_digitCount_le hd
  have hd₂ : (f.2 : ℝ) < 10 ^ (digitCount f.2 : Int) := by
    rw [zpow_natCast]
    exact_mod_cast lt_pow_digitCount f.2
  rw [number, lt_div_iff₀ hpos, div_lt_iff₀ hpos]
  constructor
  · calc (10 : ℝ) ^ ((digitCount f.1 : Int) - digitCount f.2 - 1) * f.2
        < 10 ^ ((digitCount f.1 : Int) - digitCount f.2 - 1) * 10 ^ (digitCount f.2 : Int) := by gcongr
      _ = 10 ^ ((digitCount f.1 : Int) - 1) := by
        rw [← zpow_add₀ (by norm_num)]
        ring_nf
      _ ≤ f.1 := hn₁
  · calc (f.1 : ℝ) < 10 ^ (digitCount f.1 : Int) := hn₂
      _ = 10 ^ ((digitCount f.1 : Int) - digitCount f.2 + 1) * 10 ^ ((digitCount f.2 : Int) - 1) := by
        rw [← zpow_add₀ (by norm_num)]
        ring_nf
      _ ≤ 10 ^ ((digitCount f.1 : Int) - digitCount f.2 + 1) * f.2 := by gcongr

/-- The leading power of a fraction is that of its first digit. -/
theorem leadingPower_bounds (hn : 0 < f.1) (hd : 0 < f.2) :
    (10 : ℝ) ^ leadingPower f ≤ number f ∧ number f < 10 ^ (leadingPower f + 1) := by
  obtain ⟨hlow, hhigh⟩ := digitCount_sub_bounds hn hd
  obtain ⟨hpos, hten⟩ := number_tenScaled 1 ((digitCount f.1 : Int) - digitCount f.2)
  rw [Nat.cast_one, one_mul] at hten
  have hle := fracLe_iff hpos hd
  rw [hten] at hle
  rw [leadingPower]
  by_cases h : fracLe (tenScaled 1 ((digitCount f.1 : Int) - digitCount f.2)) f
  · simp only [h, if_true]
    exact ⟨hle.1 h, hhigh⟩
  · simp only [h, Bool.false_eq_true, if_false, sub_add_cancel]
    exact ⟨hlow.le, not_le.1 (mt hle.2 h)⟩

/-! ### The shortest decimal -/

noncomputable def Scientific.number (s : Scientific) : ℝ :=
  s.digits * 10 ^ (s.exponent - s.count + 1)

/-- A decimal whose first digit is not zero and that has as many digits as it counts. -/
structure Scientific.Leads (s : Scientific) : Prop where
  low : 10 ^ (s.count - 1) ≤ s.digits
  high : s.digits < 10 ^ s.count

theorem roundDiv_bounds (n : Nat) (hd : 0 < d) : (roundDiv n d = n / d ∨ roundDiv n d = n / d + 1) ∧
      2 * (roundDiv n d * d) ≤ 2 * n + d ∧ 2 * n ≤ 2 * (roundDiv n d * d) + d := by
  have hn := Nat.div_add_mod n d
  have hr := Nat.mod_lt n hd
  rw [Nat.mul_comm] at hn
  rw [roundDiv, halfEven]
  split
  · exact ⟨.inl rfl, by omega, by omega⟩
  · split
    · refine ⟨.inr rfl, ?_, ?_⟩ <;> rw [Nat.add_mul] <;> omega
    · split
      · exact ⟨.inl rfl, by omega, by omega⟩
      · refine ⟨.inr rfl, ?_, ?_⟩ <;> rw [Nat.add_mul] <;> omega

/-- The quotient that the grid with the given unit takes of a value. -/
theorem exists_grid {value : Nat × Nat} (hv : 0 < value.2) (i : Interval) (top : Int) (count : Nat) :
    ∃ n d : Nat, 0 < d ∧ (n / d : ℝ) * 10 ^ (top - count + 1) = number value ∧ onGrid? value i top count =
        let pick (k : Nat) : Option Scientific :=
          if k > 0 && i.contains (tenScaled k (top - count + 1)) then
            if k == Nat.pow 10 count then some ⟨Nat.pow 10 (count - 1), count, top + 1⟩
            else some ⟨k, count, top⟩
          else none
        (pick (roundDiv n d)).orElse fun _ =>
          pick (if roundDiv n d == n / d then n / d + 1 else n / d) := by
  have hv' : (value.2 : ℝ) ≠ 0 := by exact_mod_cast hv.ne'
  rcases lt_or_ge (top - count + 1) 0 with hneg | hpos
  · refine ⟨value.1 * Nat.pow 10 (-(top - count + 1)).toNat, value.2, hv, ?_, ?_⟩
    · rw [Nat.cast_mul, cast_pow_toNat 10 (by omega), number, div_mul_eq_mul_div, mul_assoc]
      have := zpow_neg_mul (10 : ℝ) (by norm_num) (top - count + 1)
      rw [Nat.cast_ofNat, this, mul_one]
    · simp only [onGrid?, if_pos hneg]
  · refine ⟨value.1, value.2 * Nat.pow 10 (top - count + 1).toNat,
      Nat.mul_pos hv (by simp only [Nat.pow_eq]; positivity), ?_, ?_⟩
    · rw [Nat.cast_mul, cast_pow_toNat 10 hpos, number, div_mul_eq_mul_div, Nat.cast_ofNat]
      exact mul_div_mul_right _ _ (by positivity)
    · simp only [onGrid?, if_neg (not_lt.2 hpos)]

theorem pick_spec {top : Int} (hcount : 0 < count) (hlow : 10 ^ (count - 1) ≤ k) (hhigh : k ≤ 10 ^ count)
    (h : (if k > 0 && i.contains (tenScaled k (top - count + 1)) then
      if k == Nat.pow 10 count then some ⟨Nat.pow 10 (count - 1), count, top + 1⟩
      else some ⟨k, count, top⟩
      else none) = some s) :
    s.Leads ∧ s.count = count ∧ (s.exponent = top ∨ s.exponent = top + 1) ∧
      s.number = k * 10 ^ (top - count + 1) ∧ i.contains (tenScaled k (top - count + 1)) := by
  obtain ⟨hk, h⟩ := Option.ite_none_right_eq_some.1 h
  rw [Bool.and_eq_true] at hk
  have hstep : 10 ^ count = 10 * 10 ^ (count - 1) := by
    rw [← Nat.pow_succ', Nat.succ_eq_add_one, Nat.sub_add_cancel hcount]
  by_cases he : k = 10 ^ count
  · rw [if_pos (by simpa [Nat.pow_eq] using he)] at h
    obtain rfl := Option.some.inj h
    refine ⟨⟨le_rfl, ?_⟩, rfl, .inr rfl, ?_, hk.2⟩
    · show 10 ^ (count - 1) < 10 ^ count
      exact Nat.pow_lt_pow_right (by omega) (by omega)
    · show ((Nat.pow 10 (count - 1) : Nat) : ℝ) * 10 ^ (top + 1 - count + 1) = _
      rw [he, hstep, Nat.pow_eq, show top + 1 - count + 1 = (top - count + 1) + 1 by ring,
        zpow_add_one₀ (by norm_num)]
      push_cast
      ring
  · rw [if_neg (by simpa [Nat.pow_eq] using he)] at h
    obtain rfl := Option.some.inj h
    exact ⟨⟨hlow, lt_of_le_of_ne hhigh he⟩, rfl, .inl rfl, rfl, hk.2⟩

section Grid

variable {value : Nat × Nat} {top : Int} (hv : 0 < value.2) (hlow : (10 : ℝ) ^ top ≤ number value)
  (hhigh : number value < 10 ^ (top + 1))

include hlow hhigh in
theorem grid_bounds (hcount : 0 < count) (hd : 0 < d) (h : (n / d : ℝ) * 10 ^ (top - count + 1) = number value) :
    10 ^ (count - 1) ≤ n / d ∧ n / d < 10 ^ count := by
  have hd' : (0 : ℝ) < d := by exact_mod_cast hd
  have hunit : (0 : ℝ) < 10 ^ (top - count + 1) := by positivity
  have hfirst : (10 : ℝ) ^ top = ((10 ^ (count - 1) : Nat) : ℝ) * 10 ^ (top - count + 1) := by
    rw [Nat.cast_pow, ← zpow_natCast, Nat.cast_sub hcount, Nat.cast_ofNat, ← zpow_add₀ (by norm_num)]
    push_cast
    ring_nf
  have hlast : (10 : ℝ) ^ (top + 1) = ((10 ^ count : Nat) : ℝ) * 10 ^ (top - count + 1) := by
    rw [Nat.cast_pow, ← zpow_natCast, Nat.cast_ofNat, ← zpow_add₀ (by norm_num)]
    ring_nf
  rw [← h, hfirst] at hlow
  rw [← h, hlast] at hhigh
  have hlow' := le_of_mul_le_mul_right hlow hunit
  have hhigh' := lt_of_mul_lt_mul_right hhigh hunit.le
  rw [le_div_iff₀ hd'] at hlow'
  rw [div_lt_iff₀ hd'] at hhigh'
  exact ⟨(Nat.le_div_iff_mul_le hd).2 (by exact_mod_cast hlow'),
    (Nat.div_lt_iff_lt_mul hd).2 (by exact_mod_cast hhigh')⟩

include hv hlow hhigh in
/-- A decimal found on a grid has the digits of the grid and lies in the interval. -/
theorem onGrid?_spec (hcount : 0 < count) (h : onGrid? value i top count = some s) :
    s.Leads ∧ s.count = count ∧ (s.exponent = top ∨ s.exponent = top + 1) ∧
      ∃ f : Nat × Nat, 0 < f.2 ∧ number f = s.number ∧ i.contains f := by
  obtain ⟨n, d, hd, hnd, hgrid⟩ := exists_grid hv i top count
  obtain ⟨hfirst, hlast⟩ := grid_bounds hlow hhigh hcount hd hnd
  obtain ⟨hnear, -⟩ := roundDiv_bounds n hd
  rw [hgrid] at h
  -- both candidates are neighbours of the value on the grid
  have hpick : ∃ k, (k = n / d ∨ k = n / d + 1) ∧ (if k > 0 && i.contains (tenScaled k (top - count + 1)) then
        if k == Nat.pow 10 count then some (⟨Nat.pow 10 (count - 1), count, top + 1⟩ : Scientific)
        else some ⟨k, count, top⟩
      else none) = some s := by
    rcases Option.or_eq_some_iff.1 (Option.orElse_eq_or ▸ h) with h | ⟨-, h⟩
    · exact ⟨_, hnear, h⟩
    · refine ⟨_, ?_, h⟩
      split
      · exact .inr rfl
      · exact .inl rfl
  obtain ⟨k, hk, hk'⟩ := hpick
  obtain ⟨hleads, hs, he, hnumber, hcontains⟩ :=
    pick_spec hcount (by rcases hk with rfl | rfl <;> omega) (by rcases hk with rfl | rfl <;> omega) hk'
  obtain ⟨hpos, hten⟩ := number_tenScaled k (top - count + 1)
  exact ⟨hleads, hs, he, _, hpos, hten.trans hnumber.symm, hcontains⟩

include hv hlow hhigh in
/-- A grid has a decimal for the value if the interval reaches half a unit to both sides. -/
theorem isSome_onGrid? (hcount : 0 < count)
    (hi : ∀ f : Nat × Nat, 0 < f.2 → |number f - number value| ≤ 10 ^ (top - count + 1) / 2 → i.contains f) :
    (onGrid? value i top count).isSome := by
  obtain ⟨n, d, hd, hnd, hgrid⟩ := exists_grid hv i top count
  obtain ⟨hfirst, -⟩ := grid_bounds hlow hhigh hcount hd hnd
  obtain ⟨hnear, hdown, hup⟩ := roundDiv_bounds n hd
  obtain ⟨hpos, hten⟩ := number_tenScaled (roundDiv n d) (top - count + 1)
  have hd' : (0 : ℝ) < d := by exact_mod_cast hd
  have hunit : (0 : ℝ) < 10 ^ (top - count + 1) := by positivity
  have hclose : |(roundDiv n d : ℝ) - n / d| ≤ 1 / 2 := by
    have hdown' : 2 * ((roundDiv n d : ℝ) * d) ≤ 2 * n + d := by exact_mod_cast hdown
    have hup' : 2 * (n : ℝ) ≤ 2 * ((roundDiv n d : ℝ) * d) + d := by exact_mod_cast hup
    rw [abs_le, neg_le_sub_iff_le_add, div_le_iff₀ hd', sub_le_iff_le_add, ← sub_le_iff_le_add',
      le_div_iff₀ hd', add_mul, sub_mul]
    constructor <;> linarith
  have hcontains := hi _ hpos (by
    rw [hten, ← hnd, ← sub_mul, abs_mul, abs_of_pos hunit]
    linarith [mul_le_mul_of_nonneg_right hclose hunit.le])
  have hk : 0 < roundDiv n d := by
    have : 0 < 10 ^ (count - 1) := by positivity
    rcases hnear with h | h <;> omega
  rw [hgrid]
  simp only [hcontains, gt_iff_lt, hk, decide_true, Bool.and_self, if_true]
  split <;> rfl

end Grid

/-- Seventeen digits are enough: half a unit of the last of them is less than the reach of the
interval, as `2⁵³ < 10¹⁶`. -/
theorem rounds_of_close (h : InRange m q) {top : Int} {r : ℝ}
    (htop : (10 : ℝ) ^ top ≤ m * 2 ^ q) (hr : |r - m * 2 ^ q| ≤ 10 ^ (top - (17 : Nat) + 1) / 2) :
    Rounds m q r := by
  have hpow : (0 : ℝ) < 2 ^ q := by positivity
  have hunit : (10 : ℝ) ^ (top - (17 : Nat) + 1) = 10 ^ top / 10 ^ 16 := by
    rw [show top - (17 : Nat) + 1 = top - 16 by push_cast; ring, zpow_sub₀ (by norm_num)]
    norm_num
  have hmant : (m : ℝ) < 2 ^ 53 := by exact_mod_cast h.mantissa
  have hreach : m / (2 * 10 ^ 16) < reach m q := by
    rw [reach]
    split
    · rename_i hedge
      rw [hedge.1]
      norm_num
    · rw [div_lt_iff₀ (by norm_num)]
      norm_num at hmant ⊢
      linarith
  have hclose : |r - m * 2 ^ q| < reach m q * 2 ^ q := by
    calc |r - m * 2 ^ q| ≤ 10 ^ top / 10 ^ 16 / 2 := by rwa [hunit] at hr
      _ ≤ m * 2 ^ q / 10 ^ 16 / 2 := by gcongr
      _ = m / (2 * 10 ^ 16) * 2 ^ q := by ring
      _ < reach m q * 2 ^ q := by gcongr
  have hhalf : reach m q * 2 ^ q ≤ 1 / 2 * 2 ^ q := mul_le_mul_of_nonneg_right (reach_le m q) hpow.le
  obtain ⟨hdown, hup⟩ := abs_lt.1 hclose
  have hlow : (m - reach m q) * 2 ^ q < r := by linarith
  have hhigh : r < (m + 1 / 2) * 2 ^ q := by linarith
  exact ⟨hlow.le, hhigh.le, fun he => by rcases he with he | he <;> linarith⟩

/-- The shortest decimal of a double has at most seventeen digits, the first of them not zero, and it
rounds to the double. -/
theorem rounds_shortest (h : InRange m q) (hm : 0 < m) :
    (shortest m q).Leads ∧ 0 < (shortest m q).count ∧ (shortest m q).count ≤ 17 ∧ Rounds m q (shortest m q).number := by
  obtain ⟨hpos, hvalue⟩ := number_twoScaled m q
  have hnum : 0 < (twoScaled m q).1 := by
    rw [twoScaled]
    split
    · exact hm
    · exact Nat.mul_pos hm (by simp only [Nat.pow_eq]; positivity)
  obtain ⟨hlow, hhigh⟩ := leadingPower_bounds hnum hpos
  have hlast : (onGrid? (twoScaled m q) (roundingInterval m q) (leadingPower (twoScaled m q)) 17).isSome =
      true := isSome_onGrid? hpos hlow hhigh (by omega)
    fun f hf hclose => (contains_iff hm q hf).2 (rounds_of_close h (hvalue ▸ hlow) (hvalue ▸ hclose))
  cases hfound : (List.range 17).findSome? fun k =>
      onGrid? (twoScaled m q) (roundingInterval m q) (leadingPower (twoScaled m q)) (k + 1) with
  | none =>
    have := List.findSome?_eq_none_iff.1 hfound 16 (by decide)
    rw [this] at hlast
    cases hlast
  | some s =>
    obtain ⟨k, hk, hs⟩ := List.exists_of_findSome?_eq_some hfound
    obtain ⟨hleads, hcount, -, f, hf, hnumber, hcontains⟩ := onGrid?_spec hpos hlow hhigh (Nat.succ_pos k) hs
    have heq : shortest m q = s := by simp only [shortest, hfound, Option.getD_some]
    have hk' := List.mem_range.1 hk
    rw [heq]
    exact ⟨hleads, by omega, by omega, hnumber ▸ (contains_iff hm q hf).1 hcontains⟩

end GzLang.Decimal
