import Mathlib
import GzLang.Value.Order

/-!
# Doubles and the numbers they stand for

A double is known by its bits (`Float.ofBits_toBits`), so by what `decode` reads off them
(`encode_of_decode`). The fields of a finite double are in range (`InRange`). A double that is a number
stands for an extended real (`Binary64.amount?`), and numbers are compared as what they stand for
(`Number.compare?_of_amount?`), so the order of numbers is linear.
-/

namespace GzLang.Decimal

open Float.Model Float.Model.UnpackedFloat

variable {m : Nat} {x : Float}
variable {b : BitVec Format.binary64.numBits} {y : Float} {negative : Bool}

/-! ### The fields of a word -/

section Fields

variable (b : BitVec Format.binary64.numBits)

theorem toNat_lt_word : b.toNat < 2 ^ 64 := b.isLt

theorem toNat_unpackExponent : (unpackExponent b).toNat = b.toNat / 2 ^ 52 % 2 ^ 11 := by
  simp [unpackExponent, BitVec.extractLsb, BitVec.extractLsb'_toNat, Nat.shiftRight_eq_div_pow]

theorem toNat_unpackMantissa : (unpackMantissa b).toNat = b.toNat % 2 ^ 52 := by
  simp [unpackMantissa, BitVec.extractLsb, BitVec.extractLsb'_toNat]

theorem toNat_unpackSign : (unpackSign b).toNat = b.toNat / 2 ^ 63 := by
  have := toNat_lt_word b
  simp [unpackSign, BitVec.extractLsb, BitVec.extractLsb'_toNat, Nat.shiftRight_eq_div_pow]
  omega

theorem toNat_packComponents (s : Sign) (e : BitVec 11) (m : BitVec 52) : (packComponents .binary64 s e m).toNat =
      s.toBitVec.toNat * 2 ^ 63 + e.toNat * 2 ^ 52 + m.toNat := by
  rw [packComponents, BitVec.toNat_append, BitVec.toNat_append,
    ← Nat.shiftLeft_add_eq_or_of_lt m.isLt, ← Nat.shiftLeft_add_eq_or_of_lt e.isLt,
    Nat.shiftLeft_eq, Nat.shiftLeft_eq]
  omega

theorem packComponents_fields :
    packComponents .binary64 (Sign.ofBitVec (unpackSign b)) (unpackExponent b) (unpackMantissa b) = b := by
  apply BitVec.eq_of_toNat_eq
  have := toNat_lt_word b
  rw [toNat_packComponents, Sign.toBitVec_ofBitVec, toNat_unpackSign, toNat_unpackExponent, toNat_unpackMantissa]
  omega

theorem toNat_one_append (v : BitVec 52) : (1#1 ++ v).toNat = 2 ^ 52 + v.toNat := by
  rw [BitVec.toNat_append, ← Nat.shiftLeft_add_eq_or_of_lt v.isLt]
  rfl

end Fields

/-! ### Packing what was unpacked -/

theorem pack_subnormal (s : Sign) (hm : 0 < m) (h : m < 2 ^ 52) :
    UnpackedFloat.pack .binary64 (.finite s m (-1074) hm) = packComponents .binary64 s 0#11 (.ofNat 52 m) := by
  have hlog : m.log2 < 52 := by rwa [Nat.log2_lt (by omega)]
  have hbits : Format.binary64.mantissaBits = 53 := rfl
  rw [UnpackedFloat.pack, if_neg (by decide), if_neg (by omega)]

theorem pack_normal (s : Sign) {e : Nat} (hm : 0 < m) (hlow : 2 ^ 52 ≤ m) (hhigh : m < 2 ^ 53)
    (he : e < 2047) : UnpackedFloat.pack .binary64 (.finite s m ((e : Int) - 1075) hm) =
      packComponents .binary64 s (.ofNat 11 e) (.ofNat 52 m) := by
  have hlog : m.log2 = 52 := by
    rw [Nat.log2_eq_iff (by omega)]
    omega
  have hexp : ((e : Int) - 1075 + Format.binary64.exponentBias +
      Format.binary64.mantissaBitsWithoutImplicit).toNat = e := by
    change ((e : Int) - 1075 + (1023 : Nat) + (52 : Nat)).toNat = e
    omega
  rw [UnpackedFloat.pack]
  simp only [hexp]
  rw [if_neg (by omega), if_pos (by rw [hlog]; rfl)]

theorem pack_unpack (hb : Format.binary64.Valid b) :
    UnpackedFloat.pack .binary64 (UnpackedFloat.unpack .binary64 b) = b := by
  have hfields := packComponents_fields b
  have hm : (unpackMantissa b).toNat < 2 ^ 52 := (unpackMantissa b).isLt
  have he : (unpackExponent b).toNat < 2 ^ 11 := (unpackExponent b).isLt
  rw [UnpackedFloat.unpack]
  split
  next hexp =>
    split
    next hmant =>
      rw [hexp, hmant] at hfields
      exact hfields
    next hmant => exact (hb.eq_packedNaN hexp hmant).symm
  next hexp =>
    split
    next hzero =>
      rw [hzero] at hfields
      split
      next hmant =>
        rw [hmant] at hfields
        exact hfields
      next hmant =>
        rw [hzero]
        refine (pack_subnormal _ _ hm).trans ?_
        rw [BitVec.ofNat_toNat, BitVec.setWidth_eq]
        exact hfields
    next hzero =>
      have hne : (unpackExponent b).toNat ≠ 2047 := fun h => hexp (BitVec.eq_of_toNat_eq h)
      have hone := toNat_one_append (unpackMantissa b)
      refine (pack_normal _ _ (by omega) (by omega) (by omega)).trans ?_
      rw [BitVec.ofNat_toNat, BitVec.setWidth_eq, hone]
      refine Eq.trans (congrArg _ (BitVec.eq_of_toNat_eq ?_)) hfields
      rw [BitVec.toNat_ofNat]
      omega

/-! ### Decoding and encoding -/

/-- The mantissa and the exponent of a finite double. -/
structure InRange (m : Nat) (q : Int) : Prop where
  mantissa : m < 2 ^ 53
  least : -1074 ≤ q
  greatest : q ≤ 971
  /-- Only the least exponent has small mantissas. -/
  normal : 2 ^ 52 ≤ m ∨ q = -1074

def ofFields (sign exponent fraction : Nat) : Binary64 :=
  if exponent = 2047 then if fraction = 0 then .infinite (sign == 1) else .nan
  else if exponent = 0 then .finite (sign == 1) fraction (-1074)
  else .finite (sign == 1) (2 ^ 52 + fraction) ((exponent : Int) - 1075)

theorem exists_fields {n : Nat} (h : n < 2 ^ 64) : ∃ s e f, s < 2 ∧ e < 2 ^ 11 ∧ f < 2 ^ 52 ∧
    n = s * 2 ^ 63 + e * 2 ^ 52 + f := by
  refine ⟨n / 2 ^ 63, n / 2 ^ 52 % 2 ^ 11, n % 2 ^ 52, ?_, ?_, ?_, ?_⟩ <;> omega

theorem decode_of_fields {s e f : Nat} (he : e < 2 ^ 11) (hf : f < 2 ^ 52)
    (hx : x.toBits.toNat = s * 2 ^ 63 + e * 2 ^ 52 + f) : decode x = ofFields s e f := by
  have hsign : (s * 2 ^ 63 + e * 2 ^ 52 + f) / 2 ^ 63 = s := by omega
  have hexponent : (s * 2 ^ 63 + e * 2 ^ 52 + f) / 2 ^ 52 % 2 ^ 11 = e := by omega
  have hfraction : (s * 2 ^ 63 + e * 2 ^ 52 + f) % 2 ^ 52 = f := by omega
  simp only [decode, ofFields, Nat.pow_eq, hx, hsign, hexponent, hfraction, beq_iff_eq]

theorem inRange_of_decode {q : Int} (h : decode x = .finite negative m q) : InRange m q := by
  obtain ⟨s, e, f, hs, he, hf, hx⟩ := exists_fields x.toBits.toNat_lt
  rw [decode_of_fields he hf hx, ofFields] at h
  split at h
  · split at h <;> cases h
  · split at h
    · cases h
      exact ⟨by omega, by omega, by omega, .inr rfl⟩
    · cases h
      exact ⟨by omega, by omega, by omega, .inl (by omega)⟩

theorem encode_eq (negative : Bool) (m : Nat) (q : Int) :
    encode negative m q = Float.ofBits (UInt64.ofNat ((if negative then 2 ^ 63 else 0) +
      if m < 2 ^ 52 then m else (q + 1075).toNat * 2 ^ 52 + (m - 2 ^ 52))) := by
  simp only [encode, Nat.pow_eq]

/-- A finite double is known by its sign, mantissa and exponent. -/
theorem encode_of_decode {q : Int} (h : decode x = .finite negative m q) : encode negative m q = x := by
  obtain ⟨s, e, f, hs, he, hf, hx⟩ := exists_fields x.toBits.toNat_lt
  have hword : x.toBits.toNat < 2 ^ 64 := x.toBits.toNat_lt
  rw [decode_of_fields he hf hx, ofFields] at h
  rw [encode_eq, ← Float.ofBits_toBits x]
  refine congrArg Float.ofBits ?_
  rw [← UInt64.toNat_inj, UInt64.toNat_ofNat', hx]
  have hsign : (if (s == 1) = true then 2 ^ 63 else 0) = s * 2 ^ 63 := by
    rcases (by omega : s = 0 ∨ s = 1) with rfl | rfl <;> rfl
  split at h
  · split at h <;> cases h
  · split at h <;> cases h
    · rw [hsign, if_pos hf]
      omega
    · rw [hsign, if_neg (by omega)]
      omega

/-! ### The numbers that doubles stand for -/

noncomputable def amount (negative : Bool) (m : Nat) (q : Int) : ℝ :=
  if negative then -(m * 2 ^ q) else m * 2 ^ q

/-- How far down the numbers that round to a double reach, in units of its mantissa. -/
noncomputable def reach (m : Nat) (q : Int) : ℝ :=
  if m = 2 ^ 52 ∧ -1074 < q then 1 / 4 else 1 / 2

/-- The number that a double stands for, unless it is no number. -/
noncomputable def Binary64.amount? : Binary64 → Option EReal
  | .finite negative m q => some (amount negative m q)
  | .infinite negative => some (if negative then ⊥ else ⊤)
  | .nan => none

def signOf (negative : Bool) : Sign :=
  if negative then .negative else .positive

def Binary64.parts : Binary64 → UnpackedFloat
  | .finite negative m q =>
    if h : m = 0 then .zero (signOf negative) else .finite (signOf negative) m q (Nat.pos_of_ne_zero h)
  | .infinite negative => .infinity (signOf negative)
  | .nan => .notANumber

theorem unpack_of_fields {s e f : Nat} (hs : s < 2)
    (he : e < 2 ^ 11) (hf : f < 2 ^ 52) (hb : b.toNat = s * 2 ^ 63 + e * 2 ^ 52 + f) :
    UnpackedFloat.unpack .binary64 b = (ofFields s e f).parts := by
  have hexponent : (unpackExponent b).toNat = e := by
    rw [toNat_unpackExponent, hb]
    omega
  have hmantissa : (unpackMantissa b).toNat = f := by
    rw [toNat_unpackMantissa, hb]
    omega
  have hsign : Sign.ofBitVec (unpackSign b) = signOf (s == 1) := by
    have hbit : unpackSign b = BitVec.ofNat 1 s := by
      apply BitVec.eq_of_toNat_eq
      rw [toNat_unpackSign, hb, BitVec.toNat_ofNat]
      omega
    rw [hbit]
    rcases (by omega : s = 0 ∨ s = 1) with rfl | rfl <;> rfl
  have hgreatest : unpackExponent b = -1#_ ↔ e = 2047 := by
    rw [← BitVec.toNat_inj, hexponent]
    rfl
  have hleast : unpackExponent b = 0#_ ↔ e = 0 := by
    rw [← BitVec.toNat_inj, hexponent]
    rfl
  have hzero : unpackMantissa b = 0#_ ↔ f = 0 := by
    rw [← BitVec.toNat_inj, hmantissa]
    rfl
  have hone := toNat_one_append (unpackMantissa b)
  have hbias : (Format.binary64.exponentBias : Int) + Format.binary64.mantissaBitsWithoutImplicit = 1075 := rfl
  simp only [UnpackedFloat.unpack, ofFields, hgreatest, hleast, hzero, hbias, hexponent, hsign]
  split
  · split <;> rfl
  · split
    · split
      · simp [Binary64.parts, *]
      · simp [Binary64.parts, *]
    · simp [Binary64.parts, *]

theorem unpack_eq (x : Float) : x.toModel.unpack = (decode x).parts := by
  obtain ⟨s, e, f, hs, he, hf, hx⟩ := exists_fields x.toBits.toNat_lt
  rw [decode_of_fields he hf hx]
  exact unpack_of_fields hs he hf hx

theorem decode_injective : Function.Injective decode := by
  intro x y h
  have hparts : x.toModel.unpack = y.toModel.unpack := by rw [unpack_eq, unpack_eq, h]
  obtain ⟨⟨b, hx⟩⟩ := x
  obtain ⟨⟨b', hy⟩⟩ := y
  have hbits : b.toBitVec = b'.toBitVec :=
    ((pack_unpack hx).symm.trans (congrArg (UnpackedFloat.pack .binary64) hparts)).trans (pack_unpack hy)
  obtain rfl := UInt64.toBitVec_inj.1 hbits
  rfl

/-! ### Comparing -/

/-- Of two doubles the one with the greater exponent is greater, then the one with the greater
mantissa. -/
theorem cmp_of_inRange {m' : Nat} {q q' : Int} (h : InRange m q) (h' : InRange m' q') :
    (compare q q').then (compare m m') = cmp ((m : ℝ) * 2 ^ q) (m' * 2 ^ q') := by
  have hless {m m' : Nat} {q q' : Int} (h : InRange m q) (h' : InRange m' q') (hq : q < q') :
      (m : ℝ) * 2 ^ q < m' * 2 ^ q' := by
    have hm : (m : ℝ) < 2 ^ 53 := by exact_mod_cast h.mantissa
    have hm' : (2 : ℝ) ^ 52 ≤ m' := by
      exact_mod_cast h'.normal.resolve_right (by have := h.least; omega)
    have hpow : (2 : ℝ) ^ (q + 1) ≤ 2 ^ q' := zpow_le_zpow_right₀ (by norm_num) (by omega)
    calc (m : ℝ) * 2 ^ q < 2 ^ 53 * 2 ^ q := by gcongr
      _ = 2 ^ 52 * 2 ^ (q + 1) := by rw [zpow_add_one₀ (by norm_num)]; ring
      _ ≤ m' * 2 ^ q' := by gcongr
  rcases lt_trichotomy q q' with hq | rfl | hq
  · rw [compare_lt_iff_lt.2 hq, (cmp_eq_lt_iff _ _).2 (hless h h' hq)]
    rfl
  · rw [compare_eq_iff_eq.2 rfl, cmp_mul_pos_right (by positivity), Nat.strictMono_cast.cmp_map_eq,
      cmp_eq_compare]
    rfl
  · rw [compare_gt_iff_gt.2 hq, (cmp_eq_gt_iff _ _).2 (hless h' h hq)]
    rfl

theorem some_lt_eq {α : Type} [LinearOrder α] {a b : α} (h : a < b) : some Ordering.lt = some (cmp a b) :=
  congrArg some ((cmp_eq_lt_iff _ _).2 h).symm

theorem some_gt_eq {α : Type} [LinearOrder α] {a b : α} (h : b < a) : some Ordering.gt = some (cmp a b) :=
  congrArg some ((cmp_eq_gt_iff _ _).2 h).symm

theorem compare_finite (n n' : Bool) {m' : Nat} {q q' : Int} (h : InRange m q) (h' : InRange m' q') :
    (Binary64.finite n m q).parts.compare (Binary64.finite n' m' q').parts =
      some (cmp (amount n m q) (amount n' m' q')) := by
  have hpos {m : Nat} (q : Int) (hm : 0 < m) : (0 : ℝ) < m * 2 ^ q := by positivity
  rcases Nat.eq_zero_or_pos m with rfl | hm <;> rcases Nat.eq_zero_or_pos m' with rfl | hm'
  · simp [Binary64.parts, UnpackedFloat.compare, amount]
  · have := hpos q' hm'
    cases n' <;> simp only [Binary64.parts, amount, signOf, hm'.ne', dif_pos, dif_neg, not_false_eq_true,
      Nat.cast_zero, zero_mul, neg_zero, ite_self]
    · exact some_lt_eq this
    · exact some_gt_eq (by simpa using this)
  · have := hpos q hm
    cases n <;> simp only [Binary64.parts, amount, signOf, hm.ne', dif_pos, dif_neg, not_false_eq_true,
      Nat.cast_zero, zero_mul, neg_zero, ite_self]
    · exact some_gt_eq this
    · exact some_lt_eq (by simpa using this)
  · have hleft := hpos q hm
    have hright := hpos q' hm'
    simp only [Binary64.parts, hm.ne', hm'.ne', dif_neg, not_false_eq_true]
    cases n <;> cases n'
    · exact congrArg some (cmp_of_inRange h h')
    · exact some_gt_eq (show -((m' : ℝ) * 2 ^ q') < m * 2 ^ q by linarith)
    · exact some_lt_eq (show -((m : ℝ) * 2 ^ q) < m' * 2 ^ q' by linarith)
    · refine congrArg some ?_
      rw [cmp_of_inRange h h', cmp_swap]
      have hneg : StrictAnti fun r : ℝ => -r := fun _ _ => neg_lt_neg
      exact (hneg.cmp_map_eq _ _).symm

theorem compare_infinite (n n' : Bool) (m' : Nat) (q' : Int) :
    (Binary64.infinite n).parts.compare (Binary64.finite n' m' q').parts =
      some (cmp (if n then ⊥ else ⊤) (amount n' m' q' : EReal)) ∧
    (Binary64.finite n' m' q').parts.compare (Binary64.infinite n).parts =
      some (cmp (amount n' m' q' : EReal) (if n then ⊥ else ⊤)) := by
  have hbot := EReal.bot_lt_coe (amount n' m' q')
  have htop := EReal.coe_lt_top (amount n' m' q')
  by_cases hm : m' = 0
  · simp only [Binary64.parts, hm, dif_pos]
    cases n
    · exact ⟨some_gt_eq (hm ▸ htop), some_lt_eq (hm ▸ htop)⟩
    · exact ⟨some_lt_eq (hm ▸ hbot), some_gt_eq (hm ▸ hbot)⟩
  · simp only [Binary64.parts, hm, dif_neg, not_false_eq_true]
    cases n
    · exact ⟨some_gt_eq htop, some_lt_eq htop⟩
    · exact ⟨some_lt_eq hbot, some_gt_eq hbot⟩

theorem compare_parts {u v : EReal} (hx : (decode x).amount? = some u)
    (hy : (decode y).amount? = some v) : (decode x).parts.compare (decode y).parts = some (cmp u v) := by
  cases hdx : decode x with
  | nan =>
    rw [hdx] at hx
    cases hx
  | infinite n =>
    rw [hdx] at hx
    cases hx
    cases hdy : decode y with
    | nan =>
      rw [hdy] at hy
      cases hy
    | infinite n' =>
      rw [hdy] at hy
      cases hy
      cases n <;> cases n'
      · exact congrArg some (cmp_self_eq_eq _).symm
      · exact some_gt_eq bot_lt_top
      · exact some_lt_eq bot_lt_top
      · exact congrArg some (cmp_self_eq_eq _).symm
    | finite n' m' q' =>
      rw [hdy] at hy
      cases hy
      exact (compare_infinite n n' m' q').1
  | finite n m q =>
    rw [hdx] at hx
    cases hx
    cases hdy : decode y with
    | nan =>
      rw [hdy] at hy
      cases hy
    | infinite n' =>
      rw [hdy] at hy
      cases hy
      exact (compare_infinite n' n m q).2
    | finite n' m' q' =>
      rw [hdy] at hy
      cases hy
      rw [compare_finite n n' (inRange_of_decode hdx) (inRange_of_decode hdy), EReal.coe_strictMono.cmp_map_eq]

/-- Doubles that are numbers are compared as these numbers. -/
theorem lt_iff {u v : EReal} (hx : (decode x).amount? = some u) (hy : (decode y).amount? = some v) : x < y ↔ u < v := by
  change decide (x.toModel.unpack.lt y.toModel.unpack) ↔ _
  rw [UnpackedFloat.lt, unpack_eq, unpack_eq, compare_parts hx hy]
  simp [cmp_eq_lt_iff]

theorem beq_iff {u v : EReal} (hx : (decode x).amount? = some u)
    (hy : (decode y).amount? = some v) : (x == y) ↔ u = v := by
  change x.toModel.unpack.beq y.toModel.unpack ↔ _
  rw [UnpackedFloat.beq, unpack_eq, unpack_eq, compare_parts hx hy]
  simp [cmp_eq_eq_iff]

end GzLang.Decimal

namespace GzLang

open Decimal

/-- The number that a number of a value stands for; NaN stands for none. -/
noncomputable def Number.amount? : Number → Option EReal
  | .int i => some ((i : ℝ) : EReal)
  | .float x => (decode x).amount?

namespace Number

theorem cast_pow_two {k : Int} (hk : 0 ≤ k) : ((Int.pow 2 k.toNat : Int) : ℝ) = 2 ^ k := by
  rw [Int.pow_eq, Int.cast_pow, ← zpow_natCast, Int.toNat_of_nonneg hk, Int.cast_ofNat]

theorem compareExact_eq (i : Int) (negative : Bool) (m : Nat) (q : Int) :
    compareExact i negative m q = cmp (i : ℝ) (amount negative m q) := by
  have hamount : amount negative m q = ((if negative then -(m : Int) else m : Int) : ℝ) * 2 ^ q := by
    cases negative <;> simp [amount]
  have hpow : (0 : ℝ) < 2 ^ q := by positivity
  have hcast : StrictMono ((↑) : ℤ → ℝ) := Int.cast_strictMono
  rw [hamount, compareExact]
  generalize (if negative then -(m : Int) else m) = s
  split
  next hq =>
    -- both sides are multiplied by the power of two that makes the double an integer
    rw [← cmp_eq_compare, ← hcast.cmp_map_eq, ← cmp_mul_pos_right hpow, Int.cast_mul,
      cast_pow_two (by omega), mul_assoc, ← zpow_add₀ (by norm_num), neg_add_cancel, zpow_zero, mul_one]
  next hq =>
    rw [← cmp_eq_compare, ← hcast.cmp_map_eq, Int.cast_mul, cast_pow_two (by omega)]

theorem compare?_of_amount? {a b : Number} {u v : EReal} (ha : a.amount? = some u)
    (hb : b.amount? = some v) : compare? a b = some (cmp u v) := by
  have hint {i : Int} {x : Float} {v : EReal} (hx : (decode x).amount? = some v) :
      compareIntFloat i x = some (cmp ((i : ℝ) : EReal) v) := by
    rw [compareIntFloat]
    cases hd : decode x with
    | nan =>
      rw [hd] at hx
      cases hx
    | infinite negative =>
      rw [hd] at hx
      cases hx
      cases negative
      · exact some_lt_eq (EReal.coe_lt_top _)
      · exact some_gt_eq (EReal.bot_lt_coe _)
    | finite negative m q =>
      rw [hd] at hx
      cases hx
      exact congrArg some ((compareExact_eq i negative m q).trans (EReal.coe_strictMono.cmp_map_eq _ _).symm)
  cases a with
  | int i =>
    cases ha
    cases b with
    | int j =>
      cases hb
      have hcast : StrictMono fun i : ℤ => ((i : ℝ) : EReal) := EReal.coe_strictMono.comp Int.cast_strictMono
      exact congrArg some ((cmp_eq_compare i j).symm.trans (hcast.cmp_map_eq i j).symm)
    | float y => exact hint hb
  | float x =>
    cases b with
    | int j =>
      cases hb
      change (compareIntFloat j x).map Ordering.swap = _
      rw [hint ha, Option.map_some, cmp_swap]
    | float y =>
      change (if x < y then _ else if x == y then _ else if y < x then _ else _) = _
      rcases lt_trichotomy u v with h | rfl | h
      · rw [if_pos ((lt_iff ha hb).2 h)]
        exact some_lt_eq h
      · rw [if_neg (mt (lt_iff ha hb).1 (lt_irrefl _)), if_pos ((beq_iff ha hb).2 rfl), cmp_self_eq_eq]
      · rw [if_neg (mt (lt_iff ha hb).1 h.not_gt), if_neg (mt (beq_iff ha hb).1 h.ne'), if_pos ((lt_iff hb ha).2 h)]
        exact some_gt_eq h

end Number

/-! ### Values that are numbers -/

noncomputable def Value.amount? (v : Value) : Option EReal :=
  v.toNumber?.bind Number.amount?

theorem Value.relate_of_amount? {v w : Value} {x y : EReal} (hv : v.amount? = some x)
    (hw : w.amount? = some y) (r : Value.Relation) : v.relate r w = .ok (r.holds (cmp x y)) := by
  obtain ⟨a, ha, hx⟩ := Option.bind_eq_some_iff.1 hv
  obtain ⟨b, hb, hy⟩ := Option.bind_eq_some_iff.1 hw
  have hcompare := Number.compare?_of_amount? hx hy
  cases v <;> cases ha <;> cases w <;> cases hb <;> simp [Value.relate, Value.toNumber?, hcompare]

end GzLang
