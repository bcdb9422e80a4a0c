import GzLang.Calendar
import GzLang.Proofs.JsonToken

/-!
# The order of instants and of their texts

The text of an instant consists of numbers of fixed width, from the year down to the second, and of a fraction that is
left out if it is zero. Numbers of one width are ordered as their digits (`padded_lt_padded`), so texts are ordered as
these numbers are, the first difference deciding. Dates are ordered as days: a day is counted as one of a year that
starts in March (`exists_yearDay`), and neither the start of these years nor the months in them go backwards. So a
later instant has a greater text (`isoText_lt_iff`).
-/

namespace GzLang

open List Json

/-! ### Numbers of fixed width -/

section Lex

variable {a a' b b' : List Char}

/-- Of two texts with parts of one length in front, these parts decide first. -/
theorem append_lt_append_iff (h : a.length = a'.length) : a ++ b < a' ++ b' ↔ a < a' ∨ a = a' ∧ b < b' := by
  induction a generalizing a' with
  | nil => simp [length_eq_zero_iff.1 h.symm]
  | cons x a ih =>
    obtain ⟨y, a', rfl⟩ := exists_cons_of_length_eq_add_one h.symm
    simp only [cons_append, cons_lt_cons_iff, ih (Nat.succ.inj h), cons.injEq]
    tauto

end Lex

theorem natOf_cons (c : Char) (ds : List Char) :
    natOf (c :: ds) = 10 ^ ds.length * (c.toNat - '0'.toNat) + natOf ds := by
  show Nat.ofDigitChars 10 (c :: ds) 0 = _
  rw [Nat.ofDigitChars_cons, Nat.ofDigitChars_eq_ofDigitChars_zero, Nat.mul_zero, Nat.zero_add]
  rfl

theorem isDigit_bounds {c : Char} (h : isDigit c) : '0'.toNat ≤ c.toNat ∧ c.toNat ≤ '0'.toNat + 9 := by
  simp only [isDigit, Bool.and_eq_true, decide_eq_true_eq] at h
  exact h

theorem Json.Digits.natOf_lt {ds : List Char} (h : Digits ds) : natOf ds < 10 ^ ds.length := by
  induction ds with
  | nil => exact Nat.one_pos
  | cons c ds ih =>
    obtain ⟨-, hc⟩ := isDigit_bounds (h c mem_cons_self)
    have hds := ih fun x hx => h x (mem_cons_of_mem c hx)
    have hmul := Nat.mul_le_mul_left (10 ^ ds.length) (Nat.sub_le_iff_le_add'.2 hc)
    rw [natOf_cons, length_cons, Nat.pow_succ]
    omega

/-- Digit lists of one length are ordered as their numbers. -/
theorem Json.Digits.lt_iff {ds es : List Char} (hd : Digits ds) (he : Digits es) (h : ds.length = es.length) :
    ds < es ↔ natOf ds < natOf es := by
  induction ds generalizing es with
  | nil => simp [length_eq_zero_iff.1 h.symm, natOf]
  | cons c ds ih =>
    obtain ⟨e, es, rfl⟩ := exists_cons_of_length_eq_add_one h.symm
    have hlength := Nat.succ.inj h
    have hdtail : Digits ds := fun x hx => hd x (mem_cons_of_mem c hx)
    have hetail : Digits es := fun x hx => he x (mem_cons_of_mem e hx)
    have hdlt := hdtail.natOf_lt
    have helt := hetail.natOf_lt
    obtain ⟨hc, -⟩ := isDigit_bounds (hd c mem_cons_self)
    obtain ⟨hc', -⟩ := isDigit_bounds (he e mem_cons_self)
    rw [cons_lt_cons_iff, ih hdtail hetail hlength, natOf_cons, natOf_cons, hlength] at *
    generalize natOf ds = m, natOf es = n, 10 ^ es.length = p at *
    rcases lt_trichotomy c e with hlt | rfl | hgt
    · have hmul := Nat.mul_le_mul_left p (show c.toNat - '0'.toNat + 1 ≤ e.toNat - '0'.toNat by
        have : c.toNat < e.toNat := hlt
        omega)
      simp only [hlt, true_or, true_iff]
      rw [Nat.mul_add] at hmul
      omega
    · simp
    · have hmul := Nat.mul_le_mul_left p (show e.toNat - '0'.toNat + 1 ≤ c.toNat - '0'.toNat by
        have : e.toNat < c.toNat := hgt
        omega)
      simp only [hgt.not_gt, hgt.ne', false_and, or_self, false_iff]
      rw [Nat.mul_add] at hmul
      omega

namespace Decimal

theorem length_padded {width n : Nat} (hwidth : 0 < width) (hn : n < 10 ^ width) :
    (padded width n).toList.length = width := by
  have hdigits := (Nat.length_toDigits_le_iff (by norm_num) hwidth).2 hn
  rw [padded, String.toList_ofList, length_append, length_replicate]
  omega

variable {width m n : Nat} (hwidth : 0 < width) (hm : m < 10 ^ width) (hn : n < 10 ^ width)
include hwidth hm hn

theorem padded_lt_padded : (padded width m).toList < (padded width n).toList ↔ m < n := by
  obtain ⟨hdm, -, hnm⟩ := natOf_padded width m
  obtain ⟨hdn, -, hnn⟩ := natOf_padded width n
  rw [hdm.lt_iff hdn (by rw [length_padded hwidth hm, length_padded hwidth hn]), hnm, hnn]

omit hwidth hm hn in
theorem padded_inj : (padded width m).toList = (padded width n).toList ↔ m = n := by
  obtain ⟨-, -, hnm⟩ := natOf_padded width m
  obtain ⟨-, -, hnn⟩ := natOf_padded width n
  constructor
  · intro h
    rw [← hnm, h, hnn]
  · rintro rfl
    rfl

/-- The first of two numbers of fixed width decides, and what follows if it is the same. -/
theorem padded_append_lt {r r' : List Char} : (padded width m).toList ++ r < (padded width n).toList ++ r' ↔
    m < n ∨ m = n ∧ r < r' := by
  rw [append_lt_append_iff (by rw [length_padded hwidth hm, length_padded hwidth hn]),
    padded_lt_padded hwidth hm hn, padded_inj]

end Decimal

namespace Calendar

/-! ### Days and dates -/

/-- The number of days before a year that starts in March, from the first of March of the year zero. -/
def daysBefore (year : Int) : Int := 365 * year + year / 4 - year / 100 + year / 400

def dateIn (year day : Int) : Date :=
  let mp := (5 * day + 2) / 153
  let month := if mp < 10 then mp + 3 else mp - 9
  ⟨year + (if month ≤ 2 then 1 else 0), month.toNat, (day - (153 * mp + 2) / 5 + 1).toNat⟩

/-- A day of an era of four hundred years, by centuries, leap periods and years. The last day of a leap year is the
only one that goes beyond the count of a common year. -/
theorem exists_parts {doe : Int} (h0 : 0 ≤ doe) (h1 : doe < 146097) :
    ∃ c b a day : Int, doe = 36524 * c + 1461 * b + 365 * a + day ∧ 0 ≤ c ∧ c ≤ 3 ∧ 0 ≤ b ∧ b ≤ 24 ∧ 0 ≤ a ∧ a ≤ 3 ∧
      0 ≤ day ∧ (day ≤ 364 ∨ day = 365 ∧ a = 3 ∧ (b ≤ 23 ∨ c = 3)) := by
  refine ⟨min 3 (doe / 36524), min 24 ((doe - 36524 * min 3 (doe / 36524)) / 1461),
    min 3 ((doe - 36524 * min 3 (doe / 36524) - 1461 * min 24 ((doe - 36524 * min 3 (doe / 36524)) / 1461)) / 365),
    _, (add_sub_cancel _ _).symm, ?_⟩
  omega

/-- The year of an era is found from its day by taking out the leap days. -/
theorem yearOfEra_eq {doe c b a day : Int} (hdoe : doe = 36524 * c + 1461 * b + 365 * a + day) (hc : 0 ≤ c ∧ c ≤ 3)
    (hb : 0 ≤ b ∧ b ≤ 24) (ha : 0 ≤ a ∧ a ≤ 3) (h0 : 0 ≤ day)
    (hday : day ≤ 364 ∨ day = 365 ∧ a = 3 ∧ (b ≤ 23 ∨ c = 3)) :
    (doe - doe / 1460 + doe / 36524 - doe / 146096) / 365 = 100 * c + 4 * b + a := by
  have hfour : doe / 1460 = 25 * c + b + (24 * c + b + 365 * a + day) / 1460 := by omega
  have hcentury : doe / 36524 - doe / 146096 = c := by
    by_cases hlast : day = 365 ∧ b = 24
    · obtain ⟨rfl, rfl⟩ := hlast
      obtain ⟨rfl, rfl⟩ : a = 3 ∧ c = 3 := by omega
      subst hdoe
      norm_num
    · have hlow : 1461 * b + 365 * a + day ≤ 36523 := by omega
      have hquotient : doe / 36524 = c := by omega
      have hnone : doe / 146096 = 0 := by omega
      omega
  -- the leap day of a period is taken out before the period is over, but not on the first day of a year
  have hcarry : (24 * c + b + 365 * a + day) / 1460 = 0 ∧ day ≤ 364 ∨
      (24 * c + b + 365 * a + day) / 1460 = 1 ∧ 1 ≤ day := by omega
  have hcommon : doe - doe / 1460 + doe / 36524 - doe / 146096 =
      365 * (100 * c + 4 * b + a) + (day - (24 * c + b + 365 * a + day) / 1460) := by omega
  rw [hcommon]
  generalize (24 * c + b + 365 * a + day) / 1460 = carry at hcarry
  omega

section Parts

variable {era c b a day : Int} (hb : 0 ≤ b ∧ b ≤ 24) (ha : 0 ≤ a ∧ a ≤ 3)
include hb ha

theorem daysBefore_parts (hc : 0 ≤ c ∧ c ≤ 3) : daysBefore (100 * c + 4 * b + a + era * 400) =
    era * 146097 + 36524 * c + 1461 * b + 365 * a := by
  have hfour : (100 * c + 4 * b + a + era * 400) / 4 = 100 * era + 25 * c + b := by omega
  have hcentury : (100 * c + 4 * b + a + era * 400) / 100 = 4 * era + c := by omega
  have hera : (100 * c + 4 * b + a + era * 400) / 400 = era := by omega
  rw [daysBefore, hfour, hcentury, hera]
  ring

theorem add_day_lt_daysBefore (hday : day ≤ 364 ∨ day = 365 ∧ a = 3 ∧ (b ≤ 23 ∨ c = 3)) :
    daysBefore (100 * c + 4 * b + a + era * 400) + day < daysBefore (100 * c + 4 * b + a + era * 400 + 1) := by
  rw [daysBefore, daysBefore]
  omega

theorem day_of_parts : 36524 * c + 1461 * b + 365 * a + day -
    (365 * (100 * c + 4 * b + a) + (100 * c + 4 * b + a) / 4 - (100 * c + 4 * b + a) / 100) = day := by
  have hfour : (100 * c + 4 * b + a) / 4 = 25 * c + b := by omega
  have hcentury : (100 * c + 4 * b + a) / 100 = c := by omega
  rw [hfour, hcentury]
  ring

end Parts

theorem exists_yearDay (days : Int) : ∃ year day : Int, days + 719468 = daysBefore year + day ∧ 0 ≤ day ∧ day ≤ 365 ∧
    daysBefore year + day < daysBefore (year + 1) ∧ dateOf days = dateIn year day := by
  have h0 : 0 ≤ (days + 719468) % 146097 := Int.emod_nonneg _ (by norm_num)
  have h1 : (days + 719468) % 146097 < 146097 := Int.emod_lt_of_pos _ (by norm_num)
  obtain ⟨c, b, a, day, hdoe, hc0, hc, hb0, hb, ha0, ha, hday0, hday⟩ := exists_parts h0 h1
  have hera : days + 719468 - (days + 719468) / 146097 * 146097 = 36524 * c + 1461 * b + 365 * a + day := by
    rw [← hdoe, Int.emod_def, mul_comm]
  refine ⟨100 * c + 4 * b + a + (days + 719468) / 146097 * 400, day, ?_, hday0, ?_, ?_, ?_⟩
  · rw [daysBefore_parts ⟨hb0, hb⟩ ⟨ha0, ha⟩ ⟨hc0, hc⟩]
    linarith
  · rcases hday with hday | ⟨rfl, -⟩
    · linarith
    · exact le_rfl
  · exact add_day_lt_daysBefore ⟨hb0, hb⟩ ⟨ha0, ha⟩ hday
  · have hyear := yearOfEra_eq rfl ⟨hc0, hc⟩ ⟨hb0, hb⟩ ⟨ha0, ha⟩ hday0 hday
    simp only [dateOf, dateIn, Int.fdiv_eq_ediv_of_nonneg _ (show (0 : Int) ≤ 146097 by norm_num), hera, hyear,
      day_of_parts ⟨hb0, hb⟩ ⟨ha0, ha⟩]

theorem daysBefore_mono {y y' : Int} (h : y ≤ y') : daysBefore y ≤ daysBefore y' := by
  rw [daysBefore, daysBefore]
  omega

/-- The months of a year that starts in March have thirty days and a fraction that makes five of them 153. -/
theorem exists_month {n : Int} (h0 : 0 ≤ n) (h : n ≤ 365) : ∃ mp : Nat, mp ≤ 11 ∧ (153 * mp : Int) ≤ 5 * n + 2 ∧
    5 * n + 2 < 153 * (mp + 1) ∧ ∀ y, dateIn y n = ⟨if mp < 10 then y else y + 1,
      if mp < 10 then mp + 3 else mp - 9, (n - (153 * mp + 2) / 5 + 1).toNat⟩ := by
  obtain ⟨mp, hmp⟩ := Int.eq_ofNat_of_zero_le (show 0 ≤ (5 * n + 2) / 153 by omega)
  refine ⟨mp, by omega, by omega, by omega, fun y => ?_⟩
  simp only [dateIn, hmp, Date.mk.injEq]
  by_cases hlow : mp < 10
  · have hint : (mp : Int) < 10 := by omega
    simp only [hint, hlow, if_true]
    refine ⟨?_, by omega, trivial⟩
    rw [if_neg (by omega), add_zero]
  · have hint : ¬ (mp : Int) < 10 := by omega
    simp only [hint, hlow, if_false]
    refine ⟨?_, by omega, trivial⟩
    rw [if_pos (by omega)]

def Precedes (d d' : Date) : Prop :=
  d.year < d'.year ∨ d.year = d'.year ∧ (d.month < d'.month ∨ d.month = d'.month ∧ d.day < d'.day)

theorem precedes_dateIn {y y' n n' : Int} (h0 : 0 ≤ n) (h : n ≤ 365) (h0' : 0 ≤ n') (h' : n' ≤ 365)
    (hlt : y < y' ∨ y = y' ∧ n < n') : Precedes (dateIn y n) (dateIn y' n') := by
  obtain ⟨mp, hmp, hlow, hhigh, hdate⟩ := exists_month h0 h
  obtain ⟨mp', hmp', hlow', hhigh', hdate'⟩ := exists_month h0' h'
  rw [hdate, hdate', Precedes]
  dsimp only
  rcases hlt with hy | ⟨rfl, hn⟩
  · split_ifs <;> omega
  · rcases lt_trichotomy mp mp' with hm | rfl | hm
    · split_ifs <;> omega
    · exact .inr ⟨rfl, .inr ⟨rfl, by omega⟩⟩
    · omega

theorem precedes_dateOf {n n' : Int} (h : n < n') : Precedes (dateOf n) (dateOf n') := by
  obtain ⟨y, d, hd, hd0, hd1, -, hdate⟩ := exists_yearDay n
  obtain ⟨y', d', hd', hd0', hd1', hnext, hdate'⟩ := exists_yearDay n'
  rw [hdate, hdate']
  refine precedes_dateIn hd0 hd1 hd0' hd1' ?_
  rcases lt_trichotomy y y' with hy | rfl | hy
  · exact .inl hy
  · exact .inr ⟨rfl, by omega⟩
  · have hmono := daysBefore_mono (Int.add_one_le_of_lt hy)
    omega

theorem dateOf_bounds (n : Int) : (dateOf n).month ≤ 12 ∧ (dateOf n).day ≤ 31 := by
  obtain ⟨y, d, -, hd0, hd1, -, hdate⟩ := exists_yearDay n
  obtain ⟨mp, hmp, hlow, hhigh, hmonth⟩ := exists_month hd0 hd1
  rw [hdate, hmonth]
  dsimp only
  split_ifs <;> omega

/-! ### Texts -/

/-- An instant in a year of four digits that is not zero. -/
def InYears (t : Instant) : Prop := 1 ≤ (date t).year ∧ (date t).year ≤ 9999

def fractionText (fraction : Nat) : List Char :=
  if fraction = 0 then [] else '.' :: (Decimal.padded 6 fraction).toList

def stampChars (year month day hour minute second fraction : Nat) : List Char :=
  (Decimal.padded 4 year).toList ++ '-' :: ((Decimal.padded 2 month).toList ++ '-' :: ((Decimal.padded 2 day).toList ++
    'T' :: ((Decimal.padded 2 hour).toList ++ ':' :: ((Decimal.padded 2 minute).toList ++
      ':' :: ((Decimal.padded 2 second).toList ++ fractionText fraction)))))

theorem toList_isoText (t : Instant) : (isoText t).toList =
    stampChars (date t).year.toNat (date t).month (date t).day (timeOfDay t / 1000000 / 3600)
      (timeOfDay t / 1000000 / 60 % 60) (timeOfDay t / 1000000 % 60) (timeOfDay t % 1000000) := by
  simp only [isoText, stampChars, fractionText, String.toList_append, append_assoc]
  split <;> simp

theorem fractionText_lt {f f' : Nat} (h : f < f') (hf' : f' < 1000000) : fractionText f < fractionText f' := by
  rw [fractionText, fractionText, if_neg (by omega : f' ≠ 0)]
  split_ifs with hzero
  · exact nil_lt_cons ..
  · rw [cons_lt_cons_self, Decimal.padded_lt_padded (by norm_num) (by omega) (by omega)]
    exact h

section Stamp

variable {y y' mo mo' d d' h h' mi mi' s s' f f' : Nat}

theorem stampChars_lt (hy : y < 10 ^ 4 ∧ y' < 10 ^ 4) (hmo : mo < 10 ^ 2 ∧ mo' < 10 ^ 2) (hd : d < 10 ^ 2 ∧ d' < 10 ^ 2)
    (hh : h < 10 ^ 2 ∧ h' < 10 ^ 2) (hmi : mi < 10 ^ 2 ∧ mi' < 10 ^ 2) (hs : s < 10 ^ 2 ∧ s' < 10 ^ 2) (hf' : f' < 1000000)
    (hlt : y < y' ∨ y = y' ∧ (mo < mo' ∨ mo = mo' ∧ (d < d' ∨ d = d' ∧ (h < h' ∨ h = h' ∧ (mi < mi' ∨ mi = mi' ∧
      (s < s' ∨ s = s' ∧ f < f')))))) :
    stampChars y mo d h mi s f < stampChars y' mo' d' h' mi' s' f' := by
  simp only [stampChars, cons_lt_cons_self, Decimal.padded_append_lt (show 0 < 4 by norm_num) hy.1 hy.2,
    Decimal.padded_append_lt (show 0 < 2 by norm_num) hmo.1 hmo.2,
    Decimal.padded_append_lt (show 0 < 2 by norm_num) hd.1 hd.2,
    Decimal.padded_append_lt (show 0 < 2 by norm_num) hh.1 hh.2,
    Decimal.padded_append_lt (show 0 < 2 by norm_num) hmi.1 hmi.2,
    Decimal.padded_append_lt (show 0 < 2 by norm_num) hs.1 hs.2]
  have hfraction : f < f' → fractionText f < fractionText f' := fun hff => fractionText_lt hff hf'
  tauto

end Stamp

theorem timeOfDay_lt (t : Instant) : timeOfDay t < 86400000000 := by
  rw [timeOfDay, dayLength, Int.fdiv_eq_ediv_of_nonneg _ (by norm_num)]
  omega

theorem day_lt_or_of_lt {s t : Int} (h : s < t) :
    s.fdiv dayLength < t.fdiv dayLength ∨ s.fdiv dayLength = t.fdiv dayLength ∧ timeOfDay s < timeOfDay t := by
  rw [timeOfDay, timeOfDay, dayLength, Int.fdiv_eq_ediv_of_nonneg _ (by norm_num),
    Int.fdiv_eq_ediv_of_nonneg _ (by norm_num)]
  omega

theorem isoText_lt_isoText {s t : Instant} (hs : InYears s) (ht : InYears t) (h : s < t) : isoText s < isoText t := by
  rw [String.lt_iff_toList_lt, toList_isoText, toList_isoText]
  obtain ⟨hmonth, hday⟩ := dateOf_bounds (s.fdiv dayLength)
  obtain ⟨hmonth', hday'⟩ := dateOf_bounds (t.fdiv dayLength)
  have htime := timeOfDay_lt s
  have htime' := timeOfDay_lt t
  have hdays := day_lt_or_of_lt h
  simp only [InYears, date] at *
  generalize timeOfDay s = u, timeOfDay t = v at *
  refine stampChars_lt ⟨by omega, by omega⟩ ⟨by omega, by omega⟩ ⟨by omega, by omega⟩ ⟨by omega, by omega⟩
    ⟨by omega, by omega⟩ ⟨by omega, by omega⟩ (by omega) ?_
  rcases hdays with hlt | ⟨heq, hlt⟩
  · have hprecedes := precedes_dateOf hlt
    rw [Precedes] at hprecedes
    omega
  · rw [heq]
    right
    refine ⟨rfl, .inr ⟨rfl, .inr ⟨rfl, ?_⟩⟩⟩
    omega

theorem isoText_lt_iff {s t : Instant} (hs : InYears s) (ht : InYears t) : isoText s < isoText t ↔ s < t := by
  refine ⟨fun h => ?_, isoText_lt_isoText hs ht⟩
  rcases lt_trichotomy s t with hlt | rfl | hgt
  · exact hlt
  · exact absurd h (lt_irrefl _)
  · exact absurd (isoText_lt_isoText ht hs hgt) (lt_asymm h)

end Calendar

end GzLang
