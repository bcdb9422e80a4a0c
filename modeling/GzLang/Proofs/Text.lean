import Mathlib.Data.List.DropRight
import Mathlib.Data.List.Infix
import GzLang.Text.Digit
import GzLang.Text.Split
import GzLang.Text.Word

/-!
# Cutting and trimming texts

What `cutFirst`, `splitAll` and `trim` do with texts of a known form. A separator is found where
it stands as long as its first character does not occur before (`cutFirst_append`), and trimming
does not reach beyond a character that is not blank (`trim_append_cons`).
-/

namespace GzLang.Text

open List

variable {l s sep : List Char} {c : Char}

/-! ### Properties of the characters of a text -/

section

variable {p : Char → Prop} [DecidablePred p] (s : List Char)

/-- What holds of all characters of a text is decided by going through the text, not through all
the characters that there are. -/
instance (priority := 2000) decidableForallMem : Decidable (∀ c ∈ s, p c) :=
  decidableBAll p s

instance (priority := 2000) decidableExistsMem : Decidable (∃ c ∈ s, p c) :=
  decidableBEx p s

end

/-! ### Cutting -/

/-- A separator is found where it stands if its first character does not occur before. -/
theorem cutFirst_append {a : Char} (h : a ∉ l) (t r : List Char) :
    cutFirst (a :: t) (l ++ (a :: t ++ r)) = some (l, r) := by
  induction l with
  | nil => simp [cutFirst]
  | cons c l ih =>
    obtain ⟨hc, hl⟩ := not_or.1 (mt mem_cons.2 h)
    rw [cons_append, cutFirst, ih hl]
    simp [hc]

/-- A separator is not found in front of where its first character occurs. -/
theorem cutFirst_append_of_not_mem {a : Char} {t u : List Char} (h : a ∉ u) (s : List Char) :
    cutFirst (a :: t) (u ++ s) = (cutFirst (a :: t) s).map fun p => (u ++ p.1, p.2) := by
  induction u with
  | nil => simp
  | cons c u ih =>
    obtain ⟨hc, hu⟩ := not_or.1 (mt mem_cons.2 h)
    rw [cons_append, cutFirst, if_neg (by simp [isPrefixOf, hc]), ih hu, Option.map_map]
    rfl

theorem cutFirst_char (h : c ∉ l) (r : List Char) : cutFirst [c] (l ++ c :: r) = some (l, r) := cutFirst_append h [] r

theorem cutFirst_eq_none {sep s : List Char} (hsep : c ∈ sep) (h : c ∉ s) : cutFirst sep s = none := by
  cases hc : cutFirst sep s with
  | none => rfl
  | some p =>
    have hs := eq_append_of_cutFirst hc
    exact absurd (by rw [hs]; simp [hsep]) h

theorem cutFirst_char_eq_none : cutFirst [c] s = none ↔ c ∉ s := by
  constructor
  · intro h hc
    obtain ⟨l, r, rfl, hl⟩ := eq_append_cons_of_mem hc
    rw [cutFirst_char hl] at h
    cases h
  · exact cutFirst_eq_none (mem_singleton_self c)

theorem splitAll_eq (hsep : sep ≠ []) (s : List Char) :
    splitAll sep s = (cutFirst sep s).elim [s] fun p => p.1 :: splitAll sep p.2 := by
  rw [splitAll, dif_neg hsep]
  split <;> rename_i h <;> rw [h] <;> rfl

theorem splitAll_of_not_mem (h : c ∉ s) : splitAll [c] s = [s] := by
  rw [splitAll_eq (cons_ne_nil c []), cutFirst_char_eq_none.2 h]
  rfl

theorem splitAll_append (h : c ∉ l) (r : List Char) : splitAll [c] (l ++ c :: r) = l :: splitAll [c] r := by
  rw [splitAll_eq (cons_ne_nil c []), cutFirst_char h]
  rfl

theorem not_mem_of_cutFirst {s l r : List Char} (h : cutFirst [c] s = some (l, r)) : c ∉ l := by
  induction s generalizing l with
  | nil => cases h
  | cons d s ih =>
    rw [cutFirst] at h
    split at h
    · cases h
      simp
    · rename_i hd
      obtain ⟨⟨l', r'⟩, hcut, he⟩ := Option.map_eq_some_iff.1 h
      cases he
      have : c ≠ d := by simpa [isPrefixOf] using hd
      simp [this, ih hcut]

theorem not_mem_of_mem_splitAll {s p : List Char} (h : p ∈ splitAll [c] s) : c ∉ p := by
  generalize hsep : [c] = sep at h
  fun_induction splitAll sep s with
  | case1 s hs =>
    subst hsep
    cases hs
  | case2 s _ hc =>
    subst hsep
    rw [mem_singleton.1 h]
    exact cutFirst_char_eq_none.1 hc
  | case3 s _ l r hc ih =>
    subst hsep
    rcases mem_cons.1 h with rfl | h
    · exact not_mem_of_cutFirst hc
    · exact ih h

/-! ### Trimming -/

theorem trimLeft_of_head (h : isBlank c = false) : trimLeft (c :: s) = c :: s := by
  simp [trimLeft, h]

theorem trimLeft_blanks (h : ∀ c ∈ l, isBlank c) (s : List Char) : trimLeft (l ++ s) = trimLeft s := by
  simp [trimLeft, dropWhile_append_of_pos h]

theorem trimRight_blanks {r : List Char} (h : ∀ c ∈ r, isBlank c) (s : List Char) :
    trimRight (s ++ r) = trimRight s := by
  have : ∀ c ∈ r.reverse, isBlank c := fun c hc => h c (mem_reverse.1 hc)
  simp [trimRight, dropEndWhile, dropWhile_append_of_pos this]

theorem trimLeft_append_cons (hc : isBlank c = false) (l r : List Char) :
    trimLeft (l ++ c :: r) = trimLeft l ++ c :: r := by
  induction l with
  | nil => simp [trimLeft, hc]
  | cons d l ih =>
    cases hd : isBlank d with
    | true => simpa [trimLeft, hd] using ih
    | false => simp [trimLeft, hd]

theorem trimRight_append_cons (hc : isBlank c = false) (l r : List Char) :
    trimRight (l ++ c :: r) = l ++ c :: trimRight r := by
  have := trimLeft_append_cons hc r.reverse l.reverse
  simp only [trimLeft] at this
  simp [trimRight, dropEndWhile, this]

/-- Trimming does not reach beyond a character that is not blank. -/
theorem trim_append_cons (hc : isBlank c = false) (l r : List Char) :
    trim (l ++ c :: r) = trimLeft l ++ c :: trimRight r := by
  rw [trim, trimLeft_append_cons hc, trimRight_append_cons hc]

theorem blank_or_exists (s : List Char) : (∀ c ∈ s, isBlank c) ∨
      ∃ l c r, s = l ++ c :: r ∧ (∀ b ∈ l, isBlank b) ∧ isBlank c = false := by
  induction s with
  | nil => exact .inl (by simp)
  | cons d s ih =>
    cases hd : isBlank d with
    | false => exact .inr ⟨[], d, s, rfl, by simp, hd⟩
    | true =>
      rcases ih with h | ⟨l, c, r, rfl, hl, hc⟩
      · exact .inl (forall_mem_cons.2 ⟨hd, h⟩)
      · exact .inr ⟨d :: l, c, r, rfl, forall_mem_cons.2 ⟨hd, hl⟩, hc⟩

theorem trim_of_blank (h : ∀ c ∈ s, isBlank c) : trim s = [] := by
  have := trimLeft_blanks h []
  rw [append_nil] at this
  rw [trim, this]
  rfl

@[simp] theorem trim_trimLeft (s : List Char) : trim (trimLeft s) = trim s := by
  rcases blank_or_exists s with h | ⟨l, c, r, rfl, hl, hc⟩
  · rw [trim_of_blank h, ← append_nil s, trimLeft_blanks h]
    rfl
  · rw [trimLeft_blanks hl, trimLeft_of_head hc, trim, trim, trimLeft_blanks hl, trimLeft_of_head hc]

@[simp] theorem trim_trimRight (s : List Char) : trim (trimRight s) = trim s := by
  rcases blank_or_exists s with h | ⟨l, c, r, rfl, hl, hc⟩
  · rw [trim_of_blank h, ← nil_append s, trimRight_blanks h]
    rfl
  · have hr : trimRight (c :: r) = c :: trimRight r := trimRight_append_cons hc [] r
    have hrr : trimRight (c :: trimRight r) = c :: trimRight r := by
      rw [← hr]
      simp [trimRight, dropEndWhile, dropWhile_idempotent]
    rw [trimRight_append_cons hc, trim, trim, trimLeft_blanks hl, trimLeft_blanks hl,
      trimLeft_of_head hc, trimLeft_of_head hc, hr, hrr]

theorem trim_append_blanks {v : List Char} (hv : ∀ c ∈ v, isBlank c) (s : List Char) : trim (s ++ v) = trim s := by
  rw [← trim_trimRight, trimRight_blanks hv, trim_trimRight]

@[simp] theorem trimRight_trim (s : List Char) : trimRight (trim s) = trim s := by
  simp [trim, trimRight, dropEndWhile, dropWhile_idempotent]

theorem blank_of_wordsFrom {word s : List Char} (h : wordsFrom word s = []) : word = [] ∧ ∀ c ∈ s, isBlank c := by
  induction s generalizing word with
  | nil =>
    rw [wordsFrom] at h
    split at h
    · rename_i hw
      exact ⟨isEmpty_iff.1 hw, by simp⟩
    · cases h
  | cons c s ih =>
    rw [wordsFrom] at h
    split at h
    · rename_i hc
      split at h
      · rename_i hw
        exact ⟨isEmpty_iff.1 hw, forall_mem_cons.2 ⟨hc, (ih h).2⟩⟩
      · cases h
    · cases (ih h).1

theorem mem_of_mem_trim (h : c ∈ trim s) : c ∈ s := by
  rw [trim, trimRight, dropEndWhile, mem_reverse] at h
  have := mem_reverse.1 ((dropWhile_sublist _).subset h)
  exact (dropWhile_sublist _).subset this

def blankPoints : List Nat := [
  9, 10, 11, 12, 13, 28, 29, 30, 31, 32, 0x85, 0xA0, 0x1680, 0x2000, 0x2001, 0x2002, 0x2003,
  0x2004, 0x2005, 0x2006, 0x2007, 0x2008, 0x2009, 0x200A, 0x2028, 0x2029, 0x202F, 0x205F, 0x3000]

theorem mem_blankPoints (h : isBlank c) : c.toNat ∈ blankPoints := by
  simp only [isBlank, Bool.or_eq_true, Bool.and_eq_true, decide_eq_true_eq, beq_iff_eq] at h
  simp only [blankPoints, mem_cons, not_mem_nil, or_false]
  omega

theorem isBlank_of_class {f : Char → Bool} (hf : ∀ n ∈ blankPoints, f (Char.ofNat n) = false) (h : f c) :
    isBlank c = false := by
  cases hb : isBlank c with
  | false => rfl
  | true =>
    have := hf _ (mem_blankPoints hb)
    rw [Char.ofNat_toNat, h] at this
    cases this

theorem isBlank_of_isWord (h : isWord c) : isBlank c = false := isBlank_of_class (by decide +kernel) h

theorem isBlank_of_isDecimal (h : isDecimal c) : isBlank c = false := isBlank_of_class (by decide +kernel) h

/-- A character outside a class does not occur in a text of that class. -/
theorem not_mem_of_class {f : Char → Bool} (hc : f c = false) (hs : ∀ d ∈ s, f d) : c ∉ s := by
  intro hmem
  rw [hs c hmem] at hc
  cases hc

/-! ### Cutting trimmed texts -/

/-- A text in which neither the first nor the last character is blank. -/
structure Solid (s : List Char) : Prop where
  head : ∃ c t, s = c :: t ∧ isBlank c = false
  last : ∃ t c, s = t ++ [c] ∧ isBlank c = false

theorem Solid.singleton (hc : isBlank c = false) : Solid [c] := ⟨⟨c, [], rfl, hc⟩, ⟨[], c, rfl, hc⟩⟩

theorem Solid.pair {c d : Char} (hc : isBlank c = false) (hd : isBlank d = false) : Solid [c, d] :=
  ⟨⟨c, [d], rfl, hc⟩, ⟨[c], d, rfl, hd⟩⟩

theorem Solid.ne_nil (h : Solid s) : s ≠ [] := by
  obtain ⟨c, t, rfl, -⟩ := h.head
  simp

theorem trimLeft_solid_append (h : Solid s) (r : List Char) : trimLeft (s ++ r) = s ++ r := by
  obtain ⟨c, t, rfl, hc⟩ := h.head
  exact trimLeft_of_head hc

theorem trimRight_append_solid (h : Solid s) (l r : List Char) :
    trimRight (l ++ (s ++ r)) = l ++ (s ++ trimRight r) := by
  obtain ⟨t, c, rfl, hc⟩ := h.last
  have := trimRight_append_cons hc (l ++ t) r
  simpa using this

/-- Trimming takes away exactly the blanks around a solid text. -/
theorem trim_around {u s v : List Char} (hs : Solid s) (hu : ∀ c ∈ u, isBlank c)
    (hv : ∀ c ∈ v, isBlank c) : trim (u ++ (s ++ v)) = s := by
  have hend := trimRight_append_solid hs [] []
  rw [nil_append, append_nil] at hend
  rw [trim, trimLeft_blanks hu, trimLeft_solid_append hs, trimRight_blanks hv, hend]
  exact append_nil s

theorem solid_of_not_blank (hne : s ≠ []) (hs : ∀ c ∈ s, isBlank c = false) : Solid s := by
  refine ⟨?_, ⟨_, _, (dropLast_append_getLast hne).symm, hs _ (getLast_mem hne)⟩⟩
  obtain ⟨c, t, rfl⟩ := exists_cons_of_ne_nil hne
  exact ⟨c, t, rfl, hs c (by simp)⟩

theorem solid_of_isWord (hne : s ≠ []) (hs : ∀ c ∈ s, isWord c) : Solid s :=
  solid_of_not_blank hne fun c hc => isBlank_of_isWord (hs c hc)

theorem cutFirst_trimLeft (h : Solid sep) (s : List Char) :
    cutFirst sep (trimLeft s) = (cutFirst sep s).map fun p => (trimLeft p.1, p.2) := by
  induction s with
  | nil => simp [trimLeft, cutFirst, h.ne_nil]
  | cons d s ih =>
    obtain ⟨c, t, rfl, hc⟩ := h.head
    cases hd : isBlank d with
    | true =>
      have hne : ¬ c = d := by
        rintro rfl
        rw [hc] at hd
        cases hd
      have : trimLeft (d :: s) = trimLeft s := by simp [trimLeft, hd]
      rw [this, ih, cutFirst, if_neg (by simp [hne])]
      cases cutFirst (c :: t) s with
      | none => rfl
      | some p => simp [trimLeft, hd]
    | false =>
      rw [trimLeft_of_head hd, cutFirst]
      split
      · rfl
      · cases cutFirst (c :: t) s with
        | none => rfl
        | some p => simp [trimLeft_of_head hd]

theorem isPrefixOf_trimRight (h : Solid sep) (s : List Char) : sep.isPrefixOf (trimRight s) = sep.isPrefixOf s := by
  rw [Bool.eq_iff_iff, isPrefixOf_iff_prefix, isPrefixOf_iff_prefix]
  constructor
  · intro hp
    refine hp.trans ⟨(s.reverse.takeWhile isBlank).reverse, ?_⟩
    rw [trimRight, dropEndWhile, ← reverse_append, takeWhile_append_dropWhile, reverse_reverse]
  · rintro ⟨r, rfl⟩
    exact ⟨trimRight r, (trimRight_append_solid h [] r).symm⟩

theorem trimRight_cons (c : Char) (s : List Char) :
    trimRight (c :: s) = if isBlank c ∧ trimRight s = [] then [] else c :: trimRight s := by
  rcases blank_or_exists s with h | ⟨l, d, r, rfl, hl, hd⟩
  · have hs : trimRight s = [] := by
      exact trimRight_blanks h []
    cases hc : isBlank c with
    | true =>
      rw [if_pos ⟨rfl, hs⟩]
      exact trimRight_blanks (forall_mem_cons.2 ⟨hc, h⟩) []
    | false =>
      rw [if_neg (by simp)]
      exact trimRight_append_cons hc [] s
  · rw [trimRight_append_cons hd, if_neg (by simp)]
    exact trimRight_append_cons hd (c :: l) r

theorem cutFirst_trimRight (h : Solid sep) (s : List Char) :
    cutFirst sep (trimRight s) = (cutFirst sep s).map fun p => (p.1, trimRight p.2) := by
  induction s with
  | nil => simp [trimRight, dropEndWhile, cutFirst, h.ne_nil]
  | cons c s ih =>
    have hp := isPrefixOf_trimRight h (c :: s)
    by_cases hcs : sep.isPrefixOf (c :: s)
    · obtain ⟨r, hr⟩ := isPrefixOf_iff_prefix.1 hcs
      rw [cutFirst, if_pos hcs, ← hr]
      have ht : trimRight (sep ++ r) = sep ++ trimRight r := trimRight_append_solid h [] r
      obtain ⟨d, t, rfl, -⟩ := h.head
      rw [ht]
      simp [cutFirst]
    · rw [cutFirst, if_neg hcs]
      rw [trimRight_cons] at hp ⊢
      split
      · rename_i hb
        rw [hb.2] at ih
        cases hc : cutFirst sep s with
        | none => simp [cutFirst, h.ne_nil]
        | some p =>
          rw [hc] at ih
          simp [cutFirst, h.ne_nil] at ih
      · rename_i hb
        rw [if_neg hb] at hp
        rw [cutFirst, hp, if_neg hcs, ih, Option.map_map, Option.map_map]
        rfl

/-- Trimming a text trims the pieces around a separator on the outer sides. -/
theorem cutFirst_trim (h : Solid sep) (s : List Char) :
    cutFirst sep (trim s) = (cutFirst sep s).map fun p => (trimLeft p.1, trimRight p.2) := by
  rw [trim, cutFirst_trimRight h, cutFirst_trimLeft h, Option.map_map]
  rfl

/-! ### Occurrences -/

section

variable {p a b : List Char} {x : Char}

theorem occurs_iff_infix {s : List Char} : occurs p s ↔ p <:+: s := by
  constructor
  · intro h
    obtain ⟨⟨l, r⟩, hcut⟩ := Option.isSome_iff_exists.1 h
    exact ⟨l, r, by rw [eq_append_of_cutFirst hcut, append_assoc]⟩
  · intro h
    induction s with
    | nil =>
      rw [infix_nil.1 h]
      rfl
    | cons c s ih =>
      rw [occurs, cutFirst]
      split
      · rfl
      · rename_i hp
        rw [Option.isSome_map]
        exact ih ((infix_cons_iff.1 h).resolve_left fun hpre => hp (List.isPrefixOf_iff_prefix.2 hpre))

theorem prefix_of_prefix_append_cons (hx : x ∉ p) (h : p <+: a ++ x :: b) : p <+: a := by
  have hsep : a ++ [x] <+: a ++ x :: b := ⟨b, by simp⟩
  rcases prefix_or_prefix_of_prefix h hsep with hp | hp
  · rcases prefix_concat_iff.1 hp with rfl | hp
    · exact absurd (mem_append_right a (mem_singleton_self x)) hx
    · exact hp
  · exact absurd (hp.subset (mem_append_right a (mem_singleton_self x))) hx

theorem infix_of_infix_append_cons (hx : x ∉ p) (h : p <:+: a ++ x :: b) : p <:+: a ∨ p <:+: b := by
  induction a with
  | nil =>
    rcases infix_cons_iff.1 h with h | h
    · exact .inl (prefix_of_prefix_append_cons hx (a := []) h).isInfix
    · exact .inr h
  | cons c a ih =>
    rcases infix_cons_iff.1 h with h | h
    · exact .inl (prefix_of_prefix_append_cons hx (a := c :: a) h).isInfix
    · exact (ih h).imp_left fun h => infix_cons h

theorem infix_of_infix_append_append {sep : List Char} (hne : sep ≠ []) (hsep : ∀ x ∈ sep, x ∉ p)
    (h : p <:+: a ++ (sep ++ b)) : p <:+: a ∨ p <:+: b := by
  induction sep generalizing a with
  | nil => exact absurd rfl hne
  | cons x sep ih =>
    rw [forall_mem_cons] at hsep
    rcases infix_of_infix_append_cons hsep.1 h with ha | hb
    · exact .inl ha
    · rcases sep.eq_nil_or_concat with rfl | ⟨_, _, rfl⟩
      · exact .inr hb
      · refine (ih (by simp) hsep.2 (a := []) hb).imp_left fun hnil => ?_
        rw [infix_nil.1 hnil]
        exact nil_infix

end

end GzLang.Text
