import GzLang.Proofs.Declarations
import GzLang.Proofs.FeedbackLedger

/-!
# Errors that differ in a line number

The text that errors are grouped by leaves the word after `line` out. Of a text only the pieces before and
after the first `line` are kept, and `line` does not overlap with itself: if a number stands behind it, it is
either in a piece that is left out or the beginning of the word that is left out (`dropDetail_numeral`).
-/

namespace GzLang

open List

namespace Text

/-- A word in which its first letter does not occur again is found before a place where it stands, or there. -/
theorem cutFirst_append_self {a : Char} {t : List Char} (ha : a ∉ t) (s r : List Char) :
    cutFirst (a :: t) (s ++ (a :: t ++ r)) =
      some ((cutFirst (a :: t) s).elim (s, r) fun q => (q.1, q.2 ++ (a :: t ++ r))) := by
  induction s with
  | nil => simp [cutFirst]
  | cons c s ih =>
    have hwithin (h : a :: t <+: c :: s ++ (a :: t ++ r)) : a :: t <+: c :: s := by
      obtain hle | ⟨v, hv⟩ := prefix_or_prefix_of_prefix h (prefix_append (c :: s) _)
      · exact hle
      · rw [← hv, prefix_append_right_inj, hv] at h
        cases v with
        | nil => exact ⟨[], by rw [← hv, append_nil, append_nil]⟩
        | cons b v =>
          -- the word would begin again inside itself
          rw [cons_append, cons_prefix_cons] at h
          rw [cons_append, cons.injEq] at hv
          exact absurd (by rw [← hv.2, h.1]; simp) ha
    by_cases h : a :: t <+: c :: s
    · have hlong : (a :: t).isPrefixOf (c :: s ++ (a :: t ++ r)) = true :=
        isPrefixOf_iff_prefix.2 (h.trans (prefix_append ..))
      rw [cutFirst, if_pos (List.isPrefixOf_iff_prefix.2 h), cons_append, cutFirst, ← cons_append, if_pos hlong,
        drop_append_of_le_length h.length_le]
      rfl
    · have hlong : ¬ (a :: t).isPrefixOf (c :: s ++ (a :: t ++ r)) = true :=
        fun hp => h (hwithin (List.isPrefixOf_iff_prefix.1 hp))
      rw [cutFirst, if_neg (mt isPrefixOf_iff_prefix.1 h), cons_append, cutFirst, ← cons_append, if_neg hlong, ih]
      cases cutFirst (a :: t) s <;> rfl

theorem wordsFrom_append {n : List Char} (hn : ∀ c ∈ n, isBlank c = false) (word s : List Char) :
    wordsFrom word (n ++ s) = wordsFrom (n.reverse ++ word) s := by
  induction n generalizing word with
  | nil => rfl
  | cons c n ih =>
    rw [forall_mem_cons] at hn
    rw [cons_append, wordsFrom, hn.1, if_neg Bool.false_ne_true, ih hn.2, reverse_cons, append_assoc]
    rfl

/-- What was read of the first word does not matter for the others. -/
theorem drop_wordsFrom {word word' : List Char} (h : word ≠ []) (h' : word' ≠ []) (s : List Char) :
    (wordsFrom word s).drop 1 = (wordsFrom word' s).drop 1 := by
  induction s generalizing word word' with
  | nil => simp [wordsFrom, h, h']
  | cons c s ih =>
    rw [wordsFrom, wordsFrom]
    split
    · simp [h, h']
    · exact ih (cons_ne_nil c word) (cons_ne_nil c word')

/-- The digits of a number, of which there is at least one. -/
structure IsNumeral (n : List Char) : Prop where
  ne_nil : n ≠ []
  digits : ∀ c ∈ n, c.isDigit = true

namespace IsNumeral

variable {n n' : List Char}

theorem not_mem (h : IsNumeral n) {a : Char} (ha : a.isDigit = false) : a ∉ n := not_mem_of_class ha h.digits

theorem drop_words (h : IsNumeral n) (h' : IsNumeral n') (s : List Char) :
    (words (' ' :: (n ++ s))).drop 1 = (words (' ' :: (n' ++ s))).drop 1 := by
  have hblank {n : List Char} (hn : IsNumeral n) : ∀ c ∈ n, isBlank c = false :=
    fun c hc => isBlank_of_class (f := Char.isDigit) (by decide +kernel) (hn.digits c hc)
  have hspace (s : List Char) : words (' ' :: s) = wordsFrom [] s := rfl
  rw [hspace, hspace, wordsFrom_append (hblank h), wordsFrom_append (hblank h')]
  exact drop_wordsFrom (by simpa using h.ne_nil) (by simpa using h'.ne_nil) s

end IsNumeral

end Text

open Text

namespace Feedback

/-! ### Leaving the detail out -/

def upTo (word s : List Char) : List Char := (cutFirst word s).elim s Prod.fst

theorem dropDetail_of_some {word s l r : List Char} (hword : word ≠ []) (h : cutFirst word s = some (l, r)) :
    dropDetail s word = l ++ word ++ " X".toList ++ ((words (upTo word r)).drop 1).flatten := by
  obtain ⟨rest, hrest⟩ : ∃ rest, splitAll word r = upTo word r :: rest := by
    rw [splitAll_eq hword, upTo]
    cases cutFirst word r <;> exact ⟨_, rfl⟩
  rw [dropDetail, splitAll_eq hword, h, Option.elim_some, hrest]

/-- The number behind a word is left out, whatever stands before and after it. -/
theorem dropDetail_numeral {a : Char} {word : List Char} (ha : a ∉ word) (hspace : a ≠ ' ') (hdigit : a.isDigit = false)
    {n n' : List Char} (h : IsNumeral n) (h' : IsNumeral n') (s t : List Char) :
    dropDetail (s ++ (a :: word ++ ' ' :: (n ++ t))) (a :: word) =
      dropDetail (s ++ (a :: word ++ ' ' :: (n' ++ t))) (a :: word) := by
  have hcut (r : List Char) := cutFirst_append_self ha s r
  cases hs : cutFirst (a :: word) s with
  | none =>
    have hupTo {n : List Char} (hn : IsNumeral n) :
        upTo (a :: word) (' ' :: (n ++ t)) = ' ' :: (n ++ upTo (a :: word) t) := by
      have hnot : a ∉ ' ' :: n := by simpa [hspace] using hn.not_mem hdigit
      rw [upTo, upTo, ← cons_append, cutFirst_append_of_not_mem hnot]
      cases cutFirst (a :: word) t <;> rfl
    simp only [hs, Option.elim_none] at hcut
    rw [dropDetail_of_some (cons_ne_nil _ _) (hcut _), dropDetail_of_some (cons_ne_nil _ _) (hcut _), hupTo h,
      hupTo h', h.drop_words h']
  | some q =>
    -- the piece after the first place of the word ends at the latest where the word stands
    simp only [hs, Option.elim_some] at hcut
    rw [dropDetail_of_some (cons_ne_nil _ _) (hcut _), dropDetail_of_some (cons_ne_nil _ _) (hcut _), upTo, upTo,
      cutFirst_append_self ha, cutFirst_append_self ha]
    cases cutFirst (a :: word) q.2 <;> rfl

theorem lowerChar_of_isDigit {c : Char} (h : c.isDigit = true) : lowerChar c = [c] := by
  have hbounds : 48 ≤ c.toNat ∧ c.toNat ≤ 57 := by simpa [Char.isDigit, UInt32.le_iff_toNat_le] using h
  have hlow : ¬ (c.val ≥ 'A'.val ∧ c.val ≤ 'Z'.val) := fun hupper => by
    have : 65 ≤ c.toNat := UInt32.le_iff_toNat_le.1 hupper.1
    omega
  rw [lowerChar, if_pos (by omega), Char.toLower, dif_neg hlow]

theorem detailWords_eq : detailWords = ['l', 'i', 'n', 'e'] :: detailWords.tail := rfl

theorem lower_line {n : List Char} (h : IsNumeral n) (p t : List Char) :
    lower (p ++ ("line ".toList ++ (n ++ t))) = lower p ++ (['l', 'i', 'n', 'e'] ++ ' ' :: (n ++ lower t)) := by
  have hn : n.flatMap lowerChar = n := by
    rw [flatMap_congr fun c hc => lowerChar_of_isDigit (h.digits c hc), flatMap_singleton']
  have hline : "line ".toList.flatMap lowerChar = ['l', 'i', 'n', 'e', ' '] := by decide
  simp only [lower, flatMap_append, hn, hline]
  simp

/-! ### Groups of errors -/

def atLine (before number after : String) : String := before ++ "line " ++ number ++ after

theorem toList_atLine (p n t : String) : (atLine p n t).toList = p.toList ++ ("line ".toList ++ (n.toList ++ t.toList)) := by
  simp [atLine]

theorem simplified_atLine (p t : String) {n₁ n₂ : String} (h₁ : IsNumeral n₁.toList) (h₂ : IsNumeral n₂.toList) :
    simplified (atLine p n₁ t).toList = simplified (atLine p n₂ t).toList := by
  have hstep := dropDetail_numeral (by decide : 'l' ∉ ['i', 'n', 'e']) (by decide) (by decide) h₁ h₂
  rw [simplified, simplified, toList_atLine, toList_atLine, lower_line h₁, lower_line h₂, detailWords_eq, foldl_cons,
    foldl_cons, hstep]

/-- **Error groups ignore line numbers.** Messages that differ in a line number are counted in one group,
whatever stands before and after it. -/
theorem line_numbers_share_a_group (digest : String → String) (p t : String) {n₁ n₂ : String}
    (h₁ : IsNumeral n₁.toList) (h₂ : IsNumeral n₂.toList) :
    errorKey digest (atLine p n₁ t) = errorKey digest (atLine p n₂ t) ∧
    ∀ (l : Ledger) (path : String) (w : World) (r : Run),
      (([atLine p n₁ t, atLine p n₂ t].map r.complaintItem).forM Analyst.countError).perform (l.analyst path digest, w) =
        (.ok (), (((l.complain (errorKey digest (atLine p n₁ t)) (r.sample (atLine p n₁ t))).complain
          (errorKey digest (atLine p n₁ t)) (r.sample (atLine p n₂ t))).analyst path digest, w)) := by
  have hkey : errorKey digest (atLine p n₁ t) = errorKey digest (atLine p n₂ t) := by
    rw [errorKey, errorKey, simplified_atLine p t h₁ h₂]
  have hne (n : String) : atLine p n t ≠ "" := fun h => by
    have hlist := congrArg String.toList h
    rw [toList_atLine] at hlist
    simp at hlist
  refine ⟨hkey, fun l path w r => ?_⟩
  rw [Analyst.perform_countErrors, foldl_cons, foldl_cons, foldl_nil, Ledger.complainOf, Ledger.complainOf,
    if_neg (hne n₁), if_neg (hne n₂), hkey]

theorem lines_of_other_files_share_a_group : IsNumeral "7".toList ∧ IsNumeral "402".toList ∧
    errorKey Md5.hex "In file a.gz, Line 3: see line 7, then line 12" =
      errorKey Md5.hex "In file a.gz, Line 3: see line 402, then line 12" :=
  have h₁ : IsNumeral "7".toList := ⟨by decide, by decide⟩
  have h₂ : IsNumeral "402".toList := ⟨by decide, by decide⟩
  ⟨h₁, h₂, (line_numbers_share_a_group Md5.hex "In file a.gz, Line 3: see " ", then line 12" h₁ h₂).1⟩

end Feedback

end GzLang
