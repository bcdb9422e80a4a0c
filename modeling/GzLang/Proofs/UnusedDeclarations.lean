import Mathlib.Data.List.TakeWhile
import GzLang.Optimization.Transform
import GzLang.Proofs.Rewriting
import GzLang.Proofs.Sections
import GzLang.Proofs.Tables

/-!
# Which declarations count as unused

`removeUnused` notes for each left side the last line that declares it, and the words of the code that
were declared before or in their line. A left side that is a word is a word of its own line, so it is
always mentioned; one that is not a word never is. So which lines go does not depend on what the code
uses: a declaration goes if its left side is not a word and no later line declares it again
(`swept`).

* `Declares`, `IsIdentifier`, `Unneeded`: which lines are meant;
* `Usage.get?_add`, `Usage.mem_mentioned_add`: what one line adds to what is noted;
* `Usage.get?_addAll_eq_iff`, `Usage.Before.addAll`: what is noted after all lines;
* `removeUnused_drops_exactly`: the lines that are left.
-/

namespace GzLang

open List

namespace Text

variable {line left : List Char}

theorem exists_blanks_trim (s : List Char) : ∃ u v, s = u ++ (trim s ++ v) ∧
    (∀ c ∈ u, isBlank c) ∧ ∀ c ∈ v, isBlank c := by
  refine ⟨s.takeWhile isBlank, ((trimLeft s).reverse.takeWhile isBlank).reverse, ?_, fun c hc => mem_takeWhile_imp hc,
    fun c hc => mem_takeWhile_imp (mem_reverse.1 hc)⟩
  rw [trim, trimRight, dropEndWhile, ← reverse_append, takeWhile_append_dropWhile,
    reverse_reverse, trimLeft, takeWhile_append_dropWhile]

/-- What is found in a text was found at the front of some text. -/
theorem exists_find_of_mem_findAll {find : Recogniser α} {s : List Char} {a : α}
    (h : a ∈ findAll find s) : ∃ t r, find t = some (a, r) := by
  unfold findAll at h
  fun_induction segments find s with
  | case1 => cases h
  | case2 c t _ ih => exact ih h
  | case3 c t b r hfind _ ih =>
    rw [filterMap_cons] at h
    rcases mem_cons.1 h with rfl | h
    · exact ⟨_, r, hfind⟩
    · exact ih h
  | case4 c t b r _ _ ih => exact ih h

end Text

open Text

namespace Optimization

variable {w : String}

/-! ### Declarations -/

/-- A line with a left side: it is not blank, no condition and no comment, and has an assignment sign,
of which the first counts. -/
def Declares (line left : List Char) : Prop :=
  trim line ≠ [] ∧ ¬ "kung".toList <+: trim line ∧ ¬ "//".toList <+: trim line ∧
    ∃ l r, line = l ++ '=' :: r ∧ '=' ∉ l ∧ left = trim l

/-- A word: at least one character, and all of them belong in words. -/
def IsIdentifier (s : List Char) : Prop := s ≠ [] ∧ ∀ c ∈ s, isWord c = true

instance (s : List Char) : Decidable (IsIdentifier s) := inferInstanceAs (Decidable (_ ∧ _))

/-- A declaration of something that is not a word, and that no later line declares. -/
def Unneeded (line : List Char) (later : List (List Char)) : Prop :=
  ∃ left, Declares line left ∧ ¬ IsIdentifier left ∧ ∀ l ∈ later, ¬ Declares l left

def DeclaresIdentifier (line : List Char) : Prop :=
  ∃ left, Declares line left ∧ IsIdentifier left

def left? (line : List Char) : Option (List Char) :=
  if isPassive line then none else (declared? line).map String.toList

theorem left?_eq_some_iff : left? line = some left ↔ Declares line left := by
  have hstart (p : String) : startsWith p.toList (trim line) ↔ p.toList <+: trim line := isPrefixOf_iff_prefix
  have hempty : (trim line).isEmpty ↔ trim line = [] := isEmpty_iff
  simp only [left?, isPassive, Bool.or_eq_true, hstart, hempty, declared?]
  constructor
  · intro h
    split at h
    · cases h
    · rename_i hactive
      split at h
      · cases h
      · rename_i hkung
        rw [not_or] at hactive
        simp only [Option.map_map, Option.map_eq_some_iff] at h
        obtain ⟨⟨l, r⟩, hcut, rfl⟩ := h
        exact ⟨hactive.1, hkung, hactive.2, l, r, eq_append_of_cutFirst hcut, not_mem_of_cutFirst hcut, by simp⟩
  · rintro ⟨hblank, hkung, hcomment, l, r, rfl, hl, rfl⟩
    rw [if_neg (not_or.2 ⟨hblank, hcomment⟩), if_neg hkung, cutFirst_char hl]
    simp

theorem declared?_of_declares (h : Declares line left) :
    isPassive line = false ∧ declared? line = some (String.ofList left) := by
  rw [← left?_eq_some_iff, left?] at h
  split at h
  · cases h
  · obtain ⟨name, hname, rfl⟩ := Option.map_eq_some_iff.1 h
    exact ⟨eq_false_of_ne_true ‹_›, by rw [hname, String.ofList_toList]⟩

theorem Declares.unique {left' : List Char} (h : Declares line left) (h' : Declares line left') : left = left' :=
  Option.some.inj ((left?_eq_some_iff.2 h).symm.trans (left?_eq_some_iff.2 h'))

instance (line left : List Char) : Decidable (Declares line left) :=
  decidable_of_iff _ left?_eq_some_iff

instance (line : List Char) (P : List Char → Prop) [DecidablePred P] :
    Decidable (∃ left, Declares line left ∧ P left) :=
  decidable_of_iff (∃ left ∈ left? line, P left) (by simp only [Option.mem_def, left?_eq_some_iff])

instance (line : List Char) (later : List (List Char)) : Decidable (Unneeded line later) :=
  inferInstanceAs (Decidable (∃ left, Declares line left ∧ ¬ IsIdentifier left ∧
    ∀ l ∈ later, ¬ Declares l left))

instance (line : List Char) : Decidable (DeclaresIdentifier line) :=
  inferInstanceAs (Decidable (∃ left, Declares line left ∧ IsIdentifier left))

def swept : List (List Char) → List (List Char)
  | [] => []
  | l :: ls => if Unneeded l ls then swept ls else l :: swept ls

/-! ### Words -/

theorem identifier_of_mem_wordsOf (h : w ∈ wordsOf line) : IsIdentifier w.toList := by
  obtain ⟨a, ha, rfl⟩ := mem_map.1 h
  obtain ⟨t, r, hfind⟩ := exists_find_of_mem_findAll ha
  rw [many1?] at hfind
  split at hfind
  · cases hfind
  · cases hfind
    rw [String.toList_ofList]
    exact ⟨mt isEmpty_iff.2 ‹_›, fun c hc => mem_takeWhile_imp hc⟩

/-- A left side that is a word is a word of its line: blanks stand in front of it, and blanks or the
sign behind. -/
theorem mem_wordsOf_of_declares (h : Declares line left) (hword : IsIdentifier left) :
    String.ofList left ∈ wordsOf line := by
  obtain ⟨-, -, -, l, r, rfl, -, rfl⟩ := h
  obtain ⟨u, v, hl, hu, hv⟩ := exists_blanks_trim l
  refine mem_map.2 ⟨_, ?_, rfl⟩
  generalize trim l = w at hl hword
  subst hl
  obtain ⟨d, t, ht, hd⟩ : ∃ d t, v ++ '=' :: r = d :: t ∧ isWord d = false := by
    cases v with
    | nil => exact ⟨'=', r, rfl, rfl⟩
    | cons b v =>
      refine ⟨b, v ++ '=' :: r, rfl, eq_false_of_ne_true fun hb => ?_⟩
      have := hv b mem_cons_self
      rw [isBlank_of_isWord hb] at this
      cases this
  have hfound := many1?_append hword.1 hword.2 hd t
  have hfront : ∀ a b, a ++ b = u → b ≠ [] → many1? isWord (b ++ (w ++ d :: t)) = none := by
    rintro a (_ | ⟨c, b⟩) rfl hb
    · exact absurd rfl hb
    · have hc : isWord c = false := eq_false_of_ne_true fun h => by
        have := hu c (by simp)
        rw [isBlank_of_isWord h] at this
        cases this
      simp [many1?, hc]
  have hlength : (d :: t).length < (w ++ d :: t).length := by
    have := length_pos_iff.2 hword.1
    rw [length_append]
    omega
  rw [append_assoc, append_assoc, ht, findAll, segments_append hfront, segments_of_some hfound hlength]
  simp

/-! ### What the lines declare and mention -/

namespace Usage

variable {u : Usage} {k i : Nat} {line : List Char}

theorem get?_add (u : Usage) (line : List Char) (i : Nat) (name : String) : Table.get? (u.add (line, i)).declared name =
      if Declares line name.toList then some i else Table.get? u.declared name := by
  by_cases h : Declares line name.toList
  · obtain ⟨hp, hd⟩ := declared?_of_declares h
    rw [String.ofList_toList] at hd
    simp [add, hp, hd, h]
  · rw [if_neg h]
    cases hp : isPassive line with
    | true => simp [add, hp]
    | false =>
      cases hd : declared? line with
      | none => simp [add, hp, hd]
      | some other =>
        have hne : other ≠ name := by
          rintro rfl
          exact h (left?_eq_some_iff.1 (by simp [left?, hp, hd]))
        simp [add, hp, hd, Table.get?_put_of_ne _ hne]

theorem mem_mentioned_add : w ∈ (u.add (line, i)).mentioned ↔ w ∈ u.mentioned ∨ isPassive line = false ∧
      w ∈ wordsOf line ∧ Table.has (u.add (line, i)).declared w := by
  cases hp : isPassive line <;> simp [add, hp]

/-- What was noted before line `k`: indices of earlier lines, and words. -/
structure Before (u : Usage) (k : Nat) : Prop where
  earlier : ∀ {name j}, Table.get? u.declared name = some j → j < k
  words : ∀ {w}, w ∈ u.mentioned → IsIdentifier w.toList

theorem Before.add (hu : u.Before k) (line : List Char) : (u.add (line, k)).Before (k + 1) := by
  constructor
  · intro name j h
    rw [get?_add] at h
    split at h
    · cases h
      exact Nat.lt_succ_self k
    · exact Nat.lt_succ_of_lt (hu.earlier h)
  · intro w h
    rcases mem_mentioned_add.1 h with h | ⟨-, h, -⟩
    · exact hu.words h
    · exact identifier_of_mem_wordsOf h

/-- Take in lines, of which the first has the index `k`. -/
def addAll (u : Usage) (k : Nat) (ls : List (List Char)) : Usage :=
  (ls.zipIdx k).foldl add u

theorem addAll_cons (u : Usage) (k : Nat) (l : List Char) (ls : List (List Char)) :
    u.addAll k (l :: ls) = (u.add (l, k)).addAll (k + 1) ls := rfl

theorem Before.addAll (hu : u.Before k) (ls : List (List Char)) : (u.addAll k ls).Before (k + ls.length) := by
  induction ls generalizing u k with
  | nil => exact hu
  | cons l ls ih =>
    rw [addAll_cons, length_cons, ← Nat.add_assoc, Nat.add_right_comm]
    exact ih (hu.add l)

theorem mem_mentioned_addAll (h : w ∈ u.mentioned) (ls : List (List Char)) : w ∈ (u.addAll k ls).mentioned := by
  induction ls generalizing u k with
  | nil => exact h
  | cons l ls ih => exact ih (mem_mentioned_add.2 (.inl h))

theorem mem_mentioned_of_declares (h : Declares line w.toList)
    (hword : IsIdentifier w.toList) (u : Usage) (i : Nat) : w ∈ (u.add (line, i)).mentioned := by
  have hmem := mem_wordsOf_of_declares h hword
  rw [String.ofList_toList] at hmem
  refine mem_mentioned_add.2 (.inr ⟨(declared?_of_declares h).1, hmem, ?_⟩)
  rw [Table.has, get?_add, if_pos h]
  rfl

/-- An earlier index is still noted for a name exactly if no line declares it. -/
theorem get?_addAll_eq_iff {j : Nat} (h : i < j) (u : Usage) (ls : List (List Char)) (name : String) :
    Table.get? (u.addAll j ls).declared name = some i ↔
      Table.get? u.declared name = some i ∧ ∀ l ∈ ls, ¬ Declares l name.toList := by
  induction ls generalizing u j with
  | nil => simp [addAll]
  | cons l ls ih =>
    rw [addAll_cons, ih (Nat.lt_succ_of_lt h), get?_add, forall_mem_cons, and_left_comm, ← and_assoc]
    refine and_congr_left fun _ => ?_
    split
    · have hne : j ≠ i := Nat.ne_of_gt h
      simp [*]
    · simp [*]

/-- The index noted for a name is that of a given line exactly if this line declares the name and no
later one does. -/
theorem get?_addAll_cons_eq_iff (hu : u.Before k) (l : List Char) (ls : List (List Char)) (name : String) :
    Table.get? (u.addAll k (l :: ls)).declared name = some k ↔
      Declares l name.toList ∧ ∀ x ∈ ls, ¬ Declares x name.toList := by
  rw [addAll_cons, get?_addAll_eq_iff (Nat.lt_succ_self k), get?_add]
  refine and_congr_left fun _ => ?_
  split
  · simp [*]
  · have hne : Table.get? u.declared name ≠ some k := fun h => Nat.lt_irrefl k (hu.earlier h)
    simp [*]

theorem drops_iff : u.drops (line, i) ↔ ∃ name, declared? line = some name ∧
      Table.get? u.declared name = some i ∧ name ∉ u.mentioned := by
  cases hd : declared? line <;> simp [drops, hd]

/-- A line is dropped exactly if it is unneeded before the lines that follow. -/
theorem drops_addAll_iff (hu : u.Before k) (l : List Char)
    (ls : List (List Char)) : (u.addAll k (l :: ls)).drops (l, k) ↔ Unneeded l ls := by
  simp only [drops_iff, get?_addAll_cons_eq_iff hu]
  constructor
  · rintro ⟨name, -, ⟨hl, hno⟩, hmention⟩
    refine ⟨name.toList, hl, fun hword => hmention ?_, hno⟩
    exact mem_mentioned_addAll (mem_mentioned_of_declares hl hword u k) ls
  · rintro ⟨left, hl, hword, hno⟩
    refine ⟨String.ofList left, (declared?_of_declares hl).2, ?_, fun hmention => hword ?_⟩
    · rw [String.toList_ofList]
      exact ⟨hl, hno⟩
    · rw [← String.toList_ofList (l := left)]
      exact (hu.addAll (l :: ls)).words hmention

/-- The lines that are not dropped, behind lines that were taken in before. -/
theorem filter_drops_addAll (hu : u.Before k) (ls : List (List Char)) :
    ((ls.zipIdx k).filter fun l => !(u.addAll k ls).drops l).map Prod.fst = swept ls := by
  induction ls generalizing u k with
  | nil => rfl
  | cons l ls ih =>
    have hrest := ih (hu.add l)
    rw [← addAll_cons] at hrest
    rw [zipIdx_cons, swept]
    by_cases h : Unneeded l ls
    · rw [filter_cons_of_neg (by simp [(drops_addAll_iff hu l ls).2 h]), hrest, if_pos h]
    · have hkeep : (u.addAll k (l :: ls)).drops (l, k) = false :=
        eq_false_of_ne_true (mt (drops_addAll_iff hu l ls).1 h)
      rw [filter_cons_of_pos (by simp [hkeep]), map_cons, hrest, if_neg h]

end Usage

/-! ### What is left of the code -/

theorem removeUnused_eq (code : List Char) : removeUnused code = intercalate ['\n'] (swept (lines code)) := by
  have hstart : Usage.Before {} 0 :=
    { earlier := by intro name j h; simp at h
      words := by intro w h; cases h }
  rw [← Usage.filter_drops_addAll hstart]
  rfl

theorem swept_sublist (ls : List (List Char)) : (swept ls).Sublist ls := by
  induction ls with
  | nil => exact .slnil
  | cons l ls ih =>
    rw [swept]
    split
    · exact ih.cons l
    · exact ih.cons_cons l

/-- No line that declares a word is swept away. -/
theorem filter_swept (ls : List (List Char)) :
    (swept ls).filter (DeclaresIdentifier ·) = ls.filter (DeclaresIdentifier ·) := by
  induction ls with
  | nil => rfl
  | cons l ls ih =>
    rw [swept]
    split
    · rename_i h
      obtain ⟨left, hl, hword, -⟩ := h
      have hnot : ¬ DeclaresIdentifier l := by
        rintro ⟨left', hl', hword'⟩
        exact hword (hl'.unique hl ▸ hword')
      rw [ih, filter_cons_of_neg (by simpa using hnot)]
    · rw [filter_cons, filter_cons, ih]

example : swept ["m.x = 1".toList, "m.x = 2".toList, "n = 3".toList, " = 4".toList, "kung n == 3".toList] =
    ["m.x = 1".toList, "n = 3".toList, "kung n == 3".toList] := by
  decide

/-- **Which lines are removed as unused.** What is left of the code are its lines without the unneeded
ones: without each declaration of something that is not a word and that no later line declares. So
the lines that declare a word are all left. -/
theorem removeUnused_drops_exactly (code : List Char) :
    removeUnused code = List.intercalate ['\n'] (swept (Text.lines code)) ∧
      (Text.lines (removeUnused code)).filter (DeclaresIdentifier ·) =
        (Text.lines code).filter (DeclaresIdentifier ·) := by
  refine ⟨removeUnused_eq code, ?_⟩
  rw [removeUnused_eq, ← filter_swept (Text.lines code)]
  rcases eq_or_ne (swept (Text.lines code)) [] with hnil | hne
  · rw [hnil, List.intercalate_nil, Text.lines_nil]
    decide
  · have hlines : ∀ l ∈ swept (Text.lines code), '\n' ∉ l := fun l hl =>
      Text.not_mem_of_mem_splitAll ((swept_sublist _).subset hl)
    rw [Text.lines_eq_splitOn (List.intercalate _ _), List.splitOn_intercalate '\n' hlines hne]

end Optimization

end GzLang
