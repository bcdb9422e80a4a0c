import GzLang.Proofs.Assistant
import GzLang.Proofs.FormulaReading
import GzLang.Proofs.OptimizerCall
import GzLang.Proofs.UnusedDeclarations

/-!
# When folding and doubling keep what is assigned

The second level folds operations on numerals and writes doublings as shifts, in the text of the code and
without a look at what stands around. A line can be read character by character for the value that it
assigns (`Reading`, `assigned`). What is written for a find is read to the same value where the operators
around do not bind as tight (`alike_operation`, `alike_doubling`), so a line in which all finds stand like
that keeps its value (`level_two_keeps_assignments`). Others do not: `2 + 3 * 4` becomes `5 * 4`
(`sum_folded_before_product`).
-/

namespace GzLang.Optimization

open List Text

/-! ### What a line assigns -/

/-- The value of a numeral or a name with blanks around it. -/
def operandValue (e : List Char → Int) (s : List Char) : Int :=
  if !(trim s).isEmpty && (trim s).all Char.isDigit then Nat.ofDigitChars 10 (trim s) 0
  else e (trim s)

/-- What is known of a line that was read up to some characters of an operand: the sum of the terms before,
and what the operand does to its term. -/
structure Reading where
  sum : Int := 0
  act : Int → Int := id
  operand : List Char := []

namespace Reading

variable (e : List Char → Int)

def term (t : Reading) : Int := t.act (operandValue e t.operand)

def total (t : Reading) : Int := t.sum + t.term e

/-- Read a character. A star binds tighter than plus and minus, and these bind tighter than a shift. -/
def step (t : Reading) (c : Char) : Reading :=
  if c = '=' then {}
  else if c = '*' then { t with act := (t.term e * ·), operand := [] }
  else if c = '+' then { t with sum := t.total e, act := id, operand := [] }
  else if c = '-' then
    if allBlank t.operand then { t with act := fun v => t.act (-v), operand := [] }
    else { t with sum := t.total e, act := (-·), operand := [] }
  else if c = '<' then
    if allBlank t.operand then t
    else { t with sum := 0, act := fun v => t.total e * 2 ^ v.toNat, operand := [] }
  else { t with operand := t.operand ++ [c] }

end Reading

open Reading

def read (e : List Char → Int) (s : List Char) : Reading := s.foldl (step e) {}

/-- The value that a line assigns, by the usual rules. -/
def assigned (e : List Char → Int) (s : List Char) : Int := (read e s).total e

example : assigned (fun _ => 7) "x = 2 + a * 3 << 1".toList = 46 := by decide +kernel

/-! ### Readings that come to the same -/

variable {e : List Char → Int} {t t' : Reading} {r s : List Char}

/-- Two readings at the end of an operand, in front of a text that goes on with an operator. -/
structure Alike (e : List Char → Int) (t t' : Reading) (r : List Char) : Prop where
  solid : allBlank t.operand = false
  solid' : allBlank t'.operand = false
  total : t'.total e = t.total e
  next : ∀ c u, r.dropWhile isBlank = c :: u → c ∈ ['+', '-', '*'] ∧ (c = '*' → t'.sum = t.sum)

def Same (e : List Char → Int) (t t' : Reading) (r : List Char) : Prop :=
  t' = t ∨ Alike e t t' r

def signs : List Char := ['=', '*', '+', '-', '<']

theorem step_of_not_sign {c : Char} (h : c ∉ signs) :
    step e t c = { t with operand := t.operand ++ [c] } := by
  simp only [signs, mem_cons, not_mem_nil, or_false, not_or] at h
  simp [Reading.step, h]

theorem not_sign_of_isBlank {c : Char} (h : isBlank c = true) : c ∉ signs :=
  not_mem_of_class (f := fun d => !isBlank d) (by simpa using h) (by decide)

theorem not_sign_of_isWord {c : Char} (h : isWord c = true) : c ∉ signs :=
  not_mem_of_class (f := fun d => !isWord d) (by simpa using h) (by decide)

theorem Same.step {c : Char} (h : Same e t t' (c :: r)) : Same e (step e t c) (step e t' c) r := by
  obtain rfl | h := h
  · exact .inl rfl
  by_cases hc : isBlank c = true
  · have hval (s : List Char) : operandValue e (s ++ [c]) = operandValue e s := by
      rw [operandValue, operandValue, trim_append_blanks (by simpa using hc)]
    rw [step_of_not_sign (not_sign_of_isBlank hc), step_of_not_sign (not_sign_of_isBlank hc)]
    refine .inr ⟨?_, ?_, ?_, fun d u hd => h.next d u (by simpa [hc] using hd)⟩
    · simpa [allBlank, hc] using h.solid
    · simpa [allBlank, hc] using h.solid'
    · simpa [Reading.total, term, hval] using h.total
  · -- behind an operator nothing is left of the operand
    obtain ⟨hop, hsum⟩ := h.next c r (by simp [hc])
    refine .inl ?_
    simp only [mem_cons, not_mem_nil, or_false] at hop
    rcases hop with rfl | rfl | rfl
    · simp [Reading.step, h.total]
    · simp [Reading.step, h.total, h.solid, h.solid']
    · have hterm : t'.term e = t.term e := by
        simpa [Reading.total, hsum rfl] using h.total
      simp [Reading.step, hsum rfl, hterm]

theorem Same.foldl (h : Same e t t' (s ++ r)) :
    Same e (s.foldl (Reading.step e) t) (s.foldl (Reading.step e) t') r := by
  induction s generalizing t t' with
  | nil => exact h
  | cons c s ih => exact ih h.step

/-- Whether every piece of a text is good in its place: behind the text before it and in front of the rest. -/
def everywhere {α : Type} (f : α → List Char) (good : List Char → α → List Char → Bool) : List Char → List α → Bool
  | _, [] => true
  | u, p :: ps => good u p (ps.flatMap f) && everywhere f good (u ++ f p) ps

/-- Pieces of a text may be written in another way, each so that the readings come to the same. -/
theorem assigned_flatMap {α : Type} {f g : α → List Char} {good : List Char → α → List Char → Bool}
    {ps : List α} (hgood : ∀ p ∈ ps, ∀ u r, good u p r = true → g p = f p ∨
      (∃ c v, f p = c :: v ∧ isWord c = true) ∧
        Alike e ((f p).foldl (step e) (read e u)) ((g p).foldl (step e) (read e u)) r)
    (h : everywhere f good [] ps = true) :
    assigned e (ps.flatMap g) = assigned e (ps.flatMap f) := by
  suffices hall : ∀ u t, everywhere f good u ps = true → Same e (read e u) t (ps.flatMap f) →
      Same e ((ps.flatMap f).foldl (step e) (read e u)) ((ps.flatMap g).foldl (step e) t) [] by
    obtain he | he := hall [] {} h (.inl rfl)
    · exact congrArg (total e) he
    · exact he.total
  clear h
  induction ps with
  | nil => exact fun u t _ ht => ht
  | cons p ps ih =>
    intro u t h ht
    simp only [everywhere, Bool.and_eq_true] at h
    rw [flatMap_cons, flatMap_cons, foldl_append, foldl_append]
    rw [flatMap_cons] at ht
    have hread : read e (u ++ f p) = (f p).foldl (step e) (read e u) := foldl_append ..
    rw [← hread]
    refine ih (fun q hq => hgood q (mem_cons_of_mem p hq)) (u ++ f p) _ h.2 ?_
    rw [hread]
    rcases hgood p mem_cons_self u _ h.1 with he | ⟨⟨c, v, hc, hword⟩, halike⟩
    · rw [he]
      exact ht.foldl
    · obtain rfl | ht := ht
      · exact .inr halike
      · -- an operand cannot stand directly behind an operand
        have hsign := (ht.next c (v ++ ps.flatMap f) (by simp [hc, isBlank_of_isWord hword])).1
        have hsub : ['+', '-', '*'] ⊆ signs := by decide
        exact absurd (hsub hsign) (not_sign_of_isWord hword)

/-! ### What stands around -/

/-- Whether a text ends, blanks apart, with one of the given characters. -/
def behind (cs u : List Char) : Bool := (u.reverse.dropWhile isBlank).head?.any (· ∈ cs)

/-- Whether a text is blank, or starts, blanks apart, with one of the given characters. -/
def before (cs r : List Char) : Bool := (r.dropWhile isBlank).head?.all (· ∈ cs)

theorem foldl_step_of_not_sign {u : List Char} (hu : ∀ c ∈ u, c ∉ signs) (t : Reading) :
    u.foldl (step e) t = { t with operand := t.operand ++ u } := by
  induction u generalizing t with
  | nil => simp
  | cons c u ih =>
    rw [forall_mem_cons] at hu
    rw [foldl_cons, step_of_not_sign hu.1, ih hu.2]
    simp

/-- Behind an operator a new operand starts. -/
theorem read_behind {cs u : List Char} (h : behind cs u = true) : ∃ t c b, read e u = { step e t c with
    operand := (step e t c).operand ++ b } ∧ c ∈ cs ∧ ∀ d ∈ b, isBlank d := by
  cases hu : u.reverse.dropWhile isBlank with
  | nil => simp [behind, hu] at h
  | cons c v =>
    have hsplit : u = v.reverse ++ c :: (u.reverse.takeWhile isBlank).reverse := by
      have := takeWhile_append_dropWhile (p := isBlank) (l := u.reverse)
      rw [hu] at this
      simpa using congrArg reverse this.symm
    have hb : ∀ d ∈ (u.reverse.takeWhile isBlank).reverse, isBlank d = true := fun d hd =>
      mem_takeWhile_imp (mem_reverse.1 hd)
    refine ⟨read e v.reverse, c, _, ?_, by simpa [behind, hu] using h, hb⟩
    conv_lhs => rw [hsplit]
    rw [read, foldl_append, foldl_cons, foldl_step_of_not_sign fun d hd => not_sign_of_isBlank (hb d hd)]
    rfl

theorem blank_of_behind {cs u : List Char} (h : behind cs u = true) (hcs : cs ⊆ ['=', '+', '-', '*']) :
    allBlank (read e u).operand = true := by
  obtain ⟨t, c, b, ht, hc, hb⟩ := read_behind (e := e) h
  have hnil : (step e t c).operand = [] := by
    have hc := hcs hc
    simp only [mem_cons, not_mem_nil, or_false] at hc
    rcases hc with rfl | rfl | rfl | rfl <;> simp [Reading.step]
    split <;> rfl
  simpa [ht, hnil, allBlank] using hb

theorem act_of_behind {u : List Char} (h : behind ['=', '+'] u = true) : (read e u).act = id := by
  obtain ⟨t, c, b, ht, hc, -⟩ := read_behind (e := e) h
  simp only [mem_cons, not_mem_nil, or_false] at hc
  rcases hc with rfl | rfl <;> simp [ht, Reading.step]

/-- Without a shift an operand is multiplied by the factors before it. -/
theorem exists_factor {u : List Char} (h : '<' ∉ u) : ∃ k, (read e u).act = (k * ·) := by
  induction u using reverseRecOn with
  | nil => exact ⟨1, by funext v; simp [read]⟩
  | append_singleton u c ih =>
    simp only [mem_append, mem_singleton, not_or] at h
    obtain ⟨k, hk⟩ := ih h.1
    rw [read, foldl_append]
    change ∃ k, (step e (read e u) c).act = _
    generalize read e u = t at hk
    unfold Reading.step
    split_ifs
    · exact ⟨1, by funext v; simp⟩
    · exact ⟨t.term e, rfl⟩
    · exact ⟨1, by funext v; simp⟩
    · exact ⟨-k, by funext v; simp [hk]⟩
    · exact ⟨-1, by funext v; simp⟩
    · exact absurd ‹_› (Ne.symm h.2)
    · exact absurd ‹_› (Ne.symm h.2)
    · exact ⟨k, hk⟩

/-! ### Folding -/

theorem solid_of_word {b u v : List Char} (hne : u ≠ []) (hu : ∀ c ∈ u, isWord c) :
    allBlank (b ++ (u ++ v)) = false := by
  obtain ⟨c, w, rfl⟩ := exists_cons_of_ne_nil hne
  simp [allBlank, isBlank_of_isWord (hu c mem_cons_self)]

theorem forall_isWord {u : List Char} (hu : ∀ c ∈ u, c.isDigit) : ∀ c ∈ u, isWord c :=
  fun c hc => isWord_of_isDigit (hu c hc)

theorem not_sign_of_blanks {b u : List Char} (hb : ∀ c ∈ b, isBlank c) (hu : ∀ c ∈ u, isWord c) :
    ∀ c ∈ b ++ u, c ∉ signs := fun c hc =>
  (mem_append.1 hc).elim (fun hc => not_sign_of_isBlank (hb c hc)) fun hc => not_sign_of_isWord (hu c hc)

theorem not_sign_of_words {b u : List Char} (hu : ∀ c ∈ u, isWord c) (hb : ∀ c ∈ b, isBlank c) :
    ∀ c ∈ u ++ b, c ∉ signs := fun c hc =>
  not_sign_of_blanks hb hu c (mem_append.2 (mem_append.1 hc).symm)

theorem operandValue_digits {b u v : List Char} (hb : ∀ c ∈ b, isBlank c)
    (hv : ∀ c ∈ v, isBlank c) (hne : u ≠ []) (hu : ∀ c ∈ u, c.isDigit) :
    operandValue e (b ++ (u ++ v)) = Nat.ofDigitChars 10 u 0 := by
  rw [operandValue, trim_around (solid_of_isWord hne (forall_isWord hu)) hb hv, if_pos]
  simpa [hne] using hu

/-- The text of an integer is read as that integer, a sign in front included. -/
theorem foldl_step_int {k : Int} (hblank : allBlank t.operand = true) (hact : t.act = (k * ·)) (i : Int) :
    ∃ u, (toString i).toList.foldl (step e) t = u ∧ u.sum = t.sum ∧ u.term e = k * i ∧
      allBlank u.operand = false := by
  have hdigit : ∀ c ∈ Nat.toDigits 10 i.natAbs, c.isDigit = true := fun c hc =>
    Nat.isDigit_of_mem_toDigits (by omega) le_rfl hc
  have hsolid (b : List Char) : allBlank (b ++ Nat.toDigits 10 i.natAbs) = false := by
    simpa using solid_of_word (v := []) Nat.toDigits_ne_nil (forall_isWord hdigit)
  have hvalue {b : List Char} (hb : allBlank b = true) :
      operandValue e (b ++ Nat.toDigits 10 i.natAbs) = i.natAbs := by
    have := operandValue_digits (e := e) (b := b) (v := []) (by simpa [allBlank] using hb) (by simp)
      Nat.toDigits_ne_nil hdigit
    rwa [append_nil, Nat.ofDigitChars_ten_toDigits] at this
  have hread (t : Reading) := foldl_step_of_not_sign (e := e)
    (fun c hc => not_sign_of_isWord (forall_isWord hdigit c hc)) t
  refine ⟨_, rfl, ?_⟩
  rw [Json.toList_toString_int, foldl_append]
  by_cases hi : i < 0
  · have hsign : (Json.sign (decide (i < 0))).foldl (step e) t =
        { t with act := fun v => t.act (-v), operand := [] } := by
      rw [show Json.sign (decide (i < 0)) = ['-'] by simp [hi]; rfl, foldl_cons, foldl_nil]
      simp [Reading.step, hblank]
    rw [hsign, hread]
    refine ⟨rfl, ?_, hsolid _⟩
    change t.act (-operandValue e ([] ++ _)) = _
    rw [hvalue rfl, hact, Int.ofNat_natAbs_of_nonpos hi.le, neg_neg]
  · rw [show Json.sign (decide (i < 0)) = [] by simp [hi]; rfl, foldl_nil, hread]
    refine ⟨rfl, ?_, hsolid _⟩
    change t.act (operandValue e (t.operand ++ _)) = _
    rw [hvalue hblank, hact, Int.natAbs_of_nonneg (not_lt.1 hi)]

def Segment.text : Segment Operation → List Char
  | .found o => o.text
  | .char c => [c]

def Segment.written : Segment Operation → List Char
  | .found o => o.result?.getD o.text
  | .char c => [c]

theorem flatMap_segments (s : List Char) : (segments operation? s).flatMap Segment.text = s := by
  fun_induction segments operation? s with
  | case1 => rfl
  | case2 c u _ ih | case4 c u _ _ _ _ ih => rw [flatMap_cons, ih]; rfl
  | case3 c u o r ho _ ih =>
    rw [flatMap_cons, ih]
    exact (operation?_eq ho).1.symm

theorem operands_ne_nil {o : Operation} (h : .found o ∈ segments operation? s) : o.left ≠ [] ∧ o.right ≠ [] := by
  obtain ⟨u, r, hu⟩ := exists_find_of_mem_findAll (mem_filterMap.2 ⟨_, h, rfl⟩)
  exact (operation?_eq hu).2

def combine (op : Char) (x y : Int) : Int :=
  if op = '*' then x * y else if op = '+' then x + y else x - y

/-- Two numerals with an operator between them, and the text of the result. -/
structure Folds (o : Operation) (u : List Char) : Prop where
  left : ∀ c ∈ o.left, c.isDigit
  right : ∀ c ∈ o.right, c.isDigit
  leftGap : ∀ c ∈ o.leftGap, isBlank c
  rightGap : ∀ c ∈ o.rightGap, isBlank c
  result : u = (toString (combine o.op (Nat.ofDigitChars 10 o.left 0) (Nat.ofDigitChars 10 o.right 0))).toList

theorem folds_of_result? {o : Operation} {u : List Char} (h : o.result? = some u) (hop : o.op ∈ ['+', '-', '*']) :
    Folds o u := by
  have hliteral {a : List Char} {m : Nat} (h : literal? a = some m) :
      (∀ c ∈ a, c.isDigit) ∧ m = Nat.ofDigitChars 10 a 0 := by
    rw [literal?] at h
    split at h
    · rename_i ha
      simp only [Bool.and_eq_true, all_eq_true] at ha
      cases h
      rw [ofDigits, foldl_map]
      exact ⟨ha.1.1, rfl⟩
    · cases h
  have hgap {a : List Char} (h : isGap a = true) : ∀ c ∈ a, isBlank c := by
    intro c hc
    have := all_eq_true.1 h c hc
    simp only [Bool.or_eq_true, decide_eq_true_eq] at this
    rcases this with (rfl | rfl) | rfl <;> decide
  have hint {i : Int} {x : String} (hi : Value.intText i = .ok x) : x = toString i := by
    rw [Value.intText] at hi
    split at hi <;> cases hi
    rfl
  obtain ⟨m, n, x, hm, hn, hleftGap, hrightGap, hx, rfl⟩ := Operation.result?_eq h
  obtain ⟨hleft, rfl⟩ := hliteral hm
  obtain ⟨hright, rfl⟩ := hliteral hn
  refine ⟨hleft, hright, hgap hleftGap, hgap hrightGap, congrArg String.toList (hint ?_)⟩
  simp only [mem_cons, not_mem_nil, or_false] at hop
  rcases hop with hop | hop | hop <;> rw [hop] at hx ⊢ <;> exact hx

/-- Two operands with an operator between them, as they are read. -/
theorem foldl_step_pair {w g b v : List Char} {op : Char} (hop : op ∈ ['+', '-', '*']) (hne : w ≠ [])
    (hw : ∀ c ∈ w, isWord c) (hg : ∀ c ∈ g, isBlank c) (hb : ∀ c ∈ b, isBlank c) (hv : ∀ c ∈ v, isWord c)
    {x : Int} (hx : t.act (operandValue e (t.operand ++ (w ++ g))) = x) :
    (w ++ g ++ op :: (b ++ v)).foldl (step e) t =
      { sum := if op = '*' then t.sum else t.sum + x
        act := if op = '*' then (x * ·) else if op = '+' then id else (-·)
        operand := b ++ v } := by
  have hsolid : allBlank (t.operand ++ (w ++ g)) = false := solid_of_word hne hw
  rw [foldl_append, foldl_cons, foldl_step_of_not_sign (not_sign_of_words hw hg),
    foldl_step_of_not_sign (not_sign_of_blanks hb hv)]
  simp only [mem_cons, not_mem_nil, or_false] at hop
  rcases hop with rfl | rfl | rfl <;> simp [Reading.step, Reading.total, term, hx, hsolid]

/-- An operation and its result come to the same if the operators around it do not bind tighter. -/
theorem alike_operation {o : Operation} {k : Int} {u : List Char} (hblank : allBlank t.operand = true)
    (hact : t.act = (k * ·)) (hne : o.left ≠ [] ∧ o.right ≠ []) (hu : o.result? = some u)
    (hcase : o.op = '*' ∧ before ['+', '-', '*'] r = true ∨
      o.op ∈ ['+', '-'] ∧ t.act = id ∧ before ['+', '-'] r = true) :
    Folds o u ∧ Alike e (o.text.foldl (step e) t) (u.foldl (step e) t) r := by
  have hop : o.op ∈ ['+', '-', '*'] := by
    rcases hcase with ⟨hop, -⟩ | ⟨hop, -⟩
    · simp [hop]
    · simp only [mem_cons, not_mem_nil, or_false] at hop ⊢
      tauto
  have h := folds_of_result? hu hop
  obtain ⟨v, hv, hsum, hterm, hsolid⟩ := foldl_step_int (e := e) hblank hact
    (combine o.op (Nat.ofDigitChars 10 o.left 0) (Nat.ofDigitChars 10 o.right 0))
  have hleft : t.act (operandValue e (t.operand ++ (o.left ++ o.leftGap))) = k * Nat.ofDigitChars 10 o.left 0 := by
    rw [hact, operandValue_digits (by simpa [allBlank] using hblank) h.leftGap hne.1 h.left]
  have hvalue : operandValue e (o.rightGap ++ o.right) = Nat.ofDigitChars 10 o.right 0 := by
    simpa using operandValue_digits (e := e) (v := []) h.rightGap (by simp) hne.2 h.right
  rw [h.result, hv, Operation.text,
    foldl_step_pair hop hne.1 (forall_isWord h.left) h.leftGap h.rightGap (forall_isWord h.right) hleft]
  refine ⟨h.result ▸ h, ?_, hsolid, ?_, fun d w hd => ?_⟩
  · simpa using solid_of_word (v := []) hne.2 (forall_isWord h.right)
  · rcases hcase with ⟨hop, -⟩ | ⟨hop, hid, -⟩
    · rw [Reading.total, hsum, hterm]
      simp [Reading.total, term, hvalue, hop, combine, mul_assoc]
    · have hone : k = 1 := by
        simpa using congrFun (hact.symm.trans hid) 1
      simp only [mem_cons, not_mem_nil, or_false] at hop
      rw [Reading.total, hsum, hterm]
      rcases hop with hop | hop <;> simp [Reading.total, term, hvalue, hop, combine, hone] <;> ring
  · rcases hcase with ⟨hop, hr⟩ | ⟨-, -, hr⟩
    · exact ⟨by simpa [before, hd] using hr, fun _ => by simp [hsum, hop]⟩
    · have : d = '+' ∨ d = '-' := by simpa [before, hd] using hr
      rcases this with rfl | rfl <;> simp

/-- Whether an operation that is folded is a part of the whole: a product behind any operator, a sum or a
difference only where no factor or minus is next to it. -/
def foldsApart (u : List Char) : Segment Operation → List Char → Bool
  | .char _, _ => true
  | .found o, r => o.result?.isNone || '<' ∉ u && (
    o.op = '*' && behind ['=', '+', '-', '*'] u && before ['+', '-', '*'] r ||
    o.op ∈ ['+', '-'] && behind ['=', '+'] u && before ['+', '-'] r)

theorem assigned_foldConstants (h : everywhere Segment.text foldsApart [] (segments operation? s) = true) :
    assigned e (foldConstants s) = assigned e s := by
  have hfold : foldConstants s = (segments operation? s).flatMap Segment.written := by
    rw [foldConstants, replaceFound]
    refine flatMap_congr fun p _ => ?_
    cases p <;> rfl
  rw [hfold]
  conv_rhs => rw [← flatMap_segments s]
  refine assigned_flatMap (fun p hp u r hgood => ?_) h
  cases p with
  | char c => exact .inl rfl
  | found o =>
    cases hu : o.result? with
    | none => exact .inl (by simp [Segment.written, Segment.text, hu])
    | some v =>
      simp only [foldsApart, hu, Option.isNone_some, Bool.false_or, Bool.and_eq_true, Bool.or_eq_true,
        decide_eq_true_eq] at hgood
      obtain ⟨hshift, hcase⟩ := hgood
      have hne := operands_ne_nil hp
      have hblank : allBlank (read e u).operand = true := by
        rcases hcase with ⟨⟨-, h⟩, -⟩ | ⟨⟨-, h⟩, -⟩
        · exact blank_of_behind h (by simp)
        · exact blank_of_behind h (by simp)
      obtain ⟨k, hk⟩ := exists_factor (e := e) hshift
      obtain ⟨hfolds, halike⟩ := alike_operation hblank hk hne hu
        (hcase.imp (fun h => ⟨h.1.1, h.2⟩) fun h => ⟨h.1.1, act_of_behind h.1.2, h.2⟩)
      obtain ⟨c, w, hc⟩ := exists_cons_of_ne_nil hne.1
      refine .inr ⟨⟨c, w ++ o.leftGap ++ o.op :: (o.rightGap ++ o.right), ?_, ?_⟩, ?_⟩
      · simp [Segment.text, Operation.text, hc]
      · exact isWord_of_isDigit (hfolds.left c (by simp [hc]))
      · rw [Segment.written, hu]
        exact halike

/-! ### Doubling -/

open GzLang.Pattern in
def doublingPattern : Pattern :=
  .seq (.group 1 (.repeated .word 1)) (.seq (.repeated .blank 0) (.literally "*".toList
    (.seq (.repeated .blank 0) (.char '2'))))

def doublingTemplate : Template := .group 1 :: " << 1".toList.map .char

theorem substitute_doubling (s : String) : Pattern.substitute "(\\w+)\\s*\\*\\s*2" "\\1 << 1" s =
    .ok (String.ofList (doublingPattern.replace doublingTemplate.fill s.toList)) := by
  have h := Assistant.Rule.reads_of_toOption (r := ⟨"", "(\\w+)\\s*\\*\\s*2", "\\1 << 1", ""⟩)
    (p := doublingPattern) (t := doublingTemplate) (by decide +kernel) (by decide +kernel)
  rw [Pattern.substitute, h.pattern]
  simp only [bind, Except.bind, h.template]
  rfl

/-- Whether a product with a two that becomes a shift is in the first term, and the two is a factor. -/
def doublesFirst (u : List Char) : Piece → List Char → Bool
  | .char _, _ => true
  | .found _, r => u.all (· ∉ ['+', '-', '<']) && before ['+', '-', '*'] r

theorem match_cases {m : Match} (hm : m ∈ doublingPattern.findAll s) : ∃ w g b,
    m.text = w ++ g ++ '*' :: (b ++ ['2']) ∧ doublingTemplate.fill m = w ++ " << 1".toList ∧ w ≠ [] ∧
      (∀ c ∈ w, isWord c) ∧ (∀ c ∈ g, isBlank c) ∧ ∀ c ∈ b, isBlank c := by
  have hd := Pattern.derives_of_mem_findAll hm
  simp only [doublingPattern, Pattern.derives_literally_iff, Pattern.derives_seq_iff, Pattern.derives_group_iff,
    Pattern.derives_repeated_iff, Pattern.derives_char_iff] at hd
  obtain ⟨w, _, _, htext, ⟨_, ⟨rfl, hlen, hw⟩, rfl⟩, g, _, _, rfl, ⟨rfl, -, hg⟩, _, rfl, b, _, _, rfl, ⟨rfl, -, hb⟩,
    rfl, hgroups⟩ := hd
  refine ⟨w, g, b, by simp [htext], ?_, length_pos_iff.1 hlen, hw, hg, hb⟩
  simp [doublingTemplate, Template.fill, Match.group, Match.group?, hgroups]

/-- Without a plus or a minus there is one term only. -/
theorem sum_eq_zero {u : List Char} (h : ∀ c ∈ u, c ∉ ['+', '-', '<']) : (read e u).sum = 0 := by
  suffices hkeep : ∀ t : Reading, t.sum = 0 → (u.foldl (step e) t).sum = 0 from hkeep {} rfl
  induction u with
  | nil => exact fun t ht => ht
  | cons c u ih =>
    intro t ht
    rw [forall_mem_cons] at h
    refine ih h.2 _ ?_
    have hc := h.1
    simp only [mem_cons, not_mem_nil, or_false, not_or] at hc
    by_cases hset : c = '='
    · simp [Reading.step, hset]
    · by_cases hstar : c = '*' <;> simp [Reading.step, hc, hset, hstar, ht]

theorem alike_doubling {w g b : List Char} (hsum : t.sum = 0) (hne : w ≠ []) (hw : ∀ c ∈ w, isWord c)
    (hg : ∀ c ∈ g, isBlank c) (hb : ∀ c ∈ b, isBlank c) (hr : before ['+', '-', '*'] r = true) :
    Alike e ((w ++ g ++ '*' :: (b ++ ['2'])).foldl (step e) t) ((w ++ " << 1".toList).foldl (step e) t) r := by
  have hvalue {v : List Char} (hv : ∀ c ∈ v, isBlank c) :
      operandValue e (t.operand ++ (w ++ v)) = operandValue e (t.operand ++ w) := by
    rw [operandValue, operandValue, ← append_assoc, trim_append_blanks hv]
  have hdigit {b : List Char} {c : Char} (hb : ∀ c ∈ b, isBlank c) (hc : c.isDigit = true) :
      operandValue e (b ++ [c]) = Nat.ofDigitChars 10 [c] 0 := by
    simpa using operandValue_digits (u := [c]) (v := []) hb (by simp) (by simp) (by simpa using hc)
  have htwo : operandValue e (b ++ ['2']) = 2 := hdigit hb (by decide)
  have hone : operandValue e [' ', '1'] = 1 := hdigit (b := [' ']) (by decide) (by decide)
  have hshift : (w ++ " << 1".toList).foldl (step e) t =
      { sum := 0
        act := fun v => (t.sum + t.act (operandValue e (t.operand ++ w))) * 2 ^ v.toNat
        operand := [' ', '1'] } := by
    rw [show " << 1".toList = [' '] ++ ['<', '<', ' ', '1'] from rfl, ← append_assoc, foldl_append,
      foldl_step_of_not_sign (not_sign_of_words hw (by decide))]
    simp [Reading.step, Reading.total, term, hvalue (v := [' ']) (by decide),
      solid_of_word (b := t.operand) (v := [' ']) hne hw, show allBlank [] = true from rfl]
  rw [foldl_step_pair (by simp) hne hw hg hb (by decide) rfl, hvalue hg, hshift]
  refine ⟨?_, ?_, ?_, fun d u hd => ⟨by simpa [before, hd] using hr, fun _ => hsum.symm⟩⟩
  · simp [allBlank, show isBlank '2' = false by decide]
  · change allBlank [' ', '1'] = false
    decide
  · simp [Reading.total, term, htwo, hone, hsum]

theorem assigned_doubling (h : everywhere Piece.text doublesFirst [] (doublingPattern.pieces s) = true) :
    assigned e (doublingPattern.replace doublingTemplate.fill s) = assigned e s := by
  have hreplace : doublingPattern.replace doublingTemplate.fill s =
      (doublingPattern.pieces s).flatMap (Piece.written doublingTemplate.fill) := by
    refine flatMap_congr fun p _ => ?_
    cases p <;> rfl
  rw [hreplace]
  conv_rhs => rw [← Pattern.text_pieces doublingPattern s]
  refine assigned_flatMap (fun p hp u r hgood => ?_) h
  cases p with
  | char c => exact .inl rfl
  | found m =>
    simp only [doublesFirst, Bool.and_eq_true, all_eq_true, decide_eq_true_eq] at hgood
    obtain ⟨w, g, b, htext, hfill, hne, hw, hg, hb⟩ := match_cases (Pattern.mem_findAll hp)
    obtain ⟨c, v, hc⟩ := exists_cons_of_ne_nil hne
    refine .inr ⟨⟨c, v ++ (g ++ '*' :: (b ++ ['2'])), by simp [Piece.text, htext, hc], hw c (by simp [hc])⟩, ?_⟩
    rw [show Piece.written doublingTemplate.fill (.found m) = _ from hfill, show Piece.text (.found m) = _ from htext]
    exact alike_doubling (sum_eq_zero hgood.1) hne hw hg hb hgood.2

/-! ### The second level -/

def levelTwo : List Technique := (levels.filter (·.number = 2)).flatMap Level.techniques

theorem rewrite_levelTwo (line : String) : (rewrite levelTwo line).toList =
    doublingPattern.replace doublingTemplate.fill (foldConstants line.toList) := by
  simp [levelTwo, levels, idle, rewrite, Method.result, substitute_doubling, Except.toOption]

/-- The techniques of the second level keep what a line assigns if folded operations stand apart from operators
that bind as tight, and only factors of a first term are doubled. -/
theorem level_two_keeps_assignments {line : String}
    (hfold : everywhere Segment.text foldsApart [] (segments operation? line.toList) = true)
    (hdouble : everywhere Piece.text doublesFirst [] (doublingPattern.pieces (foldConstants line.toList)) = true)
    (e : List Char → Int) : assigned e (rewrite levelTwo line).toList = assigned e line.toList := by
  rw [rewrite_levelTwo, assigned_doubling hdouble, assigned_foldConstants hfold]

theorem first_product_is_shifted : rewrite levelTwo "y = x * 2 - z + 3 * 4" = "y = x << 1 - z + 12" ∧
    ∀ e, assigned e "y = x << 1 - z + 12".toList = assigned e "y = x * 2 - z + 3 * 4".toList := by
  have hrewrite : rewrite levelTwo "y = x * 2 - z + 3 * 4" = "y = x << 1 - z + 12" := by
    rw [← String.toList_inj, rewrite_levelTwo]
    cbv
  refine ⟨hrewrite, fun e => hrewrite ▸ level_two_keeps_assignments ?_ ?_ e⟩
  · cbv
  · cbv

/-- A sum is folded although a product follows. -/
theorem sum_folded_before_product : assigned (fun _ => 0) "x = 2 + 3 * 4".toList = 14 ∧
    assigned (fun _ => 0) (rewrite levelTwo "x = 2 + 3 * 4").toList = 20 := by
  refine ⟨by decide +kernel, ?_⟩
  rw [rewrite_levelTwo]
  cbv

end GzLang.Optimization
