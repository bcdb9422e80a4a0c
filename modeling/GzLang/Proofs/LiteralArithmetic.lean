import GzLang.Proofs.FormulaValue
import GzLang.Proofs.Tables

/-!
# The closed form of literal arithmetic

A text of decimal literals with `+`, `-` and `*` between them is cut at the first plus sign, else at the
first minus sign, else at the first star, and the pieces are trimmed and cut again. So the operands of
each sign are grouped from the right. Cutting at the first sign over and over is cutting at all of them
(`yields_of_pieces`), and what the grouping makes of the pieces has a closed form for each of the signs:
their sum, their alternating sum, their product. The value of the whole text is put together from these
(`literal_arithmetic_is_closed`).
-/

namespace GzLang

open GzLang.Action List

namespace Text

variable {c d : Char} {s : List Char}

/-- A character other than the separator is in one of the pieces. -/
theorem exists_piece_of_mem (hd : d ∈ s) (hne : d ≠ c) : ∃ p ∈ splitAll [c] s, d ∈ p := by
  generalize hsep : [c] = sep
  fun_induction splitAll sep s with
  | case1 s => exact ⟨s, by simp, hd⟩
  | case2 s _ _ => exact ⟨s, by simp, hd⟩
  | case3 s _ l r hcut ih =>
    subst hsep
    rw [eq_append_of_cutFirst hcut] at hd
    rcases mem_append.1 hd with hl | hr
    · exact ⟨l, by simp, hl⟩
    · obtain ⟨p, hp, hdp⟩ := ih (by simpa [hne] using hr)
      exact ⟨p, mem_cons_of_mem l hp, hdp⟩

theorem exists_mem_splitAll (sep s : List Char) : ∃ p, p ∈ splitAll sep s := by
  fun_cases splitAll sep s <;> exact ⟨_, mem_cons_self⟩

theorem mem_trim_of_mem (hd : d ∈ s) (hb : isBlank d = false) : d ∈ trim s := by
  obtain ⟨l, r, rfl⟩ := append_of_mem hd
  rw [trim_append_cons hb]
  simp

/-- A text with something in front of its first minus sign does not start with it. -/
theorem startsWith_minus_trim {l r : List Char} (hl : '-' ∉ l) (hd : d ∈ l) (hb : isBlank d = false) :
    startsWith ['-'] (trim (l ++ '-' :: r)) = false := by
  rcases blank_or_exists l with hblank | ⟨u, x, v, rfl, hu, hx⟩
  · rw [hblank d hd] at hb
    cases hb
  · have hne : x ≠ '-' := by
      rintro rfl
      simp at hl
    have htrim : trim (u ++ x :: v ++ '-' :: r) = x :: trimRight (v ++ '-' :: r) := by
      have := trimLeft_blanks hu []
      rw [append_nil] at this
      rw [append_assoc, cons_append, trim_append_cons hx, this]
      rfl
    rw [htrim]
    simp [startsWith, isPrefixOf, hne.symm]

end Text

open Text

/-! ### Literals and signs -/

/-- One or more decimal digits, and no more than an integer may have. -/
def IsLiteral (s : List Char) : Prop :=
  s ≠ [] ∧ (∀ c ∈ s, c.isDigit = true) ∧ s.length ≤ maxLiteralDigits

/-- Literals with plus signs, minus signs and stars between them, and any blanks around them. -/
def IsLiteralArithmetic (t : List Char) : Prop :=
  ∀ g ∈ splitAll ['+'] t, ∀ p ∈ splitAll ['-'] g, ∀ f ∈ splitAll ['*'] p,
    IsLiteral (trim f)

instance (s : List Char) : Decidable (IsLiteral s) :=
  inferInstanceAs (Decidable (_ ∧ _ ∧ _))

instance (t : List Char) : Decidable (IsLiteralArithmetic t) :=
  inferInstanceAs (Decidable (∀ g ∈ splitAll ['+'] t, ∀ p ∈ splitAll ['-'] g,
    ∀ f ∈ splitAll ['*'] p, IsLiteral (trim f)))

def factorValue (f : List Char) : Int :=
  ofDigits ((trim f).map fun c => c.toNat - '0'.toNat)

def termValue (p : List Char) : Int :=
  ((splitAll ['*'] p).map factorValue).prod

/-- The first term less the second, plus the third, less the fourth, and so on. -/
def groupValue (g : List Char) : Int :=
  ((splitAll ['-'] g).map termValue).alternatingSum

def closedForm (t : List Char) : Int :=
  ((splitAll ['+'] t).map groupValue).sum

def SignlessNames (b : Table Value) : Prop :=
  ∀ x ∈ Table.keys b, ∀ c ∈ "+-*".toList, c ∉ x.toList

theorem SignlessNames.get?_eq_none {b : Table Value} (hb : SignlessNames b) {c : Char}
    (hc : c ∈ "+-*".toList) {s : List Char} (hs : c ∈ s) : Table.get? b (String.ofList s) = none := by
  cases hget : Table.get? b (String.ofList s) with
  | none => rfl
  | some v =>
    have hkey := (Table.has_iff_mem_keys b _).1 (Option.isSome_iff_exists.2 ⟨v, hget⟩)
    exact absurd (by simpa using hs) (hb _ hkey c hc)

theorem IsLiteral.exists_mem {f : List Char} (h : IsLiteral (trim f)) : ∃ d ∈ f, isBlank d = false := by
  obtain ⟨d, r, hd⟩ := exists_cons_of_ne_nil h.1
  have hmem : d ∈ trim f := by simp [hd]
  exact ⟨d, mem_of_mem_trim hmem, isBlank_of_isDecimal (isDecimal_of_isDigit (h.2.1 d hmem))⟩

theorem IsLiteralArithmetic.bare {t : List Char} (ht : IsLiteralArithmetic t) {c : Char} (hc : c ∈ t) :
    c ≠ '"' ∧ c ≠ '(' := by
  have hcases : c = '+' ∨ c = '-' ∨ c = '*' ∨ isBlank c ∨ c.isDigit := by
    by_contra h
    simp only [not_or, Bool.not_eq_true] at h
    obtain ⟨hplus, hminus, hstar, hblank, hdigit⟩ := h
    obtain ⟨g, hg, hcg⟩ := exists_piece_of_mem hc hplus
    obtain ⟨p, hp, hcp⟩ := exists_piece_of_mem hcg hminus
    obtain ⟨f, hf, hcf⟩ := exists_piece_of_mem hcp hstar
    rw [(ht g hg p hp f hf).2.1 c (mem_trim_of_mem hcf hblank)] at hdigit
    cases hdigit
  constructor <;> rintro rfl <;> revert hcases <;> decide

/-! ### Pieces between signs -/

def Yields (call : Caller) (m : Machine) (s : List Char) (i : Int) : Prop :=
  (evaluate call s).perform m = (.ok (.int i), m)

variable {call : Caller} {m : Machine}

theorem yields_literal {s : List Char} (hs : IsLiteral (trim s)) : Yields call m (trim s) (factorValue s) := by
  let l : Literal := ⟨trim s, hs.1, hs.2.1, hs.2.2⟩
  have hparse : Expr.parse (trim s) = .digits l.digits := Expr.parse_of_digits l.allDigits
  have hvalue : (l.value : Int) = factorValue s := by
    unfold factorValue ofDigits Literal.value
    rw [foldl_map]
  unfold Yields evaluate
  rw [hparse, Expr.eval, l.integer_digits, hvalue]
  rfl

/-- A text without quotes and brackets that is cut at a sign is an operation on the two pieces. -/
theorem yields_of_split {op : Operator} {c : Char} {s l r : List Char} {i j k : Int}
    (hnames : SignlessNames m.bindings) (hc : c ∈ "+-*".toList) (hsign : op.sign = [c])
    (hbare : ∀ d ∈ s, d ≠ '"' ∧ d ≠ '(')
    (hsplit : Operator.split? (trim s) = some (op, trimLeft l, trimRight r))
    (hl : Yields call m (trim l) i) (hr : Yields call m (trim r) j)
    (hop : op.apply (.int i) (.int j) = .ok (.int k)) : Yields call m (trim s) k := by
  have hquoted : Expr.quoted (trim s) = false := Expr.quoted_of_not_mem fun h => (hbare _ (mem_of_mem_trim h)).1 rfl
  have hcall : Expr.call? (trim s) = none := by
    cases h : Expr.call? (trim s) with
    | none => rfl
    | some p => exact absurd rfl (hbare _ (mem_of_mem_trim (Expr.shape_of_call? h).2)).2
  have hparse := Expr.parse_of_split hquoted hcall hsplit
  rw [trim_trimLeft, trim_trimRight] at hparse
  have hmem : c ∈ trim s := by
    rw [Operator.eq_append_of_split? hsplit, hsign]
    simp
  unfold Yields evaluate at *
  rw [hparse, Expr.eval, perform_orVariable_none (hnames.get?_eq_none hc hmem), bind_of_ok hl, bind_of_ok hr, hop]
  rfl

/-- **Cutting at the first sign over and over is cutting at all of them.** Where the looser signs do not
occur, the value of a text is combined from those of its pieces, from the right. -/
theorem yields_of_pieces {o : Operator} {c : Char} {value : List Char → Int} {combine : List Int → Int}
    (hnames : SignlessNames m.bindings) (hc : c ∈ "+-*".toList) (hsign : o.sign = [c])
    (hone : ∀ i, combine [i] = i)
    (hcons : ∀ i is, o.apply (.int i) (.int (combine is)) = .ok (.int (combine (i :: is))))
    {s : List Char} (hbare : ∀ d ∈ s, d ≠ '"' ∧ d ≠ '(')
    (hsplit : ∀ u l r, u ⊆ s → cutFirst [c] u = some (l, r) → (∃ d ∈ l, isBlank d = false) →
      Operator.split? (trim u) = some (o, trimLeft l, trimRight r))
    (hpieces : ∀ p ∈ splitAll [c] s, (∃ d ∈ p, isBlank d = false) ∧ Yields call m (trim p) (value p)) :
    Yields call m (trim s) (combine ((splitAll [c] s).map value)) := by
  generalize hsep : [c] = sep at hpieces hsplit
  fun_induction splitAll sep s with
  | case1 s hs =>
    subst hsep
    cases hs
  | case2 s _ _ =>
    rw [map_singleton, hone]
    exact (hpieces s (by simp)).2
  | case3 s _ l r hcut ih =>
    subst hsep
    have hsub : r ⊆ s := by
      intro d hd
      rw [eq_append_of_cutFirst hcut]
      simp [hd]
    obtain ⟨hsolid, hl⟩ := hpieces l (by simp)
    have hr := ih (fun d hd => hbare d (hsub hd)) (fun p hp => hpieces p (mem_cons_of_mem l hp))
      fun u l' r' hu => hsplit u l' r' (List.Subset.trans hu hsub)
    rw [map_cons]
    exact yields_of_split hnames hc hsign hbare (hsplit s l r (List.Subset.refl s) hcut hsolid) hl hr (hcons _ _)

/-! ### Terms, groups and sums -/

variable {s : List Char}

theorem yields_term (hnames : SignlessNames m.bindings) (hbare : ∀ d ∈ s, d ≠ '"' ∧ d ≠ '(')
    (hplus : '+' ∉ s) (hminus : '-' ∉ s) (h : ∀ f ∈ splitAll ['*'] s, IsLiteral (trim f)) :
    Yields call m (trim s) (termValue s) := by
  refine yields_of_pieces (o := .mul) hnames (by decide) rfl (fun i => by simp)
    (fun i is => by rw [prod_cons]; rfl) hbare (fun u l r hu hcut _ => ?_)
    fun f hf => ⟨(h f hf).exists_mem, yields_literal (h f hf)⟩
  refine Operator.split?_mul (fun hm => hplus (hu (mem_of_mem_trim hm))) (fun hm => hminus (hu (mem_of_mem_trim hm))) ?_
  rw [cutFirst_trim (.singleton rfl), hcut]
  rfl

theorem yields_group (hnames : SignlessNames m.bindings) (hbare : ∀ d ∈ s, d ≠ '"' ∧ d ≠ '(') (hplus : '+' ∉ s)
    (h : ∀ p ∈ splitAll ['-'] s, ∀ f ∈ splitAll ['*'] p, IsLiteral (trim f)) :
    Yields call m (trim s) (groupValue s) := by
  refine yields_of_pieces (o := .sub) hnames (by decide) rfl (fun i => by simp)
    (fun i is => by rw [alternatingSum_cons]; rfl) hbare (fun u l r hu hcut hl => ?_)
    fun p hp => ?_
  · -- the minus sign counts, since it does not stand in front of the whole text
    obtain ⟨d, hd, hb⟩ := hl
    refine Operator.split?_sub ?_ (fun hm => hplus (hu (mem_of_mem_trim hm))) ?_
    · rw [eq_append_of_cutFirst hcut]
      exact startsWith_minus_trim (not_mem_of_cutFirst hcut) hd hb
    · rw [cutFirst_trim (.singleton rfl), hcut]
      rfl
  · have hsub : p ⊆ s := (isInfix_of_mem_splitAll hp).subset
    obtain ⟨f, hf⟩ := exists_mem_splitAll ['*'] p
    obtain ⟨d, hd, hb⟩ := (h p hp f hf).exists_mem
    exact ⟨⟨d, (isInfix_of_mem_splitAll hf).subset hd, hb⟩,
      yields_term hnames (fun d hd => hbare d (hsub hd)) (fun hm => hplus (hsub hm))
        (not_mem_of_mem_splitAll hp) (h p hp)⟩

theorem yields_sum (hnames : SignlessNames m.bindings) (h : IsLiteralArithmetic s) :
    Yields call m (trim s) (closedForm s) := by
  refine yields_of_pieces (o := .add) hnames (by decide) rfl (fun i => by simp)
    (fun i is => by rw [sum_cons]; rfl) (fun _ => h.bare) (fun u l r hu hcut _ => ?_) fun g hg => ?_
  · refine Operator.split?_add ?_
    rw [cutFirst_trim (.singleton rfl), hcut]
    rfl
  · have hsub : g ⊆ s := (isInfix_of_mem_splitAll hg).subset
    obtain ⟨p, hp⟩ := exists_mem_splitAll ['-'] g
    obtain ⟨f, hf⟩ := exists_mem_splitAll ['*'] p
    obtain ⟨d, hd, hb⟩ := (h g hg p hp f hf).exists_mem
    have hfg := List.Subset.trans (isInfix_of_mem_splitAll hf).subset (isInfix_of_mem_splitAll hp).subset
    exact ⟨⟨d, hfg hd, hb⟩, yields_group hnames (fun d hd => h.bare (hsub hd)) (not_mem_of_mem_splitAll hg) (h g hg)⟩

/-- **The closed form of literal arithmetic.** A trimmed text of literals with signs between them is
cut at every plus sign into groups, each group at every minus sign into terms, and each term at every
star into literals. Its value is the sum over the groups of the alternating sums of the products, in
every machine without a sign in the name of a variable. Nothing is reported, and the machine is left as
it was. -/
theorem literal_arithmetic_is_closed (t : List Char) (htrim : Text.trim t = t)
    (ht : IsLiteralArithmetic t) (call : Caller) (m : Machine) (hnames : SignlessNames m.bindings) :
    (evaluate call t).perform m = (.ok (.int (closedForm t)), m) := by
  have hvalue : Yields call m (Text.trim t) (closedForm t) := yields_sum hnames ht
  rwa [htrim] at hvalue

/-- Differences are grouped from the right: the 4 is added. A variable may be named like a literal. -/
theorem closed_form_of_differences :
    let t := "12 - 2*3 - 4 + 05  * 2".toList
    let m : Machine := { bindings := [("12", .int 7), ("n", .null)] }
    Text.trim t = t ∧ IsLiteralArithmetic t ∧ SignlessNames m.bindings ∧ closedForm t = 20 ∧
      (evaluate callFunction t).perform m = (.ok (.int 20), m) := by
  intro t m
  have htrim : Text.trim t = t := by decide +kernel
  have ht : IsLiteralArithmetic t := by decide +kernel
  have hnames : SignlessNames m.bindings := by unfold SignlessNames; decide
  have hvalue : closedForm t = 20 := by decide +kernel
  refine ⟨htrim, ht, hnames, hvalue, ?_⟩
  rw [← hvalue]
  exact literal_arithmetic_is_closed t htrim ht callFunction m hnames

end GzLang
