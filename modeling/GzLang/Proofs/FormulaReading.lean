import GzLang.Proofs.Precedence

/-!
# Reading formulas

The operands of formulas form a lexicon: first numbers and variables (`Atom.lexicon`), then also
calls, whose arguments are sums of these (`Operand.lexicon`). `Formula.reads_parse_iff` says
exactly which formulas are read as they are meant.
-/

namespace GzLang

open List Text Operator

variable {c : Char} {r : Comparison}

/-! ### Numbers and variables -/

theorem isWord_of_isDigit (h : c.isDigit) : isWord c := by
  have : c.toNat < 128 := by
    simp only [Char.isDigit, Bool.and_eq_true, decide_eq_true_eq] at h
    have := UInt32.le_iff_toNat_le.1 h.2
    exact Nat.lt_of_le_of_lt this (by decide)
  simp [isWord, this, Char.isAlphanum, h]

theorem Literal.decimalValue? (h : c.isDigit) : Text.decimalValue? c = some (c.toNat - 48) := by
  simp only [Char.isDigit, Bool.and_eq_true, decide_eq_true_eq] at h
  have h₁ : 48 ≤ c.toNat := UInt32.le_iff_toNat_le.1 h.1
  have h₂ : c.toNat ≤ 57 := UInt32.le_iff_toNat_le.1 h.2
  have hfind : Text.decimalZeros.find? (fun z => z ≤ c.toNat && c.toNat < z + 10) = some 48 := by
    refine find?_cons_of_pos ?_
    simp only [Bool.and_eq_true, decide_eq_true_eq]
    omega
  simp only [Text.decimalValue?, hfind, Option.map_some]

theorem isDecimal_of_isDigit (h : c.isDigit) : isDecimal c := by
  simp [isDecimal, Literal.decimalValue? h]

theorem Literal.allDigits (l : Literal) : Text.allDigits l.digits := by
  have h : ∀ c ∈ l.digits, Text.isDigit c := by
    intro c hc
    simp [Text.isDigit, isDecimal_of_isDigit (l.decimal c hc)]
  simp only [Text.allDigits, Bool.and_eq_true, Bool.not_eq_true', isEmpty_eq_false_iff, all_eq_true]
  exact ⟨l.ne_nil, h⟩

namespace Expr

theorem isSign_of_isWord (h : isWord c) : isSign c = false := by
  have hall : ∀ d ∈ "+-*/<>=!".toList, isWord d = false := by decide
  cases hs : isSign c with
  | false => rfl
  | true =>
    have := hall c (by simpa [isSign] using hs)
    rw [h] at this
    cases this

theorem parse_variable (x : Variable) : parse x.chars = .other x.name := by
  have hq : '"' ∉ x.chars := by
    intro h
    have := x.word _ h
    revert this
    decide
  have hc : call? x.chars = none := by
    simpa using call?_word x.word detached_nil
  exact parse_of_other (quoted_of_not_mem hq) x.not_digits x.not_constant hc
    (split?_eq_none fun c h => isSign_of_isWord (x.word c h))

end Expr

open GzLang.Expr

namespace Atom

def tree : Atom → Expr
  | number l => .digits l.digits
  | name x => .other x.name

theorem parse_text (a : Atom) : parse a.text = a.tree := by
  cases a with
  | number l => exact parse_of_digits l.allDigits
  | name x => exact parse_variable x

theorem isWord_of_mem {a : Atom} (h : c ∈ a.text) : isWord c := by
  cases a with
  | number l => exact isWord_of_isDigit (l.decimal c h)
  | name x => exact x.word c h

def lexicon : Lexicon Atom where
  write := text
  isCall _ := false
  Reads a e := e = a.tree
  Fits _ := True
  write_word a _ := by
    refine ⟨?_, fun c => isWord_of_mem⟩
    cases a with
    | number l => exact l.ne_nil
    | name x => exact x.ne_nil
  write_call _ h := by cases h
  reads_word a e _ h := by
    subst h
    cases a with
    | number l => exact .inl rfl
    | name x => exact .inr rfl
  reads_call _ _ h := by cases h
  reads_source a src src' name args h := by
    cases a <;> cases h
  reads_parse a := by simp [parse_text]

end Atom

/-! ### Calls -/

namespace Operand

def Reads : Operand → Expr → Prop
  | atom a, e => e = a.tree
  | call f args, e => ∃ src ts, e = .call src f.name ts ∧
    List.Forall₂ (fun a t => Atom.lexicon.ReadsTerms a.terms t) args ts

/-- When an operand is read: a call has to have arguments that are read. -/
def Fits : Operand → Prop
  | atom _ => True
  | call _ args => ∀ a ∈ args, Atom.lexicon.FitsSum false a.first a.rest

instance (a : Atom) : Decidable (Atom.lexicon.Fits a) := inferInstanceAs (Decidable True)

instance : ∀ o, Decidable (Fits o)
  | atom _ => inferInstanceAs (Decidable True)
  | call _ args => inferInstanceAs (Decidable (∀ a ∈ args, _))

theorem mem_sum_atom {a : Arith (Spaced Atom)} (h : c ∈ Atom.lexicon.sum a) : c ∈ " +-*".toList ∨ isWord c := by
  rcases Lexicon.mem_sum h with h | ⟨b, h⟩
  · exact .inl h
  · exact .inr (Atom.isWord_of_mem h)

theorem comma_not_mem_sum (a : Arith (Spaced Atom)) : ',' ∉ Atom.lexicon.sum a := by
  intro h
  have := mem_sum_atom h
  revert this
  decide

theorem isInner_of_mem_argsText {args : List (Arith (Spaced Atom))} (h : c ∈ argsText args) : isInner c := by
  cases args with
  | nil => cases h
  | cons a args =>
    rcases Chain.mem_text h with rfl | ⟨b, -, h⟩
    · decide
    · rcases mem_sum_atom h with h | h
      · have : ∀ d ∈ " +-*".toList, isInner d := by decide
        exact this c h
      · exact Lexicon.isInner_of_isWord h

theorem argTexts_argsText (args : List (Arith (Spaced Atom))) :
    argTexts (argsText args) = args.map Atom.lexicon.sum := by
  cases args with
  | nil => rfl
  | cons a args =>
    have hsplit : splitAll [','] (Chain.text ',' Atom.lexicon.sum ⟨a, args⟩) = (a :: args).map Atom.lexicon.sum := by
      induction args generalizing a with
      | nil =>
        rw [Chain.text_singleton, splitAll_of_not_mem (comma_not_mem_sum a)]
        rfl
      | cons b args ih =>
        rw [Chain.text_cons, splitAll_append (comma_not_mem_sum a), ih]
        rfl
    have hblank : allBlank (argsText (a :: args)) = false := by
      obtain ⟨n, t, hs, -⟩ := Atom.lexicon.starts_sum a
      obtain ⟨c, r, he, hc⟩ := Atom.lexicon.exists_write a.first.first.first.core
      have hmem : c ∈ Atom.lexicon.sum a := by simp [hs, he]
      rw [allBlank, all_eq_false]
      exact ⟨c, mem_append_left _ hmem, by simp [isBlank_of_isWord hc]⟩
    rw [argTexts, hblank]
    exact hsplit

theorem parse_call (f : Identifier) (args : List (Arith (Spaced Atom))) :
    parse (text (.call f args)) = .call (String.ofList (text (.call f args))) f.name
      (args.map fun a => parse (trim (Atom.lexicon.sum a))) := by
  have hnl : '\n' ∉ argsText args ++ [')'] := by
    have hargs : '\n' ∉ argsText args := fun h => absurd (isInner_of_mem_argsText h) (by decide)
    simp [hargs]
  have hc : call? (text (.call f args)) = some (f.chars, argsText args) := by
    rw [text, Expr.call?_call f.ne_nil f.word hnl, beforeLastClose?_append not_mem_nil]
    rfl
  rw [parse_of_call hc, argTexts_argsText, map_map]
  rfl

def lexicon : Lexicon Operand where
  write := text
  isCall := isCall
  Reads := Reads
  Fits := Fits
  write_word o h := by
    cases o with
    | atom a => exact Atom.lexicon.write_word a rfl
    | call f args => cases h
  write_call o h := by
    cases o with
    | atom a => cases h
    | call f args =>
      exact ⟨f.chars, argsText args, rfl, f.ne_nil, f.word, fun c => isInner_of_mem_argsText⟩
  reads_word o e h hr := by
    cases o with
    | atom a => exact Atom.lexicon.reads_word a e rfl hr
    | call f args => cases h
  reads_call o e h hr := by
    cases o with
    | atom a => cases h
    | call f args =>
      obtain ⟨src, ts, rfl, -⟩ := hr
      exact ⟨src, f.name, ts, rfl⟩
  reads_source o src src' name args h := by
    cases o with
    | atom a => exact Atom.lexicon.reads_source a src src' name args h
    | call f bs =>
      obtain ⟨_, ts, he, hr⟩ := h
      cases he
      exact ⟨src', _, rfl, hr⟩
  reads_parse o := by
    cases o with
    | atom a => exact Atom.lexicon.reads_parse a
    | call f args =>
      have hargs : List.Forall₂ (fun a t => Atom.lexicon.ReadsTerms a.terms t) args
          (args.map fun a => parse (trim (Atom.lexicon.sum a))) ↔
          ∀ a ∈ args, Atom.lexicon.FitsSum false a.first a.rest := by
        rw [forall₂_map_right_iff, forall₂_same]
        refine forall₂_congr fun a _ => ?_
        rw [Lexicon.readsTerms_sum_iff (.inr rfl) fun _ => rfl,
          (Atom.lexicon.starts_sum a).not_startsBlank_trim]
      rw [parse_call]
      refine Iff.trans ⟨?_, ?_⟩ hargs
      · rintro ⟨_, _, he, h⟩
        cases he
        exact h
      · intro h
        exact ⟨_, _, rfl, h⟩

end Operand

/-! ### Comparisons -/

namespace Comparison

theorem isSign_of_mem_all {o : Operator} (h : o ∈ all.takeWhile (· ≠ r.operator)) :
    (∃ c ∈ o.sign, c ∉ r.operator.sign) ∨ r = .ne ∧ o = .eq := by
  have : ∀ o ∈ all.takeWhile (· ≠ r.operator), (∃ c ∈ o.sign, c ∉ r.operator.sign) ∨ r = .ne ∧ o = .eq := by
    cases r <;> decide
  exact this o h

theorem split?_compare (r : Comparison) {x y : List Char}
    (hx : ∀ c ∈ x, isSign c = false) (hy : ∀ c ∈ y, isSign c = false) :
    split? (x ++ (r.operator.sign ++ y)) = some (r.operator, x, y) := by
  have hnot {s : List Char} (hs : ∀ c ∈ s, isSign c = false) {o : Operator} {c : Char} (hc : c ∈ o.sign) : c ∉ s := by
    intro h
    have := hs c h
    rw [isSign_of_mem_sign hc] at this
    cases this
  refine split?_of_first ?_ fun o ho => ?_
  · have hsub : r.operator ≠ .sub := by cases r <;> decide
    obtain ⟨a, t, ha⟩ := exists_cons_of_ne_nil r.operator.sign_ne_nil
    rw [operands?, if_neg (fun h => hsub h.1), ha]
    exact cutFirst_append (hnot hx (o := r.operator) (by simp [ha])) t y
  · rcases isSign_of_mem_all ho with ⟨c, hc, hr⟩ | ⟨rfl, rfl⟩
    · refine operands?_eq_none hc ?_
      simp [hnot hx hc, hnot hy hc, hr]
    · -- one equals sign is not two
      have hx' : '=' ∉ x := hnot hx (o := .eq) (by decide)
      have hy' : '=' ∉ y := hnot hy (o := .eq) (by decide)
      rw [operands?, if_neg (by simp)]
      cases hcut : cutFirst Operator.eq.sign (x ++ (ne.operator.sign ++ y)) with
      | none => rfl
      | some p =>
        have := congrArg (count '=') (eq_append_of_cutFirst hcut)
        simp [sign, Comparison.operator, count_eq_zero.2 hx', count_eq_zero.2 hy'] at this
        omega

end Comparison

/-! ### Formulas -/

namespace Formula

def Reads : Formula → Expr → Prop
  | arith s, e => Operand.lexicon.ReadsTerms s.terms e
  | compare r s t, e => ∃ src x y, e = .binary src r.operator x y ∧
    Operand.lexicon.ReadsTerms s.terms x ∧ Operand.lexicon.ReadsTerms t.terms y

/-- The formulas that are read as they are meant. A comparison must not have any other operator,
not even between the brackets of a call. -/
def Readable : Formula → Prop
  | arith s => Operand.lexicon.FitsAlone s
  | compare r s t =>
    ¬ Operand.lexicon.Swallows (decide (0 < s.first.first.first.before))
        s.first.first.first.core ∧
      (∀ c ∈ "+-*".toList, c ∉ (compare r s t).text) ∧
      Operand.lexicon.FitsSum false s.first s.rest ∧ Operand.lexicon.FitsSum false t.first t.rest

instance (o : Operand) : Decidable (Operand.lexicon.Fits o) :=
  inferInstanceAs (Decidable (Operand.Fits o))

instance : ∀ E, Decidable (Readable E)
  | arith s => inferInstanceAs (Decidable (Operand.lexicon.FitsAlone s))
  | compare r s t => inferInstanceAs (Decidable (_ ∧ (∀ c ∈ "+-*".toList, c ∉ (compare r s t).text) ∧
      Operand.lexicon.FitsSum _ _ _ ∧ Operand.lexicon.FitsSum _ _ _))

theorem fragment_compare (r : Comparison) (s t : Arith (Spaced Operand)) :
    Operand.lexicon.Fragment s.first.first.first.core (compare r s t).text (compare r s t).text := by
  have hsign : Expr.Detached (r.operator.sign ++ Operand.lexicon.sum t) := by
    cases r <;> exact detached_cons (by decide) _
  have hnot {c : Char} (hi : isInner c = false) (ho : c ≠ '(') (hc : c ≠ ')')
      (hr : c ∉ r.operator.sign) : c ∉ (compare r s t).text := by
    have hs := Lexicon.not_mem_of_chars (fun _ => Lexicon.mem_sum (V := Operand.lexicon) (s := s)) hi ho hc
    have ht := Lexicon.not_mem_of_chars (fun _ => Lexicon.mem_sum (V := Operand.lexicon) (s := t)) hi ho hc
    exact fun h => by
      rcases mem_append.1 h with h | h
      · exact hs h
      · rcases mem_append.1 h with h | h
        · exact hr h
        · exact ht h
  exact ⟨(Operand.lexicon.starts_sum s).append hsign, hnot (by decide) (by decide) (by decide) (by cases r <;> decide),
    hnot (by decide) (by decide) (by decide) (by cases r <;> decide), .inl rfl⟩

/-- A comparison without other operators is cut between its sides. -/
theorem split?_compare {s t : Arith (Spaced Operand)} (h : ∀ c ∈ "+-*".toList, c ∉ (compare r s t).text) :
    split? (compare r s t).text = some (r.operator, Operand.lexicon.sum s, Operand.lexicon.sum t) := by
  have hsign {u : Arith (Spaced Operand)} (hu : Operand.lexicon.sum u ⊆ (compare r s t).text) :
      ∀ c ∈ Operand.lexicon.sum u, isSign c = false := by
    intro c hc
    cases hsg : isSign c with
    | false => rfl
    | true =>
      have hcases : c ∈ "+-*".toList ∨ isInner c = false ∧ c ≠ '(' ∧ c ≠ ')' := by
        have : ∀ d ∈ "+-*/<>=!".toList, d ∈ "+-*".toList ∨ isInner d = false ∧ d ≠ '(' ∧ d ≠ ')' := by decide
        exact this c (by simpa [isSign] using hsg)
      rcases hcases with hp | ⟨hi, ho, hcl⟩
      · exact absurd (hu hc) (h c hp)
      · exact absurd hc (Lexicon.not_mem_of_chars (fun _ => Lexicon.mem_sum) hi ho hcl)
  exact Comparison.split?_compare r (hsign fun c hc => mem_append_left _ hc)
    (hsign fun c hc => mem_append_right _ (mem_append_right _ hc))

/-- A text is read as the formula that it shows exactly when the formula is readable. -/
theorem reads_parse_iff (E : Formula) : E.Reads (parse E.text) ↔ E.Readable := by
  cases E with
  | arith s => exact Operand.lexicon.readsTerms_parse_iff s
  | compare r s t =>
    have F := fragment_compare r s t
    have hb : Lexicon.startsBlank (compare r s t).text = _ :=
      Operand.lexicon.startsBlank_sum s (r.operator.sign ++ Operand.lexicon.sum t)
    have hsides : Operand.lexicon.FitsSum false s.first s.rest ∧ Operand.lexicon.FitsSum false t.first t.rest ↔
        Operand.lexicon.ReadsTerms s.terms (parse (trim (Operand.lexicon.sum s))) ∧
        Operand.lexicon.ReadsTerms t.terms (parse (trim (Operand.lexicon.sum t))) := by
      rw [Lexicon.readsTerms_sum_iff (.inr rfl) fun _ => rfl, Lexicon.readsTerms_sum_iff (.inr rfl) fun _ => rfl,
        (Operand.lexicon.starts_sum s).not_startsBlank_trim,
        (Operand.lexicon.starts_sum t).not_startsBlank_trim]
    rw [Readable, hsides, ← hb]
    constructor
    · rintro ⟨src, x, y, he, hx, hy⟩
      have hs : ¬ Operand.lexicon.Swallows (Lexicon.startsBlank (compare r s t).text) s.first.first.first.core := by
        intro hs
        obtain ⟨_, _, _, hcall⟩ := F.parse_call hs
        rw [hcall] at he
        cases he
      have hnone : ∀ c ∈ "+-*".toList, c ∉ (compare r s t).text := by
        intro c hc hmem
        obtain ⟨op, l, m, hop, hsplit⟩ := exists_split?_arith F.starts.not_minus hc hmem
        obtain ⟨_, hbin⟩ := F.parse_binary hs hsplit
        rw [hbin] at he
        have : op ≠ r.operator := by
          rintro rfl
          revert hop
          cases r <;> decide
        cases he
        exact this rfl
      refine ⟨hs, hnone, ?_⟩
      obtain ⟨_, hbin⟩ := F.parse_binary hs (split?_compare hnone)
      rw [hbin] at he
      cases he
      exact ⟨hx, hy⟩
    · rintro ⟨hs, hnone, hx, hy⟩
      obtain ⟨src, hbin⟩ := F.parse_binary hs (split?_compare hnone)
      exact ⟨src, _, _, hbin, hx, hy⟩

end Formula

end GzLang
