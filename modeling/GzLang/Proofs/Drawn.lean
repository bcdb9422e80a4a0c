import GzLang.Proofs.Reading
import GzLang.Source.PrintArg

/-!
# What can be read in a text

The expressions that a line evaluates are cut out of its text, but not as they stand: the arguments
of a print statement lose their blanks, and a quote that opens a text is dropped from the expression
in front of it. So a text is drawn from another one (`DrawnFrom`) when it is a part of it up to
blanks and quotes. A call can only be read where its name and the opening bracket are drawn from
the text (`Calls`), and nothing else in an expression is made up either (`drawnFrom_parse`).
-/

def GzLang.Value.IsScalar : Value → Prop
  | .null | .bool _ | .int _ | .float _ | .str _ => True
  | _ => False

namespace GzLang.Text

variable {s e : List Char}

def squeeze (s : List Char) : List Char :=
  s.filter fun c => !isBlank c && c != '"'

/-- A part of a text, up to blanks and quotes. -/
structure DrawnFrom (e s : List Char) : Prop where
  subset : e ⊆ s
  squeezed : squeeze e <:+: squeeze s

theorem drawnFrom_of_isInfix (h : e <:+: s) : DrawnFrom e s := ⟨h.subset, h.filter _⟩

theorem DrawnFrom.trans {t : List Char} (h : DrawnFrom e t) (h' : DrawnFrom t s) : DrawnFrom e s:=
  ⟨List.Subset.trans h.subset h'.subset, h.squeezed.trans h'.squeezed⟩

theorem DrawnFrom.insert {l r : List Char} {c : Char} (h : DrawnFrom e (l ++ r))
    (hc : isBlank c ∨ c = '"') : DrawnFrom e (l ++ c :: r) := by
  refine ⟨List.Subset.trans h.subset fun d hd => ?_, ?_⟩
  · rcases List.mem_append.1 hd with hd | hd
    · exact List.mem_append_left _ hd
    · exact List.mem_append_right _ (List.mem_cons_of_mem _ hd)
  · have hdrop : (!isBlank c && c != '"') = false := by
      rcases hc with hc | rfl
      · simp [hc]
      · decide
    have hsame : squeeze (l ++ c :: r) = squeeze (l ++ r) := by
      simp [squeeze, List.filter_append, hdrop]
    rw [hsame]
    exact h.squeezed

theorem squeeze_of_isWord (h : ∀ c ∈ s, isWord c) : squeeze s = s := by
  refine List.filter_eq_self.2 fun c hc => ?_
  have hq : c ≠ '"' := by
    rintro rfl
    have := h _ hc
    revert this
    decide
  simp [isBlank_of_isWord (h c hc), hq]

theorem isInfix_trim (s : List Char) : trim s <:+: s := by
  have h1 : trimLeft s <:+ s := List.dropWhile_suffix _
  have h2 : trimRight (trimLeft s) <+: trimLeft s := by
    unfold trimRight dropEndWhile
    rw [← List.reverse_suffix, List.reverse_reverse]
    exact List.dropWhile_suffix _
  exact h2.isInfix.trans h1.isInfix

theorem isInfix_of_mem_splitAll {sep p : List Char} (h : p ∈ splitAll sep s) : p <:+: s := by
  fun_induction splitAll sep s with
  | case1 s => simp_all
  | case2 s _ _ => simp_all
  | case3 s hs l r hc ih =>
    have he := eq_append_of_cutFirst hc
    rcases List.mem_cons.1 h with rfl | h'
    · exact ⟨[], sep ++ r, by simp [he]⟩
    · exact (ih h').trans ⟨l ++ sep, [], by simp [he]⟩

/-- A call of a function can be read in a text. -/
structure Calls (s : List Char) (name : String) : Prop where
  isWord : ∀ c ∈ name.toList, Text.isWord c = true
  occurs : name.toList ++ ['('] <:+: squeeze s

theorem Calls.mono {name : String} (h : Calls e name) (hes : DrawnFrom e s) : Calls s name:=
  ⟨h.isWord, h.occurs.trans hes.squeezed⟩

end GzLang.Text

namespace GzLang.Expr

open Text

theorem isScalar_of_constant? {v : Value} (h : constant? s = some v) : v.IsScalar := by
  unfold constant? at h
  split at h
  · cases h
    trivial
  · split at h
    · cases h
      trivial
    · split at h <;> cases h
      trivial

/-- The calls and the unread pieces of an expression are drawn from a text, and its constants are scalars. -/
inductive DrawnFrom (s : List Char) : Expr → Prop
  | text (t : String) : DrawnFrom s (.text t)
  | digits (t : List Char) : DrawnFrom s (.digits t)
  | constant {v : Value} (h : v.IsScalar) : DrawnFrom s (.constant v)
  | call {source name : String} {args : List Expr} (hname : Calls s name)
    (hargs : ∀ e ∈ args, DrawnFrom s e) : DrawnFrom s (.call source name args)
  | binary {source : String} {op : Operator} {l r : Expr} (hl : DrawnFrom s l)
    (hr : DrawnFrom s r) : DrawnFrom s (.binary source op l r)
  | other {source : String} (h : Text.DrawnFrom source.toList s) : DrawnFrom s (.other source)

theorem isInfix_of_beforeLastClose? {a : List Char} (h : beforeLastClose? s = some a) : a <:+: s := by
  unfold beforeLastClose? at h
  split at h
  · cases h
  · rename_i r hr
    cases h
    have : r <:+ s.reverse := (List.suffix_cons _ r).trans (hr ▸ List.dropWhile_suffix (l := s.reverse) (· ≠ ')'))
    rw [← List.reverse_infix, List.reverse_reverse]
    exact this.isInfix

/-- The name of a call stands in front of a bracket, and its arguments stand behind. -/
theorem drawn_of_call? {name args : List Char} (h : call? s = some (name, args)) :
    Calls s (String.ofList name) ∧ args <:+: s := by
  have hs := List.takeWhile_append_dropWhile (p := isWord) (l := s)
  simp only [call?] at h
  split at h
  · rename_i rest hrest
    split at h
    · cases h
    · obtain ⟨a, ha, he⟩ := Option.map_eq_some_iff.1 h
      cases he
      rw [hrest] at hs
      have hword : ∀ c ∈ s.takeWhile isWord, isWord c := fun c hc =>
        List.mem_takeWhile_imp hc
      refine ⟨⟨by simpa using hword, ?_⟩, ?_⟩
      · have hin : s.takeWhile isWord ++ ['('] <:+: s := ⟨[], rest, by simpa using hs⟩
        have hsq := (drawnFrom_of_isInfix hin).squeezed
        have hpar : squeeze ['('] = ['('] := by decide
        rw [squeeze, List.filter_append] at hsq
        change squeeze _ ++ squeeze _ <:+: _ at hsq
        rw [squeeze_of_isWord hword, hpar] at hsq
        simpa using hsq
      · have hline : rest.takeWhile (· ≠ '\n') <+: rest := List.takeWhile_prefix _
        have hargs := (isInfix_of_beforeLastClose? ha).trans hline.isInfix
        exact hargs.trans ⟨s.takeWhile isWord ++ ['('], [], by simpa using hs⟩
  · cases h

theorem isInfix_of_mem_argTexts {p : List Char} (h : p ∈ argTexts s) : p <:+: s := by
  unfold argTexts at h
  split at h
  · cases h
  · exact isInfix_of_mem_splitAll h

theorem drawnFrom_parse {t : List Char} (h : Text.DrawnFrom t s) : (parse t).DrawnFrom s := by
  induction hn : t.length using Nat.strongRecOn generalizing t with
  | ind n ih =>
    have hpart {p : List Char} (hp : p <:+: t) (hlen : p.length < t.length) : (parse (trim p)).DrawnFrom s := by
      refine ih _ ?_ ((drawnFrom_of_isInfix ((isInfix_trim p).trans hp)).trans h) rfl
      have := length_trim_le p
      omega
    rcases parse_cases t with ⟨x, he⟩ | he | ⟨v, hv, he⟩ | ⟨name, args, hc, he⟩ | ⟨op, l, r, hs, he⟩ | he <;> rw [he]
    · exact .text x
    · exact .digits t
    · exact .constant (isScalar_of_constant? hv)
    · obtain ⟨hcalls, hargs⟩ := drawn_of_call? hc
      refine .call (hcalls.mono h) fun e hmem => ?_
      obtain ⟨a, ha, rfl⟩ := List.mem_map.1 hmem
      have hlen := length_of_call? hc
      have hlen' := length_le_of_mem_argTexts ha
      exact hpart ((isInfix_of_mem_argTexts ha).trans hargs) (by omega)
    · have hlen := Operator.length_of_split? hs
      have hcut := Operator.eq_append_of_split? hs
      exact .binary (hpart ⟨[], op.sign ++ r, by simp [hcut]⟩ hlen.1)
        (hpart ⟨l ++ op.sign, [], by simp [hcut]⟩ hlen.2)
    · exact .other (by simpa using h)

end GzLang.Expr

namespace GzLang

open Text

/-- An expression among the arguments of a print statement is drawn from what was read. -/
theorem PrintArg.drawnFrom_scan {previous : Option Char} {quoted : Bool} {current : List Char}
    (h : .expr e ∈ scan previous quoted current s) : DrawnFrom e (current.reverse ++ s) := by
  have hafter {l r : List Char} {c : Char} (hr : DrawnFrom e r) : DrawnFrom e (l ++ c :: r) :=
    hr.trans (drawnFrom_of_isInfix ⟨l ++ [c], [], by simp⟩)
  induction s generalizing previous quoted current with
  | nil =>
    simp only [scan] at h
    split at h
    · cases h
    · obtain rfl : e = trim current.reverse := by simpa using h
      exact drawnFrom_of_isInfix (by simpa using isInfix_trim current.reverse)
  | cons c s ih =>
    have hkeep {p : Option Char} {q : Bool} (h : .expr e ∈ scan p q (c :: current) s) :
        DrawnFrom e (current.reverse ++ c :: s) := by simpa using ih h
    have hnew {p : Option Char} {q : Bool} (h : .expr e ∈ scan p q [] s) :
        DrawnFrom e (current.reverse ++ c :: s) := hafter (by simpa using ih h)
    simp only [scan] at h
    split at h
    · rename_i hc
      split at h
      · exact hnew (by simpa using h)
      · exact (ih h).insert (.inr hc.1)
    · split at h
      · exact hkeep h
      · split at h
        · rename_i hc
          exact (ih h).insert (.inl hc)
        · split at h
          · split at h
            · exact hnew h
            · rcases List.mem_cons.1 h with he | h
              · cases he
                exact drawnFrom_of_isInfix ((isInfix_trim _).trans ⟨[], c :: s, rfl⟩)
              · exact hnew h
          · exact hkeep h

theorem PrintArg.drawnFrom_ofText (h : .expr e ∈ ofText s) : DrawnFrom e s := by
  simpa using drawnFrom_scan h

namespace Statement

def text? : Statement → Option (List Char)
  | .giveBack e | .branch e | .assign _ e | .evaluate e | .print e => some e
  | .loop _ _ | .skip => none

theorem drawnFrom_of_text? (h : (parse s).text? = some e) : DrawnFrom e s := by
  refine drawnFrom_of_isInfix ?_
  have hs := spells_parse s
  generalize parse s = p at h hs
  cases hs <;> cases h
  case giveBack r hs | branch r hs =>
    exact hs ▸ (isInfix_trim r).trans (List.suffix_append ..).isInfix
  case print hs => exact hs ▸ (List.suffix_append ..).isInfix
  case assign l hs => exact ⟨l ++ [' ', '=', ' '], [], by simp [eq_append_of_cutFirst hs]⟩
  case evaluate => exact List.infix_refl s

end Statement

end GzLang
