import Mathlib
import GzLang.Proofs.Assistant
import GzLang.Proofs.FlagTest
import GzLang.Proofs.Rewriting

/-!
# What optimizing code keeps

The rules that an assistant starts with are texts; they denote three patterns with their
replacements (`reads_optimizations`). A test against the true constant becomes a test of the
variable alone, which is the same for a flag. A loop header with signs becomes one that can be
carried out, which is the same where the header is never reached. An increment becomes a line that
does nothing (`parse_increment_ne_assign`). So the code runs as before where nothing is increased,
flags are tested and each find is a line of its own (`Harmless.run_optimizedCode`).
-/

namespace GzLang

namespace Assistant

open GzLang.Action List Text Pattern Statement

variable {m : Match} {s : List Char} {flag : String → Prop} {code : String}

/-! ### The rules -/

def incrementPattern : Pattern :=
  .seq (.group 1 (.repeated .word 1)) (.seq (.repeated .blank 0) (.literally "=".toList
    (.seq (.repeated .blank 0) (.seq (.backref 1) (.seq (.repeated .blank 0) (.literally "+".toList
      (.seq (.repeated .blank 0) (.group 2 (.rep (.set true [.char ';']) 1 none true)))))))))

def testPattern : Pattern :=
  .literally "kung".toList (.seq (.repeated .blank 1) (.seq (.group 1 (.repeated .word 1))
    (.seq (.repeated .blank 0) (.literally "==".toList (.seq (.repeated .blank 0)
      (.literally "tam".toList (.char 'a')))))))

def headerPattern : Pattern :=
  .literally "para".toList (.seq (.repeated .blank 1) (.seq (.group 1 (.repeated .word 1))
    (.seq (.repeated .blank 0) (.literally "=".toList (.seq (.repeated .blank 0)
      (.seq (.group 2 (.repeated .digit 1)) (.seq (.repeated .blank 0) (.literally "hanggang".toList
        (.seq (.repeated .blank 0) (.group 3 (.repeated .digit 1)))))))))))

def incrementTemplate : Template :=
  [.group 1, .char ' ', .char '+', .char '=', .char ' ', .group 2]

def testTemplate : Template :=
  "kung ".toList.map .char ++ [.group 1]

theorem reads_optimizations : List.Forall₂ (fun r pt => r.Reads pt.1 pt.2) optimizations
    [(incrementPattern, incrementTemplate), (testPattern, testTemplate), (headerPattern, headerTemplate)] := by
  iterate 3 refine .cons (Rule.reads_of_toOption (by decide +kernel) (by decide +kernel)) ?_
  exact .nil

/-! ### What the rules find and write -/

theorem fill_testTemplate (m : Match) : testTemplate.fill m = "kung ".toList ++ m.group 1 := by
  refine (fill_chars_append "kung ".toList _ m).trans ?_
  simp [Template.fill]

/-- A test against the true constant, around the name that is tested. -/
structure TestMatch (m : Match) (b u v : List Char) : Prop where
  text : m.text = "kung".toList ++ (b ++ (m.group 1 ++ (u ++ ("==".toList ++ (v ++ "tama".toList)))))
  b_ne_nil : b ≠ []
  b_blank : ∀ c ∈ b, isBlank c = true
  name_ne_nil : m.group 1 ≠ []
  name_word : ∀ c ∈ m.group 1, isWord c = true
  u_blank : ∀ c ∈ u, isBlank c = true
  v_blank : ∀ c ∈ v, isBlank c = true

theorem testMatch_of_mem (hm : m ∈ testPattern.findAll s) : ∃ b u v, TestMatch m b u v := by
  have hd := derives_of_mem_findAll hm
  simp only [testPattern, derives_literally_iff, derives_seq_iff, derives_group_iff, derives_repeated_iff,
    derives_char_iff] at hd
  obtain ⟨_, htext, b, _, _, rfl, ⟨rfl, hblen, hb⟩, x, _, _, rfl, ⟨_, ⟨rfl, hxlen, hx⟩, rfl⟩, u, _, _, rfl,
    ⟨rfl, -, hu⟩, _, rfl, v, _, _, rfl, ⟨rfl, -, hv⟩, _, rfl, rfl, hg⟩ := hd
  have hgroup : m.group 1 = x := by simp [Match.group, Match.group?, hg]
  refine ⟨b, u, v, ⟨?_, length_pos_iff.1 hblen, hb, ?_, ?_, hu, hv⟩⟩ <;> rw [hgroup]
  · exact htext
  · exact length_pos_iff.1 hxlen
  · exact hx

namespace TestMatch

variable {m : Match} {b u v : List Char}

theorem tidy_text (h : TestMatch m b u v) : Text.Tidy m.text := by
  have hb := not_mem_of_class (by decide : isBlank '/' = false) h.b_blank
  have hx := not_mem_of_class (by decide : isWord '/' = false) h.name_word
  have hu := not_mem_of_class (by decide : isBlank '/' = false) h.u_blank
  have hv := not_mem_of_class (by decide : isBlank '/' = false) h.v_blank
  have := Text.Tidy.around (tidy_of_isWord (s := "kung".toList) (by decide) (by decide))
    (s := b ++ (m.group 1 ++ (u ++ ("==".toList ++ v)))) (by simp [hb, hx, hu, hv])
    (tidy_of_isWord (s := "tama".toList) (by decide) (by decide))
  rw [h.text]
  simpa only [append_assoc] using this

theorem tidy_fill (h : TestMatch m b u v) : Text.Tidy (testTemplate.fill m) := by
  rw [fill_testTemplate]
  exact Text.Tidy.around (tidy_of_isWord (s := "kung".toList) (by decide) (by decide))
    (s := [' ']) (by decide) (tidy_of_isWord h.name_ne_nil h.name_word)

theorem newline_not_mem_fill (h : TestMatch m b u v) : '\n' ∉ testTemplate.fill m := by
  rw [fill_testTemplate]
  have hx := not_mem_of_class (by decide : isWord '\n' = false) h.name_word
  simp [hx]

end TestMatch

theorem parse_kung (r : List Char) : parse ("kung ".toList ++ r) = .branch (trim r) := rfl

/-- The line with a test of a flag, and the line that is written for it. -/
theorem TestMatch.alike {b u v : List Char} (h : TestMatch m b u v) (hkung : "kung ".toList <+: m.text) {x : Variable}
    (hx : m.group 1 = x.chars) (hflag : flag x.name) {l : Line} (hl : l.content = String.ofList m.text) :
    l.Alike flag { l with content := String.ofList (testTemplate.fill m) } := by
  have hsolid : Text.Solid (x.test u v) := by
    obtain ⟨c, t, ht, hc⟩ := (solid_of_isWord x.ne_nil x.word).head
    refine ⟨⟨c, t ++ u ++ (Operator.eq.sign ++ (v ++ "tama".toList)), by simp [Variable.test, ht], hc⟩,
      ⟨x.chars ++ u ++ (Operator.eq.sign ++ (v ++ "tam".toList)), 'a', by simp [Variable.test],
        by decide⟩⟩
  -- the keyword ends with one blank, the other blanks are trimmed
  obtain ⟨b', hb'⟩ : ∃ b', m.text = "kung ".toList ++ (b' ++ x.test u v) ∧ ∀ c ∈ b', isBlank c := by
    obtain ⟨r, hr⟩ := hkung
    obtain ⟨c, b', rfl⟩ := exists_cons_of_ne_nil h.b_ne_nil
    have hrest : "kung".toList ++ (' ' :: r) = "kung".toList ++ (c :: (b' ++ (m.group 1 ++
        (u ++ ("==".toList ++ (v ++ "tama".toList)))))) := hr.trans h.text
    have hc : ' ' = c := (List.cons.inj (append_cancel_left hrest)).1
    refine ⟨b', ?_, fun d hd => h.b_blank d (mem_cons_of_mem c hd)⟩
    rw [h.text, ← hc, hx]
    simp [Variable.test, Operator.sign]
  refine .test rfl rfl hflag h.u_blank h.v_blank ?_ ?_
  · rw [hl, String.toList_ofList, hb'.1, parse_kung]
    have := trim_around (v := []) hsolid hb'.2 (by simp)
    rw [append_nil] at this
    rw [this]
  · rw [String.toList_ofList, fill_testTemplate, parse_kung, hx]
    have := trim_around (u := []) (v := []) (solid_of_isWord x.ne_nil x.word) (by simp) (by simp)
    rw [nil_append, append_nil] at this
    rw [this]

/-! ### Loop headers -/

structure HeaderMatch (m : Match) : Prop where
  tidy : Text.Tidy m.text
  name_word : ∀ c ∈ m.group 1, isWord c = true
  low_decimal : ∀ c ∈ m.group 2, isDecimal c = true
  high_ne_nil : m.group 3 ≠ []
  high_decimal : ∀ c ∈ m.group 3, isDecimal c = true

theorem headerMatch_of_mem (hm : m ∈ headerPattern.findAll s) : HeaderMatch m := by
  have hd := derives_of_mem_findAll hm
  simp only [headerPattern, derives_literally_iff, derives_seq_iff, derives_group_iff, derives_repeated_iff] at hd
  obtain ⟨_, htext, b, _, _, rfl, ⟨rfl, -, hb⟩, x, _, _, rfl, ⟨_, ⟨rfl, -, hx⟩, rfl⟩, u, _, _, rfl,
    ⟨rfl, -, hu⟩, _, rfl, v, _, _, rfl, ⟨rfl, -, hv⟩, i, _, _, rfl, ⟨_, ⟨rfl, -, hi⟩, rfl⟩, y, _, _, rfl,
    ⟨rfl, -, hy⟩, _, rfl, z, j, _, rfl, ⟨rfl, -, hz⟩, _, ⟨rfl, hjlen, hj⟩, hg⟩ := hd
  have hjne : j ≠ [] := length_pos_iff.1 hjlen
  have hslash {f : Char → Bool} (hf : f '/' = false) {w : List Char}
      (hw : ∀ c ∈ w, f c) : '/' ∉ w := not_mem_of_class hf hw
  have htidy := Text.Tidy.around (tidy_of_isWord (s := "para".toList) (by decide) (by decide))
    (s := b ++ (x ++ (u ++ ("=".toList ++ (v ++ (i ++ (y ++ ("hanggang".toList ++ z)))))))) (by
      simp [hslash (by decide) hb, hslash (by decide) hx, hslash (by decide) hu,
        hslash (by decide) hv, hslash (by decide) hi, hslash (by decide) hy,
        hslash (by decide) hz]) (tidy_of_isDecimal hjne hj)
  have hx' : m.group 1 = x := by simp [Match.group, Match.group?, hg]
  have hi' : m.group 2 = i := by simp [Match.group, Match.group?, hg]
  have hj' : m.group 3 = j := by simp [Match.group, Match.group?, hg]
  refine ⟨?_, hx' ▸ hx, hi' ▸ hi, hj' ▸ hjne, hj' ▸ hj⟩
  rw [htext]
  simpa only [append_assoc] using htidy

namespace HeaderMatch

variable {m : Match}

theorem tidy_fill (h : HeaderMatch m) : Text.Tidy (headerTemplate.fill m) := by
  have hx := not_mem_of_class (by decide : isWord '/' = false) h.name_word
  have hi := not_mem_of_class (by decide : isDecimal '/' = false) h.low_decimal
  have := Text.Tidy.around (tidy_of_isWord (s := "para".toList) (by decide) (by decide))
    (s := ' ' :: (m.group 1 ++ (' ' :: (m.group 2 ++ [' '])))) (by simp [hx, hi])
    (tidy_of_isDecimal h.high_ne_nil h.high_decimal)
  rw [fill_headerTemplate]
  simpa using this

theorem newline_not_mem_fill (h : HeaderMatch m) : '\n' ∉ headerTemplate.fill m := by
  have hx := not_mem_of_class (by decide : isWord '\n' = false) h.name_word
  have hi := not_mem_of_class (by decide : isDecimal '\n' = false) h.low_decimal
  have hj := not_mem_of_class (by decide : isDecimal '\n' = false) h.high_decimal
  rw [fill_headerTemplate]
  simp [hx, hi, hj]

end HeaderMatch

/-! ### Harmless rewriting -/

def simplified (s : List Char) : List Char :=
  testPattern.replace testTemplate.fill s

/-- Code on which the rules do no harm: no variable is increased, what is tested against the true
constant is a flag, and a loop header that is rewritten could not be carried out. -/
structure Harmless (flag : String → Prop) (s : List Char) : Prop where
  increments : incrementPattern.occursIn s = false
  tests : testPattern.Apart s
  flags : ∀ m, testPattern.FoundInCode s m →
    "kung ".toList <+: m.text ∧ ∃ x : Variable, m.group 1 = x.chars ∧ flag x.name
  headers : headerPattern.Apart (simplified s)
  faulty : ∀ m, headerPattern.FoundInCode (simplified s) m →
    ∃ x f, parse m.text = .loop x (.error f)
  tame : ∀ l ∈ Line.ofSource (String.ofList s), l.Tame flag

namespace Harmless

variable {flag : String → Prop} {s : List Char}

theorem rewritten_simplified (h : Harmless flag s) :
    List.Forall₂ (Line.Rewritten (testPattern.FoundInCode s) testTemplate.fill)
      (Line.ofSource (String.ofList s)) (Line.ofSource (String.ofList (simplified s))) := by
  refine forall₂_ofSource_replace h.tests (fun m hm => ?_) fun m hm => ?_
  · obtain ⟨b, u, v, htest⟩ := testMatch_of_mem hm
    exact htest.tidy_text
  · obtain ⟨b, u, v, htest⟩ := testMatch_of_mem hm
    exact ⟨htest.tidy_fill, htest.newline_not_mem_fill⟩

theorem alike_simplified (h : Harmless flag s) : List.Forall₂ (Line.Alike flag)
    (Line.ofSource (String.ofList s)) (Line.ofSource (String.ofList (simplified s))) := by
  refine h.rewritten_simplified.imp fun l l' hl => ?_
  rcases hl with rfl | ⟨m, hm, hl, rfl⟩
  · exact .same l'
  · obtain ⟨b, u, v, htest⟩ := testMatch_of_mem hm.1
    obtain ⟨hkung, x, hx, hflag⟩ := h.flags m hm
    exact htest.alike hkung hx hflag hl

theorem tame_simplified (h : Harmless flag s) : ∀ l ∈ Line.ofSource (String.ofList (simplified s)), l.Tame flag := by
  intro l' hl'
  obtain ⟨l, hl, hll'⟩ := exists_of_mem_forall₂ h.rewritten_simplified hl'
  rcases hll' with rfl | ⟨m, -, -, rfl⟩
  · exact h.tame l' hl
  · refine tame_of_branch (c := trim (m.group 1)) ?_
    rw [String.toList_ofList, fill_testTemplate, parse_kung]

theorem alike_optimized (h : Harmless flag s) : List.Forall₂ (Line.Alike flag)
    (Line.ofSource (String.ofList (simplified s)))
    (Line.ofSource (String.ofList (headerPattern.replace headerTemplate.fill (simplified s)))) := by
  refine (forall₂_ofSource_replace h.headers (fun m hm => (headerMatch_of_mem hm).tidy)
    fun m hm => ⟨(headerMatch_of_mem hm).tidy_fill, (headerMatch_of_mem hm).newline_not_mem_fill⟩).imp fun l l' hl => ?_
  rcases hl with rfl | ⟨m, hm, hl, rfl⟩
  · exact .same l'
  · obtain ⟨x, f, hparse⟩ := h.faulty m hm
    refine .header rfl rfl (by rw [hl, String.toList_ofList]; exact hparse) ?_
    rw [fill_headerTemplate, definition?, String.toList_ofList]
    rfl

end Harmless

/-! ### Increments -/

theorem isWord_of_increment (hm : m ∈ incrementPattern.findAll s) : ∀ c ∈ m.group 1, isWord c := by
  have hd := derives_of_mem_findAll hm
  simp only [incrementPattern, derives_literally_iff, derives_seq_iff, derives_group_iff,
    derives_repeated_iff, derives_rep_iff, derives_backref_iff] at hd
  obtain ⟨x, _, _, -, ⟨_, ⟨rfl, -, hx⟩, rfl⟩, _, _, _, -, ⟨rfl, -⟩, _, -, _, _, _, -, ⟨rfl, -⟩, _, _, _, -,
    ⟨-, rfl⟩, _, _, _, -, ⟨rfl, -⟩, _, -, _, _, _, -, ⟨rfl, -⟩, _, ⟨rfl, -⟩, hg⟩ := hd
  have hgroup : m.group 1 = x := by simp [Match.group, Match.group?, hg]
  rw [hgroup]
  exact hx

/-- A variable, the sign of an increment and an expression are no assignment. -/
theorem parse_increment_ne_assign {x e : List Char} (hx : ∀ c ∈ x, Text.isWord c)
    (he : Text.occurs [' ', '=', ' '] (' ' :: e) = false) (y : String) (f : List Char) :
    Statement.parse (x ++ (" += ".toList ++ e)) ≠ .assign y f := by
  have hspace := Text.not_mem_of_class (by decide : Text.isWord ' ' = false) hx
  have hnone : Text.cutFirst [' ', '=', ' '] (' ' :: e) = none := by
    simpa [Text.occurs] using he
  -- the sign of an assignment has a space before it, and here a plus sign stands there
  have hcut : Text.cutFirst [' ', '=', ' '] (x ++ (" += ".toList ++ e)) = none := by
    have hsign : Text.cutFirst [' ', '=', ' '] (' ' :: (['+', '='] ++ (' ' :: e))) = none := by
      rw [Text.cutFirst, if_neg (by simp [List.isPrefixOf]),
        Text.cutFirst_append_of_not_mem (by decide), hnone]
      rfl
    rw [Text.cutFirst_append_of_not_mem hspace]
    exact congrArg _ hsign
  intro h
  have hs := spells_parse (x ++ (" += ".toList ++ e))
  rw [h] at hs
  cases hs with
  | assign hs =>
    rw [hcut] at hs
    cases hs

/-! ### Optimized code -/

def optimizedCode (code : String) : String :=
  String.ofList (headerPattern.replace headerTemplate.fill
    (simplified (incrementPattern.replace incrementTemplate.fill code.toList)))

-- the second line is one that does nothing
example : optimizedCode "simula main\n x = x + 1\n" = "simula main\n x += 1\n" := by cbv

/-- An assistant that optimizes with the rules that it starts with. -/
structure Optimizes (a : Assistant) (level : Value) : Prop where
  initialized : a.initialized = true
  rules : Table.get? a.memory "optimization_rules" = some (Rule.documents optimizations)
  level : level.isTrue = true ∨ ∃ v, a.config.item "optimization_level" = .ok v

theorem applyRules_optimizations (code : String) : ∃ applied,
    applyRules (optimizations.map Rule.entry) (.str code) = .ok (.str (optimizedCode code), applied) := by
  have := applyRules_of_reads reads_optimizations code.toList
  rwa [String.ofList_toList] at this

theorem optimizedCode_of_not_occurs (h : ∀ r ∈ optimizations, occurs r.pattern code = .ok false) :
    optimizedCode code = code := by
  have := rewriteAll_of_not_occurs reads_optimizations h
  exact (congrArg String.ofList this).trans String.ofList_toList

theorem Harmless.run_optimizedCode (h : Harmless flag code.toList) {m : Machine}
    (hm : (runSource code).perform {} = (.ok (), m)) :
    ∃ n, (runSource (optimizedCode code)).perform {} = (.ok (), n) ∧ n.out = m.out ∧ n.err = m.err := by
  have hsame : incrementPattern.replace incrementTemplate.fill code.toList = code.toList :=
    replace_of_not_occursIn h.increments _
  rw [← String.ofList_toList (s := code)] at hm
  -- the tests are rewritten first, and the headers in what comes out
  obtain ⟨n₁, hn₁, hout₁, herr₁⟩ := runSource_of_alike h.alike_simplified h.tame hm
  obtain ⟨n₂, hn₂, hout₂, herr₂⟩ := runSource_of_alike h.alike_optimized h.tame_simplified hn₁
  refine ⟨n₂, ?_, hout₂.trans hout₁, herr₂.trans herr₁⟩
  rw [optimizedCode, hsame]
  exact hn₂

/-! ### What optimizing keeps -/

/-- An assistant answers with the optimized code, unless passing on what it learned fails. The code
stays as it is where no rule applies, and runs as before where the rules do no harm. What is written
for an increased variable is never an assignment, so an increment is always lost. -/
theorem optimize_keeps_output {a : Assistant} {level : Value} (ha : a.Optimizes level) (w : World) (code : String) :
    (∃ v t, (optimize (.str code) level).perform (a, w) = (.ok v, t) ∧
      (v.item "optimized_code" = .ok (.str (optimizedCode code)) ∨
        a.collective.isSome = true ∧ ∃ message, v = Answer.failure message)) ∧
    ((∀ r ∈ optimizations, Pattern.occurs r.pattern code = .ok false) → optimizedCode code = code) ∧
    (∀ flag, Harmless flag code.toList → ∀ m, (runSource code).perform {} = (.ok (), m) →
      ∃ n, (runSource (optimizedCode code)).perform {} = (.ok (), n) ∧ n.out = m.out ∧ n.err = m.err) ∧
    ∀ m ∈ incrementPattern.findAll code.toList, ∀ e, Text.occurs [' ', '=', ' '] (' ' :: e) = false →
      ∀ x f, Statement.parse (m.group 1 ++ (" += ".toList ++ e)) ≠ .assign x f := by
  obtain ⟨applied, happly⟩ := applyRules_optimizations code
  exact ⟨perform_optimize ha.initialized ha.rules ha.level happly, optimizedCode_of_not_occurs,
    fun _ h _ hm => h.run_optimizedCode hm,
    fun m hm e he x f => parse_increment_ne_assign (isWord_of_increment hm) he x f⟩

/-! ### A program with a flag -/

/-- A program with a flag that is tested, and a function with a loop header that is never reached. -/
def flagged : String :=
  "simula f\n para i = 1 hanggang 2\n  sulat i\n" ++
    "simula main\n x = tama\n kung x == tama\n  sulat 1\n"

def variableX : Variable := ⟨⟨['x'], by decide, by decide⟩, by decide, by decide⟩

theorem findAll_test_flagged : testPattern.findAll flagged.toList = [⟨"kung x == tama".toList, [(1, ['x'])]⟩] := by
  cbv

theorem simplified_flagged : simplified flagged.toList = ("simula f\n para i = 1 hanggang 2\n  sulat i\n" ++
      "simula main\n x = tama\n kung x\n  sulat 1\n").toList := by
  cbv

theorem findAll_header_flagged : headerPattern.findAll (simplified flagged.toList) =
    [⟨"para i = 1 hanggang 2".toList, [(3, ['2']), (2, ['1']), (1, ['i'])]⟩] := by
  rw [simplified_flagged]
  cbv

theorem tame_flagged : ∀ l ∈ Line.ofSource flagged, l.Tame (· = "x") := by
  have hs (l : Line) {e : List Char} (hl : parse l.content.toList = .print e)
      (hd : definition? l.content = none) : l.Tame (· = "x") := by
    refine tame_of_read hl hd ?_ ?_ ?_ <;> rintro _ _ ⟨⟩
  have hdef (l : Line) {name : String} (hl : parse l.content.toList = .skip)
      (hd : definition? l.content = some [name]) : l.Tame (· = "x") := by
    refine tame_of_read hl hd ?_ ?_ ?_ <;> rintro _ _ ⟨⟩
    exact forall_mem_nil _
  have hlines : Line.ofSource flagged = [⟨1, 0, "simula f"⟩, ⟨2, 1, "para i = 1 hanggang 2"⟩, ⟨3, 2, "sulat i"⟩,
      ⟨4, 0, "simula main"⟩, ⟨5, 1, "x = tama"⟩, ⟨6, 1, "kung x == tama"⟩, ⟨7, 2, "sulat 1"⟩] := by cbv
  rw [hlines]
  simp only [forall_mem_cons]
  refine ⟨hdef _ rfl rfl, ?_, hs _ rfl rfl, hdef _ rfl rfl, ?_, ?_, hs _ rfl rfl, forall_mem_nil _⟩
  · refine tame_of_read (s := .loop "i" _) rfl (d := none) rfl ?_ ?_ ?_ <;> rintro _ _ ⟨⟩
    exact ⟨by decide, by decide⟩
  · refine tame_of_read (s := .assign "x" "tama".toList) rfl (d := none) rfl ?_ ?_ ?_ <;> rintro _ _ ⟨⟩
    exact ⟨by decide, fun _ => .inl ⟨.bool true, rfl⟩⟩
  · exact tame_of_branch (c := "x == tama".toList) rfl

theorem harmless_flagged : Harmless (· = "x") flagged.toList where
  increments := by decide +kernel
  tests := by
    refine ⟨?_, ?_⟩ <;> rw [findAll_test_flagged]
    · decide
    · rw [lines_eq_splitOn]
      decide +kernel
  flags := by
    intro m hm
    have := hm.1
    rw [findAll_test_flagged, mem_singleton] at this
    rw [this]
    exact ⟨by decide, variableX, rfl, rfl⟩
  headers := by
    refine ⟨?_, ?_⟩ <;> rw [findAll_header_flagged]
    · decide
    · rw [lines_eq_splitOn, simplified_flagged]
      decide +kernel
  faulty := by
    intro m hm
    have := hm.1
    rw [findAll_header_flagged, mem_singleton] at this
    rw [this]
    exact ⟨"i", _, rfl⟩
  tame := by
    rw [String.ofList_toList]
    exact tame_flagged

def optimizer : Assistant where
  initialized := true
  memory := [("optimization_rules", Rule.documents optimizations)]

/-- Optimizing a program with a flag and an unreachable loop header keeps its output. -/
theorem output_of_flagged_optimized : optimizer.Optimizes (.int 1) ∧ Harmless (· = "x") flagged.toList ∧
      (∃ m, (runSource flagged).perform {} = (.ok (), m) ∧ m.out = "1\n" ∧ m.err = "") ∧
      ∃ n, (runSource (optimizedCode flagged)).perform {} = (.ok (), n) ∧ n.out = "1\n" ∧ n.err = "" := by
  have hopt : optimizer.Optimizes (.int 1) := ⟨rfl, rfl, .inl rfl⟩
  have hrun : ∃ m, (runSource flagged).perform {} = (.ok (), m) ∧ m.out = "1\n" ∧ m.err = "" :=
    exists_perform (by decide +kernel)
  obtain ⟨m, hm, hout, herr⟩ := hrun
  obtain ⟨n, hn, hout', herr'⟩ := (optimize_keeps_output hopt default flagged).2.2.1 _ harmless_flagged m hm
  exact ⟨hopt, harmless_flagged, ⟨m, hm, hout, herr⟩, n, hn, hout'.trans hout, herr'.trans herr⟩

end Assistant

end GzLang
