import GzLang.Proofs.Scope
import GzLang.Proofs.Track

/-!
# Arguments of a print statement that are read back

A text in quotes and an expression are read whatever stands behind them, as long as a comma does (`scan_written_comma`):
the reader is then back where it started, with a blank before it, so arguments that are written with commas between them
are read one by one (`ofText_textOf`).

The outcome of an expression depends on nothing but the scope, that is the variables and the functions
(`outcome_evaluate`), and evaluating keeps the scope. So each argument has the outcome that it has on its own in the
machine at the start, and the first fault ends the reading (`print_arguments_are_read_back`).
-/

namespace GzLang

open GzLang.Action List

/-! ### Values, or the first fault -/

section Outcomes

variable {σ τ α β : Type}
variable {f : α → Except Fault β}

theorem mapM_eq_ok_iff {l : List α} {ys : List β} : l.mapM f = .ok ys ↔ List.Forall₂ (fun x y => f x = .ok y) l ys := by
  induction l generalizing ys with
  | nil =>
    rw [forall₂_nil_left_iff]
    exact ⟨fun h => (Except.ok.inj h).symm, fun h => h ▸ rfl⟩
  | cons x l ih =>
    rw [mapM_cons, forall₂_cons_left_iff]
    cases hx : f x with
    | error e => simp [bind, Except.bind]
    | ok y =>
      cases hl : l.mapM f with
      | error e =>
        have hnone : ∀ zs, ¬ List.Forall₂ (fun x y => f x = .ok y) l zs := fun zs hzs => by
          rw [ih.2 hzs] at hl
          cases hl
        simp [bind, Except.bind, hnone]
      | ok zs =>
        have hzs := ih.1 hl
        constructor
        · intro h
          exact ⟨y, zs, rfl, hzs, (Except.ok.inj h).symm⟩
        · rintro ⟨y', zs', hy, hzs', rfl⟩
          cases hy
          have hsame := ih.2 hzs'
          rw [hl] at hsame
          cases hsame
          rfl

theorem mapM_eq_error_iff {l : List α} {e : Fault} : l.mapM f = .error e ↔
      ∃ before x after, l = before ++ x :: after ∧ (∀ y ∈ before, ∃ v, f y = .ok v) ∧ f x = .error e := by
  induction l with
  | nil => simp [pure, Except.pure]
  | cons x l ih =>
    rw [mapM_cons]
    cases hx : f x with
    | error e' =>
      constructor
      · intro h
        cases h
        exact ⟨[], x, l, rfl, nofun, hx⟩
      · rintro ⟨before, y, after, hl, hbefore, hy⟩
        cases before with
        | nil =>
          cases hl
          rw [hx] at hy
          cases hy
          rfl
        | cons z before =>
          cases hl
          obtain ⟨v, hv⟩ := hbefore x mem_cons_self
          rw [hx] at hv
          cases hv
    | ok v =>
      have hrest : (Except.ok v >>= fun y => l.mapM f >>= fun ys => pure (y :: ys)) = .error e ↔
          l.mapM f = .error e := by
        cases hl : l.mapM f <;> simp [bind, Except.bind, pure, Except.pure]
      rw [hrest, ih]
      constructor
      · rintro ⟨before, y, after, rfl, hbefore, hy⟩
        exact ⟨x :: before, y, after, rfl, forall_mem_cons.2 ⟨⟨v, hx⟩, hbefore⟩, hy⟩
      · rintro ⟨before, y, after, hl, hbefore, hy⟩
        cases before with
        | nil =>
          cases hl
          rw [hx] at hy
          cases hy
        | cons z before =>
          cases hl
          exact ⟨before, y, after, rfl, fun w hw => hbefore w (mem_cons_of_mem _ hw), hy⟩

/-- Actions whose outcomes depend on a view that they keep have the outcomes, one after the other, that each has from
the start. -/
theorem outcome_mapM {view : σ → τ} {f : α → Action σ β} (hkeeps : ∀ x, Keeps view (f x))
    (houtcome : ∀ x s t, view t = view s → ((f x).perform t).1 = ((f x).perform s).1) (l : List α) {s t : σ}
    (h : view t = view s) : ((l.mapM f).perform t).1 = l.mapM fun x => ((f x).perform s).1 := by
  induction l generalizing t with
  | nil => rfl
  | cons x l ih =>
    have hx := houtcome x s t h
    rw [mapM_cons, mapM_cons, ← hx]
    rcases hperform : (f x).perform t with ⟨e | y, t'⟩
    · rw [bind_of_error hperform]
      rfl
    · have hrest := ih ((hkeeps x hperform).trans h)
      rw [bind_of_ok hperform, perform_bind, ← hrest]
      rcases (l.mapM f).perform t' with ⟨e | ys, u⟩ <;> rfl

end Outcomes

/-! ### Outcomes and the scope -/

/-- Two machines with the given functions and the same variables. -/
def SameScope (t : Table Function) (_ : Option Fault) (m n : Machine) : Prop :=
  n.bindings = m.bindings ∧ m.functions = t ∧ n.functions = t

variable {t : Table Function}

theorem lockstep_sameScope : Lockstep t t (SameScope t) fun _ _ => False where
  bindings h := h.1
  fault _ h := .inr h
  astray _ := id
  functions h := h.2
  out _ h := h
  rebind _ h := ⟨rfl, h.2⟩
  astray_functions := False.elim
  astray_stays h := h.elim

theorem tracks_report_sameScope (message : String) :
    Tracks (SameScope t) (fun _ _ => False) (Machine.report message) (Machine.report message) :=
  tracks_modify (fun _ => id) fun _ _ h => h

theorem tracks_reportUndefined_sameScope (name : String) :
    Tracks (SameScope t) (fun _ _ => False) (reportUndefined name) (reportUndefined name) :=
  (tracks_report_sameScope _).bind fun _ => tracks_pure _

theorem tracks_callAt_sameScope (depth : Nat) {name : String} {f : Function} (hf : Table.get? t name = some f)
    (args : List Value) :
    Tracks (SameScope t) (fun _ _ => False) (callAt depth name args) (callAt depth name args) := by
  refine lockstep_sameScope.tracks_callAt (L := Eq) ?_ ?_ ?_ ?_ ?_ depth hf args
  · rintro l _ rfl
    exact ⟨tracks_modify (fun _ => id) fun _ _ h => h, rfl⟩
  · intro _ _ _ source _
    exact tracks_report_sameScope _
  · intro name f hf
    refine ⟨f, hf, rfl, id, strictMono_id.strictMonoOn _, forall₂_same.2 fun l _ => ⟨rfl, rfl⟩⟩
  · intro name _ hnone depth args
    rw [if_neg (by simp [Table.has, hnone])]
    exact tracks_reportUndefined_sameScope name
  · exact tracks_throw (fun _ => id) fun _ _ h => .inr h

/-- The outcome of an expression depends on the scope alone. -/
theorem outcome_evaluate (depth : Nat) (s : List Char) {m n : Machine} (h : n.scope = m.scope) :
    ((evaluate (callAt depth) s).perform n).1 = ((evaluate (callAt depth) s).perform m).1 := by
  obtain ⟨hbindings, hfunctions⟩ := Prod.mk.inj h
  have hin : TracksIn (SameScope m.functions) (fun _ _ => False) (callAt depth) (callAt depth) s := by
    refine ⟨fun {name} args _ => lockstep_sameScope.tracks_callKnown (fun f hf => ?_) fun hnone => ?_,
      fun _ => tracks_report_sameScope _⟩
    · exact ⟨by simp [Table.has, hf], tracks_callAt_sameScope depth hf args⟩
    · rw [if_neg (by simp [Table.has, hnone])]
      exact tracks_reportUndefined_sameScope name
  rcases (lockstep_sameScope.tracks_evaluate hin).inStep ⟨hbindings, rfl, hfunctions⟩ with hastray | ⟨hsame, -⟩
  · exact hastray.elim
  · exact hsame

namespace PrintArg

open Text

variable {previous : Option Char}
variable {s : List Char}

/-! ### Writing arguments -/

def written : PrintArg → List Char
  | .text s => '"' :: (s.toList ++ ['"'])
  | .expr s => s

/-- Arguments as they are written, with a comma and a blank between them. -/
def textOf (as : List PrintArg) : List Char := intercalate [',', ' '] (as.map written)

/-- A text without quotes that does not end with a backslash, or an expression that is not blank and has neither quotes
nor commas. -/
def IsWritable : PrintArg → Prop
  | .text s => '"' ∉ s.toList ∧ s.toList.getLast? ≠ some '\\'
  | .expr s => (∃ c ∈ s, isBlank c = false) ∧ '"' ∉ s ∧ ',' ∉ s

def unspaced (s : List Char) : List Char := s.filter fun c => !isBlank c

def asRead : PrintArg → PrintArg
  | .text s => .text s
  | .expr s => .expr (unspaced s)

/-- What an argument stands for: a text for itself, and an expression for its value without the blanks. -/
def value (call : Caller) : PrintArg → Run Value
  | .text s => pure (.str s)
  | .expr s => evaluate call (unspaced s)

theorem eval_asRead (call : Caller) (a : PrintArg) : a.asRead.eval call = a.value call := by
  cases a <;> rfl

/-! ### Reading them -/

theorem trim_unspaced (s : List Char) : trim (unspaced s) = unspaced s := by
  have hsolid : ∀ c ∈ unspaced s, isBlank c = false := fun c hc => by simpa using (mem_filter.1 hc).2
  by_cases hs : unspaced s = []
  · rw [hs]
    rfl
  · have htrim := trim_around (u := []) (v := []) (solid_of_not_blank hs hsolid) nofun nofun
    rwa [append_nil] at htrim

/-- Inside quotes everything is kept, up to a quote behind something else than a backslash. -/
theorem scan_quoted (hs : '"' ∉ s) (hlast : s.getLast?.or previous ≠ some '\\') (current rest : List Char) :
    scan previous true current (s ++ '"' :: rest) =
      .text (String.ofList (current.reverse ++ s)) :: scan (some '"') false [] rest := by
  induction s generalizing previous current with
  | nil =>
    have hprevious : previous ≠ some '\\' := hlast
    rw [nil_append, scan, if_pos ⟨rfl, hprevious⟩, if_pos rfl, append_nil]
  | cons c s ih =>
    obtain ⟨hc, hs⟩ := not_or.1 (mt mem_cons.2 hs)
    have hnext : s.getLast?.or (some c) ≠ some '\\' := by
      rw [getLast?_cons, Option.some_or] at hlast
      cases hl : s.getLast? <;> simpa [hl] using hlast
    rw [cons_append, scan, if_neg (fun h => hc h.1.symm), if_pos rfl, ih hs hnext]
    simp

/-- Outside quotes the blanks are dropped, up to a quote or a comma. -/
theorem scan_unquoted (hquote : '"' ∉ s) (hcomma : ',' ∉ s) (previous : Option Char)
    (current rest : List Char) : scan previous false current (s ++ rest) =
      scan (s.getLast?.or previous) false ((unspaced s).reverse ++ current) rest := by
  induction s generalizing previous current with
  | nil => rfl
  | cons c s ih =>
    obtain ⟨hc, hquote⟩ := not_or.1 (mt mem_cons.2 hquote)
    obtain ⟨hc', hcomma⟩ := not_or.1 (mt mem_cons.2 hcomma)
    have hlast : s.getLast?.or (some c) = (c :: s).getLast?.or previous := by
      rw [getLast?_cons]
      cases s.getLast? <;> rfl
    rw [cons_append, scan, if_neg (fun h => hc h.1.symm), if_neg Bool.false_ne_true, ← hlast]
    cases hblank : isBlank c with
    | true =>
      rw [if_pos rfl, ih hquote hcomma]
      simp [unspaced, hblank]
    | false =>
      rw [if_neg Bool.false_ne_true, if_neg (Ne.symm hc'), ih hquote hcomma]
      simp [unspaced, hblank]

theorem scan_string {s : String} (h : IsWritable (.text s)) (hprevious : previous ≠ some '\\') (rest : List Char) :
    scan previous false [] ('"' :: (s.toList ++ '"' :: rest)) = .text s :: scan (some '"') false [] rest := by
  have hlast : s.toList.getLast?.or (some '"') ≠ some '\\' := by
    cases hs : s.toList.getLast? with
    | none => decide
    | some c => simpa [hs] using h.2
  rw [scan, if_pos ⟨rfl, hprevious⟩, if_neg Bool.false_ne_true, scan_quoted h.1 hlast, reverse_nil,
    nil_append, String.ofList_toList]

theorem unspaced_ne_nil (h : IsWritable (.expr s)) : unspaced s ≠ [] := by
  obtain ⟨⟨c, hc, hblank⟩, -⟩ := h
  exact ne_nil_of_mem (mem_filter.2 ⟨hc, by simp [hblank]⟩)

variable {a : PrintArg}

theorem IsWritable.scan_written (h : a.IsWritable) (hprevious : previous ≠ some '\\') :
    scan previous false [] a.written = [a.asRead] := by
  cases a with
  | text s => exact scan_string h hprevious []
  | expr s =>
    have hscan := scan_unquoted h.2.1 h.2.2 previous [] []
    rw [append_nil, append_nil] at hscan
    rw [written, hscan, scan, reverse_reverse, trim_unspaced]
    simp [unspaced_ne_nil h, asRead]

/-- An argument before a comma is read, and what follows is read from a blank on. -/
theorem IsWritable.scan_written_comma (h : a.IsWritable) (hprevious : previous ≠ some '\\') (rest : List Char) :
    scan previous false [] (a.written ++ [',', ' '] ++ rest) = a.asRead :: scan (some ' ') false [] rest := by
  have hblank (p : Option Char) : scan p false [] (' ' :: rest) = scan (some ' ') false [] rest := by
    rw [scan, if_neg (by simp), if_neg Bool.false_ne_true]
    rfl
  cases a with
  | text s =>
    have hcomma (p : Option Char) : scan p false [] (',' :: ' ' :: rest) = scan (some ' ') false [] rest :=
      hblank (some ',')
    have htext : written (.text s) ++ [',', ' '] ++ rest = '"' :: (s.toList ++ '"' :: ',' :: ' ' :: rest) := by
      simp [written]
    rw [htext, scan_string h hprevious, hcomma, asRead]
  | expr s =>
    have htext : written (.expr s) ++ [',', ' '] ++ rest = s ++ ',' :: ' ' :: rest := by simp [written]
    have hcomma : isBlank ',' = false := rfl
    rw [htext, scan_unquoted h.2.1 h.2.2, append_nil, scan, if_neg (by simp), if_neg Bool.false_ne_true, hcomma,
      if_neg Bool.false_ne_true, if_pos rfl, if_neg (by simpa using unspaced_ne_nil h), reverse_reverse,
      trim_unspaced, hblank, asRead]

/-- Arguments are read as they were written, but for the blanks of expressions. -/
theorem ofText_textOf {as : List PrintArg} (h : ∀ a ∈ as, a.IsWritable) : ofText (textOf as) = as.map asRead := by
  have hfrom {previous : Option Char} (hprevious : previous ≠ some '\\') :
      scan previous false [] (textOf as) = as.map asRead := by
    induction as generalizing previous with
    | nil => rw [textOf, map_nil, intercalate_nil, scan]; rfl
    | cons a as ih =>
      rw [forall_mem_cons] at h
      cases as with
      | nil =>
        rw [textOf, map_singleton, intercalate_singleton]
        exact h.1.scan_written hprevious
      | cons b as =>
        have hrest := ih h.2 (show some ' ' ≠ some '\\' by decide)
        rw [textOf, map_cons] at hrest
        rw [textOf, map_cons, map_cons, intercalate_cons_cons, h.1.scan_written_comma hprevious, hrest]
        rfl
  exact hfrom (by simp)

/-! ### Evaluating them -/

theorem keeps_value (depth : Nat) (a : PrintArg) : Keeps Machine.scope (a.value (callAt depth)) := by
  cases a with
  | text s =>
    intro m v n h
    cases h
    rfl
  | expr s => exact keeps_evaluate (keeps_scope_callAt depth) (unspaced s)

theorem outcome_value (depth : Nat) (a : PrintArg) (m n : Machine) (h : n.scope = m.scope) :
    ((a.value (callAt depth)).perform n).1 = ((a.value (callAt depth)).perform m).1 := by
  cases a with
  | text s => rfl
  | expr s => exact outcome_evaluate depth (unspaced s) h

/-- The arguments of a print statement are evaluated one after the other, texts standing for themselves. If every
expression has a value in the machine at the start, read without its blanks, then these are the values, in order; and
if one has not, the fault of the first of these is the fault of the statement. -/
theorem print_arguments_are_read_back {as : List PrintArg} (h : ∀ a ∈ as, a.IsWritable) (depth : Nat) (m : Machine) :
    let outcome := fun a : PrintArg => ((a.value (callAt depth)).perform m).1
    evalPrintArgs (callAt depth) (textOf as) = as.mapM (value (callAt depth)) ∧
    (∀ vs, ((evalPrintArgs (callAt depth) (textOf as)).perform m).1 = .ok vs ↔
      List.Forall₂ (fun a v => outcome a = .ok v) as vs) ∧
    ∀ f, ((evalPrintArgs (callAt depth) (textOf as)).perform m).1 = .error f ↔
      ∃ before a after, as = before ++ a :: after ∧ (∀ b ∈ before, ∃ v, outcome b = .ok v) ∧ outcome a = .error f := by
  intro outcome
  have heval : evalPrintArgs (callAt depth) (textOf as) = as.mapM (value (callAt depth)) := by
    rw [evalPrintArgs, ofText_textOf h, List.mapM_map]
    exact congrArg (as.mapM ·) (funext (eval_asRead (callAt depth)))
  have houtcome := outcome_mapM (keeps_value depth) (outcome_value depth) as (rfl : m.scope = m.scope)
  refine ⟨heval, fun vs => ?_, fun f => ?_⟩
  · rw [heval, houtcome, mapM_eq_ok_iff]
  · rw [heval, houtcome, mapM_eq_error_iff]

/-- A text with a comma and slashes, and a variable written with a blank, are printed as they stand; of two divisions
by zero behind a text, the first is the fault. -/
theorem text_and_variable_are_read_back :
    let m : Machine := { bindings := [("xy", .int 7)] }
    ((evalPrintArgs (callAt 1) "\"a, // b\", x y".toList).perform m).1 = .ok [.str "a, // b", .int 7] ∧
    ((evalPrintArgs (callAt 1) "\"\", 1 / 0, xy/0".toList).perform m).1 = .error .divisionByZero := by
  intro m
  constructor
  · have hwritable : ∀ a ∈ [PrintArg.text "a, // b", .expr ['x', ' ', 'y']], a.IsWritable := by
      simp only [List.forall_mem_cons, IsWritable]
      exact ⟨by decide, by decide, nofun⟩
    exact ((print_arguments_are_read_back hwritable 1 m).2.1 _).2 (.cons rfl (.cons (by cbv) .nil))
  · have hwritable : ∀ a ∈ [PrintArg.text "", .expr ['1', ' ', '/', ' ', '0'], .expr ['x', 'y', '/', '0']],
        a.IsWritable := by
      simp only [List.forall_mem_cons, IsWritable]
      exact ⟨by decide, by decide, by decide, nofun⟩
    exact ((print_arguments_are_read_back hwritable 1 m).2.2 _).2
      ⟨[.text ""], _, [_], rfl, List.forall_mem_singleton.2 ⟨.str "", rfl⟩, by cbv⟩

end PrintArg

end GzLang
