import Mathlib
import GzLang.Command.Compile
import GzLang.Proofs.Assistant

/-!
# Compiling without an aide

Without an aide, all the compiler does is to copy the text of the source file, and to run the copy if it
is asked to; whatever needs an aide is refused. Every step is followed here up to the log. The copy is
read as the same text as the source, so running it gives what the interpreter makes of the source. The
only thing written is the copy, and nothing can fail once it is written except the program that is run.
-/

namespace GzLang

open GzLang.Action

variable {path text : String} {inst : Installation} {args : List String}

theorem Interpreter.perform_run (code : String) (w : World) : (Interpreter.run code).perform ({}, w) =
      let a := (runSource code).perform {}
      (a.1, ({ machine := a.2 }, { w with out := w.out ++ a.2.out, err := w.err ++ a.2.err })) := rfl

namespace Command

variable {s file out : String} {w : World} {as : List Argument}

theorem perform_interpret (h : w.disk.content path = .ok (.text s)) : (interpret false [path]).perform w =
      let a := (runSource (String.ofList (Text.foldNewlines s.toList))).perform {}
      (a.1.map fun _ => none, { w with out := w.out ++ a.2.out, err := w.err ++ a.2.err }) := by
  rw [interpret, withSource, bind_of_ok (Job.perform_pathExists path w), Disk.has_of_content h]
  change ((Job.readText path).outcome >>= _).perform w = _
  have hread : ((Job.readText path).outcome).perform w = (.ok (w.disk.readText path), w) := rfl
  rw [bind_of_ok hread, Disk.readText_of_content h]
  generalize String.ofList (Text.foldNewlines s.toList) = code
  change (Task.from_ {} (Interpreter.run code >>= fun _ => Interpreter.shutDown >>= fun _ =>
    pure none)).perform w = _
  rw [Task.perform_from, perform_bind, Interpreter.perform_run]
  rcases (runSource code).perform {} with ⟨f | u, m⟩
  · rfl
  · rfl

namespace Compiler

variable {w : World} {Q : Except Fault Bool → World → Prop}

/-! ### Single steps -/

def ending (code : String) : Finished :=
  match (runSource code).perform {} with
  | (.ok _, m) => ⟨0, m.out, m.err⟩
  | (.error f, m) => ⟨1, m.out, m.err ++ f.report ++ "\n"⟩

theorem perform_runApart (h : w.disk.content path = .ok (.text s)) :
    (runApart path).perform w = (.ok (ending (String.ofList (Text.foldNewlines s.toList))), w) := by
  have hrun := perform_interpret (w := { w with out := "", err := "" }) h
  rw [runApart, perform_of, hrun, ending]
  rcases (runSource (String.ofList (Text.foldNewlines s.toList))).perform {} with ⟨f | u, m⟩
  · simp [Except.map]
  · simp [Except.map]

theorem perform_writeValue (h : w.disk.Writable path) (text : String) : (writeValue path (.str text)).perform w =
      (.ok (), { w with disk := Table.put w.disk (Disk.key path) (.file (.text text)) }) := by
  rw [writeValue, bind_of_ok (Job.perform_writeText h "")]
  change (Job.writeText path text).perform _ = _
  rw [Job.perform_writeText (h.put _), Table.put_put]

theorem perform_writeValue_of_not (h : ¬ w.disk.Writable path) (v : Value) :
    ∃ f, (writeValue path v).perform w = (.error f, w) := by
  obtain ⟨f, hf⟩ := Job.perform_writeText_of_not h ""
  exact ⟨f, by rw [writeValue, bind_of_error hf]⟩

/-! ### Following a compiler -/

/-- An action of a compiler ends with a result and in a world that have a property, and leaves the
compiler as it is. -/
def Leaves {α : Type} (a : Task Compiler α) (c : Compiler) (w : World)
    (Q : Except Fault α → World → Prop) : Prop :=
  ∃ r w', a.perform (c, w) = (r, (c, w')) ∧ Q r w'

section Leaves

variable {α β : Type} {c : Compiler} {w w' : World} {Q : Except Fault β → World → Prop}
  {f : α → Task Compiler β}
variable {a : Task Compiler α}

theorem leaves_pure {x : β} (h : Q (.ok x) w) : Leaves (pure x) c w Q := ⟨_, _, rfl, h⟩

theorem leaves_bind {x : α} (ha : a.perform (c, w) = (.ok x, (c, w')))
    (h : Leaves (f x) c w' Q) : Leaves (a >>= f) c w Q := by
  rw [Leaves, bind_of_ok ha]
  exact h

theorem Leaves.bind {P : Except Fault α → World → Prop} (ha : Leaves a c w P)
    (hok : ∀ x w', P (.ok x) w' → Leaves (f x) c w' Q) (herror : ∀ e w', P (.error e) w' → Q (.error e) w') :
    Leaves (a >>= f) c w Q := by
  obtain ⟨r, w', hr, hP⟩ := ha
  cases r with
  | ok x => exact leaves_bind hr (hok x w' hP)
  | error e => exact ⟨_, _, bind_of_error hr _, herror e w' hP⟩

theorem leaves_self {f : Compiler → Task Compiler β} (h : Leaves (f c) c w Q) : Leaves (Task.self >>= f) c w Q :=
  leaves_bind (Task.perform_self c w) h

theorem leaves_info {f : Unit → Task Compiler β} (h : ∀ log, Leaves (f ()) c { w with log := log } Q) :
    Leaves (info text >>= f) c w Q :=
  leaves_bind (x := ()) rfl (h (w.log ++ ["INFO " ++ text]))

theorem leaves_printLine {f : Unit → Task Compiler β}
    (h : Leaves (f ()) c { w with out := w.out ++ (text ++ "\n") } Q) :
    Leaves (liftM (Job.printLine text) >>= f) c w Q :=
  leaves_bind (x := ()) rfl h

theorem leaves_ite_of_notes {a b : Task Compiler β} {p : Prop} [Decidable p]
    (ha : (∀ log, Leaves b c { w with log := log } Q) → Leaves a c w Q)
    (hb : ∀ log, Leaves b c { w with log := log } Q) : Leaves (if p then a else b) c w Q := by
  split
  · exact ha hb
  · exact hb w.log

theorem leaves_fail {Q : Except Fault Bool → World → Prop}
    (h : ∀ log, Q (.ok false) { w with log := log }) : Leaves (fail text) c w Q :=
  ⟨_, _, rfl, h (w.log ++ ["ERROR " ++ text])⟩

theorem leaves_withAide (hc : c.aide = none) {Q : Except Fault Bool → World → Prop}
    {purpose : String} {a : Task Compiler Bool} (h : ∀ log, Q (.ok false) { w with log := log }) :
    Leaves (withAide purpose a) c w Q := by
  refine leaves_self ?_
  rw [hc]
  exact leaves_fail h

theorem Leaves.perform_from {a : Task Compiler β} (h : Leaves a c w Q) :
    ∃ r w', (Task.from_ c a).perform w = (r, w') ∧ Q r w' := by
  obtain ⟨r, w', hr, hQ⟩ := h
  exact ⟨r, w', by rw [Task.perform_from, hr], hQ⟩

end Leaves

/-! ### Compilers without an aide -/

theorem leaves_runProgram (hinst : inst.interpreter) (h : w.disk.content path = .ok (.text s)) (c : Compiler) :
    let e := ending (String.ofList (Text.foldNewlines s.toList))
    Leaves (runProgram inst path) c w fun r w' => r = .ok (decide (e.status = 0)) ∧
      ∃ log, w' = { w with
        out := w.out ++ ((if e.status = 0 then e.out else e.err) ++ "\n"), log := log } := by
  intro e
  have hapart (log : List String) : (liftM (runApart path) : Task Compiler Finished).perform
      (c, { w with log := log }) = (.ok e, (c, { w with log := log })) := by
    rw [Task.perform_lift, perform_runApart (w := { w with log := log }) h]
  refine leaves_self (leaves_info fun log => ?_)
  rw [hinst]
  refine leaves_bind (hapart log) ?_
  split
  next hstatus =>
    refine leaves_printLine (leaves_info fun log' => leaves_pure ⟨?_, log', rfl⟩)
    rw [decide_eq_true hstatus]
  next hstatus =>
    refine leaves_printLine (leaves_fail fun log' => ⟨?_, log', rfl⟩)
    rw [decide_eq_false hstatus]

variable {c : Compiler} (hc : c.aide = none)
include hc

/-- Code is compiled by writing it to the output file, which may fail, and running it if asked to. -/
theorem leaves_compileCode {code : String} (hfail : ¬ w.disk.Writable (c.options.output ++ ".gz") →
      ∀ f log, Q (.error f) { w with log := log })
    (hdone : w.disk.Writable (c.options.output ++ ".gz") → ∀ log,
      let w' := { w with
      disk := Table.put w.disk (Disk.key (c.options.output ++ ".gz")) (.file (.text code))
      log := log }
      if c.options.run then Leaves (runProgram inst (c.options.output ++ ".gz")) c w' Q
      else Q (.ok true) w') :
    Leaves (compileCode inst path code) c w Q := by
  have hcorrect (w : World) : (correctCode (.str code)).perform (c, w) = (.ok (.str code), (c, w)) := by
    rw [correctCode, bind_self, hc]
    rfl
  have hoptimize (w : World) : (optimizeCode (.str code)).perform (c, w) = (.ok (.str code), (c, w)) := by
    rw [optimizeCode, bind_self, hc]
    rfl
  refine leaves_self (leaves_bind (hcorrect w) ?_)
  refine leaves_ite_of_notes (fun h => leaves_info fun _ => leaves_info fun _ => leaves_info h) fun log => ?_
  refine leaves_bind (hoptimize _) ?_
  by_cases hw : w.disk.Writable (c.options.output ++ ".gz")
  · have hwrite := perform_writeValue (w := { w with log := log }) hw code
    refine leaves_bind (x := ()) (by rw [Task.perform_lift, hwrite]) ?_
    refine leaves_ite_of_notes (fun h => leaves_info h) fun log' => ?_
    have hdone := hdone hw log'
    split
    next hrun =>
      rw [hrun] at hdone
      refine hdone.bind (fun b w' hb => ?_) fun _ _ he => he
      cases b with
      | false => exact leaves_pure hb
      | true =>
        refine leaves_self ?_
        rw [hc]
        exact leaves_pure hb
    next hrun =>
      rw [if_neg hrun] at hdone
      refine leaves_self ?_
      rw [hc]
      exact leaves_pure hdone
  · obtain ⟨f, hf⟩ := perform_writeValue_of_not (w := { w with log := log }) hw (.str code)
    refine ⟨_, _, bind_of_error ?_ _, hfail hw f log⟩
    rw [Task.perform_lift, hf]

/-- The disk is the given one unless all went well. -/
def Spares (d : Disk) (r : Except Fault Bool) (w : World) : Prop :=
  r ≠ .ok true → w.disk = d

theorem leaves_compileFile_spares (inst : Installation) (path : String) (hrun : c.options.run = false)
    (w : World) : Leaves (compileFile inst path) c w (Spares w.disk) := by
  have hcompile (code : String) (log : List String) :
      Leaves (compileCode inst path code) c { w with log := log } (Spares w.disk) := by
    refine leaves_compileCode hc (fun _ _ _ _ => rfl) fun _ _ => ?_
    rw [hrun]
    exact fun h => absurd rfl h
  have hread : ((Task.job (Job.readText path)).outcome : Task Compiler _).perform (c, w) =
      (.ok (w.disk.readText path), (c, w)) := rfl
  refine leaves_self (leaves_bind (x := w.disk.has path) rfl ?_)
  split
  · exact leaves_fail fun _ _ => rfl
  · refine leaves_bind hread ?_
    cases w.disk.readText path with
    | error f => exact leaves_fail fun _ _ => rfl
    | ok code =>
      dsimp only
      split
      · exact leaves_withAide hc fun _ _ => rfl
      · split
        · exact hcompile code w.log
        · split
          · exact leaves_fail fun _ _ => rfl
          · refine leaves_bind (x := (Ui.Design.compile {} code).1.code) rfl ?_
            exact hcompile _ _

theorem leaves_compileOrGenerate_spares (inst : Installation) (hrun : c.options.run = false)
    (w : World) : Leaves (compileOrGenerate inst) c w (Spares w.disk) := by
  refine leaves_self ?_
  dsimp only
  cases c.options.generate with
  | none =>
    cases given? c.options.source with
    | none => exact leaves_fail fun _ _ => rfl
    | some path => exact leaves_compileFile_spares hc inst path hrun w
  | some description =>
    have hgenerate : Leaves (generateCode description) c w fun r w' =>
        r = .ok false ∧ w'.disk = w.disk := leaves_withAide hc fun _ => ⟨rfl, rfl⟩
    refine hgenerate.bind ?_ ?_
    · rintro b w' ⟨hb, hdisk⟩
      cases hb
      exact leaves_pure fun _ => hdisk
    · rintro e w' ⟨he, -⟩
      cases he

theorem leaves_work_spares (inst : Installation) (hrun : c.options.run = false) (w : World) :
    Leaves (work inst) c w (Spares w.disk) := by
  have hrefused (purpose : String) (a : Task Compiler Bool) :
      Leaves (withAide purpose a) c w (Spares w.disk) := leaves_withAide hc fun _ _ => rfl
  refine leaves_self ?_
  dsimp only
  split
  · exact hrefused ..
  split
  · exact hrefused ..
  split
  · exact hrefused ..
  cases given? c.options.learn with
  | some path => exact hrefused ..
  | none =>
    cases given? c.options.optimize with
    | some path => exact hrefused ..
    | none => exact leaves_compileOrGenerate_spares hc inst hrun w

omit hc

def copying (file out : String) (run : Bool) : Options :=
  { source := some file, output := out, noLearning := true, run := run }

def folded (s : String) : String := String.ofList (Text.foldNewlines s.toList)

def withCopy (d : Disk) (out s : String) : Disk :=
  Table.put d (Disk.key (out ++ ".gz")) (.file (.text (folded s)))

theorem leaves_work_copying {run : Bool} (hs : w.disk.content file = .ok (.text s))
    (hw : w.disk.Writable (out ++ ".gz")) (h : ∀ log,
      let w' := { w with disk := withCopy w.disk out s, log := log }
      if run then Leaves (runProgram inst (out ++ ".gz")) { options := copying file out run } w' Q
      else Q (.ok true) w') :
    Leaves (work inst) { options := copying file out run } w Q := by
  have hgiven : given? (some file) = some file := by
    have hfile : file.isEmpty = false := by simpa using Disk.ne_empty_of_content hs
    simp [given?, hfile]
  have hread : ((Task.job (Job.readText file)).outcome : Task Compiler _).perform
      ({ options := copying file out run }, w) =
      (.ok (.ok (folded s)), ({ options := copying file out run }, w)) := by
    rw [folded, ← Disk.readText_of_content hs]
    rfl
  refine leaves_self (leaves_self ?_)
  simp only [copying, hgiven]
  refine leaves_self (leaves_bind (x := true) ?_ (leaves_bind hread ?_))
  · rw [← Disk.has_of_content hs]
    rfl
  · exact leaves_compileCode rfl (fun hnot => absurd hw hnot) fun _ => h

end Compiler

/-! ### The command -/

theorem perform_noteMissing (inst : Installation) (w : World) :
    ∃ log, (noteMissing inst).perform w = (.ok (), { w with log := log }) := by
  rw [noteMissing]
  cases inst.aide <;> cases inst.interface <;> exact ⟨_, rfl⟩

/-- Without an aide, the command does the work and says whether it went well. -/
theorem perform_compile {o : Options} (hargs : Options.ofArguments args = .ok o)
    (ho : o.noLearning) {Q : Except Fault Bool → World → Prop}
    (hwork : ∀ log, Compiler.Leaves (Compiler.work inst) { options := o } { w with log := log } Q) :
    ∃ r w', (compile inst args).perform w = (r.map fun b => some (if b then 0 else 1), w') ∧ Q r w' := by
  obtain ⟨log, hlog⟩ := perform_noteMissing inst w
  have haide (w : World) : (Compiler.startAide inst).perform ({ options := o }, w) =
      (.ok (), ({ options := o }, w)) := by
    rw [Compiler.startAide, bind_self]
    cases inst.aide with
    | none => rfl
    | some kind =>
      dsimp only
      rw [if_pos ho]
      rfl
  obtain ⟨_, w', hperform, r, rfl, hr⟩ : ∃ e w', (compile inst args).perform w = (e, w') ∧
      ∃ r, e = r.map (fun b => some (if b then 0 else 1)) ∧ Q r w' := by
    rw [compile, bind_of_ok hlog, hargs]
    refine Compiler.Leaves.perform_from (Compiler.leaves_bind (haide _) ?_)
    refine Compiler.leaves_ite_of_notes (fun h => Compiler.leaves_bind (x := ()) rfl (h _)) fun log => ?_
    refine (hwork log).bind (fun b w' hb => ?_) fun e w' he => ⟨.error e, rfl, he⟩
    exact Compiler.leaves_bind (x := none) rfl (Compiler.leaves_pure ⟨.ok b, rfl, hb⟩)
  exact ⟨r, w', hperform, hr⟩

/-! ### Reading the arguments -/

theorem classify_of_not_dash (h : s.toList.head? ≠ some '-') : classify s = .ok (.plain s) := by
  rw [classify, if_pos h]

theorem ne_separator_of_not_dash (h : s.toList.head? ≠ some '-') : s ≠ "--" := by
  rintro rfl
  exact h rfl

theorem classifyAll_cons {rest : List String} {a : Argument}
    (hs : s ≠ "--") (ha : classify s = .ok a) (has : classifyAll rest = .ok as) :
    classifyAll (s :: rest) = .ok (a :: as) := by
  rw [classifyAll, if_neg hs, ha, has]
  rfl

theorem readArguments_flag (r : Reading) (names : List String) (set : Options → Options)
    (name : String) (rest : List Argument) :
    readArguments r (.option ⟨names, .flag set⟩ name none :: rest) =
      readArguments { r with given := set r.given } rest := by
  rw [readArguments]
  rfl

theorem readArguments_value (r : Reading) (names : List String)
    {set : String → Options → Except String Options} {v : String} (hv : v ≠ "--") {given : Options}
    (hset : set v r.given = .ok given) (name : String) (rest : List Argument) :
    readArguments r (.option ⟨names, .value set⟩ name none :: .plain v :: rest) =
      readArguments { r with given := given } rest := by
  have happly : applyOption r.given ⟨names, .value set⟩ v = .ok given := by
    rw [applyOption]
    simp only [if_neg hv, hset]
  have hread : readOption r.given ⟨names, .value set⟩ name none (some (.plain v)) = .ok (given, true) := by
    change (applyOption r.given ⟨names, .value set⟩ v >>= fun o => pure o) >>= _ = _
    rw [happly]
    rfl
  rw [readArguments, List.head?_cons, hread]
  rfl

theorem readArguments_source {r : Reading} (hr : r.open) (s : String) (o : Opt) (name : String)
    (value : Option String) (rest : List Argument) :
    readArguments r (.plain s :: .option o name value :: rest) =
      readArguments { r with given := { r.given with source := some s }, «open» := false }
        (.option o name value :: rest) := by
  rw [readArguments, if_pos hr]
  all_goals simp

theorem ofArguments_of_read (hargs : classifyAll args = .ok as) {o : Options}
    {b : Bool} (hread : readArguments {} as = .ok { given := o, «open» := b }) :
    Options.ofArguments args = .ok o := by
  rw [Options.ofArguments, hargs]
  change (readArguments {} as >>= _) = _
  rw [hread]
  rfl

theorem ofArguments_copying (hfile : file.toList.head? ≠ some '-') (hout : out.toList.head? ≠ some '-') :
    Options.ofArguments ["--no-ai", file, "-o", out] = .ok (Compiler.copying file out false) ∧
      Options.ofArguments ["--no-ai", file, "-o", out, "-r"] = .ok (Compiler.copying file out true) := by
  let noAide : Opt := ⟨["--no-ai"], .flag fun o => { o with noLearning := true }⟩
  let output : Opt := ⟨["-o", "--output"], .value fun s o => .ok { o with output := s }⟩
  let run : Opt := ⟨["-r", "--run"], .flag fun o => { o with run := true }⟩
  have hclassify {rest : List String} {as : List Argument} (hrest : classifyAll rest = .ok as) :
      classifyAll ("--no-ai" :: file :: "-o" :: out :: rest) = .ok (.option noAide "--no-ai" none ::
        .plain file :: .option output "-o" none :: .plain out :: as) := by
    refine classifyAll_cons (by decide) rfl ?_
    refine classifyAll_cons (ne_separator_of_not_dash hfile) (classify_of_not_dash hfile) ?_
    refine classifyAll_cons (by decide) rfl ?_
    exact classifyAll_cons (ne_separator_of_not_dash hout) (classify_of_not_dash hout) hrest
  have hread (as : List Argument) : readArguments {} (.option noAide "--no-ai" none ::
      .plain file :: .option output "-o" none :: .plain out :: as) =
        readArguments { given := Compiler.copying file out false, «open» := false } as := by
    rw [readArguments_flag, readArguments_source rfl, readArguments_value _ _ (ne_separator_of_not_dash hout) rfl]
    rfl
  constructor
  · refine ofArguments_of_read (b := false) (hclassify rfl) ((hread []).trans ?_)
    rw [readArguments]
  · have hrun : classifyAll ["-r"] = .ok [.option run "-r" none] := classifyAll_cons (by decide) rfl rfl
    refine ofArguments_of_read (b := false) (hclassify hrun) ((hread _).trans ?_)
    rw [readArguments_flag, readArguments]
    rfl

/-! ### What the command does -/

section Copying

variable {w : World} {file out s : String} (hfile : file.toList.head? ≠ some '-')
  (hout : out.toList.head? ≠ some '-') (hs : w.disk.content file = .ok (.text s))
  (hw : w.disk.Writable (out ++ ".gz"))
include hfile hout hs hw

theorem perform_compile_copying (inst : Installation) : ∃ log, (compile inst ["--no-ai", file, "-o", out]).perform w =
      (.ok (some 0), { w with disk := Compiler.withCopy w.disk out s, log := log }) := by
  have hwork (log : List String) : Compiler.Leaves (Compiler.work inst)
      { options := Compiler.copying file out false } { w with log := log } fun r w' => r = .ok true ∧
        ∃ log, w' = { w with disk := Compiler.withCopy w.disk out s, log := log } :=
    Compiler.leaves_work_copying (w := { w with log := log }) hs hw fun log' => ⟨rfl, log', rfl⟩
  obtain ⟨_, _, hperform, rfl, log, rfl⟩ := perform_compile (ofArguments_copying hfile hout).1 rfl hwork
  exact ⟨log, hperform⟩

/-- The copy that is run is read as the same text as the source file. -/
theorem perform_compile_running (hinst : inst.interpreter) :
    let e := Compiler.ending (Compiler.folded s)
    ∃ log, (compile inst ["--no-ai", file, "-o", out, "-r"]).perform w =
      (.ok (some (if e.status = 0 then 0 else 1)), { w with
        disk := Compiler.withCopy w.disk out s
        out := w.out ++ ((if e.status = 0 then e.out else e.err) ++ "\n")
        log := log }) := by
  intro e
  have hfolded : String.ofList (Text.foldNewlines (Compiler.folded s).toList) = Compiler.folded s := by
    rw [Compiler.folded, String.toList_ofList, Text.foldNewlines_foldNewlines]
  have hwork (log : List String) : Compiler.Leaves (Compiler.work inst)
      { options := Compiler.copying file out true } { w with log := log } fun r w' =>
        r = .ok (decide (e.status = 0)) ∧ ∃ log, w' = { w with
          disk := Compiler.withCopy w.disk out s
          out := w.out ++ ((if e.status = 0 then e.out else e.err) ++ "\n")
          log := log } := by
    refine Compiler.leaves_work_copying (w := { w with log := log }) hs hw fun log' => ?_
    have hrun := Compiler.leaves_runProgram (w := { w with
      disk := Compiler.withCopy w.disk out s, log := log' }) hinst (hw.content_put _)
      { options := Compiler.copying file out true }
    rw [hfolded] at hrun
    exact hrun
  obtain ⟨_, _, hperform, rfl, log, rfl⟩ := perform_compile (ofArguments_copying hfile hout).2 rfl hwork
  refine ⟨log, ?_⟩
  rw [hperform]
  simp [Except.map]

end Copying

/-- The interpreter ends with a fault exactly if running its file apart does not end with status 0. -/
theorem ending_of_interpret (hs : w.disk.content file = .ok (.text s)) :
    let a := (interpret false [file]).perform { w with out := "", err := "" }
    (∀ e, a.1 = .ok e → Compiler.ending (Compiler.folded s) = ⟨0, a.2.out, a.2.err⟩) ∧
      ∀ f, a.1 = .error f → Compiler.ending (Compiler.folded s) = ⟨1, a.2.out, a.2.err ++ f.report ++ "\n"⟩ := by
  intro a
  have ha : a = _ := perform_interpret (w := { w with out := "", err := "" }) hs
  rw [ha, Compiler.ending, Compiler.folded]
  rcases (runSource (String.ofList (Text.foldNewlines s.toList))).perform {} with ⟨f | u, m⟩
  · simp [Except.map]
  · simp [Except.map]

/-- Without an aide, and if no program is run, a command that fails leaves the disk as it was. -/
theorem disk_of_failed_compile (hargs : ∀ o, Options.ofArguments args = .ok o → o.noLearning ∧ o.run = false) :
    let b := (compile inst args).perform w
    b.1 ≠ .ok (some 0) → b.2.disk = w.disk := by
  intro b hb
  cases ho : Options.ofArguments args with
  | ok o =>
    obtain ⟨hlearning, hrun⟩ := hargs o ho
    have hwork (log : List String) : Compiler.Leaves (Compiler.work inst) { options := o }
        { w with log := log } (Compiler.Spares w.disk) :=
      Compiler.leaves_work_spares rfl inst hrun { w with log := log }
    obtain ⟨r, w', hperform, hspares⟩ := perform_compile ho hlearning hwork
    have hbw : b = _ := hperform
    rw [hbw] at hb ⊢
    refine hspares fun hr => hb ?_
    rw [hr]
    rfl
  | error refusal =>
    obtain ⟨log, hlog⟩ := perform_noteMissing inst w
    change ((compile inst args).perform w).2.disk = w.disk
    rw [compile, bind_of_ok hlog, ho]
    cases refusal <;> rfl

def divisionDisk : Disk := [("p.gz", .file (.text "simula main\r\n balik 1 / 0\r\n"))]

theorem content_divisionDisk : divisionDisk.content "p.gz" = .ok (.text "simula main\r\n balik 1 / 0\r\n") := by
  cbv

theorem writable_divisionDisk : divisionDisk.Writable ("b" ++ ".gz") := by
  refine Disk.writable_of_absent ?_ ?_
  · cbv
  · cbv

theorem perform_division :
    (runSource (String.ofList (Text.foldNewlines "simula main\r\n balik 1 / 0\r\n".toList))).perform {} =
      (.error .divisionByZero, {
        bindings := [(mainFlag, .bool true)]
        functions := [("main", ⟨[], [⟨2, 1, "balik 1 / 0"⟩]⟩)]
        line := 2 }) := by
  cbv

end Command

end GzLang
