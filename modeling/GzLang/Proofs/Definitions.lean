import GzLang.Proofs.Scope

/-!
# The definitions of a program

The definitions of a program are the lines that define a function, where the body of each is skipped
(`definitions`). A run takes them in order: it adds the functions one by one and calls `main` where
it is defined first (`Runs`, `runs_iff`). A call leaves the variables and the functions alone, so what
the machine knows after a run is a matter of the definitions, and so is the state in which `main` was
called (`Runs.knows`). Several programs on one machine call it once (`main_runs_once`).
-/

namespace GzLang

open GzLang.Action List Line Machine

variable {name : String} {params : List String} {calls : List Machine}

variable {l : Line} {d : Definition} {lines : List Line} {ds : List Definition}
variable {m n : Machine} {codes : List String} {rest : List Line} {code : String}

structure Definition where
  number : Nat
  name : String
  function : Function
  deriving DecidableEq, Repr

def Line.defined (l : Line) (rest : List Line) (name : String) (params : List String) : Definition :=
  ⟨l.number, name, ⟨params, block l.indent rest⟩⟩

/-- The definitions at the top of a program: the lines that belong to one are skipped. -/
def definitions (lines : List Line) : List Definition :=
  match lines with
  | [] => []
  | l :: rest =>
    match definition? l.content with
    | some (name :: params) =>
      l.defined rest name params :: definitions (afterBlock l.indent rest)
    | _ => definitions rest
termination_by lines.length
decreasing_by
  all_goals simp only [length_cons]
  all_goals
    have := length_afterBlock_le l.indent rest
    omega

theorem definitions_of_none (h : definition? l.content = none) (rest : List Line) :
    definitions (l :: rest) = definitions rest := by
  rw [definitions, h]

theorem definitions_of_some (h : definition? l.content = some (name :: params)) (rest : List Line) :
    definitions (l :: rest) = l.defined rest name params :: definitions (afterBlock l.indent rest) := by
  rw [definitions, h]

/-! ### The lines of a source -/

theorem Line.exists_of_mem_ofSource (h : l ∈ ofSource code) :
    ∃ s ∈ Text.lines code.toList, l.content.toList = Text.trim (beforeComment s) := by
  obtain ⟨⟨s, n⟩, hs, hl⟩ := mem_filterMap.1 h
  refine ⟨s, (mem_zipIdx hs).2.2 ▸ getElem_mem _, ?_⟩
  simp only [read?] at hl
  split at hl
  · cases hl
  · cases hl
    simp

theorem Line.newline_not_mem (h : l ∈ ofSource code) : '\n' ∉ l.content.toList := by
  obtain ⟨s, hs, hl⟩ := exists_of_mem_ofSource h
  rw [hl]
  intro hmem
  have hcode := Text.mem_of_mem_trim hmem
  refine Text.not_mem_of_mem_splitAll hs ?_
  unfold beforeComment at hcode
  split at hcode
  · rename_i code rest hcut
    rw [Text.eq_append_of_cutFirst hcut]
    exact mem_append_left _ hcode
  · exact hcode

def Named (lines : List Line) : Prop :=
  ∀ l ∈ lines, definition? l.content ≠ some []

theorem Named.of_cons (h : Named (l :: rest)) : Named rest := fun k hk => h k (mem_cons_of_mem l hk)

theorem Named.afterBlock (h : Named rest) (k : Nat) : Named (afterBlock k rest) :=
  fun l hl => h l ((dropWhile_sublist _).subset hl)

/-- The content of a line ends with no blank, so a definition has a name. -/
theorem named_ofSource (code : String) : Named (ofSource code) := by
  intro l hl h
  obtain ⟨s, -, hs⟩ := exists_of_mem_ofSource hl
  obtain ⟨r, hr, hwords⟩ := Option.map_eq_some_iff.1 h
  have hblank := (Text.blank_of_wordsFrom (map_eq_nil_iff.1 hwords)).2
  have htrim := Text.trimRight_trim (beforeComment s)
  rw [← hs, Statement.eq_of_after? hr, Text.trimRight_blanks (forall_mem_cons.2 ⟨rfl, hblank⟩)] at htrim
  have hword : Text.trimRight "simula".toList = "simula".toList := by decide
  rw [hword] at htrim
  simp at htrim

/-! ### Functions -/

def addFunctions (t : Table Function) (ds : List Definition) : Table Function :=
  ds.foldl (fun t d => Table.put t d.name d.function) t

theorem get?_addFunctions (t : Table Function) (ds : List Definition) (name : String) :
    Table.get? (addFunctions t ds) name =
      ((ds.filter (·.name = name)).getLast?.map (·.function)).or (Table.get? t name) := by
  induction ds using reverseRecOn with
  | nil => rfl
  | append_singleton ds d ih =>
    rw [addFunctions, foldl_append]
    change Table.get? (Table.put (addFunctions t ds) d.name d.function) name = _
    by_cases hd : d.name = name
    · subst hd
      simp [filter_append]
    · rw [Table.get?_put_of_ne _ hd, ih]
      simp [filter_append, hd]

/-! ### Runs -/

def Machine.added (m : Machine) (d : Definition) : Machine :=
  { m with line := d.number, functions := Table.put m.functions d.name d.function }

def Machine.flagged (m : Machine) : Machine :=
  { m with bindings := Table.put m.bindings mainFlag (.bool true) }

/-- The lines of a program run from one machine to another, and `main` is called in the given
machines on the way. -/
inductive Runs : List Line → Machine → List Machine → Machine → Prop
  | done (m : Machine) : Runs [] m [] m
  | skip {l : Line} {rest : List Line} {m n : Machine} {calls : List Machine}
    (hl : definition? l.content = none) (h : Runs rest { m with line := l.number } calls n) :
    Runs (l :: rest) m calls n
  | add {l : Line} {rest : List Line} {m n : Machine} {calls : List Machine} {name : String}
    {params : List String} (hl : definition? l.content = some (name :: params))
    (hmain : ¬ (name = "main" ∧ m.mainCalled = false))
    (h : Runs (afterBlock l.indent rest) (m.added (l.defined rest name params)) calls n) :
    Runs (l :: rest) m calls n
  | main {l : Line} {rest : List Line} {m m' n : Machine} {calls : List Machine}
    {params : List String} {v : Value} (hl : definition? l.content = some ("main" :: params))
    (hmain : m.mainCalled = false)
    (hcall : (callFunction "main" []).perform (m.added (l.defined rest "main" params)).flagged =
      (.ok v, m'))
    (h : Runs (afterBlock l.indent rest) m' calls n) :
    Runs (l :: rest) m ((m.added (l.defined rest "main" params)).flagged :: calls) n

theorem perform_define_of_not (h : ¬ (d.name = "main" ∧ m.mainCalled = false)) :
    (define d.name d.function).perform { m with line := d.number } = (.ok (), m.added d) := by
  unfold define
  rw [bind_of_ok (perform_modify ..), bind_get, if_neg]
  · rfl
  · rintro ⟨hname, hflag⟩
    exact h ⟨hname, by simpa [mainCalled] using hflag⟩

theorem perform_define_main (hd : d.name = "main") (h : m.mainCalled = false) :
    (define d.name d.function).perform { m with line := d.number } =
      match (callFunction "main" []).perform (m.added d).flagged with
      | (.ok _, n) => (.ok (), n)
      | (.error e, n) => (.error e, n) := by
  unfold define
  rw [bind_of_ok (perform_modify ..), bind_get, if_pos]
  · rw [bind_of_ok (perform_assign ..), perform_bind]
    unfold flagged added
    rcases (callFunction "main" []).perform _ with ⟨e | v, n⟩ <;> rfl
  · exact ⟨hd, by simpa [mainCalled] using h⟩

theorem perform_runLines_of_none (hl : definition? l.content = none) (rest : List Line) (m : Machine) :
    (runLines (l :: rest)).perform m = (runLines rest).perform { m with line := l.number } := by
  rw [runLines, bind_of_ok (perform_atLine ..), hl]

theorem perform_runLines_of_some (hl : definition? l.content = some (name :: params)) (rest : List Line)
    (m : Machine) : (runLines (l :: rest)).perform m =
      (define (l.defined rest name params).name (l.defined rest name params).function >>= fun _ =>
        runLines (afterBlock l.indent rest)).perform { m with line := (l.defined rest name params).number } := by
  rw [runLines, bind_of_ok (perform_atLine ..), hl]
  rfl

theorem perform_runLines_of_not_main (hl : definition? l.content = some (name :: params))
    (rest : List Line) (h : ¬ (name = "main" ∧ m.mainCalled = false)) : (runLines (l :: rest)).perform m =
      (runLines (afterBlock l.indent rest)).perform (m.added (l.defined rest name params)) := by
  rw [perform_runLines_of_some hl, bind_of_ok (perform_define_of_not h)]

theorem exists_runs (h : (runLines lines).perform m = (.ok (), n)) : ∃ calls, Runs lines m calls n := by
  induction hlen : lines.length using Nat.strongRecOn generalizing lines m with
  | ind k ih =>
    cases lines with
    | nil =>
      rw [runLines] at h
      cases h
      exact ⟨[], .done _⟩
    | cons l rest =>
      have hafter := length_afterBlock_le l.indent rest
      rw [length_cons] at hlen
      cases hl : definition? l.content with
      | none =>
        rw [perform_runLines_of_none hl] at h
        obtain ⟨calls, hruns⟩ := ih _ (by omega) h rfl
        exact ⟨calls, .skip hl hruns⟩
      | some words =>
        cases words with
        | nil =>
          rw [runLines, bind_of_ok (perform_atLine ..), hl] at h
          cases h
        | cons name params =>
          by_cases hmain : name = "main" ∧ m.mainCalled = false
          · obtain ⟨rfl, hflag⟩ := hmain
            rw [perform_runLines_of_some hl] at h
            obtain ⟨_, m₁, hdef, h⟩ := bind_eq_ok.1 h
            obtain ⟨calls, hruns⟩ := ih _ (by omega) h rfl
            rw [perform_define_main rfl hflag] at hdef
            split at hdef
            · rename_i v m' hcall
              cases hdef
              exact ⟨_, .main hl hflag hcall hruns⟩
            · cases hdef
          · rw [perform_runLines_of_not_main hl rest hmain] at h
            obtain ⟨calls, hruns⟩ := ih _ (by omega) h rfl
            exact ⟨calls, .add hl hmain hruns⟩

theorem Runs.perform_runLines (h : Runs lines m calls n) : (runLines lines).perform m = (.ok (), n) := by
  induction h with
  | done m => rw [runLines]; rfl
  | skip hl _ ih =>
    rw [perform_runLines_of_none hl]
    exact ih
  | add hl hmain _ ih =>
    rw [perform_runLines_of_not_main hl _ hmain]
    exact ih
  | @main l rest m m' n calls params v hl hmain hcall _ ih =>
    have hdef := perform_define_main (d := l.defined rest "main" params) rfl hmain
    rw [hcall] at hdef
    rw [perform_runLines_of_definition hl hdef, ih]

/-- Running the lines is running them in the sense of `Runs`. -/
theorem runs_iff : (runLines lines).perform m = (.ok (), n) ↔ ∃ calls, Runs lines m calls n :=
  ⟨exists_runs, fun ⟨_, h⟩ => h.perform_runLines⟩

/-- Programs run one after another from one machine to another, and `main` is called in the given
machines on the way. -/
inductive RunsAll : List String → Machine → List Machine → Machine → Prop
  | nil (m : Machine) : RunsAll [] m [] m
  | cons {code : String} {codes : List String} {m m' n : Machine} {calls calls' : List Machine}
    (h : Runs (ofSource code) m calls m') (h' : RunsAll codes m' calls' n) :
    RunsAll (code :: codes) m (calls ++ calls') n

theorem runsAll_iff : (forM codes runSource).perform m = (.ok (), n) ↔ ∃ calls, RunsAll codes m calls n := by
  induction codes generalizing m with
  | nil =>
    constructor
    · intro h
      cases h
      exact ⟨[], .nil _⟩
    · rintro ⟨_, ⟨⟩⟩
      rfl
  | cons code codes ih =>
    rw [forM_cons, bind_eq_ok]
    constructor
    · rintro ⟨_, m', h, h'⟩
      obtain ⟨calls, hruns⟩ := runs_iff.1 h
      obtain ⟨calls', hruns'⟩ := ih.1 h'
      exact ⟨calls ++ calls', .cons hruns hruns'⟩
    · rintro ⟨_, hall⟩
      cases hall with
      | cons h h' => exact ⟨(), _, runs_iff.2 ⟨_, h⟩, ih.2 ⟨_, h'⟩⟩

/-! ### What a run leaves behind -/

/-- The machine in which `main` is called by its first definition, after other definitions. -/
def Machine.atMain (pre : List Definition) (d : Definition) : Machine where
  bindings := [(mainFlag, .bool true)]
  functions := addFunctions [] (pre ++ [d])
  line := d.number

/-- The machines in which `main` is called by a run of the given definitions from the start: one, at
the first definition of it, with the functions defined up to there. -/
def mainCalls (ds : List Definition) : List Machine :=
  match ds.dropWhile (·.name ≠ "main") with
  | [] => []
  | d :: _ => [atMain (ds.takeWhile (·.name ≠ "main")) d]

theorem mainCalls_of_not_main (h : ∀ d ∈ ds, d.name ≠ "main") : mainCalls ds = [] := by
  have : ds.dropWhile (·.name ≠ "main") = [] := by simpa using h
  rw [mainCalls, this]

theorem mainCalls_of_first (h : ∀ d ∈ ds, d.name ≠ "main") (hd : d.name = "main") (es : List Definition) :
    mainCalls (ds ++ d :: es) = [atMain ds d] := by
  have hdrop : (ds ++ d :: es).dropWhile (·.name ≠ "main") = d :: es := by
    rw [dropWhile_append_of_pos (by simpa using h)]
    simp [hd]
  have htake : (ds ++ d :: es).takeWhile (·.name ≠ "main") = ds := by
    rw [takeWhile_append_of_pos (by simpa using h)]
    simp [hd]
  rw [mainCalls, hdrop, htake]

theorem exists_first_main (h : ∃ d ∈ ds, d.name = "main") :
    ∃ pre d post, ds = pre ++ d :: post ∧ d.name = "main" ∧ ∀ e ∈ pre, e.name ≠ "main" := by
  induction ds with
  | nil =>
    obtain ⟨_, hd, _⟩ := h
    cases hd
  | cons d ds ih =>
    by_cases hd : d.name = "main"
    · exact ⟨[], d, ds, rfl, hd, by simp⟩
    · obtain ⟨e, he, hname⟩ := h
      rcases mem_cons.1 he with rfl | he
      · exact absurd hname hd
      · obtain ⟨pre, d', post, rfl, hd', hpre⟩ := ih ⟨e, he, hname⟩
        exact ⟨d :: pre, d', post, rfl, hd', by simpa using ⟨hd, hpre⟩⟩

/-- Once `main` is defined, further definitions do not call it. -/
theorem mainCalls_append (h : ∃ d ∈ ds, d.name = "main")
    (es : List Definition) : mainCalls (ds ++ es) = mainCalls ds := by
  obtain ⟨pre, d, post, rfl, hd, hpre⟩ := exists_first_main h
  rw [append_assoc, cons_append, mainCalls_of_first hpre hd, mainCalls_of_first hpre hd]

theorem mainCalls_append_singleton (h : ¬ (d.name = "main" ∧ ∀ e ∈ ds, e.name ≠ "main")) :
    mainCalls (ds ++ [d]) = mainCalls ds := by
  by_cases hmain : ∃ e ∈ ds, e.name = "main"
  · exact mainCalls_append hmain _
  · have hnone : ∀ e ∈ ds, e.name ≠ "main" := fun e he hname => hmain ⟨e, he, hname⟩
    have hd : d.name ≠ "main" := fun hname => h ⟨hname, hnone⟩
    have hall : ∀ e ∈ ds ++ [d], e.name ≠ "main" := by
      intro e he
      rcases mem_append.1 he with he | he
      · exact hnone e he
      · obtain rfl := mem_singleton.1 he
        exact hd
    rw [mainCalls_of_not_main hnone, mainCalls_of_not_main hall]

/-- What a machine knows after a run of the given definitions from the start. -/
structure Knows (m : Machine) (ds : List Definition) : Prop where
  functions : m.functions = addFunctions [] ds
  bindings : m.bindings = if ∃ d ∈ ds, d.name = "main" then [(mainFlag, .bool true)] else []
  quiet : (∀ d ∈ ds, d.name ≠ "main") → m.out = "" ∧ m.err = ""

theorem addFunctions_append_singleton (t : Table Function) (ds : List Definition) (d : Definition) :
    addFunctions t (ds ++ [d]) = Table.put (addFunctions t ds) d.name d.function := by
  simp [addFunctions]

namespace Knows

variable {m n : Machine} {ds : List Definition}

theorem mainCalled_eq_false_iff (h : Knows m ds) : m.mainCalled = false ↔ ∀ d ∈ ds, d.name ≠ "main" := by
  unfold mainCalled
  rw [h.bindings]
  split
  · rename_i hmain
    obtain ⟨d, hd, hname⟩ := hmain
    constructor
    · intro hfalse
      cases hfalse
    · intro hnone
      exact absurd hname (hnone d hd)
  · rename_i hmain
    exact ⟨fun _ d hd hname => hmain ⟨d, hd, hname⟩, fun _ => rfl⟩

theorem atLine (h : Knows m ds) (k : Nat) : Knows { m with line := k } ds := ⟨h.functions, h.bindings, h.quiet⟩

theorem added (h : Knows m ds) {d : Definition}
    (hd : ¬ (d.name = "main" ∧ m.mainCalled = false)) : Knows (m.added d) (ds ++ [d]) := by
  rw [h.mainCalled_eq_false_iff] at hd
  have hsame : (∃ e ∈ ds ++ [d], e.name = "main") ↔ ∃ e ∈ ds, e.name = "main" := by
    constructor
    · rintro ⟨e, he, hname⟩
      rcases mem_append.1 he with he | he
      · exact ⟨e, he, hname⟩
      · obtain rfl := mem_singleton.1 he
        by_contra hnone
        exact hd ⟨hname, fun e he hname => hnone ⟨e, he, hname⟩⟩
    · rintro ⟨e, he, hname⟩
      exact ⟨e, mem_append_left _ he, hname⟩
  refine ⟨?_, ?_, fun hnone => h.quiet fun e he => hnone e (mem_append_left _ he)⟩
  · rw [addFunctions_append_singleton, ← h.functions]
    rfl
  · rw [if_congr hsame rfl rfl]
    exact h.bindings

theorem flagged_eq (h : Knows m ds) (hnone : ∀ e ∈ ds, e.name ≠ "main") (d : Definition) :
    (m.added d).flagged = Machine.atMain ds d := by
  have hb : m.bindings = [] := by
    rw [h.bindings, if_neg]
    rintro ⟨e, he, hname⟩
    exact hnone e he hname
  obtain ⟨hout, herr⟩ := h.quiet hnone
  rw [Machine.atMain, addFunctions_append_singleton, ← h.functions]
  simp [Machine.flagged, Machine.added, hb, hout, herr, Table.put]

theorem called (h : Knows m ds) (hnone : ∀ e ∈ ds, e.name ≠ "main") {d : Definition} (hd : d.name = "main") {v : Value}
    (hcall : (callFunction "main" []).perform (m.added d).flagged = (.ok v, n)) :
    Knows n (ds ++ [d]) := by
  have hscope := keeps_scope_callAt maxDepth "main" [] hcall
  rw [h.flagged_eq hnone] at hscope
  obtain ⟨hbindings, hfunctions⟩ := Prod.mk.inj hscope
  have hmem : ∃ e ∈ ds ++ [d], e.name = "main" := ⟨d, by simp, hd⟩
  refine ⟨hfunctions, ?_, fun hall => absurd hd (hall d (by simp))⟩
  rw [if_pos hmem]
  exact hbindings

end Knows

theorem knows_start : Knows {} [] := ⟨rfl, by simp, fun _ => ⟨rfl, rfl⟩⟩

/-- What a machine knows after a run of lines, and where `main` was called, is determined by the
definitions before and among the lines. -/
theorem Runs.knows (h : Runs lines m calls n) (hm : Knows m ds) : Knows n (ds ++ definitions lines) ∧
      mainCalls (ds ++ definitions lines) = mainCalls ds ++ calls := by
  induction h generalizing ds with
  | done m => simpa [definitions] using hm
  | skip hl _ ih =>
    rw [definitions_of_none hl]
    exact ih (hm.atLine _)
  | @add l rest m n calls name params hl hmain _ ih =>
    obtain ⟨hn, hcalls⟩ := ih (hm.added (d := l.defined rest name params) hmain)
    rw [hm.mainCalled_eq_false_iff] at hmain
    rw [mainCalls_append_singleton hmain] at hcalls
    rw [definitions_of_some hl, append_cons]
    exact ⟨hn, hcalls⟩
  | @main l rest m m' n calls params v hl hmain hcall _ ih =>
    rw [hm.mainCalled_eq_false_iff] at hmain
    obtain ⟨hn, hcalls⟩ := ih (hm.called hmain (d := l.defined rest "main" params) rfl hcall)
    rw [definitions_of_some hl, append_cons]
    refine ⟨hn, ?_⟩
    rw [hcalls, mainCalls_of_first hmain rfl, mainCalls_of_not_main hmain, hm.flagged_eq hmain]
    rfl

theorem RunsAll.knows (h : RunsAll codes m calls n)
    (hm : Knows m ds) : Knows n (ds ++ codes.flatMap fun code => definitions (ofSource code)) ∧
      mainCalls (ds ++ codes.flatMap fun code => definitions (ofSource code)) = mainCalls ds ++ calls := by
  induction h generalizing ds with
  | nil m => simpa using hm
  | cons hcode _ ih =>
    obtain ⟨hm', hcalls⟩ := hcode.knows hm
    obtain ⟨hn, hcalls'⟩ := ih hm'
    rw [flatMap_cons, ← append_assoc, hcalls', hcalls]
    exact ⟨hn, append_assoc ..⟩

/-- **`main` runs once.** Let programs run one after another from the start and end well. After each
of them the variables are none if no definition of `main` was seen, and else only the flag that it was
called; every name has the function of its last definition; and `main` was called exactly once, at its
first definition and with the functions defined up to there, or not at all if it was not defined. -/
theorem main_runs_once (codes : List String) (n : Machine)
    (h : (forM codes runSource).perform {} = (.ok (), n)) (k : Nat) :
    ∃ m, (forM (codes.take k) runSource).perform {} = (.ok (), m) ∧
      let ds := (codes.take k).flatMap fun code => definitions (Line.ofSource code)
      m.bindings = (if ∃ d ∈ ds, d.name = "main" then [(mainFlag, .bool true)] else []) ∧
      (∀ name, Table.get? m.functions name = (ds.filter (·.name = name)).getLast?.map (·.function)) ∧
      ∀ calls, RunsAll (codes.take k) {} calls m ↔ calls = mainCalls ds := by
  rw [← List.take_append_drop k codes, List.forM_append, bind_eq_ok] at h
  obtain ⟨_, m, hm, -⟩ := h
  obtain ⟨calls, hruns⟩ := runsAll_iff.1 hm
  have hcalls {calls' : List Machine} (h' : RunsAll (codes.take k) {} calls' m) := (h'.knows knows_start).2.symm
  obtain ⟨hknows, -⟩ := hruns.knows knows_start
  refine ⟨m, hm, hknows.bindings, fun name => ?_, fun calls' => ⟨hcalls, ?_⟩⟩
  · rw [hknows.functions, get?_addFunctions]
    simp
  · rintro rfl
    exact hcalls hruns ▸ hruns

/-- Two programs that define `main` three times; the first `main` sets a variable. -/
def twoPrograms : List String :=
  ["simula f\nsimula main\n x = 5\nsimula main", "simula main n\nsimula f n"]

def twoProgramsCall : Machine where
  bindings := [(mainFlag, .bool true)]
  functions := [("f", ⟨[], []⟩), ("main", ⟨[], [⟨3, 1, "x = 5"⟩]⟩)]
  line := 2

/-- Programs that define `main` again do not call it again, and the last definition counts. -/
theorem main_runs_once_in_twoPrograms : ∃ n, (forM twoPrograms runSource).perform {} = (.ok (), n) ∧
      n.bindings = [(mainFlag, .bool true)] ∧
      Table.get? n.functions "main" = some ⟨["n"], []⟩ ∧
      ∀ calls, RunsAll twoPrograms {} calls n ↔ calls = [twoProgramsCall] := by
  have hds : twoPrograms.flatMap (fun code => definitions (Line.ofSource code)) =
      [⟨1, "f", ⟨[], []⟩⟩, ⟨2, "main", ⟨[], [⟨3, 1, "x = 5"⟩]⟩⟩, ⟨4, "main", ⟨[], []⟩⟩, ⟨1, "main", ⟨["n"], []⟩⟩,
        ⟨2, "f", ⟨["n"], []⟩⟩] := by cbv
  obtain ⟨n, hn, -⟩ : ∃ n, (forM twoPrograms runSource).perform {} = (.ok (), n) ∧ True :=
    exists_perform (by decide +kernel)
  obtain ⟨m, hm, hbindings, hfunctions, hcalls⟩ := main_runs_once twoPrograms n hn 2
  rw [show twoPrograms.take 2 = twoPrograms from rfl, hds] at *
  exact ⟨m, hm, hbindings, hfunctions "main", hcalls⟩

end GzLang
