import GzLang.Proofs.Definitions

/-!
# What a program does from the start

Definitions only add their functions, up to the first one of `main` (`perform_runLines_of_main`) and
again behind its call (`perform_runLines_of_quiet`). So a program ends, prints and reports as the call
of its first `main` does (`perform_runLines_start`), whether that ends well or not.
-/

namespace GzLang

open GzLang.Action

variable {pre post : List Definition}

variable {lines : List Line}

/-- Definitions that do not call `main` add their functions and do nothing else. -/
theorem perform_runLines_of_quiet (hnamed : Named lines) {m : Machine}
    (h : m.mainCalled ∨ ∀ d ∈ definitions lines, d.name ≠ "main") :
    ∃ k, (runLines lines).perform m =
      (.ok (), { m with functions := addFunctions m.functions (definitions lines), line := k }) := by
  induction hlen : lines.length using Nat.strongRecOn generalizing lines m with
  | ind len ih =>
    cases lines with
    | nil => exact ⟨m.line, by rw [runLines, definitions]; rfl⟩
    | cons l rest =>
      have hafter := Line.length_afterBlock_le l.indent rest
      rw [List.length_cons] at hlen
      cases hl : definition? l.content with
      | none =>
        rw [definitions_of_none hl] at h ⊢
        rw [perform_runLines_of_none hl]
        exact ih _ (by omega) hnamed.of_cons h rfl
      | some words =>
        cases words with
        | nil => exact absurd hl (hnamed l (List.mem_cons_self ..))
        | cons name params =>
          rw [definitions_of_some hl] at h ⊢
          have hquiet : ¬ (name = "main" ∧ m.mainCalled = false) := by
            rintro ⟨hname, hflag⟩
            rcases h with h | h
            · rw [hflag] at h
              cases h
            · exact h _ (List.mem_cons_self ..) hname
          rw [perform_runLines_of_not_main hl rest hquiet]
          exact ih _ (by omega) (hnamed.of_cons.afterBlock _)
            (h.imp id fun h d hd => h d (List.mem_cons_of_mem _ hd)) rfl

/-- Up to the first definition of `main`, definitions add their functions. -/
theorem perform_runLines_of_main (hnamed : Named lines) {m : Machine} (hm : m.mainCalled = false)
    {d : Definition} (hlines : definitions lines = pre ++ d :: post) (hd : d.name = "main")
    (hpre : ∀ e ∈ pre, e.name ≠ "main") : ∃ rest, Named rest ∧ definitions rest = post ∧ (runLines lines).perform m =
        (define d.name d.function >>= fun _ => runLines rest).perform
          { m with functions := addFunctions m.functions pre, line := d.number } := by
  induction hlen : lines.length using Nat.strongRecOn generalizing lines m pre with
  | ind len ih =>
    cases lines with
    | nil => simp [definitions] at hlines
    | cons l rest =>
      have hafter := Line.length_afterBlock_le l.indent rest
      rw [List.length_cons] at hlen
      cases hl : definition? l.content with
      | none =>
        rw [definitions_of_none hl] at hlines
        rw [perform_runLines_of_none hl]
        have hm' : { m with line := l.number }.mainCalled = false := hm
        exact ih _ (by omega) hnamed.of_cons hm' hlines hpre rfl
      | some words =>
        cases words with
        | nil => exact absurd hl (hnamed l (List.mem_cons_self ..))
        | cons name params =>
          rw [definitions_of_some hl] at hlines
          have hnamed' := hnamed.of_cons.afterBlock l.indent
          cases pre with
          | nil =>
            obtain ⟨rfl, rfl⟩ := List.cons.inj hlines
            exact ⟨_, hnamed', rfl, perform_runLines_of_some hl rest m⟩
          | cons e pre =>
            obtain ⟨rfl, hpost⟩ := List.cons.inj hlines
            have hname : name ≠ "main" := hpre _ (List.mem_cons_self ..)
            rw [perform_runLines_of_not_main hl rest fun h => hname h.1]
            have hm' : (m.added (l.defined rest name params)).mainCalled = false := hm
            exact ih _ (by omega) hnamed' hm' hpost (fun e he => hpre e (List.mem_cons_of_mem _ he)) rfl

/-- What a program prints and reports from the start is what its first `main` does, with the functions
defined up to there. -/
theorem perform_runLines_start (hnamed : Named lines) {d : Definition}
    (hlines : definitions lines = pre ++ d :: post) (hd : d.name = "main")
    (hpre : ∀ e ∈ pre, e.name ≠ "main") : let r:= (callFunction "main" []).perform (.atMain pre d)
    ((runLines lines).perform {}).1 = r.1.map (fun _ => ()) ∧ ((runLines lines).perform {}).2.out = r.2.out ∧
      ((runLines lines).perform {}).2.err = r.2.err := by
  intro r
  obtain ⟨rest, hrest, -, hrun⟩ := perform_runLines_of_main hnamed (m := {}) rfl hlines hd hpre
  have hcall : Machine.flagged (Machine.added { functions := addFunctions [] pre } d) = .atMain pre d := by
    rw [Machine.atMain, addFunctions_append_singleton]
    rfl
  have hdef := perform_define_main (m := { functions := addFunctions [] pre }) hd rfl
  rw [hcall] at hdef
  rw [hrun]
  rcases hr : r with ⟨e | v, n⟩ <;> rw [show (callFunction "main" []).perform _ = _ from hr] at hdef
  · rw [bind_of_error hdef]
    exact ⟨rfl, rfl, rfl⟩
  · -- the call puts back the flag, so nothing more is called
    have hscope := keeps_scope_callAt maxDepth "main" [] hr
    have hflag : n.mainCalled := by
      rw [Machine.mainCalled, (Prod.mk.inj hscope).1]
      rfl
    obtain ⟨k, hquiet⟩ := perform_runLines_of_quiet hrest (.inl hflag)
    rw [bind_of_ok hdef, hquiet]
    exact ⟨rfl, rfl, rfl⟩

end GzLang
