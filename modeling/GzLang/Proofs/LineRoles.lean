import GzLang.Proofs.FeedbackLedger
import GzLang.Proofs.LearnerSaving

/-!
# The roles of lines

A learner keeps the last line of each role, an execution shows all lines that have one. Both find the same role for
every line (`find?_roles`), so that the learner's line is the last of those that are shown (`roles_agree`).
-/

namespace GzLang.Feedback

open Learning List Value

theorem find?_roles (line : List Char) :
    (if isIdle line then none else (roles.find? (·.fits line)).map (·.name)) = role? line := by
  rw [role?, isIdle]
  split
  · rfl
  · simp only [roles, find?_cons, startsWithWord]
    repeat' split
    all_goals simp_all

def roled? (line : List Char) : Option (String × String) :=
  (role? (Text.trim line)).map (·, String.ofList (Text.trim line))

theorem roledLines_eq (lines : List (List Char)) : roledLines lines = lines.filterMap roled? := by
  refine filterMap_congr fun line _ => ?_
  rw [roled?, ← find?_roles]
  dsimp only
  split
  · rfl
  · rw [Option.map_map]
    rfl

/-- The last line that is listed under a role. -/
def lastLine? (role : String) (pairs : List (String × String)) : Option String :=
  (pairs.filter (·.1 = role)).getLast?.map Prod.snd

theorem get?_addLine (t : Table String) (line : List Char) (role : String) :
    (addLine t line).get? role = (lastLine? role (roled? line).toList).or (t.get? role) := by
  rw [addLine, roled?]
  cases role? (Text.trim line) with
  | none => rfl
  | some r =>
    by_cases h : r = role
    · subst h
      simp [lastLine?]
    · simp [lastLine?, h, Table.get?_put_of_ne]

theorem get?_foldl_addLine (lines : List (List Char)) (t : Table String) (role : String) :
    (lines.foldl addLine t).get? role = (lastLine? role (roledLines lines)).or (t.get? role) := by
  rw [roledLines_eq]
  induction lines generalizing t with
  | nil => rfl
  | cons line lines ih =>
    rw [foldl_cons, ih, get?_addLine, ← Option.or_assoc, ← singleton_append, filterMap_append]
    congr 1
    simp only [lastLine?, filter_append, getLast?_append, Option.map_or]
    rfl

/-- The features of a code under the roles of lines are the last lines with these roles. -/
theorem get?_features (code : String) {role : String} (h : role ≠ "algorithm") :
    (features code).get? role = lastLine? role (roledLines (Text.lines code.toList)) := by
  have hlines := get?_foldl_addLine (Text.lines code.toList) [] role
  rw [Table.get?_nil, Option.or_none] at hlines
  rw [features]
  split
  · rw [Table.get?_put_of_ne _ h.symm, hlines]
  · exact hlines

theorem lastLine?_isSome_iff (role : String) (pairs : List (String × String)) :
    (lastLine? role pairs).isSome ↔ ∃ line, (role, line) ∈ pairs := by
  rw [lastLine?, Option.isSome_map, getLast?_isSome, Ne, filter_eq_nil_iff]
  simp

/-- The errors of an execution can be looked at: it succeeded, it has none, or they are texts. -/
def HasTexts (result : Table Value) : Prop :=
  ((result.get? "success").getD (.bool false)).isTrue = true ∨
    ((result.get? "errors").getD .null).isTrue = false ∨
    ∃ errors, ((result.get? "errors").getD .null).elements = .ok errors ∧ ∀ e ∈ errors, ∃ s, e = .str s

theorem errorShown_ok_iff (lines : List (List Char)) (e : Value) :
    (∃ v, errorShown lines e = .ok v) ↔ ∃ s, e = .str s := by
  constructor
  · rintro ⟨v, hv⟩
    cases e with
    | str s => exact ⟨s, rfl⟩
    | _ => cases hv
  · rintro ⟨s, rfl⟩
    exact ⟨_, rfl⟩

theorem mapM_errorShown_ok_iff (lines : List (List Char)) (xs : List Value) :
    (∃ vs, xs.mapM (errorShown lines) = .ok vs) ↔ ∀ e ∈ xs, ∃ s, e = .str s := by
  induction xs with
  | nil => simp [pure, Except.pure]
  | cons e xs ih =>
    rw [forall_mem_cons, ← ih, ← errorShown_ok_iff lines, mapM_cons]
    cases errorShown lines e <;> cases xs.mapM (errorShown lines) <;> simp [bind, Except.bind, pure, Except.pure]

theorem errorsShown_ok_iff (lines : List (List Char)) (result : Table Value) :
    (∃ es, errorsShown lines ((result.get? "success").getD (.bool false)) (.dict result) = .ok es) ↔
      HasTexts result := by
  rw [errorsShown_dict, HasTexts]
  generalize ((result.get? "success").getD (.bool false)).isTrue = success
  generalize (result.get? "errors").getD .null = errors
  cases success with
  | true => exact ⟨fun _ => .inl rfl, fun _ => ⟨[], rfl⟩⟩
  | false =>
    cases errors.isTrue with
    | false => exact ⟨fun _ => .inr (.inl rfl), fun _ => ⟨[], rfl⟩⟩
    | true =>
      cases errors.elements with
      | error f => simp [bind, Except.bind]
      | ok xs =>
        have hmap := mapM_errorShown_ok_iff lines xs
        cases hxs : xs.mapM (errorShown lines) <;> simp_all [bind, Except.bind, pure, Except.pure]

def lineRoles : List String :=
  ["function_definition", "variable_assignment", "print_statement", "conditional", "loop", "return_statement"]

/-- What a learner keeps of a code under a role of lines is the last line that its execution shows with this role, and
besides these it keeps at most an algorithm. An execution with something in its record shows its lines just if its
errors can be looked at. -/
theorem roles_agree (code : String) {result : Table Value} (h : result ≠ []) :
    ((∃ v, shown (.str code) (.dict result) = .ok v) ↔ HasTexts result) ∧
    (∀ v, shown (.str code) (.dict result) = .ok v → ∃ pairs : List (String × String),
      v.item "syntax_patterns" = .ok (.list (pairs.map fun p => .tuple [.str p.1, .str p.2])) ∧
      ∀ role ∈ lineRoles, ((features code).has role = true ↔ ∃ line, (role, line) ∈ pairs) ∧
        (features code).get? role = lastLine? role pairs) ∧
    ∀ role ∈ (features code).keys, role ∈ lineRoles ∨ role = "algorithm" := by
  rw [shown_dict code h]
  refine ⟨?_, ?_, fun role hrole => ?_⟩
  · rw [← errorsShown_ok_iff (Text.lines code.toList)]
    cases errorsShown (Text.lines code.toList) _ (.dict result) <;> simp [Except.map]
  · intro v hv
    refine ⟨roledLines (Text.lines code.toList), ?_, fun role hrole => ?_⟩
    · cases hes : errorsShown (Text.lines code.toList) _ (.dict result) with
      | error f =>
        rw [hes] at hv
        cases hv
      | ok es =>
        rw [hes] at hv
        cases hv
        rfl
    · have hget := get?_features code (ne_of_mem_of_not_mem hrole (by decide))
      rw [Table.has, hget]
      exact ⟨lastLine?_isSome_iff role _, rfl⟩
  · have := (hasRoles_features code).subset hrole
    simpa [Learning.roles, lineRoles, or_assoc] using this

theorem second_print_is_kept : HasTexts [("success", .bool true)] ∧
    ∃ v, shown (.str "sulat 1\n  sulat 2") (.dict [("success", .bool true)]) = .ok v ∧
      (features "sulat 1\n  sulat 2").has "print_statement" = true ∧
      (features "sulat 1\n  sulat 2").get? "print_statement" = some "sulat 2" := by
  obtain ⟨hiff, hagree, -⟩ := roles_agree "sulat 1\n  sulat 2" (cons_ne_nil ("success", Value.bool true) [])
  have htexts : HasTexts [("success", .bool true)] := .inl rfl
  have hget : (features "sulat 1\n  sulat 2").get? "print_statement" = some "sulat 2" := by
    rw [get?_features _ (by decide)]
    cbv
  obtain ⟨v, hv⟩ := hiff.2 htexts
  obtain ⟨pairs, -, hroles⟩ := hagree v hv
  refine ⟨htexts, v, hv, (hroles _ (by decide)).1.2 ?_, hget⟩
  rw [← lastLine?_isSome_iff, ← (hroles _ (by decide)).2, hget]
  rfl

end GzLang.Feedback
