import GzLang.Assistant.Basic

/-!
# How an assistant grows

The learning rate grows exponentially with the samples that an assistant has seen. What it can do
is told from their number.
-/

namespace GzLang.Assistant

def rateAfter (base acceleration iterations : Value) : Except Fault Value := do
  if iterations.equal (.int 0) then return base
  let exponent ← (← iterations.div (.int 100)).lesser (.int 10)
  base.mul (← acceleration.pow exponent)

def rate : Task Assistant Value := do
  let iterations ← part "learning_iterations"
  if iterations.equal (.int 0) then option "learning_rate"
  else rateAfter (← option "learning_rate") (← option "acceleration_factor") iterations

def learnFeatures (features : Table (List String)) : Task Assistant Value := do
  let rate ← rate
  putPart "learning_iterations" (← (← part "learning_iterations").next)
  return .dict [("learning_iterations", ← part "learning_iterations"), ("learning_rate", rate),
    ("patterns_learned", .int features.length)]

def learnSample (code : Value) : Task Assistant Value := do
  learnFeatures (featuresOf (← subjectText code))

def milestone (date description : String) (rate : Value) : Value :=
  .dict [("date", .str date), ("description", .str description), ("learning_rate", rate)]

/-- The milestones on the way, with the samples they need and the factor of the rate. -/
def milestones : List (Int × String × String × Int) :=
  [(10, "2025-05-05", "Basic syntax understanding achieved", 2),
    (20, "2025-05-10", "Error correction capabilities improved", 4),
    (30, "2025-05-15", "Optimization techniques expanded", 8),
    (40, "2025-05-20", "Code generation capabilities enhanced", 16)]

def reached (base iterations : Value) : Except Fault (List Value) := do
  let points ← milestones.mapM fun (least, date, description, factor) => do
    if ← iterations.relate .ge (.int least) then
      return some (milestone date description (← base.mul (.int factor)))
    else return none
  return points.filterMap id

/-- A share of one hundred percent that grows with the samples. -/
def progress (iterations : Value) (factor : Float) : Except Fault Value := do
  Value.lesser (.int 100) (← iterations.mul (.float factor))

def evolution : Task Assistant Value := do
  let current ← rate
  let base ← option "learning_rate"
  let acceleration ←
    if ← base.relate .gt (.int 0) then current.div base else pure (Value.float 1.0)
  let iterations ← part "learning_iterations"
  let syntax_ ← progress iterations 0.5
  let optimization ← progress iterations 0.3
  let correction ← progress iterations 0.4
  let generation ← progress iterations 0.2
  let points ← reached base iterations
  let today := Calendar.dateText (← Job.instant)
  let shown ← iterations.display
  let all := milestone "2025-05-01" "Initial AI capabilities" base :: points ++
    [milestone today ("Current AI capabilities (Iteration " ++ shown ++ ")") current]
  let sum ← (← (← syntax_.add optimization).add correction).add generation
  let overall ← sum.div (.int 4)
  let next ← (← iterations.add (.int 10)).display
  let projected ← current.mul (.int 2)
  return .dict [("learning_iterations", iterations), ("current_learning_rate", current),
    ("base_learning_rate", base), ("learning_acceleration", acceleration),
    ("learning_progress", .dict [("syntax_understanding", syntax_),
      ("optimization_capability", optimization), ("error_correction", correction),
      ("code_generation", generation), ("overall_progress", overall)]),
    ("evolution_history", .list all),
    ("projected_capabilities", .dict [("next_milestone", .str ("Iteration " ++ next)),
      ("projected_learning_rate", projected),
      ("projected_capabilities", Value.texts ["Enhanced error correction",
        "Advanced optimization techniques", "Improved code generation",
        "Better syntax understanding"])])]

end GzLang.Assistant
