import GzLang.Optimization.Technique

/-!
# Levels of optimization

A level is a list of techniques that may be used once some numbers have been reached. There are five
levels; the techniques of the last three do not change code yet.
-/

namespace GzLang.Optimization

structure Level where
  number : Int
  name : String
  description : String
  techniques : List Technique
  prerequisites : Table Value := []

namespace Level

def reached (stats : Value) : Table Value → Except Fault Bool
  | [] => .ok true
  | (key, least) :: more => do
    if !(← stats.has key) then return false
    if ← (← stats.item key).relate .lt least then return false
    reached stats more

def available (l : Level) (stats : Value) : Except Fault Bool :=
  reached stats l.prerequisites

def text (l : Level) : String :=
  "Level " ++ toString l.number ++ ": " ++ l.name ++ " - " ++ l.description

end Level

def idle (name description : String) : Technique :=
  ⟨name, description, .transform id, 0, 0⟩

def levels : List Level := [
  { number := 1, name := "Basic Optimizations"
    description := "Simple syntax-level optimizations"
    techniques := [
      ⟨"compound_assignment", "Replace x = x + y with x += y",
        .substitution "(\\w+)\\s*=\\s*\\1\\s*\\+\\s*([^;]+)" "\\1 += \\2", 0, 0⟩,
      ⟨"remove_unused_variables", "Remove unused variable declarations",
        .transform removeUnused, 0, 0⟩,
      ⟨"simplify_boolean_expressions",
        "Simplify boolean expressions like 'kung x == tama' to 'kung x'",
        .substitution "kung\\s+(\\w+)\\s*==\\s*tama" "kung \\1", 0, 0⟩] },
  { number := 2, name := "Intermediate Optimizations"
    description := "More advanced optimizations requiring basic code analysis"
    techniques := [
      idle "loop_invariant_code_motion" "Move invariant code outside of loops",
      ⟨"constant_folding", "Evaluate constant expressions at compile time",
        .transform foldConstants, 0, 0⟩,
      ⟨"strength_reduction", "Replace expensive operations with cheaper ones",
        .substitution "(\\w+)\\s*\\*\\s*2" "\\1 << 1", 0, 0⟩]
    prerequisites := [("total_optimizations", .int 10)] },
  { number := 3, name := "Advanced Optimizations"
    description := "Sophisticated optimizations requiring deep code analysis"
    techniques := [
      idle "function_inlining" "Inline small functions to reduce call overhead",
      idle "tail_recursion_elimination" "Convert tail recursion to iteration",
      idle "common_subexpression_elimination" "Eliminate redundant computations"]
    prerequisites := [("total_optimizations", .int 30), ("successful_optimizations", .int 20)] },
  { number := 4, name := "Expert Optimizations"
    description := "Expert-level optimizations requiring deep domain knowledge"
    techniques := [
      idle "loop_unrolling" "Unroll loops to reduce loop control overhead",
      idle "data_structure_optimization" "Optimize data structures for specific usage patterns",
      idle "algorithm_substitution" "Replace algorithms with more efficient alternatives"]
    prerequisites := [("total_optimizations", .int 50), ("successful_optimizations", .int 35),
      ("performance_improvement", .int 20)] },
  { number := 5, name := "AI-Powered Optimizations"
    description := "Advanced optimizations powered by AI learning"
    techniques := [
      idle "pattern_based_optimization" "Apply optimizations based on learned patterns",
      idle "context_aware_optimization" "Apply optimizations based on execution context",
      idle "predictive_optimization" "Apply optimizations based on predicted execution patterns"]
    prerequisites := [("total_optimizations", .int 100), ("successful_optimizations", .int 70),
      ("performance_improvement", .int 40)] }]

end GzLang.Optimization
