import GzLang.Command.Compile
import GzLang.Workload.Basic

/-!
# Workloads of improvement

Programs for the optimizer, the assistant and the compiler, attempts for the improvement engine and
learnings for the collective memory.
-/

namespace GzLang.Workload

/-- A program with something for each technique that changes code. -/
def variant (i : Nat) : String :=
  "simula main\n    unused = 1\n    x = " ++ toString i ++ "\n    x = x + y\n    z = 2 + 3\n" ++
    "    w = x * 2\n    kung ready == tama\n        sulat z, w, x, y\n    balik 0\n"

/-- Optimize programs at the highest level, and count the techniques that were applied and the
levels there are. -/
def optimization : Workload := fun n => do
  let o ← Optimization.Optimizer.open "models/optimization_stats.json"
  Task.from_ o do
    let applied ← eachBelow n fun i => do
      let r ← Optimization.Optimizer.optimize (.str (variant i)) (.int 5)
      (← r.item "techniques_applied").size
    let levels ← (← (← Task.self).availableLevels).size
    return counts [applied.foldl (· + ·) 0, levels]

def fileCount : Nat := 40

def attempt (i : Nat) : Value :=
  .dict [("timestamp", .str "2024-01-01T00:00:00"),
    ("file", .str (numbered "file_" (i % fileCount))), ("opportunities", .int 1),
    ("success", .bool (i % 2 == 0))]

/-- Read the numbers on a history eight times: all attempts, those that improved the file that was
improved most, and those that succeeded. -/
def improvement : Workload := fun n => do
  let e ← Improvement.Engine.open "src" (.int 3600)
  Task.from_ e do
    Task.update fun e => { e with history := .list ((List.range n).map attempt) }
    let readings ← eachBelow 8 fun _ => do
      let stats ← (← Task.self).stats
      return [← stats.itemD "total_improvements" .null, ← stats.itemD "most_improved_count" .null,
        ← stats.itemD "successful_improvements" .null]
    return readings.flatten

def foreign : String :=
  "simula main() \x7b\n    sulat(\"start\");\n    kung (x > 1) \x7b\n        show(x);\n    \x7d\n\x7d\n"

def improvable : String :=
  "simula main\n    x = x + 1\n    kung ready == tama\n        para i = 1 hanggang 5\n" ++
    "            sulat i\n    balik 0\n"

def descriptions : List String :=
  ["Print hello world", "Compute a factorial", "Compute an average", "Do something else"]

/-- Let the assistant work in rounds. The count of a round is the number of rules that applied and of
characters that were generated. -/
def assistance : Workload := fun n => do
  let a ← Assistant.open true .null
  Task.from_ a do
    let _ ← Assistant.setUp
    let rounds ← eachBelow n fun i => do
      let _ ← Assistant.process (.str improvable) .null
      let corrected ← Assistant.correct (.str foreign) .null
      let optimized ← Assistant.optimize (.str improvable) .null
      let generated ← Assistant.generate (.str (descriptions[i % 4]?.getD ""))
      let _ ← Assistant.explain (.str improvable)
      return (← (← corrected.item "suggestions").size) +
        (← (← optimized.item "techniques_applied").size) + (← (← generated.item "code").size)
    Assistant.shutDown
    return counts rounds

/-- Share learnings, each four times, and count the learnings, the improvements and how often all of
them were seen. -/
def sharing : Workload := fun n => do
  let c ← Collective.open .null
  Task.from_ c do
    let _ ← eachBelow (4 * n) fun i =>
      Collective.addLearning (.str "syntax_pattern") (.dict [("value", .int (i % n : Nat))])
    let c ← Task.self
    let learnings ← (Value.dict c.memory).item "collective_learnings"
    let seen ← (← learnings.table "values").mapM fun (_, l) => l.item "frequency"
    let all ← seen.foldlM (fun s n => Action.ofExcept (s.add n)) (.int 0)
    return [.int (← learnings.size), .int c.counters.improvements, all]

/-- How the compiler is called for a file: in turn plainly, with more to say, and for an interface. -/
def compileCall (i : Nat) : List String :=
  let call := [numbered "program_" i ++ ".gz", "-o", numbered "compiled_" i]
  if i % 3 = 1 then call ++ ["-v"] else if i % 3 = 2 then call ++ ["--ui"] else call

/-- What the compiler is asked for besides compiling; all of it needs an aide. -/
def requests : List (List String) :=
  [["--ai-stats"], ["--ai-evolution"], ["--ai-learn", "sample.gz"],
    ["--ai-optimize", "sample.gz", "-o", "optimized.gz"],
    ["-g", "Print hello world", "-o", "generated.gz"], ["sample.gz", "-e"]]

/-- Calls that fail: a push that cannot be made, every request without an aide, no source, and a
source that is not there. -/
def failingCalls : List (List String) :=
  [["--force-update"]] ++ (["--force-update"] :: requests).map (["--no-ai"] ++ ·) ++
    [[], ["missing.gz"]]

/-- Compile files, make requests and calls that fail, and count the runs that succeeded and all of
them. -/
def compilation : Workload := fun n => do
  Job.writeText "sample.gz" (variant 0)
  (List.range n).forM fun i => Job.writeText (numbered "program_" i ++ ".gz") (variant i)
  let calls := (List.range n).map compileCall ++ requests ++ failingCalls
  let exits ← calls.mapM (Command.compile {})
  return counts [(exits.filter (· == some 0)).length, exits.length]

end GzLang.Workload
