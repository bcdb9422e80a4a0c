import Mathlib
import GzLang.Machine.Program
import GzLang.Proofs.Reading

/-!
# The tree of a block

Which lines belong to which can be read off the lines before anything runs. `trees` reads the trees
of a block once: a condition, and a loop header with enough words, owns the lines that follow with a
greater indent; every other line is a leaf. `runTrees` runs trees without looking at an indent.

* `flatten_trees`: the trees hold the lines of the block, in order;
* `execBlock_eq_runTrees`, `callAt_eq_callTreesAt`: running a block is running its trees, also in the
  functions that are called.
-/

namespace GzLang

/-- A line owns lines below it if it is a condition, or a loop header of at least three words. -/
def Line.owns (l : Line) : Bool :=
  let s := l.content.toList
  "kung ".toList.isPrefixOf s ||
    ("para ".toList.isPrefixOf s && decide (3 ≤ (Text.words (s.drop 5)).length))

inductive Tree where
  | leaf (l : Line)
  /-- A line with what it owns. -/
  | owner (l : Line) (children : List Tree)

namespace Tree

def trees (block : List Line) : List Tree :=
  match block with
  | [] => []
  | l :: rest =>
    if l.owns then
      .owner l (trees (Line.block l.indent rest)) :: trees (Line.afterBlock l.indent rest)
    else .leaf l :: trees rest
termination_by block.length
decreasing_by
  all_goals simp only [List.length_cons]
  all_goals
    have h1 := Line.length_block_le l.indent rest
    have h2 := Line.length_afterBlock_le l.indent rest
    omega

mutual

def lines : Tree → List Line
  | .leaf l => [l]
  | .owner l children => l :: flatten children

def flatten : List Tree → List Line
  | [] => []
  | t :: ts => t.lines ++ flatten ts

end

theorem flatten_trees (block : List Line) : flatten (trees block) = block := by
  fun_induction trees block with
  | case1 => rfl
  | case2 l rest _ ih ih' =>
    rw [flatten, lines, ih, ih']
    simp [Line.block, Line.afterBlock]
  | case3 l rest _ ih => rw [flatten, lines, ih, List.singleton_append]

/-! ### Running trees -/

variable (call : Caller)

/-- Run a leaf. It ends its block with a value if it gives one back. -/
def runLeaf (l : Line) : Run (Option Value) := do
  Machine.atLine l.number
  match Statement.parse l.content.toList with
  | .giveBack expr => if expr.isEmpty then return some .null else return some (← evaluate call expr)
  | .print args => printLine (← evalPrintArgs call args)
  | .assign name expr => Machine.assign name (← evaluate call expr)
  | .evaluate expr => let _ ← evaluate call expr
  | _ => pure ()
  return none

/-- What the result of an inner block says about the block around it. -/
def ended? (v : Value) : Option Value := if v.isNull then none else some v

/-- Run a body for every integer of a list, until it gives a value. -/
def runEach (name : String) (body : Run Value) : List Int → Run Value
  | [] => pure .null
  | i :: is => do
    Machine.assign name (.int i)
    match ended? (← body) with
    | some v => return v
    | none => runEach name body is

mutual

def run : Tree → Run (Option Value)
  | .leaf l => runLeaf call l
  | .owner l children => do
    Machine.atLine l.number
    match Statement.parse l.content.toList with
    | .branch condition =>
      if (← evaluate call condition).isTrue then return ended? (← runTrees children)
      else return none
    | .loop name bounds =>
      let (lo, hi) ← Action.ofExcept bounds
      return ended? (← runEach name (runTrees children) (Int.range lo (hi + 1)))
    | _ => return none

def runTrees : List Tree → Run Value
  | [] => pure .null
  | t :: ts => do
    match ← run t with
    | some v => return v
    | none => runTrees ts

end

variable {call}

/-- A loop runs its body for the integers from its first bound to its second. -/
theorem runEach_range (name : String) (body : Run Value) (lo hi : Int) :
    runEach name body (Int.range lo hi) = repeatBlock name body (hi - lo).toNat lo := by
  rw [Int.range]
  generalize (hi - lo).toNat = n
  induction n generalizing lo with
  | zero => rfl
  | succ n ih =>
    have hshift : (List.range (n + 1)).map (fun r : Nat => lo + (r : Int)) =
        lo :: (List.range n).map fun r : Nat => lo + 1 + (r : Int) := by
      simp [List.range_succ_eq_map, Function.comp_def, add_comm, add_left_comm]
    rw [hshift, runEach, repeatBlock]
    congr 1; funext _; congr 1; funext v
    by_cases hv : v.isNull <;> simp [ended?, hv, ih]

/-- What a line says decides whether it owns lines. -/
theorem owns_iff (l : Line) : l.owns ↔ (∃ c, Statement.parse l.content.toList = .branch c) ∨
    ∃ name bounds, Statement.parse l.content.toList = .loop name bounds := by
  simp only [Line.owns, Bool.or_eq_true, Bool.and_eq_true, List.isPrefixOf_iff_prefix, decide_eq_true_iff]
  generalize l.content.toList = s
  constructor
  · rintro (⟨r, rfl⟩ | ⟨⟨r, rfl⟩, hr⟩)
    · exact .inl ⟨Text.trim r, rfl⟩
    · refine .inr ?_
      change ∃ name bounds, Statement.loopHeader r = _
      unfold Statement.loopHeader
      rcases hw : Text.words r with _ | ⟨a, _ | ⟨b, _ | ⟨c, t⟩⟩⟩ <;> simp [hw] at hr ⊢
  · have hs := Statement.spells_parse s
    rintro (⟨c, h⟩ | ⟨name, bounds, h⟩) <;> rw [h] at hs
    · cases hs with | branch hs => exact .inl ⟨_, hs.symm⟩
    · cases hs with | loop hs hr => exact .inr (by simp [hs, hr])

theorem execBlock_eq_runTrees (block : List Line) : execBlock call block = runTrees call (trees block) := by
  fun_induction trees block with
  | case1 => rw [execBlock, runTrees]
  | case2 l rest h ih ih' =>
    rw [execBlock, runTrees, run, ih, ih']
    simp only [bind_assoc]
    congr 1; funext _
    obtain ⟨c, hc⟩ | ⟨name, bounds, hc⟩ := (owns_iff l).1 h
    · simp only [hc, bind_assoc]
      congr 1; funext v
      by_cases hv : v.isTrue
      · simp only [hv, if_true, bind_assoc, pure_bind]
        congr 1; funext r
        by_cases hr : r.isNull <;> simp [ended?, hr]
      · simp [hv]
    · simp only [hc, bind_assoc]
      congr 1; funext b
      simp only [runEach_range, pure_bind]
      congr 1; funext r
      by_cases hr : r.isNull <;> simp [ended?, hr]
  | case3 l rest h ih =>
    rw [execBlock, runTrees, run, runLeaf, ih]
    simp only [bind_assoc]
    congr 1; funext _
    cases hs : Statement.parse l.content.toList with
    | branch c => exact absurd ((owns_iff l).2 (.inl ⟨c, hs⟩)) h
    | loop name bounds => exact absurd ((owns_iff l).2 (.inr ⟨name, bounds, hs⟩)) h
    | giveBack e => by_cases he : e.isEmpty <;> simp [he]
    | _ => simp

/-! ### Calls -/

def invokeTrees (call : Caller) (f : Function) (args : List Value) : Run Value := do
  let saved := (← get).bindings
  modify fun m => { m with bindings := bindParams f.params args m.bindings }
  let v ← runTrees call (trees f.body)
  modify fun m => { m with bindings := saved }
  return v

/-- Call a function, with at most `depth` calls inside one another, each on trees. -/
def callTreesAt (depth : Nat) : Caller := fun name args => do
  match Table.get? (← get).functions name with
  | none => reportUndefined name
  | some f =>
    match depth with
    | 0 => throw .tooDeep
    | depth + 1 => invokeTrees (callTreesAt depth) f args

theorem callAt_eq_callTreesAt (depth : Nat) : callAt depth = callTreesAt depth := by
  induction depth with
  | zero =>
    funext name args
    unfold callAt callTreesAt
    rfl
  | succ depth ih =>
    funext name args
    rw [callAt, callTreesAt]
    congr 1; funext m
    cases Table.get? m.functions name with
    | none => rfl
    | some f => simp only [invoke, invokeTrees, execBlock_eq_runTrees, ih]

/-- Block structure is static. Running a block on a machine does what running the trees of its lines
does, whatever calls mean, and the trees can be used in all calls as well. -/
theorem block_runs_as_trees (block : List Line) : flatten (trees block) = block ∧
    (∀ call m, (execBlock call block).perform m = (runTrees call (trees block)).perform m) ∧
    ∀ depth m, (execBlock (callAt depth) block).perform m = (runTrees (callTreesAt depth) (trees block)).perform m := by
  refine ⟨flatten_trees block, fun call m => ?_, fun depth m => ?_⟩
  · rw [execBlock_eq_runTrees]
  · rw [execBlock_eq_runTrees, callAt_eq_callTreesAt]

end Tree
end GzLang
