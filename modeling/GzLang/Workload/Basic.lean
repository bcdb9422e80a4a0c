import GzLang.World

/-!
# Workloads

A workload drives one part of the library with a number of made-up inputs and gives a list of counts
that tell whether the work was done. It can be carried out any number of times, each time from the
same start.
-/

namespace GzLang

abbrev Workload := Nat → Job (List Value)

namespace Workload

/-- The counts of carrying out a workload a number of times. -/
def repeated (load : Workload) (size times : Nat) (w : World) : Except Fault Value := do
  let counts ← (load size).perform w |>.1
  return .list (List.replicate times (.list counts))

def counts (ns : List Nat) : List Value :=
  ns.map fun (n : Nat) => .int n

/-- The numbers below a bound, one piece of work for each. -/
def eachBelow (n : Nat) (work : Nat → Task σ α) : Task σ (List α) :=
  (List.range n).mapM work

def numbered (name : String) (i : Nat) : String := name ++ toString i

end Workload

end GzLang
