/-!
# Runs of code points

Unicode properties outside ASCII are given by the lengths of runs of code points, of which by turns none and all have
the property.
-/

namespace GzLang.Text

def inRun : List Nat → Nat → Bool
  | gap :: run :: runs, n => gap ≤ n && (n < gap + run || inRun runs (n - (gap + run)))
  | _, _ => false

/-- Whether a character outside ASCII has the property with the given runs. -/
def inRuns (runs : List Nat) (c : Char) : Bool :=
  128 ≤ c.toNat && inRun runs (c.toNat - 128)

end GzLang.Text
