import GzLang.Text.Digit
import GzLang.Text.Quoted

/-!
# The options of the compiler

Every option has one or two names and either takes no value or takes one. A value is read and
checked where it is given.
-/

namespace GzLang.Command

structure Options where
  source : Option String := none
  output : String := "a.out"
  level : Int := 0
  target : String := "native"
  verbose : Bool := false
  run : Bool := false
  noLearning : Bool := false
  intelligence : Int := 5
  noCorrection : Bool := false
  noOptimization : Bool := false
  noSharing : Bool := false
  forceUpdate : Bool := false
  stats : Bool := false
  interactive : Bool := false
  model : String := "models/gz_ai_model.bin"
  learn : Option String := none
  optimize : Option String := none
  evolution : Bool := false
  generate : Option String := none
  explain : Bool := false
  interface : Bool := false
  deriving Inhabited, Repr, DecidableEq

inductive Effect where
  | flag (set : Options → Options)
  | value (set : String → Options → Except String Options)
  | help

structure Opt where
  names : List String
  effect : Effect

def Opt.title (o : Opt) : String :=
  String.intercalate "/" o.names

def Opt.takesValue (o : Opt) : Bool :=
  match o.effect with
  | .value _ => true
  | _ => false

def shown (s : String) : String :=
  String.ofList (Text.quoted s.toList)

def badChoice (value : String) (choices : List String) : String :=
  "invalid choice: " ++ value ++ " (choose from " ++ String.intercalate ", " choices ++ ")"

def integerIn (lo hi : Nat) (s : String) : Except String Int :=
  match Text.readInt s.toList with
  | .error _ => .error ("invalid int value: " ++ shown s)
  | .ok i =>
    if (lo : Int) ≤ i ∧ i ≤ hi then .ok i
    else .error (badChoice (toString i)
      ((List.range (hi + 1 - lo)).map fun k => toString (lo + k)))

def oneOf (choices : List String) (s : String) : Except String String :=
  if choices.contains s then .ok s else .error (badChoice (shown s) (choices.map shown))

def targets : List String := ["native", "x86", "x64", "arm", "arm64", "riscv"]

def options : List Opt :=
  [⟨["-h", "--help"], .help⟩,
    ⟨["-o", "--output"], .value fun s o => .ok { o with output := s }⟩,
    ⟨["-O", "--optimize"], .value fun s o => do return { o with level := ← integerIn 0 3 s }⟩,
    ⟨["-t", "--target"], .value fun s o => do return { o with target := ← oneOf targets s }⟩,
    ⟨["-v", "--verbose"], .flag fun o => { o with verbose := true }⟩,
    ⟨["-r", "--run"], .flag fun o => { o with run := true }⟩,
    ⟨["--no-ai"], .flag fun o => { o with noLearning := true }⟩,
    ⟨["--ai-level"], .value fun s o => do return { o with intelligence := ← integerIn 1 10 s }⟩,
    ⟨["--no-auto-correct"], .flag fun o => { o with noCorrection := true }⟩,
    ⟨["--no-auto-optimize"], .flag fun o => { o with noOptimization := true }⟩,
    ⟨["--no-auto-update"], .flag fun o => { o with noSharing := true }⟩,
    ⟨["--force-update"], .flag fun o => { o with forceUpdate := true }⟩,
    ⟨["--ai-stats"], .flag fun o => { o with stats := true }⟩,
    ⟨["--ai-interactive"], .flag fun o => { o with interactive := true }⟩,
    ⟨["--ai-model"], .value fun s o => .ok { o with model := s }⟩,
    ⟨["--ai-learn"], .value fun s o => .ok { o with learn := some s }⟩,
    ⟨["--ai-optimize"], .value fun s o => .ok { o with optimize := some s }⟩,
    ⟨["--ai-evolution"], .flag fun o => { o with evolution := true }⟩,
    ⟨["-g", "--generate"], .value fun s o => .ok { o with generate := some s }⟩,
    ⟨["-e", "--explain"], .flag fun o => { o with explain := true }⟩,
    ⟨["--ui"], .flag fun o => { o with interface := true }⟩]

end GzLang.Command
