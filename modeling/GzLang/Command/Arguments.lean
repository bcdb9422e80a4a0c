import GzLang.Command.Option
import GzLang.Fault
import GzLang.Text.Split

/-!
# Reading the arguments of the compiler

Arguments that start with a dash are options. A long name may be cut short as long as it stays
unique, short names may be joined, and a value may follow in the same argument or in the next one.
After `--` nothing is an option. The first other argument is the source file, and arguments that
are left over are refused.
-/

namespace GzLang.Command

inductive Refusal where
  | help
  | misuse (message : String)
  | fault (f : Fault)

inductive Argument where
  | plain (s : String)
  | separator
  /-- An option, the name that it was given by, and a value in the same argument. -/
  | option (o : Opt) (name : String) (value : Option String)
  | unknown (s : String)

def namedOptions : List (String × Opt) :=
  options.flatMap fun o => o.names.map (·, o)

def option? (name : String) : Option Opt :=
  (namedOptions.find? (·.1 == name)).map (·.2)

def cutAtEquals (s : String) : Option (String × String) :=
  (Text.cutFirst ['='] s.toList).map fun (a, b) => (String.ofList a, String.ofList b)

/-- The options that an argument with a cut name, or with a joined value, may stand for. -/
def candidates (s : String) : List (Opt × String × Option String) :=
  match s.toList with
  | '-' :: '-' :: _ =>
    let (name, value) := match cutAtEquals s with
      | some (a, b) => (a, some b)
      | none => (s, none)
    namedOptions.filterMap fun (n, o) =>
      if Text.startsWith name.toList n.toList then some (o, n, value) else none
  | '-' :: c :: rest =>
    namedOptions.filterMap fun (n, o) =>
      if n = String.ofList ['-', c] then some (o, n, some (String.ofList rest)) else none
  | _ => []

def isNegativeNumber (s : String) : Bool :=
  match s.toList with
  | '-' :: digits =>
    let whole := digits.takeWhile Text.isDecimal
    match digits.dropWhile Text.isDecimal with
    | [] => !whole.isEmpty
    | ['\n'] => !whole.isEmpty
    | '.' :: fraction =>
      let fraction := if fraction.getLast? = some '\n' then fraction.dropLast else fraction
      !fraction.isEmpty && fraction.all Text.isDecimal
    | _ => false
  | _ => false

def classify (s : String) : Except Refusal Argument :=
  if s.toList.head? ≠ some '-' then .ok (.plain s)
  else
    match option? s with
    | some o => .ok (.option o s none)
    | none =>
      if s.length = 1 then .ok (.plain s)
      else
        match (cutAtEquals s).bind fun (n, v) => (option? n).map (·, n, v) with
        | some (o, n, v) => .ok (.option o n (some v))
        | none =>
          match candidates s with
          | [(o, n, v)] => .ok (.option o n v)
          | [] =>
            if isNegativeNumber s || Text.occurs [' '] s.toList then .ok (.plain s)
            else .ok (.unknown s)
          | many =>
            .error (.misuse ("ambiguous option: " ++ s ++ " could match " ++
              String.intercalate ", " (many.map (·.2.1))))

def classifyAll : List String → Except Refusal (List Argument)
  | [] => .ok []
  | s :: rest =>
    if s = "--" then .ok (.separator :: rest.map .plain)
    else do
      let a ← classify s
      let as ← classifyAll rest
      return a :: as

def misuseOf (o : Opt) (message : String) : Refusal :=
  .misuse ("argument " ++ o.title ++ ": " ++ message)

/-- The options that an argument stands for, with the value that it holds for the last of them.
`name` is the name of the option `o`, and `value` is what follows it in the argument. -/
def unfoldOption (o : Opt) (name : String) (value : List Char) :
    Except Refusal (List (Opt × Option String)) :=
  if o.takesValue then .ok [(o, some (String.ofList value))]
  else
    match value with
    | [] => .error (misuseOf o ("ignored explicit argument " ++ shown ""))
    | c :: rest =>
      if Text.startsWith ['-', '-'] name.toList then
        .error (misuseOf o ("ignored explicit argument " ++ shown (String.ofList value)))
      else
        let next := String.ofList ['-', c]
        match option? next with
        | none => .error (misuseOf o ("ignored explicit argument " ++ shown (String.ofList value)))
        | some p =>
          if rest.isEmpty then .ok [(o, none), (p, none)]
          else do
            let more ← unfoldOption p next rest
            return (o, none) :: more

/-- Apply an option. A value that is only a separator is lost. -/
def applyOption (given : Options) (o : Opt) (value : String) : Except Refusal Options :=
  match o.effect with
  | .help => .error .help
  | .flag set => .ok (set given)
  | .value set =>
    if value = "--" then .error (.fault (.tooFewParts 1 0))
    else
      match set value given with
      | .ok given => .ok given
      | .error message => .error (misuseOf o message)

def applyAll (given : Options) (os : List (Opt × String)) : Except Refusal Options :=
  os.foldlM (fun given (o, v) => applyOption given o v) given

/-- Read an option, and say whether its value was the next argument. -/
def readOption (given : Options) (o : Opt) (name : String) (value : Option String)
    (next : Option Argument) : Except Refusal (Options × Bool) := do
  let os ← match value with
    | some v => unfoldOption o name v.toList
    | none => pure [(o, none)]
  let front := os.dropLast.map fun (o, _) => (o, "")
  match os.getLast? with
  | none => return (given, false)
  | some (last, some v) => return (← applyAll given (front ++ [(last, v)]), false)
  | some (last, none) =>
    if last.takesValue then
      match next with
      | some (.plain v) => return (← applyAll given (front ++ [(last, v)]), true)
      | _ => throw (misuseOf last "expected one argument")
    else return (← applyAll given (front ++ [(last, "")]), false)

structure Reading where
  given : Options := {}
  /-- Whether there is no source file yet. -/
  «open» : Bool := true
  extras : List String := []

def readPlain (r : Reading) : List Argument → Reading
  | .plain s :: rest =>
    if r.open then readPlain { r with given := { r.given with source := some s }, «open» := false } rest
    else readPlain { r with extras := r.extras ++ [s] } rest
  | _ => r

/-- Read arguments. A separator right behind the source file is taken with it, and one in front of
it too; any other is left over. -/
def readArguments (r : Reading) : List Argument → Except Refusal Reading
  | [] => .ok r
  | .unknown s :: rest => readArguments { r with extras := r.extras ++ [s] } rest
  | .separator :: rest =>
    .ok (readPlain (if r.open then r else { r with extras := r.extras ++ ["--"] }) rest)
  | .plain s :: .separator :: rest =>
    if r.open then
      .ok (readPlain { r with given := { r.given with source := some s }, «open» := false } rest)
    else .ok (readPlain { r with extras := r.extras ++ [s, "--"] } rest)
  | .plain s :: rest =>
    if r.open then
      readArguments { r with given := { r.given with source := some s }, «open» := false } rest
    else readArguments { r with extras := r.extras ++ [s] } rest
  | .option o name value :: rest => do
    let (given, taken) ← readOption r.given o name value rest.head?
    readArguments { r with given } (if taken then rest.tail else rest)
termination_by as => as.length
decreasing_by
  all_goals simp only [List.length_cons]
  · omega
  · omega
  · omega
  · have : rest.tail.length ≤ rest.length := by simp
    grind

def Options.ofArguments (args : List String) : Except Refusal Options := do
  let r ← readArguments {} (← classifyAll args)
  if r.extras.isEmpty then return r.given
  else throw (.misuse ("unrecognized arguments: " ++ String.intercalate " " r.extras))

end GzLang.Command
