import GzLang.Script.Token
import GzLang.Script.Tree

/-!
# Reading scripts

The tree of a script, from its tokens. Every function takes a bound on the number of tokens that are
left and gives what it read together with the rest, or nothing if the script is not well formed.
-/

namespace GzLang.Script

def keywords : List String :=
  ["False", "None", "True", "and", "as", "assert", "async", "await", "break", "class", "continue",
    "def", "del", "elif", "else", "except", "finally", "for", "from", "global", "if", "import",
    "in", "is", "lambda", "nonlocal", "not", "or", "pass", "raise", "return", "try", "while",
    "with", "yield"]

def constants : List String := ["False", "None", "True"]

def expect (x : Lexeme) : List Token → Option (List Token)
  | t :: ts => if t.lexeme = x then some ts else none
  | [] => none

def readName : List Token → Option (String × List Token)
  | ⟨.word s, _⟩ :: ts => if s ∈ keywords then none else some (s, ts)
  | _ => none

def readRelation? : List Token → Option (String × List Token)
  | ⟨.sign s, _⟩ :: ts =>
    if s ∈ ["==", "!=", "<", "<=", ">", ">="] then some (s, ts) else none
  | ⟨.word "in", _⟩ :: ts => some ("in", ts)
  | ⟨.word "not", _⟩ :: ⟨.word "in", _⟩ :: ts => some ("not in", ts)
  | ⟨.word "is", _⟩ :: ⟨.word "not", _⟩ :: ts => some ("is not", ts)
  | ⟨.word "is", _⟩ :: ts => some ("is", ts)
  | _ => none

mutual

def readExpr : Nat → List Token → Option (Expr × List Token)
  | 0, _ => none
  | fuel + 1, ts => do
    let (e, ts) ← readAnd fuel ts
    let (es, ts) ← readMore "or" fuel ts
    return (if es.isEmpty then e else .or (e :: es), ts)

def readAnd : Nat → List Token → Option (Expr × List Token)
  | 0, _ => none
  | fuel + 1, ts => do
    let (e, ts) ← readNot fuel ts
    let (es, ts) ← readMore "and" fuel ts
    return (if es.isEmpty then e else .and (e :: es), ts)

def readMore (op : String) : Nat → List Token → Option (List Expr × List Token)
  | 0, _ => none
  | fuel + 1, ts =>
    match expect (.word op) ts with
    | none => some ([], ts)
    | some ts => do
      let (e, ts) ← if op = "or" then readAnd fuel ts else readNot fuel ts
      let (es, ts) ← readMore op fuel ts
      return (e :: es, ts)

def readNot : Nat → List Token → Option (Expr × List Token)
  | 0, _ => none
  | fuel + 1, ts =>
    match expect (.word "not") ts with
    | some ts => do
      let (e, ts) ← readNot fuel ts
      return (.not e, ts)
    | none => do
      let (l, ts) ← readPrimary fuel ts
      let (rest, ts) ← readRelations fuel ts
      return (if rest.isEmpty then l else .compare l rest, ts)

def readRelations : Nat → List Token → Option (List (String × Expr) × List Token)
  | 0, _ => none
  | fuel + 1, ts =>
    match readRelation? ts with
    | none => some ([], ts)
    | some (op, ts) => do
      let (e, ts) ← readPrimary fuel ts
      let (rest, ts) ← readRelations fuel ts
      return ((op, e) :: rest, ts)

def readPrimary : Nat → List Token → Option (Expr × List Token)
  | 0, _ => none
  | fuel + 1, ts => do
    let (e, ts) ← readAtom fuel ts
    readCalls fuel e ts

def readCalls : Nat → Expr → List Token → Option (Expr × List Token)
  | 0, _, _ => none
  | fuel + 1, f, ts =>
    match expect (.sign "(") ts with
    | none => some (f, ts)
    | some ts => do
      let (args, ts) ← readArgs fuel ts
      readCalls fuel (.call f args) ts

def readArgs : Nat → List Token → Option (List Expr × List Token)
  | 0, _ => none
  | fuel + 1, ts =>
    match expect (.sign ")") ts with
    | some ts => some ([], ts)
    | none => do
      let (e, ts) ← readExpr fuel ts
      match expect (.sign ",") ts with
      | some ts => do
        let (es, ts) ← readArgs fuel ts
        return (e :: es, ts)
      | none => do
        let ts ← expect (.sign ")") ts
        return ([e], ts)

/-- A name, an integer, or an expression in brackets. -/
def readAtom : Nat → List Token → Option (Expr × List Token)
  | 0, _ => none
  | fuel + 1, ts =>
    match ts with
    | ⟨.number n, _⟩ :: ts => some (.number n, ts)
    | ⟨.word s, _⟩ :: ts =>
      if s ∈ constants || !(s ∈ keywords) then some (.name s, ts) else none
    | ⟨.sign "(", _⟩ :: ts => do
      let (e, ts) ← readExpr fuel ts
      let ts ← expect (.sign ")") ts
      return (e, ts)
    | _ => none

end

def target? : Expr → Option String
  | .name s => if s ∈ constants then none else some s
  | _ => none

/-- A bound for reading the expression at the front of some tokens. -/
def exprFuel (ts : List Token) : Nat := 8 * ts.length + 8

def expr? (ts : List Token) : Option (Expr × List Token) := readExpr (exprFuel ts) ts

def values? : Nat → List Token → Option (List Expr × List Token)
  | 0, _ => none
  | fuel + 1, ts =>
    match expect (.sign "=") ts with
    | none => some ([], ts)
    | some ts => do
      let (e, ts) ← expr? ts
      let (es, ts) ← values? fuel ts
      return (e :: es, ts)

def atEnd : List Token → Bool
  | ⟨.newline, _⟩ :: _ => true
  | ⟨.sign ";", _⟩ :: _ => true
  | _ => false

def simple? (ts : List Token) : Option (Stmt × List Token) :=
  match ts with
  | ⟨.word "pass", _⟩ :: ts => some (.word "pass", ts)
  | ⟨.word "break", _⟩ :: ts => some (.word "break", ts)
  | ⟨.word "continue", _⟩ :: ts => some (.word "continue", ts)
  | ⟨.word "return", _⟩ :: ts =>
    if atEnd ts then some (.result none, ts)
    else (expr? ts).map fun (e, ts) => (.result (some e), ts)
  | ts => do
    let (e, ts) ← expr? ts
    let (es, ts) ← values? (ts.length + 1) ts
    match es.getLast? with
    | none => return (.eval e, ts)
    | some v =>
      let targets ← (e :: es.dropLast).mapM target?
      return (.assign targets v, ts)

def simpleLine? : Nat → List Token → Option (List Stmt × List Token)
  | 0, _ => none
  | fuel + 1, ts => do
    let (s, ts) ← simple? ts
    match ts with
    | ⟨.newline, _⟩ :: ts => return ([s], ts)
    | ⟨.sign ";", _⟩ :: ⟨.newline, _⟩ :: ts => return ([s], ts)
    | ⟨.sign ";", _⟩ :: ts => do
      let (ss, ts) ← simpleLine? fuel ts
      return (s :: ss, ts)
    | _ => none

def params? : Nat → List Token → Option (List String × List Token)
  | 0, _ => none
  | fuel + 1, ts =>
    match expect (.sign ")") ts with
    | some ts => some ([], ts)
    | none => do
      let (p, ts) ← readName ts
      match expect (.sign ",") ts with
      | some ts => do
        let (ps, ts) ← params? fuel ts
        return (p :: ps, ts)
      | none => do
        let ts ← expect (.sign ")") ts
        return ([p], ts)

def bases? (ts : List Token) : Option (Option (List Expr) × List Token) :=
  match expect (.sign "(") ts with
  | none => some (none, ts)
  | some ts => (readArgs (exprFuel ts) ts).map fun (es, ts) => (some es, ts)

mutual

/-- A statement; a line of simple ones gives several. -/
def stmt? : Nat → List Token → Option (List Stmt × List Token)
  | 0, _ => none
  | fuel + 1, ts =>
    match ts with
    | ⟨.word "def", line⟩ :: ts => do
      let (name, ts) ← readName ts
      let ts ← expect (.sign "(") ts
      let (ps, ts) ← params? (ts.length + 1) ts
      let (body, ts) ← suite? fuel ts
      return ([.function line name ps body], ts)
    | ⟨.word "class", _⟩ :: ts => do
      let (name, ts) ← readName ts
      let (bs, ts) ← bases? ts
      let (body, ts) ← suite? fuel ts
      return ([.class_ name bs body], ts)
    | ⟨.word "if", line⟩ :: ts => do
      let (s, ts) ← branch? fuel line ts
      return ([s], ts)
    | ⟨.word "for", _⟩ :: ts => do
      let (x, ts) ← readName ts
      let ts ← expect (.word "in") ts
      let (e, ts) ← expr? ts
      let (body, ts) ← suite? fuel ts
      let (orElse, ts) ← else? fuel ts
      return ([.forEach x e body orElse], ts)
    | ⟨.word "while", _⟩ :: ts => do
      let (e, ts) ← expr? ts
      let (body, ts) ← suite? fuel ts
      let (orElse, ts) ← else? fuel ts
      return ([.while_ e body orElse], ts)
    | ⟨.word "try", _⟩ :: ts => do
      let (body, ts) ← suite? fuel ts
      let (handlers, ts) ← handlers? fuel ts
      let (orElse, ts) ← if handlers.isEmpty then some ([], ts) else else? fuel ts
      let (final, ts) ←
        match expect (.word "finally") ts with
        | some ts => suite? fuel ts
        | none => some ([], ts)
      if handlers.isEmpty && final.isEmpty then none
      else return ([.try_ body handlers orElse final], ts)
    | ts => simpleLine? (ts.length + 1) ts

/-- A condition with its block and what follows it. -/
def branch? : Nat → Nat → List Token → Option (Stmt × List Token)
  | 0, _, _ => none
  | fuel + 1, line, ts => do
    let (test, ts) ← expr? ts
    let (body, ts) ← suite? fuel ts
    match ts with
    | ⟨.word "elif", line'⟩ :: ts => do
      let (s, ts) ← branch? fuel line' ts
      return (.branch line test body [s], ts)
    | ts => do
      let (orElse, ts) ← else? fuel ts
      return (.branch line test body orElse, ts)

def else? : Nat → List Token → Option (List Stmt × List Token)
  | 0, _ => none
  | fuel + 1, ts =>
    match expect (.word "else") ts with
    | some ts => suite? fuel ts
    | none => some ([], ts)

def handlers? : Nat → List Token → Option (List Stmt × List Token)
  | 0, _ => none
  | fuel + 1, ts =>
    match expect (.word "except") ts with
    | none => some ([], ts)
    | some ts => do
      let (kind, ts) ←
        match expect (.sign ":") ts with
        | some _ => some (none, ts)
        | none => (expr? ts).map fun (e, ts) => (some e, ts)
      let (body, ts) ← suite? fuel ts
      let (more, ts) ← handlers? fuel ts
      return (.handler kind body :: more, ts)

/-- The block behind a header: indented below it, or on the same line. -/
def suite? : Nat → List Token → Option (List Stmt × List Token)
  | 0, _ => none
  | fuel + 1, ts => do
    let ts ← expect (.sign ":") ts
    match ts with
    | ⟨.newline, _⟩ :: ⟨.indent, _⟩ :: ts => block? fuel ts
    | ts => simpleLine? (ts.length + 1) ts

/-- The statements of an indented block, of which there is at least one. -/
def block? : Nat → List Token → Option (List Stmt × List Token)
  | 0, _ => none
  | fuel + 1, ts => do
    let (ss, ts) ← stmt? fuel ts
    match ts with
    | ⟨.dedent, _⟩ :: ts => return (ss, ts)
    | ts => do
      let (more, ts) ← block? fuel ts
      return (ss ++ more, ts)

end

def script? : Nat → List Token → Option (List Stmt)
  | 0, _ => none
  | _ + 1, [] => some []
  | fuel + 1, ts => do
    let (ss, ts) ← stmt? (8 * ts.length + 8) ts
    let more ← script? fuel ts
    return ss ++ more

def parse? (code : List Char) : Option (List Stmt) := do
  if code.contains '\x00' then none
  else
    let ts ← tokens? code
    script? (ts.length + 1) ts

end GzLang.Script
