import GzLang.Text.Split

/-!
# The tree of a script

Expressions are names, integers, calls, comparisons and the logical operations; statements are
those of the parser. The nodes of a tree are listed by depth, each with whether it stands inside a
function.
-/

namespace GzLang.Script

inductive Expr where
  | name (s : String)
  | number (n : Nat)
  | call (f : Expr) (args : List Expr)
  | compare (left : Expr) (rest : List (String × Expr))
  | not (e : Expr)
  | and (es : List Expr)
  | or (es : List Expr)
  deriving Inhabited

/-- A statement. A handler is a node of its own below its `try`. -/
inductive Stmt where
  | word (s : String)
  | result (value : Option Expr)
  | assign (targets : List String) (value : Expr)
  | eval (e : Expr)
  | function (line : Nat) (name : String) (params : List String) (body : List Stmt)
  | class_ (name : String) (bases : Option (List Expr)) (body : List Stmt)
  | branch (line : Nat) (test : Expr) (body orElse : List Stmt)
  | forEach (target : String) (source : Expr) (body orElse : List Stmt)
  | while_ (test : Expr) (body orElse : List Stmt)
  | try_ (body handlers orElse final : List Stmt)
  | handler (kind : Option Expr) (body : List Stmt)
  deriving Inhabited

mutual

/-- How many branches the conjunctions of an expression add. -/
def Expr.conjunctions : Expr → Nat
  | .name _ => 0
  | .number _ => 0
  | .call f args => f.conjunctions + Expr.conjunctionsOf args
  | .compare l rest => l.conjunctions + Expr.conjunctionsOfPairs rest
  | .not e => e.conjunctions
  | .and es => es.length - 1 + Expr.conjunctionsOf es
  | .or es => Expr.conjunctionsOf es

def Expr.conjunctionsOf : List Expr → Nat
  | [] => 0
  | e :: es => e.conjunctions + Expr.conjunctionsOf es

def Expr.conjunctionsOfPairs : List (String × Expr) → Nat
  | [] => 0
  | (_, e) :: es => e.conjunctions + Expr.conjunctionsOfPairs es

end

def Expr.conjunctions? (e : Option Expr) : Nat :=
  (e.map Expr.conjunctions).getD 0

/-- How many branches a statement itself adds, without the statements below it. -/
def Stmt.ownComplexity : Stmt → Nat
  | .word _ => 0
  | .result v => Expr.conjunctions? v
  | .assign _ v => v.conjunctions
  | .eval e => e.conjunctions
  | .function .. => 0
  | .class_ _ bases _ => Expr.conjunctionsOf (bases.getD [])
  | .branch _ t .. => 1 + t.conjunctions
  | .forEach _ s .. => 1 + s.conjunctions
  | .while_ t .. => 1 + t.conjunctions
  | .try_ .. => 1
  | .handler k _ => Expr.conjunctions? k

def Stmt.isFunction : Stmt → Bool
  | .function .. => true
  | _ => false

def Stmt.isClass : Stmt → Bool
  | .class_ .. => true
  | _ => false

structure Node where
  stmt : Stmt
  inFunction : Bool

/-- Two lists of layers laid over each other, the first one in front. -/
def overlay : List (List Node) → List (List Node) → List (List Node)
  | [], ys => ys
  | xs, [] => xs
  | x :: xs, y :: ys => (x ++ y) :: overlay xs ys

mutual

def layers (inFunction : Bool) : Stmt → List (List Node)
  | .function l n ps body => [⟨.function l n ps body, inFunction⟩] :: layersOf true body
  | .class_ n bs body => [⟨.class_ n bs body, inFunction⟩] :: layersOf inFunction body
  | .branch l t body orElse =>
    [⟨.branch l t body orElse, inFunction⟩] ::
      overlay (layersOf inFunction body) (layersOf inFunction orElse)
  | .forEach x s body orElse =>
    [⟨.forEach x s body orElse, inFunction⟩] ::
      overlay (layersOf inFunction body) (layersOf inFunction orElse)
  | .while_ t body orElse =>
    [⟨.while_ t body orElse, inFunction⟩] ::
      overlay (layersOf inFunction body) (layersOf inFunction orElse)
  | .try_ body handlers orElse final =>
    [⟨.try_ body handlers orElse final, inFunction⟩] ::
      overlay (overlay (layersOf inFunction body) (layersOf inFunction handlers))
        (overlay (layersOf inFunction orElse) (layersOf inFunction final))
  | .handler k body => [⟨.handler k body, inFunction⟩] :: layersOf inFunction body
  | .word s => [[⟨.word s, inFunction⟩]]
  | .result v => [[⟨.result v, inFunction⟩]]
  | .assign ts v => [[⟨.assign ts v, inFunction⟩]]
  | .eval e => [[⟨.eval e, inFunction⟩]]

def layersOf (inFunction : Bool) : List Stmt → List (List Node)
  | [] => []
  | s :: ss => overlay (layers inFunction s) (layersOf inFunction ss)

end

/-- The nodes of a script, those nearer to the top first. -/
def nodes (script : List Stmt) : List Node :=
  (layersOf false script).flatten

def complexity (script : List Stmt) : Nat :=
  ((nodes script).map fun n => n.stmt.ownComplexity).foldl (· + ·) 0

end GzLang.Script
