import GzLang.Script.Tree

/-!
# The printed form of a script

Every header and every simple statement has a line of its own. Operations have brackets where
their place needs them, and a condition that continues an `else` is joined to it. Inside another
statement a function has one blank line before it, and a class two.
-/

namespace GzLang.Script

def Expr.rank : Expr → Nat
  | .or _ => 1
  | .and _ => 2
  | .not _ => 3
  | .compare .. => 4
  | _ => 5

def bracketed (needed : Bool) (s : String) : String :=
  if needed then "(" ++ s ++ ")" else s

mutual

/-- An expression at a place for expressions of at least the given rank. -/
def Expr.print (least : Nat) : Expr → String
  | .name s => s
  | .number n => toString n
  | .call f args => f.print 5 ++ "(" ++ String.intercalate ", " (Expr.printAll 0 args) ++ ")"
  | .compare l rest =>
    bracketed (4 < least) (l.print 5 ++ Expr.printRest rest)
  | .not e => bracketed (3 < least) ("not " ++ e.print 3)
  | .and es => bracketed (2 < least) (String.intercalate " and " (Expr.printAll 3 es))
  | .or es => bracketed (1 < least) (String.intercalate " or " (Expr.printAll 2 es))

def Expr.printAll (least : Nat) : List Expr → List String
  | [] => []
  | e :: es => e.print least :: Expr.printAll least es

def Expr.printRest : List (String × Expr) → String
  | [] => ""
  | (op, e) :: es => " " ++ op ++ " " ++ e.print 5 ++ Expr.printRest es

end

def margin (level : Nat) : String :=
  String.ofList (List.replicate (4 * level) ' ')

def classHeader (name : String) (bases : Option (List Expr)) : String :=
  match bases with
  | none | some [] => "class " ++ name ++ ":"
  | some bs => "class " ++ name ++ "(" ++ String.intercalate ", " (Expr.printAll 0 bs) ++ "):"

def Stmt.simpleText : Stmt → String
  | .word s => s
  | .result none => "return"
  | .result (some e) => "return " ++ e.print 0
  | .assign ts v => String.intercalate " = " (ts ++ [v.print 0])
  | .eval e => e.print 0
  | _ => ""

mutual

/-- The lines of a statement at a level, without blank lines before it. -/
def Stmt.lines (level : Nat) : Stmt → List String
  | .function _ n ps body =>
    (margin level ++ "def " ++ n ++ "(" ++ String.intercalate ", " ps ++ "):") ::
      blockLines (level + 1) body
  | .class_ n bs body => (margin level ++ classHeader n bs) :: blockLines (level + 1) body
  | .branch _ t body orElse =>
    (margin level ++ "if " ++ t.print 0 ++ ":") ::
      (blockLines (level + 1) body ++ elseLines level orElse)
  | .forEach x s body orElse =>
    (margin level ++ "for " ++ x ++ " in " ++ s.print 0 ++ ":") ::
      (blockLines (level + 1) body ++ plainElseLines level orElse)
  | .while_ t body orElse =>
    (margin level ++ "while " ++ t.print 0 ++ ":") ::
      (blockLines (level + 1) body ++ plainElseLines level orElse)
  | .try_ body handlers orElse final =>
    (margin level ++ "try:") ::
      (blockLines (level + 1) body ++ blockLines level handlers ++
        plainElseLines level orElse ++ finalLines level final)
  | .handler none body => (margin level ++ "except:") :: blockLines (level + 1) body
  | .handler (some k) body =>
    (margin level ++ "except " ++ k.print 0 ++ ":") :: blockLines (level + 1) body
  | .word s => [margin level ++ Stmt.simpleText (.word s)]
  | .result v => [margin level ++ Stmt.simpleText (.result v)]
  | .assign ts v => [margin level ++ Stmt.simpleText (.assign ts v)]
  | .eval e => [margin level ++ Stmt.simpleText (.eval e)]
termination_by s => 3 * sizeOf s

def blockLines (level : Nat) (block : List Stmt) : List String :=
  match block with
  | [] => []
  | s :: ss =>
    (match s with
      | .function .. => [""]
      | .class_ .. => ["", ""]
      | _ => []) ++ Stmt.lines level s ++ blockLines level ss
termination_by 3 * sizeOf block

/-- The lines of what follows a condition. A condition that stands alone there is joined to it. -/
def elseLines (level : Nat) (block : List Stmt) : List String :=
  match block with
  | [.branch _ t body orElse] =>
    (margin level ++ "elif " ++ t.print 0 ++ ":") ::
      (blockLines (level + 1) body ++ elseLines level orElse)
  | ss => plainElseLines level ss
termination_by 3 * sizeOf block + 2

def plainElseLines (level : Nat) (block : List Stmt) : List String :=
  match block with
  | [] => []
  | s :: ss => (margin level ++ "else:") :: blockLines (level + 1) (s :: ss)
termination_by 3 * sizeOf block + 1

def finalLines (level : Nat) (block : List Stmt) : List String :=
  match block with
  | [] => []
  | s :: ss => (margin level ++ "finally:") :: blockLines (level + 1) (s :: ss)
termination_by 3 * sizeOf block + 1

end

/-- The number of lines of a statement's printed form, counting the end of the text as one. -/
def Stmt.length (s : Stmt) : Nat :=
  (s.lines 0).length + 1

def blockText (block : List Stmt) : String :=
  String.intercalate "\n" (blockLines 0 block)

/-- The text of a condition: an operation stands in brackets unless the condition is inside a
function. -/
def conditionText (inFunction : Bool) (test : Expr) : String :=
  test.print (if inFunction then 0 else 5) ++ "\n"

end GzLang.Script
