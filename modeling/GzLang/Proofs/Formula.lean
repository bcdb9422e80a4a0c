import GzLang.Machine.Eval

/-!
# Formulas and their conventional value

Formulas without grouping brackets, as they are meant: a comparison binds loosest, then `+` and
`-`, then `*`, then calls. A formula keeps the spaces around its operands, so that it has a text
(`Formula.text`), and it has a value by the usual rules (`Formula.eval`): operands are evaluated
from the left, and each operator takes everything of its rank to its left as its first operand.
Neither the text nor the value refers to the reading of expressions.
-/

namespace GzLang

/-- One or more things with a separator between them. -/
structure Chain (α : Type) where
  first : α
  rest : List α

namespace Chain

variable {α : Type}

def toList (c : Chain α) : List α := c.first :: c.rest

def text (sep : Char) (write : α → List Char) (c : Chain α) : List Char :=
  write c.first ++ c.rest.flatMap fun a => sep :: write a

def product (f : α → Run Value) (c : Chain α) : Run Value := do
  c.rest.foldlM (fun v a => do Action.ofExcept (v.mul (← f a))) (← f c.first)

end Chain

inductive Sign where
  | plus
  | minus
  deriving DecidableEq, Repr

namespace Sign

def flip : Sign → Sign
  | plus => minus
  | minus => plus

def apply : Sign → Value → Value → Except Fault Value
  | plus => Value.add
  | minus => Value.sub

end Sign

/-- A sum of differences of products: the sequence of signed products that a text of `+`, `-` and
`*` denotes, cut at the plus signs and then at the minus signs. -/
abbrev Arith (α : Type) := Chain (Chain (Chain α))

namespace Arith

variable {α : Type}

def text (write : α → List Char) (s : Arith α) : List Char :=
  Chain.text '+' (Chain.text '-' (Chain.text '*' write)) s

def signed (d : Chain (Chain α)) : List (Sign × Chain α) :=
  (.plus, d.first) :: d.rest.map fun p => (.minus, p)

def terms (s : Arith α) : List (Sign × Chain α) := s.toList.flatMap signed

def operands (s : Arith α) : List α :=
  s.toList.flatMap fun d => d.toList.flatMap Chain.toList

/-- The value of a sum: the first product, to which the others are added, or from which they are
subtracted, from the left. -/
def eval (f : α → Run Value) (s : Arith α) : Run Value := do
  s.terms.tail.foldlM (fun v t => do Action.ofExcept (t.1.apply v (← t.2.product f)))
    (← s.first.first.product f)

end Arith

/-! ### Operands -/

structure Literal where
  digits : List Char
  ne_nil : digits ≠ []
  decimal : ∀ c ∈ digits, c.isDigit = true
  short : digits.length ≤ Text.maxLiteralDigits

def Literal.value (l : Literal) : Nat :=
  l.digits.foldl (fun n c => 10 * n + (c.toNat - '0'.toNat)) 0

structure Identifier where
  chars : List Char
  ne_nil : chars ≠ []
  word : ∀ c ∈ chars, Text.isWord c = true

/-- The name of a variable, which is neither a number nor a constant. -/
structure Variable extends Identifier where
  not_digits : Text.allDigits chars = false
  not_constant : Expr.constant? chars = none

def Identifier.name (x : Identifier) : String := String.ofList x.chars

inductive Atom where
  | number (l : Literal)
  | name (x : Variable)

namespace Atom

def text : Atom → List Char
  | number l => l.digits
  | name x => x.chars

def eval : Atom → Run Value
  | number l => pure (.int l.value)
  | name x => do return (← Machine.lookup x.name).getD .null

end Atom

structure Spaced (α : Type) where
  before : Nat
  core : α
  after : Nat

def Spaced.text {α : Type} (write : α → List Char) (s : Spaced α) : List Char :=
  List.replicate s.before ' ' ++ (write s.core ++ List.replicate s.after ' ')

/-- An operand: an atom, or a call whose arguments are sums of atoms. -/
inductive Operand where
  | atom (a : Atom)
  | call (f : Identifier) (args : List (Arith (Spaced Atom)))

namespace Operand

def argsText : List (Arith (Spaced Atom)) → List Char
  | [] => []
  | a :: args => Chain.text ',' (Arith.text (Spaced.text Atom.text)) ⟨a, args⟩

def text : Operand → List Char
  | atom a => a.text
  | call f args => f.chars ++ '(' :: (argsText args ++ [')'])

def eval (call : Caller) : Operand → Run Value
  | atom a => a.eval
  | .call f args => do
    let vs ← args.mapM (Arith.eval fun a => a.core.eval)
    call f.name vs

def isCall : Operand → Bool
  | atom _ => false
  | call _ _ => true

end Operand

/-! ### Formulas -/

inductive Comparison where
  | le
  | ge
  | eq
  | ne
  | lt
  | gt
  deriving DecidableEq, Repr

def Comparison.operator : Comparison → Operator
  | le => .le
  | ge => .ge
  | eq => .eq
  | ne => .ne
  | lt => .lt
  | gt => .gt

inductive Formula where
  | arith (s : Arith (Spaced Operand))
  | compare (r : Comparison) (left right : Arith (Spaced Operand))

namespace Formula

def text : Formula → List Char
  | arith s => Arith.text (Spaced.text Operand.text) s
  | compare r s t =>
    Arith.text (Spaced.text Operand.text) s ++
      (r.operator.sign ++ Arith.text (Spaced.text Operand.text) t)

def eval (call : Caller) : Formula → Run Value
  | arith s => Arith.eval (fun o => o.core.eval call) s
  | compare r s t => do
    let v ← Arith.eval (fun o => o.core.eval call) s
    let w ← Arith.eval (fun o => o.core.eval call) t
    Action.ofExcept (r.operator.apply v w)

def operands : Formula → List (Spaced Operand)
  | arith s => s.operands
  | compare _ s t => s.operands ++ t.operands

end Formula

end GzLang
