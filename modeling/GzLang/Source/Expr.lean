import GzLang.Text.Digit
import GzLang.Text.Split
import GzLang.Text.Word
import GzLang.Value.Basic

/-!
# Expressions

An expression is read by looking at its text as a whole: a text in quotes, a number, a constant,
a call, or two operands around the first occurrence of the loosest operator that occurs.
`Expr.parse` gives the tree; every node that a variable may stand for keeps its own text.
-/

namespace GzLang

/-- The operators, from the loosest to the tightest. -/
inductive Operator where
  | add
  | sub
  | mul
  | div
  | le
  | ge
  | eq
  | ne
  | lt
  | gt
  deriving DecidableEq, Repr

namespace Operator

def sign : Operator → List Char
  | add => ['+']
  | sub => ['-']
  | mul => ['*']
  | div => ['/']
  | le => ['<', '=']
  | ge => ['>', '=']
  | eq => ['=', '=']
  | ne => ['!', '=']
  | lt => ['<']
  | gt => ['>']

def all : List Operator := [add, sub, mul, div, le, ge, eq, ne, lt, gt]

/-- The operands around the first occurrence of an operator. A minus that stands in front of the
whole expression does not count. -/
def operands? (s : List Char) (op : Operator) : Option (List Char × List Char) :=
  if op = sub ∧ Text.startsWith ['-'] s then none else Text.cutFirst op.sign s

def split? (s : List Char) : Option (Operator × List Char × List Char) :=
  all.findSome? fun op => (operands? s op).map fun p => (op, p.1, p.2)

theorem sign_ne_nil (op : Operator) : op.sign ≠ [] := by
  cases op <;> simp [sign]

theorem length_of_split? {s l r : List Char} {op : Operator} (h : split? s = some (op, l, r)) :
    l.length < s.length ∧ r.length < s.length := by
  obtain ⟨o, _, ho⟩ := List.exists_of_findSome?_eq_some h
  obtain ⟨⟨a, b⟩, hab, he⟩ := Option.map_eq_some_iff.1 ho
  simp only [Prod.mk.injEq] at he
  obtain ⟨-, rfl, rfl⟩ := he
  simp only [operands?] at hab
  split at hab
  · simp at hab
  · have h1 := Text.length_of_cutFirst hab
    have h2 := List.length_pos_iff.2 (sign_ne_nil o)
    omega

end Operator

inductive Expr where
  | text (s : String)
  | digits (s : List Char)
  | constant (v : Value)
  | call (source name : String) (args : List Expr)
  | binary (source : String) (op : Operator) (left right : Expr)
  | other (source : String)
  deriving Inhabited

namespace Expr

def constant? (s : List Char) : Option Value :=
  if s = "tama".toList then some (.bool true)
  else if s = "mali".toList then some (.bool false)
  else if s = "wala".toList then some .null
  else none

def beforeLastClose? (s : List Char) : Option (List Char) :=
  match s.reverse.dropWhile (· ≠ ')') with
  | [] => none
  | _ :: r => some r.reverse

/-- A call at the start of a text: a name, an opening bracket, and the text up to the last closing
bracket of the line. What follows is ignored. -/
def call? (s : List Char) : Option (List Char × List Char) :=
  let name := s.takeWhile Text.isWord
  match s.dropWhile Text.isWord with
  | '(' :: rest =>
    if name.isEmpty then none
    else (beforeLastClose? (rest.takeWhile (· ≠ '\n'))).map fun args => (name, args)
  | _ => none

/-- The texts of the arguments of a call, at the commas between them. -/
def argTexts (s : List Char) : List (List Char) :=
  if Text.allBlank s then [] else Text.splitAll [','] s

theorem length_beforeLastClose? {s a : List Char} (h : beforeLastClose? s = some a) :
    a.length ≤ s.length := by
  simp only [beforeLastClose?] at h
  split at h
  · simp at h
  · rename_i r hr
    have h1 := (List.dropWhile_sublist (· ≠ ')') (l := s.reverse)).length_le
    rw [hr] at h1
    simp only [Option.some.injEq] at h
    simp only [← h, List.length_reverse, List.length_cons] at h1 ⊢
    omega

theorem length_of_call? {s name args : List Char} (h : call? s = some (name, args)) :
    args.length < s.length := by
  simp only [call?] at h
  split at h
  · rename_i rest hrest
    split at h
    · simp at h
    · obtain ⟨a, ha, he⟩ := Option.map_eq_some_iff.1 h
      simp only [Prod.mk.injEq] at he
      obtain ⟨-, rfl⟩ := he
      have h1 := length_beforeLastClose? ha
      have h2 := (List.takeWhile_sublist (· ≠ '\n') (l := rest)).length_le
      have h3 := (List.dropWhile_sublist Text.isWord (l := s)).length_le
      rw [hrest] at h3
      simp only [List.length_cons] at h3
      omega
  · simp at h

end Expr

namespace Text

/-- A piece of a text that is cut at a separator is no longer than the text. -/
theorem length_le_of_mem_splitAll {sep s p : List Char} (h : p ∈ splitAll sep s) :
    p.length ≤ s.length := by
  fun_induction splitAll sep s with
  | case1 s => simp_all
  | case2 s _ _ => simp_all
  | case3 s hs l r hc ih =>
    have h1 := length_of_cutFirst hc
    rcases List.mem_cons.1 h with rfl | h'
    · omega
    · have := ih h'
      omega

end Text

namespace Expr

theorem length_le_of_mem_argTexts {s p : List Char} (h : p ∈ argTexts s) :
    p.length ≤ s.length := by
  simp only [argTexts] at h
  split at h
  · simp at h
  · exact Text.length_le_of_mem_splitAll h

def parse (s : List Char) : Expr :=
  if Text.startsWith ['"'] s && Text.endsWith ['"'] s then .text (String.ofList s.tail.dropLast)
  else if Text.allDigits s then .digits s
  else
    match constant? s with
    | some v => .constant v
    | none =>
      match _h : call? s with
      | some (name, args) =>
        .call (String.ofList s) (String.ofList name)
          ((argTexts args).attach.map fun ⟨a, _⟩ => parse (Text.trim a))
      | none =>
        match _h : Operator.split? s with
        | some (op, l, r) =>
          .binary (String.ofList s) op (parse (Text.trim l)) (parse (Text.trim r))
        | none => .other (String.ofList s)
termination_by s.length
decreasing_by
  · have hmem : a ∈ argTexts args := by assumption
    have h1 := length_of_call? _h
    have h2 := length_le_of_mem_argTexts hmem
    have h3 := Text.length_trim_le a
    omega
  · have h1 := Operator.length_of_split? _h
    have h2 := Text.length_trim_le l
    omega
  · have h1 := Operator.length_of_split? _h
    have h2 := Text.length_trim_le r
    omega

end Expr

end GzLang
