import Mathlib.Algebra.Ring.Int.Defs
import GzLang.Proofs.FormulaReading
import GzLang.Proofs.Scope

/-!
# The value of formulas

A tree that reads a formula has its terms and factors in order, but not always grouped as they are
meant. Its value is the conventional one all the same: it gives the signed sum of the products of
what the operands give (`gives_of_readsTerms`), and so does the formula by the usual rules
(`gives_arith`). This needs that the operands give integers and keep the scope (`Formula.Numeric`),
and that no variable is named like a formula (`Expr.CleanNames`). The main result,
`Formula.meaning_of_text`, adds which formulas are read as they are meant.
-/

namespace GzLang

open GzLang.Action List Text

variable {α : Type}

variable {a : Run Value}
variable {call : Caller} {e : Expr} {x : Run Int} {l : List α} {f : α → Run Int} {s : List Char}

/-! ### Sums and products of runs -/

/-- The product of the integers that runs end with, in order. -/
def runProduct (f : α → Run Int) : List α → Run Int
  | [] => pure 1
  | a :: l => do
    let i ← f a
    let j ← runProduct f l
    return i * j

def Sign.signed : Sign → Int → Int
  | plus, i => i
  | minus, i => -i

/-- The signed sum of the integers that runs end with, in order. -/
def runSum (f : α → Run Int) : List (Sign × α) → Run Int
  | [] => pure 0
  | t :: l => do
    let i ← f t.2
    let j ← runSum f l
    return t.1.signed i + j

theorem runProduct_append (f : α → Run Int) (l l' : List α) : runProduct f (l ++ l') = do
      let i ← runProduct f l
      let j ← runProduct f l'
      return i * j := by
  induction l with
  | nil => simp only [nil_append, runProduct, pure_bind, one_mul, bind_pure]
  | cons a l ih => simp only [cons_append, runProduct, ih, bind_assoc, pure_bind, mul_assoc]

theorem runSum_append (f : α → Run Int) (l l' : List (Sign × α)) : runSum f (l ++ l') = do
      let i ← runSum f l
      let j ← runSum f l'
      return i + j := by
  induction l with
  | nil => simp only [nil_append, runSum, pure_bind, zero_add, bind_pure]
  | cons a l ih => simp only [cons_append, runSum, ih, bind_assoc, pure_bind, add_assoc]

theorem runSum_flip (f : α → Run Int) (l : List (Sign × α)) : runSum f (l.map fun t => (t.1.flip, t.2)) = do
      let i ← runSum f l
      return -i := by
  have hs (s : Sign) (i : Int) : s.flip.signed i = -s.signed i := by
    cases s <;> simp [Sign.flip, Sign.signed]
  induction l with
  | nil => simp only [map_nil, runSum, pure_bind, neg_zero]
  | cons a l ih => simp only [map_cons, runSum, ih, hs, bind_assoc, pure_bind, neg_add]

/-! ### Values of trees -/

def Machine.SameScope (m₀ m : Machine) : Prop := m.scope = m₀.scope

/-- A run ends with an integer, the same as another run does, and keeps the scope. -/
def Gives (m₀ : Machine) (a : Run Value) (b : Run Int) : Prop :=
  Agrees m₀.SameScope a (do return .int (← b))

variable {m₀ : Machine}

theorem Gives.bind (ha : Gives m₀ a x) {f : Value → Run α}
    {g : Int → Run α} (hfg : ∀ i, Agrees m₀.SameScope (f (.int i)) (g i)) :
    Agrees m₀.SameScope (a >>= f) (x >>= g) := by
  intro m hm
  obtain ⟨he, hk⟩ := ha hm
  rw [perform_bind] at he
  rw [perform_bind, perform_bind, he]
  rcases h : x.perform m with ⟨e | i, m'⟩
  · exact ⟨rfl, by rintro _ _ ⟨⟩⟩
  · rw [h] at he
    exact hfg i (hk he)

theorem Gives.next (ha : Gives m₀ a x) {f : Value → Run Value}
    {g : Int → Run Int} (hfg : ∀ i, Gives m₀ (f (.int i)) (g i)) : Gives m₀ (a >>= f) (x >>= g) := by
  unfold Gives
  rw [bind_assoc]
  exact ha.bind hfg

theorem gives_pure (i : Int) : Gives m₀ (pure (.int i)) (pure i) := by
  unfold Gives
  rw [pure_bind]
  exact agrees_pure _

theorem Gives.apply {a b : Run Value} {y : Run Int} (ha : Gives m₀ a x) (hb : Gives m₀ b y)
    {f : Value → Value → Except Fault Value} {g : Int → Int → Int}
    (hf : ∀ i j, f (.int i) (.int j) = .ok (.int (g i j))) :
    Gives m₀ (do Action.ofExcept (f (← a) (← b))) do return g (← x) (← y) := by
  refine ha.next fun i => hb.next fun j => ?_
  rw [hf]
  exact gives_pure (g i j)

theorem agrees_orVariable {source : String} (h : Table.get? m₀.bindings source = none)
    {a b : Run Value} (hab : Agrees m₀.SameScope a b) :
    Agrees m₀.SameScope (orVariable source a) b := by
  intro m hm
  have hb : m.bindings = m₀.bindings := congrArg Prod.fst hm
  rw [perform_orVariable_none (by rw [hb, h])]
  exact hab hm

namespace Expr

variable {t : Table Value}

/-- No composite piece of an expression is the name of a variable. -/
inductive Nameless (t : Table Value) : Expr → Prop
  | text (s : String) : Nameless t (.text s)
  | digits (s : List Char) : Nameless t (.digits s)
  | constant (v : Value) : Nameless t (.constant v)
  | other (source : String) : Nameless t (.other source)
  | call {source : String} (name : String) {args : List Expr}
    (h : Table.get? t source = none) (hargs : ∀ a ∈ args, Nameless t a) :
    Nameless t (.call source name args)
  | binary {source : String} (op : Operator) {l r : Expr}
    (h : Table.get? t source = none) (hl : Nameless t l) (hr : Nameless t r) :
    Nameless t (.binary source op l r)

/-- The names of the variables are free of brackets and operators. -/
def CleanNames (t : Table Value) : Prop :=
  ∀ x ∈ t.map Prod.fst, ∀ c ∈ x.toList, c ≠ '(' ∧ Operator.isSign c = false

theorem get?_eq_none_of_cleanNames (ht : CleanNames t) {c : Char}
    (hc : c ∈ s) (hbad : c = '(' ∨ Operator.isSign c) : Table.get? t (String.ofList s) = none := by
  induction t with
  | nil => rfl
  | cons e t ih =>
    have hne : e.1 ≠ String.ofList s := by
      intro he
      have := ht e.1 (by simp) c (by simpa [he] using hc)
      rcases hbad with rfl | hbad
      · exact this.1 rfl
      · rw [hbad] at this
        cases this.2
    rw [Table.get?, if_neg hne]
    exact ih fun x hx => ht x (mem_cons_of_mem _ hx)

theorem nameless_parse (ht : CleanNames t) (s : List Char) : Nameless t (parse s) := by
  -- trees are read from shorter texts
  induction hn : s.length using Nat.strongRecOn generalizing s with
  | ind n ih =>
    subst hn
    rcases parse_cases s with ⟨x, he⟩ | he | ⟨v, -, he⟩ | ⟨name, args, hc, he⟩ | ⟨op, l, r, hs, he⟩ | he
    · rw [he]; exact .text x
    · rw [he]; exact .digits s
    · rw [he]; exact .constant v
    · rw [he]
      refine .call _ (get?_eq_none_of_cleanNames ht (shape_of_call? hc).2 (.inl rfl)) ?_
      intro e hmem
      obtain ⟨a, ha, rfl⟩ := mem_map.1 hmem
      refine ih _ ?_ _ rfl
      have h1 := length_of_call? hc
      have h2 := length_le_of_mem_argTexts ha
      have h3 := length_trim_le a
      omega
    · rw [he]
      have hlen := Operator.length_of_split? hs
      obtain ⟨c, u, hsign⟩ := exists_cons_of_ne_nil op.sign_ne_nil
      have hc : c ∈ op.sign := by simp [hsign]
      refine .binary op (get?_eq_none_of_cleanNames ht (sign_subset_of_parse he hc)
        (.inr (Operator.isSign_of_mem_sign hc))) ?_ ?_
      · exact ih _ (Nat.lt_of_le_of_lt (length_trim_le l) hlen.1) _ rfl
      · exact ih _ (Nat.lt_of_le_of_lt (length_trim_le r) hlen.2) _ rfl
    · rw [he]; exact .other _

end Expr

open GzLang.Expr

/-! ### Trees that read sums -/

section

variable {β : Type} {V : Lexicon β} {call : Caller} {k : β → Run Int}

theorem gives_of_readsProduct {os : List (Spaced β)} (h : List.Forall₂ (fun o f => V.Reads o.core f) os e.factors)
    (hn : e.Nameless m₀.bindings) (hk : ∀ o ∈ os, ∀ f : Expr, V.Reads o.core f → f.Nameless m₀.bindings →
      Gives m₀ (f.eval call) (k o.core)) :
    Gives m₀ (e.eval call) (runProduct (fun o => k o.core) os) := by
  fun_induction factors e generalizing os with
  | case1 src l r ihl ihr =>
    -- the operands are dealt out to the two sides, in order
    cases hn with
    | binary _ hsrc hl hr =>
      have h₁ := ihl (forall₂_take_append os _ _ h) hl fun o ho => hk o (mem_of_mem_take ho)
      have h₂ := ihr (forall₂_drop_append os _ _ h) hr fun o ho => hk o (mem_of_mem_drop ho)
      rw [← take_append_drop l.factors.length os, runProduct_append, Expr.eval]
      exact agrees_orVariable hsrc (h₁.apply h₂ fun i j => rfl)
  | case2 e =>
    simp only [forall₂_cons_right_iff, forall₂_nil_right_iff] at h
    obtain ⟨o, _, ho, rfl, rfl⟩ := h
    simpa only [runProduct, pure_bind, mul_one, bind_pure] using hk o (by simp) _ ho hn

theorem gives_of_readsTerms {ts : List (Sign × Chain (Spaced β))} (h : V.ReadsTerms ts e) (hn : e.Nameless m₀.bindings)
    (hk : ∀ t ∈ ts, ∀ o ∈ t.2.toList, ∀ f : Expr, V.Reads o.core f →
      f.Nameless m₀.bindings → Gives m₀ (f.eval call) (k o.core)) :
    Gives m₀ (e.eval call) (runSum (fun p => runProduct (fun o => k o.core) p.toList) ts) := by
  unfold Lexicon.ReadsTerms at h
  fun_induction terms e generalizing ts with
  | case1 src l r ihl ihr =>
    cases hn with
    | binary _ hsrc hl hr =>
      have h₁ := ihl (forall₂_take_append ts _ _ h) hl fun t ht => hk t (mem_of_mem_take ht)
      have h₂ := ihr (forall₂_drop_append ts _ _ h) hr fun t ht => hk t (mem_of_mem_drop ht)
      rw [← take_append_drop l.terms.length ts, runSum_append, Expr.eval]
      exact agrees_orVariable hsrc (h₁.apply h₂ fun i j => rfl)
  | case2 src l r ihl ihr =>
    cases hn with
    | binary _ hsrc hl hr =>
      have hflip (s : Sign) : s.flip.flip = s := by cases s <;> rfl
      have h₁ := ihl (forall₂_take_append ts _ _ h) hl fun t ht => hk t (mem_of_mem_take ht)
      -- the terms on the right are those of the tree with the other sign
      have hts : ts.drop l.terms.length = ((ts.drop l.terms.length).map fun t => (t.1.flip, t.2)).map
            fun t => (t.1.flip, t.2) := by
        simp [Function.comp_def, hflip]
      have hread : V.ReadsTerms ((ts.drop l.terms.length).map fun t => (t.1.flip, t.2)) r := by
        have hdrop := forall₂_drop_append ts _ _ h
        rw [forall₂_map_right_iff] at hdrop
        rw [Lexicon.ReadsTerms, forall₂_map_left_iff]
        refine hdrop.imp fun t u htu => ⟨?_, htu.2⟩
        rw [htu.1, hflip]
      have h₂ := ihr hread hr fun t ht => by
        obtain ⟨u, hu, rfl⟩ := mem_map.1 ht
        exact hk u (mem_of_mem_drop hu)
      rw [← take_append_drop l.terms.length ts, runSum_append, hts, runSum_flip, Expr.eval]
      simp only [bind_assoc, pure_bind]
      exact agrees_orVariable hsrc (h₁.apply h₂ fun i j => rfl)
  | case3 e =>
    simp only [forall₂_cons_right_iff, forall₂_nil_right_iff] at h
    obtain ⟨⟨s, p⟩, _, ⟨rfl, hp⟩, rfl, rfl⟩ := h
    have := gives_of_readsProduct hp hn (hk _ (by simp))
    simpa only [runSum, Sign.signed, pure_bind, add_zero, bind_pure] using this

end

/-! ### Sums by the usual rules -/

section

variable {f : α → Run Value} {k : α → Run Int}

theorem gives_foldl_product (h : ∀ a ∈ l, Gives m₀ (f a) (k a)) (i : Int) :
    Gives m₀ (l.foldlM (fun v a => do Action.ofExcept (v.mul (← f a))) (.int i))
      do return i * (← runProduct k l) := by
  induction l generalizing i with
  | nil =>
    simp only [foldlM_nil, runProduct, pure_bind, mul_one]
    exact gives_pure i
  | cons a l ih =>
    simp only [foldlM_cons, runProduct, bind_assoc, pure_bind, ← mul_assoc]
    exact (h a (by simp)).next fun j => ih (fun b hb => h b (mem_cons_of_mem a hb)) (i * j)

theorem gives_product {c : Chain α} (h : ∀ a ∈ c.toList, Gives m₀ (f a) (k a)) :
    Gives m₀ (c.product f) (runProduct k c.toList) :=
  (h c.first (by simp [Chain.toList])).next
    (gives_foldl_product fun a ha => h a (mem_cons_of_mem _ ha))

theorem gives_foldl_sum {l : List (Sign × Chain α)} (h : ∀ t ∈ l, ∀ a ∈ t.2.toList, Gives m₀ (f a) (k a)) (i : Int) :
    Gives m₀ (l.foldlM (fun v t => do Action.ofExcept (t.1.apply v (← t.2.product f))) (.int i))
      do return i + (← runSum (fun p => runProduct k p.toList) l) := by
  induction l generalizing i with
  | nil =>
    simp only [foldlM_nil, runSum, pure_bind, add_zero]
    exact gives_pure i
  | cons t l ih =>
    obtain ⟨s, p⟩ := t
    have hs (j : Int) : s.apply (.int i) (.int j) = .ok (.int (i + s.signed j)) := by
      cases s <;> rfl
    simp only [foldlM_cons, runSum, bind_assoc, pure_bind, ← add_assoc]
    refine (gives_product (h (s, p) (by simp))).next fun j => ?_
    rw [hs, ofExcept_ok, pure_bind]
    exact ih (fun t ht => h t (mem_cons_of_mem _ ht)) (i + s.signed j)

theorem gives_arith {s : Arith α} (h : ∀ t ∈ s.terms, ∀ a ∈ t.2.toList, Gives m₀ (f a) (k a)) :
    Gives m₀ (s.eval f) (runSum (fun p => runProduct k p.toList) s.terms) := by
  have hterms : s.terms = (.plus, s.first.first) :: s.terms.tail := rfl
  rw [hterms] at h ⊢
  exact (gives_product (h (.plus, s.first.first) (by simp))).next
    (gives_foldl_sum fun t ht => h t (mem_cons_of_mem _ ht))

end

/-- A tree that reads a sum does what the sum does by the usual rules. -/
theorem agrees_of_readsTerms {β : Type} {V : Lexicon β} {f : β → Run Value}
    {k : β → Run Int} {s : Arith (Spaced β)} (h : V.ReadsTerms s.terms e) (hn : e.Nameless m₀.bindings)
    (hf : ∀ t ∈ s.terms, ∀ o ∈ t.2.toList, Gives m₀ (f o.core) (k o.core))
    (hk : ∀ t ∈ s.terms, ∀ o ∈ t.2.toList, ∀ u : Expr, V.Reads o.core u →
      u.Nameless m₀.bindings → Gives m₀ (u.eval call) (k o.core)) :
    Agrees m₀.SameScope (e.eval call) (s.eval fun o => f o.core) := by
  have hs : Gives m₀ (s.eval fun o => f o.core)
      (runSum (fun p => runProduct (fun o => k o.core) p.toList) s.terms) := gives_arith hf
  exact Agrees.trans (gives_of_readsTerms h hn hk) (Agrees.symm hs)

/-! ### Numbers and variables -/

theorem literalDigits?_eq (h : ∀ c ∈ s, c.isDigit) (afterDigit : Bool) (hs : afterDigit ∨ s ≠ []) :
    literalDigits? afterDigit s = some (s.map fun c => c.toNat - '0'.toNat) := by
  induction s generalizing afterDigit with
  | nil =>
    rw [hs.resolve_right (by simp)]
    rfl
  | cons c s ih =>
    rw [literalDigits?, Literal.decimalValue? (h c (by simp)),
      ih (fun d hd => h d (mem_cons_of_mem c hd)) true (.inl rfl)]
    rfl

theorem Literal.integer_digits (l : Literal) : Statement.integer l.digits = .ok l.value := by
  obtain ⟨c, s, hcs⟩ := exists_cons_of_ne_nil l.ne_nil
  have hc := l.decimal c (by simp [hcs])
  have htrim : trim l.digits = l.digits := by
    have := Lexicon.trim_starts (V := Atom.lexicon) 0 (.number l) []
    simpa [Atom.lexicon, Atom.text, trimRight, dropEndWhile] using this
  have hchar : ∀ d ∈ l.digits, isLiteralChar d := by
    intro d hd
    simp [isLiteralChar, isDecimal_of_isDigit (l.decimal d hd)]
  have hsign {d : Char} (hd : d.isDigit = false) (r : List Char) : l.digits ≠ d :: r := by
    intro h
    rw [hcs] at h
    rw [(List.cons.inj h).1, hd] at hc
    cases hc
  have hread : readInt l.digits = .ok l.value := by
    have hminus := hsign (d := '-') (by decide)
    have hplus := hsign (d := '+') (by decide)
    unfold readInt
    simp only [htrim]
    simp only [takeWhile_eq_self_iff.2 hchar, dropWhile_eq_nil_iff.2 hchar,
      literalDigits?_eq l.decimal false (.inr l.ne_nil), length_map, gt_iff_lt,
      Nat.not_lt.2 l.short, if_false, isEmpty_nil, Bool.not_true, Bool.false_eq_true,
      ofDigits, foldl_map]
    rfl
  rw [Statement.integer, hread]

namespace Atom

def Integral (t : Table Value) : Atom → Prop
  | number _ => True
  | name x => ∃ i, Table.get? t x.name = some (.int i)

def int (t : Table Value) : Atom → Int
  | number l => l.value
  | name x =>
    match Table.get? t x.name with
    | some (.int i) => i
    | _ => 0

theorem gives_int {a : Atom} (h : a.Integral m₀.bindings) (call : Caller) : Gives m₀ a.eval (pure (a.int m₀.bindings)) ∧
      Gives m₀ (a.tree.eval call) (pure (a.int m₀.bindings)) := by
  cases a with
  | number l =>
    refine ⟨gives_pure _, ?_⟩
    rw [tree, Expr.eval, l.integer_digits, ofExcept_ok, pure_bind]
    exact gives_pure _
  | name x =>
    obtain ⟨i, hi⟩ := h
    have hint : int m₀.bindings (.name x) = i := by rw [int, hi]
    have hget {m : Machine} (hm : m₀.SameScope m) : Table.get? m.bindings x.name = some (.int i) := by
      rw [show m.bindings = m₀.bindings from congrArg Prod.fst hm, hi]
    rw [hint]
    constructor
    · intro m hm
      have he : (eval (.name x)).perform m = (.ok (.int i), m) := by
        rw [eval, bind_of_ok (perform_lookup x.name m), hget hm]
        rfl
      rw [he]
      exact gives_pure i hm
    · intro m hm
      rw [tree, Expr.eval, perform_orVariable_some (hget hm)]
      exact gives_pure i hm

end Atom

/-! ### Calls -/

theorem exists_runProduct (h : ∀ a ∈ l, ∃ i, f a = pure i) : ∃ i, runProduct f l = pure i := by
  induction l with
  | nil => exact ⟨1, rfl⟩
  | cons a l ih =>
    obtain ⟨i, hi⟩ := h a (by simp)
    obtain ⟨j, hj⟩ := ih fun b hb => h b (mem_cons_of_mem a hb)
    exact ⟨i * j, by rw [runProduct, hi, hj]; rfl⟩

theorem exists_runSum {l : List (Sign × α)} (h : ∀ t ∈ l, ∃ i, f t.2 = pure i) : ∃ i, runSum f l = pure i := by
  induction l with
  | nil => exact ⟨0, rfl⟩
  | cons t l ih =>
    obtain ⟨i, hi⟩ := h t (by simp)
    obtain ⟨j, hj⟩ := ih fun u hu => h u (mem_cons_of_mem t hu)
    exact ⟨t.1.signed i + j, by rw [runSum, hi, hj]; rfl⟩

theorem agrees_mapM {f : α → Run Value} {is : List Int} (h : List.Forall₂ (fun a i => Gives m₀ (f a) (pure i)) l is) :
    Agrees m₀.SameScope (l.mapM f) (pure (is.map .int)) := by
  induction h with
  | nil => exact agrees_pure _
  | cons ha _ ih =>
    rw [Gives, pure_bind] at ha
    rw [mapM_cons]
    exact Agrees.bind (g := fun v => pure _ >>= fun vs => pure (v :: vs)) ha fun v =>
      ih.bind fun vs => agrees_pure (v :: vs)

theorem evalAll_eq_mapM (call : Caller) (es : List Expr) : evalAll call es = es.mapM (Expr.eval call) := by
  induction es with
  | nil => rw [evalAll]; rfl
  | cons e es ih => rw [evalAll, mapM_cons, ih]

theorem agrees_of_keeps {a : Run α} (h : Keeps Machine.scope a) : Agrees m₀.SameScope a a :=
  fun _ hm => ⟨rfl, fun _ _ h' => (h h').trans hm⟩

/-- A run that ends with nothing but integers. -/
def givenInt (a : Run Value) : Run Int := do
  match ← a with
  | .int i => return i
  | _ => return 0

theorem gives_givenInt (ha : Agrees m₀.SameScope a a)
    (hint : ∀ m v m', m₀.SameScope m → a.perform m = (.ok v, m') → ∃ i, v = .int i) :
    Gives m₀ a (givenInt a) := by
  intro m hm
  refine ⟨?_, (ha hm).2⟩
  rw [givenInt, bind_assoc, perform_bind]
  rcases h : a.perform m with ⟨e | v, m'⟩
  · rfl
  · obtain ⟨i, rfl⟩ := hint m v m' hm h
    rfl

theorem Gives.givenInt (h : Gives m₀ a x) : Gives m₀ a (givenInt a) := by
  refine gives_givenInt (Agrees.trans h (Agrees.symm h)) fun m v m' hm he => ?_
  rw [(h hm).1] at he
  obtain ⟨i, m₁, -, hi⟩ := bind_eq_ok.1 he
  cases hi
  exact ⟨i, rfl⟩

namespace Operand

/-- The variables of an operand have integers as their values. A call is of a known function, which
gives an integer for as many integers as there are arguments, if it ends with a value. -/
def Numeric (call : Caller) (m₀ : Machine) : Operand → Prop
  | atom a => a.Integral m₀.bindings
  | .call f args =>
    (∀ a ∈ args, ∀ t ∈ a.terms, ∀ o ∈ t.2.toList, o.core.Integral m₀.bindings) ∧
      Table.has m₀.functions f.name = true ∧
      ∀ is : List Int, is.length = args.length → ∀ m v m', m₀.SameScope m →
        (call f.name (is.map .int)).perform m = (.ok v, m') → ∃ i, v = .int i

theorem exists_gives_arg (call : Caller) {a : Arith (Spaced Atom)}
    (h : ∀ t ∈ a.terms, ∀ o ∈ t.2.toList, o.core.Integral m₀.bindings) :
    ∃ i, Gives m₀ (Arith.eval (fun o => o.core.eval) a) (pure i) ∧
      ∀ e : Expr, Atom.lexicon.ReadsTerms a.terms e → e.Nameless m₀.bindings → Gives m₀ (e.eval call) (pure i) := by
  obtain ⟨i, hi⟩ := exists_runSum (l := a.terms)
    (f := fun p => runProduct (fun o => pure (o.core.int m₀.bindings)) p.toList)
    fun t _ => exists_runProduct fun o _ => ⟨_, rfl⟩
  refine ⟨i, ?_, fun e he hn => ?_⟩
  · rw [← hi]
    exact gives_arith fun t ht o ho => (Atom.gives_int (h t ht o ho) call).1
  · rw [← hi]
    refine gives_of_readsTerms (k := fun a : Atom => pure (a.int m₀.bindings)) he hn ?_
    rintro t ht o ho _ rfl -
    exact (Atom.gives_int (h t ht o ho) call).2

theorem exists_gives_args (call : Caller) {args : List (Arith (Spaced Atom))}
    (h : ∀ a ∈ args, ∀ t ∈ a.terms, ∀ o ∈ t.2.toList, o.core.Integral m₀.bindings) :
    ∃ is : List Int, is.length = args.length ∧
      List.Forall₂ (fun a i => Gives m₀ (Arith.eval (fun o => o.core.eval) a) (pure i)) args is ∧
      ∀ ts : List Expr, List.Forall₂ (fun a t => Atom.lexicon.ReadsTerms a.terms t) args ts →
        (∀ t ∈ ts, t.Nameless m₀.bindings) →
        List.Forall₂ (fun t i => Gives m₀ (Expr.eval call t) (pure i)) ts is := by
  induction args with
  | nil =>
    refine ⟨[], rfl, .nil, fun ts hts _ => ?_⟩
    cases hts
    exact .nil
  | cons a args ih =>
    obtain ⟨i, hi, htree⟩ := exists_gives_arg call (h a (by simp))
    obtain ⟨is, hlen, his, htrees⟩ := ih fun b hb => h b (mem_cons_of_mem a hb)
    refine ⟨i :: is, by simp [hlen], .cons hi his, fun ts hts hn => ?_⟩
    cases hts with
    | cons ht hts =>
      exact .cons (htree _ ht (hn _ (by simp)))
        (htrees _ hts fun t hmem => hn t (mem_cons_of_mem _ hmem))

theorem agrees_callKnown (hcall : ∀ name args, Keeps Machine.scope (call name args)) {name : String}
    (hf : Table.has m₀.functions name) (vs : List Value) :
    Agrees m₀.SameScope (callKnown call name vs) (call name vs) := by
  intro m hm
  have hm' : m.functions = m₀.functions := congrArg Prod.snd hm
  have he : (callKnown call name vs).perform m = (call name vs).perform m := by
    rw [callKnown, bind_get, hm', if_pos hf]
  rw [he]
  exact agrees_of_keeps (hcall name vs) hm

/-- An operand gives an integer, and so does every tree that reads it. -/
theorem gives_operand (hcall : ∀ name args, Keeps Machine.scope (call name args)) {o : Operand}
    (h : o.Numeric call m₀) : Gives m₀ (o.eval call) (givenInt (o.eval call)) ∧
      ∀ e : Expr, o.Reads e → e.Nameless m₀.bindings → Gives m₀ (e.eval call) (givenInt (o.eval call)) := by
  cases o with
  | atom a =>
    obtain ⟨ha, ht⟩ := Atom.gives_int h call
    refine ⟨ha.givenInt, ?_⟩
    rintro _ rfl -
    exact Agrees.trans (Agrees.trans ht (Agrees.symm ha)) ha.givenInt
  | call f args =>
    obtain ⟨hargs, hf, hint⟩ := h
    obtain ⟨is, hlen, his, htrees⟩ := exists_gives_args call hargs
    have ho : Agrees m₀.SameScope (eval call (.call f args)) (call f.name (is.map .int)) :=
      (agrees_mapM his).bind fun vs => agrees_of_keeps (hcall f.name vs)
    have hgives : Gives m₀ (eval call (.call f args)) (givenInt (eval call (.call f args))) := by
      refine gives_givenInt (ho.trans ho.symm) fun m v m' hm he => ?_
      rw [(ho hm).1] at he
      exact hint is hlen m v m' hm he
    refine ⟨hgives, ?_⟩
    rintro _ ⟨src, ts, rfl, hread⟩ (_ | _ | _ | _ | ⟨_, hsrc, hn⟩ | _)
    have hts := agrees_mapM (htrees ts hread hn)
    rw [← evalAll_eq_mapM] at hts
    have he : Agrees m₀.SameScope (Expr.eval call (.call src f.name ts)) (call f.name (is.map .int)) := by
      rw [Expr.eval]
      exact agrees_orVariable hsrc (hts.bind fun vs => agrees_callKnown hcall hf vs)
    exact Agrees.trans (he.trans ho.symm) hgives

end Operand

/-! ### Formulas -/

namespace Formula

def Numeric (call : Caller) (m₀ : Machine) (E : Formula) : Prop :=
  ∀ o ∈ E.operands, o.core.Numeric call m₀

theorem mem_operands {s : Arith α} {t : Sign × Chain α} (ht : t ∈ s.terms) {o : α}
    (ho : o ∈ t.2.toList) : o ∈ s.operands := by
  obtain ⟨d, hd, ht⟩ := mem_flatMap.1 ht
  refine mem_flatMap.2 ⟨d, hd, mem_flatMap.2 ⟨t.2, ?_, ho⟩⟩
  rcases mem_cons.1 ht with rfl | ht
  · exact mem_cons_self
  · obtain ⟨p, hp, rfl⟩ := mem_map.1 ht
    exact mem_cons_of_mem _ hp

theorem agrees_side (hcall : ∀ name args, Keeps Machine.scope (call name args))
    {s : Arith (Spaced Operand)} (hs : ∀ o ∈ s.operands, o.core.Numeric call m₀)
    (h : Operand.lexicon.ReadsTerms s.terms e) (hn : e.Nameless m₀.bindings) :
    Agrees m₀.SameScope (e.eval call) (s.eval fun o => o.core.eval call) :=
  agrees_of_readsTerms (f := fun o : Operand => o.eval call) (k := fun o => givenInt (o.eval call)) h hn
    (fun _ ht o ho => (Operand.gives_operand hcall (hs o (mem_operands ht ho))).1)
    fun _ ht o ho => (Operand.gives_operand hcall (hs o (mem_operands ht ho))).2

/-- A tree that reads a formula does what the formula does by the usual rules. -/
theorem agrees_of_reads (hcall : ∀ name args, Keeps Machine.scope (call name args)) {E : Formula}
    (hE : E.Numeric call m₀) (h : E.Reads e) (hn : e.Nameless m₀.bindings) :
    Agrees m₀.SameScope (e.eval call) (E.eval call) := by
  cases E with
  | arith s => exact agrees_side hcall hE h hn
  | compare r s t =>
    obtain ⟨src, x, y, rfl, hx, hy⟩ := h
    cases hn with
    | binary _ hsrc hnx hny =>
      rw [Expr.eval]
      refine agrees_orVariable hsrc ?_
      exact (agrees_side hcall (fun o ho => hE o (mem_append_left _ ho)) hx hnx).bind fun v =>
        (agrees_side hcall (fun o ho => hE o (mem_append_right _ ho)) hy hny).bind fun w =>
          agrees_ofExcept _

/-- **What a formula means.** A text is read as the formula that it shows exactly when the formula
is readable. Then evaluating the text does what the formula does by the usual rules, in every
machine that has integers for its operands and no variable with an operator in its name. -/
theorem meaning_of_text (E : Formula) : (E.Reads (Expr.parse E.text) ↔ E.Readable) ∧
    (E.Readable → ∀ (depth : Nat) (m : Machine), Expr.CleanNames m.bindings → E.Numeric (callAt depth) m →
      (evaluate (callAt depth) E.text).perform m = (E.eval (callAt depth)).perform m) := by
  refine ⟨E.reads_parse_iff, fun hE depth m hnames hnum => ?_⟩
  have hagree := agrees_of_reads (keeps_scope_callAt depth) hnum (E.reads_parse_iff.2 hE)
    (Expr.nameless_parse hnames E.text)
  exact (hagree (s := m) rfl).1

/-! ### A sum with a call -/

def digit (c : Char) (h : c.isDigit = true) : Atom :=
  .number ⟨[c], by simp, by simpa using h, by simp [maxLiteralDigits]⟩

def variableN : Atom :=
  .name ⟨⟨['n'], by simp, by decide⟩, by decide, by decide⟩

def callF (before after : Nat) : Spaced Operand :=
  ⟨before, .call ⟨['f'], by simp, by decide⟩
    [⟨⟨⟨⟨0, variableN, 0⟩, []⟩, [⟨⟨0, digit '1' rfl, 0⟩, []⟩]⟩, []⟩], after⟩

def sumWithCall : Formula :=
  .arith ⟨⟨⟨⟨0, .atom variableN, 1⟩, [⟨1, .atom (digit '2' rfl), 1⟩]⟩,
      [⟨⟨1, .atom (digit '1' rfl), 1⟩, []⟩]⟩, [⟨⟨callF 1 0, []⟩, []⟩]⟩

def squaring : Machine :=
  { bindings := [("n", .int 5)]
    functions := [("f", ⟨["k"], [⟨2, 4, "balik k * k"⟩]⟩)] }

/-- Two calls with a sign between them are not read: the first takes in the second. -/
example : ¬ Readable (.arith ⟨⟨⟨callF 0 1, []⟩, []⟩, [⟨⟨callF 1 0, []⟩, []⟩]⟩) := by decide

theorem perform_squaring (i : Int) {m : Machine} (h : squaring.SameScope m) :
    (callAt 1 "f" [.int i]).perform m = (.ok (.int (i * i)), { m with line := 2 }) := by
  obtain ⟨bindings, functions, line, out, err⟩ := m
  obtain ⟨rfl, rfl⟩ : bindings = squaring.bindings ∧ functions = squaring.functions := Prod.mk.inj h
  cbv

theorem numeric_sumWithCall : sumWithCall.Numeric (callAt 1) squaring := by
  have hn : variableN.Integral squaring.bindings := ⟨5, rfl⟩
  intro o ho
  have ho' : o = ⟨0, .atom variableN, 1⟩ ∨ o = ⟨1, .atom (digit '2' rfl), 1⟩ ∨
      o = ⟨1, .atom (digit '1' rfl), 1⟩ ∨ o = callF 1 0 := by
    simpa [sumWithCall, operands, Arith.operands, Chain.toList] using ho
  rcases ho' with rfl | rfl | rfl | rfl
  · exact hn
  · trivial
  · trivial
  · refine ⟨?_, rfl, fun is hlen m v m' hm he => ?_⟩
    · intro a ha t ht o ho
      obtain rfl := mem_singleton.1 ha
      have ho' : o = ⟨0, variableN, 0⟩ ∨ o = ⟨0, digit '1' rfl, 0⟩ := by
        simpa [Arith.operands, Chain.toList] using mem_operands ht ho
      rcases ho' with rfl | rfl
      · exact hn
      · trivial
    · obtain ⟨i, rfl⟩ := length_eq_one_iff.1 hlen
      have := (perform_squaring i hm).symm.trans he
      cases this
      exact ⟨i * i, rfl⟩

/-- The sum `n * 2 - 1 + f(n-1)` is readable, and evaluates to its conventional value. -/
theorem meaning_of_sumWithCall : sumWithCall.text = "n * 2 - 1 + f(n-1)".toList ∧ sumWithCall.Readable ∧
      Expr.CleanNames squaring.bindings ∧ sumWithCall.Numeric (callAt 1) squaring ∧
      (evaluate (callAt 1) sumWithCall.text).perform squaring = (sumWithCall.eval (callAt 1)).perform squaring := by
  have hread : sumWithCall.Readable := by decide
  have hnames : Expr.CleanNames squaring.bindings := by unfold Expr.CleanNames; decide
  exact ⟨by decide, hread, hnames, numeric_sumWithCall,
    (meaning_of_text sumWithCall).2 hread 1 squaring hnames numeric_sumWithCall⟩

end Formula

end GzLang
