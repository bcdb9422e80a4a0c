import GzLang.Proofs.Text
import GzLang.Source.Expr
import GzLang.Source.Statement

/-!
# How a text is read as an expression

`Expr.parse` looks at its text in a fixed order. The lemmas here give the tree for each way a text
can be read, with only those side conditions that the text itself does not already exclude: a text
of digits is in no quotes, a call is no constant, and a text with an operator is no number.

`Operator.split?` cuts a text at the first occurrence of the loosest operator, and trimming the
text trims the two pieces (`Operator.split?_trim`). `Expr.call?` sees a call only at the very front
of a text, and takes everything after it for a part of the call or ignores it.
-/

namespace GzLang.Operator

open List Text

variable {op : Operator} {s : List Char}
variable {c : Char}

theorem solid_sign (op : Operator) : Text.Solid op.sign := by
  cases op
  case add | sub | mul | div | lt | gt => exact .singleton rfl
  case le | ge | eq | ne => exact .pair rfl rfl

def isSign (c : Char) : Bool := "+-*/<>=!".toList.contains c

theorem isSign_of_mem_sign (h : c ∈ op.sign) : isSign c := by
  have : ∀ d ∈ op.sign, isSign d := by cases op <;> decide
  exact this c h

theorem operands?_eq_none (hc : c ∈ op.sign) (h : c ∉ s) : operands? s op = none := by
  unfold operands?
  split
  · rfl
  · exact cutFirst_eq_none hc h

/-- A text is cut at an operator when no looser operator occurs. -/
theorem split?_of_first {s l r : List Char} (h : operands? s op = some (l, r))
    (hb : ∀ o ∈ all.takeWhile (· ≠ op), operands? s o = none) :
    split? s = some (op, l, r) := by
  have hall : all = all.takeWhile (· ≠ op) ++ op :: (all.dropWhile (· ≠ op)).tail := by
    cases op <;> rfl
  unfold split?
  rw [hall, findSome?_append, findSome?_eq_none_iff.2, findSome?_cons, h]
  · rfl
  · intro o ho
    rw [hb o ho]
    rfl

theorem split?_add {s l r : List Char} (h : cutFirst ['+'] s = some (l, r)) : split? s = some (.add, l, r) :=
  split?_of_first h (by simp [all])

theorem split?_sub {s l r : List Char} (hs : startsWith ['-'] s = false) (hp : '+' ∉ s)
    (h : cutFirst ['-'] s = some (l, r)) : split? s = some (.sub, l, r) := by
  refine split?_of_first ?_ ?_
  · rw [operands?, hs]
    exact h
  · intro o ho
    obtain rfl : o = .add := by simpa [all] using ho
    exact operands?_eq_none (c := '+') (by simp [sign]) hp

theorem split?_mul {s l r : List Char} (hp : '+' ∉ s) (hm : '-' ∉ s)
    (h : cutFirst ['*'] s = some (l, r)) : split? s = some (.mul, l, r) := by
  refine split?_of_first h ?_
  intro o ho
  have : o = .add ∨ o = .sub := by simpa [all] using ho
  rcases this with rfl | rfl
  · exact operands?_eq_none (c := '+') (by simp [sign]) hp
  · exact operands?_eq_none (c := '-') (by simp [sign]) hm

/-- A text with a plus, minus or star is cut at one of these. -/
theorem exists_split?_arith (hs : startsWith ['-'] s = false) (hc : c ∈ "+-*".toList) (h : c ∈ s) :
    ∃ op l r, op ∈ [add, sub, mul] ∧ split? s = some (op, l, r) := by
  have cut {d : Char} (hd : d ∈ s) : ∃ l r, cutFirst [d] s = some (l, r) := by
    obtain ⟨l, r, rfl, hl⟩ := eq_append_cons_of_mem hd
    exact ⟨l, r, cutFirst_char hl r⟩
  by_cases hp : '+' ∈ s
  · obtain ⟨l, r, hcut⟩ := cut hp
    exact ⟨.add, l, r, by simp, split?_add hcut⟩
  · by_cases hm : '-' ∈ s
    · obtain ⟨l, r, hcut⟩ := cut hm
      exact ⟨.sub, l, r, by simp, split?_sub hs hp hcut⟩
    · have hstar : '*' ∈ s := by
        rcases (by simpa using hc : c = '+' ∨ c = '-' ∨ c = '*') with rfl | rfl | rfl
        · exact absurd h hp
        · exact absurd h hm
        · exact h
      obtain ⟨l, r, hcut⟩ := cut hstar
      exact ⟨.mul, l, r, by simp, split?_mul hp hm hcut⟩

theorem split?_eq_none (h : ∀ c ∈ s, isSign c = false) : split? s = none := by
  unfold split?
  rw [findSome?_eq_none_iff]
  intro op _
  obtain ⟨c, t, hc⟩ := exists_cons_of_ne_nil (sign_ne_nil op)
  have hmem : c ∈ op.sign := by simp [hc]
  rw [operands?_eq_none hmem]
  · rfl
  · intro hcs
    have := h c hcs
    rw [isSign_of_mem_sign hmem] at this
    cases this

theorem eq_append_of_split? {s l r : List Char} (h : split? s = some (op, l, r)) : s = l ++ (op.sign ++ r) := by
  obtain ⟨o, _, ho⟩ := exists_of_findSome?_eq_some h
  obtain ⟨⟨a, b⟩, hab, he⟩ := Option.map_eq_some_iff.1 ho
  simp only [Prod.mk.injEq] at he
  obtain ⟨rfl, rfl, rfl⟩ := he
  unfold operands? at hab
  split at hab
  · cases hab
  · exact eq_append_of_cutFirst hab

/-- Trimming a text trims the pieces around its operator on the outer sides. -/
theorem split?_trim (hs : startsWith ['-'] s = false) (ht : startsWith ['-'] (trim s) = false) : split? (trim s) =
      (split? s).map fun p => (p.1, trimLeft p.2.1, trimRight p.2.2) := by
  have ho (op : Operator) : operands? (trim s) op = (operands? s op).map fun p => (trimLeft p.1, trimRight p.2) := by
    unfold operands?
    rw [hs, ht]
    simpa using cutFirst_trim (solid_sign op) s
  unfold split?
  simp only [ho, map_findSome?, Option.map_map, Function.comp_def]

end GzLang.Operator

namespace GzLang.Expr

variable {s : List Char}
variable {c : Char} {t w : List Char} {op : Operator}

def quoted (s : List Char) : Bool :=
  Text.startsWith ['"'] s && Text.endsWith ['"'] s

theorem parse_eq (s : List Char) : parse s = if quoted s then .text (String.ofList s.tail.dropLast)
      else if Text.allDigits s then .digits s
      else
        match constant? s with
        | some v => .constant v
        | none =>
          match call? s with
          | some (name, args) =>
            .call (String.ofList s) (String.ofList name) ((argTexts args).map fun a => parse (Text.trim a))
          | none =>
            match Operator.split? s with
            | some (op, l, r) =>
              .binary (String.ofList s) op (parse (Text.trim l)) (parse (Text.trim r))
            | none => .other (String.ofList s) := by
  rw [parse]
  unfold quoted
  split
  · rfl
  · split
    · rfl
    · cases constant? s with
      | some v => rfl
      | none =>
        dsimp only
        split <;> rename_i hc
        · simp [hc]
        · simp only [hc]
          split <;> rename_i hs <;> simp [hs]

theorem parse_cases (s : List Char) : (∃ x, parse s = .text x) ∨ parse s = .digits s ∨
      (∃ v, constant? s = some v ∧ parse s = .constant v) ∨
      (∃ name args, call? s = some (name, args) ∧ parse s = .call (String.ofList s) (String.ofList name)
          ((argTexts args).map fun a => parse (Text.trim a))) ∨
      (∃ op l r, Operator.split? s = some (op, l, r) ∧
        parse s = .binary (String.ofList s) op (parse (Text.trim l)) (parse (Text.trim r))) ∨
      parse s = .other (String.ofList s) := by
  rw [parse_eq]
  split
  · exact .inl ⟨_, rfl⟩
  · split
    · exact .inr (.inl rfl)
    · split
      · rename_i hv
        exact .inr (.inr (.inl ⟨_, hv, rfl⟩))
      · split
        · rename_i hc
          exact .inr (.inr (.inr (.inl ⟨_, _, hc, rfl⟩)))
        · split
          · rename_i hs
            exact .inr (.inr (.inr (.inr (.inl ⟨_, _, _, hs, rfl⟩))))
          · exact .inr (.inr (.inr (.inr (.inr rfl))))

theorem eq_of_parse_digits {s : List Char} (h : parse s = .digits w) : s = w := by
  rcases parse_cases s with ⟨x, he⟩ | he | ⟨v, -, he⟩ | ⟨n, a, -, he⟩ | ⟨op, l, r, -, he⟩ | he <;>
    rw [he] at h <;> cases h
  rfl

theorem eq_of_parse_other {x : String} (h : parse s = .other x) : s = x.toList := by
  rcases parse_cases s with ⟨x, he⟩ | he | ⟨v, -, he⟩ | ⟨n, a, -, he⟩ | ⟨op, l, r, -, he⟩ | he <;>
    rw [he] at h <;> cases h
  simp

theorem exists_call?_of_parse {src name : String} {args : List Expr}
    (h : parse s = .call src name args) : ∃ p, call? s = some p := by
  rcases parse_cases s with ⟨x, he⟩ | he | ⟨v, -, he⟩ | ⟨n, a, hc, he⟩ | ⟨op, l, r, -, he⟩ | he <;>
    rw [he] at h <;> cases h
  exact ⟨_, hc⟩

theorem sign_subset_of_parse {src : String} {l r : Expr} (h : parse s = .binary src op l r) : op.sign ⊆ s := by
  rcases parse_cases s with ⟨x, he⟩ | he | ⟨v, -, he⟩ | ⟨n, a, -, he⟩ | ⟨op, l, r, hs, he⟩ | he <;>
    rw [he] at h <;> cases h
  rw [Operator.eq_append_of_split? hs]
  exact fun c hc => by simp [hc]

theorem quoted_of_head (h : c ≠ '"') : quoted (c :: s) = false := by
  have : ¬ '"' = c := fun e => h e.symm
  simp [quoted, Text.startsWith, List.isPrefixOf, this]

theorem not_allDigits_of_mem (hc : c ∈ s) (h : Text.isDigit c = false) : Text.allDigits s = false := by
  unfold Text.allDigits
  rw [Bool.and_eq_false_iff]
  right
  rw [List.all_eq_false]
  exact ⟨c, hc, by simp [h]⟩

theorem constant?_eq_none_of_mem (hc : c ∈ s) (h : Text.isWord c = false) : constant? s = none := by
  have hne (t : List Char) (ht : t.all Text.isWord) : s ≠ t := by
    rintro rfl
    rw [List.all_eq_true] at ht
    simp [ht c hc] at h
  unfold constant?
  rw [if_neg (hne _ (by decide)), if_neg (hne _ (by decide)), if_neg (hne _ (by decide))]

theorem parse_of_digits (h : Text.allDigits s) : parse s = .digits s := by
  cases s with
  | nil => simp [Text.allDigits] at h
  | cons c s =>
    have hq : c ≠ '"' := by
      rintro rfl
      have : Text.isDigit '"' = false := by decide
      simp [Text.allDigits, this] at h
    rw [parse_eq, quoted_of_head hq, h]
    rfl

theorem parse_of_constant {v : Value} (h : constant? s = some v) : parse s = .constant v := by
  have hs : quoted s = false ∧ Text.allDigits s = false := by
    unfold constant? at h
    split at h
    · subst s; decide
    · split at h
      · subst s; decide
      · split at h
        · subst s; decide
        · cases h
  rw [parse_eq, hs.1, hs.2, h]
  rfl

/-- A call starts with a word character and has an opening bracket. -/
theorem shape_of_call? {s name args : List Char} (h : call? s = some (name, args)) :
    (∃ c t, s = c :: t ∧ Text.isWord c) ∧ '(' ∈ s := by
  simp only [call?] at h
  split at h
  · rename_i rest hrest
    have hs := List.takeWhile_append_dropWhile (p := Text.isWord) (l := s)
    rw [hrest] at hs
    split at h
    · cases h
    · rename_i hn
      refine ⟨?_, by rw [← hs]; simp⟩
      cases s with
      | nil => simp at hn
      | cons c t =>
        cases hc : Text.isWord c with
        | true => exact ⟨c, t, rfl, hc⟩
        | false => simp [hc] at hn
  · cases h

theorem parse_of_call {s name args : List Char} (h : call? s = some (name, args)) :
    parse s = .call (String.ofList s) (String.ofList name) ((argTexts args).map fun a => parse (Text.trim a)) := by
  obtain ⟨⟨c, t, rfl, hc⟩, hb⟩ := shape_of_call? h
  have hq : c ≠ '"' := by
    rintro rfl
    revert hc
    decide
  rw [parse_eq, quoted_of_head hq, not_allDigits_of_mem hb (by decide),
    constant?_eq_none_of_mem hb (by decide), h]
  rfl

theorem parse_of_split {s l r : List Char} (hq : quoted s = false)
    (hc : call? s = none) (h : Operator.split? s = some (op, l, r)) :
    parse s = .binary (String.ofList s) op (parse (Text.trim l)) (parse (Text.trim r)) := by
  obtain ⟨o, _, ho⟩ := List.exists_of_findSome?_eq_some h
  obtain ⟨⟨a, b⟩, hab, he⟩ := Option.map_eq_some_iff.1 ho
  have hmem : ∃ c ∈ s, Text.isDigit c = false ∧ Text.isWord c = false := by
    unfold Operator.operands? at hab
    split at hab
    · cases hab
    · rw [Text.eq_append_of_cutFirst hab]
      cases o <;> exact ⟨_, List.mem_append_right _ (by simp [Operator.sign]; left; rfl), by decide⟩
  obtain ⟨c, hcs, hd, hw⟩ := hmem
  rw [parse_eq, hq, not_allDigits_of_mem hcs hd, constant?_eq_none_of_mem hcs hw, hc, h]
  rfl

theorem parse_of_other (hq : quoted s = false) (hd : Text.allDigits s = false)
    (hk : constant? s = none) (hc : call? s = none) (h : Operator.split? s = none) :
    parse s = .other (String.ofList s) := by
  rw [parse_eq, hq, hd, hk, hc, h]
  rfl

theorem quoted_of_not_mem (h : '"' ∉ s) : quoted s = false := by
  cases s with
  | nil => rfl
  | cons c s => exact quoted_of_head fun e => h (by simp [e])

/-! ### Calls at the front of a text -/

/-- A text that neither goes on a word before it nor opens a bracket after it. -/
def Detached (t : List Char) : Prop :=
  ∀ c r, t = c :: r → Text.isWord c = false ∧ c ≠ '('

theorem Detached.append {s : List Char} (hs : Detached s) (ht : Detached t) : Detached (s ++ t) := by
  cases s with
  | nil => exact ht
  | cons c s =>
    rintro d r ⟨⟩
    exact hs c s rfl

theorem detached_nil : Detached [] := by
  rintro c r ⟨⟩

theorem detached_cons (hc : Text.isWord c = false ∧ c ≠ '(') (s : List Char) : Detached (c :: s) := by
  rintro d r ⟨⟩
  exact hc

theorem detached_spaces (n : Nat) : Detached (List.replicate n ' ') := by
  cases n with
  | zero => exact detached_nil
  | succ n => exact detached_cons (by decide) _

theorem Detached.trimRight (h : Detached t) : Detached (Text.trimRight t) := by
  cases t with
  | nil => exact h
  | cons c t =>
    rw [Text.trimRight_cons]
    split
    · exact detached_nil
    · exact detached_cons (h c t rfl) _

theorem takeWhile_word (hw : ∀ c ∈ w, Text.isWord c) (ht : ∀ c r, t = c :: r → Text.isWord c = false) :
    (w ++ t).takeWhile Text.isWord = w ∧ (w ++ t).dropWhile Text.isWord = t := by
  rw [List.takeWhile_append_of_pos hw, List.dropWhile_append_of_pos hw]
  cases t with
  | nil => simp
  | cons c t => simp [ht c t rfl]

theorem call?_blank (s : List Char) : call? (' ' :: s) = none := by
  have : Text.isWord ' ' = false := by decide
  simp [call?, this]

theorem call?_word (hw : ∀ c ∈ w, Text.isWord c) (ht : Detached t) : call? (w ++ t) = none := by
  obtain ⟨-, hd⟩ := takeWhile_word hw fun c r h => (ht c r h).1
  simp only [call?, hd]
  split
  · rename_i r
    exact absurd rfl (ht '(' r rfl).2
  · rfl

theorem call?_call {name r : List Char} (hn : name ≠ []) (hw : ∀ c ∈ name, Text.isWord c)
    (hr : '\n' ∉ r) : call? (name ++ '(' :: r) = (beforeLastClose? r).map fun a => (name, a) := by
  have hb : Text.isWord '(' = false := by decide
  obtain ⟨ht, hd⟩ := takeWhile_word (t := '(' :: r) hw (by rintro c r ⟨⟩; exact hb)
  have hl : r.takeWhile (· ≠ '\n') = r := by
    rw [List.takeWhile_eq_self_iff]
    intro c hc
    simpa using fun e : c = '\n' => hr (e ▸ hc)
  simp only [call?, ht, hd, hl]
  rw [if_neg (by simpa using hn)]

theorem beforeLastClose?_append (h : ')' ∉ t) (s : List Char) : beforeLastClose? (s ++ ')' :: t) = some s := by
  have : ∀ c ∈ t.reverse, decide (c ≠ ')') := by
    intro c hc
    simpa using fun e : c = ')' => h (e ▸ List.mem_reverse.1 hc)
  unfold beforeLastClose?
  rw [List.reverse_append, List.reverse_cons, List.append_assoc, List.dropWhile_append_of_pos this]
  simp

theorem exists_beforeLastClose? (h : ')' ∈ s) : ∃ a, beforeLastClose? s = some a := by
  cases hr : s.reverse.dropWhile (· ≠ ')') with
  | nil =>
    have := List.dropWhile_eq_nil_iff.1 hr ')' (List.mem_reverse.2 h)
    simp at this
  | cons c r => exact ⟨r.reverse, by unfold beforeLastClose?; rw [hr]⟩

/-! ### Texts that close a bracket they do not open -/

/-- A text with a closing bracket before any opening one. -/
def ClosesFirst (s : List Char) : Prop :=
  ∃ u v, s = u ++ ')' :: v ∧ '(' ∉ u

theorem ClosesFirst.of_append {s : List Char} (h : ClosesFirst (s ++ t)) : ClosesFirst s ∨ ClosesFirst t := by
  obtain ⟨u, v, he, hu⟩ := h
  rcases List.append_eq_append_iff.1 he with ⟨w, rfl, rfl⟩ | ⟨w, rfl, hw⟩
  · exact .inr ⟨w, v, rfl, fun hw => hu (List.mem_append_right s hw)⟩
  · cases w with
    | nil => exact .inr ⟨[], v, hw.symm, by simp⟩
    | cons c w =>
      obtain ⟨rfl, -⟩ := List.cons.inj hw
      exact .inl ⟨u, w, rfl, hu⟩

theorem ClosesFirst.trim (h : ClosesFirst s) : ClosesFirst (Text.trim s) := by
  obtain ⟨u, v, rfl, hu⟩ := h
  rw [Text.trim_append_cons (by decide)]
  refine ⟨_, _, rfl, fun hm => hu ?_⟩
  exact (List.dropWhile_sublist _).subset hm

theorem ClosesFirst.mem (h : ClosesFirst s) : ')' ∈ s := by
  obtain ⟨u, v, rfl, -⟩ := h
  simp

theorem ClosesFirst.call?_eq_none (h : ClosesFirst s) : call? s = none := by
  cases hc : call? s with
  | none => rfl
  | some p =>
    obtain ⟨u, v, rfl, hu⟩ := h
    have hw : Text.isWord ')' = false := by decide
    simp only [call?] at hc
    split at hc
    · rename_i r hr
      rw [List.dropWhile_append] at hr
      split at hr
      · simp [hw] at hr
      · rename_i hne
        cases hd : u.dropWhile Text.isWord with
        | nil => simp [hd] at hne
        | cons c t =>
          rw [hd] at hr
          obtain ⟨rfl, -⟩ := List.cons.inj hr
          refine absurd ((List.dropWhile_sublist Text.isWord).subset ?_) hu
          simp [hd]
    · cases hc

/-- Whether a tree holds a piece of a call that was cut apart. -/
def Broken : Expr → Prop
  | .other s => ')' ∈ s.toList
  | .binary _ _ l r => l.Broken ∨ r.Broken
  | _ => False

/-- A text that closes a bracket first is read as a tree with a piece of a call. -/
theorem broken_of_closesFirst (hq : '"' ∉ s) (h : ClosesFirst s) : (parse s).Broken := by
  induction hn : s.length using Nat.strongRecOn generalizing s with
  | ind n ih =>
    subst hn
    have hd : Text.allDigits s = false := not_allDigits_of_mem h.mem (by decide)
    have hk : constant? s = none := constant?_eq_none_of_mem h.mem (by decide)
    have hs := quoted_of_not_mem hq
    cases ho : Operator.split? s with
    | none =>
      rw [parse_of_other hs hd hk h.call?_eq_none ho]
      simpa [Broken] using h.mem
    | some p =>
      obtain ⟨op, l, r⟩ := p
      have he := Operator.eq_append_of_split? ho
      have hl := Operator.length_of_split? ho
      rw [parse_of_split hs h.call?_eq_none ho]
      have hsign : ¬ ClosesFirst op.sign := by
        intro hc
        have := Operator.isSign_of_mem_sign hc.mem
        revert this
        decide
      -- the closing bracket is on one of the two sides, before any opening one there
      rw [he] at h hq
      simp only [List.mem_append, not_or] at hq
      rcases h.of_append with hc | hc
      · left
        refine ih _ ?_ (fun hm => hq.1 (Text.mem_of_mem_trim hm)) hc.trim rfl
        exact Nat.lt_of_le_of_lt (Text.length_trim_le l) hl.1
      · right
        refine ih _ ?_ (fun hm => hq.2.2 (Text.mem_of_mem_trim hm)) (hc.of_append.resolve_left hsign).trim rfl
        exact Nat.lt_of_le_of_lt (Text.length_trim_le r) hl.2

end GzLang.Expr

namespace GzLang.Statement

theorem eq_of_after? {keyword : String} {s r : List Char} (h : after? keyword s = some r) :
    s = keyword.toList ++ ' ' :: r := by
  simp only [after?, Option.ite_none_right_eq_some, List.isPrefixOf_iff_prefix] at h
  obtain ⟨⟨t, rfl⟩, hr⟩ := h
  simp_all

/-- What the text of a line must be like to say something. -/
inductive Spells (s : List Char) : Statement → Prop
  | giveBack {r : List Char} (hs : s = "balik ".toList ++ r) : Spells s (.giveBack (Text.trim r))
  | print {r : List Char} (hs : s = "sulat ".toList ++ r) : Spells s (.print r)
  | branch {r : List Char} (hs : s = "kung ".toList ++ r) : Spells s (.branch (Text.trim r))
  | loop {r a b : List Char} {x : String} (hs : s = "para ".toList ++ r)
    (hr : 3 ≤ (Text.words r).length) : Spells s (.loop x (bounds a b))
  | assign {l r : List Char} (hs : Text.cutFirst [' ', '=', ' '] s = some (l, r)) :
    Spells s (.assign (String.ofList (Text.trim l)) r)
  | evaluate : Spells s (.evaluate s)
  | skip : Spells s .skip

theorem spells_loopHeader (r : List Char) : Spells ("para ".toList ++ r) (loopHeader r) := by
  unfold loopHeader
  split
  · rename_i hr
    exact .loop rfl (by simp [hr])
  · exact .skip

theorem spells_plain (s : List Char) : Spells s (plain s) := by
  unfold plain
  split
  · rename_i hs
    exact .assign hs
  · split
    · exact .evaluate
    · exact .skip

theorem spells_parse (s : List Char) : Spells s (parse s) := by
  unfold parse
  cases hb : after? "balik" s with
  | some r => exact .giveBack (eq_of_after? hb)
  | none =>
    cases hp : after? "sulat" s with
    | some r => exact .print (eq_of_after? hp)
    | none =>
      cases hk : after? "kung" s with
      | some r => exact .branch (eq_of_after? hk)
      | none =>
        cases hl : after? "para" s with
        | some r => exact eq_of_after? hl ▸ spells_loopHeader r
        | none => exact spells_plain s

end GzLang.Statement
