import GzLang.Proofs.Action
import GzLang.Proofs.JsonToken
import GzLang.Proofs.PlainDocument

/-!
# JSON documents are read as they were written

What is written whole is read as the plain form of its value. What is not written whole cannot be
read at all, as it stops where a value is expected (`parse_dump`). The proof follows the writer: for
a value, and for the elements or members after the first, it says what is written and how the reader
goes through it (`Recovered`).
-/

namespace GzLang

open List Value

namespace Json

variable {t : List Char} {v : Value} {fuel : Nat} {a : Value × List Char}
variable {s k : String} {c : Char} {i : Int}

/-! ### What is written -/

def outcome : Option Fault → Except Fault Unit
  | none => .ok ()
  | some e => .error e

/-- Writing adds a text to what was written before, and ends with a fault or without. -/
structure Emits (w : Written Unit) (fault : Option Fault) (t : List Char) : Prop where
  run : ∀ s : String, w.run s = (outcome fault, s ++ String.ofList t)
  noReturn : NoReturn t

theorem emits_emit (h : s.toList = t) (ht : NoReturn t) : Emits (emit s) none t := by
  refine ⟨fun u => ?_, ht⟩
  rw [← h, String.ofList_toList]
  rfl

theorem emits_throw (e : Fault) : Emits (throw e) (some e) [] :=
  ⟨fun t => congrArg (_, ·) (String.append_empty (s := t)).symm, not_mem_nil⟩

theorem emits_pure : Emits (pure ()) none [] :=
  ⟨fun t => congrArg (_, ·) (String.append_empty (s := t)).symm, not_mem_nil⟩

theorem Emits.bind {w w' : Written Unit} {fault : Option Fault} {t t' : List Char} (h : Emits w none t)
    (h' : Emits w' fault t') : Emits (w >>= fun _ => w') fault (t ++ t') := by
  refine ⟨fun s => ?_, h.noReturn.append h'.noReturn⟩
  rw [String.ofList_append, ← String.append_assoc]
  exact (Action.bind_of_ok (h.run s) _).trans (h'.run _)

theorem Emits.bind_fault {w : Written Unit} {e : Fault} (h : Emits w (some e) t)
    (w' : Written Unit) : Emits (w >>= fun _ => w') (some e) t :=
  ⟨fun s => Action.bind_of_error (h.run s) _, h.noReturn⟩

/-! ### Separators -/

def Spaces (sp : List Char) : Prop := ∀ c ∈ sp, isSpace c = true

/-- A text that starts neither with a separator nor with a closing bracket. -/
def Opens (t : List Char) : Prop :=
  ∀ c ∈ t.head?, isSpace c = false ∧ c ≠ ']' ∧ c ≠ '\x7d'

theorem skipSpace_append {sp t : List Char} (hsp : Spaces sp) (ht : ∀ c ∈ t.head?, isSpace c = false) :
    skipSpace (sp ++ t) = t := by
  rw [skipSpace, dropWhile_append_of_pos hsp]
  cases t with
  | nil => rfl
  | cons c t => simp [ht c rfl]

theorem Opens.skipSpace {sp t : List Char} (ht : Opens t) (hsp : Spaces sp) : skipSpace (sp ++ t) = t :=
  skipSpace_append hsp fun c hc => (ht c hc).1

theorem Opens.skipSpace_self (ht : Opens t) : Json.skipSpace t = t :=
  ht.skipSpace (show Spaces [] from fun _ hc => by cases hc)

theorem Opens.append (ht : Opens t) (hne : t ≠ []) (r : List Char) : Opens (t ++ r) := by
  intro c hc
  rw [head?_append_of_ne_nil _ hne] at hc
  exact ht c hc

theorem toList_pushn (s : String) (c : Char) (n : Nat) : (s.pushn c n).toList = s.toList ++ replicate n c := by
  induction n with
  | zero => simp [String.pushn, Nat.repeat]
  | succ n ih =>
    rw [replicate_succ', ← append_assoc, ← ih]
    exact String.toList_push _

theorem spaces_open (l : Layout) (level : Nat) : Spaces (l.open level).toList := by
  intro c hc
  cases l with
  | line => simp [Layout.open] at hc
  | indented =>
    simp only [Layout.open, String.toList_append, toList_pushn, mem_append, mem_replicate,
      String.toList_empty, not_mem_nil, false_or] at hc
    rcases hc with hc | ⟨-, rfl⟩
    · obtain rfl : c = '\n' := by simpa using hc
      rfl
    · rfl

theorem noReturn_open (l : Layout) (level : Nat) : NoReturn (l.open level).toList := by
  cases l with
  | line => simp [Layout.open, NoReturn]
  | indented => simp [Layout.open, NoReturn, toList_pushn]

theorem exists_between (l : Layout) (level : Nat) :
    ∃ sp, (l.between level).toList = ',' :: sp ∧ Spaces sp ∧ NoReturn (',' :: sp) := by
  cases l with
  | line => exact ⟨[' '], by simp [Layout.between], by simp [Spaces, isSpace], by simp [NoReturn]⟩
  | indented =>
    refine ⟨(Layout.indented.open level).toList, by simp [Layout.between], spaces_open _ _, ?_⟩
    exact (noReturn_open _ _).cons (by decide)

theorem ends_of_head (h : c ∈ [',', ']', '\x7d']) (r : List Char) : Ends (c :: r) := by
  rintro _ ⟨⟩
  fin_cases h <;> simp [isDigit]

theorem ends_nil : Ends [] := fun _ hc => by cases hc

theorem ends_spaces {sp : List Char} (hsp : Spaces sp) (h : c = ']' ∨ c = '\x7d')
    (r : List Char) : Ends (sp ++ c :: r) := by
  cases sp with
  | nil => exact ends_of_head (by rcases h with rfl | rfl <;> simp) r
  | cons d sp =>
    rintro _ ⟨⟩
    have hd := hsp d mem_cons_self
    simp only [isSpace, Bool.or_eq_true, decide_eq_true_eq] at hd
    rcases hd with ((rfl | rfl) | rfl) | rfl <;> simp [isDigit]

/-! ### Lists and tables -/

def afterItem (fuel : Nat) (acc : List Value) (s : List Char) : Except Stop (Value × List Char) :=
  match skipSpace s with
  | ']' :: r => .ok (.list acc.reverse, r)
  | ',' :: r => items fuel acc (skipSpace r)
  | s => .error ⟨"Expecting ',' delimiter", s⟩

theorem items_succ (fuel : Nat) (acc : List Value) (s : List Char) :
    items (fuel + 1) acc s = (value fuel s).bind fun p => afterItem fuel (p.1 :: acc) p.2 := by
  rw [items]
  rfl

def afterMember (fuel : Nat) (acc : Table Value) (s : List Char) : Except Stop (Value × List Char) :=
  match skipSpace s with
  | '\x7d' :: r => .ok (.dict acc, r)
  | ',' :: r => members fuel acc (skipSpace r)
  | s => .error ⟨"Expecting ',' delimiter", s⟩

theorem members_succ (fuel : Nat) (acc : Table Value) (k : String) (ht : Opens t) :
    members (fuel + 1) acc ((textOf k ++ ": ").toList ++ t) =
      (value fuel t).bind fun p => afterMember fuel (acc.put k p.1) p.2 := by
  have hskip : skipSpace ([' '] ++ t) = t := ht.skipSpace (by simp [Spaces, isSpace])
  have hcolon (r : List Char) : skipSpace (':' :: r) = ':' :: r := by simp [skipSpace, isSpace]
  have hshape : (textOf k ++ ": ").toList ++ t =
      '"' :: (k.toList.flatMap escaped ++ '"' :: ':' :: ' ' :: t) := by simp [textOf]
  rw [hshape, members]
  simp only [text_append, String.ofList_toList, bind, Except.bind, hcolon]
  rw [show ' ' :: t = [' '] ++ t from rfl, hskip]
  rfl

/-- A text that is read as a value, if it is followed by nothing that could belong to it. -/
structure Reads (t : List Char) (v : Value) : Prop where
  ne_nil : t ≠ []
  opens : Opens t
  read : ∀ fuel r, t.length < fuel → Ends r → value fuel (t ++ r) = .ok (v, r)

/-- A text that stops before a value has been read. -/
structure Breaks (t : List Char) : Prop where
  opens : Opens t
  stop : ∀ fuel, 2 * t.length < fuel → ∃ s, value fuel t = .error s

theorem opens_nil : Opens [] := fun _ hc => by cases hc

theorem breaks_nil : Breaks [] := by
  refine ⟨opens_nil, fun fuel _ => ?_⟩
  cases fuel with
  | zero => exact ⟨_, rfl⟩
  | succ fuel => exact ⟨_, rfl⟩

/-! ### Values -/

theorem Reads.of_succ (hne : t ≠ []) (hopens : Opens t)
    (h : ∀ fuel r, t.length ≤ fuel → Ends r → value (fuel + 1) (t ++ r) = .ok (v, r)) : Reads t v := by
  refine ⟨hne, hopens, fun fuel r hfuel hr => ?_⟩
  obtain ⟨fuel, rfl⟩ := Nat.exists_eq_add_one.2 (Nat.zero_lt_of_lt hfuel)
  exact h fuel r (Nat.le_of_lt_succ hfuel) hr

theorem value_plain (h : c ∉ ['"', '\x7b', '[']) (fuel : Nat) (r : List Char) : value (fuel + 1) (c :: r) =
      ((word? (c :: r)).or (number? (c :: r))).elim (.error ⟨"Expecting value", c :: r⟩) .ok := by
  simp only [mem_cons, not_mem_nil, or_false, not_or] at h
  unfold value
  simp [h]
  cases word? (c :: r) with
  | some a => rfl
  | none =>
    cases number? (c :: r) with
    | some a => rfl
    | none => rfl

theorem value_of_word? {r : List Char} (h : word? (c :: r) = some a)
    (fuel : Nat) : value (fuel + 1) (c :: r) = .ok a := by
  rw [value_plain, h]
  · rfl
  · intro hmem
    have hnone : word? (c :: r) = none := word?_of_head (by fin_cases hmem <;> simp) r
    rw [hnone] at h
    cases h

theorem value_of_number? {s : List Char} (h : number? s = some a) (fuel : Nat) : value (fuel + 1) s = .ok a := by
  have hword := word?_of_number? h
  rcases head_of_number? h with ⟨c, r, rfl, hc⟩ | ⟨c, r, rfl, hc⟩
  · rw [value_plain, hword, h]
    · rfl
    · intro hmem
      fin_cases hmem <;> exact absurd hc (by decide)
  · rw [value_plain (by simp), hword, h]
    rfl

theorem opens_of_number? {s : List Char} (h : number? s = some a) : Opens s := by
  rcases head_of_number? h with ⟨c, r, rfl, hc⟩ | ⟨c, r, rfl, hc⟩
  · rintro _ ⟨⟩
    refine ⟨?_, ne_of_isDigit hc rfl, ne_of_isDigit hc rfl⟩
    simp [isSpace, ne_of_isDigit hc (show isDigit ' ' = false from rfl),
      ne_of_isDigit hc (show isDigit '\t' = false from rfl),
      ne_of_isDigit hc (show isDigit '\n' = false from rfl),
      ne_of_isDigit hc (show isDigit '\r' = false from rfl)]
  · rintro _ ⟨⟩
    decide

theorem reads_of_number? (hne : t ≠ []) (h : ∀ r, Ends r → number? (t ++ r) = some (v, r)) : Reads t v := by
  have hself := h [] ends_nil
  rw [append_nil] at hself
  exact .of_succ hne (opens_of_number? hself) fun fuel r _ hr => value_of_number? (h r hr) fuel

theorem reads_of_word? (hne : t ≠ []) (hopens : Opens t) (h : ∀ r, word? (t ++ r) = some (v, r)) : Reads t v := by
  obtain ⟨c, t, rfl⟩ := exists_cons_of_ne_nil hne
  exact .of_succ hne hopens fun fuel r _ _ => value_of_word? (h r) fuel

theorem reads_null : Reads "null".toList .null :=
  reads_of_word? (by simp) (by simp [Opens, isSpace]) fun r => by simp [word?]

theorem reads_bool (b : Bool) : Reads (if b then "true" else "false").toList (.bool b) := by
  cases b <;> exact reads_of_word? (by simp) (by simp [Opens, isSpace]) fun r => by simp [word?]

theorem toList_toString_int (i : Int) : (toString i).toList = sign (i < 0) ++ Nat.toDigits 10 i.natAbs := by
  cases i with
  | ofNat n =>
    rw [show toString (Int.ofNat n) = toString n from rfl, Nat.toString_eq_ofList_toDigits, String.toList_ofList]
    rfl
  | negSucc n =>
    rw [show toString (Int.negSucc n) = "-" ++ toString (n + 1) from rfl,
      Nat.toString_eq_ofList_toDigits, String.toList_append, String.toList_ofList]
    simp [sign]

theorem eq_of_intText (h : intText i = .ok s) : s.toList = sign (i < 0) ++ Nat.toDigits 10 i.natAbs := by
  unfold intText at h
  dsimp only at h
  split at h
  · cases h
  · rw [← Except.ok.inj h, toList_toString_int]

theorem noReturn_intText (h : intText i = .ok s) : NoReturn s.toList := by
  rw [eq_of_intText h]
  refine NoReturn.append ?_ (digits_toDigits _).noReturn
  rw [sign]
  split <;> simp [NoReturn]

theorem reads_int (h : intText i = .ok s) : Reads s.toList (.int i) := by
  have hwhole := whole_toDigits i.natAbs
  rw [eq_of_intText h]
  refine reads_of_number? (append_ne_nil_of_right_ne_nil _ hwhole.ne_nil) fun r hr => ?_
  have hvalue : (if decide (i < 0) = true then -(natOf (Nat.toDigits 10 i.natAbs) : Int)
      else natOf (Nat.toDigits 10 i.natAbs)) = i := by
    rw [natOf_toDigits]
    by_cases hi : i < 0
    · rw [if_pos (by simpa using hi)]
      omega
    · rw [if_neg (by simpa using hi)]
      omega
  rw [append_assoc, number?_int _ hwhole hr, hvalue]

theorem reads_float (x : Float) : Reads (floatText x).toList (.float x) := by
  cases hx : Decimal.decode x with
  | nan =>
    have hnan : x = 0.0 / 0.0 := Decimal.decode_injective hx
    rw [floatText, hx, hnan]
    exact reads_of_word? (by simp) (by simp [Opens, isSpace]) fun r => by simp [word?]
  | infinite negative =>
    have hinf : x = if negative then -(1.0 / 0.0) else 1.0 / 0.0 := by
      cases negative <;> exact Decimal.decode_injective hx
    rw [floatText, hx, hinf]
    cases negative <;> exact reads_of_word? (by simp) (by simp [Opens, isSpace]) fun r => by simp [word?]
  | finite negative m q =>
    have hfinite : floatText x = Decimal.shortestText x := by rw [floatText, hx]
    rw [hfinite]
    refine reads_of_number? ?_ fun r hr => number?_shortestText hx hr
    intro hnil
    have := number?_shortestText hx ends_nil
    rw [hnil] at this
    cases this

theorem reads_str (s : String) : Reads (textOf s).toList (.str s) := by
  rw [textOf, String.toList_ofList]
  refine .of_succ (cons_ne_nil _ _) (by rintro _ ⟨⟩; decide) fun fuel r _ _ => ?_
  rw [cons_append, append_assoc, singleton_append, value, text_append, String.ofList_toList]
  rfl

/-! ### Brackets -/

section Brackets

variable {α : Type} {next after : Nat → α → Reader Value} {first last : Char}
  {acc : α} {push : α → Value → α} {f close : α → Value} {lead u sp sp' : List Char}

/-- A text that is read, up to the closing bracket, as what `f` makes of what stands before it. -/
structure Fills (next : Nat → α → Reader Value) (last : Char)
    (f : α → Value) (t : List Char) : Prop where
  opens : ∀ r, Opens (t ++ r)
  read : ∀ fuel acc sp r, t.length < fuel → Spaces sp →
    next (fuel + 1) acc (t ++ (sp ++ last :: r)) = .ok (f acc, r)

/-- A text that stops inside brackets. -/
structure Stalls (next : Nat → α → Reader Value) (t : List Char) :
    Prop where
  opens : Opens t
  stop : ∀ fuel acc, 2 * t.length < fuel → ∃ s, next (fuel + 1) acc t = .error s

/-- A text after an element that is read like a text that fills brackets. -/
structure FillsUp (after : Nat → α → Reader Value) (last : Char)
    (f : α → Value) (t : List Char) : Prop where
  ends : ∀ r, Ends r → Ends (t ++ r)
  read : ∀ fuel acc sp r, t.length < fuel → Spaces sp →
    after fuel acc (t ++ (sp ++ last :: r)) = .ok (f acc, r)

/-- A text that stops after an element. -/
structure StallsAfter (after : Nat → α → Reader Value) (t : List Char) :
    Prop where
  ends : Ends t
  stop : ∀ fuel acc, 2 * t.length < fuel → ∃ s, after fuel acc t = .error s

/-- How what stands in brackets is read: values with a text in front of each and commas between them. -/
structure Brackets (first last : Char) (lead : List Char)
    (next after : Nat → α → Reader Value) (acc : α) (push : α → Value → α)
    (close : α → Value) : Prop where
  opens : ∀ r, Opens (first :: r)
  isLast : last = ']' ∨ last = '\x7d'
  start : ∀ fuel {sp t}, Spaces sp → Opens t → value (fuel + 1) (first :: (sp ++ t)) = next fuel acc t
  leads : ∀ {t}, Opens t → Opens (lead ++ t)
  step : ∀ fuel acc {t}, Opens t →
    next (fuel + 1) acc (lead ++ t) = (value fuel t).bind fun p => after fuel (push acc p.1) p.2
  closes : ∀ fuel acc {sp} r, Spaces sp → after fuel acc (sp ++ last :: r) = .ok (close acc, r)
  comma : ∀ fuel acc {sp t}, Spaces sp → Opens t → after fuel acc (',' :: (sp ++ t)) = next fuel acc t

theorem skipSpace_comma (r : List Char) : skipSpace (',' :: r) = ',' :: r := by simp [skipSpace, isSpace]

theorem brackets_list : Brackets '[' ']' [] items afterItem [] (fun acc v => v :: acc) (.list ·.reverse) where
  opens _ := by rintro _ ⟨⟩; decide
  isLast := .inl rfl
  start fuel sp t hsp ht := by
    rw [value, ht.skipSpace hsp]
    cases t with
    | nil => rfl
    | cons c t => simp [(ht c rfl).2.1]
  leads ht := ht
  step fuel acc t _ := items_succ fuel acc t
  closes fuel acc sp r hsp := by
    rw [afterItem, skipSpace_append hsp (by rintro _ ⟨⟩; rfl)]
    rfl
  comma fuel acc sp t hsp ht := by
    simp only [afterItem, skipSpace_comma]
    rw [ht.skipSpace hsp]

theorem brackets_dict (k : String) : Brackets '\x7b' '\x7d' (textOf k ++ ": ").toList members afterMember []
    (fun acc v => acc.put k v) .dict where
  opens _ := by rintro _ ⟨⟩; decide
  isLast := .inr rfl
  start fuel sp t hsp ht := by
    rw [value, ht.skipSpace hsp]
    cases t with
    | nil => rfl
    | cons c t => simp [(ht c rfl).2.2]
  leads _ := by
    rw [String.toList_append, append_assoc]
    exact (reads_str k).opens.append (reads_str k).ne_nil _
  step fuel acc t ht := members_succ fuel acc k ht
  closes fuel acc sp r hsp := by
    rw [afterMember, skipSpace_append hsp (by rintro _ ⟨⟩; rfl)]
    rfl
  comma fuel acc sp t hsp ht := by
    simp only [afterMember, skipSpace_comma]
    rw [ht.skipSpace hsp]

namespace Brackets

variable (B : Brackets first last lead next after acc push close)

include B

theorem fills (ht : Reads t v) (hu : FillsUp after last f u) :
    Fills next last (fun acc => f (push acc v)) (lead ++ (t ++ u)) := by
  refine ⟨fun r => ?_, fun fuel acc sp r hfuel hsp => ?_⟩ <;> rw [append_assoc, append_assoc]
  · exact B.leads (ht.opens.append ht.ne_nil _)
  · simp only [length_append] at hfuel
    rw [B.step fuel acc (ht.opens.append ht.ne_nil _),
      ht.read fuel _ (by omega) (hu.ends _ (ends_spaces hsp B.isLast r))]
    exact hu.read fuel (push acc v) sp r (by omega) hsp

theorem stalls (ht : Reads t v) (hu : StallsAfter after u) : Stalls next (lead ++ (t ++ u)) := by
  have hopens := ht.opens.append ht.ne_nil u
  refine ⟨B.leads hopens, fun fuel acc hfuel => ?_⟩
  simp only [length_append] at hfuel
  rw [B.step fuel acc hopens, ht.read fuel _ (by omega) hu.ends]
  exact hu.stop fuel (push acc v) (by omega)

theorem stalls_of_breaks (ht : Breaks t) : Stalls next (lead ++ t) := by
  refine ⟨B.leads ht.opens, fun fuel acc hfuel => ?_⟩
  rw [length_append] at hfuel
  obtain ⟨s, hs⟩ := ht.stop fuel (by omega)
  rw [B.step fuel acc ht.opens, hs]
  exact ⟨s, rfl⟩

theorem reads (ht : Fills next last f t) (hsp : Spaces sp) (hsp' : Spaces sp') :
    Reads (first :: (sp ++ (t ++ (sp' ++ [last])))) (f acc) := by
  refine .of_succ (cons_ne_nil _ _) (B.opens _) fun fuel r hfuel _ => ?_
  simp only [length_cons, length_append] at hfuel
  obtain ⟨fuel, rfl⟩ := Nat.exists_eq_add_one.2 (Nat.zero_lt_of_lt hfuel)
  simp only [cons_append, append_assoc, nil_append]
  rw [B.start _ hsp (ht.opens _)]
  exact ht.read fuel acc sp' r (by omega) hsp'

theorem breaks (ht : Stalls next t) (hsp : Spaces sp) : Breaks (first :: (sp ++ t)) := by
  refine ⟨B.opens _, fun fuel hfuel => ?_⟩
  simp only [length_cons, length_append] at hfuel
  obtain ⟨fuel, rfl⟩ : ∃ n, fuel = n + 2 := ⟨fuel - 2, by omega⟩
  rw [B.start _ hsp ht.opens]
  exact ht.stop fuel acc (by omega)

theorem fillsUp_nil : FillsUp after last close [] := ⟨fun _ hr => hr, fun fuel acc _ r _ hsp => B.closes fuel acc r hsp⟩

theorem fillsUp (ht : Fills next last f t) (hsp : Spaces sp) : FillsUp after last f (',' :: (sp ++ t)) := by
  refine ⟨fun r _ => ends_of_head (by simp) _, fun fuel acc sp' r hfuel hsp' => ?_⟩
  simp only [length_cons, length_append] at hfuel
  obtain ⟨fuel, rfl⟩ := Nat.exists_eq_add_one.2 (Nat.zero_lt_of_lt hfuel)
  rw [cons_append, append_assoc, B.comma _ acc hsp (ht.opens _)]
  exact ht.read fuel acc sp' r (by omega) hsp'

theorem stallsAfter (ht : Stalls next t) (hsp : Spaces sp) : StallsAfter after (',' :: (sp ++ t)) := by
  refine ⟨ends_of_head (by simp) _, fun fuel acc hfuel => ?_⟩
  simp only [length_cons, length_append] at hfuel
  obtain ⟨fuel, rfl⟩ := Nat.exists_eq_add_one.2 (Nat.zero_lt_of_lt hfuel)
  rw [B.comma _ acc hsp ht.opens]
  exact ht.stop fuel acc (by omega)

end Brackets

theorem reads_empty_list : Reads ['[', ']'] (.list []) :=
  .of_succ (cons_ne_nil _ _) (brackets_list.opens _) fun fuel r _ _ => by
    simp [value, skipSpace, isSpace]

theorem reads_empty_dict : Reads ['\x7b', '\x7d'] (.dict []) :=
  .of_succ (cons_ne_nil _ _) ((brackets_dict "").opens _) fun fuel r _ _ => by
    simp [value, skipSpace, isSpace]

/-! ### Documents -/

/-- What is written has one property if it is written whole, and another one if it is not. -/
def Comes (w : Written Unit) (fault : Option Fault) (whole part : List Char → Prop) : Prop :=
  ∃ t, Emits w fault t ∧ (fault = none → whole t) ∧ (fault ≠ none → part t)

/-- What is written of a value is read as it, or cannot be read. -/
def Recovered (l : Layout) (level : Nat) (v : Value) : Prop :=
  Comes (write l level v) v.fault? (Reads · v.normal) Breaks

def RecoveredItems (l : Layout) (level : Nat) (xs : List Value) : Prop :=
  Comes (writeItems l level xs) (faultOfItems? xs)
    (FillsUp afterItem ']' fun acc => .list (acc.reverse ++ normalItems xs)) (StallsAfter afterItem)

def RecoveredMembers (l : Layout) (level : Nat) (es : List (String × Value)) : Prop :=
  Comes (writeMembers l level es) (faultOfMembers? es)
    (FillsUp afterMember '\x7d' fun acc => .dict (normalMembers acc es)) (StallsAfter afterMember)

variable {es : List (String × Value)} {xs : List Value} {l : Layout} {level : Nat}
variable {w w' w₀ w₁ : Written Unit} {o o' : Option Fault} {W W' P P' : List Char → Prop}

theorem Comes.closed (h : Comes w o W P) (hlast : Emits w' none t) :
    Comes (w >>= fun _ => w') o (fun s => ∃ u, W u ∧ s = u ++ t) P := by
  obtain ⟨u, hemit, hwhole, hpart⟩ := h
  cases o with
  | some e => exact ⟨u, hemit.bind_fault w', by simp, hpart⟩
  | none => exact ⟨u ++ t, hemit.bind hlast, fun _ => ⟨u, hwhole rfl, rfl⟩, by simp⟩

theorem Comes.series {V Q : List Char → Prop} (hfirst : Emits w₀ none t)
    (h : Comes w o W P) (h' : Comes w' o' W' P') (hpart : ∀ u, P u → Q (t ++ u))
    (hpart' : ∀ u r, W u → P' r → Q (t ++ (u ++ r))) (hwhole : ∀ u r, W u → W' r → V (t ++ (u ++ r))) :
    Comes (w₀ >>= fun _ => w >>= fun _ => w') (o.or o') V Q := by
  obtain ⟨u, hemit, hread, hbreak⟩ := h
  obtain ⟨r, hemits, hreads, hbreaks⟩ := h'
  cases o with
  | some e => exact ⟨_, hfirst.bind (hemit.bind_fault w'), by simp, fun _ => hpart u (hbreak (by simp))⟩
  | none =>
    refine ⟨_, hfirst.bind (hemit.bind hemits), fun h => ?_, fun h => ?_⟩
    · exact hwhole u r (hread rfl) (hreads h)
    · exact hpart' u r (hread rfl) (hbreaks h)

theorem Brackets.comes (B : Brackets first last lead next after acc push close)
    (hfirst : Emits w₀ none (first :: (sp ++ lead))) (hlast : Emits w₁ none (sp' ++ [last])) (hsp : Spaces sp)
    (hsp' : Spaces sp') (h : Comes w o (Reads · v) Breaks)
    (h' : Comes w' o' (FillsUp after last f) (StallsAfter after)) :
    Comes (w₀ >>= fun _ => w >>= fun _ => w' >>= fun _ => w₁) (o.or o') (Reads · (f (push acc v))) Breaks := by
  refine .series hfirst h (h'.closed hlast) (fun t ht => ?_) (fun t u ht hu => ?_) ?_
  · rw [cons_append, append_assoc]
    exact B.breaks (B.stalls_of_breaks ht) hsp
  · rw [cons_append, append_assoc]
    exact B.breaks (B.stalls ht hu) hsp
  · rintro t _ ht ⟨u, hu, rfl⟩
    rw [cons_append, append_assoc, ← append_assoc t, ← append_assoc _ (t ++ u)]
    exact B.reads (B.fills ht hu) hsp hsp'

theorem Brackets.comes_comma (B : Brackets first last lead next after acc push close)
    (hfirst : Emits w₀ none (',' :: (sp ++ lead))) (hsp : Spaces sp) (h : Comes w o (Reads · v) Breaks)
    (h' : Comes w' o' (FillsUp after last f) (StallsAfter after)) :
    Comes (w₀ >>= fun _ => w >>= fun _ => w') (o.or o') (FillsUp after last fun acc => f (push acc v))
      (StallsAfter after) := by
  refine .series hfirst h h' (fun t ht => ?_) (fun t u ht hu => ?_) fun t u ht hu => ?_ <;>
    rw [cons_append, append_assoc]
  · exact B.stallsAfter (B.stalls_of_breaks ht) hsp
  · exact B.stallsAfter (B.stalls ht hu) hsp
  · exact B.fillsUp (B.fills ht hu) hsp

end Brackets

section Cases

variable {es : List (String × Value)} {xs : List Value} {l : Layout} {level : Nat}

theorem recovered_of_reads {v : Value} (hw : write l level v = emit s) (hv : v.fault? = none)
    (hs : NoReturn s.toList) (ht : Reads s.toList v.normal) : Recovered l level v :=
  ⟨s.toList, hw ▸ hv ▸ emits_emit rfl hs, fun _ => ht, fun h => absurd hv h⟩

theorem recovered_of_throw {v : Value} {e : Fault} (hw : write l level v = throw e)
    (hv : v.fault? = some e) : Recovered l level v :=
  ⟨[], hw ▸ hv ▸ emits_throw e, fun h => (by simp [hv] at h), fun _ => breaks_nil⟩

theorem emits_last (l : Layout) (level : Nat) {last : String} {c : Char} (h : last.toList = [c]) (hc : c ≠ '\r') :
    Emits (emit (l.open level ++ last)) none ((l.open level).toList ++ [c]) :=
  emits_emit (by rw [String.toList_append, h]) ((noReturn_open _ _).append (by simpa [NoReturn] using hc.symm))

theorem recovered_list {x : Value} (hx : Recovered l (level + 1) x)
    (hxs : RecoveredItems l (level + 1) xs) : Recovered l level (.list (x :: xs)) := by
  have hfirst : Emits (emit ("[" ++ l.open (level + 1))) none ('[' :: ((l.open (level + 1)).toList ++ [])) :=
    emits_emit (by simp) (by simpa using (noReturn_open _ _).cons (by decide))
  rw [Recovered, write, fault?, faultOfItems?, normal, normalItems]
  exact brackets_list.comes hfirst (emits_last l level rfl (by decide)) (spaces_open _ _) (spaces_open _ _) hx hxs

theorem recovered_dict {v : Value} (hv : Recovered l (level + 1) v) (hes : RecoveredMembers l (level + 1) es) :
    Recovered l level (.dict ((k, v) :: es)) := by
  have hfirst : Emits (emit ("\x7b" ++ l.open (level + 1) ++ textOf k ++ ": ")) none
      ('\x7b' :: ((l.open (level + 1)).toList ++ (textOf k ++ ": ").toList)) := by
    refine emits_emit ?_ (((noReturn_open _ _).append (noReturn_key k)).cons (by decide))
    rw [String.append_assoc, String.append_assoc, String.toList_append, String.toList_append]
    rfl
  rw [Recovered, write, fault?, faultOfMembers?, normal, normalMembers]
  exact (brackets_dict k).comes hfirst (emits_last l level rfl (by decide)) (spaces_open _ _) (spaces_open _ _) hv hes

theorem recoveredItems_cons {x : Value} (hx : Recovered l level x)
    (hxs : RecoveredItems l level xs) : RecoveredItems l level (x :: xs) := by
  obtain ⟨sp, hbetween, hsp, hcomma⟩ := exists_between l level
  have hfirst := emits_emit hbetween hcomma
  rw [← append_nil sp] at hfirst
  have h := brackets_list.comes_comma hfirst hsp hx hxs
  simp only [reverse_cons, append_assoc, singleton_append] at h
  rwa [RecoveredItems, writeItems, faultOfItems?, normalItems]

theorem recoveredMembers_cons {v : Value} (hv : Recovered l level v) (hes : RecoveredMembers l level es) :
    RecoveredMembers l level ((k, v) :: es) := by
  obtain ⟨sp, hbetween, hsp, hcomma⟩ := exists_between l level
  have hfirst : Emits (emit (l.between level ++ textOf k ++ ": ")) none (',' :: (sp ++ (textOf k ++ ": ").toList)) := by
    refine emits_emit ?_ (NoReturn.append hcomma (noReturn_key k))
    rw [String.append_assoc, String.toList_append, hbetween, cons_append]
  rw [RecoveredMembers, writeMembers, faultOfMembers?]
  exact (brackets_dict k).comes_comma hfirst hsp hv hes

end Cases

theorem recovered (l : Layout) (level : Nat) (v : Value) : Recovered l level v := by
  refine (write.mutual_induct (Recovered l) (RecoveredMembers l) (RecoveredItems l) ?_ ?_ ?_ ?_ ?_ ?_ ?_ ?_
    ?_ ?_ ?_ ?_ ?_ ?_ ?_ ?_ ?_ ?_).1 level v
  case refine_1 =>
    intro level
    refine recovered_of_reads (by rw [write]) rfl ?_ ?_
    · simp [NoReturn]
    · exact reads_null
  case refine_2 =>
    intro level b
    exact recovered_of_reads (by rw [write]) rfl (by cases b <;> simp [NoReturn]) (reads_bool b)
  case refine_3 =>
    intro level i s hs
    exact recovered_of_reads (by rw [write, hs]) (by rw [fault?, hs]) (noReturn_intText hs)
      (reads_int hs)
  case refine_4 =>
    intro level i e he
    exact recovered_of_throw (by rw [write, he]) (by rw [fault?, he])
  case refine_5 | refine_6 =>
    intro level x
    exact recovered_of_reads (by rw [write]) rfl (noReturn_floatText x) (reads_float x)
  case refine_7 =>
    intro level s
    exact recovered_of_reads (by rw [write]) rfl (noReturn_textOf s) (reads_str s)
  case refine_8 =>
    intro level name
    exact recovered_of_throw (by rw [write]) (by rw [fault?])
  case refine_9 | refine_10 =>
    intro level
    refine recovered_of_reads (by rw [write]) rfl ?_ ?_
    · simp [NoReturn]
    · exact reads_empty_list
  case refine_11 =>
    intro level
    refine recovered_of_reads (by rw [write]) rfl ?_ ?_
    · simp [NoReturn]
    · exact reads_empty_dict
  case refine_12 =>
    intro level x xs hx hxs
    exact recovered_list hx hxs
  case refine_13 =>
    intro level x xs hx hxs
    have htuple : write l level (.tuple (x :: xs)) = write l level (.list (x :: xs)) := by rw [write, write]
    obtain ⟨t, hemit, hread⟩ := recovered_list hx hxs
    exact ⟨t, htuple ▸ hemit, hread⟩
  case refine_14 =>
    intro level k v es hv hes
    exact recovered_dict hv hes
  case refine_15 =>
    intro level
    exact ⟨[], emits_pure, fun _ => by simpa [normalItems] using brackets_list.fillsUp_nil, fun h => absurd rfl h⟩
  case refine_16 =>
    intro level x xs hx hxs
    exact recoveredItems_cons hx hxs
  case refine_17 =>
    intro level
    exact ⟨[], emits_pure, fun _ => (brackets_dict "").fillsUp_nil, fun h => absurd rfl h⟩
  case refine_18 =>
    intro level k v es hv hes
    exact recoveredMembers_cons hv hes

theorem Reads.head_ne (h : Reads t v) : t.head? ≠ some '\uFEFF' := by
  intro hhead
  obtain ⟨r, rfl⟩ := head?_eq_some_iff.1 hhead
  have hread := h.read (('\uFEFF' :: r).length + 1) [] (by omega) ends_nil
  have hnumber : number? ('\uFEFF' :: r) = none := by
    rw [Option.eq_none_iff_forall_not_mem]
    intro a ha
    rcases head_of_number? ha with ⟨c, s, heq, hc⟩ | ⟨c, s, heq, -⟩
    · rw [← (List.cons.inj heq).1] at hc
      cases hc
    · cases (List.cons.inj heq).1
  rw [append_nil, value_plain (by simp), word?_of_head (by simp), hnumber] at hread
  cases hread

/-- A document that is written whole is read as the plain form of its value; one that is not cannot be
read. -/
theorem parse_dump (l : Layout) (v : Value) : (dump l v).1 = outcome v.fault? ∧ NoReturn (dump l v).2.toList ∧
      (v.fault? = none → parse (dump l v).2 = .ok v.normal) ∧
      (v.fault? ≠ none → ∃ why line column position,
        parse (dump l v).2 = .error (.malformedDocument why line column position)) := by
  obtain ⟨t, hemit, hread, hbreak⟩ := recovered l 0 v
  have hdump : dump l v = (outcome v.fault?, String.ofList t) := by
    rw [dump, hemit.run, String.empty_append]
  rw [hdump]
  refine ⟨rfl, by simpa using hemit.noReturn, fun h => ?_, fun h => ?_⟩
  · have ht := hread h
    have hvalue := ht.read (2 * t.length + 2) [] (by omega) ends_nil
    rw [append_nil] at hvalue
    have hskip := ht.opens.skipSpace_self
    simp only [parse, String.toList_ofList, ht.head_ne, if_false, hskip, hvalue]
    rfl
  · have ht := hbreak h
    obtain ⟨stop, hstop⟩ := ht.stop (2 * t.length + 2) (by omega)
    have hskip := ht.opens.skipSpace_self
    simp only [parse, String.toList_ofList, hskip, hstop]
    split
    · exact ⟨_, _, _, _, rfl⟩
    · exact ⟨_, _, _, _, rfl⟩

end Json

end GzLang
