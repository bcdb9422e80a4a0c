import GzLang.Proofs.Rounding
import GzLang.Proofs.Rewriting
import GzLang.Optimization.Level

/-!
# How long optimized code can get

A technique writes at most so many times as much as it reads: what a pattern matches is replaced by a fixed
number of parts, none of them longer than the match (`Pattern.length_replace_le`); the result of an operation
has at most as many characters as the longest integer that is written (`length_foldConstants_le`); and lines
are only dropped (`length_removeUnused_le`). So no technique of a level makes something of nothing, and code
stays within a factor of its length (`bounded_of_mem_levels`).
-/

namespace GzLang

open List Text

variable {p : Pattern} {k : Nat}

namespace Pattern

variable {w : List Char}

/-- The least length of a text that a pattern matches. -/
def least : Pattern → Nat
  | .char _ | .any | .set .. => 1
  | .seq p q => p.least + q.least
  | .alt p q => min p.least q.least
  | .rep p n _ _ => n * p.least
  | .group _ p => p.least
  | .empty | .backref _ | .textStart | .textEnd | .veryEnd | .wordEdge _ => 0

theorem least_le_of_derives {g h : List (Nat × List Char)} (hd : Derives p g w h) : p.least ≤ w.length := by
  induction hd with
  | empty | char | any | set => simp [least]
  | seq _ _ ihp ihq =>
    rw [least, length_append]
    exact Nat.add_le_add ihp ihq
  | altLeft _ ih => exact (Nat.min_le_left ..).trans ih
  | altRight _ ih => exact (Nat.min_le_right ..).trans ih
  | repNil => simp [least]
  | @repCons p n most greedy g h k u v _ _ _ ihp ihq =>
    rw [least, length_append]
    rw [least] at ihq
    cases n with
    | zero => simp
    | succ n =>
      rw [Nat.add_sub_cancel] at ihq
      rw [Nat.succ_mul]
      omega
  | group _ ih => exact ih
  | backref => exact Nat.zero_le _
  | @place p g hp => cases p <;> first | exact Nat.zero_le _ | cases hp

theorem length_le_of_mem_groups {g h : List (Nat × List Char)}
    (hd : Derives p g w h) : ∀ e ∈ h, e ∈ g ∨ e.2.length ≤ w.length := by
  induction hd with
  | empty | char | any | set | repNil | backref | place => exact fun e he => .inl he
  | seq _ _ ihp ihq =>
    intro e he
    rw [length_append]
    rcases ihq e he with hmid | hle
    · exact (ihp e hmid).imp_right fun hle => by omega
    · exact .inr (by omega)
  | altLeft _ ih => exact ih
  | altRight _ ih => exact ih
  | repCons _ _ _ ihp ihq =>
    intro e he
    rw [length_append]
    rcases ihq e he with hmid | hle
    · exact (ihp e hmid).imp_right fun hle => by omega
    · exact .inr (by omega)
  | group _ ih =>
    intro e he
    rcases mem_cons.1 he with rfl | he
    · exact .inr le_rfl
    · exact ih e he

theorem length_group_le {s : List Char} {m : Match} (hm : m ∈ findAll p s) (n : Nat) :
    (m.group n).length ≤ m.text.length := by
  rw [Match.group, Match.group?]
  split
  · exact le_rfl
  · cases hfind : m.groups.find? (·.1 == n) with
    | none => exact Nat.zero_le _
    | some e =>
      rcases length_le_of_mem_groups (derives_of_mem_findAll hm) e (mem_of_find?_eq_some hfind) with h | h
      · cases h
      · exact h

end Pattern

/-- A replacement text makes of a match at most as many times its length as it has parts. -/
theorem Template.length_fill_le {m : Match} (hgroup : ∀ n, (m.group n).length ≤ m.text.length)
    (htext : 0 < m.text.length) (t : Template) : (t.fill m).length ≤ t.length * m.text.length := by
  induction t with
  | nil => simp [fill]
  | cons x t ih =>
    rw [fill, flatMap_cons, length_append, length_cons, Nat.succ_mul, Nat.add_comm]
    refine Nat.add_le_add ih ?_
    cases x with
    | char c => exact htext
    | group n => exact hgroup n

theorem Pattern.length_replace_le (hp : 0 < p.least) {t : Template} (ht : t ≠ []) (s : List Char) :
    (p.replace t.fill s).length ≤ t.length * s.length := by
  have hpos : 1 ≤ t.length := length_pos_iff.2 ht
  have hpieces : ∀ ps : List Piece, (∀ m, Piece.found m ∈ ps → m ∈ findAll p s) →
      (ps.flatMap (Piece.written t.fill)).length ≤ t.length * (ps.flatMap Piece.text).length := by
    intro ps hps
    induction ps with
    | nil => exact Nat.zero_le _
    | cons x ps ih =>
      rw [flatMap_cons, flatMap_cons, length_append, length_append, Nat.mul_add]
      refine Nat.add_le_add ?_ (ih fun m hm => hps m (mem_cons_of_mem x hm))
      cases x with
      | char c => simpa [Piece.written, Piece.text] using hpos
      | found m =>
        have hm := hps m mem_cons_self
        exact Template.length_fill_le (length_group_le hm)
          (hp.trans_le (least_le_of_derives (derives_of_mem_findAll hm))) t
  have hall := hpieces (pieces p s) fun m hm => mem_findAll hm
  rw [text_pieces] at hall
  exact hall

/-! ### What is found and written -/

theorem Text.length_replaceFound_le {α : Type} {find : Recogniser α} {write : α → List Char} (hk : 0 < k)
    (hwrite : ∀ s a r, find s = some (a, r) → r.length < s.length →
      (write a).length + k * r.length ≤ k * s.length) (s : List Char) :
    (replaceFound find write s).length ≤ k * s.length := by
  have hcons (c : Char) (t : List Char) : k * (c :: t).length = k * t.length + k := Nat.mul_succ ..
  rw [replaceFound]
  fun_induction segments find s with
  | case1 => simp
  | case2 c t hnone ih =>
    rw [flatMap_cons, length_append, hcons, Nat.add_comm]
    exact Nat.add_le_add ih hk
  | case3 c t a r hsome hlt ih =>
    rw [flatMap_cons, length_append]
    exact (Nat.add_le_add_left ih _).trans (hwrite _ a r hsome hlt)
  | case4 c t a r hsome hlt ih =>
    rw [flatMap_cons, length_append, hcons, Nat.add_comm]
    exact Nat.add_le_add ih hk

/-! ### The texts of numbers -/

namespace Decimal

/-- The first digit of a double stands at a power of ten of at most three digits. -/
theorem natAbs_exponent_shortest_lt {m : Nat} {q : Int} (h : InRange m q) (hm : 0 < m) :
    (shortest m q).exponent.natAbs < 1000 := by
  obtain ⟨hleads, hcount, -, hrounds⟩ := rounds_shortest h hm
  generalize shortest m q = s at hleads hcount hrounds
  have hunit : (0 : ℝ) < 10 ^ (s.exponent - s.count + 1) := by positivity
  have hlow : (10 : ℝ) ^ s.exponent ≤ s.number := by
    have hdigits : ((10 ^ (s.count - 1) : Nat) : ℝ) ≤ s.digits := by exact_mod_cast hleads.low
    calc (10 : ℝ) ^ s.exponent = (10 ^ (s.count - 1) : Nat) * 10 ^ (s.exponent - s.count + 1) := by
          rw [Nat.cast_pow, Nat.cast_ofNat, ← zpow_natCast, ← zpow_add₀ (by norm_num), Nat.cast_sub hcount]
          congr 1
          push_cast
          ring
      _ ≤ s.number := mul_le_mul_of_nonneg_right hdigits hunit.le
  have hhigh : s.number < (10 : ℝ) ^ (s.exponent + 1) := by
    have hdigits : (s.digits : ℝ) < (10 ^ s.count : Nat) := by exact_mod_cast hleads.high
    calc s.number < (10 ^ s.count : Nat) * 10 ^ (s.exponent - s.count + 1) :=
          mul_lt_mul_of_pos_right hdigits hunit
      _ = (10 : ℝ) ^ (s.exponent + 1) := by
          rw [Nat.cast_pow, Nat.cast_ofNat, ← zpow_natCast, ← zpow_add₀ (by norm_num)]
          congr 1
          ring
  have hlarge : s.number < (10 : ℝ) ^ (999 : Int) := by
    have hmant : (m : ℝ) + 1 ≤ 2 ^ 53 := by exact_mod_cast h.mantissa
    calc s.number ≤ (m + 1 / 2) * 2 ^ q := hrounds.high
      _ ≤ 2 ^ 53 * (2 : ℝ) ^ (971 : Int) := by
          gcongr
          · linarith
          · norm_num
          · exact h.greatest
      _ = ((2 ^ 1024 : Nat) : ℝ) := by
          rw [Nat.cast_pow, Nat.cast_ofNat, ← zpow_natCast, ← zpow_natCast, ← zpow_add₀ (by norm_num)]
          rfl
      _ < ((10 ^ 999 : Nat) : ℝ) := Nat.cast_lt.2 (by decide +kernel)
      _ = 10 ^ (999 : Int) := by rw [Nat.cast_pow, Nat.cast_ofNat, ← zpow_natCast]; rfl
  have hsmall : (10 : ℝ) ^ (-999 : Int) < s.number := by
    have hone : (1 : ℝ) ≤ m := by exact_mod_cast hm
    have hpow : ((2 ^ 1075 : Nat) : ℝ) < (10 ^ 999 : Nat) := Nat.cast_lt.2 (by decide +kernel)
    rw [Nat.cast_pow, Nat.cast_pow, Nat.cast_ofNat, Nat.cast_ofNat] at hpow
    calc (10 : ℝ) ^ (-999 : Int) = (10 ^ 999)⁻¹ := zpow_neg_coe_of_pos _ (by norm_num)
      _ < (2 ^ 1075)⁻¹ := inv_strictAnti₀ (by positivity) hpow
      _ = 1 / 2 * (2 : ℝ) ^ (-1074 : Int) := by
          have hinv : (2 : ℝ) ^ (-1074 : Int) = (2 ^ 1074)⁻¹ := zpow_neg_coe_of_pos _ (by norm_num)
          rw [hinv, pow_succ, mul_inv, mul_comm, one_div]
      _ ≤ (m - reach m q) * 2 ^ q := by
          gcongr
          · linarith [reach_le m q]
          · linarith [reach_le m q]
          · norm_num
          · exact h.least
      _ ≤ s.number := hrounds.low
  have hup := lt_of_ten_zpow_lt (hlow.trans_lt hlarge)
  have hdown := lt_of_ten_zpow_lt (hsmall.trans hhigh)
  omega

theorem length_positionalText_le (digits : List Char) {e : Int} (hlow : -4 ≤ e) (hhigh : e < 16) :
    (positionalText digits e).length ≤ digits.length + 18 := by
  rw [positionalText]
  split
  · rw [String.length_ofList, length_cons, length_cons, length_append, length_replicate]
    omega
  · rw [String.length_ofList, length_append, length_append, length_replicate, length_cons]
    have hback : (if (digits.drop (e.toNat + 1)).isEmpty then ['0'] else digits.drop (e.toNat + 1)).length ≤
        digits.length - (e.toNat + 1) + 1 := by
      split
      · exact Nat.le_add_left 1 _
      · rw [length_drop]
        omega
    rw [length_take]
    omega

theorem length_exponentText_le {e : Int} (he : e.natAbs < 1000) : (exponentText e).length ≤ 5 := by
  have hdigits : (Nat.toDigits 10 e.natAbs).length ≤ 3 := (digitCount_le_iff (by omega)).2 (by simpa using he)
  have hpadded : (padded 2 e.natAbs).length ≤ 3 := by
    rw [padded, String.length_ofList, length_append, length_replicate]
    omega
  rw [exponentText, String.length_append]
  split <;> exact Nat.add_le_add_left hpadded 2

theorem length_mantissaText_le (digits : List Char) : (mantissaText digits).length ≤ digits.length + 1 := by
  rcases digits with _ | ⟨d, _ | ⟨e, ds⟩⟩
  · decide
  · show (String.ofList [d]).length ≤ 2
    rw [String.length_ofList]
    exact Nat.le_succ 1
  · exact (String.length_ofList).le

theorem length_text_shortest_le {m : Nat} {q : Int} (h : InRange m q) (hm : 0 < m) :
    (shortest m q).text.length ≤ 40 := by
  obtain ⟨hleads, hcount, hle, -⟩ := rounds_shortest h hm
  have hexponent := natAbs_exponent_shortest_lt h hm
  have hdigits : (Nat.toDigits 10 (shortest m q).digits).length ≤ 17 :=
    ((digitCount_le_iff hcount).2 hleads.high).trans hle
  rw [Scientific.text]
  split
  · rename_i hpositional
    simp only [Bool.and_eq_true, decide_eq_true_eq] at hpositional
    have := length_positionalText_le (Nat.toDigits 10 (shortest m q).digits) hpositional.1 hpositional.2
    omega
  · rw [String.length_append]
    have hmantissa := length_mantissaText_le (Nat.toDigits 10 (shortest m q).digits)
    have hexponent' := length_exponentText_le hexponent
    omega

theorem length_shortestText_le (x : Float) : (shortestText x).length ≤ 41 := by
  rw [shortestText]
  cases hx : decode x with
  | nan => decide
  | infinite negative => cases negative <;> decide
  | finite negative m q =>
    have hbody : (if m == 0 then "0.0" else (shortest m q).text).length ≤ 40 := by
      split
      · decide
      · rename_i hm
        exact length_text_shortest_le (inRange_of_decode hx) (Nat.pos_of_ne_zero (by simpa using hm))
    cases negative with
    | false => exact hbody.trans (by omega)
    | true =>
      show ("-" ++ _).length ≤ 41
      rw [String.length_append]
      exact Nat.add_le_add_left hbody 1

end Decimal

theorem Value.length_of_intText {i : Int} {t : String} (h : intText i = .ok t) : t.length ≤ 4301 := by
  rw [intText] at h
  split at h
  · cases h
  · rename_i hlength
    cases h
    cases i with
    | ofNat n => exact (not_lt.1 hlength).trans (by omega)
    | negSucc n =>
      show ("-" ++ toString (n + 1)).length ≤ 4301
      rw [String.length_append]
      have : (toString (n + 1)).length ≤ 4300 := not_lt.1 hlength
      exact Nat.add_le_add_left this 1

namespace Optimization

variable {o : Operation}

/-! ### Transformations -/

theorem display_operate {op : Char} {m n : Nat} {t : String} (h : (operate op m n >>= Value.display) = .ok t) :
    t.length ≤ 4301 := by
  have hint (i : Int) (hi : Value.intText i = .ok t) : t.length ≤ 4301 := Value.length_of_intText hi
  rw [operate] at h
  split_ifs at h
  · exact hint _ h
  · exact hint _ h
  · exact hint _ h
  · cases hdiv : Value.divInts m n with
    | error f =>
      have herror : Value.div (.int m) (.int n) = .error f := by
        show (Value.divInts m n).map Value.float = _
        rw [hdiv]
        rfl
      rw [herror] at h
      cases h
    | ok x =>
      have hok : Value.div (.int m) (.int n) = .ok (.float x) := by
        show (Value.divInts m n).map Value.float = _
        rw [hdiv]
        rfl
      rw [hok] at h
      have htext : t = Decimal.shortestText x := (Except.ok.inj h).symm
      rw [htext]
      exact (Decimal.length_shortestText_le x).trans (by omega)

theorem Operation.result?_eq {t : List Char} (h : o.result? = some t) : ∃ m n x, literal? o.left = some m ∧
    literal? o.right = some n ∧ isGap o.leftGap = true ∧ isGap o.rightGap = true ∧
      (operate o.op m n >>= Value.display) = .ok x ∧ t = x.toList := by
  rw [result?] at h
  obtain ⟨m, hm, h⟩ := Option.bind_eq_some_iff.1 h
  obtain ⟨n, hn, h⟩ := Option.bind_eq_some_iff.1 h
  split at h
  · rename_i hgaps
    rw [Bool.and_eq_true] at hgaps
    obtain ⟨x, hx, h⟩ := Option.bind_eq_some_iff.1 h
    cases h
    refine ⟨m, n, x, hm, hn, hgaps.1, hgaps.2, ?_, rfl⟩
    cases hd : operate o.op m n >>= Value.display with
    | error f =>
      rw [hd] at hx
      cases hx
    | ok y =>
      rw [hd] at hx
      cases hx
      rfl
  · cases h

theorem Operation.length_result?_le {t : List Char} (h : o.result? = some t) : t.length ≤ 4301 := by
  obtain ⟨m, n, x, -, -, -, -, hx, rfl⟩ := result?_eq h
  rw [String.length_toList]
  exact display_operate hx

theorem many1?_eq {p : Char → Bool} {s u r : List Char} (h : many1? p s = some (u, r)) : s = u ++ r ∧ u ≠ [] := by
  rw [many1?] at h
  split at h
  · cases h
  · rename_i hne
    cases h
    exact ⟨(takeWhile_append_dropWhile ..).symm, fun he => hne (isEmpty_iff.2 he)⟩

theorem operation?_eq {s r : List Char} (h : operation? s = some (o, r)) :
    s = o.text ++ r ∧ o.left ≠ [] ∧ o.right ≠ [] := by
  rw [operation?] at h
  obtain ⟨⟨left, s₁⟩, hleft, h⟩ := Option.bind_eq_some_iff.1 h
  have hgap := (takeWhile_append_dropWhile (p := isBlank) (l := s₁)).symm
  dsimp only at h
  split at h
  · cases h
  · rename_i op s₂ hdrop
    split at h
    · obtain ⟨⟨right, s₃⟩, hright, h⟩ := Option.bind_eq_some_iff.1 h
      have hgap₂ := (takeWhile_append_dropWhile (p := isBlank) (l := s₂)).symm
      cases h
      rw [hdrop] at hgap
      refine ⟨?_, (many1?_eq hleft).2, (many1?_eq hright).2⟩
      calc s = left ++ s₁ := (many1?_eq hleft).1
        _ = left ++ (s₁.takeWhile isBlank ++ op :: s₂) := by rw [← hgap]
        _ = left ++ (s₁.takeWhile isBlank ++ op :: (s₂.takeWhile isBlank ++ (right ++ s₃))) := by
          rw [← (many1?_eq hright).1, ← hgap₂]
        _ = _ := by simp [Operation.text, append_assoc]
    · cases h

theorem length_foldConstants_le (s : List Char) : (foldConstants s).length ≤ 4301 * s.length := by
  refine length_replaceFound_le (by omega) (fun s o r ho hlt => ?_) s
  cases hresult : o.result? with
  | none =>
    have hlength := congrArg length (operation?_eq ho).1
    rw [length_append] at hlength
    rw [Option.getD_none]
    omega
  | some t =>
    have ht := Operation.length_result?_le hresult
    rw [Option.getD_some]
    omega

theorem length_intercalate (c : Char) (l : List (List Char)) :
    (intercalate [c] l).length = (l.map fun s => s.length + 1).sum - 1 := by
  induction l with
  | nil => rfl
  | cons x l ih =>
    cases l with
    | nil => simp [intercalate]
    | cons y l =>
      have hcons : intercalate [c] (x :: y :: l) = x ++ [c] ++ intercalate [c] (y :: l) := by
        simp [intercalate]
      have hpos : 0 < ((y :: l).map fun s => s.length + 1).sum := by simp
      have hsum : ((x :: y :: l).map fun s => s.length + 1).sum =
          x.length + 1 + ((y :: l).map fun s => s.length + 1).sum := sum_cons
      rw [hcons, length_append, length_append, ih, hsum, length_singleton]
      omega

theorem length_removeUnused_le (s : List Char) : (removeUnused s).length ≤ s.length := by
  have hwhole : intercalate ['\n'] (lines s) = s := by
    rw [lines_eq_splitOn]
    exact intercalate_splitOn '\n'
  have hsublist : (((lines s).zipIdx.filter fun l =>
      !((lines s).zipIdx.foldl Usage.add {}).drops l).map Prod.fst).Sublist (lines s) := by
    have hmap := (filter_sublist (l := (lines s).zipIdx)
      (p := fun l => !((lines s).zipIdx.foldl Usage.add {}).drops l)).map Prod.fst
    rwa [zipIdx_map_fst] at hmap
  calc (removeUnused s).length ≤ (intercalate ['\n'] (lines s)).length := by
        rw [removeUnused, length_intercalate, length_intercalate]
        exact Nat.sub_le_sub_right ((hsublist.map _).sum_le_sum fun _ _ => Nat.zero_le _) 1
    _ = s.length := by rw [hwhole]

/-! ### Methods -/

/-- What a method makes of code. A method that fails leaves it as it is. -/
def Method.result : Method → String → String
  | .none, s => s
  | .transform f, s => String.ofList (f s.toList)
  | .substitution p r, s => (Pattern.substitute p r s).toOption.getD s
  | .routine _, s => s

/-- Whether a pattern matches no empty text, and its replacement text is not too long. -/
def isBounded (k : Nat) (pattern replacement : String) : Bool :=
  match Pattern.parse pattern with
  | .error _ => true
  | .ok p =>
    match Template.parse p.groupCount replacement with
    | .error _ => true
    | .ok t => 0 < p.least && !t.isEmpty && t.length ≤ k

theorem length_substitute_le {p r s t : String} (h : isBounded k p r)
    (hs : Pattern.substitute p r s = .ok t) : t.length ≤ k * s.length := by
  rw [isBounded] at h
  rw [Pattern.substitute] at hs
  cases hp : Pattern.parse p with
  | error f =>
    rw [hp] at hs
    cases hs
  | ok q =>
    rw [hp] at h hs
    dsimp only at h
    cases hr : Template.parse q.groupCount r with
    | error f =>
      change (Template.parse q.groupCount r >>= _) = _ at hs
      rw [hr] at hs
      cases hs
    | ok u =>
      change (Template.parse q.groupCount r >>= _) = _ at hs
      rw [hr] at h hs
      simp only [Bool.and_eq_true, decide_eq_true_eq, Bool.not_eq_true', isEmpty_eq_false_iff] at h
      obtain ⟨⟨hleast, hne⟩, hle⟩ := h
      cases hs
      rw [String.length_ofList, ← String.length_toList (s := s)]
      exact (Pattern.length_replace_le hleast hne s.toList).trans (Nat.mul_le_mul_right _ hle)

/-- A method makes code at most so many times as long. -/
def Method.Bounded (k : Nat) (m : Method) : Prop := ∀ s, (m.result s).length ≤ k * s.length

theorem bounded_idle (hk : 0 < k) : (Method.transform id).Bounded k := by
  intro s
  rw [Method.result, String.length_ofList, id, String.length_toList]
  exact Nat.le_mul_of_pos_left _ hk

theorem bounded_substitution (hk : 0 < k) {p r : String} (h : isBounded k p r) :
    (Method.substitution p r).Bounded k := by
  intro s
  rw [Method.result]
  cases hs : Pattern.substitute p r s with
  | error f => exact Nat.le_mul_of_pos_left _ hk
  | ok t => exact length_substitute_le h hs

theorem bounded_removeUnused : (Method.transform removeUnused).Bounded 4301 := by
  intro s
  rw [Method.result, String.length_ofList]
  refine (length_removeUnused_le _).trans ?_
  rw [String.length_toList]
  omega

theorem bounded_foldConstants : (Method.transform foldConstants).Bounded 4301 := by
  intro s
  rw [Method.result, String.length_ofList, ← String.length_toList (s := s)]
  exact length_foldConstants_le _

/-- No technique makes code more than 4301 times as long. -/
theorem bounded_of_mem_levels : ∀ l ∈ levels, ∀ t ∈ l.techniques, t.method.Bounded 4301 := by
  have hidle : (Method.transform id).Bounded 4301 := bounded_idle (by omega)
  simp only [levels, idle, forall_mem_cons, not_mem_nil, false_implies, implies_true, and_true]
  refine ⟨⟨bounded_substitution (by omega) (by decide +kernel), bounded_removeUnused,
    bounded_substitution (by omega) (by decide +kernel)⟩, ⟨hidle, bounded_foldConstants,
    bounded_substitution (by omega) (by decide +kernel)⟩, ⟨hidle, hidle, hidle⟩, ⟨hidle, hidle, hidle⟩,
    hidle, hidle, hidle⟩

end Optimization

end GzLang
