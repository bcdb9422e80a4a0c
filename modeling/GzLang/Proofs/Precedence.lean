import GzLang.Proofs.Lexicon

/-!
# Which formulas are read as they are meant

A text is read by cutting it at the first occurrence of the loosest operator, wherever that stands.
A tree reads a sum when its signed terms and their factors are those of the sum, in order, however
they are grouped (`Lexicon.ReadsTerms`): sums and products of integers do not depend on the grouping.
The main result is an exact condition for this, `Lexicon.readsTerms_parse_iff`. It fails in four
ways:

* a call at the front of a text takes in all that follows it;
* an operator inside the brackets of a call is cut as if it stood outside;
* of two minus signs without a plus sign between them, the second is cut after the first;
* a single operand with spaces around it is no operand.
-/

namespace GzLang.Lexicon

open List Text Expr

variable {β : Type} (V : Lexicon β)

variable {p : Chain (Spaced β)} {s : List Char} {ps : List (Spaced β)} {qs : List (Chain (Spaced β))}
variable {e : Expr} {ts : List (Sign × Chain (Spaced β))} {b : β} {o : Spaced β}

/-- A tree reads a product when its factors are the operands of the product. -/
def ReadsProduct (p : Chain (Spaced β)) (e : Expr) : Prop :=
  List.Forall₂ (fun o f => V.Reads o.core f) p.toList e.factors

/-- A tree reads signed products when its terms have these signs and read these products. -/
def ReadsTerms (ts : List (Sign × Chain (Spaced β))) (e : Expr) : Prop :=
  List.Forall₂ (fun t u => t.1 = u.1 ∧ V.ReadsProduct t.2 u.2) ts e.terms

/-! ### When a sum is read as it is meant -/

def FitsProduct (blank : Bool) (o : Spaced β) : List (Spaced β) → Prop
  | [] => blank = false ∧ V.Fits o.core
  | p :: ps =>
    ¬ V.Swallows blank o.core ∧ '+' ∉ V.product ⟨o, p :: ps⟩ ∧ '-' ∉ V.product ⟨o, p :: ps⟩ ∧
      '*' ∉ V.write o.core ∧ V.Fits o.core ∧ FitsProduct false p ps

def FitsDifference (blank : Bool) (p : Chain (Spaced β)) : List (Chain (Spaced β)) → Prop
  | [] => V.FitsProduct blank p.first p.rest
  | q :: qs =>
    ¬ V.Swallows blank p.first.core ∧ '+' ∉ V.difference ⟨p, q :: qs⟩ ∧ '-' ∉ V.product p ∧
      qs = [] ∧ V.FitsProduct false p.first p.rest ∧ V.FitsProduct false q.first q.rest

def FitsSum (blank : Bool) (d : Chain (Chain (Spaced β))) :
    List (Chain (Chain (Spaced β))) → Prop
  | [] => V.FitsDifference blank d.first d.rest
  | e :: es =>
    ¬ V.Swallows blank d.first.first.core ∧ '+' ∉ V.difference d ∧
      V.FitsDifference false d.first d.rest ∧ FitsSum false e es

def isSingle (s : Arith (Spaced β)) : Bool :=
  s.rest.isEmpty && s.first.rest.isEmpty && s.first.first.rest.isEmpty

/-- When a sum is read that is a text of its own. -/
def FitsAlone (s : Arith (Spaced β)) : Prop :=
  let o := s.first.first.first
  if isSingle s then o.before = 0 ∧ (o.after = 0 ∨ V.isCall o.core = true) ∧ V.Fits o.core
  else V.FitsSum (decide (0 < o.before)) s.first s.rest

section

variable [∀ b, Decidable (V.Fits b)]

instance (blank : Bool) (b : β) : Decidable (V.Swallows blank b) :=
  inferInstanceAs (Decidable (_ ∧ _))

instance decidableFitsProduct (blank : Bool) (o : Spaced β) :
    ∀ ps, Decidable (V.FitsProduct blank o ps)
  | [] => inferInstanceAs (Decidable (_ ∧ _))
  | p :: ps =>
    have := decidableFitsProduct false p ps
    inferInstanceAs (Decidable (_ ∧ _ ∧ _ ∧ _ ∧ _ ∧ V.FitsProduct false p ps))

instance (blank : Bool) (p : Chain (Spaced β)) : ∀ qs, Decidable (V.FitsDifference blank p qs)
  | [] => inferInstanceAs (Decidable (V.FitsProduct _ _ _))
  | [_] => inferInstanceAs (Decidable (_ ∧ _ ∧ _ ∧ _ ∧ V.FitsProduct _ _ _ ∧ V.FitsProduct _ _ _))
  | _ :: _ :: _ => isFalse fun h => by cases h.2.2.2.1

instance decidableFitsSum (blank : Bool) (d : Chain (Chain (Spaced β))) :
    ∀ es, Decidable (V.FitsSum blank d es)
  | [] => inferInstanceAs (Decidable (V.FitsDifference _ _ _))
  | e :: es =>
    have := decidableFitsSum false e es
    inferInstanceAs (Decidable (_ ∧ _ ∧ V.FitsDifference _ _ _ ∧ V.FitsSum false e es))

instance (s : Arith (Spaced β)) : Decidable (V.FitsAlone s) :=
  inferInstanceAs (Decidable (if isSingle s then _ ∧ _ ∧ _ else V.FitsSum _ _ _))

end

/-! ### Trees that read something are not broken -/

variable {V}

theorem not_broken_of_reads (h : V.Reads b e) : ¬ e.Broken := by
  cases hb : V.isCall b with
  | true =>
    obtain ⟨src, name, args, rfl⟩ := V.reads_call b e hb h
    exact id
  | false =>
    rcases V.reads_word b e hb h with rfl | rfl
    · exact id
    · intro hc
      have := (V.write_word b hb).2 ')' (by simpa [Expr.Broken] using hc)
      revert this
      decide

theorem ReadsTerms.not_broken (h : V.ReadsTerms ts e) : ¬ e.Broken := by
  intro hb
  obtain ⟨u, hu, hub⟩ := exists_broken_term hb
  obtain ⟨t, -, -, ht⟩ := exists_of_mem_forall₂ h hu
  obtain ⟨f, hf, hfb⟩ := exists_broken_factor hub
  obtain ⟨o, -, ho⟩ := exists_of_mem_forall₂ ht hf
  exact not_broken_of_reads ho hfb

/-! ### Single operands -/

theorem readsTerms_of_terms (h : e.terms = [(.plus, e)]) : V.ReadsTerms [(.plus, p)] e ↔ V.ReadsProduct p e := by
  simp [ReadsTerms, h]

theorem readsTerms_operand : V.ReadsTerms [(.plus, ⟨o, []⟩)] e ↔ V.Reads o.core e := by
  constructor
  · intro h
    simp only [ReadsTerms, forall₂_cons_left_iff, forall₂_nil_left_iff] at h
    obtain ⟨⟨s, u⟩, _, ⟨-, hu⟩, rfl, he⟩ := h
    simp only [ReadsProduct, Chain.toList, forall₂_cons_left_iff, forall₂_nil_left_iff] at hu
    obtain ⟨f, _, hf, rfl, hfu⟩ := hu
    rwa [eq_of_terms_eq he, eq_of_factors_eq hfu]
  · intro h
    have hleaf : e.terms = [(.plus, e)] ∧ e.factors = [e] := by
      cases hb : V.isCall o.core with
      | true =>
        obtain ⟨src, name, args, rfl⟩ := V.reads_call _ e hb h
        exact ⟨rfl, rfl⟩
      | false =>
        rcases V.reads_word _ e hb h with rfl | rfl
        · exact ⟨rfl, rfl⟩
        · exact ⟨rfl, rfl⟩
    rw [readsTerms_of_terms hleaf.1, ReadsProduct, hleaf.2]
    simpa [Chain.toList] using h

/-- Without trimming, a word must not have spaces around it. -/
theorem reads_word_iff {i j : Nat} (hb : V.isCall b = false) :
    V.Reads b (parse (V.operand ⟨i, b, j⟩)) ↔ i = 0 ∧ j = 0 ∧ V.Fits b := by
  constructor
  · intro h
    have he : V.operand ⟨i, b, j⟩ = V.write b := by
      rcases V.reads_word b _ hb h with he | he
      · exact eq_of_parse_digits he
      · simpa using eq_of_parse_other he
    have hlen : i + ((V.write b).length + j) = (V.write b).length := by
      simpa [operand, Spaced.text] using congrArg length he
    rw [he, V.reads_parse] at h
    exact ⟨by omega, by omega, h⟩
  · rintro ⟨rfl, rfl, h⟩
    simpa [operand, Spaced.text, V.reads_parse] using h

/-- Without trimming, a call must not have spaces before it; spaces after it do not count. -/
theorem reads_call_iff {i j : Nat} (hb : V.isCall b) : V.Reads b (parse (V.operand ⟨i, b, j⟩)) ↔ i = 0 ∧ V.Fits b := by
  obtain ⟨⟨name, args⟩, hp⟩ := exists_call?_write hb
  have hread (n : Nat) := parse_of_call (hp n)
  have h₀ := hread 0
  rw [replicate_zero, append_nil] at h₀
  cases i with
  | succ i =>
    constructor
    · intro h
      obtain ⟨src, name, args, he⟩ := V.reads_call b _ hb h
      obtain ⟨p, hc⟩ := exists_call?_of_parse he
      rw [operand, Spaced.text, replicate_succ, cons_append, Expr.call?_blank] at hc
      cases hc
    · rintro ⟨hi, -⟩
      cases hi
  | zero =>
    have hj : parse (V.operand ⟨0, b, j⟩) = _ := hread j
    rw [hj]
    constructor
    · intro h
      refine ⟨rfl, (V.reads_parse b).1 ?_⟩
      rw [h₀]
      exact V.reads_source b _ _ _ _ h
    · rintro ⟨-, h⟩
      have := (V.reads_parse b).2 h
      rw [h₀] at this
      exact V.reads_source b _ _ _ _ this

theorem reads_operand_iff : V.Reads o.core (parse (V.operand o)) ↔
      o.before = 0 ∧ (o.after = 0 ∨ V.isCall o.core) ∧ V.Fits o.core := by
  cases hb : V.isCall o.core with
  | false => simpa using reads_word_iff (i := o.before) (j := o.after) hb
  | true => simpa using reads_call_iff (i := o.before) (j := o.after) hb

/-! ### Products -/

variable {t : List Char}

theorem trim_operand (o : Spaced β) : trim (V.operand o) = V.write o.core := by
  have hblank (n : Nat) : ∀ c ∈ replicate n ' ', isBlank c := by
    intro c hc
    rw [(mem_replicate.1 hc).2]
    decide
  exact trim_around (V.solid_write o.core) (hblank o.before) (hblank o.after)

section

variable {b : β} {s : List Char} (F : V.Fragment b s t)

include F

/-- A text with a plus sign inside an operand is cut there. -/
theorem Fragment.broken_of_plus (hs : ¬ V.Swallows (startsBlank t) b) (hi : V.Inside '+' s) : (parse t).Broken := by
  obtain ⟨l, r, hcut, hr⟩ := hi.cutFirst (by decide) (by decide) (by decide)
  exact F.broken hs (Operator.split?_add hcut) hr

/-- So is a text with a minus sign inside an operand, if it has no plus sign. -/
theorem Fragment.broken_of_minus (hs : ¬ V.Swallows (startsBlank t) b) (hp : '+' ∉ s)
    (hi : V.Inside '-' s) : (parse t).Broken := by
  obtain ⟨l, r, hcut, hr⟩ := hi.cutFirst (by decide) (by decide) (by decide)
  exact F.broken hs (Operator.split?_sub F.starts.not_minus hp hcut) hr

/-- So is a text with a star inside an operand, if it has no other sign. -/
theorem Fragment.broken_of_star (hs : ¬ V.Swallows (startsBlank t) b) (hp : '+' ∉ s)
    (hm : '-' ∉ s) (hi : V.Inside '*' s) : (parse t).Broken := by
  obtain ⟨l, r, hcut, hr⟩ := hi.cutFirst (by decide) (by decide) (by decide)
  exact F.broken hs (Operator.split?_mul hp hm hcut) hr

/-- A call at the front that takes in the whole text is a single term. -/
theorem Fragment.length_terms_of_swallows (hs : V.Swallows (startsBlank t) b) : (parse t).terms.length = 1 := by
  obtain ⟨src, name, args, he⟩ := F.parse_call hs
  rw [he]
  rfl

end

theorem terms_parse_trim (hp : '+' ∉ s) (hm : '-' ∉ s) : (parse (trim s)).terms = [(.plus, parse (trim s))] :=
  terms_parse (fun h => hp (mem_of_mem_trim h)) fun h => hm (mem_of_mem_trim h)

theorem not_swallows_of_readsTerms_product (F : V.Fragment b s t) {p : Spaced β}
    (h : V.ReadsTerms [(.plus, ⟨o, p :: ps⟩)] (parse t)) : ¬ V.Swallows (startsBlank t) b := by
  intro hs
  obtain ⟨src, name, args, he⟩ := F.parse_call hs
  rw [he, readsTerms_of_terms rfl] at h
  simpa [Chain.toList, factors] using List.Forall₂.length_eq h

theorem readsTerms_product_cons {p : Spaced β} (ht : t = V.product ⟨o, p :: ps⟩ ∨ t = trim (V.product ⟨o, p :: ps⟩)) :
    V.ReadsTerms [(.plus, ⟨o, p :: ps⟩)] (parse t) ↔
      ¬ V.Swallows (startsBlank t) o.core ∧ '+' ∉ V.product ⟨o, p :: ps⟩ ∧
        '-' ∉ V.product ⟨o, p :: ps⟩ ∧ '*' ∉ V.write o.core ∧ V.Fits o.core ∧
        V.ReadsTerms [(.plus, ⟨p, ps⟩)] (parse (trim (V.product ⟨p, ps⟩))) := by
  have F := fragment_product ht
  have hcons : V.product ⟨o, p :: ps⟩ = V.operand o ++ '*' :: V.product ⟨p, ps⟩ := Chain.text_cons o p ps
  have hop (h : '*' ∉ V.write o.core) : '*' ∉ V.operand o := fun hm => h ((mem_operand hm).resolve_left (by decide))
  -- once nothing is cut inside an operand, the text is cut at its first star
  have hcut (hs : ¬ V.Swallows (startsBlank t) o.core) (hp : '+' ∉ V.product ⟨o, p :: ps⟩)
      (hm : '-' ∉ V.product ⟨o, p :: ps⟩) (hx : '*' ∉ V.write o.core) :
      V.ReadsTerms [(.plus, ⟨o, p :: ps⟩)] (parse t) ↔ V.Fits o.core ∧
        V.ReadsTerms [(.plus, ⟨p, ps⟩)] (parse (trim (V.product ⟨p, ps⟩))) := by
    have hc := cutFirst_char (hop hx) (V.product ⟨p, ps⟩)
    rw [← hcons] at hc
    obtain ⟨src, he⟩ := F.parse_binary hs (Operator.split?_mul hp hm hc)
    have hsub : V.product ⟨p, ps⟩ ⊆ V.product ⟨o, p :: ps⟩ := by
      rw [hcons]
      exact fun c hc => by simp [hc]
    have hr := terms_parse_trim (fun h => hp (hsub h)) fun h => hm (hsub h)
    rw [he, readsTerms_of_terms rfl, readsTerms_of_terms hr, trim_operand, ← V.reads_parse]
    simp only [ReadsProduct, Chain.toList, factors, factors_parse hx]
    rw [singleton_append, forall₂_cons]
  constructor
  · intro h
    have hs := not_swallows_of_readsTerms_product F h
    have hp : '+' ∉ V.product ⟨o, p :: ps⟩ := fun hp =>
      h.not_broken (F.broken_of_plus hs (inside_product (by decide) (by decide) hp))
    have hm : '-' ∉ V.product ⟨o, p :: ps⟩ := fun hm =>
      h.not_broken (F.broken_of_minus hs hp (inside_product (by decide) (by decide) hm))
    have hx : '*' ∉ V.write o.core := by
      intro hx
      refine h.not_broken (F.broken_of_star hs hp hm ?_)
      rw [hcons]
      refine (inside_operand (by decide) ?_).append _
      simp [operand, Spaced.text, hx]
    exact ⟨hs, hp, hm, hx, (hcut hs hp hm hx).1 h⟩
  · rintro ⟨hs, hp, hm, hx, h⟩
    exact (hcut hs hp hm hx).2 h

theorem readsTerms_product_iff (ht : t = V.product ⟨o, ps⟩ ∨ t = trim (V.product ⟨o, ps⟩))
    (hone : ps = [] → t = trim (V.product ⟨o, ps⟩)) :
    V.ReadsTerms [(.plus, ⟨o, ps⟩)] (parse t) ↔ V.FitsProduct (startsBlank t) o ps := by
  induction ps generalizing o t with
  | nil =>
    have hb := (fragment_product ht).starts.not_startsBlank_trim
    have hw : t = V.write o.core := by
      rw [hone rfl, product, Chain.text_singleton, trim_operand]
    rw [← hone rfl] at hb
    rw [readsTerms_operand, FitsProduct, hb, hw, V.reads_parse]
    simp
  | cons p ps ih =>
    rw [readsTerms_product_cons ht, ih (.inr rfl) fun _ => rfl, (V.starts_product ⟨p, ps⟩).not_startsBlank_trim]
    rfl

/-! ### Differences -/

theorem not_swallows_of_readsTerms (F : V.Fragment b s t) (hlen : ts.length ≠ 1)
    (h : V.ReadsTerms ts (parse t)) : ¬ V.Swallows (startsBlank t) b := by
  intro hs
  exact hlen ((List.Forall₂.length_eq h).trans (F.length_terms_of_swallows hs))

/-- Subtracting what a tree adds and adding what it subtracts. -/
theorem readsTerms_flip : List.Forall₂ (fun t u => t.1 = u.1 ∧ V.ReadsProduct t.2 u.2) (qs.map fun q => (Sign.minus, q))
        (e.terms.map fun t => (t.1.flip, t.2)) ↔
      V.ReadsTerms (qs.map fun q => (.plus, q)) e := by
  have (s : Sign) : Sign.minus = s.flip ↔ Sign.plus = s := by cases s <;> decide
  simp only [ReadsTerms, forall₂_map_left_iff, forall₂_map_right_iff, this]

theorem readsTerms_plus_iff (hp : '+' ∉ s) {q : Chain (Spaced β)} :
    V.ReadsTerms ((q :: qs).map fun q => (.plus, q)) (parse s) ↔ qs = [] ∧ V.ReadsTerms [(.plus, q)] (parse s) := by
  constructor
  · intro h
    have hplus : ∀ u ∈ (parse s).terms, u.1 = .plus := by
      intro u hu
      obtain ⟨x, hx, he, -⟩ := exists_of_mem_forall₂ h hu
      obtain ⟨y, -, rfl⟩ := mem_map.1 hx
      exact he.symm
    have hone := List.Forall₂.length_eq h
    rw [terms_parse_of_plus hp hplus] at hone
    have hqs : qs = [] := by simpa using hone
    subst hqs
    exact ⟨rfl, h⟩
  · rintro ⟨rfl, h⟩
    exact h

theorem readsTerms_difference_cons {p q : Chain (Spaced β)}
    (ht : t = V.difference ⟨p, q :: qs⟩ ∨ t = trim (V.difference ⟨p, q :: qs⟩)) :
    V.ReadsTerms (Arith.signed ⟨p, q :: qs⟩) (parse t) ↔
      ¬ V.Swallows (startsBlank t) p.first.core ∧ '+' ∉ V.difference ⟨p, q :: qs⟩ ∧ '-' ∉ V.product p ∧ qs = [] ∧
        V.ReadsTerms [(.plus, p)] (parse (trim (V.product p))) ∧
        V.ReadsTerms [(.plus, q)] (parse (trim (V.difference ⟨q, qs⟩))) := by
  have F := fragment_difference ht
  have hcons : V.difference ⟨p, q :: qs⟩ = V.product p ++ '-' :: V.difference ⟨q, qs⟩ := Chain.text_cons p q qs
  have hcut (hs : ¬ V.Swallows (startsBlank t) p.first.core)
      (hp : '+' ∉ V.difference ⟨p, q :: qs⟩) (hm : '-' ∉ V.product p) :
      V.ReadsTerms (Arith.signed ⟨p, q :: qs⟩) (parse t) ↔ qs = [] ∧
        V.ReadsTerms [(.plus, p)] (parse (trim (V.product p))) ∧
        V.ReadsTerms [(.plus, q)] (parse (trim (V.difference ⟨q, qs⟩))) := by
    have hc := cutFirst_char hm (V.difference ⟨q, qs⟩)
    rw [← hcons] at hc
    obtain ⟨src, he⟩ := F.parse_binary hs (Operator.split?_sub F.starts.not_minus hp hc)
    rw [hcons] at hp
    simp only [mem_append, mem_cons, not_or] at hp
    have hl := terms_parse_trim hp.1 hm
    have hr : '+' ∉ trim (V.difference ⟨q, qs⟩) := fun h => hp.2.2 (mem_of_mem_trim h)
    rw [he, readsTerms_of_terms hl, and_left_comm, ← readsTerms_plus_iff hr, ← readsTerms_flip,
      ReadsTerms, terms, hl, singleton_append]
    simp only [Arith.signed, forall₂_cons, true_and]
  constructor
  · intro h
    have hs := not_swallows_of_readsTerms F (by simp [Arith.signed]) h
    have hp : '+' ∉ V.difference ⟨p, q :: qs⟩ := fun hp =>
      h.not_broken (F.broken_of_plus hs (inside_difference (by decide) (by decide) (by decide) hp))
    have hm : '-' ∉ V.product p := by
      intro hm
      refine h.not_broken (F.broken_of_minus hs hp ?_)
      rw [hcons]
      exact (inside_product (by decide) (by decide) hm).append _
    exact ⟨hs, hp, hm, (hcut hs hp hm).1 h⟩
  · rintro ⟨hs, hp, hm, h⟩
    exact (hcut hs hp hm).2 h

theorem readsTerms_difference_iff (ht : t = V.difference ⟨p, qs⟩ ∨ t = trim (V.difference ⟨p, qs⟩))
    (hone : qs = [] ∧ p.rest = [] → t = trim (V.difference ⟨p, qs⟩)) :
    V.ReadsTerms (Arith.signed ⟨p, qs⟩) (parse t) ↔ V.FitsDifference (startsBlank t) p qs := by
  cases qs with
  | nil =>
    rw [show V.difference ⟨p, []⟩ = V.product p from Chain.text_singleton p] at ht hone
    exact readsTerms_product_iff ht fun h => hone ⟨rfl, h⟩
  | cons q qs =>
    rw [readsTerms_difference_cons ht, FitsDifference, readsTerms_product_iff (o := p.first) (.inr rfl) fun _ => rfl,
      (V.starts_product p).not_startsBlank_trim]
    refine and_congr_right fun _ => and_congr_right fun _ => and_congr_right fun _ =>
      and_congr_right fun hqs => and_congr_right fun _ => ?_
    subst hqs
    rw [show V.difference ⟨q, []⟩ = V.product q from Chain.text_singleton q,
      readsTerms_product_iff (o := q.first) (.inr rfl) fun _ => rfl,
      (V.starts_product q).not_startsBlank_trim]

/-! ### Sums -/

/-- Without plus signs, the tree of a difference has no more terms than the difference, unless it
is broken. -/
theorem length_terms_le (hp : '+' ∉ V.difference ⟨p, qs⟩) : (parse (trim (V.difference ⟨p, qs⟩))).Broken ∨
      (parse (trim (V.difference ⟨p, qs⟩))).terms.length ≤ qs.length + 1 := by
  -- a call at the front takes in the rest, a minus sign inside a call breaks the tree, and otherwise
  -- the first minus sign of the difference is where the text is cut
  induction qs generalizing p with
  | nil =>
    have F := V.fragment_difference (d := ⟨p, []⟩) (.inr rfl)
    have hone : V.difference ⟨p, []⟩ = V.product p := Chain.text_singleton p
    by_cases hs : V.Swallows (startsBlank (trim (V.difference ⟨p, []⟩))) p.first.core
    · exact .inr (Nat.le_of_eq (F.length_terms_of_swallows hs))
    · by_cases hm : '-' ∈ V.difference ⟨p, []⟩
      · refine .inl (F.broken_of_minus hs hp ?_)
        rw [hone] at hm ⊢
        exact inside_product (by decide) (by decide) hm
      · rw [terms_parse_trim hp hm]
        exact .inr (Nat.le_refl 1)
  | cons q qs ih =>
    have F := V.fragment_difference (d := ⟨p, q :: qs⟩) (.inr rfl)
    have hcons : V.difference ⟨p, q :: qs⟩ = V.product p ++ '-' :: V.difference ⟨q, qs⟩ := Chain.text_cons p q qs
    by_cases hs : V.Swallows (startsBlank (trim (V.difference ⟨p, q :: qs⟩))) p.first.core
    · rw [F.length_terms_of_swallows hs]
      exact .inr (Nat.le_add_left 1 _)
    · by_cases hm : '-' ∈ V.product p
      · refine .inl (F.broken_of_minus hs hp ?_)
        rw [hcons]
        exact (inside_product (by decide) (by decide) hm).append _
      · have hc := cutFirst_char hm (V.difference ⟨q, qs⟩)
        rw [← hcons] at hc
        obtain ⟨src, he⟩ := F.parse_binary hs (Operator.split?_sub F.starts.not_minus hp hc)
        rw [hcons] at hp
        simp only [mem_append, mem_cons, not_or] at hp
        rw [he]
        rcases ih hp.2.2 with hb | hlen
        · exact .inl (.inr hb)
        · right
          simp only [terms, terms_parse_trim hp.1 hm, length_append, length_map, length_cons, length_nil]
          omega

/-- Terms that are subtracted are read on the left of a plus sign when there are enough of them
there, since what is on the right starts with a term that is added. -/
theorem forall₂_minus_append {α γ : Type} {R : α → γ → Prop} {ps : List α}
    {ts : List (Sign × α)} {ls rs : List (Sign × γ)} (hlen : ls.length ≤ ps.length)
    (hrs : ∃ u us, rs = (.plus, u) :: us)
    (h : List.Forall₂ (fun t u => t.1 = u.1 ∧ R t.2 u.2) (ps.map (fun p => (Sign.minus, p)) ++ ts) (ls ++ rs)) :
    List.Forall₂ (fun t u => t.1 = u.1 ∧ R t.2 u.2) (ps.map fun p => (Sign.minus, p)) ls ∧
      List.Forall₂ (fun t u => t.1 = u.1 ∧ R t.2 u.2) ts rs := by
  induction ps generalizing ls with
  | nil =>
    obtain rfl : ls = [] := length_eq_zero_iff.1 (Nat.le_zero.1 hlen)
    exact ⟨.nil, h⟩
  | cons p ps ih =>
    cases ls with
    | nil =>
      obtain ⟨u, us, rfl⟩ := hrs
      rw [map_cons, cons_append, nil_append, forall₂_cons] at h
      cases h.1.1
    | cons l ls =>
      rw [map_cons, cons_append, cons_append, forall₂_cons] at h
      obtain ⟨hl, hr⟩ := ih (Nat.le_of_succ_le_succ hlen) h.2
      exact ⟨.cons h.1 hl, hr⟩

theorem readsTerms_sum_cons {d e : Chain (Chain (Spaced β))} {es : List (Chain (Chain (Spaced β)))}
    (ht : t = V.sum ⟨d, e :: es⟩ ∨ t = trim (V.sum ⟨d, e :: es⟩)) :
    V.ReadsTerms (Arith.terms ⟨d, e :: es⟩) (parse t) ↔
      ¬ V.Swallows (startsBlank t) d.first.first.core ∧ '+' ∉ V.difference d ∧
        V.ReadsTerms (Arith.signed d) (parse (trim (V.difference d))) ∧
        V.ReadsTerms (Arith.terms ⟨e, es⟩) (parse (trim (V.sum ⟨e, es⟩))) := by
  have F := fragment_sum ht
  have hcons : V.sum ⟨d, e :: es⟩ = V.difference d ++ '+' :: V.sum ⟨e, es⟩ := Chain.text_cons d e es
  have hterms : Arith.terms ⟨d, e :: es⟩ = Arith.signed d ++ Arith.terms ⟨e, es⟩ := rfl
  have hcut (hs : ¬ V.Swallows (startsBlank t) d.first.first.core) (hp : '+' ∉ V.difference d) :
      ∃ src, parse t = .binary src .add (parse (trim (V.difference d))) (parse (trim (V.sum ⟨e, es⟩))) := by
    have hc := cutFirst_char hp (V.sum ⟨e, es⟩)
    rw [← hcons] at hc
    exact F.parse_binary hs (Operator.split?_add hc)
  constructor
  · intro h
    have hs := not_swallows_of_readsTerms F (by simp [Arith.signed, Arith.terms, Chain.toList]) h
    have hp : '+' ∉ V.difference d := by
      intro hp
      refine h.not_broken (F.broken_of_plus hs ?_)
      rw [hcons]
      exact (inside_difference (by decide) (by decide) (by decide) hp).append _
    obtain ⟨src, he⟩ := hcut hs hp
    refine ⟨hs, hp, ?_⟩
    have hb := h.not_broken
    rw [he] at h hb
    -- the left side cannot take terms from behind the plus sign: they start with one that is added
    have hlen := (length_terms_le (p := d.first) hp).resolve_left fun hl => hb (.inl hl)
    obtain ⟨u, us, hl⟩ := exists_terms (parse (trim (V.difference d)))
    rw [ReadsTerms, hterms, terms, hl, Arith.signed, cons_append, cons_append, forall₂_cons] at h
    rw [hl] at hlen
    obtain ⟨h₁, h₂⟩ := forall₂_minus_append (Nat.le_of_succ_le_succ hlen) (exists_terms _) h.2
    refine ⟨?_, h₂⟩
    rw [ReadsTerms, hl]
    exact .cons h.1 h₁
  · rintro ⟨hs, hp, hd, hes⟩
    obtain ⟨src, he⟩ := hcut hs hp
    rw [he, hterms]
    exact rel_append hd hes

theorem isSingle_iff {s : Arith (Spaced β)} :
    isSingle s ↔ s.rest = [] ∧ s.first.rest = [] ∧ s.first.first.rest = [] := by
  simp [isSingle, and_assoc]

/-- Sums are read exactly when they fit. A single operand must have been trimmed. -/
theorem readsTerms_sum_iff {s : Arith (Spaced β)} (ht : t = V.sum s ∨ t = trim (V.sum s))
    (hone : isSingle s → t = trim (V.sum s)) :
    V.ReadsTerms s.terms (parse t) ↔ V.FitsSum (startsBlank t) s.first s.rest := by
  obtain ⟨d, es⟩ := s
  induction es generalizing d t with
  | nil =>
    have hsum : V.sum ⟨d, []⟩ = V.difference d := Chain.text_singleton d
    rw [hsum] at ht hone
    rw [show Arith.terms ⟨d, []⟩ = Arith.signed d by simp [Arith.terms, Chain.toList]]
    exact readsTerms_difference_iff ht fun h => hone (isSingle_iff.2 ⟨rfl, h⟩)
  | cons e es ih =>
    rw [readsTerms_sum_cons ht, ih e (.inr rfl) fun _ => rfl,
      readsTerms_difference_iff (p := d.first) (.inr rfl) fun _ => rfl,
      (V.starts_sum ⟨e, es⟩).not_startsBlank_trim, (V.starts_difference d).not_startsBlank_trim]
    rfl

/-! ### Sums as whole texts -/

theorem startsBlank_operand (o : Spaced β) (r : List Char) :
    startsBlank (V.operand o ++ r) = decide (0 < o.before) := by
  obtain ⟨n, b, m⟩ := o
  cases n with
  | zero =>
    obtain ⟨c, t, he, hc⟩ := V.exists_write b
    simp [operand, Spaced.text, he, startsBlank, isBlank_of_isWord hc]
  | succ n => rfl

theorem startsBlank_sum (s : Arith (Spaced β)) (r : List Char) :
    startsBlank (V.sum s ++ r) = decide (0 < s.first.first.first.before) := by
  simp only [sum, difference, product, Chain.text, append_assoc]
  exact startsBlank_operand _ _

/-- A text is read as the sum that it shows exactly when the sum fits. -/
theorem readsTerms_parse_iff (s : Arith (Spaced β)) : V.ReadsTerms s.terms (parse (V.sum s)) ↔ V.FitsAlone s := by
  cases hs : isSingle s with
  | true =>
    obtain ⟨⟨⟨o, os⟩, ps⟩, ds⟩ := s
    obtain ⟨rfl, rfl, rfl⟩ := isSingle_iff.1 hs
    have hsum : V.sum ⟨⟨⟨o, []⟩, []⟩, []⟩ = V.operand o := by
      rw [sum, Chain.text_singleton, difference, Chain.text_singleton, product, Chain.text_singleton]
    rw [FitsAlone, if_pos hs, hsum, ← reads_operand_iff, ← readsTerms_operand]
    rfl
  | false =>
    have hb := startsBlank_sum (V := V) s []
    rw [append_nil] at hb
    rw [FitsAlone, if_neg (by simp [hs]), readsTerms_sum_iff (.inl rfl) (by simp [hs]), hb]

end GzLang.Lexicon
