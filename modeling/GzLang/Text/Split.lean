import GzLang.Text.Blank

/-!
# Cutting texts at a separator

`cutFirst` splits a text at the first occurrence of a separator, `splitAll` at all of them, and
`replaceAll` writes another text in their place. The main facts are that `cutFirst` loses
nothing (`eq_append_of_cutFirst`) and that what it leaves is shorter (`length_of_cutFirst`).
-/

namespace GzLang.Text

/-- The texts before and after the first occurrence of `sep`. -/
def cutFirst (sep : List Char) : List Char → Option (List Char × List Char)
  | [] => if sep.isEmpty then some ([], []) else none
  | c :: s =>
    if sep.isPrefixOf (c :: s) then some ([], (c :: s).drop sep.length)
    else (cutFirst sep s).map fun p => (c :: p.1, p.2)

def occurs (sep s : List Char) : Bool :=
  (cutFirst sep s).isSome

/-- Cutting loses nothing: the two sides around the separator are the text. -/
theorem eq_append_of_cutFirst {sep s l r : List Char} (h : cutFirst sep s = some (l, r)) :
    s = l ++ (sep ++ r) := by
  induction s generalizing l with
  | nil =>
    simp only [cutFirst] at h
    split at h
    · rename_i he
      simp only [List.isEmpty_iff] at he
      simp only [Option.some.injEq, Prod.mk.injEq] at h
      simp [he, ← h.1, ← h.2]
    · simp at h
  | cons c s ih =>
    simp only [cutFirst] at h
    split at h
    · rename_i hp
      simp only [Option.some.injEq, Prod.mk.injEq] at h
      rw [← h.1, ← h.2]
      simpa using (List.prefix_iff_eq_append.1 (List.isPrefixOf_iff_prefix.1 hp)).symm
    · obtain ⟨⟨a, b⟩, hab, he⟩ := Option.map_eq_some_iff.1 h
      simp only [Prod.mk.injEq] at he
      obtain ⟨rfl, rfl⟩ := he
      rw [ih hab]
      rfl

/-- What stands on the two sides of a separator is as long as the text less the separator. -/
theorem length_of_cutFirst {sep s l r : List Char} (h : cutFirst sep s = some (l, r)) :
    l.length + sep.length + r.length = s.length := by
  have := congrArg List.length (eq_append_of_cutFirst h)
  simp only [List.length_append] at this
  omega

/-- The pieces between all occurrences of a separator that is not empty. -/
def splitAll (sep : List Char) (s : List Char) : List (List Char) :=
  if _hs : sep = [] then [s]
  else
    match _h : cutFirst sep s with
    | none => [s]
    | some (l, r) => l :: splitAll sep r
termination_by s.length
decreasing_by
  have := length_of_cutFirst _h
  have : sep.length ≠ 0 := fun h0 => _hs (List.length_eq_zero_iff.1 h0)
  omega

/-- Write `new` in the place of every occurrence of `old`. -/
def replaceAll (old new s : List Char) : List Char :=
  List.intercalate new (splitAll old s)

def lines (s : List Char) : List (List Char) :=
  splitAll ['\n'] s

def startsWith (p s : List Char) : Bool :=
  p.isPrefixOf s

def endsWith (p s : List Char) : Bool :=
  p.reverse.isPrefixOf s.reverse

end GzLang.Text
