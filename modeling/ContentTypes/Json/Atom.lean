import ContentTypes.Number.Rounding
import ContentTypes.Value.Basic

/-!
# Words and numbers

The JSON values that are one token and no text: `null`, `true`, `false` and the numbers, with `NaN`,
`Infinity` and `-Infinity` beside the standard's. `readAtom?` reads one from the front of a text, and
`length_lt_of_readAtom?` says that it reads at least one character.
-/

set_option autoImplicit false

namespace ContentTypes.Json

/-- The rest of a text behind a word it starts with. -/
def dropWord? : List Char → List Char → Option (List Char)
  | [], s => some s
  | _ :: _, [] => none
  | w :: word, c :: s => if w = c then dropWord? word s else none

theorem length_of_dropWord? {word s rest : List Char} (h : dropWord? word s = some rest) :
    s.length = word.length + rest.length := by
  induction word generalizing s with
  | nil => simp [dropWord?] at h; simp [h]
  | cons w word ih =>
      cases s with
      | nil => simp [dropWord?] at h
      | cons c s =>
          rw [dropWord?] at h
          split at h
          · have := ih h
            simp only [List.length_cons]
            omega
          · cases h

/-- The words that stand for a value. -/
def words : List (List Char × Value) :=
  [("null".toList, .null), ("true".toList, .bool true), ("false".toList, .bool false),
    ("NaN".toList, .float .nan), ("Infinity".toList, .float (.infinite false)),
    ("-Infinity".toList, .float (.infinite true))]

/-- Reads a word that stands for a value. -/
def readWord? (s : List Char) : Option (Value × List Char) :=
  words.findSome? fun (word, v) => (dropWord? word s).map fun rest => (v, rest)

/-- The number that decimal digits stand for. -/
def digitsValue (digits : List Char) : Nat :=
  digits.foldl (fun n d => 10 * n + (d.toNat - 48)) 0

/-- Cuts off the leading decimal digits. -/
def spanDigits (s : List Char) : List Char × List Char :=
  (s.takeWhile Char.isDigit, s.dropWhile Char.isDigit)

/-- The whole part of a number: a zero alone, or digits of which the first is not zero. -/
def readWhole? : List Char → Option (List Char × List Char)
  | '0' :: rest => some (['0'], rest)
  | s => let (digits, rest) := spanDigits s
         if digits.isEmpty then none else some (digits, rest)

/-- The digits of a fraction, if a point with digits stands here. -/
def readFraction? : List Char → Option (List Char × List Char)
  | '.' :: s => let (digits, rest) := spanDigits s
                if digits.isEmpty then none else some (digits, rest)
  | _ => none

/-- A sign, if one stands here: whether it is a minus, and what follows. -/
def readSign : List Char → Bool × List Char
  | '-' :: s => (true, s)
  | '+' :: s => (false, s)
  | s => (false, s)

/-- The value of an exponent, if an exponent mark with digits stands here. -/
def readExponent? : List Char → Option (Int × List Char)
  | c :: s =>
      if c = 'e' || c = 'E' then
        let (negative, s) := readSign s
        let (digits, rest) := spanDigits s
        if digits.isEmpty then none
        else some (if negative then -(digitsValue digits : Int) else digitsValue digits, rest)
      else none
  | [] => none

/-- Reads something that may be missing. -/
def readOptional {α : Type} (read : List Char → Option (α × List Char)) (s : List Char) :
    Option α × List Char :=
  match read s with
  | some (a, rest) => (some a, rest)
  | none => (none, s)

/-- The number of a sign, digits before and behind the point, and an exponent. Without fraction and
exponent it is whole, with one of them it is rounded to the 64-bit format. -/
def numberOf (negative : Bool) (whole : List Char) (fraction : Option (List Char))
    (exponent : Option Int) : Value :=
  match fraction, exponent with
  | none, none => .int (if negative then -(digitsValue whole : Int) else digitsValue whole)
  | _, _ =>
      let behind := fraction.getD []
      .float (.ofDecimal negative (digitsValue (whole ++ behind)) (exponent.getD 0 - behind.length))

/-- Reads a number behind its sign. -/
def readUnsigned? (negative : Bool) (s : List Char) : Option (Value × List Char) :=
  match readWhole? s with
  | none => none
  | some (whole, rest) =>
      let (fraction, rest) := readOptional readFraction? rest
      let (exponent, rest) := readOptional readExponent? rest
      some (numberOf negative whole fraction exponent, rest)

/-- Reads a number. -/
def readNumber? : List Char → Option (Value × List Char)
  | '-' :: s => readUnsigned? true s
  | s => readUnsigned? false s

/-- Reads a value that is neither a text nor a list nor an object. -/
def readAtom? (s : List Char) : Option (Value × List Char) :=
  match readWord? s with
  | some found => some found
  | none => readNumber? s

/-! ## What is left is shorter than what was read -/

theorem length_spanDigits_le (s : List Char) : (spanDigits s).2.length ≤ s.length :=
  (List.dropWhile_suffix Char.isDigit).length_le

theorem length_spanDigits_lt {s : List Char} (h : (spanDigits s).1.isEmpty = false) :
    (spanDigits s).2.length < s.length := by
  cases s with
  | nil => simp [spanDigits] at h
  | cons c s =>
      by_cases hc : c.isDigit
      · have := (List.dropWhile_suffix Char.isDigit (l := s)).length_le
        simp only [spanDigits, List.dropWhile_cons, hc, if_true, List.length_cons]
        omega
      · simp [spanDigits, hc] at h

theorem length_lt_of_readWhole? {s rest : List Char} {digits : List Char}
    (h : readWhole? s = some (digits, rest)) : rest.length < s.length := by
  unfold readWhole? at h
  split at h
  · simp only [Option.some.injEq, Prod.mk.injEq] at h
    simp [← h.2]
  · dsimp only at h
    split at h
    · cases h
    · simp only [Option.some.injEq, Prod.mk.injEq] at h
      rw [← h.2]
      exact length_spanDigits_lt (Bool.eq_false_iff.2 ‹_›)

theorem length_le_of_readFraction? {s rest : List Char} {digits : List Char}
    (h : readFraction? s = some (digits, rest)) : rest.length ≤ s.length := by
  unfold readFraction? at h
  split at h
  · dsimp only at h
    split at h
    · cases h
    · simp only [Option.some.injEq, Prod.mk.injEq] at h
      have := length_spanDigits_le ‹List Char›
      simp only [← h.2, List.length_cons]
      omega
  · cases h

theorem length_readSign_le (s : List Char) : (readSign s).2.length ≤ s.length := by
  unfold readSign
  split <;> simp

theorem length_le_of_readExponent? {s rest : List Char} {n : Int}
    (h : readExponent? s = some (n, rest)) : rest.length ≤ s.length := by
  unfold readExponent? at h
  split at h
  · rename_i c s
    split at h
    · dsimp only at h
      split at h
      · cases h
      · simp only [Option.some.injEq, Prod.mk.injEq] at h
        have h₁ := length_spanDigits_le (readSign s).2
        have h₂ := length_readSign_le s
        simp only [← h.2, List.length_cons]
        omega
    · cases h
  · cases h

theorem length_readOptional_le {α : Type} {read : List Char → Option (α × List Char)}
    (hread : ∀ s a rest, read s = some (a, rest) → rest.length ≤ s.length) (s : List Char) :
    (readOptional read s).2.length ≤ s.length := by
  unfold readOptional
  split
  · exact hread _ _ _ ‹_›
  · exact Nat.le_refl _

theorem length_lt_of_readUnsigned? {negative : Bool} {s rest : List Char} {v : Value}
    (h : readUnsigned? negative s = some (v, rest)) : rest.length < s.length := by
  unfold readUnsigned? at h
  split at h
  · cases h
  · rename_i whole r hw
    simp only [Option.some.injEq, Prod.mk.injEq] at h
    have h₁ := length_lt_of_readWhole? hw
    have h₂ : (readOptional readFraction? r).2.length ≤ r.length :=
      length_readOptional_le (fun _ _ _ => length_le_of_readFraction?) r
    have h₃ : (readOptional readExponent? (readOptional readFraction? r).2).2.length ≤ _ :=
      length_readOptional_le (fun _ _ _ => length_le_of_readExponent?) _
    rw [← h.2]
    omega

theorem length_lt_of_readNumber? {s rest : List Char} {v : Value}
    (h : readNumber? s = some (v, rest)) : rest.length < s.length := by
  unfold readNumber? at h
  split at h
  · have := length_lt_of_readUnsigned? h
    simp only [List.length_cons]
    omega
  · exact length_lt_of_readUnsigned? h

theorem length_lt_of_readWord? {s rest : List Char} {v : Value}
    (h : readWord? s = some (v, rest)) : rest.length < s.length := by
  obtain ⟨⟨word, w⟩, hmem, hw⟩ := List.exists_of_findSome?_eq_some h
  obtain ⟨r, hr, heq⟩ := Option.map_eq_some_iff.1 hw
  have hlen := length_of_dropWord? hr
  have hpos : 0 < word.length := by
    simp only [words, List.mem_cons, Prod.mk.injEq, List.not_mem_nil, or_false] at hmem
    rcases hmem with h | h | h | h | h | h <;> simp [h.1]
  simp only [Prod.mk.injEq] at heq
  rw [← heq.2]
  omega

theorem length_lt_of_readAtom? {s rest : List Char} {v : Value}
    (h : readAtom? s = some (v, rest)) : rest.length < s.length := by
  unfold readAtom? at h
  split at h
  · rename_i found hw
    cases h
    exact length_lt_of_readWord? hw
  · exact length_lt_of_readNumber? h

end ContentTypes.Json
