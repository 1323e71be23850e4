import ContentTypes.Text.CodePoint

/-!
# Similar words

Which of the words that are known a mistyped word may stand for. The likeness of two words is twice
the number of characters that match over the number of all their characters, where the matching
characters are those of the longest run that both share and, in the same way, of what stands before
it and what stands behind it.
-/

set_option autoImplicit false

namespace ContentTypes.Similar

open Text (CodePoint)

/-- A run that two words share: its place in each and its length. -/
structure Run where
  left : Nat
  right : Nat
  length : Nat

/-- The length of the common beginning of two words. -/
def commonLength : List CodePoint → List CodePoint → Nat
  | c :: s, d :: t => if c = d then commonLength s t + 1 else 0
  | _, _ => 0

/-- The longest run that two words share; of several the first in the first word, and of those the
first in the second. -/
def longestRun (s t : List CodePoint) : Run :=
  (List.range s.length).foldl (fun best i =>
    (List.range t.length).foldl (fun best j =>
      let length := commonLength (s.drop i) (t.drop j)
      if best.length < length then ⟨i, j, length⟩ else best) best) ⟨0, 0, 0⟩

/-- The number of characters of two words that match. -/
def matchCount (s t : List CodePoint) : Nat :=
  match longestRun s t with
  | ⟨left, right, length⟩ =>
      if _h : 0 < length ∧ left + length ≤ s.length then
        length + matchCount (s.take left) (t.take right) +
          matchCount (s.drop (left + length)) (t.drop (right + length))
      else 0
termination_by s.length
decreasing_by
  · simp only [List.length_take]
    omega
  · simp only [List.length_drop]
    omega

/-- Whether the likeness of two words is at least six tenths, with its numerator and denominator. -/
def likeness? (s t : String) : Option (Nat × Nat) :=
  let matched := 2 * matchCount (Text.points s) (Text.points t)
  let total := (Text.points s).length + (Text.points t).length
  if 3 * total ≤ 5 * matched then some (matched, total) else none

/-- Up to three of the known words that are like the given one, the likest first. -/
def similarWords (known : List String) (word : String) : List String :=
  let found := known.filterMap fun k => (likeness? k word).map fun score => (score, k)
  let above := fun (a b : (Nat × Nat) × String) =>
    let (x, y) := (a.1.1 * b.1.2, b.1.1 * a.1.2)
    if x = y then decide (b.2 ≤ a.2) else decide (y < x)
  ((found.mergeSort above).take 3).map (·.2)

end ContentTypes.Similar
