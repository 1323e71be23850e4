import ContentTypes.Sorting.Search

/-!
# Merging runs

Two neighbouring runs become one. What already stands in its place is left out first: the elements of
the left run that do not come after the first one of the right run, and the elements of the right run
that do not come before the last one of the left run. The rest is merged from the front if the left
part is not the longer one, and otherwise from the back. Equal elements keep their order.

A merge takes the elements one at a time. Once one run has given as many in a row as a threshold says,
it takes whole stretches, found by searching, and goes back when the stretches become short. The
threshold is handed on from merge to merge: it falls while stretches are long and rises when they no
longer are.

Whatever the comparison says, a step of a merge moves elements from the runs to the result and loses
none (`Merging.perm_of_step`).
-/

set_option autoImplicit false

namespace ContentTypes.Sorting

variable {α ε : Type}

/-! ## Two runs -/

/-- Two runs in the order in which a merge takes their elements: as they stand if it starts from the
front, and with the last element first if it starts from the back. -/
structure Pair (α : Type) where
  left : List α
  right : List α

namespace Pair

/-- All elements of both runs. -/
def elements (p : Pair α) : List α := p.left ++ p.right

/-- What remains to be put out without any comparison, if nothing has to be compared any more. One of
the runs ends with the element that comes last of all: the left one in a merge from the front, the
right one in a merge from the back. -/
def rest? (d : Direction) (p : Pair α) : Option (List α) :=
  match d, p.left, p.right with
  | _, left, [] => some left
  | _, [], right => some right
  | .front, [z], right => some (right ++ [z])
  | .back, left, [z] => some (left ++ [z])
  | _, _, _ => none

end Pair

/-- Whether an element of the left run is taken before one of the right run. -/
def leftFirst (d : Direction) (before : α → α → Except ε Bool) (x y : α) : Except ε Bool :=
  match d with
  | .front => (before y x).map (!·)
  | .back => before y x

/-! ## Stretches -/

/-- The length of a stretch that is worth searching for. -/
def longStretch : Nat := 7

/-- What a round of stretches takes, what it leaves, and whether a stretch was long. -/
structure Round (α : Type) where
  taken : List α
  remaining : Pair α
  long : Bool

/-- The second half of a round, once a stretch of the left run and then `y` are taken: a stretch of
the right run and then an element of the left run. -/
def secondStretch (d : Direction) (before : α → α → Except ε Bool) (first : List α) (y : α) :
    Pair α → Except ε (Round α)
  | ⟨[], right⟩ => .ok ⟨first ++ [y], ⟨[], right⟩, false⟩
  | ⟨x :: left, right⟩ =>
      match countLeading d (fun z => (leftFirst d before x z).map (!·)) right with
      | .error e => .error e
      | .ok n =>
          if (Pair.rest? d ⟨x :: left, right.drop n⟩).isSome then
            .ok ⟨first ++ y :: right.take n, ⟨x :: left, right.drop n⟩, false⟩
          else
            .ok ⟨first ++ y :: (right.take n ++ [x]), ⟨left, right.drop n⟩,
              decide (longStretch ≤ first.length) || decide (longStretch ≤ n)⟩

/-- A round of stretches: one of the left run and then an element of the right run, and the same the
other way round. It ends early when nothing has to be compared any more. -/
def takeStretches (d : Direction) (before : α → α → Except ε Bool) : Pair α → Except ε (Round α)
  | ⟨left, []⟩ => .ok ⟨[], ⟨left, []⟩, false⟩
  | ⟨left, y :: right⟩ =>
      match countLeading d (fun x => leftFirst d before x y) left with
      | .error e => .error e
      | .ok n =>
          if (Pair.rest? d ⟨left.drop n, y :: right⟩).isSome then
            .ok ⟨left.take n, ⟨left.drop n, y :: right⟩, false⟩
          else if (Pair.rest? d ⟨left.drop n, right⟩).isSome then
            .ok ⟨left.take n ++ [y], ⟨left.drop n, right⟩, false⟩
          else secondStretch d before (left.take n) y ⟨left.drop n, right⟩

/-! ## Steps -/

/-- How a merge takes elements: one at a time, with the number that the left and the right run have
given in a row, or in stretches. -/
inductive Pace where
  | singly (fromLeft fromRight : Nat)
  | stretches

/-- A merge that has come to two runs. -/
structure Merging (α : Type) where
  pair : Pair α
  pace : Pace
  threshold : Nat

/-- The pace after an element is taken from one run: `inRow` is the number it has given in a row. -/
def Merging.paceAfter (threshold inRow : Nat) (pace : Pace) : Pace :=
  if threshold ≤ inRow then .stretches else pace

/-- The merge after a round of stretches. -/
def Merging.afterRound (d : Direction) (threshold : Nat) (r : Round α) : Merging α :=
  if (r.remaining.rest? d).isSome then ⟨r.remaining, .stretches, threshold⟩
  else if r.long then ⟨r.remaining, .stretches, if 1 < threshold then threshold - 1 else threshold⟩
  else ⟨r.remaining, .singly 0 0, threshold + 1⟩

/-- The next step of a merge: the elements it takes, and the merge after it. -/
def Merging.step (d : Direction) (before : α → α → Except ε Bool) :
    Merging α → Except ε (List α × Merging α)
  | ⟨⟨x :: left, y :: right⟩, .singly l r, threshold⟩ =>
      match leftFirst d before x y with
      | .error e => .error e
      | .ok true =>
          .ok ([x], ⟨⟨left, y :: right⟩, paceAfter threshold (l + 1) (.singly (l + 1) 0), threshold⟩)
      | .ok false =>
          .ok ([y], ⟨⟨x :: left, right⟩, paceAfter threshold (r + 1) (.singly 0 (r + 1)), threshold⟩)
  | ⟨p, .stretches, threshold⟩ =>
      match takeStretches d before p with
      | .error e => .error e
      | .ok r => .ok (r.taken, afterRound d threshold r)
  | m => .ok ([], m)

/-! ## Steps lose nothing -/

theorem perm_of_secondStretch {d : Direction} {before : α → α → Except ε Bool} {first : List α}
    {y : α} {p : Pair α} {r : Round α} (h : secondStretch d before first y p = .ok r) :
    (r.taken ++ r.remaining.elements).Perm (first ++ y :: p.elements) := by
  unfold secondStretch at h
  split at h
  · cases h
    simp [Pair.elements]
  · rename_i x left right
    split at h
    · cases h
    · rename_i n _
      -- in both cases the stretch of the right run moves in front of the left run
      have hp : (right.take n ++ (x :: left ++ right.drop n)).Perm (x :: left ++ right) := by
        have := List.perm_append_comm_assoc (right.take n) (x :: left) (right.drop n)
        rwa [List.take_append_drop] at this
      have hp := (hp.cons y).append_left first
      split at h <;> cases h <;> simpa [Pair.elements] using hp

theorem perm_of_takeStretches {d : Direction} {before : α → α → Except ε Bool} {p : Pair α}
    {r : Round α} (h : takeStretches d before p = .ok r) :
    (r.taken ++ r.remaining.elements).Perm p.elements := by
  unfold takeStretches at h
  split at h
  · cases h
    exact List.Perm.refl _
  · rename_i left y right
    split at h
    · cases h
    · rename_i n _
      have hp : (left.take n ++ y :: (left.drop n ++ right)).Perm (left ++ y :: right) := by
        have hm : (y :: (left.drop n ++ right)).Perm (left.drop n ++ y :: right) :=
          List.perm_middle.symm
        have := hm.append_left (left.take n)
        rwa [← List.append_assoc (left.take n) (left.drop n), List.take_append_drop] at this
      split at h
      · cases h
        show (left.take n ++ (left.drop n ++ y :: right)).Perm (left ++ y :: right)
        rw [← List.append_assoc, List.take_append_drop]
      · split at h
        · cases h
          simpa [Pair.elements] using hp
        · exact (perm_of_secondStretch h).trans hp

theorem Merging.pair_afterRound (d : Direction) (threshold : Nat) (r : Round α) :
    (afterRound d threshold r).pair = r.remaining := by
  unfold afterRound
  split
  · rfl
  · split <;> rfl

/-- A step moves elements from the runs to the result. -/
theorem Merging.perm_of_step {d : Direction} {before : α → α → Except ε Bool} {m m' : Merging α}
    {taken : List α} (h : m.step d before = .ok (taken, m')) :
    (taken ++ m'.pair.elements).Perm m.pair.elements := by
  unfold step at h
  split at h
  · rename_i x left y right l r threshold
    split at h
    · cases h
    · cases h
      exact List.Perm.refl _
    · cases h
      show (y :: (x :: left ++ right)).Perm (x :: left ++ y :: right)
      exact List.perm_middle.symm
  · split at h
    · cases h
    · rename_i r hr
      cases h
      rw [pair_afterRound]
      exact perm_of_takeStretches hr
  · cases h
    exact List.Perm.refl _

theorem taken_ne_nil_of_takeStretches {d : Direction} {before : α → α → Except ε Bool} {p : Pair α}
    {r : Round α} (h : takeStretches d before p = .ok r) (hp : p.rest? d = none) :
    r.taken ≠ [] := by
  unfold takeStretches at h
  split at h
  · simp [Pair.rest?] at hp
  · rename_i left y right
    split at h
    · cases h
    · rename_i n _
      split at h
      · rename_i hs
        cases h
        intro hn
        -- without a stretch nothing would have changed
        have : left.drop n = left := by
          rcases List.take_eq_nil_iff.mp hn with h0 | h0 <;> simp [h0]
        rw [this, hp] at hs
        cases hs
      · split at h
        · cases h
          simp
        · unfold secondStretch at h
          split at h
          · cases h
            simp
          · split at h
            · cases h
            · split at h <;> cases h <;> simp

/-- While something has to be compared, a step takes an element. -/
theorem Merging.taken_ne_nil_of_step {d : Direction} {before : α → α → Except ε Bool}
    {m m' : Merging α} {taken : List α} (h : m.step d before = .ok (taken, m'))
    (hm : m.pair.rest? d = none) : taken ≠ [] := by
  unfold step at h
  split at h
  · split at h
    · cases h
    · cases h
      simp
    · cases h
      simp
  · split at h
    · cases h
    · rename_i r hr
      cases h
      exact taken_ne_nil_of_takeStretches hr hm
  · rename_i hs ht
    obtain ⟨⟨left, right⟩, pace, threshold⟩ := m
    cases pace with
    | stretches => exact absurd rfl (ht _ _)
    | singly l r =>
        cases left with
        | nil => cases right <;> simp [Pair.rest?] at hm
        | cons x left =>
            cases right with
            | nil => simp [Pair.rest?] at hm
            | cons y right => exact absurd rfl (hs _ _ _ _ _ _ _)

/-- While something has to be compared, a step leaves fewer elements. -/
theorem Merging.length_of_step_lt {d : Direction} {before : α → α → Except ε Bool}
    {m m' : Merging α} {taken : List α} (h : m.step d before = .ok (taken, m'))
    (hm : m.pair.rest? d = none) : m'.pair.elements.length < m.pair.elements.length := by
  have hl := (perm_of_step h).length_eq
  have := List.length_pos_iff.mpr (taken_ne_nil_of_step h hm)
  rw [List.length_append] at hl
  omega

/-! ## Merges -/

/-- Carries a merge to its end: its elements in the order in which they are taken, and the threshold
for the next merge. -/
def Merging.run (d : Direction) (before : α → α → Except ε Bool) (m : Merging α) :
    Except ε (List α × Nat) :=
  match _hm : m.pair.rest? d with
  | some rest => .ok (rest, m.threshold)
  | none =>
      match _h : m.step d before with
      | .error e => .error e
      | .ok (taken, m') =>
          match run d before m' with
          | .error e => .error e
          | .ok (rest, threshold) => .ok (taken ++ rest, threshold)
termination_by m.pair.elements.length
decreasing_by exact length_of_step_lt _h _hm

/-- Merges two runs of which the right one has the first element of all and the left one the last,
from the front or from the back. -/
def interleave (before : α → α → Except ε Bool) (threshold : Nat) (left right : List α) :
    Except ε (List α × Nat) := do
  if left.length ≤ right.length then
    let start : Merging α := ⟨⟨left, right.tail⟩, .singly 0 0, threshold⟩
    let (rest, threshold) ← start.run .front before
    return (right.take 1 ++ rest, threshold)
  else
    let start : Merging α := ⟨⟨left.reverse.tail, right.reverse⟩, .singly 0 0, threshold⟩
    let (rest, threshold) ← start.run .back before
    return ((left.reverse.take 1 ++ rest).reverse, threshold)

/-- Merges two runs, leaving out what stands in its place. Gives the threshold for the next merge
too. -/
def merge (before : α → α → Except ε Bool) (threshold : Nat) (left : List α) :
    List α → Except ε (List α × Nat)
  | [] => .ok (left, threshold)
  | y :: right => do
      let n ← countLeading .front (fun x => (before y x).map (!·)) left
      match (left.drop n).getLast? with
      | none => return (left ++ y :: right, threshold)
      | some z =>
          let k ← countLeading .back (fun x => (before x z).map (!·)) (y :: right).reverse
          let inner := (y :: right).take (right.length + 1 - k)
          let outer := (y :: right).drop (right.length + 1 - k)
          if inner.isEmpty then return (left ++ y :: right, threshold)
          let (merged, threshold) ← interleave before threshold (left.drop n) inner
          return (left.take n ++ merged ++ outer, threshold)

end ContentTypes.Sorting
