/-!
# Searching a run

How many elements at the beginning of a run pass a test, if the ones that pass come first. The search
starts at the first element and goes on in steps that double, until it has passed the boundary, and
then halves what is left. A test may fail, and which test is asked first is part of the result, so
the places that are asked are fixed.

A run may be searched from its end; it is then given with its last element first, and the halves are
taken as they lie from the other side.
-/

set_option autoImplicit false

namespace ContentTypes.Sorting

variable {α ε : Type}

/-- The end of a run that a search or a merge starts from. -/
inductive Direction where
  | front
  | back
  deriving DecidableEq, Repr

/-- The place that halves what lies between two bounds. -/
def Direction.middle (d : Direction) (low high : Nat) : Nat :=
  match d with
  | .front => low + (high - low) / 2
  | .back => low + (high - low - 1) / 2

theorem Direction.le_middle (d : Direction) (low high : Nat) : low ≤ d.middle low high := by
  cases d <;> exact Nat.le_add_right _ _

theorem Direction.middle_lt (d : Direction) {low high : Nat} (h : low < high) :
    d.middle low high < high := by
  cases d <;> (simp only [middle]; omega)

/-- The end of a run bounds a search in it. -/
theorem end_le (run : List α) : run.length ≤ run.length := Nat.le_refl _

/-- The number of elements at the beginning of a run that pass, if it lies between two bounds. -/
def bisect (d : Direction) (test : α → Except ε Bool) (run : List α) (low high : Nat)
    (h : high ≤ run.length) : Except ε Nat :=
  if hlt : low < high then
    match test (run.get ⟨d.middle low high, Nat.lt_of_lt_of_le (d.middle_lt hlt) h⟩) with
    | .error e => .error e
    | .ok true => bisect d test run (d.middle low high + 1) high h
    | .ok false => bisect d test run low (d.middle low high)
        (Nat.le_trans (Nat.le_of_lt (d.middle_lt hlt)) h)
  else .ok low
termination_by high - low
decreasing_by
  · have := d.le_middle low high
    omega
  · have := d.middle_lt hlt
    omega

/-- The same if the element at `passed` passes and `next` is the place to ask. -/
def widen (d : Direction) (test : α → Except ε Bool) (run : List α) (passed next : Nat) :
    Except ε Nat :=
  if hn : next < run.length then
    match test (run.get ⟨next, hn⟩) with
    | .error e => .error e
    | .ok true => widen d test run next (2 * next + 1)
    | .ok false => bisect d test run (passed + 1) next (Nat.le_of_lt hn)
  else bisect d test run (passed + 1) run.length (end_le run)
termination_by run.length - next

/-- The number of elements at the beginning of a run that pass. -/
def countLeading (d : Direction) (test : α → Except ε Bool) (run : List α) : Except ε Nat :=
  match run with
  | [] => .ok 0
  | x :: _ =>
      match test x with
      | .error e => .error e
      | .ok true => widen d test run 0 1
      | .ok false => .ok 0

end ContentTypes.Sorting
