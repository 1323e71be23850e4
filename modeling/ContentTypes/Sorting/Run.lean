import ContentTypes.Sorting.Search

/-!
# Runs

A list is cut into runs that are in order: the leading elements that ascend, or strictly descend and
are turned round. A run that is shorter than `minimumRun` of the list is filled up with the elements
that follow it, each put behind the last element that it does not come before. The comparisons are
always of a later element with an earlier one. No element is lost (`perm_of_firstRun`).
-/

set_option autoImplicit false

namespace ContentTypes.Sorting

variable {α ε : Type}

/-- Takes the leading run: the elements of which each comes before its predecessor, or the ones of
which none does. The run is given without its first element `last`, then what follows it. -/
def takeRun (before : α → α → Except ε Bool) (descending : Bool) :
    α → List α → Except ε (List α × List α)
  | _, [] => .ok ([], [])
  | last, x :: rest => do
      if (← before x last) = descending then
        let (run, rest') ← takeRun before descending x rest
        return (x :: run, rest')
      else return ([], x :: rest)

/-- The leading run of a list, in order, and what follows it. -/
def leadingRun (before : α → α → Except ε Bool) : List α → Except ε (List α × List α)
  | [] => .ok ([], [])
  | [x] => .ok ([x], [])
  | x :: y :: rest => do
      let descending ← before y x
      let (run, rest') ← takeRun before descending y rest
      let run := x :: y :: run
      return (if descending then run.reverse else run, rest')

/-- Puts an element into a run, behind its equals. -/
def insertOrdered (before : α → α → Except ε Bool) (x : α) (run : List α) : Except ε (List α) := do
  let place ← bisect .front (fun y => (before x y).map (!·)) run 0 run.length (end_le run)
  return run.take place ++ x :: run.drop place

/-- Puts elements into a run one after the other. -/
def insertAll (before : α → α → Except ε Bool) (run : List α) : List α → Except ε (List α)
  | [] => .ok run
  | x :: rest => do insertAll before (← insertOrdered before x run) rest

/-! ## The length of runs -/

/-- A list of fewer elements is one run. -/
def shortList : Nat := 64

/-- The least length of the runs of a list: its length halved until it is short, and one more if it
does not come out even. -/
def minimumRun (length : Nat) (uneven : Nat) : Nat :=
  if length < shortList then length + uneven
  else minimumRun (length / 2) (max uneven (length % 2))
termination_by length
decreasing_by
  simp only [shortList] at *
  omega

/-- The first run of a list, filled up to a length, and what follows it. -/
def firstRun (before : α → α → Except ε Bool) (length : Nat) (items : List α) :
    Except ε (List α × List α) := do
  let (run, rest) ← leadingRun before items
  let missing := length - run.length
  return (← insertAll before run (rest.take missing), rest.drop missing)

/-! ## No element is lost -/

theorem append_of_takeRun {before : α → α → Except ε Bool} {descending : Bool} {last : α}
    {items run rest : List α} (h : takeRun before descending last items = .ok (run, rest)) :
    run ++ rest = items := by
  induction items generalizing last run with
  | nil =>
      cases h
      rfl
  | cons x items ih =>
      unfold takeRun at h
      cases hb : before x last with
      | error e => simp [hb, bind, Except.bind] at h
      | ok b =>
          simp only [hb, bind, Except.bind] at h
          split at h
          · cases hr : takeRun before descending x items with
            | error e => simp [hr] at h
            | ok found =>
                obtain ⟨run', rest'⟩ := found
                simp only [hr, pure, Except.pure] at h
                cases h
                simp [ih hr]
          · cases h
            rfl

theorem perm_of_leadingRun {before : α → α → Except ε Bool} {items run rest : List α}
    (h : leadingRun before items = .ok (run, rest)) : (run ++ rest).Perm items := by
  unfold leadingRun at h
  split at h
  · cases h
    exact List.Perm.refl _
  · cases h
    exact List.Perm.refl _
  · rename_i x y items
    cases hb : before y x with
    | error e => simp [hb, bind, Except.bind] at h
    | ok descending =>
        simp only [hb, bind, Except.bind] at h
        cases hr : takeRun before descending y items with
        | error e => simp [hr] at h
        | ok found =>
            obtain ⟨run', rest'⟩ := found
            simp only [hr, pure, Except.pure] at h
            cases h
            rw [← append_of_takeRun hr]
            cases descending with
            | false => exact List.Perm.refl _
            | true => exact (List.reverse_perm _).append_right _

theorem perm_of_insertOrdered {before : α → α → Except ε Bool} {x : α} {run run' : List α}
    (h : insertOrdered before x run = .ok run') : run'.Perm (x :: run) := by
  unfold insertOrdered at h
  simp only [bind, Except.bind] at h
  split at h
  · cases h
  · rename_i n _
    simp only [pure, Except.pure] at h
    cases h
    have hm : (run.take n ++ x :: run.drop n).Perm (x :: (run.take n ++ run.drop n)) :=
      List.perm_middle
    rwa [List.take_append_drop] at hm

theorem perm_of_insertAll {before : α → α → Except ε Bool} {run items run' : List α}
    (h : insertAll before run items = .ok run') : run'.Perm (run ++ items) := by
  induction items generalizing run with
  | nil =>
      cases h
      simp
  | cons x items ih =>
      unfold insertAll at h
      simp only [bind, Except.bind] at h
      split at h
      · cases h
      · rename_i run₁ hr
        refine (ih h).trans ?_
        refine ((perm_of_insertOrdered hr).append_right items).trans ?_
        exact List.perm_middle.symm

/-- The first run and what follows it are the elements of the list. -/
theorem perm_of_firstRun {before : α → α → Except ε Bool} {length : Nat} {items run rest : List α}
    (h : firstRun before length items = .ok (run, rest)) : (run ++ rest).Perm items := by
  unfold firstRun at h
  simp only [bind, Except.bind] at h
  split at h
  · cases h
  · rename_i found hf
    obtain ⟨run₁, rest₁⟩ := found
    split at h
    · cases h
    · rename_i run₂ hi
      simp only [pure, Except.pure] at h
      cases h
      refine ((perm_of_insertAll hi).append_right _).trans ?_
      rw [List.append_assoc, List.take_append_drop]
      exact perm_of_leadingRun hf

theorem length_pos_of_leadingRun {before : α → α → Except ε Bool} {x : α} {items run rest : List α}
    (h : leadingRun before (x :: items) = .ok (run, rest)) : 0 < run.length := by
  unfold leadingRun at h
  split at h
  · rename_i hn
    cases hn
  · cases h
    simp
  · simp only [bind, Except.bind] at h
    split at h
    · cases h
    · split at h
      · cases h
      · simp only [pure, Except.pure] at h
        cases h
        split <;> simp

/-- The first run has an element if the list has one. -/
theorem length_of_firstRun_lt {before : α → α → Except ε Bool} {length : Nat} {x : α}
    {items run rest : List α} (h : firstRun before length (x :: items) = .ok (run, rest)) :
    rest.length < (x :: items).length := by
  unfold firstRun at h
  simp only [bind, Except.bind] at h
  split at h
  · cases h
  · rename_i found hf
    obtain ⟨run₁, rest₁⟩ := found
    split at h
    · cases h
    · simp only [pure, Except.pure] at h
      cases h
      have hl := (perm_of_leadingRun hf).length_eq
      have := length_pos_of_leadingRun hf
      rw [List.length_append] at hl
      rw [List.length_drop]
      omega

end ContentTypes.Sorting
