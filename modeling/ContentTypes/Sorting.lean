import ContentTypes.Sorting.Merge
import ContentTypes.Sorting.Run

/-!
# Sorting under an order that may fail

Sorts a list under a comparison that may fail, because two elements have no order. The list is cut
into runs (`Sorting.Run`), and neighbouring runs are merged (`Sorting.Merge`), so that lists that are
nearly in order take few comparisons. Equal elements keep their order. Which comparison fails first is
part of the result, and so is the order of elements of which the comparison makes no sense, so the
comparisons and their order are fixed.

The runs that wait for a merge are kept with the depth of the boundary in front of them: two
neighbours lie in one half, one quarter, one eighth and so on of the list, by their middles, and the
depth is that of the first cut between them. Deep boundaries are merged away before shallow ones.
-/

set_option autoImplicit false

namespace ContentTypes.Sorting

variable {α ε : Type}

/-- The depth at which a list of `length` elements, halved again and again, is first cut between two
places. The places are given doubled, so that the middle of a run is one. -/
def cutDepth (length place place' : Nat) : Nat :=
  ((List.range (Nat.log2 (2 * length) + 2)).find? fun depth =>
    place * Nat.pow 2 depth / (2 * length) != place' * Nat.pow 2 depth / (2 * length)).getD 0

/-- A run that waits for a merge, with the depth of the boundary in front of it. -/
structure WaitingRun (α : Type) where
  depth : Nat
  items : List α

/-- The number of elements of runs. -/
def sizeOfRuns (runs : List (WaitingRun α)) : Nat :=
  runs.foldl (fun size run => size + run.items.length) 0

/-- Merges the last runs, last first, while the boundary between them is deeper than `depth`. -/
def mergeDeeper (before : α → α → Except ε Bool) (depth : Nat) :
    Nat → List (WaitingRun α) → Except ε (List (WaitingRun α) × Nat)
  | threshold, right :: left :: runs => do
      if depth < right.depth then
        let (items, threshold) ← merge before threshold left.items right.items
        mergeDeeper before depth threshold (⟨left.depth, items⟩ :: runs)
      else return (right :: left :: runs, threshold)
  | threshold, runs => .ok (runs, threshold)
termination_by _ runs => runs.length

/-- Puts a run behind the waiting ones, after the merges that are due. -/
def pushRun (before : α → α → Except ε Bool) (length threshold : Nat) (run : List α) :
    List (WaitingRun α) → Except ε (List (WaitingRun α) × Nat)
  | [] => .ok ([⟨0, run⟩], threshold)
  | last :: runs => do
      let middle := 2 * sizeOfRuns runs + last.items.length
      let depth := cutDepth length middle (middle + last.items.length + run.length)
      let (runs, threshold) ← mergeDeeper before depth threshold (last :: runs)
      return (⟨depth, run⟩ :: runs, threshold)

/-- Merges all runs, last first: the last two, or the two before the last if the last is longer than
the first of them. -/
def mergeAll (before : α → α → Except ε Bool) :
    Nat → List (WaitingRun α) → Except ε (List α)
  | _, [] => .ok []
  | _, [run] => .ok run.items
  | threshold, [right, left] => do
      return (← merge before threshold left.items right.items).1
  | threshold, last :: right :: left :: runs => do
      if left.items.length < last.items.length then
        let (items, threshold) ← merge before threshold left.items right.items
        mergeAll before threshold (last :: ⟨left.depth, items⟩ :: runs)
      else
        let (items, threshold) ← merge before threshold right.items last.items
        mergeAll before threshold (⟨right.depth, items⟩ :: left :: runs)
termination_by _ runs => runs.length

/-- Sorts the elements that follow the waiting runs, and merges all. -/
def sortBehind (before : α → α → Except ε Bool) (length threshold : Nat)
    (waiting : List (WaitingRun α)) : List α → Except ε (List α)
  | [] => mergeAll before threshold waiting
  | x :: items =>
      match _h : firstRun before (minimumRun length 0) (x :: items) with
      | .error e => .error e
      | .ok (run, rest) =>
          match pushRun before length threshold run waiting with
          | .error e => .error e
          | .ok (waiting, threshold) => sortBehind before length threshold waiting rest
termination_by items => items.length
decreasing_by exact length_of_firstRun_lt _h

/-- Sorts a list. -/
def sort (before : α → α → Except ε Bool) (items : List α) : Except ε (List α) :=
  sortBehind before items.length longStretch [] items

end ContentTypes.Sorting
