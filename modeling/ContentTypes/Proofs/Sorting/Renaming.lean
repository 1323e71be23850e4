import ContentTypes.Proofs.Sorting

/-!
# Sorting replaced elements

A sort sees its elements through the comparison only, and hands the failure of a comparison on as it is.
So if the elements of a list are replaced, and a comparison answers for the new ones what another one
answers for the old ones, with its failures replaced too, then sorting the new list is sorting the old one
and replacing the result (`sort_map`). Each part of the sort has this property, and has it from its parts.

In particular a sort fails only where a comparison does, and in the same way (`exists_of_sort_eq_error`).
-/

set_option autoImplicit false

namespace ContentTypes.Sorting

variable {α α' β γ δ ε ε' : Type}

/-! ## Replacing -/

/-- A result with what it holds replaced, or the failure that it is. -/
def renamed (g : ε → ε') (f : β → γ) : Except ε β → Except ε' γ
  | .ok b => .ok (f b)
  | .error e => .error (g e)

section Renamed

variable {g : ε → ε'} {f : β → γ}

@[simp] theorem renamed_ok (b : β) : renamed g f (.ok b) = .ok (f b) := rfl

@[simp] theorem renamed_error (e : ε) : renamed g f (.error e) = .error (g e) := rfl

/-- What is done with a replaced result is what is done with the result, replaced. -/
theorem renamed_bind {δ' : Type} {f' : δ → δ'} {x : Except ε β} {k : β → Except ε δ}
    {k' : γ → Except ε' δ'} (h : ∀ b, k' (f b) = renamed g f' (k b)) :
    renamed g f x >>= k' = renamed g f' (x >>= k) := by
  cases x with
  | error e => rfl
  | ok b => exact h b

theorem renamed_map_not (x : Except ε Bool) :
    (renamed g id x).map (!·) = renamed g id (x.map (!·)) := by
  cases x <;> rfl

end Renamed

/-- Whether a comparison is another one with its elements and its failures replaced. -/
def Renames (f : α → α') (g : ε → ε') (before : α → α → Except ε Bool)
    (before' : α' → α' → Except ε' Bool) : Prop :=
  ∀ x y, before' (f x) (f y) = renamed g id (before x y)

variable {f : α → α'} {g : ε → ε'} {before : α → α → Except ε Bool}
  {before' : α' → α' → Except ε' Bool}

/-! ## Searching -/

section Searching

variable {test : α → Except ε Bool} (test' : α' → Except ε' Bool) (run : List α)

theorem bisect_map (d : Direction) (htest : ∀ x, test' (f x) = renamed g id (test x)) (low high : Nat)
    (h : high ≤ run.length) (h' : high ≤ (run.map f).length) :
    bisect d test' (run.map f) low high h' = renamed g id (bisect d test run low high h) := by
  fun_induction bisect d test run low high h with
  | case1 low high h hlt e he =>
      rw [bisect, dif_pos hlt]
      simp only [List.get_eq_getElem, List.getElem_map, htest] at he ⊢
      rw [he]
      rfl
  | case2 low high h hlt hb ih =>
      rw [bisect, dif_pos hlt]
      simp only [List.get_eq_getElem, List.getElem_map, htest] at hb ⊢
      rw [hb]
      exact ih h'
  | case3 low high h hlt hb ih =>
      rw [bisect, dif_pos hlt]
      simp only [List.get_eq_getElem, List.getElem_map, htest] at hb ⊢
      rw [hb]
      exact ih _
  | case4 low high h hlt => rw [bisect, dif_neg hlt]; rfl

theorem widen_map (d : Direction) (htest : ∀ x, test' (f x) = renamed g id (test x)) (passed next : Nat) :
    widen d test' (run.map f) passed next = renamed g id (widen d test run passed next) := by
  fun_induction widen d test run passed next with
  | case1 passed next hn e he =>
      rw [widen, dif_pos (by simpa using hn)]
      simp only [List.get_eq_getElem, List.getElem_map, htest] at he ⊢
      rw [he]
      rfl
  | case2 passed next hn hb ih =>
      rw [widen, dif_pos (by simpa using hn)]
      simp only [List.get_eq_getElem, List.getElem_map, htest] at hb ⊢
      rw [hb]
      exact ih
  | case3 passed next hn hb =>
      rw [widen, dif_pos (by simpa using hn)]
      simp only [List.get_eq_getElem, List.getElem_map, htest] at hb ⊢
      rw [hb]
      exact bisect_map test' run d htest _ _ _ _
  | case4 passed next hn =>
      rw [widen, dif_neg (by simpa using hn)]
      simp only [List.length_map]
      exact bisect_map test' run d htest _ _ _ _

theorem countLeading_map (d : Direction) (htest : ∀ x, test' (f x) = renamed g id (test x)) :
    countLeading d test' (run.map f) = renamed g id (countLeading d test run) := by
  cases run with
  | nil => rfl
  | cons x run =>
      have hwiden := widen_map test' (x :: run) d htest 0 1
      rw [List.map_cons] at hwiden ⊢
      rw [countLeading, countLeading, htest]
      rcases test x with e | b
      · rfl
      · cases b with
        | false => rfl
        | true => exact hwiden

end Searching

/-! ## Runs -/

theorem takeRun_map (h : Renames f g before before') (descending : Bool) (last : α) (items : List α) :
    takeRun before' descending (f last) (items.map f) =
      renamed g (Prod.map (List.map f) (List.map f)) (takeRun before descending last items) := by
  induction items generalizing last with
  | nil => rfl
  | cons x items ih =>
      rw [List.map_cons, takeRun, takeRun, h x last]
      refine renamed_bind fun b => ?_
      dsimp only [id]
      split
      · rw [ih x]
        exact renamed_bind fun found => rfl
      · rfl

theorem leadingRun_map (h : Renames f g before before') (items : List α) :
    leadingRun before' (items.map f) =
      renamed g (Prod.map (List.map f) (List.map f)) (leadingRun before items) := by
  match items with
  | [] => rfl
  | [x] => rfl
  | x :: y :: items =>
      rw [List.map_cons, List.map_cons, leadingRun, leadingRun, h y x]
      refine renamed_bind fun descending => ?_
      dsimp only [id]
      rw [takeRun_map h]
      refine renamed_bind fun found => ?_
      cases descending with
      | false => rfl
      | true => simp [pure, Except.pure, Prod.map]

theorem insertOrdered_map (h : Renames f g before before') (x : α) (run : List α) :
    insertOrdered before' (f x) (run.map f) = renamed g (List.map f) (insertOrdered before x run) := by
  have htest : ∀ y, (before' (f x) (f y)).map (!·) = renamed g id ((before x y).map (!·)) :=
    fun y => by rw [h x y, renamed_map_not]
  have hbisect := bisect_map (fun z => (before' (f x) z).map (!·)) run .front htest 0 run.length
    (end_le run) (Nat.le_of_eq (List.length_map f).symm)
  simp only [insertOrdered, List.length_map, hbisect]
  refine renamed_bind fun place => ?_
  simp [pure, Except.pure, List.map_take, List.map_drop]

theorem insertAll_map (h : Renames f g before before') (run items : List α) :
    insertAll before' (run.map f) (items.map f) = renamed g (List.map f) (insertAll before run items) := by
  induction items generalizing run with
  | nil => rfl
  | cons x items ih =>
      rw [List.map_cons, insertAll, insertAll, insertOrdered_map h]
      exact renamed_bind fun run' => ih run'

theorem firstRun_map (h : Renames f g before before') (length : Nat) (items : List α) :
    firstRun before' length (items.map f) =
      renamed g (Prod.map (List.map f) (List.map f)) (firstRun before length items) := by
  rw [firstRun, firstRun, leadingRun_map h]
  refine renamed_bind fun found => ?_
  obtain ⟨run, rest⟩ := found
  simp only [Prod.map, List.length_map, ← List.map_take, ← List.map_drop, insertAll_map h]
  exact renamed_bind fun run' => rfl

/-! ## Merges -/

/-- Two runs with their elements replaced. -/
def Pair.map (f : α → α') (p : Pair α) : Pair α' := ⟨p.left.map f, p.right.map f⟩

theorem Pair.rest?_map (d : Direction) (p : Pair α) :
    (p.map f).rest? d = (p.rest? d).map (List.map f) := by
  obtain ⟨left, right⟩ := p
  rcases right with _ | ⟨y, _ | ⟨y', right⟩⟩ <;> rcases left with _ | ⟨x, _ | ⟨x', left⟩⟩ <;>
    cases d <;> simp [Pair.map, Pair.rest?]

theorem leftFirst_map (h : Renames f g before before') (d : Direction) (x y : α) :
    leftFirst d before' (f x) (f y) = renamed g id (leftFirst d before x y) := by
  cases d with
  | front => rw [leftFirst, leftFirst, h y x, renamed_map_not]
  | back => exact h y x

/-- A round with its elements replaced. -/
def Round.map (f : α → α') (r : Round α) : Round α' := ⟨r.taken.map f, r.remaining.map f, r.long⟩

theorem secondStretch_map (h : Renames f g before before') (d : Direction) (first : List α) (y : α)
    (p : Pair α) : secondStretch d before' (first.map f) (f y) (p.map f) =
      renamed g (Round.map f) (secondStretch d before first y p) := by
  obtain ⟨left, right⟩ := p
  cases left with
  | nil => simp [Pair.map, secondStretch, Round.map]
  | cons x left =>
      have htest : ∀ z, (leftFirst d before' (f x) (f z)).map (!·) =
          renamed g id ((leftFirst d before x z).map (!·)) :=
        fun z => by rw [leftFirst_map h, renamed_map_not]
      have hcount := countLeading_map (fun z => (leftFirst d before' (f x) z).map (!·)) right d htest
      simp only [Pair.map, List.map_cons, secondStretch, hcount]
      rcases countLeading d (fun z => (leftFirst d before x z).map (!·)) right with e | n
      · rfl
      · have hrest := Pair.rest?_map (f := f) d ⟨x :: left, right.drop n⟩
        simp only [Pair.map, List.map_cons, List.map_drop] at hrest
        simp only [renamed_ok, id, hrest, Option.isSome_map]
        split <;> simp [Round.map, Pair.map, List.map_take, List.map_drop]

theorem takeStretches_map (h : Renames f g before before') (d : Direction) (p : Pair α) :
    takeStretches d before' (p.map f) = renamed g (Round.map f) (takeStretches d before p) := by
  obtain ⟨left, right⟩ := p
  cases right with
  | nil => simp [Pair.map, takeStretches, Round.map]
  | cons y right =>
      -- the first stretch is as long as before, and leaves the same of the left run
      have hcount := countLeading_map (fun x => leftFirst d before' x (f y)) left d
        fun x => leftFirst_map h d x y
      simp only [Pair.map, List.map_cons, takeStretches, hcount]
      rcases countLeading d (fun x => leftFirst d before x y) left with e | n
      · rfl
      · have hrest := Pair.rest?_map (f := f) d ⟨left.drop n, y :: right⟩
        have hrest' := Pair.rest?_map (f := f) d ⟨left.drop n, right⟩
        have hsecond := secondStretch_map h d (left.take n) y ⟨left.drop n, right⟩
        simp only [Pair.map, List.map_cons, List.map_drop, List.map_take] at hrest hrest' hsecond
        simp only [renamed_ok, id, hrest, hrest', hsecond, Option.isSome_map]
        split
        · simp [Round.map, Pair.map, List.map_take, List.map_drop]
        · split
          · simp [Round.map, Pair.map, List.map_take, List.map_drop]
          · rfl

/-- A merge with the elements of its runs replaced. -/
def Merging.map (f : α → α') (m : Merging α) : Merging α' := ⟨m.pair.map f, m.pace, m.threshold⟩

theorem Merging.afterRound_map (d : Direction) (threshold : Nat) (r : Round α) :
    afterRound d threshold (r.map f) = (afterRound d threshold r).map f := by
  obtain ⟨taken, remaining, long⟩ := r
  simp only [afterRound, Round.map, Pair.rest?_map, Option.isSome_map]
  split
  · rfl
  · cases long <;> rfl

theorem Merging.step_map (h : Renames f g before before') (d : Direction) (m : Merging α) :
    (m.map f).step d before' = renamed g (Prod.map (List.map f) (Merging.map f)) (m.step d before) := by
  obtain ⟨⟨left, right⟩, pace, threshold⟩ := m
  cases pace with
  | stretches =>
      have hround := takeStretches_map h d ⟨left, right⟩
      simp only [Pair.map] at hround
      simp only [map, Pair.map, step, hround]
      rcases takeStretches d before ⟨left, right⟩ with e | r
      · rfl
      · simp only [renamed_ok, afterRound_map]
        rfl
  | singly l r =>
      cases left with
      | nil => rfl
      | cons x left =>
          cases right with
          | nil => rfl
          | cons y right =>
              simp only [map, Pair.map, List.map_cons, step, leftFirst_map h]
              rcases leftFirst d before x y with e | b
              · rfl
              · cases b <;> rfl

theorem Merging.run_of_some {d : Direction} {m : Merging α} {rest : List α}
    (h : m.pair.rest? d = some rest) : m.run d before = .ok (rest, m.threshold) := by
  rw [run]
  split
  · rename_i heq
    rw [h] at heq
    cases heq
    rfl
  · rename_i heq
    rw [h] at heq
    cases heq

theorem Merging.run_of_none {d : Direction} {m : Merging α} (h : m.pair.rest? d = none) :
    m.run d before = m.step d before >>= fun found =>
      found.2.run d before >>= fun result => .ok (found.1 ++ result.1, result.2) := by
  rw [run]
  split
  · rename_i heq
    rw [h] at heq
    cases heq
  · rcases m.step d before with e | ⟨taken, m'⟩
    · rfl
    · simp only [bind, Except.bind]
      rcases m'.run d before with e | ⟨rest, threshold⟩ <;> rfl

theorem Merging.run_map (h : Renames f g before before') (d : Direction) (m : Merging α) :
    (m.map f).run d before' = renamed g (Prod.map (List.map f) id) (m.run d before) := by
  have hrest (m : Merging α) : (m.map f).pair.rest? d = (m.pair.rest? d).map (List.map f) :=
    Pair.rest?_map d m.pair
  -- a merge that goes on takes a step, and what is left to merge after it is less
  induction hn : m.pair.elements.length using Nat.strongRecOn generalizing m with
  | _ n ih =>
      cases hm : m.pair.rest? d with
      | some rest =>
          have hm' : (m.map f).pair.rest? d = some (rest.map f) := by rw [hrest, hm, Option.map_some]
          rw [run_of_some hm', run_of_some hm]
          rfl
      | none =>
          have hm' : (m.map f).pair.rest? d = none := by rw [hrest, hm, Option.map_none]
          rw [run_of_none hm', run_of_none hm, step_map h]
          rcases hstep : m.step d before with e | ⟨taken, m'⟩
          · rfl
          · have hlt := length_of_step_lt hstep hm
            have hrun := ih _ (hn ▸ hlt) m' rfl
            show (m'.map f).run d before' >>= _ = renamed g _ (m'.run d before >>= _)
            rw [hrun]
            exact renamed_bind fun result => by simp [Prod.map]

theorem interleave_map (h : Renames f g before before') (threshold : Nat) (left right : List α) :
    interleave before' threshold (left.map f) (right.map f) =
      renamed g (Prod.map (List.map f) id) (interleave before threshold left right) := by
  simp only [interleave, List.length_map]
  split
  · have hrun := Merging.run_map h .front ⟨⟨left, right.tail⟩, .singly 0 0, threshold⟩
    simp only [Merging.map, Pair.map, List.map_tail] at hrun
    rw [hrun]
    exact renamed_bind fun result => by simp [Prod.map, pure, Except.pure, List.map_take]
  · have hrun := Merging.run_map h .back ⟨⟨left.reverse.tail, right.reverse⟩, .singly 0 0, threshold⟩
    simp only [Merging.map, Pair.map, List.map_tail, List.map_reverse] at hrun
    rw [hrun]
    exact renamed_bind fun result => by
      simp [Prod.map, pure, Except.pure, List.map_take, List.map_reverse]

theorem merge_map (h : Renames f g before before') (threshold : Nat) (left right : List α) :
    merge before' threshold (left.map f) (right.map f) =
      renamed g (Prod.map (List.map f) id) (merge before threshold left right) := by
  cases right with
  | nil => rfl
  | cons y right =>
      have hcount := countLeading_map (fun x => (before' (f y) x).map (!·)) left .front
        fun x => by rw [h y x, renamed_map_not]
      rw [List.map_cons, merge, merge, hcount]
      refine renamed_bind fun n => ?_
      simp only [id, ← List.map_drop, List.getLast?_map]
      cases (left.drop n).getLast? with
      | none => simp [pure, Except.pure, Prod.map]
      | some z =>
          have hcount' := countLeading_map (fun x => (before' x (f z)).map (!·)) (y :: right).reverse
            .back fun x => by rw [h x z, renamed_map_not]
          simp only [Option.map_some, ← List.map_cons, ← List.map_reverse, hcount']
          refine renamed_bind fun k => ?_
          simp only [id, List.length_map, ← List.map_take, ← List.map_drop, List.isEmpty_map]
          split
          · simp [pure, Except.pure, Prod.map]
          · rw [interleave_map h]
            exact renamed_bind fun merged => by simp [Prod.map, pure, Except.pure]

/-! ## The whole sort -/

/-- A run that waits, with its elements replaced. -/
def WaitingRun.map (f : α → α') (run : WaitingRun α) : WaitingRun α' := ⟨run.depth, run.items.map f⟩

theorem sizeOfRuns_map (runs : List (WaitingRun α)) :
    sizeOfRuns (runs.map (WaitingRun.map f)) = sizeOfRuns runs := by
  simp [sizeOfRuns, WaitingRun.map, List.foldl_map]

@[simp] theorem WaitingRun.depth_map (run : WaitingRun α) : (run.map f).depth = run.depth := rfl

@[simp] theorem WaitingRun.items_map (run : WaitingRun α) : (run.map f).items = run.items.map f := rfl

theorem mergeDeeper_map (h : Renames f g before before') (depth threshold : Nat)
    (runs : List (WaitingRun α)) :
    mergeDeeper before' depth threshold (runs.map (WaitingRun.map f)) =
      renamed g (Prod.map (List.map (WaitingRun.map f)) id) (mergeDeeper before depth threshold runs) := by
  fun_induction mergeDeeper before depth threshold runs with
  | case1 threshold right left runs hdeeper ih =>
      simp only [List.map_cons, mergeDeeper, WaitingRun.depth_map, WaitingRun.items_map, if_pos hdeeper,
        merge_map h]
      exact renamed_bind fun merged => ih merged.1 merged.2
  | case2 threshold right left runs hdeeper =>
      have hdeeper' : ¬depth < (right.map f).depth := hdeeper
      rw [List.map_cons, List.map_cons, mergeDeeper, if_neg hdeeper']
      rfl
  | case3 threshold runs hshort =>
      rcases runs with _ | ⟨run, _ | ⟨run', runs⟩⟩
      · simp [mergeDeeper]
      · simp [mergeDeeper]
      · exact absurd rfl (hshort _ _ _)

theorem pushRun_map (h : Renames f g before before') (length threshold : Nat) (run : List α)
    (runs : List (WaitingRun α)) :
    pushRun before' length threshold (run.map f) (runs.map (WaitingRun.map f)) =
      renamed g (Prod.map (List.map (WaitingRun.map f)) id) (pushRun before length threshold run runs) := by
  cases runs with
  | nil => rfl
  | cons last runs =>
      have hitems : (last.map f).items.length = last.items.length := List.length_map f
      have hdeeper := fun depth => mergeDeeper_map h depth threshold (last :: runs)
      simp only [List.map_cons] at hdeeper
      simp only [List.map_cons, pushRun, sizeOfRuns_map, hitems, List.length_map, hdeeper]
      exact renamed_bind fun found => rfl

theorem mergeAll_map (h : Renames f g before before') (threshold : Nat) (runs : List (WaitingRun α)) :
    mergeAll before' threshold (runs.map (WaitingRun.map f)) =
      renamed g (List.map f) (mergeAll before threshold runs) := by
  fun_induction mergeAll before threshold runs with
  | case1 => simp [mergeAll]
  | case2 threshold run => simp [mergeAll]
  | case3 threshold right left =>
      simp only [List.map_cons, List.map_nil, mergeAll, WaitingRun.items_map, merge_map h]
      exact renamed_bind fun merged => rfl
  | case4 threshold last right left runs hlast ih =>
      -- which two runs are merged first is decided by their lengths
      simp only [List.map_cons, mergeAll, WaitingRun.items_map, List.length_map, if_pos hlast, merge_map h]
      exact renamed_bind fun merged => ih merged.1 merged.2
  | case5 threshold last right left runs hlast ih =>
      simp only [List.map_cons, mergeAll, WaitingRun.items_map, List.length_map, if_neg hlast, merge_map h]
      exact renamed_bind fun merged => ih merged.1 merged.2

theorem sortBehind_cons (length threshold : Nat) (waiting : List (WaitingRun α)) (x : α)
    (items : List α) : sortBehind before length threshold waiting (x :: items) =
      firstRun before (minimumRun length 0) (x :: items) >>= fun found =>
        pushRun before length threshold found.1 waiting >>= fun pushed =>
          sortBehind before length pushed.2 pushed.1 found.2 := by
  rw [sortBehind]
  simp only [bind, Except.bind]
  split
  · simp only [*]
  · split <;> simp only [*]

theorem sortBehind_map (h : Renames f g before before') (length threshold : Nat)
    (waiting : List (WaitingRun α)) (items : List α) :
    sortBehind before' length threshold (waiting.map (WaitingRun.map f)) (items.map f) =
      renamed g (List.map f) (sortBehind before length threshold waiting items) := by
  induction hn : items.length using Nat.strongRecOn generalizing threshold waiting items with
  | _ n ih =>
      cases items with
      | nil =>
          rw [List.map_nil, sortBehind, sortBehind]
          exact mergeAll_map h threshold waiting
      | cons x items =>
          have hrun := firstRun_map h (minimumRun length 0) (x :: items)
          rw [List.map_cons] at hrun ⊢
          rw [sortBehind_cons, sortBehind_cons, hrun]
          rcases hfound : firstRun before (minimumRun length 0) (x :: items) with e | ⟨run, rest⟩
          · rfl
          · -- the rest is shorter than the list
            have hrest : rest.length < n := hn ▸ length_of_firstRun_lt hfound
            show (pushRun before' length threshold (run.map f) (waiting.map (WaitingRun.map f)) >>= _) =
              renamed g _ (pushRun before length threshold run waiting >>= _)
            rw [pushRun_map h]
            exact renamed_bind fun pushed => ih _ hrest pushed.2 pushed.1 rest rfl

/-- **Sorting sees its elements through the comparison only.** If a comparison answers for replaced
elements what another one answers for the elements themselves, then what comes of sorting the replaced
elements is what comes of sorting the elements, replaced. -/
theorem sort_map (h : Renames f g before before') (items : List α) :
    sort before' (items.map f) = renamed g (List.map f) (sort before items) := by
  rw [sort, sort, List.length_map]
  exact sortBehind_map h items.length longStretch [] items

/-! ## Failures -/

/-- A comparison whose failures are known to be failures of it. -/
def blaming (before : α → α → Except ε Bool) (x y : α) :
    Except { e // ∃ x y, before x y = .error e } Bool :=
  match h : before x y with
  | .ok b => .ok b
  | .error e => .error ⟨e, x, y, h⟩

theorem renames_blaming (before : α → α → Except ε Bool) :
    Renames id Subtype.val (blaming before) before := by
  intro x y
  show before x y = renamed Subtype.val id (blaming before x y)
  unfold blaming
  split <;> simp_all

/-- A sort that fails does so as a comparison does. -/
theorem exists_of_sort_eq_error {items : List α} {e : ε} (h : sort before items = .error e) :
    ∃ x y, before x y = .error e := by
  -- the same sort with a comparison that says where a failure comes from
  have hsort := sort_map (renames_blaming before) items
  rw [List.map_id, h] at hsort
  rcases hblamed : sort (blaming before) items with ⟨e', he'⟩ | sorted
  · rw [hblamed, renamed_error, Except.error.injEq] at hsort
    exact hsort ▸ he'
  · rw [hblamed] at hsort
    cases hsort

end ContentTypes.Sorting
