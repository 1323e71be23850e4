import ContentTypes.Sorting

/-!
# Sorting fails only where a comparison does

If a comparison has an answer for every two elements of a list, then sorting the list succeeds
(`exists_sort`). Each part of the sort only compares elements that it was given, and it gives them all
on, so the elements of every run and of every merge stay among those that can be compared.

Whatever the comparison says, what a sort gives are the elements of the list (`perm_of_sort`).
-/

set_option autoImplicit false

namespace ContentTypes.Sorting

variable {α ε : Type} {before : α → α → Except ε Bool} {P : α → Prop}

/-- A comparison that has an answer for any two elements with the property. -/
def Answers (before : α → α → Except ε Bool) (P : α → Prop) : Prop :=
  ∀ x y, P x → P y → ∃ b, before x y = .ok b

/-- A test that negates an answer has an answer. -/
theorem exists_map_not {answer : Except ε Bool} (h : ∃ b, answer = .ok b) :
    ∃ b, answer.map (!·) = .ok b := by
  obtain ⟨b, hb⟩ := h
  exact ⟨!b, by rw [hb]; rfl⟩

theorem Answers.leftFirst (h : Answers before P) (d : Direction) {x y : α} (hx : P x) (hy : P y) :
    ∃ b, leftFirst d before x y = .ok b := by
  cases d with
  | front => exact exists_map_not (h y x hy hx)
  | back => exact h y x hy hx

/-! ## Searching -/

section Searching

variable {test : α → Except ε Bool} {run : List α}

theorem exists_bisect (d : Direction) (htest : ∀ x ∈ run, ∃ b, test x = .ok b) (low high : Nat)
    (h : high ≤ run.length) : ∃ n, bisect d test run low high h = .ok n := by
  fun_induction bisect d test run low high h with
  | case1 low high h hlt e he =>
      obtain ⟨b, hb⟩ := htest _ (List.get_mem run _)
      rw [he] at hb
      cases hb
  | case2 low high h hlt hb ih => exact ih
  | case3 low high h hlt hb ih => exact ih
  | case4 low high h hlt => exact ⟨low, rfl⟩

theorem exists_widen (d : Direction) (htest : ∀ x ∈ run, ∃ b, test x = .ok b) (passed next : Nat) :
    ∃ n, widen d test run passed next = .ok n := by
  fun_induction widen d test run passed next with
  | case1 passed next hn e he =>
      obtain ⟨b, hb⟩ := htest _ (List.get_mem run _)
      rw [he] at hb
      cases hb
  | case2 passed next hn hb ih => exact ih
  | case3 passed next hn hb => exact exists_bisect d htest _ _ _
  | case4 passed next hn => exact exists_bisect d htest _ _ _

theorem exists_countLeading (d : Direction) (htest : ∀ x ∈ run, ∃ b, test x = .ok b) :
    ∃ n, countLeading d test run = .ok n := by
  cases run with
  | nil => exact ⟨0, rfl⟩
  | cons x run =>
      obtain ⟨b, hb⟩ := htest x (by simp)
      rw [countLeading, hb]
      cases b with
      | true => exact exists_widen d htest 0 1
      | false => exact ⟨0, rfl⟩

end Searching

/-! ## Runs -/

theorem exists_takeRun (hbefore : Answers before P) (descending : Bool) {last : α} (hlast : P last)
    {items : List α} (hitems : ∀ x ∈ items, P x) :
    ∃ found, takeRun before descending last items = .ok found := by
  induction items generalizing last with
  | nil => exact ⟨_, rfl⟩
  | cons x items ih =>
      rw [List.forall_mem_cons] at hitems
      obtain ⟨b, hb⟩ := hbefore x last hitems.1 hlast
      obtain ⟨found, hfound⟩ := ih hitems.1 hitems.2
      simp only [takeRun, hb, hfound, bind, Except.bind]
      split
      · exact ⟨_, rfl⟩
      · exact ⟨_, rfl⟩

theorem exists_leadingRun (hbefore : Answers before P) {items : List α} (hitems : ∀ x ∈ items, P x) :
    ∃ found, leadingRun before items = .ok found := by
  match items with
  | [] => exact ⟨_, rfl⟩
  | [x] => exact ⟨_, rfl⟩
  | x :: y :: items =>
      rw [List.forall_mem_cons, List.forall_mem_cons] at hitems
      obtain ⟨hx, hy, hitems⟩ := hitems
      obtain ⟨b, hb⟩ := hbefore y x hy hx
      obtain ⟨found, hfound⟩ := exists_takeRun hbefore b hy hitems
      simp only [leadingRun, hb, hfound, bind, Except.bind]
      exact ⟨_, rfl⟩

theorem exists_insertOrdered (hbefore : Answers before P) {x : α} (hx : P x) {run : List α}
    (hrun : ∀ y ∈ run, P y) : ∃ run', insertOrdered before x run = .ok run' := by
  have htest : ∀ y ∈ run, ∃ b, (before x y).map (!·) = .ok b :=
    fun y hy => exists_map_not (hbefore x y hx (hrun y hy))
  obtain ⟨n, hn⟩ := exists_bisect .front htest 0 run.length (Nat.le_refl _)
  simp only [insertOrdered, hn, bind, Except.bind]
  exact ⟨_, rfl⟩

theorem exists_insertAll (hbefore : Answers before P) {run items : List α} (hrun : ∀ x ∈ run, P x)
    (hitems : ∀ x ∈ items, P x) : ∃ run', insertAll before run items = .ok run' := by
  induction items generalizing run with
  | nil => exact ⟨run, rfl⟩
  | cons x items ih =>
      rw [List.forall_mem_cons] at hitems
      obtain ⟨run', hrun'⟩ := exists_insertOrdered hbefore hitems.1 hrun
      simp only [insertAll, hrun', bind, Except.bind]
      refine ih ?_ hitems.2
      intro y hy
      rcases List.mem_cons.mp ((perm_of_insertOrdered hrun').mem_iff.mp hy) with rfl | hy
      · exact hitems.1
      · exact hrun y hy

/-- A list of elements that can be compared has a first run. -/
theorem exists_firstRun (hbefore : Answers before P) (length : Nat) {items : List α}
    (hitems : ∀ x ∈ items, P x) : ∃ found, firstRun before length items = .ok found := by
  obtain ⟨⟨run, rest⟩, hfound⟩ := exists_leadingRun hbefore hitems
  have hperm := perm_of_leadingRun hfound
  have hrun : ∀ x ∈ run, P x := fun x hx => hitems x (hperm.mem_iff.mp (List.mem_append_left _ hx))
  have hrest : ∀ x ∈ rest, P x := fun x hx => hitems x (hperm.mem_iff.mp (List.mem_append_right _ hx))
  obtain ⟨run', hrun'⟩ := exists_insertAll hbefore hrun
    (fun x hx => hrest x (List.mem_of_mem_take hx) : ∀ x ∈ rest.take (length - run.length), P x)
  simp only [firstRun, hfound, hrun', bind, Except.bind]
  exact ⟨_, rfl⟩

/-! ## Merges -/

theorem exists_secondStretch (hbefore : Answers before P) (d : Direction) (first : List α) (y : α)
    {p : Pair α} (hp : ∀ x ∈ p.elements, P x) : ∃ r, secondStretch d before first y p = .ok r := by
  obtain ⟨left, right⟩ := p
  cases left with
  | nil => exact ⟨_, rfl⟩
  | cons x left =>
      have hx : P x := hp x (by simp [Pair.elements])
      obtain ⟨n, hn⟩ := exists_countLeading d
        (fun z hz => exists_map_not (hbefore.leftFirst d hx (hp z (by simp [Pair.elements, hz]))) :
          ∀ z ∈ right, ∃ b, (leftFirst d before x z).map (!·) = .ok b)
      simp only [secondStretch, hn]
      split
      · exact ⟨_, rfl⟩
      · exact ⟨_, rfl⟩

theorem exists_takeStretches (hbefore : Answers before P) (d : Direction) {p : Pair α}
    (hp : ∀ x ∈ p.elements, P x) : ∃ r, takeStretches d before p = .ok r := by
  obtain ⟨left, right⟩ := p
  cases right with
  | nil => exact ⟨_, rfl⟩
  | cons y right =>
      have hy : P y := hp y (by simp [Pair.elements])
      obtain ⟨n, hn⟩ := exists_countLeading d
        (fun x hx => hbefore.leftFirst d (hp x (by simp [Pair.elements, hx])) hy :
          ∀ x ∈ left, ∃ b, leftFirst d before x y = .ok b)
      simp only [takeStretches, hn]
      split
      · exact ⟨_, rfl⟩
      split
      · exact ⟨_, rfl⟩
      · refine exists_secondStretch hbefore d _ y ?_
        intro x hx
        apply hp
        rcases List.mem_append.mp hx with hx | hx
        · exact List.mem_append_left _ (List.mem_of_mem_drop hx)
        · exact List.mem_append_right _ (List.mem_cons_of_mem y hx)

theorem Merging.exists_step (hbefore : Answers before P) (d : Direction) {m : Merging α}
    (hm : ∀ x ∈ m.pair.elements, P x) : ∃ next, m.step d before = .ok next := by
  unfold step
  split
  · rename_i x left y right l r threshold
    obtain ⟨b, hb⟩ := hbefore.leftFirst d (hm x (by simp [Pair.elements]))
      (hm y (by simp [Pair.elements]))
    rw [hb]
    cases b with
    | true => exact ⟨_, rfl⟩
    | false => exact ⟨_, rfl⟩
  · obtain ⟨r, hr⟩ := exists_takeStretches hbefore d hm
    rw [hr]
    exact ⟨_, rfl⟩
  · exact ⟨_, rfl⟩

theorem Pair.perm_of_rest? {d : Direction} {p : Pair α} {rest : List α} (h : p.rest? d = some rest) :
    rest.Perm p.elements := by
  unfold rest? at h
  split at h
  · cases h
    simp [elements, *]
  · cases h
    simp [elements, *]
  · cases h
    simp only [elements, *]
    exact List.perm_append_comm
  · cases h
    simp [elements, *]
  · cases h

/-- A merge gives the elements of its two runs. -/
theorem Merging.perm_of_run {d : Direction} {m : Merging α} {items : List α} {threshold : Nat}
    (h : m.run d before = .ok (items, threshold)) : items.Perm m.pair.elements := by
  fun_induction Merging.run d before m generalizing items threshold with
  | case1 m rest hrest =>
      cases h
      exact Pair.perm_of_rest? hrest
  | case2 => cases h
  | case3 => cases h
  | case4 m hrest taken m' hstep rest threshold' hrun ih =>
      cases h
      exact ((ih hrun).append_left taken).trans (perm_of_step hstep)

/-- A merge of elements that can be compared comes to its end. -/
theorem Merging.exists_run (hbefore : Answers before P) (d : Direction) {m : Merging α}
    (hm : ∀ x ∈ m.pair.elements, P x) : ∃ merged, m.run d before = .ok merged := by
  fun_induction Merging.run d before m with
  | case1 m rest hrest => exact ⟨_, rfl⟩
  | case2 m hrest e he =>
      obtain ⟨next, hnext⟩ := exists_step hbefore d hm
      rw [he] at hnext
      cases hnext
  | case3 m hrest taken m' hstep e he ih =>
      -- what is left after a step was there before it
      obtain ⟨merged, hmerged⟩ := ih fun x hx =>
        hm x ((perm_of_step hstep).mem_iff.mp (List.mem_append_right taken hx))
      rw [he] at hmerged
      cases hmerged
  | case4 => exact ⟨_, rfl⟩

theorem perm_of_interleave {threshold threshold' : Nat} {left right items : List α}
    (h : interleave before threshold left right = .ok (items, threshold')) :
    items.Perm (left ++ right) := by
  unfold interleave at h
  simp only [bind, Except.bind, pure, Except.pure] at h
  split at h
  · split at h
    · cases h
    · rename_i merged hrun
      obtain ⟨rest, threshold''⟩ := merged
      cases h
      -- from the front: the first element of the right run comes first of all
      have hperm := (Merging.perm_of_run hrun).append_left (right.take 1)
      refine hperm.trans ?_
      show (right.take 1 ++ (left ++ right.tail)).Perm (left ++ right)
      have hswap := List.perm_append_comm_assoc (right.take 1) left (right.drop 1)
      rwa [List.take_append_drop, List.drop_one] at hswap
  · split at h
    · cases h
    · rename_i merged hrun
      obtain ⟨rest, threshold''⟩ := merged
      cases h
      -- from the back: the last element of the left run comes last of all
      have hperm := (Merging.perm_of_run hrun).append_left (left.reverse.take 1)
      refine (List.reverse_perm _).trans (hperm.trans ?_)
      show (left.reverse.take 1 ++ (left.reverse.tail ++ right.reverse)).Perm (left ++ right)
      rw [← List.append_assoc, ← List.drop_one, List.take_append_drop]
      exact (List.reverse_perm left).append (List.reverse_perm right)

theorem exists_interleave (hbefore : Answers before P) (threshold : Nat) {left right : List α}
    (hleft : ∀ x ∈ left, P x) (hright : ∀ x ∈ right, P x) :
    ∃ merged, interleave before threshold left right = .ok merged := by
  simp only [interleave, bind, Except.bind, pure, Except.pure]
  split
  · obtain ⟨merged, hrun⟩ := Merging.exists_run hbefore .front
      (m := ⟨⟨left, right.tail⟩, .singly 0 0, threshold⟩) (by
        intro x hx
        rcases List.mem_append.mp hx with hx | hx
        · exact hleft x hx
        · exact hright x (List.mem_of_mem_tail hx))
    rw [hrun]
    exact ⟨_, rfl⟩
  · obtain ⟨merged, hrun⟩ := Merging.exists_run hbefore .back
      (m := ⟨⟨left.reverse.tail, right.reverse⟩, .singly 0 0, threshold⟩) (by
        intro x hx
        rcases List.mem_append.mp hx with hx | hx
        · exact hleft x (List.mem_reverse.mp (List.mem_of_mem_tail hx))
        · exact hright x (List.mem_reverse.mp hx))
    rw [hrun]
    exact ⟨_, rfl⟩

/-- Merging two runs gives the elements of both. -/
theorem perm_of_merge {threshold threshold' : Nat} {left right items : List α}
    (h : merge before threshold left right = .ok (items, threshold')) :
    items.Perm (left ++ right) := by
  cases right with
  | nil =>
      cases h
      rw [List.append_nil]
  | cons y right =>
      simp only [merge, bind, Except.bind, pure, Except.pure] at h
      split at h
      · cases h
      · rename_i n hn
        split at h
        · cases h
          exact List.Perm.refl _
        · rename_i z hz
          split at h
          · cases h
          · rename_i k hk
            split at h
            · cases h
              exact List.Perm.refl _
            · split at h
              · cases h
              · rename_i merged hmerged
                obtain ⟨inner, threshold''⟩ := merged
                cases h
                -- what stands in its place stays in front of and behind the inner merge
                have hinner := ((perm_of_interleave hmerged).append_left (left.take n)).append_right
                  ((y :: right).drop (right.length + 1 - k))
                rwa [← List.append_assoc, List.take_append_drop, List.append_assoc left,
                  List.take_append_drop] at hinner

/-- Two runs of elements that can be compared are merged. -/
theorem exists_merge (hbefore : Answers before P) (threshold : Nat) {left right : List α}
    (hleft : ∀ x ∈ left, P x) (hright : ∀ x ∈ right, P x) :
    ∃ merged, merge before threshold left right = .ok merged := by
  cases right with
  | nil => exact ⟨_, rfl⟩
  | cons y right =>
      obtain ⟨n, hn⟩ := exists_countLeading .front
        (fun x hx => exists_map_not (hbefore y x (hright y (by simp)) (hleft x hx)) :
          ∀ x ∈ left, ∃ b, (before y x).map (!·) = .ok b)
      simp only [merge, hn, bind, Except.bind, pure, Except.pure]
      split
      · exact ⟨_, rfl⟩
      · -- what the right run begins with lies before the last element of the left run
        rename_i z hz
        have hzmem : z ∈ left := List.mem_of_mem_drop (List.mem_of_getLast? hz)
        obtain ⟨k, hk⟩ := exists_countLeading .back
          (fun x hx => exists_map_not (hbefore x z (hright x (List.mem_reverse.mp hx)) (hleft z hzmem)) :
            ∀ x ∈ (y :: right).reverse, ∃ b, (before x z).map (!·) = .ok b)
        rw [hk]
        dsimp only
        split
        · exact ⟨_, rfl⟩
        · obtain ⟨merged, hmerged⟩ := exists_interleave hbefore threshold
            (fun x hx => hleft x (List.mem_of_mem_drop hx) : ∀ x ∈ left.drop n, P x)
            (fun x hx => hright x (List.mem_of_mem_take hx) :
              ∀ x ∈ (y :: right).take (right.length + 1 - k), P x)
          rw [hmerged]
          exact ⟨_, rfl⟩

/-! ## Waiting runs -/

/-- The elements of runs that wait for a merge, of which the last comes first. -/
def elementsOfRuns (runs : List (WaitingRun α)) : List α := (runs.map (·.items)).flatten

theorem perm_merged {left right items : List α} {depth depth' depth'' : Nat}
    {runs : List (WaitingRun α)} (h : items.Perm (left ++ right)) :
    (elementsOfRuns (⟨depth, items⟩ :: runs)).Perm
      (elementsOfRuns (⟨depth', right⟩ :: ⟨depth'', left⟩ :: runs)) := by
  simp only [elementsOfRuns, List.map_cons, List.flatten_cons]
  rw [← List.append_assoc]
  exact (h.trans List.perm_append_comm).append_right _

theorem exists_merge_last (hbefore : Answers before P) (threshold : Nat) {right left : WaitingRun α}
    {runs : List (WaitingRun α)} (hruns : ∀ x ∈ elementsOfRuns (right :: left :: runs), P x) :
    ∃ merged, merge before threshold left.items right.items = .ok merged := by
  refine exists_merge hbefore threshold ?_ ?_
  · intro x hx
    exact hruns x (by simp [elementsOfRuns, hx])
  · intro x hx
    exact hruns x (by simp [elementsOfRuns, hx])

theorem perm_of_mergeDeeper {depth threshold threshold' : Nat} {runs runs' : List (WaitingRun α)}
    (h : mergeDeeper before depth threshold runs = .ok (runs', threshold')) :
    (elementsOfRuns runs').Perm (elementsOfRuns runs) := by
  fun_induction mergeDeeper before depth threshold runs with
  | case1 threshold right left runs hdeep ih =>
      simp only [bind, Except.bind] at h
      split at h
      · cases h
      · rename_i merged hmerged
        exact (ih _ _ h).trans (perm_merged (perm_of_merge hmerged))
  | case2 threshold right left runs hdeep =>
      cases h
      exact List.Perm.refl _
  | case3 =>
      cases h
      exact List.Perm.refl _

theorem exists_mergeDeeper (hbefore : Answers before P) (depth threshold : Nat)
    {runs : List (WaitingRun α)} (hruns : ∀ x ∈ elementsOfRuns runs, P x) :
    ∃ merged, mergeDeeper before depth threshold runs = .ok merged := by
  fun_induction mergeDeeper before depth threshold runs with
  | case1 threshold right left runs hdeep ih =>
      obtain ⟨⟨items, threshold'⟩, hmerged⟩ := exists_merge_last hbefore threshold hruns
      simp only [hmerged, bind, Except.bind]
      exact ih _ _ fun x hx => hruns x ((perm_merged (perm_of_merge hmerged)).mem_iff.mp hx)
  | case2 => exact ⟨_, rfl⟩
  | case3 => exact ⟨_, rfl⟩

theorem perm_of_pushRun {length threshold threshold' : Nat} {run : List α}
    {runs runs' : List (WaitingRun α)}
    (h : pushRun before length threshold run runs = .ok (runs', threshold')) :
    (elementsOfRuns runs').Perm (run ++ elementsOfRuns runs) := by
  cases runs with
  | nil =>
      cases h
      exact List.Perm.refl _
  | cons last runs =>
      simp only [pushRun, bind, Except.bind, pure, Except.pure] at h
      split at h
      · cases h
      · rename_i merged hmerged
        cases h
        exact (perm_of_mergeDeeper hmerged).append_left run

theorem exists_pushRun (hbefore : Answers before P) (length threshold : Nat) (run : List α)
    {runs : List (WaitingRun α)} (hruns : ∀ x ∈ elementsOfRuns runs, P x) :
    ∃ pushed, pushRun before length threshold run runs = .ok pushed := by
  cases runs with
  | nil => exact ⟨_, rfl⟩
  | cons last runs =>
      obtain ⟨merged, hmerged⟩ := exists_mergeDeeper hbefore
        (cutDepth length (2 * sizeOfRuns runs + last.items.length)
          (2 * sizeOfRuns runs + last.items.length + last.items.length + run.length)) threshold hruns
      simp only [pushRun, hmerged, bind, Except.bind]
      exact ⟨_, rfl⟩

theorem perm_of_mergeAll {threshold : Nat} {runs : List (WaitingRun α)} {items : List α}
    (h : mergeAll before threshold runs = .ok items) : items.Perm (elementsOfRuns runs) := by
  fun_induction mergeAll before threshold runs with
  | case1 =>
      cases h
      exact List.Perm.refl _
  | case2 _ run =>
      cases h
      simp [elementsOfRuns]
  | case3 threshold right left =>
      simp only [bind, Except.bind, pure, Except.pure] at h
      split at h
      · cases h
      · rename_i merged hmerged
        cases h
        have hperm := (perm_of_merge hmerged).trans List.perm_append_comm
        simpa [elementsOfRuns] using hperm
  | case4 threshold last right left runs hlonger ih =>
      simp only [bind, Except.bind] at h
      split at h
      · cases h
      · rename_i merged hmerged
        have hbehind : (elementsOfRuns (⟨left.depth, merged.1⟩ :: runs)).Perm
            (elementsOfRuns (right :: left :: runs)) := perm_merged (perm_of_merge hmerged)
        exact (ih _ _ h).trans (hbehind.append_left last.items)
  | case5 threshold last right left runs hlonger ih =>
      simp only [bind, Except.bind] at h
      split at h
      · cases h
      · rename_i merged hmerged
        exact (ih _ _ h).trans (perm_merged (perm_of_merge hmerged))

theorem exists_mergeAll (hbefore : Answers before P) (threshold : Nat)
    {runs : List (WaitingRun α)} (hruns : ∀ x ∈ elementsOfRuns runs, P x) :
    ∃ items, mergeAll before threshold runs = .ok items := by
  fun_induction mergeAll before threshold runs with
  | case1 => exact ⟨_, rfl⟩
  | case2 => exact ⟨_, rfl⟩
  | case3 threshold right left =>
      obtain ⟨merged, hmerged⟩ := exists_merge_last hbefore threshold hruns
      simp only [hmerged, bind, Except.bind]
      exact ⟨_, rfl⟩
  | case4 threshold last right left runs hlonger ih =>
      -- the last run waits until the two before it are merged
      have hruns' : ∀ x ∈ elementsOfRuns (right :: left :: runs), P x :=
        fun x hx => hruns x (List.mem_append_right last.items hx)
      obtain ⟨⟨items, threshold'⟩, hmerged⟩ := exists_merge_last hbefore threshold hruns'
      simp only [hmerged, bind, Except.bind]
      refine ih _ _ ?_
      intro x hx
      rcases List.mem_append.mp hx with hx | hx
      · exact hruns x (List.mem_append_left _ hx)
      · exact hruns' x ((perm_merged (perm_of_merge hmerged)).mem_iff.mp hx)
  | case5 threshold last right left runs hlonger ih =>
      obtain ⟨⟨items, threshold'⟩, hmerged⟩ := exists_merge_last hbefore threshold hruns
      simp only [hmerged, bind, Except.bind]
      exact ih _ _ fun x hx => hruns x ((perm_merged (perm_of_merge hmerged)).mem_iff.mp hx)

/-! ## The sort -/

theorem perm_of_sortBehind {length threshold : Nat} {waiting : List (WaitingRun α)}
    {items sorted : List α} (h : sortBehind before length threshold waiting items = .ok sorted) :
    sorted.Perm (elementsOfRuns waiting ++ items) := by
  fun_induction sortBehind before length threshold waiting items with
  | case1 threshold waiting =>
      rw [List.append_nil]
      exact perm_of_mergeAll h
  | case2 => cases h
  | case3 => cases h
  | case4 threshold waiting x items run rest hrun waiting' threshold' hpush ih =>
      calc
        List.Perm sorted (elementsOfRuns waiting' ++ rest) := ih h
        List.Perm _ ((run ++ elementsOfRuns waiting) ++ rest) := (perm_of_pushRun hpush).append_right rest
        List.Perm _ (elementsOfRuns waiting ++ (run ++ rest)) := by
          rw [List.append_assoc]
          exact List.perm_append_comm_assoc ..
        List.Perm _ (elementsOfRuns waiting ++ x :: items) := (perm_of_firstRun hrun).append_left _

/-- Sorting gives the elements of the list. -/
theorem perm_of_sort {items sorted : List α} (h : sort before items = .ok sorted) :
    sorted.Perm items := perm_of_sortBehind h

theorem exists_sortBehind (hbefore : Answers before P) (length threshold : Nat)
    {waiting : List (WaitingRun α)} {items : List α} (hwaiting : ∀ x ∈ elementsOfRuns waiting, P x)
    (hitems : ∀ x ∈ items, P x) :
    ∃ sorted, sortBehind before length threshold waiting items = .ok sorted := by
  fun_induction sortBehind before length threshold waiting items with
  | case1 threshold waiting => exact exists_mergeAll hbefore threshold hwaiting
  | case2 threshold waiting x items e he =>
      obtain ⟨found, hfound⟩ := exists_firstRun hbefore (minimumRun length 0) hitems
      rw [he] at hfound
      cases hfound
  | case3 threshold waiting x items run rest hrun e he =>
      obtain ⟨pushed, hpushed⟩ := exists_pushRun hbefore length threshold run hwaiting
      rw [he] at hpushed
      cases hpushed
  | case4 threshold waiting x items run rest hrun waiting' threshold' hpush ih =>
      -- the run goes to the waiting ones, and the rest of the list is still to come
      have hfirst := perm_of_firstRun hrun
      refine ih ?_ fun y hy => hitems y (hfirst.mem_iff.mp (List.mem_append_right run hy))
      intro y hy
      rcases List.mem_append.mp ((perm_of_pushRun hpush).mem_iff.mp hy) with hy | hy
      · exact hitems y (hfirst.mem_iff.mp (List.mem_append_left rest hy))
      · exact hwaiting y hy

/-- **Sorting succeeds** where any two elements can be compared. -/
theorem exists_sort (hbefore : Answers before P) {items : List α} (hitems : ∀ x ∈ items, P x) :
    ∃ sorted, sort before items = .ok sorted :=
  exists_sortBehind hbefore _ _ (by simp [elementsOfRuns]) hitems

end ContentTypes.Sorting
