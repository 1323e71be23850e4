import ContentTypes.Proofs.Sorting

/-!
# Sorting puts in order

If the answers of a comparison agree with a transitive relation, then what a sort gives is in order
(`pairwise_of_sort`). Nothing is asked of the relation on elements that are not compared, and equal
elements may stand in it both ways.

A merge from the back takes the last elements first, so it is the merge from the front under the
relation turned round, with both runs turned round (`Direction.along`). A step of a merge moves a
beginning of each run to the result, and all that is taken comes before all that is left
(`Merging.takes_of_step`). That the runs are in order and that one of them ends with the last element
of all goes on to whatever is left (`Takes.ordered`), so a whole merge is an induction over its steps.
-/

set_option autoImplicit false

namespace ContentTypes.Sorting

variable {α ε : Type} {before : α → α → Except ε Bool} {P : α → Prop} {le R : α → α → Prop}

/-- The answers of a comparison agree with a transitive relation, on elements with the property. -/
structure Follows (before : α → α → Except ε Bool) (P : α → Prop) (le : α → α → Prop) : Prop where
  of_true {x y : α} (hx : P x) (hy : P y) (h : before x y = .ok true) : le x y
  of_false {x y : α} (hx : P x) (hy : P y) (h : before x y = .ok false) : le y x
  trans (x y z : α) (hxy : le x y) (hyz : le y z) : le x z

/-- A negated answer is the other one. -/
theorem map_not_eq_ok_iff {answer : Except ε Bool} {b : Bool} :
    answer.map (!·) = .ok b ↔ answer = .ok !b := by
  cases answer with
  | error e => simp [Except.map]
  | ok c => cases b <;> cases c <;> simp [Except.map]

/-! ## Searching -/

/-- The first `n` elements of a run come before `y`, the others come behind it. -/
structure Divides (R : α → α → Prop) (y : α) (run : List α) (n : Nat) : Prop where
  take : ∀ x ∈ run.take n, R x y
  drop : ∀ x ∈ run.drop n, R y x

/-- A test that tells on which side of `y` the elements of a run lie. -/
def Tells (test : α → Except ε Bool) (R : α → α → Prop) (y : α) (run : List α) : Prop :=
  ∀ x ∈ run, (test x = .ok true → R x y) ∧ (test x = .ok false → R y x)

/-- What comes before the first element of a list in order comes before all of it. -/
theorem forall_mem_cons_of_rel (htrans : ∀ x y z, R x y → R y z → R x z) {x y : α} {items : List α}
    (hitems : (y :: items).Pairwise R) (h : R x y) : ∀ z ∈ y :: items, R x z := by
  intro z hz
  rcases List.mem_cons.mp hz with rfl | hz
  · exact h
  · exact htrans _ _ _ h (List.rel_of_pairwise_cons hitems hz)

section Searching

variable {test : α → Except ε Bool} {run : List α} {y : α}
  (htrans : ∀ x y z, R x y → R y z → R x z) (hrun : run.Pairwise R)

include htrans hrun

/-- What comes before an element that comes before `y`. -/
theorem forall_mem_take_succ {i : Nat} (hi : i < run.length) (h : R (run.get ⟨i, hi⟩) y) : ∀ x ∈ run.take (i + 1), R x y := by
  intro x hx
  rw [List.take_succ_eq_append_getElem hi] at hx
  rcases List.mem_append.mp hx with hx | hx
  · have hsplit : (run.take i ++ run.drop i).Pairwise R := by rwa [List.take_append_drop]
    refine htrans _ _ _ ((List.pairwise_append.mp hsplit).2.2 x hx _ ?_) h
    rw [List.drop_eq_getElem_cons hi]
    exact List.mem_cons_self
  · rw [List.mem_singleton.mp hx]
    exact h

/-- What comes behind an element that comes behind `y`. -/
theorem forall_mem_drop {i : Nat} (hi : i < run.length) (h : R y (run.get ⟨i, hi⟩)) : ∀ x ∈ run.drop i, R y x := by
  have hdrop : (run.drop i).Pairwise R := hrun.sublist (List.drop_sublist i run)
  rw [List.drop_eq_getElem_cons hi] at hdrop ⊢
  exact forall_mem_cons_of_rel htrans hdrop h

theorem divides_of_bisect {d : Direction} (htest : Tells test R y run) {low high n : Nat} {hhigh : high ≤ run.length}
    (hlow : low ≤ high) (htake : ∀ x ∈ run.take low, R x y) (hdrop : ∀ x ∈ run.drop high, R y x)
    (h : bisect d test run low high hhigh = .ok n) : Divides R y run n := by
  fun_induction bisect d test run low high hhigh with
  | case1 => cases h
  | case2 low high hhigh hlt hb ih =>
      have hmiddle := (htest _ (List.get_mem run _)).1 hb
      exact ih (d.middle_lt hlt) (forall_mem_take_succ htrans hrun _ hmiddle) hdrop h
  | case3 low high hhigh hlt hb ih =>
      have hmiddle := (htest _ (List.get_mem run _)).2 hb
      exact ih (d.le_middle low high) htake (forall_mem_drop htrans hrun _ hmiddle) h
  | case4 low high hhigh hlt =>
      have hmeet : low = high := by omega
      cases h
      exact ⟨htake, hmeet ▸ hdrop⟩

theorem divides_of_widen {d : Direction} (htest : Tells test R y run) {passed next n : Nat}
    (hpassed : passed < run.length) (hnext : passed < next)
    (htake : ∀ x ∈ run.take (passed + 1), R x y) (h : widen d test run passed next = .ok n) :
    Divides R y run n := by
  fun_induction widen d test run passed next with
  | case1 => cases h
  | case2 passed next hn hb ih =>
      have hasked := (htest _ (List.get_mem run _)).1 hb
      exact ih hn (by omega) (forall_mem_take_succ htrans hrun hn hasked) h
  | case3 passed next hn hb =>
      have hasked := (htest _ (List.get_mem run _)).2 hb
      exact divides_of_bisect htrans hrun htest hnext htake (forall_mem_drop htrans hrun hn hasked) h
  | case4 passed next hn =>
      refine divides_of_bisect htrans hrun htest hpassed htake ?_ h
      simp

/-- **A search finds the boundary** of a run that is in order. -/
theorem divides_of_countLeading {d : Direction} (htest : Tells test R y run) {n : Nat}
    (h : countLeading d test run = .ok n) : Divides R y run n := by
  unfold countLeading at h
  split at h
  · cases h
    exact ⟨by simp, by simp⟩
  · rename_i x run
    have hlength : 0 < (x :: run).length := by simp
    split at h
    · cases h
    · rename_i hb
      have hx := (htest x List.mem_cons_self).1 hb
      exact divides_of_widen htrans hrun htest hlength Nat.zero_lt_one
        (forall_mem_take_succ htrans hrun hlength hx) h
    · rename_i hb
      have hx := (htest x List.mem_cons_self).2 hb
      cases h
      exact ⟨by simp, forall_mem_drop htrans hrun hlength hx⟩

end Searching

/-! ## Merges -/

/-- The relation in which a merge takes its elements. -/
def Direction.along (d : Direction) (le : α → α → Prop) (x y : α) : Prop :=
  match d with
  | .front => le x y
  | .back => le y x

theorem Follows.along_trans (hbefore : Follows before P le) (d : Direction) (x y z : α)
    (hxy : d.along le x y) (hyz : d.along le y z) : d.along le x z := by
  cases d with
  | front => exact hbefore.trans x y z hxy hyz
  | back => exact hbefore.trans z y x hyz hxy

theorem Follows.along_of_leftFirst (hbefore : Follows before P le) (d : Direction) {x y : α}
    (hx : P x) (hy : P y) :
    (leftFirst d before x y = .ok true → d.along le x y) ∧
      (leftFirst d before x y = .ok false → d.along le y x) := by
  cases d with
  | front =>
      simp only [leftFirst, map_not_eq_ok_iff]
      exact ⟨hbefore.of_false hy hx, hbefore.of_true hy hx⟩
  | back => exact ⟨hbefore.of_true hy hx, hbefore.of_false hy hx⟩

/-- The run that lasts until the end of a merge: the left one from the front, the right one from the
back. -/
def Pair.lasting (d : Direction) (p : Pair α) : List α :=
  match d with
  | .front => p.left
  | .back => p.right

/-- The other run. -/
def Pair.passing (d : Direction) (p : Pair α) : List α :=
  match d with
  | .front => p.right
  | .back => p.left

/-- Two runs in order, of which the one that lasts ends with the element that comes last of all. -/
structure Pair.Ordered (d : Direction) (le : α → α → Prop) (p : Pair α) : Prop where
  left : p.left.Pairwise (d.along le)
  right : p.right.Pairwise (d.along le)
  last : ∀ z ∈ (p.lasting d).getLast?, ∀ x ∈ p.passing d, d.along le x z

/-- `Takes R p taken p'`: of the runs `p`, beginnings are taken and `p'` is left; what is taken is in
order and comes before what is left. -/
structure Takes (R : α → α → Prop) (p : Pair α) (taken : List α) (p' : Pair α) : Prop where
  ordered : taken.Pairwise R
  before : ∀ x ∈ taken, ∀ y ∈ p'.elements, R x y
  taken_subset : taken ⊆ p.elements
  left : p'.left <:+ p.left
  right : p'.right <:+ p.right

namespace Takes

variable {p p' p'' : Pair α} {taken taken' : List α}

theorem nil (p : Pair α) : Takes R p [] p where
  ordered := .nil
  before := by simp
  taken_subset := List.nil_subset _
  left := List.suffix_refl _
  right := List.suffix_refl _

theorem elements_subset (h : Takes R p taken p') : p'.elements ⊆ p.elements := by
  intro x hx
  rcases List.mem_append.mp hx with hx | hx
  · exact List.mem_append_left _ (h.left.subset hx)
  · exact List.mem_append_right _ (h.right.subset hx)

/-- One after the other. -/
theorem append (h : Takes R p taken p') (h' : Takes R p' taken' p'') :
    Takes R p (taken ++ taken') p'' where
  ordered := List.pairwise_append.mpr
    ⟨h.ordered, h'.ordered, fun x hx y hy => h.before x hx y (h'.taken_subset hy)⟩
  before := by
    intro x hx y hy
    rcases List.mem_append.mp hx with hx | hx
    · exact h.before x hx y (h'.elements_subset hy)
    · exact h'.before x hx y hy
  taken_subset := List.append_subset.mpr
    ⟨h.taken_subset, List.Subset.trans h'.taken_subset h.elements_subset⟩
  left := h'.left.trans h.left
  right := h'.right.trans h.right

/-- A beginning of the left run that comes before the right run. -/
theorem takeLeft {left right : List α} (hleft : left.Pairwise R) (n : Nat)
    (h : ∀ x ∈ left.take n, ∀ y ∈ right, R x y) :
    Takes R ⟨left, right⟩ (left.take n) ⟨left.drop n, right⟩ where
  ordered := hleft.sublist (List.take_sublist n left)
  before := by
    intro x hx y hy
    rcases List.mem_append.mp hy with hy | hy
    · rw [← List.take_append_drop n left] at hleft
      exact (List.pairwise_append.mp hleft).2.2 x hx y hy
    · exact h x hx y hy
  taken_subset := fun x hx => List.mem_append_left _ (List.mem_of_mem_take hx)
  left := List.drop_suffix n left
  right := List.suffix_refl _

/-- A beginning of the right run that comes before the left run. -/
theorem takeRight {left right : List α} (hright : right.Pairwise R) (n : Nat)
    (h : ∀ y ∈ right.take n, ∀ x ∈ left, R y x) :
    Takes R ⟨left, right⟩ (right.take n) ⟨left, right.drop n⟩ where
  ordered := hright.sublist (List.take_sublist n right)
  before := by
    intro y hy x hx
    rcases List.mem_append.mp hx with hx | hx
    · exact h y hy x hx
    · rw [← List.take_append_drop n right] at hright
      exact (List.pairwise_append.mp hright).2.2 y hy x hx
  taken_subset := fun x hx => List.mem_append_right _ (List.mem_of_mem_take hx)
  left := List.suffix_refl _
  right := List.drop_suffix n right

/-- The first element of the left run, if it comes before the right run. -/
theorem headLeft {x : α} {left right : List α} (hleft : (x :: left).Pairwise R)
    (h : ∀ y ∈ right, R x y) : Takes R ⟨x :: left, right⟩ [x] ⟨left, right⟩ :=
  takeLeft hleft 1 (by simpa using h)

/-- The first element of the right run, if it comes before the left run. -/
theorem headRight {y : α} {left right : List α} (hright : (y :: right).Pairwise R)
    (h : ∀ x ∈ left, R y x) : Takes R ⟨left, y :: right⟩ [y] ⟨left, right⟩ :=
  takeRight hright 1 (by simpa using h)

end Takes

/-- The last element of an end of a list is that of the list. -/
theorem mem_getLast?_of_suffix {xs ys : List α} (h : xs <:+ ys) {z : α} (hz : z ∈ xs.getLast?) :
    z ∈ ys.getLast? := by
  obtain ⟨front, rfl⟩ := h
  rw [Option.mem_def] at hz ⊢
  rw [List.getLast?_append, hz]
  rfl

/-- The last element of a list in order comes behind all others. -/
theorem eq_or_rel_of_mem_getLast? {items : List α} (hitems : items.Pairwise R) {x z : α}
    (hz : z ∈ items.getLast?) (hx : x ∈ items) : x = z ∨ R x z := by
  obtain ⟨front, rfl⟩ := List.getLast?_eq_some_iff.mp hz
  rcases List.mem_append.mp hx with hx | hx
  · exact Or.inr ((List.pairwise_append.mp hitems).2.2 x hx z (List.mem_singleton_self z))
  · exact Or.inl (List.mem_singleton.mp hx)

/-- What is left of runs in order is in order. -/
theorem Pair.Ordered.of_takes {d : Direction} {p p' : Pair α} {taken : List α}
    (hp : p.Ordered d le) (h : Takes (d.along le) p taken p') : p'.Ordered d le where
  left := hp.left.sublist h.left.sublist
  right := hp.right.sublist h.right.sublist
  last := by
    intro z hz x hx
    cases d with
    | front => exact hp.last z (mem_getLast?_of_suffix h.left hz) x (h.right.subset hx)
    | back => exact hp.last z (mem_getLast?_of_suffix h.right hz) x (h.left.subset hx)

/-! ### Stretches -/

section Merges

variable (hbefore : Follows before P le) {d : Direction}

include hbefore

theorem takes_of_secondStretch {first : List α} {y : α} {p₀ p : Pair α} {r : Round α}
    (hfirst : Takes (d.along le) p₀ (first ++ [y]) p) (hp : p.Ordered d le)
    (hP : ∀ x ∈ p.elements, P x) (h : secondStretch d before first y p = .ok r) :
    Takes (d.along le) p₀ r.taken r.remaining := by
  unfold secondStretch at h
  split at h
  · cases h
    exact hfirst
  · rename_i x left right
    have hx : P x := hP x (by simp [Pair.elements])
    split at h
    · cases h
    · rename_i n hn
      -- the stretch ends with the last element of the right run that comes before `x`
      have hdivides : Divides (d.along le) x right n := by
        refine divides_of_countLeading (hbefore.along_trans d) hp.right ?_ hn
        intro z hz
        simp only [map_not_eq_ok_iff]
        have := hbefore.along_of_leftFirst d hx (hP z (by simp [Pair.elements, hz]))
        exact ⟨this.2, this.1⟩
      have hstretch : Takes (d.along le) ⟨x :: left, right⟩ (right.take n) ⟨x :: left, right.drop n⟩ := by
        refine .takeRight hp.right n fun z hz => ?_
        exact forall_mem_cons_of_rel (hbefore.along_trans d) hp.left (hdivides.take z hz)
      split at h
      · cases h
        simpa using hfirst.append hstretch
      · cases h
        -- and `x` itself comes before what is left of the right run
        have hnext : Takes (d.along le) ⟨x :: left, right.drop n⟩ [x] ⟨left, right.drop n⟩ :=
          .headLeft hp.left hdivides.drop
        simpa using hfirst.append (hstretch.append hnext)

theorem takes_of_takeStretches {p : Pair α} {r : Round α} (hp : p.Ordered d le)
    (hP : ∀ x ∈ p.elements, P x) (h : takeStretches d before p = .ok r) :
    Takes (d.along le) p r.taken r.remaining := by
  unfold takeStretches at h
  split at h
  · cases h
    exact .nil _
  · rename_i left y right
    have hy : P y := hP y (by simp [Pair.elements])
    split at h
    · cases h
    · rename_i n hn
      have hdivides : Divides (d.along le) y left n := by
        refine divides_of_countLeading (hbefore.along_trans d) hp.left ?_ hn
        intro x hx
        exact hbefore.along_of_leftFirst d (hP x (by simp [Pair.elements, hx])) hy
      have hstretch : Takes (d.along le) ⟨left, y :: right⟩ (left.take n) ⟨left.drop n, y :: right⟩ := by
        refine .takeLeft hp.left n fun x hx => ?_
        exact forall_mem_cons_of_rel (hbefore.along_trans d) hp.right (hdivides.take x hx)
      have hnext : Takes (d.along le) ⟨left.drop n, y :: right⟩ [y] ⟨left.drop n, right⟩ :=
        .headRight hp.right hdivides.drop
      have hboth := hstretch.append hnext
      split at h
      · cases h
        exact hstretch
      · split at h
        · cases h
          exact hboth
        · exact takes_of_secondStretch hbefore hboth (hp.of_takes hboth)
            (fun x hx => hP x (hboth.elements_subset hx)) h

/-! ### Steps and runs -/

/-- A step of a merge takes what comes first. -/
theorem Merging.takes_of_step {m m' : Merging α} {taken : List α} (hm : m.pair.Ordered d le)
    (hP : ∀ x ∈ m.pair.elements, P x) (h : m.step d before = .ok (taken, m')) :
    Takes (d.along le) m.pair taken m'.pair := by
  unfold step at h
  split at h
  · rename_i x left y right l r threshold
    have hxy := hbefore.along_of_leftFirst d (hP x (by simp [Pair.elements]))
      (hP y (by simp [Pair.elements]))
    split at h
    · cases h
    · rename_i hx
      cases h
      exact .headLeft hm.left (forall_mem_cons_of_rel (hbefore.along_trans d) hm.right (hxy.1 hx))
    · rename_i hy
      cases h
      exact .headRight hm.right (forall_mem_cons_of_rel (hbefore.along_trans d) hm.left (hxy.2 hy))
  · split at h
    · cases h
    · rename_i r hr
      cases h
      rw [pair_afterRound]
      exact takes_of_takeStretches hbefore hm hP hr
  · cases h
    exact .nil _

omit hbefore in
/-- What needs no comparison any more is in order. -/
theorem Pair.Ordered.pairwise_rest {p : Pair α} {rest : List α} (hp : p.Ordered d le)
    (h : p.rest? d = some rest) : rest.Pairwise (d.along le) := by
  have happend : ∀ {items : List α} {z : α}, items.Pairwise (d.along le) →
      (∀ x ∈ items, d.along le x z) → (items ++ [z]).Pairwise (d.along le) := by
    intro items z hitems hz
    exact List.pairwise_append.mpr ⟨hitems, List.pairwise_singleton _ _, by simpa using hz⟩
  unfold rest? at h
  split at h
  · cases h
    exact hp.left
  · cases h
    exact hp.right
  · rename_i hleft _
    cases h
    exact happend hp.right (hp.last _ (by simp [lasting, hleft]))
  · rename_i hright _
    cases h
    exact happend hp.left (hp.last _ (by simp [lasting, hright]))
  · cases h

/-- **A merge of two runs in order gives its elements in order.** -/
theorem Merging.pairwise_of_run {m : Merging α} {items : List α} {threshold : Nat}
    (hm : m.pair.Ordered d le) (hP : ∀ x ∈ m.pair.elements, P x)
    (h : m.run d before = .ok (items, threshold)) : items.Pairwise (d.along le) := by
  fun_induction Merging.run d before m generalizing items threshold with
  | case1 m rest hrest =>
      cases h
      exact hm.pairwise_rest hrest
  | case2 => cases h
  | case3 => cases h
  | case4 m hrest taken m' hstep rest threshold' hrun ih =>
      cases h
      have htakes := takes_of_step hbefore hm hP hstep
      have hafter := ih (hm.of_takes htakes) (fun x hx => hP x (htakes.elements_subset hx)) hrun
      have hperm := perm_of_run hrun
      exact List.pairwise_append.mpr
        ⟨htakes.ordered, hafter, fun x hx y hy => htakes.before x hx y (hperm.mem_iff.mp hy)⟩

/-! ### Whole merges -/

/-- An element in front of others that come behind it, from a merge that gives these. -/
theorem pairwise_of_first_of_run {p : Pair α} {first items : List α} {threshold threshold' : Nat}
    (hp : p.Ordered d le) (hP : ∀ x ∈ p.elements, P x) (hlength : first.length ≤ 1)
    (hfirst : ∀ x ∈ first, ∀ y ∈ p.elements, d.along le x y)
    (h : Merging.run d before ⟨p, .singly 0 0, threshold⟩ = .ok (items, threshold')) :
    (first ++ items).Pairwise (d.along le) := by
  have hperm := Merging.perm_of_run h
  refine List.pairwise_append.mpr ⟨?_, Merging.pairwise_of_run hbefore hp hP h, ?_⟩
  · match first, hlength with
    | [], _ => exact .nil
    | [x], _ => exact List.pairwise_singleton _ _
  · intro x hx y hy
    exact hfirst x hx y (hperm.mem_iff.mp hy)

theorem pairwise_of_interleave {threshold threshold' : Nat} {left right items : List α}
    (hleft : left.Pairwise le) (hright : right.Pairwise le) (hPleft : ∀ x ∈ left, P x)
    (hPright : ∀ x ∈ right, P x) (hfirst : ∀ y ∈ right.head?, ∀ x ∈ left, le y x)
    (hlast : ∀ z ∈ left.getLast?, ∀ y ∈ right, le y z)
    (h : interleave before threshold left right = .ok (items, threshold')) :
    items.Pairwise le := by
  unfold interleave at h
  simp only [bind, Except.bind, pure, Except.pure] at h
  split at h
  · split at h
    · cases h
    · rename_i merged hrun
      obtain ⟨rest, threshold''⟩ := merged
      cases h
      refine pairwise_of_first_of_run hbefore (d := .front) ?_ ?_ (List.length_take_le 1 right) ?_ hrun
      · exact ⟨hleft, hright.tail, fun z hz y hy => hlast z hz y (List.mem_of_mem_tail hy)⟩
      · intro x hx
        rcases List.mem_append.mp hx with hx | hx
        · exact hPleft x hx
        · exact hPright x (List.mem_of_mem_tail hx)
      · intro y hy x hx
        cases right with
        | nil => simp at hy
        | cons y' right =>
            obtain rfl : y = y' := by simpa using hy
            rcases List.mem_append.mp hx with hx | hx
            · exact hfirst y rfl x hx
            · exact List.rel_of_pairwise_cons hright hx
  · split at h
    · cases h
    · rename_i merged hrun
      obtain ⟨rest, threshold''⟩ := merged
      cases h
      -- from the back everything is the other way round
      have hleft' : left.reverse.Pairwise (Direction.back.along le) := List.pairwise_reverse.mpr hleft
      have hright' : right.reverse.Pairwise (Direction.back.along le) :=
        List.pairwise_reverse.mpr hright
      have hfront : (left.reverse.take 1 ++ rest).Pairwise (Direction.back.along le) := by
        refine pairwise_of_first_of_run hbefore ?_ ?_ (List.length_take_le 1 _) ?_ hrun
        · refine ⟨hleft'.tail, hright', fun y hy x hx => ?_⟩
          rw [Pair.lasting, List.getLast?_reverse] at hy
          exact hfirst y hy x (List.mem_reverse.mp (List.mem_of_mem_tail hx))
        · intro x hx
          rcases List.mem_append.mp hx with hx | hx
          · exact hPleft x (List.mem_reverse.mp (List.mem_of_mem_tail hx))
          · exact hPright x (List.mem_reverse.mp hx)
        · intro z hz x hx
          rw [← List.head?_reverse] at hlast
          cases hl : left.reverse with
          | nil => simp [hl] at hz
          | cons z' left' =>
              rw [hl] at hz hx hleft' hlast
              obtain rfl : z = z' := by simpa using hz
              rcases List.mem_append.mp hx with hx | hx
              · exact List.rel_of_pairwise_cons hleft' hx
              · exact hlast z rfl x (List.mem_reverse.mp hx)
      exact List.pairwise_reverse.mpr hfront

omit hbefore in
/-- The inner parts of two runs may be replaced by what they merge to. -/
theorem pairwise_around {outer outer' inner inner' merged : List α}
    (hleft : (outer ++ inner).Pairwise le) (hright : (inner' ++ outer').Pairwise le)
    (houter : ∀ x ∈ outer, ∀ y ∈ inner' ++ outer', le x y)
    (hinner : ∀ x ∈ inner, ∀ y ∈ outer', le x y) (hmerged : merged.Pairwise le)
    (hperm : merged.Perm (inner ++ inner')) : (outer ++ merged ++ outer').Pairwise le := by
  rw [List.pairwise_append] at hleft hright
  rw [List.append_assoc]
  refine List.pairwise_append.mpr ⟨hleft.1, List.pairwise_append.mpr ⟨hmerged, hright.2.1, ?_⟩, ?_⟩
  · intro x hx y hy
    rcases List.mem_append.mp (hperm.mem_iff.mp hx) with hx | hx
    · exact hinner x hx y hy
    · exact hright.2.2 x hx y hy
  · intro x hx y hy
    rcases List.mem_append.mp hy with hy | hy
    · rcases List.mem_append.mp (hperm.mem_iff.mp hy) with hy | hy
      · exact hleft.2.2 x hx y hy
      · exact houter x hx y (List.mem_append_left _ hy)
    · exact houter x hx y (List.mem_append_right _ hy)

/-- What is in its place at the beginning of the left run comes before the right run. -/
theorem divides_left {left : List α} {y : α} {n : Nat} (hleft : left.Pairwise le)
    (hPleft : ∀ x ∈ left, P x) (hy : P y)
    (h : countLeading .front (fun x => (before y x).map (!·)) left = .ok n) :
    Divides le y left n := by
  refine divides_of_countLeading hbefore.trans hleft ?_ h
  intro x hx
  simp only [map_not_eq_ok_iff]
  exact ⟨hbefore.of_false hy (hPleft x hx), hbefore.of_true hy (hPleft x hx)⟩

/-- What is in its place at the end of the right run comes behind the left run. -/
theorem divides_right {right : List α} {z : α} {k : Nat} (hright : right.Pairwise le)
    (hPright : ∀ x ∈ right, P x) (hz : P z)
    (h : countLeading .back (fun x => (before x z).map (!·)) right.reverse = .ok k) :
    (∀ x ∈ right.take (right.length - k), le x z) ∧ ∀ x ∈ right.drop (right.length - k), le z x := by
  have hdivides : Divides (Direction.back.along le) z right.reverse k := by
    refine divides_of_countLeading (hbefore.along_trans .back) (List.pairwise_reverse.mpr hright) ?_ h
    intro x hx
    simp only [map_not_eq_ok_iff]
    have hx : P x := hPright x (List.mem_reverse.mp hx)
    exact ⟨hbefore.of_false hx hz, hbefore.of_true hx hz⟩
  constructor
  · intro x hx
    refine hdivides.drop x ?_
    rwa [List.drop_reverse, List.mem_reverse]
  · intro x hx
    refine hdivides.take x ?_
    rwa [List.take_reverse, List.mem_reverse]

/-- What comes behind the last element of a list in order comes behind all of it. -/
theorem rel_of_rel_getLast? {items : List α} {z w : α} (hitems : items.Pairwise le)
    (hz : z ∈ items.getLast?) (hzw : le z w) : ∀ x ∈ items, le x w := by
  intro x hx
  rcases eq_or_rel_of_mem_getLast? hitems hz hx with rfl | hxz
  · exact hzw
  · exact hbefore.trans x z w hxz hzw

/-- **Merging two runs in order gives their elements in order.** -/
theorem pairwise_of_merge {threshold threshold' : Nat} {left right items : List α}
    (hleft : left.Pairwise le) (hright : right.Pairwise le) (hPleft : ∀ x ∈ left, P x)
    (hPright : ∀ x ∈ right, P x)
    (h : merge before threshold left right = .ok (items, threshold')) : items.Pairwise le := by
  cases right with
  | nil =>
      cases h
      exact hleft
  | cons y right =>
      simp only [merge, bind, Except.bind, pure, Except.pure] at h
      split at h
      · cases h
      · rename_i n hn
        have hdivides := divides_left hbefore hleft hPleft (hPright y List.mem_cons_self) hn
        have htake : ∀ x ∈ left.take n, ∀ z ∈ y :: right, le x z := fun x hx =>
          forall_mem_cons_of_rel hbefore.trans hright (hdivides.take x hx)
        split at h
        · -- the whole left run is in its place
          rename_i hnone
          cases h
          have hall : left.take n = left := by
            apply List.take_of_length_le
            rw [← List.drop_eq_nil_iff, ← List.getLast?_eq_none_iff]
            exact hnone
          rw [hall] at htake
          exact List.pairwise_append.mpr ⟨hleft, hright, htake⟩
        · rename_i z hz
          have hrest : (left.drop n).Pairwise le := hleft.sublist (List.drop_sublist n left)
          split at h
          · cases h
          · rename_i k hk
            have hPz : P z := hPleft z (List.mem_of_mem_drop (List.mem_of_getLast? hz))
            obtain ⟨hinner, hbehind⟩ := divides_right hbefore hright hPright hPz hk
            have hsplit := List.take_append_drop ((y :: right).length - k) (y :: right)
            have haround {merged : List α} (hmerged : merged.Pairwise le)
                (hperm : merged.Perm (left.drop n ++ (y :: right).take ((y :: right).length - k))) :
                (left.take n ++ merged ++ (y :: right).drop ((y :: right).length - k)).Pairwise le :=
              pairwise_around (by rwa [List.take_append_drop n left]) (by rwa [hsplit])
                (by rwa [hsplit])
                (fun x hx w hw => rel_of_rel_getLast? hbefore hrest hz (hbehind w hw) x hx) hmerged hperm
            split at h
            · -- the whole right run is in its place
              rename_i hempty
              cases h
              have hnone : (y :: right).take ((y :: right).length - k) = [] := by simpa using hempty
              have hall := haround hrest (by rw [hnone, List.append_nil])
              rwa [List.take_append_drop, ← List.nil_append (List.drop _ (y :: right)), ← hnone,
                hsplit] at hall
            · split at h
              · cases h
              · rename_i merged hmerged
                obtain ⟨inner, threshold''⟩ := merged
                cases h
                refine haround ?_ (perm_of_interleave hmerged)
                refine pairwise_of_interleave hbefore hrest (hright.sublist (List.take_sublist _ _))
                  ?_ ?_ ?_ ?_ hmerged
                · exact fun x hx => hPleft x (List.mem_of_mem_drop hx)
                · exact fun x hx => hPright x (List.mem_of_mem_take hx)
                · intro x hx
                  have hhead : x ∈ (y :: right).head? := by
                    rw [List.head?_take] at hx
                    split at hx
                    · cases hx
                    · exact hx
                  obtain rfl : y = x := by simpa using hhead
                  exact hdivides.drop
                · intro w hw x hx
                  obtain rfl : z = w := by simpa [hz] using hw
                  exact hinner x hx

end Merges

/-! ## Runs -/

section Runs

variable (hbefore : Follows before P le)

include hbefore

/-- A run of descending elements is in order from the back. -/
theorem pairwise_of_takeRun {descending : Bool} {last : α} {items run rest : List α} (hlast : P last)
    (hP : ∀ x ∈ items, P x) (h : takeRun before descending last items = .ok (run, rest)) :
    (last :: run).Pairwise ((if descending then Direction.back else .front).along le) := by
  induction items generalizing last run with
  | nil =>
      cases h
      exact List.pairwise_singleton _ _
  | cons x items ih =>
      rw [List.forall_mem_cons] at hP
      unfold takeRun at h
      cases hb : before x last with
      | error e => simp [hb, bind, Except.bind] at h
      | ok b =>
          simp only [hb, bind, Except.bind] at h
          split at h
          · rename_i hsame
            subst hsame
            cases hr : takeRun before b x items with
            | error e => simp [hr] at h
            | ok found =>
                obtain ⟨run', rest'⟩ := found
                simp only [hr, pure, Except.pure] at h
                cases h
                have hrun := ih hP.1 hP.2 hr
                have hx : (if b then Direction.back else .front).along le last x := by
                  cases b with
                  | true => exact hbefore.of_true hP.1 hlast hb
                  | false => exact hbefore.of_false hP.1 hlast hb
                exact List.pairwise_cons.mpr
                  ⟨forall_mem_cons_of_rel (hbefore.along_trans _) hrun hx, hrun⟩
          · cases h
            exact List.pairwise_singleton _ _

theorem pairwise_of_leadingRun {items run rest : List α} (hP : ∀ x ∈ items, P x)
    (h : leadingRun before items = .ok (run, rest)) : run.Pairwise le := by
  match items with
  | [] =>
      cases h
      exact .nil
  | [x] =>
      cases h
      exact List.pairwise_singleton _ _
  | x :: y :: items =>
      -- the first two elements are a run of two, and decide which way it goes on
      have htwo : ∀ {descending : Bool} {run' rest'}, before y x = .ok descending →
          takeRun before descending y items = .ok (run', rest') →
          takeRun before descending x (y :: items) = .ok (y :: run', rest') := by
        intro descending run' rest' hb hr
        simp [takeRun, hb, hr, bind, Except.bind, pure, Except.pure]
      unfold leadingRun at h
      cases hb : before y x with
      | error e => simp [hb, bind, Except.bind] at h
      | ok descending =>
          simp only [hb, bind, Except.bind] at h
          cases hr : takeRun before descending y items with
          | error e => simp [hr] at h
          | ok found =>
              obtain ⟨run', rest'⟩ := found
              simp only [hr, pure, Except.pure] at h
              cases h
              rw [List.forall_mem_cons] at hP
              have hrun := pairwise_of_takeRun hbefore hP.1 hP.2 (htwo hb hr)
              cases descending with
              | false => exact hrun
              | true => exact List.pairwise_reverse.mpr hrun

theorem pairwise_of_insertOrdered {x : α} {run run' : List α} (hx : P x) (hP : ∀ y ∈ run, P y)
    (hrun : run.Pairwise le) (h : insertOrdered before x run = .ok run') : run'.Pairwise le := by
  unfold insertOrdered at h
  simp only [bind, Except.bind, pure, Except.pure] at h
  split at h
  · cases h
  · rename_i n hn
    cases h
    have hdivides : Divides le x run n := by
      refine divides_of_bisect hbefore.trans hrun ?_ (Nat.zero_le _) (by simp) (by simp) hn
      intro y hy
      simp only [map_not_eq_ok_iff]
      exact ⟨hbefore.of_false hx (hP y hy), hbefore.of_true hx (hP y hy)⟩
    have hsplit : (run.take n ++ run.drop n).Pairwise le := by rwa [List.take_append_drop]
    rw [List.pairwise_append] at hsplit
    refine List.pairwise_append.mpr
      ⟨hsplit.1, List.pairwise_cons.mpr ⟨hdivides.drop, hsplit.2.1⟩, fun y hy => ?_⟩
    rw [List.forall_mem_cons]
    exact ⟨hdivides.take y hy, hsplit.2.2 y hy⟩

theorem pairwise_of_insertAll {run items run' : List α} (hP : ∀ x ∈ run, P x)
    (hitems : ∀ x ∈ items, P x) (hrun : run.Pairwise le)
    (h : insertAll before run items = .ok run') : run'.Pairwise le := by
  induction items generalizing run with
  | nil =>
      cases h
      exact hrun
  | cons x items ih =>
      rw [List.forall_mem_cons] at hitems
      unfold insertAll at h
      simp only [bind, Except.bind] at h
      split at h
      · cases h
      · rename_i run₁ hr
        refine ih ?_ hitems.2 (pairwise_of_insertOrdered hbefore hitems.1 hP hrun hr) h
        intro y hy
        rcases List.mem_cons.mp ((perm_of_insertOrdered hr).mem_iff.mp hy) with rfl | hy
        · exact hitems.1
        · exact hP y hy

/-- **The first run of a list is in order.** -/
theorem pairwise_of_firstRun {length : Nat} {items run rest : List α} (hP : ∀ x ∈ items, P x)
    (h : firstRun before length items = .ok (run, rest)) : run.Pairwise le := by
  unfold firstRun at h
  simp only [bind, Except.bind, pure, Except.pure] at h
  split at h
  · cases h
  · rename_i found hf
    obtain ⟨run₁, rest₁⟩ := found
    have hperm := perm_of_leadingRun hf
    split at h
    · cases h
    · rename_i run₂ hi
      cases h
      refine pairwise_of_insertAll hbefore ?_ ?_ (pairwise_of_leadingRun hbefore hP hf) hi
      · exact fun x hx => hP x (hperm.mem_iff.mp (List.mem_append_left _ hx))
      · exact fun x hx =>
          hP x (hperm.mem_iff.mp (List.mem_append_right _ (List.mem_of_mem_take hx)))

end Runs

/-! ## Waiting runs -/

/-- Whether all waiting runs are in order. -/
def OrderedRuns (le : α → α → Prop) (runs : List (WaitingRun α)) : Prop :=
  ∀ run ∈ runs, run.items.Pairwise le

section WaitingRuns

variable (hbefore : Follows before P le)

include hbefore

/-- The last two runs in order may be replaced by what they merge to. -/
theorem pairwise_of_merge_last {threshold threshold' depth : Nat} {right left : WaitingRun α}
    {runs : List (WaitingRun α)} {items : List α} (hruns : OrderedRuns le (right :: left :: runs))
    (hP : ∀ x ∈ elementsOfRuns (right :: left :: runs), P x)
    (h : merge before threshold left.items right.items = .ok (items, threshold')) :
    OrderedRuns le (⟨depth, items⟩ :: runs) := by
  simp only [OrderedRuns, List.forall_mem_cons] at hruns
  have hmerged : items.Pairwise le := by
    refine pairwise_of_merge hbefore hruns.2.1 hruns.1 ?_ ?_ h
    · exact fun x hx => hP x (by simp [elementsOfRuns, hx])
    · exact fun x hx => hP x (by simp [elementsOfRuns, hx])
  exact List.forall_mem_cons.mpr ⟨hmerged, hruns.2.2⟩

theorem orderedRuns_of_mergeDeeper {depth threshold threshold' : Nat}
    {runs runs' : List (WaitingRun α)} (hruns : OrderedRuns le runs)
    (hP : ∀ x ∈ elementsOfRuns runs, P x)
    (h : mergeDeeper before depth threshold runs = .ok (runs', threshold')) :
    OrderedRuns le runs' := by
  fun_induction mergeDeeper before depth threshold runs with
  | case1 threshold right left runs hdeep ih =>
      simp only [bind, Except.bind] at h
      split at h
      · cases h
      · rename_i merged hmerged
        exact ih _ _ (pairwise_of_merge_last hbefore hruns hP hmerged)
          (fun x hx => hP x ((perm_merged (perm_of_merge hmerged)).mem_iff.mp hx)) h
  | case2 threshold right left runs hdeep =>
      cases h
      exact hruns
  | case3 =>
      cases h
      exact hruns

theorem orderedRuns_of_pushRun {length threshold threshold' : Nat} {run : List α}
    {runs runs' : List (WaitingRun α)} (hrun : run.Pairwise le) (hruns : OrderedRuns le runs)
    (hP : ∀ x ∈ elementsOfRuns runs, P x)
    (h : pushRun before length threshold run runs = .ok (runs', threshold')) :
    OrderedRuns le runs' := by
  cases runs with
  | nil =>
      cases h
      exact List.forall_mem_singleton.mpr hrun
  | cons last runs =>
      simp only [pushRun, bind, Except.bind, pure, Except.pure] at h
      split at h
      · cases h
      · rename_i merged hmerged
        cases h
        exact List.forall_mem_cons.mpr ⟨hrun, orderedRuns_of_mergeDeeper hbefore hruns hP hmerged⟩

theorem pairwise_of_mergeAll {threshold : Nat} {runs : List (WaitingRun α)} {items : List α}
    (hruns : OrderedRuns le runs) (hP : ∀ x ∈ elementsOfRuns runs, P x)
    (h : mergeAll before threshold runs = .ok items) : items.Pairwise le := by
  fun_induction mergeAll before threshold runs with
  | case1 =>
      cases h
      exact .nil
  | case2 _ run =>
      cases h
      exact hruns run List.mem_cons_self
  | case3 threshold right left =>
      simp only [bind, Except.bind, pure, Except.pure] at h
      split at h
      · cases h
      · rename_i merged hmerged
        cases h
        have hlast : OrderedRuns le [⟨left.depth, merged.1⟩] :=
          pairwise_of_merge_last hbefore hruns hP hmerged
        exact hlast _ List.mem_cons_self
  | case4 threshold last right left runs hlonger ih =>
      simp only [bind, Except.bind] at h
      split at h
      · cases h
      · rename_i merged hmerged
        -- the last run waits until the two before it are merged
        have hruns' := List.forall_mem_cons.mp hruns
        have hP' : ∀ x ∈ elementsOfRuns (right :: left :: runs), P x :=
          fun x hx => hP x (List.mem_append_right last.items hx)
        refine ih _ _ (List.forall_mem_cons.mpr ⟨hruns'.1,
          pairwise_of_merge_last hbefore hruns'.2 hP' hmerged⟩) ?_ h
        intro x hx
        rcases List.mem_append.mp hx with hx | hx
        · exact hP x (List.mem_append_left _ hx)
        · exact hP' x ((perm_merged (perm_of_merge hmerged)).mem_iff.mp hx)
  | case5 threshold last right left runs hlonger ih =>
      simp only [bind, Except.bind] at h
      split at h
      · cases h
      · rename_i merged hmerged
        exact ih _ _ (pairwise_of_merge_last hbefore hruns hP hmerged)
          (fun x hx => hP x ((perm_merged (perm_of_merge hmerged)).mem_iff.mp hx)) h

/-! ## The sort -/

theorem pairwise_of_sortBehind {length threshold : Nat} {waiting : List (WaitingRun α)}
    {items sorted : List α} (hwaiting : OrderedRuns le waiting)
    (hPwaiting : ∀ x ∈ elementsOfRuns waiting, P x) (hP : ∀ x ∈ items, P x)
    (h : sortBehind before length threshold waiting items = .ok sorted) : sorted.Pairwise le := by
  fun_induction sortBehind before length threshold waiting items with
  | case1 threshold waiting => exact pairwise_of_mergeAll hbefore hwaiting hPwaiting h
  | case2 => cases h
  | case3 => cases h
  | case4 threshold waiting x items run rest hrun waiting' threshold' hpush ih =>
      have hfirst := perm_of_firstRun hrun
      have hrunP : ∀ y ∈ run, P y := fun y hy => hP y (hfirst.mem_iff.mp (List.mem_append_left rest hy))
      refine ih ?_ ?_ (fun y hy => hP y (hfirst.mem_iff.mp (List.mem_append_right run hy))) h
      · exact orderedRuns_of_pushRun hbefore (pairwise_of_firstRun hbefore hP hrun) hwaiting
          hPwaiting hpush
      · intro y hy
        rcases List.mem_append.mp ((perm_of_pushRun hpush).mem_iff.mp hy) with hy | hy
        · exact hrunP y hy
        · exact hPwaiting y hy

/-- **Sorting puts in order** what can be compared. -/
theorem pairwise_of_sort {items sorted : List α} (hP : ∀ x ∈ items, P x)
    (h : sort before items = .ok sorted) : sorted.Pairwise le :=
  pairwise_of_sortBehind hbefore (by simp [OrderedRuns]) (by simp [elementsOfRuns]) hP h

end WaitingRuns

end ContentTypes.Sorting
