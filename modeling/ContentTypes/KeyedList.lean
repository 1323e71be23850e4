/-!
# Keyed lists

Pairs of a key and a value in the order in which the keys first came. `upsert` sets the value of a
key: in place if the key is there, at the end otherwise. Which keys count as the same is a parameter
of it, since names and member keys are compared differently.
-/

set_option autoImplicit false

namespace ContentTypes.KeyedList

variable {κ β : Type}

/-- Sets the value of `key`. A key that is there keeps its place and its form. -/
def upsert (same : κ → κ → Bool) (key : κ) (value : β) : List (κ × β) → List (κ × β)
  | [] => [(key, value)]
  | (k, v) :: rest =>
      if same k key then (k, value) :: rest else (k, v) :: upsert same key value rest

/-- Sets the values of all the given keys, in order. -/
def update (same : κ → κ → Bool) (pairs changes : List (κ × β)) : List (κ × β) :=
  changes.foldl (fun acc change => upsert same change.1 change.2 acc) pairs

/-- The pairs with the values of repeated keys merged: first place, last value. -/
def merge (same : κ → κ → Bool) (pairs : List (κ × β)) : List (κ × β) := update same [] pairs

/-! ## Looking up -/

/-- Setting a key changes what is found under it and nothing else. -/
theorem lookup_upsert [BEq κ] [LawfulBEq κ] (key k : κ) (value : β) (pairs : List (κ × β)) :
    (upsert (· == ·) key value pairs).lookup k =
      if k == key then some value else pairs.lookup k := by
  induction pairs with
  | nil => cases hk : k == key <;> simp [upsert, List.lookup_cons, hk]
  | cons pair rest ih =>
      obtain ⟨k', v⟩ := pair
      unfold upsert
      by_cases h : k' = key
      · subst h
        cases hk : k == k' <;> simp [List.lookup_cons, hk]
      · have hne : (k' == key) = false := by simpa using h
        rw [hne, if_neg (by simp), List.lookup_cons, List.lookup_cons, ih]
        by_cases hk : k = k'
        · subst hk
          simp [hne]
        · have : (k == k') = false := by simpa using hk
          simp [this]

/-- Taking a key away leaves what is found under every other key. -/
theorem lookup_filter_ne [BEq κ] [LawfulBEq κ] (key k : κ) (pairs : List (κ × β)) :
    (pairs.filter fun e => e.1 != key).lookup k =
      if k == key then none else pairs.lookup k := by
  induction pairs with
  | nil => simp
  | cons pair rest ih =>
      obtain ⟨k', v⟩ := pair
      rw [List.filter_cons, List.lookup_cons]
      by_cases h : k' = key
      · subst h
        cases hk : k == k' <;> simp [ih, hk]
      · have hne : (k' != key) = true := by simpa using h
        simp only [hne, if_true, List.lookup_cons, ih]
        by_cases hk : k = k'
        · subst hk
          simp [h]
        · have : (k == k') = false := by simpa using hk
          simp [this]

/-! ## What is in a list -/

/-- A key that is not there yet goes to the end. -/
theorem upsert_of_fresh {same : κ → κ → Bool} {key : κ} {pairs : List (κ × β)} (value : β)
    (h : ∀ p ∈ pairs, same p.1 key = false) :
    upsert same key value pairs = pairs ++ [(key, value)] := by
  induction pairs with
  | nil => rfl
  | cons pair rest ih =>
      obtain ⟨k, v⟩ := pair
      have hk : same k key = false := h (k, v) List.mem_cons_self
      rw [upsert, hk, if_neg (by simp), ih fun p hp => h p (List.mem_cons_of_mem _ hp)]
      rfl

/-- Keys that are not there yet, and are no two the same, go to the end in their order. -/
theorem update_of_fresh {same : κ → κ → Bool} {pairs changes : List (κ × β)}
    (h : ∀ p ∈ pairs, ∀ c ∈ changes, same p.1 c.1 = false)
    (hc : changes.Pairwise fun p c => same p.1 c.1 = false) :
    update same pairs changes = pairs ++ changes := by
  induction changes generalizing pairs with
  | nil => simp [update]
  | cons c changes ih =>
      obtain ⟨hhead, htail⟩ := List.pairwise_cons.mp hc
      have hfresh := upsert_of_fresh c.2 fun p hp => h p hp c List.mem_cons_self
      show update same (upsert same c.1 c.2 pairs) changes = _
      rw [hfresh, ih _ htail, List.append_assoc]
      · rfl
      · intro p hp c' hc'
        rcases List.mem_append.mp hp with hp | hp
        · exact h p hp c' (List.mem_cons_of_mem _ hc')
        · rw [List.mem_singleton.mp hp]
          exact hhead c' hc'

/-- Pairs of which no two have the same key are not changed by merging. -/
theorem merge_of_fresh {same : κ → κ → Bool} {pairs : List (κ × β)}
    (h : pairs.Pairwise fun p c => same p.1 c.1 = false) : merge same pairs = pairs := by
  rw [merge, update_of_fresh (by simp) h, List.nil_append]

/-- What is in a list after a key is set was there before or has the new value, under the key or one
that is the same. -/
theorem mem_of_mem_upsert {same : κ → κ → Bool} {key : κ} {value : β} {pairs : List (κ × β)}
    {p : κ × β} (h : p ∈ upsert same key value pairs) :
    p ∈ pairs ∨ p.2 = value ∧ (p.1 = key ∨ same p.1 key = true) := by
  induction pairs with
  | nil =>
      rw [upsert, List.mem_singleton] at h
      exact .inr (by simp [h])
  | cons pair rest ih =>
      obtain ⟨k, v⟩ := pair
      unfold upsert at h
      split at h
      · rcases List.mem_cons.mp h with rfl | h
        · exact .inr ⟨rfl, .inr ‹_›⟩
        · exact .inl (List.mem_cons_of_mem _ h)
      · rcases List.mem_cons.mp h with rfl | h
        · exact .inl List.mem_cons_self
        · exact (ih h).imp (List.mem_cons_of_mem _) id

/-- What is in a list after keys are set was there before or has one of the new values. -/
theorem mem_of_mem_update {same : κ → κ → Bool} {pairs changes : List (κ × β)} {p : κ × β}
    (h : p ∈ update same pairs changes) : p ∈ pairs ∨ ∃ c ∈ changes, p.2 = c.2 := by
  induction changes generalizing pairs with
  | nil => exact .inl h
  | cons c changes ih =>
      rcases ih h with h | ⟨c', hc', h⟩
      · rcases mem_of_mem_upsert h with h | ⟨h, -⟩
        · exact .inl h
        · exact .inr ⟨c, List.mem_cons_self, h⟩
      · exact .inr ⟨c', List.mem_cons_of_mem _ hc', h⟩

/-- Setting a key leaves the keys as they are, or adds one that is the same as none of them. -/
theorem keys_upsert (same : κ → κ → Bool) (key : κ) (value : β) (pairs : List (κ × β)) :
    (upsert same key value pairs).map (·.1) = pairs.map (·.1) ∨
      (∀ p ∈ pairs, same p.1 key = false) ∧
        (upsert same key value pairs).map (·.1) = pairs.map (·.1) ++ [key] := by
  by_cases h : ∀ p ∈ pairs, same p.1 key = false
  · right
    refine ⟨h, ?_⟩
    rw [upsert_of_fresh value h, List.map_append]
    rfl
  · left
    induction pairs with
    | nil => exact absurd (by simp) h
    | cons pair rest ih =>
        obtain ⟨k, v⟩ := pair
        unfold upsert
        split
        · rfl
        · rename_i hk
          have hrest : ¬∀ p ∈ rest, same p.1 key = false := by
            intro hrest
            apply h
            intro p hp
            rcases List.mem_cons.mp hp with rfl | hp
            · simpa using hk
            · exact hrest p hp
          rw [List.map_cons, ih hrest]
          rfl

end ContentTypes.KeyedList
