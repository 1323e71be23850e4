import ContentTypes.KeyedList

/-!
# Merged pairs

Merging looks at keys only (`merge_map`), and leaves the first of each, in their order (`keys_merge`).
-/

set_option autoImplicit false

namespace ContentTypes.KeyedList

variable {κ β γ : Type}

/-! ## Replaced values -/

theorem upsert_map (same : κ → κ → Bool) (f : β → γ) (key : κ) (value : β) (pairs : List (κ × β)) :
    upsert same key (f value) (pairs.map (Prod.map id f)) =
      (upsert same key value pairs).map (Prod.map id f) := by
  induction pairs with
  | nil => rfl
  | cons pair rest ih =>
      obtain ⟨k, v⟩ := pair
      rw [List.map_cons, Prod.map, upsert, upsert]
      by_cases h : same k key = true
      · rw [id, if_pos h, if_pos h]
        rfl
      · rw [id, if_neg h, if_neg h, List.map_cons, ih]
        rfl

theorem update_map (same : κ → κ → Bool) (f : β → γ) (pairs changes : List (κ × β)) :
    update same (pairs.map (Prod.map id f)) (changes.map (Prod.map id f)) =
      (update same pairs changes).map (Prod.map id f) := by
  induction changes generalizing pairs with
  | nil => rfl
  | cons c changes ih =>
      have hupsert := upsert_map same f c.1 c.2 pairs
      show update same (upsert same c.1 (f c.2) (pairs.map (Prod.map id f))) _ = _
      rw [hupsert, ih]
      rfl

/-- Merging looks at keys only. -/
theorem merge_map (same : κ → κ → Bool) (f : β → γ) (pairs : List (κ × β)) :
    merge same (pairs.map (Prod.map id f)) = (merge same pairs).map (Prod.map id f) :=
  update_map same f [] pairs

/-! ## Keys -/

/-- Erasing repeats looks at comparisons of what is in the list only. -/
theorem eraseDupsBy_congr {r r' : κ → κ → Bool} {ks : List κ}
    (h : ∀ k ∈ ks, ∀ k' ∈ ks, r k k' = r' k k') : ks.eraseDupsBy r = ks.eraseDupsBy r' := by
  induction hn : ks.length using Nat.strongRecOn generalizing ks with
  | _ n ih =>
      cases ks with
      | nil => rfl
      | cons k ks =>
          have hfilter : (ks.filter fun k' => decide (r k' k = false)) =
              ks.filter fun k' => decide (r' k' k = false) := by
            refine List.filter_congr fun k' hk' => ?_
            rw [h k' (List.mem_cons_of_mem _ hk') k List.mem_cons_self]
          have hlt : (ks.filter fun k' => decide (r' k' k = false)).length < n := by
            rw [← hn]
            exact Nat.lt_succ_of_le (List.length_filter_le _ _)
          have hmem {k' : κ} (hk' : k' ∈ ks.filter fun k' => decide (r' k' k = false)) : k' ∈ k :: ks :=
            List.mem_cons_of_mem _ (List.mem_filter.mp hk').1
          rw [List.eraseDupsBy_cons, List.eraseDupsBy_cons, hfilter,
            ih _ hlt (fun k₁ h₁ k₂ h₂ => h k₁ (hmem h₁) k₂ (hmem h₂)) rfl]

/-- Of everything in a list, something is left when repeats are erased: it, or what it repeats. -/
theorem exists_mem_eraseDupsBy {r : κ → κ → Bool} {ks : List κ} {k : κ} (hk : k ∈ ks) :
    ∃ k' ∈ ks.eraseDupsBy r, k = k' ∨ r k k' = true := by
  induction hn : ks.length using Nat.strongRecOn generalizing ks with
  | _ n ih =>
      cases ks with
      | nil => cases hk
      | cons first ks =>
          rw [List.eraseDupsBy_cons]
          rcases List.mem_cons.mp hk with rfl | hk
          · exact ⟨k, List.mem_cons_self, .inl rfl⟩
          · cases hr : r k first with
            | true => exact ⟨first, List.mem_cons_self, .inr hr⟩
            | false =>
                have hlt : (ks.filter fun k' => decide (r k' first = false)).length < n := by
                  rw [← hn]
                  exact Nat.lt_succ_of_le (List.length_filter_le _ _)
                have hmem : k ∈ ks.filter fun k' => decide (r k' first = false) :=
                  List.mem_filter.mpr ⟨hk, by simpa using hr⟩
                obtain ⟨k', hk', hrepeat⟩ := ih _ hlt hmem rfl
                exact ⟨k', List.mem_cons_of_mem _ hk', hrepeat⟩

/-- The keys after a list is updated: those that were there, then the first of each new one. -/
theorem keys_update (same : κ → κ → Bool) (pairs changes : List (κ × β)) :
    (update same pairs changes).map (·.1) = pairs.map (·.1) ++
      ((changes.map (·.1)).filter fun k => !(pairs.map (·.1)).any (same · k)).eraseDupsBy
        fun later earlier => same earlier later := by
  induction changes generalizing pairs with
  | nil => simp [update]
  | cons c changes ih =>
      show (update same (upsert same c.1 c.2 pairs) changes).map (·.1) = _
      rw [ih, List.map_cons, List.filter_cons]
      by_cases hfresh : ∀ p ∈ pairs, same p.1 c.1 = false
      · have hany : (pairs.map (·.1)).any (same · c.1) = false := by simpa using hfresh
        rw [upsert_of_fresh c.2 hfresh, hany, Bool.not_false, if_pos rfl, List.eraseDupsBy_cons,
          List.filter_filter, List.map_append, List.append_assoc]
        simp only [List.map_cons, List.map_nil, List.singleton_append, List.any_append, List.any_cons,
          List.any_nil, Bool.or_false, Bool.not_or, Bool.and_comm, Bool.decide_eq_false]
      · have hany : (pairs.map (·.1)).any (same · c.1) = true := by simpa using hfresh
        have hkeys := (keys_upsert same c.1 c.2 pairs).resolve_right fun h => hfresh h.1
        rw [hkeys, hany, Bool.not_true, if_neg (by simp)]

/-- The keys after a merge: the first of each, in order. -/
theorem keys_merge (same : κ → κ → Bool) (pairs : List (κ × β)) :
    (merge same pairs).map (·.1) =
      (pairs.map (·.1)).eraseDupsBy fun later earlier => same earlier later := by
  rw [merge, keys_update, List.map_nil, List.nil_append, List.filter_eq_self.mpr]
  exact fun k _ => rfl

/-! ## Values -/

/-- What is in a list of different keys after one is set: what was there under other keys, and the new
value. -/
theorem mem_upsert_of_distinct {same : κ → κ → Bool} {key : κ} {value : β} {pairs : List (κ × β)}
    {p : κ × β} (hsame : ∀ k k', same k key = true → same k' key = true → same k k' = true)
    (hpairs : pairs.Pairwise fun p q => same p.1 q.1 = false)
    (h : p ∈ upsert same key value pairs) :
    p ∈ pairs ∧ same p.1 key = false ∨ p.2 = value ∧ (p.1 = key ∨ same p.1 key = true) := by
  induction pairs with
  | nil =>
      obtain rfl := List.mem_singleton.mp h
      exact .inr ⟨rfl, .inl rfl⟩
  | cons first rest ih =>
      obtain ⟨hfirst, hrest⟩ := List.pairwise_cons.mp hpairs
      rw [upsert] at h
      by_cases hk : same first.1 key = true
      · rw [if_pos hk] at h
        rcases List.mem_cons.mp h with rfl | hmem
        · exact .inr ⟨rfl, .inr hk⟩
        · -- another key that is the same would be the same as the first one
          refine .inl ⟨List.mem_cons_of_mem _ hmem, ?_⟩
          cases hp : same p.1 key with
          | false => rfl
          | true =>
              have hdistinct := hfirst p hmem
              rw [hsame _ _ hk hp] at hdistinct
              cases hdistinct
      · rw [if_neg hk] at h
        rcases List.mem_cons.mp h with rfl | hmem
        · exact .inl ⟨List.mem_cons_self, by simpa using hk⟩
        · exact (ih hrest hmem).imp (fun hp => ⟨List.mem_cons_of_mem _ hp.1, hp.2⟩) id

end ContentTypes.KeyedList
