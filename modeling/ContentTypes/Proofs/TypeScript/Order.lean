import ContentTypes.Proofs.Schema.WellFormed
import ContentTypes.Proofs.Sorting.Order
import ContentTypes.TypeScript.Module
import Mathlib.Data.String.Basic

/-!
# Definitions in the order of their names

Names that are texts are ordered by code point, so definitions named by different texts have one order
only: their names ascend strictly (`pairwise_of_sortByName`).

In the maps of a schema that was loaded, no two names are the same key, and each definition is kept
under its name or one that is the same key. Texts are the same key only if they are equal.
-/

set_option autoImplicit false

namespace ContentTypes

/-! ## Keys -/

/-- Whether definitions are kept under their names or what is the same key, each key once. -/
structure Keyed {α : Type} (nameOf : α → Value) (map : List (Value × α)) : Prop where
  distinct : (map.map (·.1)).Pairwise fun key key' => key.sameKey key' = false
  named : ∀ e ∈ map, e.1 = nameOf e.2 ∨ e.1.sameKey (nameOf e.2) = true

/-- Setting a definition under its name leaves the map keyed. -/
theorem Keyed.upsert {α : Type} {nameOf : α → Value} {map : List (Value × α)} (h : Keyed nameOf map)
    (d : α) : Keyed nameOf (KeyedList.upsert Value.sameKey (nameOf d) d map) := by
  constructor
  · rcases KeyedList.keys_upsert Value.sameKey (nameOf d) d map with hkeys | ⟨hfresh, hkeys⟩
    · rw [hkeys]
      exact h.distinct
    · rw [hkeys]
      refine List.pairwise_append.mpr ⟨h.distinct, List.pairwise_singleton _ _, ?_⟩
      intro key hkey key' hkey'
      obtain ⟨e, he, rfl⟩ := List.mem_map.mp hkey
      rw [List.mem_singleton.mp hkey']
      exact hfresh e he
  · intro e he
    rcases KeyedList.mem_of_mem_upsert he with he | ⟨hd, he | he⟩
    · exact h.named e he
    · exact Or.inl (hd ▸ he)
    · exact Or.inr (hd ▸ he)

/-- Merged definitions are kept under their names. -/
theorem keyed_merge {α : Type} (nameOf : α → Value) (definitions : List α) :
    Keyed nameOf (KeyedList.merge Value.sameKey (keyedBy nameOf definitions)) := by
  suffices h : ∀ map, Keyed nameOf map →
      Keyed nameOf (KeyedList.update Value.sameKey map (keyedBy nameOf definitions)) from
    h [] ⟨.nil, by simp⟩
  induction definitions with
  | nil => exact fun map h => h
  | cons d definitions ih => exact fun map h => ih _ (h.upsert d)

/-- A key that is the same as a text is that text. -/
theorem Value.eq_str_of_sameKey {key : Value} {name : String} (h : key.sameKey (.str name) = true) :
    key = .str name := by
  cases key with
  | str s =>
      rw [Value.sameKey_str] at h
      rw [eq_of_beq h]
  | _ => simp [Value.sameKey, Value.number?] at h

/-- Definitions whose names are texts are kept under them, each name once. -/
theorem Keyed.keyedByName {α : Type} {nameOf : α → Value} {map : List (Value × α)}
    (h : Keyed nameOf map) (hnames : ∀ e ∈ map, ∃ name, nameOf e.2 = .str name) :
    KeyedByName nameOf map := by
  have htext : ∀ e ∈ map, ∃ name, e.1 = .str name ∧ nameOf e.2 = .str name := by
    intro e he
    obtain ⟨name, hname⟩ := hnames e he
    refine ⟨name, ?_, hname⟩
    rcases h.named e he with hkey | hkey
    · rw [hkey, hname]
    · rw [hname] at hkey
      exact Value.eq_str_of_sameKey hkey
  refine ⟨?_, htext⟩
  refine h.distinct.imp_of_mem ?_
  intro key key' hkey _ hdistinct heq
  obtain ⟨e, he, rfl⟩ := List.mem_map.mp hkey
  obtain ⟨name, hname, -⟩ := htext e he
  rw [← heq, hname, Value.sameKey_str] at hdistinct
  simp at hdistinct

/-- The maps of a schema that was loaded, if their definitions are named by texts. -/
theorem SchemaForm.keyedByName {raw : Value} {schema : Schema} (h : SchemaForm raw schema)
    (hdocuments : ∀ e ∈ schema.documents, ∃ name, e.2.name = .str name)
    (hobjects : ∀ e ∈ schema.objects, ∃ name, e.2.name = .str name) :
    KeyedByName (fun d : Document => d.name) schema.documents ∧
      KeyedByName (fun d : Definition => d.name) schema.objects := by
  cases h
  exact ⟨(keyed_merge _ _).keyedByName hdocuments, (keyed_merge _ _).keyedByName hobjects⟩

namespace TypeScript

/-! ## Names -/

/-- The order of texts is the order of what they show as. -/
theorem follows_nameBefore {α : Type} (nameOf : α → Value) :
    Sorting.Follows (fun d e => nameBefore (nameOf d) (nameOf e)) (fun d => ∃ name, nameOf d = .str name)
      fun d e => (nameOf d).display ≤ (nameOf e).display where
  of_true := by
    rintro d e ⟨name, hd⟩ ⟨name', he⟩ h
    rw [hd, he, nameBefore_str, Except.ok.injEq, decide_eq_true_eq] at h
    rw [hd, he]
    exact le_of_lt h
  of_false := by
    rintro d e ⟨name, hd⟩ ⟨name', he⟩ h
    rw [hd, he, nameBefore_str, Except.ok.injEq, decide_eq_false_iff_not] at h
    rw [hd, he]
    exact not_lt.mp h
  trans := fun _ _ _ => le_trans

/-- The names of definitions that are named by different texts, once they are in order. -/
theorem pairwise_of_sortByName {α : Type} {nameOf : α → Value} {definitions sorted : List α}
    (hnames : ∀ d ∈ definitions, ∃ name, nameOf d = .str name) (hnodup : (definitions.map nameOf).Nodup)
    (h : sortByName nameOf definitions = .ok sorted) :
    sorted.Pairwise fun d e => (nameOf d).display < (nameOf e).display := by
  have hperm : sorted.Perm definitions := Sorting.perm_of_sort h
  have horder := Sorting.pairwise_of_sort (follows_nameBefore nameOf) hnames h
  have hdistinct : sorted.Pairwise fun d e => nameOf d ≠ nameOf e :=
    List.pairwise_map.mp ((hperm.map nameOf).nodup_iff.mpr hnodup)
  refine (horder.and hdistinct).imp_of_mem ?_
  intro d e hd he hde
  obtain ⟨name, hd⟩ := hnames d (hperm.mem_iff.mp hd)
  obtain ⟨name', he⟩ := hnames e (hperm.mem_iff.mp he)
  refine lt_of_le_of_ne hde.1 ?_
  intro heq
  rw [hd, he] at heq
  exact hde.2 (by rw [hd, he]; exact congrArg Value.str heq)

/-- What definitions are named by, as it shows. -/
def shownNames {α : Type} (nameOf : α → Value) (definitions : List α) : List String :=
  definitions.map fun d => (nameOf d).display

/-- The definitions of a map once they are in the order of their names: the same ones, with the keys of
the map for names, which ascend strictly. -/
theorem names_of_sortByName {α : Type} {nameOf : α → Value} {map : List (Value × α)}
    {sorted : List α} (hmap : KeyedByName nameOf map)
    (h : sortByName nameOf (map.map (·.2)) = .ok sorted) :
    sorted.map nameOf = (shownNames nameOf sorted).map Value.str ∧
      (shownNames nameOf sorted).Pairwise (· < ·) ∧
      ((shownNames nameOf sorted).map Value.str).Perm (map.map (·.1)) := by
  have hperm : sorted.Perm (map.map (·.2)) := Sorting.perm_of_sort h
  have hnames : ∀ d ∈ map.map (·.2), ∃ name, nameOf d = .str name := by
    intro d hd
    obtain ⟨e, he, rfl⟩ := List.mem_map.mp hd
    obtain ⟨name, -, hname⟩ := hmap.text e he
    exact ⟨name, hname⟩
  have hkeys : (map.map (·.2)).map nameOf = map.map (·.1) := by
    rw [List.map_map]
    refine List.map_congr_left fun e he => ?_
    obtain ⟨name, hkey, hname⟩ := hmap.text e he
    exact hname.trans hkey.symm
  have hshown : sorted.map nameOf = (shownNames nameOf sorted).map Value.str := by
    rw [shownNames, List.map_map]
    refine List.map_congr_left fun d hd => ?_
    obtain ⟨name, hname⟩ := hnames d (hperm.mem_iff.mp hd)
    rw [Function.comp_apply, hname]
    rfl
  refine ⟨hshown, ?_, ?_⟩
  · exact List.pairwise_map.mpr (pairwise_of_sortByName hnames (hkeys ▸ hmap.nodup) h)
  · rw [← hshown, ← hkeys]
    exact hperm.map nameOf

end TypeScript

end ContentTypes
