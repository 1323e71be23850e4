import ContentTypes.Proofs.KeyedList
import ContentTypes.Proofs.Schema.Requirement
import ContentTypes.Proofs.TypeScript.KeyOrder
import ContentTypes.Proofs.Value.Key
import Mathlib.Data.Finset.Card

/-!
# Definitions by name

A schema keeps its definitions by their names, and names that are equal are one. `MergedFrom` says how: each
name is kept once, where and as it came first, and stands for the definition that came last under it. What
is loaded is kept so, unless a name is not a number (`Schema.ofValue_merged`).
-/

set_option autoImplicit false

namespace ContentTypes

/-! ## Merged definitions -/

/-- The names of the definitions that entries describe, in order. -/
def entryNames (entries : Members) : List Value := entries.map fun e => entryName e.1 e.2

/-- `MergedFrom load nameOf entries map`: the definitions of a map, each under its name, are those that are
loaded from these entries, where of entries with equal names the first one gives the key and the last one
the definition. -/
structure MergedFrom {α : Type} (load : String → Value → Except LoadError α) (nameOf : α → Value)
    (entries : Members) (map : List (Value × α)) : Prop where
  distinct : (map.map (·.1)).Pairwise fun key key' => ¬key.Equals key'
  named : ∀ e ∈ map, e.1.Equals (nameOf e.2)
  keys : map.map (·.1) =
    (entryNames entries).eraseDupsBy fun name earlier => decide (earlier.Equals name)
  last : ∀ e ∈ map, ∃ before entry after, entries = before ++ entry :: after ∧
    e.1.Equals (entryName entry.1 entry.2) ∧ load entry.1 entry.2 = .ok e.2 ∧
    ∀ entry' ∈ after, ¬e.1.Equals (entryName entry'.1 entry'.2)
  length_eq : map.length = ((entryNames entries).map Value.identity?).toFinset.card
  checked : ∀ entry ∈ entries, ∃ d, load entry.1 entry.2 = .ok d

/-- Whether no definition in the JSON form of a schema has a name that is not a number. -/
def NamesComparable (raw : Value) : Prop :=
  ∀ members, raw = .obj members → ∀ map ∈ ["documentDefMap", "objectDefMap"],
    ∀ e ∈ entriesAt members map, entryName e.1 e.2 ≠ .float .nan

section Definitions

variable {α : Type} {nameOf : α → Value}

/-- The definition under a key is the last one with a name that is the same key. -/
theorem last_of_mem_merge {definitions : List α} {e : Value × α}
    (h : e ∈ KeyedList.merge Value.sameKey (keyedBy nameOf definitions)) :
    ∃ before after, definitions = before ++ e.2 :: after ∧
      (e.1 = nameOf e.2 ∨ e.1.sameKey (nameOf e.2) = true) ∧
      ∀ d ∈ after, e.1.sameKey (nameOf d) = false := by
  induction definitions using List.reverseRecOn with
  | nil => cases h
  | append_singleton definitions d ih =>
      have hmerge : KeyedList.merge Value.sameKey (keyedBy nameOf (definitions ++ [d])) =
          KeyedList.upsert Value.sameKey (nameOf d) d
            (KeyedList.merge Value.sameKey (keyedBy nameOf definitions)) := by
        simp [KeyedList.merge, KeyedList.update, keyedBy]
      rw [hmerge] at h
      have hdistinct := List.pairwise_map.mp (keyed_merge nameOf definitions).distinct
      have hsame (k k' : Value) (hk : k.sameKey (nameOf d) = true) (hk' : k'.sameKey (nameOf d) = true) :
          k.sameKey k' = true := Value.sameKey_trans hk (Value.sameKey_symm hk')
      rcases KeyedList.mem_upsert_of_distinct hsame hdistinct h with ⟨hmem, hother⟩ | ⟨hd, hkey⟩
      · obtain ⟨before, after, hdefinitions, hkey, hafter⟩ := ih hmem
        refine ⟨before, after ++ [d], by rw [hdefinitions]; simp, hkey, ?_⟩
        exact List.forall_mem_append.mpr ⟨hafter, List.forall_mem_singleton.mpr hother⟩
      · exact ⟨definitions, [], by rw [hd], hd ▸ hkey, List.forall_mem_nil _⟩

variable {form : String → Value → α → Prop} {load : String → Value → Except LoadError α}
  {entries : Members} {definitions : List α}

/-- An entry that a definition comes from, with the entries after it. -/
theorem EntriesForm.exists_split {before after : List α} {d : α}
    (h : EntriesForm form nameOf entries (before ++ d :: after)) :
    ∃ before' entry after', entries = before' ++ entry :: after' ∧ form entry.1 entry.2 d ∧
      (nameOf d).isScalar = true ∧ EntriesForm form nameOf after' after := by
  have hdrop := List.forall₂_drop_append entries before (d :: after) h
  obtain ⟨entry, after', hentry, hafter, heq⟩ := List.forall₂_cons_right_iff.mp hdrop
  refine ⟨entries.take before.length, entry, after', ?_, hentry.1, hentry.2, hafter⟩
  rw [← heq, List.take_append_drop]

theorem EntriesForm.exists_definition (h : EntriesForm form nameOf entries definitions) :
    ∀ entry ∈ entries, ∃ d, form entry.1 entry.2 d := by
  induction h with
  | nil => exact List.forall_mem_nil _
  | cons hentry _ ih => exact List.forall_mem_cons.mpr ⟨⟨_, hentry.1⟩, ih⟩

/-- If no entry has a name that is not a number, the names of the definitions are equal to themselves. -/
theorem EntriesForm.comparable (h : EntriesForm form nameOf entries definitions)
    (hname : ∀ key raw d, form key raw d → nameOf d = entryName key raw)
    (hnames : ∀ e ∈ entries, entryName e.1 e.2 ≠ .float .nan) :
    ∀ d ∈ definitions, nameOf d ≠ .float .nan ∧ (nameOf d).Equals (nameOf d) := by
  intro d hd
  obtain ⟨before, after, rfl⟩ := List.append_of_mem hd
  obtain ⟨before', entry, after', rfl, hform, hscalar, -⟩ := h.exists_split
  have hne : nameOf d ≠ .float .nan := by
    rw [hname _ _ _ hform]
    exact hnames entry (by simp)
  exact ⟨hne, Value.equals_self hscalar hne⟩

/-- The keys of merged definitions are as many as there are different names. -/
theorem length_of_keys {names keys : List Value}
    (hkeys : keys = names.eraseDupsBy fun name earlier => decide (earlier.Equals name))
    (hmem : ∀ key ∈ keys, ∃ name ∈ names, key.Equals name)
    (hdistinct : keys.Pairwise fun key key' => ¬key.Equals key') :
    keys.length = (names.map Value.identity?).toFinset.card := by
  -- keys with one identity would be equal, and each has one, since it is equal to a name
  have hnodup : (keys.map Value.identity?).Nodup := by
    refine List.pairwise_map.mpr (hdistinct.imp_of_mem fun {key key'} hkey _ hne heq => hne ⟨?_, heq⟩)
    obtain ⟨name, -, hequals⟩ := hmem key hkey
    exact hequals.1
  have hsame : (keys.map Value.identity?).toFinset = (names.map Value.identity?).toFinset := by
    ext identity
    simp only [List.mem_toFinset, List.mem_map]
    constructor
    · rintro ⟨key, hkey, rfl⟩
      obtain ⟨name, hname, hequals⟩ := hmem key hkey
      exact ⟨name, hname, hequals.2.symm⟩
    · rintro ⟨name, hname, rfl⟩
      rw [hkeys]
      obtain ⟨key, hkey, rfl | hequals⟩ := KeyedList.exists_mem_eraseDupsBy hname
      · exact ⟨name, hkey, rfl⟩
      · exact ⟨key, hkey, (decide_eq_true_iff.mp hequals).2⟩
  calc keys.length = (keys.map Value.identity?).length := (List.length_map _).symm
    _ = (keys.map Value.identity?).toFinset.card := (List.toFinset_card_of_nodup hnodup).symm
    _ = (names.map Value.identity?).toFinset.card := by rw [hsame]

section Merged

variable (h : EntriesForm form nameOf entries definitions)
  (hname : ∀ key raw d, form key raw d → nameOf d = entryName key raw)

include h hname

/-- Each definition is kept under a key that its name is equal to. -/
theorem EntriesForm.equals_of_mem_merge (hnames : ∀ e ∈ entries, entryName e.1 e.2 ≠ .float .nan) :
    ∀ e ∈ KeyedList.merge Value.sameKey (keyedBy nameOf definitions), e.1.Equals (nameOf e.2) := by
  intro e he
  obtain ⟨hne, hself⟩ := h.comparable hname hnames _ (mem_of_mem_merge he)
  rcases (keyed_merge nameOf definitions).named e he with heq | hsame
  · exact heq ▸ hself
  · exact (Value.sameKey_iff_equals hne).mp hsame

/-- The keys of what is merged are the names of the entries, of equal ones the first. -/
theorem EntriesForm.keys_merge (hnames : ∀ e ∈ entries, entryName e.1 e.2 ≠ .float .nan) :
    (KeyedList.merge Value.sameKey (keyedBy nameOf definitions)).map (·.1) =
      (entryNames entries).eraseDupsBy fun name earlier => decide (earlier.Equals name) := by
  have hnamesEq : definitions.map nameOf = entryNames entries := h.names_eq hname
  have hkeys : (keyedBy nameOf definitions).map (·.1) = definitions.map nameOf := by
    rw [keyedBy, List.map_map]
    rfl
  rw [KeyedList.keys_merge, hkeys, ← hnamesEq]
  -- names are compared as keys, which comes to the same for the names of these definitions
  refine KeyedList.eraseDupsBy_congr fun name hmem earlier _ => ?_
  obtain ⟨d, hd, rfl⟩ := List.mem_map.mp hmem
  rw [Bool.eq_iff_iff, decide_eq_true_iff, Value.sameKey_iff_equals (h.comparable hname hnames d hd).1]

/-- A definition that is kept comes from an entry after which no name is equal to its key. -/
theorem EntriesForm.exists_last {e : Value × α}
    (he : e ∈ KeyedList.merge Value.sameKey (keyedBy nameOf definitions)) :
    ∃ before entry after, entries = before ++ entry :: after ∧ form entry.1 entry.2 e.2 ∧
      ∀ entry' ∈ after, ¬e.1.Equals (entryName entry'.1 entry'.2) := by
  obtain ⟨before, after, hdefinitions, -, hafter⟩ := last_of_mem_merge he
  rw [hdefinitions] at h
  obtain ⟨before', entry, after', hentries, hform, -, hrest⟩ := h.exists_split
  refine ⟨before', entry, after', hentries, hform, fun entry' hentry' hequals => ?_⟩
  -- what comes after the entry is what the definitions after it come from
  have hmem : entryName entry'.1 entry'.2 ∈ after.map nameOf := by
    rw [hrest.names_eq hname]
    exact List.mem_map_of_mem hentry'
  obtain ⟨d, hd, heq⟩ := List.mem_map.mp hmem
  have hother := hafter d hd
  rw [heq, Value.sameKey_iff.mpr (.inl hequals)] at hother
  cases hother

/-- What is loaded from entries and merged by name is as `MergedFrom` says. -/
theorem EntriesForm.mergedFrom (hload : ∀ key raw d, form key raw d → load key raw = .ok d)
    (hnames : ∀ e ∈ entries, entryName e.1 e.2 ≠ .float .nan) :
    MergedFrom load nameOf entries (KeyedList.merge Value.sameKey (keyedBy nameOf definitions)) := by
  have hnamed := h.equals_of_mem_merge hname hnames
  have hkeys := h.keys_merge hname hnames
  have hdistinct : ((KeyedList.merge Value.sameKey (keyedBy nameOf definitions)).map (·.1)).Pairwise
      fun key key' => ¬key.Equals key' :=
    (keyed_merge nameOf definitions).distinct.imp fun hne hequals => by
      rw [Value.sameKey_iff.mpr (.inl hequals)] at hne
      cases hne
  refine ⟨hdistinct, hnamed, hkeys, ?_, ?_, ?_⟩
  · intro e he
    obtain ⟨before, entry, after, hentries, hform, hafter⟩ := h.exists_last hname he
    have hequals := hnamed e he
    rw [hname _ _ _ hform] at hequals
    exact ⟨before, entry, after, hentries, hequals, hload _ _ _ hform, hafter⟩
  · rw [← List.length_map (·.1)]
    refine length_of_keys hkeys (List.forall_mem_map.mpr fun e he => ?_) hdistinct
    have hmem : nameOf e.2 ∈ entryNames entries := by
      rw [entryNames, ← h.names_eq hname]
      exact List.mem_map_of_mem (mem_of_mem_merge he)
    exact ⟨_, hmem, hnamed e he⟩
  · intro entry hentry
    obtain ⟨d, hd⟩ := h.exists_definition entry hentry
    exact ⟨d, hload _ _ _ hd⟩

end Merged

end Definitions

/-! ## Schemas -/

/-- **Definitions are merged by name.** Unless a name is not a number, what a value that is accepted as a
schema describes in either map is kept under its names, each name once: at the place and in the form in which
it came first, with the definition of the last entry of that name. The entries before it are loaded, too. -/
theorem Schema.ofValue_merged {raw : Value} {schema : Schema} (h : Schema.ofValue raw = .ok schema)
    (hnames : NamesComparable raw) : ∃ members, raw = .obj members ∧
      MergedFrom (fun key => documentOfEntry ((Pointer.root.member "documentDefMap").member key) key)
        (fun d => d.name) (entriesAt members "documentDefMap") schema.documents ∧
      MergedFrom (fun key => objectOfEntry ((Pointer.root.member "objectDefMap").member key) key)
        (fun d => d.name) (entriesAt members "objectDefMap") schema.objects := by
  obtain ⟨hentries, hdocuments, hentries', hobjects⟩ := Schema.ofValue_eq_ok_iff.mp h
  refine ⟨_, rfl, ?_, ?_⟩
  · have hcomparable := hnames _ rfl "documentDefMap" (by simp)
    rw [entriesAt_of_mapEntries hentries] at hcomparable ⊢
    exact hdocuments.mergedFrom (fun _ _ _ => DocumentForm.name_eq)
      (fun _ _ _ => documentOfEntry_eq_ok_iff.mpr) hcomparable
  · have hcomparable := hnames _ rfl "objectDefMap" (by simp)
    rw [entriesAt_of_mapEntries hentries'] at hcomparable ⊢
    exact hobjects.mergedFrom (fun _ _ _ => ObjectForm.name_eq)
      (fun _ _ _ => objectOfEntry_eq_ok_iff.mpr) hcomparable

/-! ### A number and a truth value for a name -/

/-- Three documents, of which the first and the last have the same name, once as a number and once as a truth
value. -/
def repeatedValue : Value :=
  .obj [("documentDefMap", .obj [
    ("first", .obj [("name", .int 1), ("label", .str "One")]),
    ("Page", .obj []),
    ("last", .obj [("name", .bool true), ("label", .str "Yes")])])]

theorem exists_ofValue_repeatedValue : ∃ schema, Schema.ofValue repeatedValue = .ok schema := by
  have hdocument (key : String) {node : Members} (hfields : node.lookup "fieldDefs" = none)
      (hcomputed : node.lookup "computedFields" = none) : DocumentForm key (.obj node) _ :=
    .document (.missing hfields) .nil (.missing hcomputed) .nil
  exact ⟨_, Schema.ofValue_eq_ok_iff.mpr (.schema (.object rfl)
    (.cons ⟨hdocument "first" rfl rfl, rfl⟩ <| .cons ⟨hdocument "Page" rfl rfl, rfl⟩ <|
      .cons ⟨hdocument "last" rfl rfl, rfl⟩ .nil) (.missing rfl) .nil)⟩

theorem namesComparable_repeatedValue : NamesComparable repeatedValue := by
  intro members hmembers map hmap e he
  cases hmembers
  rcases List.mem_pair.mp hmap with rfl | rfl
  · have hentries : e ∈ [("first", Value.obj [("name", .int 1), ("label", .str "One")]),
        ("Page", .obj []), ("last", .obj [("name", .bool true), ("label", .str "Yes")])] := he
    simp only [List.mem_cons, List.not_mem_nil, or_false] at hentries
    rcases hentries with rfl | rfl | rfl <;> simp [entryName]
  · cases he

theorem ofValue_merged_repeatedValue : NamesComparable repeatedValue ∧
    ∃ schema, Schema.ofValue repeatedValue = .ok schema ∧
      schema.documents.map (·.1) = [.int 1, .str "Page"] := by
  obtain ⟨schema, hschema⟩ := exists_ofValue_repeatedValue
  obtain ⟨members, hmembers, hdocuments, -⟩ := Schema.ofValue_merged hschema namesComparable_repeatedValue
  cases hmembers
  refine ⟨namesComparable_repeatedValue, schema, hschema, ?_⟩
  rw [hdocuments.keys]
  rfl

end ContentTypes
