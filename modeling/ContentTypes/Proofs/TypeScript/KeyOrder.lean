import ContentTypes.Proofs.Schema.RoundTrip
import ContentTypes.Proofs.TypeScript.Module
import ContentTypes.Proofs.TypeScript.Order
import ContentTypes.Proofs.TypeScript.Reordered

/-!
# Modules do not depend on the order of members

Two values that differ in nothing but the order of members are accepted as a schema together. If the
definitions in each map have different texts for names, and all values that show are scalars, their
modules are the same text (`moduleText_reordered`).

The definitions of the one are those of the other in some order, up to what does not show. Different texts
have one order only, so sorting by name puts like definitions at like places.
-/

set_option autoImplicit false

namespace ContentTypes

/-! ## Names -/

/-- Whether names are texts, all different. -/
structure DistinctTexts (names : List Value) : Prop where
  text : ∀ name ∈ names, ∃ text, name = .str text
  distinct : names.Nodup

theorem DistinctTexts.perm {names names' : List Value} (h : DistinctTexts names)
    (hperm : names.Perm names') : DistinctTexts names' :=
  ⟨fun name hname => h.text name (hperm.mem_iff.mpr hname), hperm.nodup_iff.mp h.distinct⟩

theorem DistinctTexts.forall_mem {α : Type} {nameOf : α → Value} {definitions : List α}
    (h : DistinctTexts (definitions.map nameOf)) :
    ∀ d ∈ definitions, ∃ name, nameOf d = .str name :=
  fun _ hd => h.text _ (List.mem_map_of_mem hd)

/-- Whether the definitions in each map of a schema in its JSON form have different texts for names. -/
def NamedApart (raw : Value) : Prop :=
  ∀ members, raw = .obj members → ∀ map ∈ ["documentDefMap", "objectDefMap"],
    ∀ entries, entriesOf members map = .ok entries →
      DistinctTexts (entries.map fun e => entryName e.1 e.2)

section Definitions

variable {α : Type} {nameOf : α → Value} {form : String → Value → α → Prop}

/-- Definitions are named as their entries are. -/
theorem EntriesForm.names_eq {entries : Members} {definitions : List α}
    (h : EntriesForm form nameOf entries definitions)
    (hname : ∀ key raw d, form key raw d → nameOf d = entryName key raw) :
    definitions.map nameOf = entries.map fun e => entryName e.1 e.2 := by
  induction h with
  | nil => rfl
  | cons hd _ ih => rw [List.map_cons, List.map_cons, hname _ _ _ hd.1, ih]

/-- Nothing is lost when definitions with different texts for names are merged. -/
theorem DistinctTexts.merge_eq {definitions : List α} (h : DistinctTexts (definitions.map nameOf)) :
    (KeyedList.merge Value.sameKey (keyedBy nameOf definitions)).map (·.2) = definitions := by
  have hvalues : (keyedBy nameOf definitions).map (·.2) = definitions := by
    rw [keyedBy, List.map_map]
    exact List.map_id definitions
  have hkeyed : KeyedByName nameOf (keyedBy nameOf definitions) := by
    constructor
    · rw [keyedBy, List.map_map]
      exact h.distinct
    · intro e he
      obtain ⟨d, hd, rfl⟩ := List.mem_map.mp he
      obtain ⟨name, hname⟩ := h.forall_mem d hd
      exact ⟨name, hname, hname⟩
  have hmerge := hkeyed.merge_eq
  rw [hvalues] at hmerge
  rw [hmerge, hvalues]

/-! ## Maps in another order -/

theorem MapEntries.reordered {members members' entries : Members} {name : String}
    (h : Reordered (.obj members) (.obj members')) (hkeys : (members.map (·.1)).Nodup)
    (hentries : MapEntries members name entries) :
    ∃ entries', MapEntries members' name entries' ∧ Reordered (.obj entries) (.obj entries') := by
  cases hentries with
  | missing hnone => exact ⟨[], .missing (h.lookup_eq_none hkeys hnone), .obj .nil .nil⟩
  | no hv hholds =>
      obtain ⟨w, hw, h⟩ := h.exists_lookup hkeys hv
      exact ⟨[], .no hw (h.holds_eq.trans hholds), .obj .nil .nil⟩
  | object hv =>
      obtain ⟨w, hw, h⟩ := h.exists_lookup hkeys hv
      obtain ⟨entries', rfl⟩ := h.exists_obj
      exact ⟨entries', .object hw, h⟩

/-- Entries in another order describe definitions in another order, each as before up to `R`. -/
theorem EntriesForm.reordered {R : α → α → Prop} {entries entries' : Members} {definitions : List α}
    (hentries : EntriesForm form nameOf entries definitions)
    (hform : ∀ key raw raw' d, Reordered raw raw' → raw.WellKeyed → form key raw d →
      ∃ d', form key raw' d' ∧ R d d')
    (hname : ∀ d d', R d d' → Reordered (nameOf d) (nameOf d'))
    (h : Reordered (.obj entries) (.obj entries')) (hkeyed : ∀ e ∈ entries, e.2.WellKeyed) :
    ∃ definitions', EntriesForm form nameOf entries' definitions' ∧
      ∃ between, List.Forall₂ R definitions between ∧ between.Perm definitions' := by
  cases h with
  | scalar h => cases h
  | @obj _ inPlace _ h hperm =>
      -- first in the same order, then in the other one
      obtain ⟨between, hbetween, halike⟩ : ∃ between, EntriesForm form nameOf inPlace between ∧
          List.Forall₂ R definitions between := by
        clear hperm
        induction hentries generalizing inPlace with
        | nil =>
            cases h
            exact ⟨[], .nil, .nil⟩
        | cons hd _ ih =>
            cases h with
            | cons h hrest =>
                rw [List.forall_mem_cons] at hkeyed
                obtain ⟨d', hd', halike⟩ := hform _ _ _ _ h hkeyed.1 hd.1
                obtain ⟨between, hbetween, hrest⟩ := ih hkeyed.2 hrest
                have hscalar : (nameOf d').isScalar = true := by
                  rw [(hname _ _ halike).eq_of_isScalar hd.2]
                  exact hd.2
                exact ⟨d' :: between, .cons ⟨hd', hscalar⟩ hbetween, .cons halike hrest⟩
      obtain ⟨definitions', hentries', hperm'⟩ := List.perm_comp_forall₂ hperm.symm hbetween
      exact ⟨definitions', hentries', between, halike, hperm'.symm⟩

namespace TypeScript

/-! ## Like definitions in the order of their names -/

variable {shows : α → Prop} {declaration : α → Except RenderError Declaration}

theorem names_eq_of_alike {definitions definitions' : List α}
    (htext : ∀ d ∈ definitions, ∃ name, nameOf d = .str name)
    (h : List.Forall₂ (Alike nameOf shows declaration) definitions definitions') :
    definitions'.map nameOf = definitions.map nameOf := by
  induction h with
  | nil => rfl
  | @cons d d' _ _ hd _ ih =>
      rw [List.forall_mem_cons] at htext
      obtain ⟨⟨name, hname⟩, htext⟩ := htext
      have hscalar : (nameOf d).isScalar = true := by
        rw [hname]
        rfl
      rw [List.map_cons, List.map_cons, hd.name.eq_of_isScalar hscalar, ih htext]

theorem mapM_eq_of_alike {definitions definitions' : List α}
    (hshows : ∀ d ∈ definitions, shows d)
    (h : List.Forall₂ (Alike nameOf shows declaration) definitions definitions') :
    definitions'.mapM declaration = definitions.mapM declaration := by
  induction h with
  | nil => rfl
  | cons hd _ ih =>
      rw [List.forall_mem_cons] at hshows
      rw [List.mapM_cons, List.mapM_cons, hd.declaration hshows.1, ih hshows.2]

theorem distinctTexts_of_alike {definitions between definitions' : List α}
    (h : DistinctTexts (definitions.map nameOf))
    (halike : List.Forall₂ (Alike nameOf shows declaration) definitions between)
    (hperm : between.Perm definitions') : DistinctTexts (definitions'.map nameOf) := by
  rw [← names_eq_of_alike h.forall_mem halike] at h
  exact h.perm (hperm.map nameOf)

/-- Like definitions in two orders are like definitions place by place once they are sorted. -/
theorem exists_sorted_alike {definitions between definitions' : List α}
    (hnames : DistinctTexts (definitions.map nameOf))
    (halike : List.Forall₂ (Alike nameOf shows declaration) definitions between)
    (hperm : between.Perm definitions') :
    ∃ sorted sorted', sortByName nameOf definitions = .ok sorted ∧
      sortByName nameOf definitions' = .ok sorted' ∧ sorted.Perm definitions ∧
      List.Forall₂ (Alike nameOf shows declaration) sorted sorted' := by
  have hnames' : DistinctTexts (definitions'.map nameOf) := distinctTexts_of_alike hnames halike hperm
  obtain ⟨sorted, hsort, hsorted⟩ := exists_sortByName nameOf hnames.forall_mem
  obtain ⟨sorted', hsort', hsorted'⟩ := exists_sortByName nameOf hnames'.forall_mem
  -- what is alike to the sorted definitions is sorted too, and there is one such order only
  obtain ⟨moved, hmoved, hmovedPerm⟩ := List.perm_comp_forall₂ hsorted halike
  have hascending : moved.Pairwise fun d e => (nameOf d).display < (nameOf e).display := by
    have hnamesEq : moved.map nameOf = sorted.map nameOf :=
      names_eq_of_alike (fun d hd => hnames.forall_mem d (hsorted.mem_iff.mp hd)) hmoved
    have hpairwise := pairwise_of_sortByName hnames.forall_mem hnames.distinct hsort
    rw [← List.pairwise_map (f := nameOf) (R := fun v w => v.display < w.display)] at hpairwise ⊢
    rwa [hnamesEq]
  have hascending' := pairwise_of_sortByName hnames'.forall_mem hnames'.distinct hsort'
  have heq : moved = sorted' :=
    (hmovedPerm.trans (hperm.trans hsorted'.symm)).eq_of_pairwise
      (fun _ _ _ _ h h' => absurd h' (lt_asymm h)) hascending hascending'
  exact ⟨sorted, sorted', hsort, hsort', hsorted, heq ▸ hmoved⟩

/-- Maps of like definitions have the same declarations in the order of names. -/
theorem exists_declarations_eq {definitions between definitions' : List α}
    (hnames : DistinctTexts (definitions.map nameOf))
    (halike : List.Forall₂ (Alike nameOf shows declaration) definitions between)
    (hperm : between.Perm definitions')
    (hshows : ∀ e ∈ KeyedList.merge Value.sameKey (keyedBy nameOf definitions), shows e.2) :
    ∃ sorted sorted',
      sortByName nameOf ((KeyedList.merge Value.sameKey (keyedBy nameOf definitions)).map (·.2)) =
        .ok sorted ∧
      sortByName nameOf ((KeyedList.merge Value.sameKey (keyedBy nameOf definitions')).map (·.2)) =
        .ok sorted' ∧
      sorted.mapM declaration = sorted'.mapM declaration := by
  obtain ⟨sorted, sorted', hsort, hsort', hsorted, hlike⟩ := exists_sorted_alike hnames halike hperm
  have hdefinitions := List.forall_mem_map.mpr hshows
  rw [hnames.merge_eq] at hdefinitions ⊢
  rw [(distinctTexts_of_alike hnames halike hperm).merge_eq]
  refine ⟨sorted, sorted', hsort, hsort', (mapM_eq_of_alike ?_ hlike).symm⟩
  exact fun d hd => hdefinitions d (hsorted.mem_iff.mp hd)

end TypeScript

end Definitions

namespace TypeScript

/-! ## The module -/

/-- What has the form of a schema has it in any order of members, and gives the same module if names are
texts, all different in each map, and what shows is a scalar. -/
theorem reordered_schema {raw raw' : Value} {schema : Schema} (h : Reordered raw raw')
    (hraw : raw.WellKeyed) (hschema : SchemaForm raw schema) :
    ∃ schema', SchemaForm raw' schema' ∧ (NamedApart raw → SchemaShows ShowsScalar schema →
      ∀ settings, moduleText settings schema = moduleText settings schema') := by
  cases hschema with
  | @schema members entries entries' documents objects hentries hdocuments hentries' hobjects =>
      obtain ⟨members', rfl⟩ := h.exists_obj
      -- the maps, each with its definitions in another order
      obtain ⟨reentries, hreentries, hmap⟩ := hentries.reordered h hraw.1
      obtain ⟨redocuments, hredocuments, between, halike, hperm⟩ :=
        hdocuments.reordered (R := AlikeDocuments) (fun _ _ _ _ => reordered_document)
          (fun _ _ h => h.name) hmap (hentries.wellKeyed hraw)
      obtain ⟨reentries', hreentries', hmap'⟩ := hentries'.reordered h hraw.1
      obtain ⟨reobjects, hreobjects, between', halike', hperm'⟩ :=
        hobjects.reordered (R := AlikeObjects) (fun _ _ _ _ => reordered_object)
          (fun _ _ h => h.name) hmap' (hentries'.wellKeyed hraw)
      refine ⟨_, .schema hreentries hredocuments hreentries' hreobjects,
        fun hnames hshows settings => ?_⟩
      have hdistinct : DistinctTexts (documents.map fun d => d.name) := by
        rw [hdocuments.names_eq fun _ _ _ => DocumentForm.name_eq]
        exact hnames _ rfl "documentDefMap" (by simp) _ (entriesOf_eq_ok_iff.mpr hentries)
      have hdistinct' : DistinctTexts (objects.map fun d => d.name) := by
        rw [hobjects.names_eq fun _ _ _ => ObjectForm.name_eq]
        exact hnames _ rfl "objectDefMap" (by simp) _ (entriesOf_eq_ok_iff.mpr hentries')
      obtain ⟨sorted, resorted, hsort, hresort, hdeclared⟩ :=
        exists_declarations_eq hdistinct halike hperm hshows.documents
      obtain ⟨sorted', resorted', hsort', hresort', hdeclared'⟩ :=
        exists_declarations_eq hdistinct' halike' hperm' hshows.objects
      simp only [moduleText, sortedDefinitions, hsort, hresort, hsort', hresort', hdeclared, hdeclared',
        bind, Except.bind, pure, Except.pure]

/-- **Modules do not depend on the order of members.** Values that differ in nothing but the order of
members are accepted as schemas together. If the definitions in each map have different texts for names
and no list or object shows, then for all settings their modules are the same text, or fail alike. -/
theorem moduleText_reordered {raw raw' : Value} (hraw : raw.WellKeyed) (h : Reordered raw raw')
    (hnames : NamedApart raw) :
    ((∃ schema, Schema.ofValue raw = .ok schema) ↔ ∃ schema', Schema.ofValue raw' = .ok schema') ∧
      ∀ schema schema', Schema.ofValue raw = .ok schema → Schema.ofValue raw' = .ok schema' →
        SchemaShows ShowsScalar schema →
          ∀ settings, moduleText settings schema = moduleText settings schema' := by
  simp only [Schema.ofValue_eq_ok_iff]
  refine ⟨⟨?_, ?_⟩, ?_⟩
  · rintro ⟨schema, hschema⟩
    obtain ⟨schema', hschema', -⟩ := reordered_schema h hraw hschema
    exact ⟨schema', hschema'⟩
  · rintro ⟨schema', hschema'⟩
    obtain ⟨schema, hschema, -⟩ := reordered_schema h.symm (h.wellKeyed hraw) hschema'
    exact ⟨schema, hschema⟩
  · intro schema schema' hschema hschema' hshows
    obtain ⟨schema'', hschema'', htext⟩ := reordered_schema h hraw hschema
    -- a value has the form of one schema only
    have heq : schema'' = schema' := by
      rw [← Schema.ofValue_eq_ok_iff] at hschema' hschema''
      exact Except.ok.inj (hschema''.symm.trans hschema')
    exact heq ▸ htext hnames hshows

/-! ### A schema and its reversal -/

/-- Two documents against the order of their names, one of them with a field. -/
def blogValue : Value :=
  .obj [("documentDefMap", .obj [
    ("Post", .obj [("label", .str "What is written"), ("fieldDefs", .arr [
      .obj [("name", .str "title"), ("type", .str "string")]])]),
    ("Author", .obj [("label", .str "Who writes"), ("name", .str "Author")])])]

/-- The same with the members of each object in the opposite order. -/
def blogValueReversed : Value :=
  .obj [("documentDefMap", .obj [
    ("Author", .obj [("name", .str "Author"), ("label", .str "Who writes")]),
    ("Post", .obj [("fieldDefs", .arr [
      .obj [("type", .str "string"), ("name", .str "title")]]), ("label", .str "What is written")])])]

theorem reordered_blogValue : Reordered blogValue blogValueReversed := by
  have hscalars {key key' text text' : String} :
      Reordered (.obj [(key, .str text), (key', .str text')])
        (.obj [(key', .str text'), (key, .str text)]) :=
    .obj (.cons (.scalar rfl) (.cons (.scalar rfl) .nil)) (.swap ..)
  have hpost : Reordered
      (.obj [("label", .str "What is written"), ("fieldDefs", .arr [
        .obj [("name", .str "title"), ("type", .str "string")]])])
      (.obj [("fieldDefs", .arr [
        .obj [("type", .str "string"), ("name", .str "title")]]), ("label", .str "What is written")]) :=
    .obj (.cons (.scalar rfl) (.cons (.arr (.cons hscalars .nil)) .nil)) (.swap ..)
  exact .obj (.cons (.obj (.cons hpost (.cons hscalars .nil)) (.swap ..)) .nil) .rfl

/-- The first document of `blogValue`. -/
def blogPost : Document :=
  ⟨⟨.str "Post", .str "What is written", .null,
    [⟨.str "title", .bool false, .null, .null, .string⟩]⟩, [], .null⟩

/-- The second document of `blogValue`. -/
def blogAuthor : Document := ⟨⟨.str "Author", .str "Who writes", .null, []⟩, [], .null⟩

/-- The schema of `blogValue`. -/
def blogSchema : Schema := ⟨[(.str "Post", blogPost), (.str "Author", blogAuthor)], []⟩

/-- The schema of `blogValueReversed`. -/
def blogSchemaReversed : Schema := ⟨[(.str "Author", blogAuthor), (.str "Post", blogPost)], []⟩

theorem ofValue_blogValue : Schema.ofValue blogValue = .ok blogSchema := by
  apply Schema.ofValue_eq_ok_iff.mpr
  apply @SchemaForm.schema _ _ [] [blogPost, blogAuthor] []
  · exact .object rfl
  · refine .cons ⟨?_, rfl⟩ (.cons ⟨?_, rfl⟩ .nil)
    · exact .document (.list rfl) (.cons (.field rfl rfl .string) .nil) (.missing rfl) .nil
    · exact .document (.missing rfl) .nil (.missing rfl) .nil
  · exact .missing rfl
  · exact .nil

theorem ofValue_blogValueReversed : Schema.ofValue blogValueReversed = .ok blogSchemaReversed := by
  apply Schema.ofValue_eq_ok_iff.mpr
  apply @SchemaForm.schema _ _ [] [blogAuthor, blogPost] []
  · exact .object rfl
  · refine .cons ⟨?_, rfl⟩ (.cons ⟨?_, rfl⟩ .nil)
    · exact .document (.missing rfl) .nil (.missing rfl) .nil
    · exact .document (.list rfl) (.cons (.field rfl rfl .string) .nil) (.missing rfl) .nil
  · exact .missing rfl
  · exact .nil

theorem namedApart_blogValue : NamedApart blogValue := by
  rintro members hmembers map hmap entries hentries
  cases hmembers
  rcases List.mem_pair.mp hmap with rfl | rfl
  · cases hentries
    refine ⟨List.forall_mem_cons.mpr ⟨⟨_, rfl⟩, List.forall_mem_singleton.mpr ⟨_, rfl⟩⟩, ?_⟩
    simp [entryName, List.lookup_cons]
  · cases hentries
    exact ⟨List.forall_mem_nil _, .nil⟩

theorem schemaShows_blogSchema : SchemaShows ShowsScalar blogSchema := by
  have hnull {p : Prop} (h : Value.null.holds = true) : p := nomatch h
  have htitle : FieldsShow ShowsScalar blogPost.fields := ⟨⟨rfl, hnull, trivial⟩, trivial⟩
  refine ⟨List.forall_mem_cons.mpr ⟨?_, List.forall_mem_singleton.mpr ?_⟩, List.forall_mem_nil _⟩
  · exact ⟨⟨rfl, hnull, fun _ _ => rfl, htitle⟩, List.forall_mem_nil _⟩
  · exact ⟨⟨rfl, hnull, fun _ _ => rfl, trivial⟩, List.forall_mem_nil _⟩

theorem moduleText_reordered_blogValue :
    Schema.ofValue blogValue = .ok blogSchema ∧
      Schema.ofValue blogValueReversed = .ok blogSchemaReversed ∧
        ∀ settings, moduleText settings blogSchema = moduleText settings blogSchemaReversed := by
  have hkeyed : blogValue.WellKeyed := by
    simp [blogValue, Value.WellKeyed, WellKeyedItems, WellKeyedMembers]
  refine ⟨ofValue_blogValue, ofValue_blogValueReversed, ?_⟩
  exact (moduleText_reordered hkeyed reordered_blogValue namedApart_blogValue).2 _ _ ofValue_blogValue
    ofValue_blogValueReversed schemaShows_blogSchema

end TypeScript

end ContentTypes
