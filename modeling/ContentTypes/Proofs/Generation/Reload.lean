import ContentTypes.Proofs.Generation.Changes
import ContentTypes.Proofs.Schema.FirstDefect
import ContentTypes.Proofs.Schema.Reload

/-!
# Loading the schema that a run has left

A run writes any schema whose module it can write. The file that it leaves is loaded again exactly if all
fields are written as their kinds ask for (`generate_reloads`), which a field that is a list without an item
is not.
-/

set_option autoImplicit false

namespace ContentTypes

open FileTree TypeScript

variable {schema : Schema}

/-- A run that returns has left the schema in its file, unless that is the file of the module. -/
theorem read_schemaFile_of_generate {t : FileTree} {settings : Settings} {output : OutputSettings}
    {places : OutputPlaces} {path : FilePath} (h : settings.Names output places)
    (hholds : settings.generateSchemaJson.holds = true)
    (hok : (generate t settings schema).result = .ok path) :
    ∃ place place', (generate t settings schema).tree.resolve places.target = .ok (.name place) ∧
      (generate t settings schema).tree.resolve places.schemaFile = .ok (.name place') ∧
      (place' ≠ place → (generate t settings schema).tree.read places.schemaFile = .ok schema.bytes) := by
  obtain ⟨-, text, place, -, hleads, -, -, hwritten⟩ := (effect_of_ok h hok).returned path hok
  obtain ⟨place', hleads', hread, -⟩ := hwritten hholds
  exact ⟨place, place', hleads, hleads', hread⟩

/-- **What is written can be loaded, but for lists without an item.** Let the definitions of a schema be
kept under their names, which are texts, and the members of kinds without a rule be apart from those that
a node has anyway. Then what is written of the schema is accepted, and so is the file that a run leaves if
all texts are well coded, exactly if at every depth each list of one kind of items has its item, and each
kind without a rule is a scalar and has the members that are asked for under its name. -/
theorem generate_reloads (hkeyed : schema.Keyed) (hjson : schema.toValue.WellKeyed) :
    ((∃ schema', Schema.ofValue schema.toValue = .ok schema') ↔ schema.Reloads) ∧
      ∀ (t : FileTree) (settings : Settings) (output : OutputSettings) (places : OutputPlaces)
        (path : FilePath), settings.Names output places → settings.generateSchemaJson.holds = true →
        (generate t settings schema).result = .ok path →
        ∃ place place', (generate t settings schema).tree.resolve places.target = .ok (.name place) ∧
          (generate t settings schema).tree.resolve places.schemaFile = .ok (.name place') ∧
          (place' ≠ place → ∃ bytes,
            (generate t settings schema).tree.read places.schemaFile = .ok bytes ∧
              (schema.toValue.WellCoded →
                ((∃ schema', Schema.ofBytes bytes = .ok schema') ↔ schema.Reloads))) := by
  refine ⟨Schema.exists_ofValue_toValue_iff hkeyed, ?_⟩
  intro t settings output places path hnames hholds hok
  obtain ⟨place, place', hleads, hleads', hread⟩ := read_schemaFile_of_generate hnames hholds hok
  exact ⟨place, place', hleads, hleads', fun hne =>
    ⟨schema.bytes, hread hne, Schema.exists_ofBytes_iff hkeyed hjson⟩⟩

/-! ### A schema that is written and not loaded -/

/-- A list of images that does not say what an image is, in a record. -/
def imagesField : Field where
  name := .str "images"
  required := .bool true
  description := .null
  default := .null
  type := .list none

/-- A schema with that list. -/
def gallerySchema : Schema where
  documents := []
  objects := [(.str "Gallery", {
    name := .str "Gallery"
    label := .str ""
    description := .null
    fields := [⟨.str "frame", .bool false, .null, .null, .inlineObject [imagesField]⟩] })]

theorem keyed_gallerySchema : gallerySchema.Keyed := by
  have hnone {type : FieldType} (h : type.items = []) (h' : type.ExtraApart) : type.ExtrasApart :=
    ⟨h', h ▸ List.forall_mem_nil _⟩
  refine ⟨⟨List.nodup_nil, List.forall_mem_nil _⟩, ⟨List.nodup_cons.mpr ⟨nofun, List.nodup_nil⟩, ?_⟩,
    List.forall_mem_nil _, List.forall_mem_singleton.mpr ?_⟩
  · exact List.forall_mem_singleton.mpr ⟨"Gallery", rfl, rfl⟩
  · exact forall_within_cons.mpr ⟨⟨hnone rfl trivial, forall_within_cons.mpr
      ⟨⟨hnone rfl trivial, forall_within_nil⟩, forall_within_nil⟩⟩, forall_within_nil⟩

theorem wellKeyed_gallerySchema : gallerySchema.toValue.WellKeyed := by
  simp [gallerySchema, imagesField, Schema.toValue, Definition.toValue, optionalMember, fieldsToValues,
    fieldToValue, fieldMembers, fieldHead, Value.memberName, Value.isNull, Value.wellKeyed_obj_iff,
    Value.WellKeyed, WellKeyedItems, WellKeyedMembers, FieldType.kind]

theorem wellCoded_gallerySchema : gallerySchema.toValue.WellCoded := by
  simp (disch := decide) [gallerySchema, imagesField, Schema.toValue, Definition.toValue, optionalMember,
    fieldsToValues, fieldToValue, fieldMembers, fieldHead, Value.memberName, Value.isNull, Value.WellCoded,
    WellCodedItems, WellCodedMembers, FieldType.kind, Text.wellCoded_of_notMem]

theorem not_reloads_gallerySchema : ¬gallerySchema.Reloads := by
  intro h
  have hfields := h.2 _ (List.mem_singleton_self _)
  have himages := hfields imagesField (.deeper List.mem_cons_self (.here List.mem_cons_self))
  exact himages.1

theorem result_gallerySchema :
    (generate workTree hereSettings gallerySchema).result = .ok herePlaces.target := by
  have hname : IsName (.str "Gallery") := ⟨_, rfl, by decide⟩
  have hfields : FieldsWritable [imagesField] := ⟨⟨⟨_, rfl, by decide⟩, nofun, trivial⟩, trivial⟩
  have hschema : SchemaWritable gallerySchema :=
    ⟨List.forall_mem_nil _, List.forall_mem_singleton.mpr
      ⟨hname, nofun, nofun, ⟨⟨_, rfl, by decide⟩, nofun, hfields⟩, trivial⟩⟩
  have hshows : SchemaShows ShowsUnmarked gallerySchema :=
    ⟨List.forall_mem_nil _, List.forall_mem_singleton.mpr
      ⟨unmarked_ofList (by decide), nofun, nofun, ⟨unmarked_ofList (by decide), nofun,
        ⟨unmarked_ofList (by decide), nofun, trivial⟩, trivial⟩, trivial⟩⟩
  exact result_hereSettings_of_writable hschema hshows

theorem generate_reloads_gallerySchema :
    gallerySchema.Keyed ∧ gallerySchema.toValue.WellKeyed ∧
      (generate workTree hereSettings gallerySchema).result = .ok herePlaces.target ∧
      ∃ bytes, (generate workTree hereSettings gallerySchema).tree.read herePlaces.schemaFile = .ok bytes ∧
        ¬∃ schema', Schema.ofBytes bytes = .ok schema' := by
  obtain ⟨-, hrun⟩ := generate_reloads keyed_gallerySchema wellKeyed_gallerySchema
  obtain ⟨place, place', hleads, hleads', hfile⟩ :=
    hrun _ _ _ _ _ names_hereSettings rfl result_gallerySchema
  -- the two files lead where they led before the run, which is to different places
  have hkept := (effect_of_ok names_hereSettings result_gallerySchema).kept
  rw [hkept.resolve_eq_name ready_target_workTree.leads] at hleads
  rw [hkept.resolve_eq_name ready_schemaFile_workTree.leads] at hleads'
  cases hleads
  cases hleads'
  obtain ⟨bytes, hread, hiff⟩ := hfile (by decide)
  exact ⟨keyed_gallerySchema, wellKeyed_gallerySchema, result_gallerySchema, bytes, hread,
    fun h => not_reloads_gallerySchema ((hiff wellCoded_gallerySchema).mp h)⟩

/-- The module of that schema is written, but in the place of the item there is null, where the loader asks
for an object. -/
theorem ofValue_gallerySchema :
    gallerySchema.Keyed ∧ (generate workTree hereSettings gallerySchema).result = .ok herePlaces.target ∧
      Schema.ofValue gallerySchema.toValue =
        .error (.malformed ⟨[.member "objectDefMap", .member "Gallery", .member "fieldDefs", .item 0,
          .member "fieldDefs", .item 0, .member "of"]⟩ (.notObject .null)) := by
  refine ⟨keyed_gallerySchema, result_gallerySchema, eq_error_of_defect?_eq_some ?_⟩
  rw [Schema.defect?_ofValue]
  decide +kernel

end ContentTypes
