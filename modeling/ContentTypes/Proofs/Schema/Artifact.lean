import ContentTypes.Generation
import ContentTypes.Proofs.Files.Write
import ContentTypes.Proofs.Json.RoundTrip
import ContentTypes.Proofs.Schema.RoundTrip

/-!
# The schema on disk

A schema that was loaded is written as JSON into the directory of artifacts, and what is loaded from
that file is the same schema. The JSON form of what was loaded is JSON proper again
(`SchemaForm.wellKeyed`), so that its text reads back (`Json.read_print`), and its text comes through
the file unchanged, since it is plain.
-/

set_option autoImplicit false

namespace ContentTypes

/-! ## The written form is JSON proper -/

theorem Value.wellKeyed_obj_iff {members : Members} :
    (Value.obj members).WellKeyed ↔
      (members.map (·.1)).Nodup ∧ ∀ m ∈ members, m.2.WellKeyed := by
  rw [Value.WellKeyed, wellKeyedMembers_iff]

theorem Value.wellKeyed_of_isScalar {v : Value} (h : v.isScalar = true) : v.WellKeyed := by
  cases v with
  | arr items => cases h
  | obj members => cases h
  | _ => trivial

theorem Value.WellKeyed.getD {members : Members} {name : String} {v : Value}
    (h : (Value.obj members).WellKeyed) (hv : v.WellKeyed) :
    ((members.lookup name).getD v).WellKeyed := by
  cases hl : members.lookup name with
  | none => exact hv
  | some w => exact h.of_lookup hl

/-- An item of a list that has one member besides its kind. -/
theorem wellKeyed_item {tag name : String} {v : Value} (hname : "type" ≠ name) (hv : v.WellKeyed) :
    (Value.obj [("type", .str tag), (name, v)]).WellKeyed := by
  rw [Value.wellKeyed_obj_iff]
  refine ⟨by simpa using hname, ?_⟩
  rw [List.forall_mem_cons, List.forall_mem_singleton]
  exact ⟨trivial, hv⟩

theorem wellKeyed_optionalMember {name : String} {v : Value} (h : v.WellKeyed) :
    ∀ m ∈ optionalMember name v, m.2.WellKeyed := by
  intro m hm
  unfold optionalMember at hm
  split at hm
  · cases hm
  · rw [List.mem_singleton.mp hm]
    exact h

theorem FieldType.WellFormed.isScalar_kind {type : FieldType} (h : type.WellFormed) :
    type.kind.isScalar = true := by
  cases type with
  | unknown kind extra => exact h.1
  | _ => rfl

/-- The members of a field besides those that every field has are no two the same. -/
theorem nodup_ownMembers {type : FieldType} (h : type.ExtraApart) :
    ((ownMembers type).map (·.1)).Nodup := by
  cases type with
  | unknown kind extra => exact h.1
  | list item => cases item <;> simp [ownMembers]
  | _ => simp [ownMembers]

theorem nodup_fieldHead (name required description default kind : Value) :
    ((fieldHead name required description default kind).map (·.1)).Nodup := by
  unfold fieldHead optionalMember
  split <;> split <;> simp

theorem wellKeyed_fieldHead {name required description default kind : Value} (hname : name.WellKeyed)
    (hrequired : required.WellKeyed) (hdescription : description.WellKeyed)
    (hdefault : default.WellKeyed) (hkind : kind.WellKeyed) :
    ∀ m ∈ fieldHead name required description default kind, m.2.WellKeyed := by
  simp only [fieldHead, List.forall_mem_append, List.forall_mem_cons, and_assoc]
  exact ⟨hkind, hname, hrequired, by simp, wellKeyed_optionalMember hdescription,
    wellKeyed_optionalMember hdefault⟩

mutual

theorem FieldForm.wellKeyed {raw : Value} {field : Field} (hraw : raw.WellKeyed) :
    FieldForm raw field → (fieldToValue field).WellKeyed
  | .field hname hkind htype => by
      have hwf := htype.wellFormed hraw
      have hown := htype.wellKeyed hraw
      rw [fieldToValue, fieldOfMembers, fieldMembers_eq_append hwf.extraApart, Value.wellKeyed_obj_iff,
        List.map_append]
      constructor
      · -- the members that every field has are none of its own
        refine List.nodup_append.mpr ⟨nodup_fieldHead .., nodup_ownMembers hwf.extraApart, ?_⟩
        intro key hkey key' hkey' heq
        obtain ⟨m, hm, rfl⟩ := List.mem_map.mp hkey
        obtain ⟨m', hm', rfl⟩ := List.mem_map.mp hkey'
        exact ownMembers_not_common hwf.extraApart m' hm' (heq ▸ mem_commonMembers_of_mem_fieldHead m hm)
      · rw [List.forall_mem_append]
        refine ⟨?_, hown⟩
        exact wellKeyed_fieldHead (hraw.of_lookup hname) trivial (hraw.getD trivial)
          (hraw.getD trivial) (Value.wellKeyed_of_isScalar hwf.isScalar_kind)

theorem FieldTypeForm.wellKeyed {members : Members} {kind : Value} {type : FieldType}
    (hraw : (Value.obj members).WellKeyed) :
    FieldTypeForm members kind type → ∀ m ∈ ownMembers type, m.2.WellKeyed
  | .unknown .. => by
      intro m hm
      exact (Value.wellKeyed_obj_iff.mp hraw).2 m (List.mem_of_mem_filter hm)
  | .boolean | .string | .date | .image | .markdown => by simp [ownMembers]
  | .reference | .object => by
      rw [ownMembers, List.forall_mem_singleton]
      exact hraw.getD trivial
  | .enumeration hoptions => by
      rw [ownMembers, List.forall_mem_singleton]
      exact hoptions.wellKeyed hraw
  | .inlineObject hraws hfields => by
      rw [ownMembers, List.forall_mem_singleton]
      exact hfields.wellKeyed (hraws.wellKeyed hraw)
  | .list hof hitem => by
      rw [ownMembers, List.forall_mem_singleton]
      exact hitem.wellKeyed (hraw.of_lookup hof)
  | .polymorphicList hraws hitems => by
      rw [ownMembers, List.forall_mem_singleton]
      exact hitems.wellKeyed (hraws.wellKeyed hraw)

theorem FieldsForm.wellKeyed {raws : List Value} {fields : List Field}
    (hraws : WellKeyedItems raws) : FieldsForm raws fields → WellKeyedItems (fieldsToValues fields)
  | .nil => trivial
  | .cons hfield hfields => ⟨hfield.wellKeyed hraws.1, hfields.wellKeyed hraws.2⟩

theorem ItemForm.wellKeyed {raw : Value} {item : ItemType} (hraw : raw.WellKeyed) :
    ItemForm raw item → (itemToValue item).WellKeyed
  | .item _ htype => htype.wellKeyed hraw

theorem ItemTypeForm.wellKeyed {members : Members} {kind : Value} {type : ItemType}
    (hraw : (Value.obj members).WellKeyed) :
    ItemTypeForm members kind type → (itemToValue type).WellKeyed
  | .unknown hscalar hnone => by
      have hwf := (ItemTypeForm.unknown hscalar hnone).wellFormed hraw
      rw [itemToValue, setAll_of_isExtra hwf.2.2 (by simp), Value.wellKeyed_obj_iff]
      constructor
      · refine List.nodup_cons.mpr ⟨?_, hwf.2.2.1⟩
        intro hmem
        obtain ⟨m, hm, hkey⟩ := List.mem_map.mp hmem
        exact hwf.2.2.2 m hm (by simp [hkey])
      · refine List.forall_mem_cons.mpr ⟨Value.wellKeyed_of_isScalar hscalar, ?_⟩
        intro m hm
        exact (Value.wellKeyed_obj_iff.mp hraw).2 m (List.mem_of_mem_filter hm)
  | .boolean | .string => by simp [itemToValue, Value.wellKeyed_obj_iff, Value.WellKeyed]
  | .object | .reference => wellKeyed_item (by decide) (hraw.getD trivial)
  | .enumeration hoptions => wellKeyed_item (by decide) (hoptions.wellKeyed hraw)
  | .inlineObject hraws hfields =>
      wellKeyed_item (by decide) (hfields.wellKeyed (hraws.wellKeyed hraw))

theorem ItemsForm.wellKeyed {raws : List Value} {items : List ItemType}
    (hraws : WellKeyedItems raws) : ItemsForm raws items → WellKeyedItems (itemsToValues items)
  | .nil => trivial
  | .cons hitem hitems => ⟨hitem.wellKeyed hraws.1, hitems.wellKeyed hraws.2⟩

end

theorem ComputedForm.wellKeyed {raw : Value} {c : ComputedField} (hraw : raw.WellKeyed)
    (h : ComputedForm raw c) : c.toValue.WellKeyed := by
  obtain ⟨hname, htype⟩ := h
  rw [ComputedField.toValue, Value.wellKeyed_obj_iff]
  constructor
  · unfold optionalMember
    split <;> simp
  · simp only [List.forall_mem_append, List.forall_mem_cons, and_assoc]
    exact ⟨hraw.of_lookup hname, hraw.of_lookup htype, by simp,
      wellKeyed_optionalMember (hraw.getD trivial)⟩

theorem wellKeyed_computed {raws : List Value} {computed : List ComputedField}
    (hraws : WellKeyedItems raws) (h : List.Forall₂ ComputedForm raws computed) :
    WellKeyedItems (computed.map ComputedField.toValue) := by
  induction h with
  | nil => trivial
  | cons hc _ ih => exact ⟨hc.wellKeyed hraws.1, ih hraws.2⟩

theorem ObjectForm.wellKeyed {key : String} {raw : Value} {d : Definition} (hraw : raw.WellKeyed)
    (h : ObjectForm key raw d) : d.toValue.WellKeyed := by
  obtain ⟨hraws, hfields⟩ := h
  rw [Definition.toValue, Value.wellKeyed_obj_iff]
  constructor
  · unfold optionalMember
    split <;> simp
  · simp only [List.forall_mem_append, List.forall_mem_cons, and_assoc]
    exact ⟨hraw.getD trivial, hraw.getD trivial, by simp,
      wellKeyed_optionalMember (hraw.getD trivial), hfields.wellKeyed (hraws.wellKeyed hraw), by simp⟩

theorem DocumentForm.wellKeyed {key : String} {raw : Value} {d : Document} (hraw : raw.WellKeyed)
    (h : DocumentForm key raw d) : d.toValue.WellKeyed := by
  obtain ⟨hraws, hfields, hraws', hcomputed⟩ := h
  rw [Document.toValue, Value.wellKeyed_obj_iff]
  constructor
  · unfold optionalMember
    split <;> split <;> simp
  · simp only [List.forall_mem_append, List.forall_mem_cons, and_assoc]
    exact ⟨hraw.getD trivial, hraw.getD trivial, by simp,
      wellKeyed_optionalMember (hraw.getD trivial), wellKeyed_optionalMember (hraw.getD trivial),
      hfields.wellKeyed (hraws.wellKeyed hraw), wellKeyed_computed (hraws'.wellKeyed hraw) hcomputed,
      by simp⟩

/-- The entries of a map of definitions under their names, written one by one, have each name once. -/
theorem KeyedByName.wellKeyed {α : Type} {nameOf : α → Value} {map : List (Value × α)}
    {toValue : α → Value} (h : KeyedByName nameOf map) (hmap : ∀ e ∈ map, (toValue e.2).WellKeyed) :
    (Value.obj (map.map fun e => (e.1.memberName, toValue e.2))).WellKeyed := by
  rw [Value.wellKeyed_obj_iff]
  constructor
  · rw [List.map_map]
    refine List.pairwise_map.mpr ?_
    have hne : map.Pairwise fun e e' => e.1 ≠ e'.1 := List.pairwise_map.mp h.nodup
    refine hne.imp_of_mem ?_
    intro e e' he he' hkeys heq
    obtain ⟨s, hs, -⟩ := h.text e he
    obtain ⟨s', hs', -⟩ := h.text e' he'
    rw [hs, hs'] at hkeys
    simp only [Function.comp, hs, hs', Value.memberName] at heq
    exact hkeys (by rw [heq])
  · intro m hm
    obtain ⟨e, he, rfl⟩ := List.mem_map.mp hm
    exact hmap e he

/-- The JSON form of what is loaded from JSON proper is JSON proper. -/
theorem SchemaForm.wellKeyed {raw : Value} {schema : Schema} (hraw : raw.WellKeyed)
    (hnames : NamedByTexts raw) (h : SchemaForm raw schema) : schema.toValue.WellKeyed := by
  have hwf := h.wellFormed hraw hnames
  obtain ⟨hentries, hdocuments, hentries', hobjects⟩ := h
  rw [Schema.toValue, Value.wellKeyed_obj_iff]
  refine ⟨by simp, ?_⟩
  rw [List.forall_mem_cons, List.forall_mem_singleton]
  constructor
  · refine hwf.documents.wellKeyed ?_
    intro e he
    obtain ⟨raw, hraw', hform⟩ := hdocuments.exists_entry _ (mem_of_mem_merge he)
    exact hform.wellKeyed (hentries.wellKeyed hraw raw hraw')
  · refine hwf.objects.wellKeyed ?_
    intro e he
    obtain ⟨raw, hraw', hform⟩ := hobjects.exists_entry _ (mem_of_mem_merge he)
    exact hform.wellKeyed (hentries'.wellKeyed hraw raw hraw')

/-! ## The text of the file -/

/-- The text of a schema is plain, so that it has bytes, which are those of its characters. -/
theorem Schema.mark_notMem_toJson (schema : Schema) : Text.mark ∉ schema.toJson.toList := by
  have htext : schema.toJson.toList = Json.print schema.toValue := String.toList_ofList
  rw [htext]
  intro hmem
  have hplain := Json.isPlain_printAt 0 schema.toValue _ hmem
  revert hplain
  decide

theorem Schema.encodeFault?_toJson (schema : Schema) : Text.encodeFault? schema.toJson = none :=
  Text.encodeFault?_of_notMem schema.mark_notMem_toJson

/-- The bytes of the text of a schema hold the value that its form is read as. -/
theorem Schema.valueOfBytes_toJson {schema : Schema} (hkeyed : schema.toValue.WellKeyed)
    (hcoded : schema.toValue.WellCoded) :
    Schema.valueOfBytes (Text.bytes schema.toJson) = .ok (Json.reread schema.toValue) := by
  -- the text is plain, so that neither its bytes nor its line breaks change it
  have hplain := Json.isPlain_printAt 0 schema.toValue
  have htext : schema.toJson.toList = Json.print schema.toValue := String.toList_ofList
  have hbytes := Text.bytes_of_notMem schema.mark_notMem_toJson
  have hdecode : Utf8.decode (Text.bytes schema.toJson) = .ok schema.toJson.toList := by
    rw [hbytes, htext]
    exact Utf8.decode_encode_of_ascii fun c hc => (hplain c hc).1
  have hfold : Text.foldLineBreaks schema.toJson.toList = Json.print schema.toValue := by
    rw [htext]
    exact Text.foldLineBreaks_of_forall_ne fun c hc => (hplain c hc).2
  simp only [Schema.valueOfBytes, hdecode, Except.mapError, bind, Except.bind, hfold,
    Json.read_print_eq hkeyed hcoded]

/-- What is loaded from the text of a schema is the schema. -/
theorem Schema.WellFormed.ofBytes_toJson {schema : Schema} (h : schema.WellFormed)
    (hkeyed : schema.toValue.WellKeyed) (hcoded : schema.toValue.WellCoded)
    (hwhole : schema.toValue.FloatFree) : Schema.ofBytes (Text.bytes schema.toJson) = .ok schema := by
  have hload : Schema.ofValue schema.toValue = .ok schema := Schema.ofValue_eq_ok_iff.mpr h.form
  rw [Schema.ofBytes, Schema.valueOfBytes_toJson hkeyed hcoded, Json.reread_of_floatFree _ hwhole]
  show (Schema.ofValue schema.toValue).mapError FileDefect.notSchema = _
  rw [hload]
  rfl

/-! ## The place of the file -/

/-- Whether the file of a schema can be written into a directory that is there: no directory has its
name, and its path and that of the temporary file it is written through are within the limits. -/
structure FileTree.TakesSchema (t : FileTree) (directory : FilePath) : Prop where
  free : t.isDirectory (directory.child schemaFileName) = false
  textRoom : (directory.child schemaFileName).isTooLong = false
  temporaryRoom : ∀ place, t.descend (t.start directory) directory.names = .ok place →
    Text.size (⟨.root, place ++ [schemaFileName]⟩ : FilePath).display + FileTree.temporaryMargin ≤
      FilePath.pathLimit

namespace FileTree

variable {t : FileTree} {directory : FilePath}

theorem schemaFile_free : FilePath.IsUsable schemaFileName ∧ schemaFileName ≠ FilePath.upName ∧
    FilePath.nameTooLong schemaFileName = false :=
  ⟨⟨by decide, by decide⟩, by decide, by decide⟩

theorem dropLast_names_schemaFile (directory : FilePath) :
    (directory.child schemaFileName).names.dropLast = directory.names := by
  rw [FilePath.names_child, List.dropLast_concat]

theorem getLast?_names_schemaFile (directory : FilePath) :
    (directory.child schemaFileName).names.getLast? = some schemaFileName := by
  rw [FilePath.names_child, List.getLast?_concat]

/-- A directory that takes a schema takes the file of one. -/
theorem TakesSchema.takes (h : t.TakesSchema directory) (hdir : t.isDirectory directory = true) :
    ∃ place, t.Takes (directory.child schemaFileName) place := by
  obtain ⟨husable, hup, hlong⟩ := schemaFile_free
  obtain ⟨hfault, place, hplace⟩ := isDirectory_iff.mp hdir
  have hfault' := (pathFault?_child_eq_none_iff hfault husable).mpr h.textRoom
  refine ⟨place ++ [schemaFileName], ?_, ?_, ?_, h.temporaryRoom place hplace⟩
  · refine resolve_eq_name_iff.mpr
      ⟨hfault', place, _, ?_, getLast?_names_schemaFile directory, hup, hlong, rfl⟩
    rw [dropLast_names_schemaFile, start_child, hplace]
  · -- a directory in this place would be one that the file's path leads to
    intro hget
    have hfree := h.free
    rw [Bool.eq_false_iff] at hfree
    refine hfree (isDirectory_iff.mpr ⟨hfault', place ++ [schemaFileName], ?_⟩)
    rw [start_child, FilePath.names_child, descend_append, hplace]
    exact descend_singleton_eq_ok_iff.mpr (.inr ⟨hup, hlong, rfl, hget⟩)
  · rw [FilePath.fileName_child]
    decide

/-- A directory that takes the file of a schema takes the schema. -/
theorem Takes.takesSchema {place : Location} (h : t.Takes (directory.child schemaFileName) place)
    (hdir : t.isDirectory directory = true) : t.TakesSchema directory := by
  obtain ⟨husable, hup, -⟩ := schemaFile_free
  obtain ⟨hfault, place', hplace⟩ := isDirectory_iff.mp hdir
  obtain ⟨hfault', directory', name, hd, hlast, -, -, rfl⟩ := resolve_eq_name_iff.mp h.leads
  -- the file lies in the directory, under the name of a schema's file
  obtain rfl : schemaFileName = name :=
    Option.some.inj ((getLast?_names_schemaFile directory).symm.trans hlast)
  rw [dropLast_names_schemaFile, start_child, hplace] at hd
  cases hd
  refine ⟨?_, (pathFault?_child_eq_none_iff hfault husable).mp hfault', ?_⟩
  · rw [Bool.eq_false_iff]
    intro hdir'
    obtain ⟨-, place'', hplace'⟩ := isDirectory_iff.mp hdir'
    rw [start_child, FilePath.names_child, descend_append, hplace] at hplace'
    have hstep : t.descend place' [schemaFileName] = .ok place'' := hplace'
    rcases descend_singleton_eq_ok_iff.mp hstep with ⟨heq, -⟩ | ⟨-, -, rfl, hget⟩
    · exact hup heq
    · exact h.free hget
  · intro place'' hplace'
    rw [hplace] at hplace'
    cases hplace'
    exact h.pathRoom

end FileTree

/-! ## Writing it -/

/-- A schema is written into a directory that is there or can be made, without a check. -/
theorem writeSchema_eq_ok_iff {t u : FileTree} {schema : Schema} {directory path : FilePath} :
    writeSchema t schema directory = (u, .ok path) ↔
      path = directory.child schemaFileName ∧ ∃ t', t.makeDirs directory = (t', .ok ()) ∧
        writeAtomically t' (directory.child schemaFileName) schema.toJson
          (none : Option (Check TypeScript.Unsound)) = (u, .ok ()) := by
  unfold writeSchema makeArtifactsDir
  rcases hdirs : t.makeDirs directory with ⟨t', e | ⟨⟩⟩
  · simp
  · rcases hwrite : writeAtomically t' (directory.child schemaFileName) schema.toJson
      (none : Option (Check TypeScript.Unsound)) with ⟨u', e | ⟨⟩⟩
    · simp [hwrite]
    · simp only [hwrite, Prod.mk.injEq, Except.ok.injEq, and_true]
      constructor
      · rintro ⟨rfl, rfl⟩
        exact ⟨rfl, t', rfl, hwrite⟩
      · rintro ⟨rfl, t'', rfl, hwrite'⟩
        rw [hwrite] at hwrite'
        cases hwrite'
        exact ⟨rfl, rfl⟩

/-- A schema that was written was taken as a file, by the tree with the directory made. -/
theorem takes_of_writeSchema {t t' u : FileTree} {schema : Schema} {directory path : FilePath}
    (hdir : t.makeDirs directory = (t', .ok ()))
    (hwrite : writeSchema t schema directory = (u, .ok path)) :
    path = directory.child schemaFileName ∧ ∃ place,
      t'.Takes (directory.child schemaFileName) place ∧
      writeAtomically t' (directory.child schemaFileName) schema.toJson
        (none : Option (Check TypeScript.Unsound)) = (u, .ok ()) := by
  obtain ⟨hpath, t₁, hdir₁, hwrite₁⟩ := writeSchema_eq_ok_iff.mp hwrite
  obtain rfl : t' = t₁ := by
    rw [hdir] at hdir₁
    exact congrArg Prod.fst hdir₁
  -- the directory is there now, so that the write makes no other
  obtain ⟨-, hthere⟩ := FileTree.isDirectory_of_makeDirs hdir
  obtain ⟨t₂, place, hdir₂, htake, -⟩ := takes_of_writeAtomically hwrite₁
  obtain rfl : t' = t₂ := by
    rw [FilePath.parent_child, FileTree.makeDirs_of_isDirectory hthere] at hdir₂
    exact congrArg Prod.fst hdir₂
  exact ⟨hpath, place, htake, hwrite₁⟩

/-- **The artifact is a faithful copy.** A schema that was loaded from JSON proper, with definitions
named by texts, well coded texts and whole numbers only, is written into every directory that is there or can be made,
if the directory takes it, and only then. The file that is read back from the path of the write holds
a schema that is equal to it, is written as the same bytes again, and is declared alike under all
settings. -/
theorem writeSchema_faithful {t t' : FileTree} {raw : Value} {schema : Schema}
    {directory : FilePath} (hraw : raw.WellKeyed) (hnames : NamedByTexts raw)
    (hload : Schema.ofValue raw = .ok schema) (hcoded : schema.toValue.WellCoded)
    (hwhole : schema.toValue.FloatFree) (hdir : t.makeDirs directory = (t', .ok ())) :
    ((∃ u path, writeSchema t schema directory = (u, .ok path)) ↔ t'.TakesSchema directory) ∧
    ∀ u path, writeSchema t schema directory = (u, .ok path) →
      path = directory.child schemaFileName ∧ ∃ bytes schema', u.read path = .ok bytes ∧
        Schema.ofBytes bytes = .ok schema' ∧ schema' = schema ∧
        Text.bytes schema'.toJson = bytes ∧
        ∀ settings, TypeScript.moduleText settings schema' = TypeScript.moduleText settings schema := by
  have hform := Schema.ofValue_eq_ok_iff.mp hload
  have hfile : Schema.ofBytes (Text.bytes schema.toJson) = .ok schema :=
    (hform.wellFormed hraw hnames).ofBytes_toJson (hform.wellKeyed hraw hnames) hcoded hwhole
  obtain ⟨-, hthere⟩ := FileTree.isDirectory_of_makeDirs hdir
  have hagain : t'.makeDirs (directory.child schemaFileName).parent = (t', .ok ()) := by
    rw [FilePath.parent_child]
    exact FileTree.makeDirs_of_isDirectory hthere
  have hcheck : runCheck (none : Option (Check TypeScript.Unsound)) schema.toJson = .ok () := rfl
  refine ⟨⟨?_, ?_⟩, ?_⟩
  · -- what was written was taken
    rintro ⟨u, path, hwrite⟩
    obtain ⟨-, place, htake, -⟩ := takes_of_writeSchema hdir hwrite
    exact htake.takesSchema hthere
  · -- what is taken is written
    intro htakes
    obtain ⟨place, hplace⟩ := htakes.takes hthere
    obtain ⟨u, hwrite, -⟩ := writeAtomically_of_takes hagain hplace schema.encodeFault?_toJson hcheck
    exact ⟨u, _, writeSchema_eq_ok_iff.mpr ⟨rfl, t', hdir, hwrite⟩⟩
  · -- the file holds the text, and the path leads to it as it did before
    intro u path hwrite
    obtain ⟨rfl, place, htake, hwrite'⟩ := takes_of_writeSchema hdir hwrite
    obtain ⟨u', hwrite'', hcurrent, hget⟩ := writeAtomically_of_takes hagain htake schema.encodeFault?_toJson hcheck
    obtain rfl : u = u' := by
      rw [hwrite'] at hwrite''
      exact congrArg Prod.fst hwrite''
    have hkeeps := htake.keepsDirectories hcurrent hget
    have hread := read_of_get? hkeeps htake.leads ((hget place).trans (if_pos rfl))
    exact ⟨rfl, _, schema, hread, hfile, rfl, rfl, fun settings => rfl⟩

/-! ### A directory that takes the schema of places, and one that takes none -/

/-- A tree with a working directory that is empty. -/
def workTree : FileTree := ⟨["work"], [(["work"], .directory)]⟩

/-- A directory that can be made. -/
def artifactsDirectory : FilePath := ⟨.current, ["artifacts"]⟩

theorem makeDirs_artifactsDirectory :
    workTree.makeDirs artifactsDirectory =
      (workTree.put ["work", "artifacts"] .directory, .ok ()) := by
  have hmake : workTree.makeDir artifactsDirectory =
      .ok (workTree.put ["work", "artifacts"] .directory) :=
    FileTree.makeDir_eq_ok_iff.mpr ⟨_, rfl, rfl, rfl⟩
  rw [FileTree.makeDirs, FileTree.ensureDir, hmake]

theorem takesSchema_artifactsDirectory :
    (workTree.put ["work", "artifacts"] .directory).TakesSchema artifactsDirectory := by
  refine ⟨rfl, rfl, ?_⟩
  intro place hplace
  have hwhere : (workTree.put ["work", "artifacts"] .directory).descend
      ((workTree.put ["work", "artifacts"] .directory).start artifactsDirectory)
      artifactsDirectory.names = .ok ["work", "artifacts"] := rfl
  rw [hwhere] at hplace
  cases hplace
  decide

/-- No text of the schema has the mark in it. -/
theorem wellCoded_placesSchema : placesSchema.toValue.WellCoded := by
  simp (disch := decide) [placesSchema, Schema.toValue, Document.toValue, optionalMember, fieldsToValues,
    fieldToValue, fieldMembers, fieldHead, itemToValue, FieldType.kind, Members.setAll, KeyedList.update,
    KeyedList.upsert, Value.isNull, Value.memberName, Value.WellCoded, WellCodedMembers, WellCodedItems,
    Text.wellCoded_of_notMem]

theorem floatFree_placesSchema : placesSchema.toValue.FloatFree := by
  simp [placesSchema, Schema.toValue, Document.toValue, optionalMember, fieldsToValues, fieldToValue,
    fieldMembers, fieldHead, itemToValue, FieldType.kind, Members.setAll, KeyedList.update,
    KeyedList.upsert, Value.isNull, Value.FloatFree, FloatFreeMembers, FloatFreeItems]

theorem writeSchema_placesSchema :
    ∃ u bytes, writeSchema workTree placesSchema artifactsDirectory =
        (u, .ok (artifactsDirectory.child schemaFileName)) ∧
      u.read (artifactsDirectory.child schemaFileName) = .ok bytes ∧
      Schema.ofBytes bytes = .ok placesSchema := by
  obtain ⟨hiff, hcopy⟩ := writeSchema_faithful wellKeyed_placesValue namedByTexts_placesValue
    ofValue_placesValue wellCoded_placesSchema floatFree_placesSchema makeDirs_artifactsDirectory
  obtain ⟨u, path, hwrite⟩ := hiff.mpr takesSchema_artifactsDirectory
  obtain ⟨rfl, bytes, schema', hread, hload, rfl, -⟩ := hcopy u path hwrite
  exact ⟨u, bytes, hwrite, hread, hload⟩

/-- The names of two directories, of which the path below goes in and out of the first. -/
def farNames : String × String :=
  (String.ofList (List.replicate 240 'n'), String.ofList (List.replicate 185 'm'))

/-- A tree with the two directories. -/
def farTree : FileTree :=
  ⟨["work"], [(["work"], .directory), (["work", farNames.1], .directory),
    (["work", farNames.2], .directory)]⟩

/-- A path to the second directory that is within the limits, but not by much. -/
def farDirectory : FilePath :=
  ⟨.current, (List.replicate 16 [farNames.1, FilePath.upName]).flatten ++ [farNames.2]⟩

theorem hasNull_replicate (n : Nat) {c : Char} (h : c ≠ '\x00') :
    FilePath.hasNull (String.ofList (List.replicate n c)) = false := by
  rw [FilePath.hasNull, String.toList_ofList, ← Bool.not_eq_true, List.contains_iff_mem,
    List.mem_replicate]
  exact fun hmem => h hmem.2.symm

theorem isUsable_replicate (n : Nat) {c : Char} (hnull : c ≠ '\x00') (hmark : c ≠ Text.mark) :
    FilePath.IsUsable (String.ofList (List.replicate n c)) :=
  ⟨Text.encodeFault?_of_notMem (Text.mark_notMem_replicate n hmark), hasNull_replicate n hnull⟩

theorem size_farNames : Text.size farNames.1 = 240 ∧ Text.size farNames.2 = 185 :=
  ⟨Text.size_replicate 240 (by decide), Text.size_replicate 185 (by decide)⟩

theorem isUsable_of_mem_farDirectory : ∀ name ∈ farDirectory.names, FilePath.IsUsable name := by
  intro name hname
  simp only [farDirectory, List.mem_append, List.mem_flatten, List.mem_replicate,
    List.mem_singleton] at hname
  rcases hname with ⟨_, ⟨-, rfl⟩, hname⟩ | rfl
  · rcases List.mem_cons.mp hname with rfl | hname
    · exact isUsable_replicate 240 (by decide) (by decide)
    · rw [List.mem_singleton.mp hname]
      exact ⟨by decide, by decide⟩
  · exact isUsable_replicate 185 (by decide) (by decide)

theorem sizes_farDirectory :
    (farDirectory.names.map fun name => Text.size name + 1).sum = 4090 := by
  have hup : Text.size FilePath.upName = 2 := by decide
  simp only [farDirectory, List.map_append, List.map_flatten, List.map_replicate, List.map_cons, List.map_nil,
    List.sum_append, List.sum_flatten, List.sum_replicate_nat, List.sum_cons, List.sum_nil, size_farNames, hup]
  rfl

theorem isTooLong_farDirectory : farDirectory.isTooLong = false := by
  have hne : farDirectory.names ≠ [] := by simp [farDirectory]
  have hsize : Text.size farDirectory.display + 1 = 4090 :=
    (FilePath.size_display rfl hne).trans sizes_farDirectory
  have hlimit : FilePath.pathLimit = 4095 := rfl
  exact decide_eq_false (by omega)

theorem isTooLong_farDirectory_schemaFile : (farDirectory.child schemaFileName).isTooLong = true := by
  have hne : (farDirectory.child schemaFileName).names ≠ [] := by simp [FilePath.child]
  have hfile : Text.size schemaFileName = 11 := rfl
  have hsizes : ((farDirectory.child schemaFileName).names.map fun name => Text.size name + 1).sum = 4102 := by
    rw [FilePath.names_child, List.map_append, List.sum_append, sizes_farDirectory, List.map_singleton,
      List.sum_singleton, hfile]
  have hsize : Text.size (farDirectory.child schemaFileName).display + 1 = 4102 :=
    (FilePath.size_display rfl hne).trans hsizes
  have hlimit : FilePath.pathLimit = 4095 := rfl
  exact decide_eq_true (by omega)

theorem pathFault?_farDirectory : FileTree.pathFault? farDirectory = none := by
  refine FileTree.pathFault?_eq_none_iff.mpr ⟨?_, ?_, isTooLong_farDirectory⟩
  · exact farDirectory.encodeFault?_display.mpr fun name hname =>
      (isUsable_of_mem_farDirectory name hname).encodable
  · rw [List.any_eq_false]
    intro name hname
    rw [(isUsable_of_mem_farDirectory name hname).noNull]
    exact Bool.false_ne_true

/-- Going in and out of a directory leads back to where it is. -/
theorem FileTree.descend_inAndOut {t : FileTree} {here : Location} {name : String}
    (h : t.descend here [name] = .ok (here ++ [name])) (n : Nat) :
    t.descend here (List.replicate n [name, FilePath.upName]).flatten = .ok here := by
  have hout : t.descend (here ++ [name]) [FilePath.upName] = .ok here :=
    descend_singleton_eq_ok_iff.mpr (.inl ⟨rfl, (List.dropLast_concat ..).symm⟩)
  induction n with
  | zero => rfl
  | succ n ih =>
      have hround : t.descend here [name, FilePath.upName] = .ok here :=
        (FileTree.descend_append_of_ok h [FilePath.upName]).trans hout
      rw [List.replicate_succ, List.flatten_cons, FileTree.descend_append_of_ok hround, ih]

theorem descend_farTree : farTree.descend ["work"] [farNames.1] = .ok ["work", farNames.1] ∧
    farTree.descend ["work"] [farNames.2] = .ok ["work", farNames.2] := by
  constructor
  · refine FileTree.descend_singleton_eq_ok_iff.mpr (.inr ⟨by decide +kernel, ?_, rfl, by decide +kernel⟩)
    rw [FilePath.nameTooLong, size_farNames.1]
    decide
  · refine FileTree.descend_singleton_eq_ok_iff.mpr (.inr ⟨by decide +kernel, ?_, rfl, by decide +kernel⟩)
    rw [FilePath.nameTooLong, size_farNames.2]
    decide

theorem descend_farDirectory :
    farTree.descend (farTree.start farDirectory) farDirectory.names = .ok ["work", farNames.2] := by
  have hround := FileTree.descend_inAndOut descend_farTree.1 16
  exact (FileTree.descend_append_of_ok hround [farNames.2]).trans descend_farTree.2

/-- A directory that is there and empty need not take a schema: here the path to the file is beyond
the limits. -/
theorem not_writeSchema_farDirectory :
    (Value.obj []).WellKeyed ∧ NamedByTexts (.obj []) ∧ Schema.ofValue (.obj []) = .ok ⟨[], []⟩ ∧
      (Schema.toValue ⟨[], []⟩).FloatFree ∧ farTree.makeDirs farDirectory = (farTree, .ok ()) ∧
      farTree.descend (farTree.start farDirectory) farDirectory.names =
        .ok ["work", farNames.2] ∧
      farTree.get? ["work", farNames.2, schemaFileName] = none ∧
      ¬∃ u path, writeSchema farTree ⟨[], []⟩ farDirectory = (u, .ok path) := by
  have hdir : farTree.makeDirs farDirectory = (farTree, .ok ()) :=
    FileTree.makeDirs_of_isDirectory
      (FileTree.isDirectory_iff.mpr ⟨pathFault?_farDirectory, _, descend_farDirectory⟩)
  refine ⟨⟨by simp, trivial⟩, ?_, rfl, ?_, hdir, descend_farDirectory, by decide +kernel, ?_⟩
  · rintro _ ⟨⟩ map - entries hentries e he
    cases hentries
    cases he
  · simp [Schema.toValue, Value.FloatFree, FloatFreeMembers]
  · rintro ⟨u, path, hwrite⟩
    obtain ⟨-, t', -, hwrite'⟩ := writeSchema_eq_ok_iff.mp hwrite
    obtain ⟨t'', place, -, htake, -⟩ := takes_of_writeAtomically hwrite'
    have hfault := (FileTree.resolve_eq_name_iff.mp htake.leads).1
    rw [FileTree.pathFault?_child_eq_none_iff pathFault?_farDirectory FileTree.schemaFile_free.1] at hfault
    rw [isTooLong_farDirectory_schemaFile] at hfault
    cases hfault

end ContentTypes
