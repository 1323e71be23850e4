import ContentTypes.Proofs.Schema.Within
import ContentTypes.Proofs.TypeScript.Lines

/-!
# Where the lines of fields stand

The lines of a field are written in one way at every depth. `FieldsStand text i fields j` says that from the
place `i` to the place `j` a text is made up of the lines of the fields: those of each field behind a line
break, those of the next right behind them, and those of the fields in its records within them, placed in
the same way.

The members of a record or a declaration are written one below the other, so the lines of their fields stand
there (`fieldsStand_of_partAt`), and a declaration has its own lines in front of them and those of computed
fields behind (`declaration_laidOut`).
-/

set_option autoImplicit false

namespace ContentTypes

/-! ## Records in a type -/

/-- The fields of the record that an item is, if it is one. -/
def ItemType.records : ItemType → List (List Field)
  | .inlineObject fields => [fields]
  | _ => []

/-- The fields of each record in the type of a field, in order: of the record that it is, or of those it
lists. -/
def FieldType.records : FieldType → List (List Field)
  | .inlineObject fields => [fields]
  | type => type.items.flatMap ItemType.records

theorem ItemType.flatten_records (item : ItemType) : item.records.flatten = item.fields := by
  cases item <;> simp [records, fields]

theorem FieldType.flatten_records (type : FieldType) : type.records.flatten = type.fields := by
  have hitems (items : List ItemType) :
      (items.flatMap ItemType.records).flatten = items.flatMap ItemType.fields := by
    induction items with
    | nil => rfl
    | cons item items ih =>
        rw [List.flatMap_cons, List.flatten_append, item.flatten_records, ih, List.flatMap_cons]
  cases type <;> first | exact hitems _ | simp [records, fields]

namespace TypeScript

/-! ## Places in a text -/

/-- Whether a text has a part at a place. -/
def PartAt (text : List Char) (i : Nat) (part : List Char) : Prop := part <+: text.drop i

/-- Whether a text has a line, or several, at a place: behind a line break and in front of one. -/
def LineAt (text : List Char) (i : Nat) (line : String) : Prop :=
  ∃ k, i = k + 1 ∧ PartAt text k ('\n' :: (line.toList ++ ['\n']))

variable {text : List Char} {i j i' j' k : Nat}

theorem partAt_append {front part back : List Char} :
    PartAt (front ++ part ++ back) front.length part := by
  rw [PartAt, List.append_assoc, List.drop_left]
  exact List.prefix_append part back

theorem PartAt.left {part part' : List Char} (h : PartAt text i (part ++ part')) : PartAt text i part :=
  (List.prefix_append part part').trans h

theorem PartAt.right {part part' : List Char} (h : PartAt text i (part ++ part')) :
    PartAt text (i + part.length) part' := by
  obtain ⟨back, hback⟩ := h
  refine ⟨back, ?_⟩
  rw [← List.drop_drop, ← hback, List.append_assoc, List.drop_left]

theorem PartAt.tail {c : Char} {part : List Char} (h : PartAt text i (c :: part)) :
    PartAt text (i + 1) part := by
  rw [← List.singleton_append] at h
  exact h.right

/-! ## Lines of fields in a text -/

mutual

/-- Whether a text is made up of the lines of fields from one place to another: those of each field at their
place and those of the next behind them, with the lines of the fields in its records among them. -/
inductive FieldsStand (text : List Char) : Nat → List Field → Nat → Prop where
  | nil {i : Nat} : FieldsStand text i [] i
  | cons {i j : Nat} {field : Field} {fields : List Field} {line : String}
      (hline : fieldLine field = .ok line) (hplace : LineAt text i line)
      (hrecords : RecordsStand text i field.type.records (i + line.length))
      (hfields : FieldsStand text (i + line.length + 1) fields j) :
      FieldsStand text i (field :: fields) j

/-- Whether the lines of the fields of records stand between two places, one record behind the other. -/
inductive RecordsStand (text : List Char) : Nat → List (List Field) → Nat → Prop where
  | nil {i j : Nat} (h : i ≤ j) : RecordsStand text i [] j
  | cons {i i' j' j : Nat} {fields : List Field} {records : List (List Field)} (h : i ≤ i')
      (hfields : FieldsStand text i' fields j') (hrecords : RecordsStand text j' records j) :
      RecordsStand text i (fields :: records) j

end

theorem FieldsStand.le {fields : List Field} (h : FieldsStand text i fields j) : i ≤ j := by
  induction fields generalizing i with
  | nil =>
      cases h
      exact Nat.le_refl _
  | cons field fields ih =>
      cases h with
      | cons _ _ _ hfields =>
          have := ih hfields
          omega

theorem RecordsStand.mono {records : List (List Field)} (h : RecordsStand text i records j) (hi : i' ≤ i)
    (hj : j ≤ j') : RecordsStand text i' records j' := by
  induction records generalizing i i' with
  | nil =>
      cases h with
      | nil h => exact .nil (by omega)
  | cons fields records ih =>
      cases h with
      | cons h hfields hrecords => exact .cons (by omega) hfields (ih hrecords (Nat.le_refl _))

theorem RecordsStand.le {records : List (List Field)} (h : RecordsStand text i records j) : i ≤ j := by
  induction records generalizing i with
  | nil =>
      cases h with
      | nil h => exact h
  | cons fields records ih =>
      cases h with
      | cons h hfields hrecords => exact (h.trans hfields.le).trans (ih hrecords)

theorem RecordsStand.append {records records' : List (List Field)} (h : RecordsStand text i records j)
    (h' : RecordsStand text j records' k) : RecordsStand text i (records ++ records') k := by
  induction records generalizing i with
  | nil =>
      cases h with
      | nil h => exact h'.mono h (Nat.le_refl _)
  | cons fields records ih =>
      cases h with
      | cons h hfields hrecords => exact .cons h hfields (ih hrecords)

/-! ### Fields at any depth -/

/-- Whether the lines of a field have a place in a text between two others. -/
def StandsBetween (text : List Char) (i : Nat) (field : Field) (j : Nat) : Prop :=
  ∃ line k, fieldLine field = .ok line ∧ LineAt text k line ∧ i ≤ k ∧ k + line.length < j

theorem StandsBetween.mono {field : Field} (h : StandsBetween text i field j) (hi : i' ≤ i) (hj : j ≤ j') :
    StandsBetween text i' field j' := by
  obtain ⟨line, k, hline, hplace, hik, hkj⟩ := h
  exact ⟨line, k, hline, hplace, by omega, by omega⟩

/-- Each of the fields has a place, and its records stand in its lines. -/
theorem FieldsStand.exists_of_mem {fields : List Field} {field : Field} (h : FieldsStand text i fields j)
    (hfield : field ∈ fields) : ∃ line k, fieldLine field = .ok line ∧ LineAt text k line ∧ i ≤ k ∧
      k + line.length < j ∧ RecordsStand text k field.type.records (k + line.length) := by
  induction fields generalizing i with
  | nil => cases hfield
  | cons first fields ih =>
      cases h with
      | @cons _ _ _ _ line hline hplace hrecords hfields =>
          rcases List.mem_cons.mp hfield with rfl | hfield
          · have := hfields.le
            exact ⟨line, i, hline, hplace, Nat.le_refl _, by omega, hrecords⟩
          · obtain ⟨line', k, hline', hplace', hik, hkj, hrecords'⟩ := ih hfields hfield
            exact ⟨line', k, hline', hplace', by omega, hkj, hrecords'⟩

/-- Each of the records has a place. -/
theorem RecordsStand.exists_of_mem {fields : List Field} {records : List (List Field)}
    (h : RecordsStand text i records j) (hfields : fields ∈ records) :
    ∃ i' j', i ≤ i' ∧ FieldsStand text i' fields j' ∧ j' ≤ j := by
  induction records generalizing i with
  | nil => cases hfields
  | cons first records ih =>
      cases h with
      | @cons _ i' j' _ _ _ hi hfirst hrecords =>
          have hle := hfirst.le
          rcases List.mem_cons.mp hfields with rfl | hfields
          · exact ⟨i', j', hi, hfirst, hrecords.le⟩
          · obtain ⟨i'', j'', hi', hstand, hj⟩ := ih hrecords hfields
            exact ⟨i'', j'', by omega, hstand, hj⟩

/-- The fields of records that stand in a text have their places in it, and so have those below them. -/
theorem RecordsStand.standsBetween {field : Field} {records : List (List Field)}
    (hfield : Within field records.flatten) (h : RecordsStand text i records j) :
    StandsBetween text i field j := by
  generalize hflatten : records.flatten = fields at hfield
  induction hfield generalizing records i j with
  | here hmem =>
      rw [← hflatten] at hmem
      obtain ⟨record, hrecord, hmem⟩ := List.mem_flatten.mp hmem
      obtain ⟨i', j', hi, hstand, hj⟩ := h.exists_of_mem hrecord
      obtain ⟨line, k, hline, hplace, hik, hkj, -⟩ := hstand.exists_of_mem hmem
      exact ⟨line, k, hline, hplace, by omega, by omega⟩
  | @deeper fields outer hmem hwithin ih =>
      rw [← hflatten] at hmem
      obtain ⟨record, hrecord, hmem⟩ := List.mem_flatten.mp hmem
      obtain ⟨i', j', hi, hstand, hj⟩ := h.exists_of_mem hrecord
      obtain ⟨line, k, -, -, hik, hkj, hrecords⟩ := hstand.exists_of_mem hmem
      exact (ih hrecords outer.type.flatten_records).mono (by omega) (by omega)

/-- The fields that stand in a text have their places in it, at any depth. -/
theorem FieldsStand.standsBetween {field : Field} {fields : List Field} (h : FieldsStand text i fields j)
    (hfield : Within field fields) : StandsBetween text i field j := by
  have hrecord : RecordsStand text i [fields] j := .cons (Nat.le_refl _) h (.nil (Nat.le_refl _))
  refine hrecord.standsBetween ?_
  rwa [List.flatten_singleton]

/-! ## Lines one below the other -/

/-- The text of lines, each with a line break behind it. -/
def linesText (lines : List String) : List Char := lines.flatMap fun line => line.toList ++ ['\n']

theorem linesText_cons (line : String) (lines : List String) :
    linesText (line :: lines) = line.toList ++ '\n' :: linesText lines := by
  simp [linesText]

theorem linesText_append (lines lines' : List String) :
    linesText (lines ++ lines') = linesText lines ++ linesText lines' := List.flatMap_append

theorem exists_linesText_eq {lines : List String} (h : lines ≠ []) :
    ∃ front, linesText lines = front ++ ['\n'] := by
  obtain ⟨lines, last, rfl⟩ := (List.eq_nil_or_concat' lines).resolve_left h
  exact ⟨linesText lines ++ last.toList, by simp [linesText]⟩

/-- Lines with line breaks between them are lines with one behind each, up to the last. -/
theorem toList_intercalate_concat (lines : List String) (last : String) :
    (String.intercalate "\n" (lines ++ [last])).toList = linesText lines ++ last.toList := by
  induction lines with
  | nil => simp [linesText]
  | cons line lines ih =>
      have hne : lines ++ [last] ≠ [] := by simp
      obtain ⟨next, rest, hrest⟩ := List.exists_cons_of_ne_nil hne
      rw [List.cons_append, hrest, String.intercalate_cons_cons, ← hrest, String.toList_append,
        String.toList_append, ih, linesText_cons]
      simp

/-- The lines of a record stand behind its brace. -/
theorem exists_toList_record (lines : List String) :
    ∃ back, (record lines).toList = '\x7b' :: '\n' :: (linesText lines ++ back) := by
  rcases List.eq_nil_or_concat' lines with rfl | ⟨lines, last, rfl⟩
  · exact ⟨['\n', '\x7d'], rfl⟩
  · refine ⟨['\x7d'], ?_⟩
    rw [record, String.toList_append, String.toList_append, toList_intercalate_concat, linesText_append]
    simp [linesText]

/-- The type of a member stands in its line. -/
theorem exists_toList_memberLine (name required description type : Value) :
    ∃ front back, (memberLine name required description type).toList =
      front ++ (type.display.toList ++ back) := by
  let ending := if required.holds then "" else " | undefined"
  unfold memberLine described
  split
  · refine ⟨(docComment indent description ++ "\n" ++ indent ++ name.display ++ ": ").toList,
      ending.toList, ?_⟩
    simp only [String.toList_append, List.append_assoc, ending]
  · refine ⟨(indent ++ name.display ++ ": ").toList, ending.toList, ?_⟩
    simp only [String.toList_append, List.append_assoc, ending]

/-! ## The lines of members -/

/-- A record has its fields where its lines are. -/
theorem recordsStand_record {fields : List Field} {lines : List String}
    (hpart : PartAt text i (record lines).toList)
    (h : PartAt text (i + 1) ('\n' :: linesText lines) →
      FieldsStand text (i + 1 + 1) fields (i + 1 + 1 + (linesText lines).length)) :
    RecordsStand text i [fields] (i + (record lines).length) := by
  obtain ⟨back, hback⟩ := exists_toList_record lines
  have hlength : (record lines).length = (linesText lines).length + back.length + 2 := by
    rw [← String.length_toList, hback]
    simp
  rw [hback] at hpart
  have hlines : PartAt text (i + 1) ('\n' :: linesText lines) :=
    PartAt.left hpart.tail
  exact .cons (by omega) (h hlines) (.nil (by omega))

mutual

/-- The records in the type of a field stand in what is written for it. -/
theorem recordsStand_type {text : List Char} : ∀ (type : FieldType) {v : Value} {i : Nat},
    fieldExpression type = .ok v → PartAt text i v.display.toList →
      RecordsStand text i type.records (i + v.display.length)
  | .boolean, _, _, _, _ => .nil (Nat.le_add_right _ _)
  | .string, _, _, _, _ => .nil (Nat.le_add_right _ _)
  | .date, _, _, _, _ => .nil (Nat.le_add_right _ _)
  | .image, _, _, _, _ => .nil (Nat.le_add_right _ _)
  | .markdown, _, _, _, _ => .nil (Nat.le_add_right _ _)
  | .reference _, _, _, _, _ => .nil (Nat.le_add_right _ _)
  | .object _, _, _, _, _ => .nil (Nat.le_add_right _ _)
  | .enumeration _, _, _, _, _ => .nil (Nat.le_add_right _ _)
  | .unknown _ _, _, _, _, _ => .nil (Nat.le_add_right _ _)
  | .plain, _, _, _, _ => .nil (Nat.le_add_right _ _)
  | .list none, _, _, _, _ => .nil (Nat.le_add_right _ _)
  | .inlineObject fields, _, _, h, hpart => by
      obtain ⟨lines, hlines, h⟩ := bind_eq_ok_iff.mp h
      cases h
      exact recordsStand_record hpart (fieldsStand_of_partAt fields hlines)
  | .list (some item), _, i, h, hpart => by
      obtain ⟨_, htype, h⟩ := bind_eq_ok_iff.mp h
      obtain ⟨_, hlisted, h⟩ := bind_eq_ok_iff.mp h
      cases h
      obtain ⟨name, rfl, rfl⟩ := listOf_eq_ok hlisted
      have hname : PartAt text i name.toList := by
        rw [Value.display, String.toList_append] at hpart
        exact hpart.left
      have hrecords : FieldType.records (.list (some item)) = item.records := List.append_nil _
      rw [hrecords]
      refine (recordsStand_item item htype hname).mono (Nat.le_refl _) ?_
      simp [Value.display]
  | .polymorphicList items, _, i, h, hpart => by
      obtain ⟨types, htypes, h⟩ := bind_eq_ok_iff.mp h
      obtain ⟨_, hunion, h⟩ := bind_eq_ok_iff.mp h
      cases h
      obtain ⟨texts, htexts, rfl⟩ := map_eq_ok_iff.mp hunion
      obtain rfl := textsFrom_eq_ok htexts
      have hunion : PartAt text (i + 1) (String.intercalate unionBar texts).toList := by
        rw [Value.display, String.toList_append, String.toList_append] at hpart
        exact hpart.left.right
      refine (recordsStand_items items htypes hunion).mono (Nat.le_succ i) ?_
      have hopen : "(".length = 1 := rfl
      rw [Value.display, String.length_append, String.length_append, hopen]
      omega

/-- The records in the type of a field stand in its lines. -/
theorem recordsStand_field {text : List Char} : ∀ (field : FieldOf FieldType) {line : String} {i : Nat},
    fieldLine field = .ok line → PartAt text i line.toList →
      RecordsStand text i field.type.records (i + line.length)
  | ⟨name, required, description, _, type⟩, _, _, h, hpart => by
      obtain ⟨v, hv, h⟩ := bind_eq_ok_iff.mp h
      cases h
      obtain ⟨front, back, hline⟩ := exists_toList_memberLine name required description v
      have hlength := congrArg List.length hline
      rw [String.length_toList, List.length_append, List.length_append, String.length_toList] at hlength
      rw [hline] at hpart
      exact (recordsStand_type type hv hpart.right.left).mono (Nat.le_add_right _ _) (by omega)

/-- Fields stand where their lines are, one below the other behind a line break. -/
theorem fieldsStand_of_partAt {text : List Char} :
    ∀ (fields : List (FieldOf FieldType)) {lines : List String} {i : Nat}, fieldLines fields = .ok lines →
      PartAt text i ('\n' :: linesText lines) →
        FieldsStand text (i + 1) fields (i + 1 + (linesText lines).length)
  | [], _, _, h, _ => by
      cases h
      exact .nil
  | field :: fields, _, i, h, hpart => by
      obtain ⟨line, hline, h⟩ := bind_eq_ok_iff.mp h
      obtain ⟨lines, hlines, h⟩ := bind_eq_ok_iff.mp h
      cases h
      rw [linesText_cons] at hpart ⊢
      have hbreaks : PartAt text i ('\n' :: (line.toList ++ ['\n'])) := by
        have hsplit : '\n' :: (line.toList ++ '\n' :: linesText lines) =
            '\n' :: (line.toList ++ ['\n']) ++ linesText lines := by simp
        exact PartAt.left (hsplit ▸ hpart)
      have hbehind : PartAt text (i + 1) (line.toList ++ '\n' :: linesText lines) := hpart.tail
      have hrest := fieldsStand_of_partAt fields hlines hbehind.right
      rw [String.length_toList] at hrest
      have hend : i + 1 + (line.toList ++ '\n' :: linesText lines).length =
          i + 1 + line.length + 1 + (linesText lines).length := by
        rw [List.length_append, String.length_toList, List.length_cons]
        omega
      rw [hend]
      exact .cons hline ⟨i, rfl, hbreaks⟩ (recordsStand_field field hline hbehind.left) hrest

/-- The records of an item stand in what is written for it. -/
theorem recordsStand_item {text : List Char} : ∀ (item : ItemType) {v : Value} {i : Nat},
    itemExpression item = .ok v → PartAt text i v.display.toList →
      RecordsStand text i item.records (i + v.display.length)
  | .boolean, _, _, _, _ => .nil (Nat.le_add_right _ _)
  | .string, _, _, _, _ => .nil (Nat.le_add_right _ _)
  | .object _, _, _, _, _ => .nil (Nat.le_add_right _ _)
  | .enumeration _, _, _, _, _ => .nil (Nat.le_add_right _ _)
  | .reference _, _, _, _, _ => .nil (Nat.le_add_right _ _)
  | .unknown _ _, _, _, _, _ => .nil (Nat.le_add_right _ _)
  | .plain, _, _, _, _ => .nil (Nat.le_add_right _ _)
  | .inlineObject fields, _, _, h, hpart => by
      obtain ⟨lines, hlines, h⟩ := bind_eq_ok_iff.mp h
      cases h
      exact recordsStand_record hpart (fieldsStand_of_partAt fields hlines)

/-- The records of items stand in their union, one behind the other. -/
theorem recordsStand_items {text : List Char} :
    ∀ (items : List ItemType) {texts : List String} {i : Nat},
      itemExpressions items = .ok (texts.map Value.str) →
        PartAt text i (String.intercalate unionBar texts).toList →
          RecordsStand text i (items.flatMap ItemType.records)
            (i + (String.intercalate unionBar texts).length)
  | [], _, _, _, _ => .nil (Nat.le_add_right _ _)
  | item :: items, [], _, h, _ => by
      obtain ⟨type, htype, h⟩ := bind_eq_ok_iff.mp h
      obtain ⟨types, htypes, h⟩ := bind_eq_ok_iff.mp h
      cases h
  | item :: items, first :: rest, i, h, hpart => by
      obtain ⟨type, htype, h⟩ := bind_eq_ok_iff.mp h
      obtain ⟨types, htypes, h⟩ := bind_eq_ok_iff.mp h
      cases h
      rw [List.flatMap_cons]
      cases rest with
      | nil =>
          rw [String.intercalate_singleton] at hpart ⊢
          exact (recordsStand_item item htype hpart).append
            (recordsStand_items items htypes List.nil_prefix)
      | cons next rest =>
          rw [String.intercalate_cons_cons, String.toList_append, String.toList_append] at hpart
          have hitem := recordsStand_item item htype hpart.left.left
          have hitems := recordsStand_items items htypes hpart.right
          rw [List.length_append, String.length_toList, String.length_toList] at hitems
          rw [String.intercalate_cons_cons, String.length_append, String.length_append]
          refine hitem.append (hitems.mono ?_ (by omega))
          rw [Value.display]
          omega

end

/-! ## Declarations -/

/-- The lines of a declaration in front of those of its fields, with the members that identify it. -/
def leadingLines (d : Definition) (identity : List String) : List String :=
  commentLines d ++ [openingLine d.name.display] ++ identity ++
    ["  _typeName: '" ++ d.name.display ++ "'", "  _raw?: Record<string, any>"]

theorem toList_declarationText (d : Definition) (identity members : List String) :
    (declarationText d identity members).toList =
      linesText (leadingLines d identity ++ members) ++ ['\x7d'] := by
  rw [declarationText, toList_intercalate_concat]
  simp [leadingLines, openingLine]

/-- Whether a text is made up of lines in front, the lines of fields, lines behind and a closing brace, with
the lines of the fields and of all fields below them in their places. -/
structure LaidOut (text : String) (front : List String) (fields : List Field) (lines back : List String) :
    Prop where
  written : fieldLines fields = .ok lines
  toList_eq : text.toList = linesText (front ++ lines ++ back) ++ ['\x7d']
  stand : FieldsStand text.toList (linesText front).length fields (linesText (front ++ lines)).length
  between : ∀ field, Within field fields →
    StandsBetween text.toList (linesText front).length field (linesText (front ++ lines)).length

/-- Behind the lines that open a declaration there is room for lines of fields. -/
theorem laidOut_declarationText {d : Definition} {lines : List String} (identity back : List String)
    (h : fieldLines d.fields = .ok lines) :
    LaidOut (declarationText d identity (lines ++ back)) (leadingLines d identity) d.fields lines back := by
  have htext := toList_declarationText d identity (lines ++ back)
  rw [← List.append_assoc] at htext
  -- the line break in front of the first field is that of the last leading line
  have hne : leadingLines d identity ≠ [] := by simp [leadingLines]
  obtain ⟨front, hfront⟩ := exists_linesText_eq hne
  have hpart : PartAt (declarationText d identity (lines ++ back)).toList front.length
      ('\n' :: linesText lines) := by
    have hsplit : (declarationText d identity (lines ++ back)).toList =
        front ++ ('\n' :: linesText lines) ++ (linesText back ++ ['\x7d']) := by
      rw [htext, linesText_append, linesText_append, hfront]
      simp
    rw [hsplit]
    exact partAt_append
  have hstand := fieldsStand_of_partAt d.fields h hpart
  have hlength : (linesText (leadingLines d identity)).length = front.length + 1 := by
    rw [hfront, List.length_append]
    rfl
  rw [← hlength, ← List.length_append, ← linesText_append] at hstand
  exact ⟨h, htext, hstand, fun _ hfield => hstand.standsBetween hfield⟩

/-- **Fields are written by one rule at every depth.** In a declaration the lines of its fields stand one
below the other, in their order, behind the members that identify it and, in a kind of document, in front of
the computed fields. Within the lines of each field stand those of the fields in its records, in the same
way: each field at any depth has its lines in the text, just as they are written alone, between two line
breaks. -/
theorem declaration_laidOut :
    (∀ (d : Definition) (declared : Declaration), objectDeclaration d = .ok declared →
      ∃ lines, LaidOut declared.text (leadingLines d []) d.fields lines []) ∧
    ∀ (d : Document) (declared : Declaration), documentDeclaration d = .ok declared →
      ∃ lines, LaidOut declared.text (leadingLines d.toDefinition ["  _id: string"]) d.fields lines
        (d.computed.map computedLine) := by
  refine ⟨fun d declared h => ?_, fun d declared h => ?_⟩
  · obtain ⟨lines, hlines, h⟩ := bind_eq_ok_iff.mp h
    cases h
    have hlaid := laidOut_declarationText [] [] hlines
    rw [List.append_nil] at hlaid
    exact ⟨lines, hlaid⟩
  · obtain ⟨members, hmembers, h⟩ := bind_eq_ok_iff.mp h
    obtain ⟨lines, hlines, hmembers⟩ := bind_eq_ok_iff.mp hmembers
    cases hmembers
    cases h
    exact ⟨lines, laidOut_declarationText _ (d.computed.map computedLine) hlines⟩

/-- A field with a description. -/
def captionField : Field := ⟨.str "caption", .bool false, .str "Below it", .null, .string⟩

/-- An album with a list of pictures, which are records or say where they are, in a record. -/
def albumDocument : Document where
  name := .str "Album"
  label := .str ""
  description := .null
  fields := [⟨.str "title", .bool true, .null, .null, .string⟩,
    ⟨.str "side", .bool false, .null, .null, .inlineObject [⟨.str "pictures", .bool true, .null, .null,
      .polymorphicList [.inlineObject [⟨.str "at", .bool true, .null, .null, .string⟩, captionField],
        .string, .inlineObject [captionField]]⟩]⟩]
  computed := [⟨.str "slug", .str "string", .null⟩]
  filePathPattern := .null

theorem declaration_laidOut_albumDocument :
    ∃ declared lines, documentDeclaration albumDocument = .ok declared ∧
      LaidOut declared.text (leadingLines albumDocument.toDefinition ["  _id: string"])
        albumDocument.fields lines ["  slug: string"] ∧
      ∃ i j, StandsBetween declared.text.toList i captionField j := by
  obtain ⟨declared, hdeclared⟩ : ∃ declared, documentDeclaration albumDocument = .ok declared := ⟨_, rfl⟩
  obtain ⟨lines, hlaid⟩ := declaration_laidOut.2 albumDocument declared hdeclared
  have hwithin : Within captionField albumDocument.fields := by
    refine .deeper (List.mem_cons_of_mem _ List.mem_cons_self) ?_
    refine .deeper List.mem_cons_self (.here ?_)
    exact List.mem_cons_of_mem _ List.mem_cons_self
  exact ⟨declared, lines, hdeclared, hlaid, _, _, hlaid.between captionField hwithin⟩

end TypeScript

end ContentTypes
