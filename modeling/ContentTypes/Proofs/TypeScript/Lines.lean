import ContentTypes.Proofs.Schema.Form
import ContentTypes.Proofs.TypeScript.Shown
import ContentTypes.TypeScript.Declaration
import Mathlib.Data.List.Chain

/-!
# Lines that open a declaration

`openedNames text` are the names of the record types that the lines of a text open, in order. A text that
is put together from lines opens what its lines open (`openedNames_intercalate`).

The lines of the members of a record never open anything, however deep they nest: behind each line break
in them stands the indent of a member, a closing brace or another line break, so no line starts with the
word that a declaration starts with (`inner_type`).
-/

set_option autoImplicit false

namespace ContentTypes.TypeScript

/-! ## Opened names -/

/-- The line that opens the record type of that name. -/
def openingLine (name : String) : String := "export type " ++ name ++ " = \x7b"

/-- The name of the record type that a line opens. -/
def openedName? (line : List Char) : Option String :=
  ((line.dropPrefix? "export type ".toList).bind fun rest => rest.dropSuffix? " = \x7b".toList).map
    String.ofList

/-- The names of the record types that the lines of a text open. -/
def openedNames (text : String) : List String :=
  (text.toList.splitOn '\n').filterMap openedName?

/-- A line opens a record type exactly if it is the opening line of it. -/
theorem openedName?_eq_some_iff {line : List Char} {name : String} :
    openedName? line = some name ↔ line = (openingLine name).toList := by
  simp only [openedName?, Option.map_eq_some_iff, Option.bind_eq_some_iff,
    List.dropPrefix?_eq_some_iff, List.dropSuffix?_eq_some_iff, beq_iff_eq, openingLine,
    String.toList_append]
  constructor
  · rintro ⟨cs, ⟨rest, ⟨_, rfl, rfl⟩, _, rfl, rfl⟩, rfl⟩
    simp
  · rintro rfl
    exact ⟨name.toList, ⟨_, ⟨_, List.append_assoc _ _ _, rfl⟩, _, rfl, rfl⟩, String.ofList_toList⟩

theorem openedName?_openingLine (name : String) : openedName? (openingLine name).toList = some name :=
  openedName?_eq_some_iff.mpr rfl

/-- A line without an opening brace opens nothing. -/
theorem openedName?_eq_none_of_not_mem {line : List Char} (h : '\x7b' ∉ line) :
    openedName? line = none := by
  rw [Option.eq_none_iff_forall_ne_some]
  intro name hname
  rw [openedName?_eq_some_iff.mp hname] at h
  exact h (by simp [openingLine])

/-- A line that starts with another character opens nothing. -/
theorem openedName?_eq_none_of_head? {line : List Char} (h : line.head? ≠ some 'e') :
    openedName? line = none := by
  rw [Option.eq_none_iff_forall_ne_some]
  intro name hname
  rw [openedName?_eq_some_iff.mp hname] at h
  exact h (by simp [openingLine])

/-- What is opened on both sides of a line break. -/
theorem openedNames_append_line (text text' : String) :
    openedNames (text ++ "\n" ++ text') = openedNames text ++ openedNames text' := by
  have htoList : (text ++ "\n" ++ text').toList = text.toList ++ '\n' :: text'.toList := by simp
  rw [openedNames, htoList, List.splitOn, List.splitOnP_append_cons _ _ (by simp),
    List.filterMap_append]
  rfl

/-- A line break at the end opens nothing more. -/
theorem openedNames_append_break (text : String) : openedNames (text ++ "\n") = openedNames text := by
  have hempty : openedNames "" = [] := rfl
  have happend := openedNames_append_line text ""
  rwa [String.append_empty, hempty, List.append_nil] at happend

/-- What is opened on both sides of an empty line. -/
theorem openedNames_append_emptyLine (text text' : String) :
    openedNames (text ++ "\n\n" ++ text') = openedNames text ++ openedNames text' := by
  have hsplit : text ++ "\n\n" ++ text' = text ++ "\n" ++ "\n" ++ text' := by
    simp only [String.append_assoc]
    rfl
  rw [hsplit, openedNames_append_line, openedNames_append_break]

/-- What is opened in texts with breaks between them. -/
theorem openedNames_intercalate {separator : String}
    (h : ∀ text text', openedNames (text ++ separator ++ text') = openedNames text ++ openedNames text')
    (texts : List String) :
    openedNames (String.intercalate separator texts) = texts.flatMap openedNames := by
  induction texts with
  | nil => rfl
  | cons text texts ih =>
      cases texts with
      | nil => simp
      | cons text' texts =>
          rw [String.intercalate_cons_cons, h, ih]
          rfl

/-- What is opened in lines, each with a break behind it, and a last line. -/
theorem openedNames_join (lines : List String) (last : String) :
    openedNames (String.join (lines.map (· ++ "\n")) ++ last) =
      lines.flatMap openedNames ++ openedNames last := by
  induction lines with
  | nil => simp
  | cons line lines ih =>
      rw [List.map_cons, String.join_cons, String.append_assoc, openedNames_append_line, ih,
        List.flatMap_cons, List.append_assoc]

/-! ## Single lines -/

/-- Whether a text has no line break. -/
def InLine (text : String) : Prop := '\n' ∉ text.toList

instance : DecidablePred InLine := fun text => inferInstanceAs (Decidable ('\n' ∉ text.toList))

theorem InLine.append {text text' : String} (h : InLine text) (h' : InLine text') :
    InLine (text ++ text') := by
  rw [InLine, String.toList_append, List.mem_append]
  exact fun hmem => hmem.elim h h'

/-- A text without a line break opens what it opens as a line. -/
theorem openedNames_of_line {text : String} (h : InLine text) :
    openedNames text = (openedName? text.toList).toList := by
  rw [openedNames, List.splitOn, List.splitOnP_eq_singleton]
  · rw [List.filterMap_cons]
    cases openedName? text.toList <;> rfl
  · intro c hc
    rw [beq_eq_false_iff_ne]
    exact fun heq => h (heq ▸ hc)

/-- A line that starts with another character opens nothing. -/
theorem openedNames_eq_nil_of_start (start : String) {text : String} {c : Char}
    (hstart : start.toList.head? = some c) (hc : c ≠ 'e') (h : InLine (start ++ text)) :
    openedNames (start ++ text) = [] := by
  rw [openedNames_of_line h, openedName?_eq_none_of_head?]
  · rfl
  · simp [List.head?_append, hstart, hc]

/-! ## Inside of a declaration -/

/-- What may follow a character inside of a declaration: behind a line break, nothing that the opening
of a declaration starts with. -/
def Continues (c c' : Char) : Prop := c = '\n' → c' ≠ 'e'

theorem splitOn_cons (c : Char) (cs : List Char) : (c :: cs).splitOn '\n' =
    if c = '\n' then [] :: cs.splitOn '\n' else (cs.splitOn '\n').modifyHead (c :: ·) := by
  simp [List.splitOn, List.splitOnP_cons_eq_if_modifyHead]

/-- The first line starts as the text does. -/
theorem head?_of_mem_head?_splitOn {cs line : List Char} (h : line ∈ (cs.splitOn '\n').head?) {c : Char}
    (hc : c ∈ line.head?) : c ∈ cs.head? := by
  cases cs with
  | nil =>
      obtain rfl : [] = line := by simpa [List.splitOn] using h
      cases hc
  | cons c' cs =>
      rw [splitOn_cons] at h
      split at h
      · obtain rfl : [] = line := by simpa using h
        cases hc
      · rw [List.head?_modifyHead] at h
        obtain ⟨first, -, rfl⟩ := Option.map_eq_some_iff.mp h
        exact hc

/-- The lines behind the first one. -/
theorem head?_of_mem_tail_splitOn {cs : List Char} (h : cs.IsChain Continues) :
    ∀ line ∈ (cs.splitOn '\n').tail, line.head? ≠ some 'e' := by
  induction cs with
  | nil => simp [List.splitOn]
  | cons c cs ih =>
      rw [List.isChain_cons] at h
      rw [splitOn_cons]
      split
      · rename_i hc
        rw [List.tail_cons]
        intro line hline he
        cases hlines : cs.splitOn '\n' with
        | nil => simp [hlines] at hline
        | cons first rest =>
            rw [hlines] at hline
            rcases List.mem_cons.mp hline with rfl | hline
            · have hhead : 'e' ∈ cs.head? := head?_of_mem_head?_splitOn (by rw [hlines]; rfl) he
              exact h.1 'e' hhead hc rfl
            · exact ih h.2 line (by rwa [hlines]) he
      · rw [List.tail_modifyHead]
        exact ih h.2

/-- A text of which no line starts like a declaration opens nothing. -/
theorem openedNames_of_isChain {text : String} (h : text.toList.IsChain Continues)
    (hhead : text.toList.head? ≠ some 'e') : openedNames text = [] := by
  rw [openedNames, List.filterMap_eq_nil_iff]
  intro line hline
  apply openedName?_eq_none_of_head?
  intro he
  cases hlines : text.toList.splitOn '\n' with
  | nil => simp [hlines] at hline
  | cons first rest =>
      rw [hlines] at hline
      rcases List.mem_cons.mp hline with rfl | hline
      · exact hhead (head?_of_mem_head?_splitOn (by rw [hlines]; rfl) he)
      · exact head?_of_mem_tail_splitOn h line (by rwa [hlines]) he

/-- A text that stands inside of a declaration, with all lines behind its first one. -/
structure Inner (text : String) : Prop where
  chain : text.toList.IsChain Continues
  last : text.toList.getLast? ≠ some '\n'

/-- One or more lines for a member of a record. -/
structure MemberLines (text : String) : Prop extends Inner text where
  head : text.toList.head? = some ' '

/-- A part of a line is inner. -/
theorem inner_of_line {text : String} (h : InLine text) : Inner text where
  chain := List.Pairwise.isChain <| List.pairwise_of_forall_mem_list fun _ hc _ _ heq =>
    absurd (heq ▸ hc) h
  last := fun hlast => h (List.mem_of_getLast? hlast)

theorem Inner.append {text text' : String} (h : Inner text) (h' : Inner text') :
    Inner (text ++ text') where
  chain := by
    rw [String.toList_append]
    refine h.chain.append h'.chain fun c hc c' _ heq => ?_
    exact absurd (heq ▸ hc) h.last
  last := by
    rw [String.toList_append, List.getLast?_append, Ne, Option.or_eq_some_iff]
    rintro (hlast | ⟨-, hlast⟩)
    · exact h'.last hlast
    · exact h.last hlast

theorem inner_intercalate {separator : String} {texts : List String} (hseparator : Inner separator)
    (h : ∀ text ∈ texts, Inner text) : Inner (String.intercalate separator texts) := by
  induction texts with
  | nil => exact inner_of_line (by simp [InLine])
  | cons text texts ih =>
      rw [List.forall_mem_cons] at h
      cases texts with
      | nil =>
          rw [String.intercalate_singleton]
          exact h.1
      | cons text' texts =>
          rw [String.intercalate_cons_cons]
          exact (h.1.append hseparator).append (ih h.2)

/-- A line break between what stands inside of a declaration and what starts like no other one. -/
theorem isChain_append_line {cs cs' : List Char} (h : cs.IsChain Continues)
    (hlast : cs.getLast? ≠ some '\n') (h' : cs'.IsChain Continues) (hhead : cs'.head? ≠ some 'e') :
    (cs ++ '\n' :: cs').IsChain Continues := by
  refine h.append (List.isChain_cons.mpr ⟨fun c hc _ he => ?_, h'⟩) fun c hc c' _ heq => ?_
  · exact hhead (he ▸ hc)
  · exact absurd (heq ▸ hc) hlast

theorem MemberLines.head_ne {text : String} (h : MemberLines text) :
    text.toList.head? ≠ some 'e' := by
  rw [h.head]
  decide

/-- A text continued with the lines of a member. -/
theorem Inner.append_line {text text' : String} (h : Inner text) (h' : MemberLines text') :
    Inner (text ++ "\n" ++ text') := by
  have htoList : (text ++ "\n" ++ text').toList = text.toList ++ '\n' :: text'.toList := by simp
  constructor
  · rw [htoList]
    exact isChain_append_line h.chain h.last h'.chain h'.head_ne
  · have hne : text'.toList ≠ [] := by
      intro hnil
      have := h'.head
      simp [hnil] at this
    rw [String.toList_append, List.getLast?_append_of_ne_nil _ hne]
    exact h'.last

theorem MemberLines.append_line {text text' : String} (h : MemberLines text) (h' : MemberLines text') :
    MemberLines (text ++ "\n" ++ text') where
  toInner := h.toInner.append_line h'
  head := by simp [String.toList_append, List.head?_append, h.head]

theorem memberLines_intercalate {lines : List String} (hne : lines ≠ [])
    (h : ∀ line ∈ lines, MemberLines line) : MemberLines (String.intercalate "\n" lines) := by
  induction lines with
  | nil => exact absurd rfl hne
  | cons line lines ih =>
      rw [List.forall_mem_cons] at h
      cases lines with
      | nil =>
          rw [String.intercalate_singleton]
          exact h.1
      | cons line' lines =>
          rw [String.intercalate_cons_cons]
          exact h.1.append_line (ih (by simp) h.2)

/-- Lines of members open nothing. -/
theorem MemberLines.openedNames_eq_nil {text : String} (h : MemberLines text) :
    openedNames text = [] :=
  openedNames_of_isChain h.chain h.head_ne

/-! ### Members of a record -/

/-- Whether a value shows without a line break. -/
def ShowsInLine (v : Value) : Prop := InLine v.display

instance : DecidablePred ShowsInLine := fun v => inferInstanceAs (Decidable (InLine v.display))

theorem inner_display {v : Value} (h : ShowsInLine v) : Inner v.display := inner_of_line h

theorem inner_literalUnion {options : List Value} (h : ∀ option ∈ options, ShowsInLine option) :
    Inner (literalUnion options) := by
  refine inner_intercalate (inner_of_line (by decide)) ?_
  intro text htext
  obtain ⟨option, hoption, rfl⟩ := List.mem_map.mp htext
  have hquote : Inner "'" := inner_of_line (by decide)
  exact (hquote.append (inner_display (h option hoption))).append hquote

theorem inner_todo {kind : Value} (h : ShowsInLine kind) : Inner (todo kind) := by
  have htodo : Inner "'todo " := inner_of_line (by decide)
  exact (htodo.append (inner_display h)).append (inner_of_line (by decide))

/-- A line behind an indent starts with it. -/
theorem MemberLines.of_indent {text : String} (h : Inner text) : MemberLines (indent ++ text) where
  toInner := (inner_of_line (by decide)).append h
  head := by
    rw [String.toList_append]
    rfl

theorem MemberLines.described {description : Value} {line : String}
    (h : description.holds = true → ShowsInLine description) (hline : MemberLines line) :
    MemberLines (described description line) := by
  unfold TypeScript.described
  by_cases hd : description.holds = true
  · rw [if_pos hd]
    have hcomment : Inner (docComment indent description) := by
      have hopen : Inner (indent ++ "/** ") := inner_of_line (by decide)
      exact (hopen.append (inner_display (h hd))).append (inner_of_line (by decide))
    refine ⟨hcomment.append_line hline, ?_⟩
    simp [docComment, indent]
  · rw [if_neg hd]
    exact hline

theorem memberLines_memberLine {name required description type : Value} (hname : ShowsInLine name)
    (hdescription : description.holds = true → ShowsInLine description) (h : Inner type.display) :
    MemberLines (memberLine name required description type) := by
  apply MemberLines.described hdescription
  have hcolon : Inner ": " := inner_of_line (by decide)
  have hending : Inner (if required.holds then "" else " | undefined") := by
    split
    · exact inner_of_line (by decide)
    · exact inner_of_line (by decide)
  have hline := (((inner_display hname).append hcolon).append h).append hending
  simpa only [String.append_assoc] using MemberLines.of_indent hline

/-- A record continues with the lines of its members, and with a brace on a line of its own. -/
theorem inner_record {lines : List String} (h : ∀ line ∈ lines, MemberLines line) :
    Inner (record lines) := by
  have htoList : (record lines).toList =
      ['\x7b'] ++ '\n' :: ((String.intercalate "\n" lines).toList ++ '\n' :: ['\x7d']) := by
    simp [record]
  have hclose : ['\x7d'].IsChain Continues := List.isChain_singleton _
  constructor
  · rw [htoList]
    cases lines with
    | nil => simp [Continues]
    | cons line lines =>
        have hlines := memberLines_intercalate (by simp) h
        refine isChain_append_line (List.isChain_singleton _) (by decide)
          (isChain_append_line hlines.chain hlines.last hclose (by decide)) ?_
        rw [List.head?_append, hlines.head]
        decide
  · rw [record, String.toList_append, List.getLast?_append]
    simp

/-! ### Types -/

/-- What is joined to a union are texts, in their order. -/
theorem textsFrom_eq_ok {position : Nat} {types : List Value} {texts : List String}
    (h : textsFrom position types = .ok texts) : types = texts.map Value.str := by
  induction types generalizing position texts with
  | nil =>
      cases h
      rfl
  | cons type types ih =>
      cases type with
      | str s =>
          rw [textsFrom] at h
          obtain ⟨rest, hrest, rfl⟩ := map_eq_ok_iff.mp h
          rw [ih hrest]
          rfl
      | _ => cases h

theorem listOf_eq_ok {type : Value} {text : String} (h : listOf type = .ok text) :
    ∃ s, type = .str s ∧ text = s ++ "[]" := by
  cases type with
  | str s =>
      cases h
      exact ⟨s, rfl, rfl⟩
  | _ => cases h

mutual

/-- The type of a field, whatever the depth of its records, continues with lines of members. -/
theorem inner_type : ∀ {type : FieldType} {v : Value}, TypeShows ShowsInLine type →
    fieldExpression type = .ok v → Inner v.display
  | .boolean, _, _, h | .string, _, _, h | .date, _, _, h | .image, _, _, h | .markdown, _, _, h
  | .reference _, _, _, h | .list none, _, _, h | .plain, _, _, h => by
      cases h
      exact inner_of_line (by decide)
  | .object name, _, hshows, h => by
      cases h
      exact inner_display hshows
  | .inlineObject fields, _, hshows, h => by
      rw [fieldExpression, bind_eq_ok_iff] at h
      obtain ⟨lines, hlines, h⟩ := h
      cases h
      exact inner_record (memberLines_fields hshows hlines)
  | .enumeration options, _, hshows, h => by
      cases h
      exact inner_literalUnion hshows
  | .list (some item), _, hshows, h => by
      rw [fieldExpression, bind_eq_ok_iff] at h
      obtain ⟨type, htype, h⟩ := h
      obtain ⟨text, htext, h⟩ := bind_eq_ok_iff.mp h
      cases h
      obtain ⟨s, rfl, rfl⟩ := listOf_eq_ok htext
      exact (inner_item hshows htype).append (inner_of_line (by decide))
  | .polymorphicList items, _, hshows, h => by
      rw [fieldExpression, bind_eq_ok_iff] at h
      obtain ⟨types, htypes, h⟩ := h
      obtain ⟨text, htext, h⟩ := bind_eq_ok_iff.mp h
      cases h
      obtain ⟨texts, htexts, rfl⟩ := map_eq_ok_iff.mp htext
      obtain rfl := textsFrom_eq_ok htexts
      have hunion : Inner (String.intercalate unionBar texts) := by
        refine inner_intercalate (inner_of_line (by decide)) ?_
        intro text htext
        exact inner_items hshows htypes (.str text) (List.mem_map_of_mem htext)
      have hopen : Inner "(" := inner_of_line (by decide)
      exact (hopen.append hunion).append (inner_of_line (by decide))
  | .unknown kind _, _, hshows, h => by
      cases h
      exact inner_todo hshows

theorem memberLines_field : ∀ {field : FieldOf FieldType} {line : String},
    FieldShows ShowsInLine field → fieldLine field = .ok line → MemberLines line
  | ⟨name, required, description, _, type⟩, _, hshows, h => by
      rw [fieldLine, bind_eq_ok_iff] at h
      obtain ⟨v, hv, h⟩ := h
      cases h
      exact memberLines_memberLine hshows.1 hshows.2.1 (inner_type hshows.2.2 hv)

theorem memberLines_fields : ∀ {fields : List (FieldOf FieldType)} {lines : List String},
    FieldsShow ShowsInLine fields → fieldLines fields = .ok lines → ∀ line ∈ lines, MemberLines line
  | [], _, _, h => by
      cases h
      exact List.forall_mem_nil _
  | field :: fields, _, hshows, h => by
      rw [fieldLines, bind_eq_ok_iff] at h
      obtain ⟨line, hline, h⟩ := h
      obtain ⟨lines, hlines, h⟩ := bind_eq_ok_iff.mp h
      cases h
      exact List.forall_mem_cons.mpr
        ⟨memberLines_field hshows.1 hline, memberLines_fields hshows.2 hlines⟩

theorem inner_item : ∀ {item : ItemType} {v : Value}, ItemShows ShowsInLine item →
    itemExpression item = .ok v → Inner v.display
  | .boolean, _, _, h | .string, _, _, h | .plain, _, _, h => by
      cases h
      exact inner_of_line (by decide)
  | .object name, _, hshows, h | .reference name, _, hshows, h => by
      cases h
      exact inner_display hshows
  | .enumeration options, _, hshows, h => by
      cases h
      have hopen : Inner "(" := inner_of_line (by decide)
      exact (hopen.append (inner_literalUnion hshows)).append (inner_of_line (by decide))
  | .inlineObject fields, _, hshows, h => by
      rw [itemExpression, bind_eq_ok_iff] at h
      obtain ⟨lines, hlines, h⟩ := h
      cases h
      exact inner_record (memberLines_fields hshows hlines)
  | .unknown kind _, _, hshows, h => by
      cases h
      exact inner_todo hshows

theorem inner_items : ∀ {items : List ItemType} {vs : List Value}, ItemsShow ShowsInLine items →
    itemExpressions items = .ok vs → ∀ v ∈ vs, Inner v.display
  | [], _, _, h => by
      cases h
      exact List.forall_mem_nil _
  | item :: items, _, hshows, h => by
      rw [itemExpressions, bind_eq_ok_iff] at h
      obtain ⟨v, hv, h⟩ := h
      obtain ⟨vs, hvs, h⟩ := bind_eq_ok_iff.mp h
      cases h
      exact List.forall_mem_cons.mpr ⟨inner_item hshows.1 hv, inner_items hshows.2 hvs⟩

end

end ContentTypes.TypeScript
