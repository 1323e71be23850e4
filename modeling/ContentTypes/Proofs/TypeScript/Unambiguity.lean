import ContentTypes.Proofs.TypeScript.Reader
import Mathlib.Data.List.DropRight

/-!
# The grammar is unambiguous

The reader takes whatever the grammar derives (`reads_of_derives`), and is a function, so a text is a
member in one way at most (`member_unique`). The induction is on the derivation, for any rest behind
the text: behind a primary brackets may follow, behind a type they may not, since they would belong to
the last primary of its union.
-/

set_option autoImplicit false

namespace ContentTypes.TypeScript

/-! ## What may stand behind -/

/-- What stands here does not go on with a name in front of it. -/
def EndsName (s : List Char) : Prop := ∀ c rest, s = c :: rest → isNamePart c = false

/-- What stands here goes on neither with a name nor with brackets in front of it. -/
def EndsType (s : List Char) : Prop := ∀ c rest, s = c :: rest → isNamePart c = false ∧ c ≠ '['

theorem EndsType.endsName {s : List Char} (h : EndsType s) : EndsName s :=
  fun c rest heq => (h c rest heq).1

theorem endsName_cons {c : Char} (s : List Char) (h : isNamePart c = false) : EndsName (c :: s) := by
  intro c' rest heq
  cases heq
  exact h

theorem endsType_nil : EndsType [] := by
  intro c rest heq
  cases heq

theorem endsType_cons {c : Char} (s : List Char) (h : isNamePart c = false ∧ c ≠ '[') :
    EndsType (c :: s) := by
  intro c' rest heq
  cases heq
  exact h

/-- A name in front of something else is read whole. -/
theorem readName?_append {text : String} (h : IsIdentifier text) {rest : List Char}
    (hrest : EndsName rest) : readName? (text.toList ++ rest) = some (text, rest) := by
  have hpart := h.isNamePart
  obtain ⟨c, front, htext, hc, -⟩ := h
  have htake : rest.takeWhile isNamePart = [] ∧ rest.dropWhile isNamePart = rest := by
    cases rest with
    | nil => exact ⟨rfl, rfl⟩
    | cons c' rest =>
        have hc' := hrest c' rest rfl
        simp [hc']
  have hspan : readName? (text.toList ++ rest) =
      some (String.ofList ((text.toList ++ rest).takeWhile isNamePart),
        (text.toList ++ rest).dropWhile isNamePart) := by
    rw [htext, List.cons_append, readName?, if_pos hc]
  rw [hspan, List.takeWhile_append_of_pos hpart, List.dropWhile_append_of_pos hpart, htake.1, htake.2,
    List.append_nil, String.ofList_toList]

/-! ## Literals -/

/-- What may stand between quotes is read up to the closing quote. -/
theorem readLiteral?_append {text : String} (h : IsQuotable text) (rest : List Char) :
    readLiteral? (text.toList ++ '\'' :: rest) = some (text, rest) := by
  have hinside : ∀ c ∈ text.toList, (c != '\'' && c != '\n') = true := by
    intro c hc
    obtain ⟨hquote, hline⟩ := h c hc
    simp [hquote, hline]
  rw [readLiteral?, List.dropWhile_append_of_pos hinside, List.takeWhile_append_of_pos hinside]
  simp [String.ofList_toList]

/-! ## Spaces -/

theorem skipSpaces_space (s : List Char) : skipSpaces (' ' :: s) = skipSpaces s := by
  rw [skipSpaces, List.dropWhile_cons_of_pos (by rfl)]
  rfl

theorem skipSpaces_of_ne {c : Char} (s : List Char) (h : c ≠ ' ') : skipSpaces (c :: s) = c :: s := by
  rw [skipSpaces, List.dropWhile_cons_of_neg (by simpa using h)]

theorem skipLines_blank {c : Char} (s : List Char) (h : isBlank c = true) :
    skipLines (c :: s) = skipLines s := by
  rw [skipLines, List.dropWhile_cons_of_pos h]
  rfl

theorem skipLines_of_not_blank {c : Char} (s : List Char) (h : isBlank c = false) :
    skipLines (c :: s) = c :: s := by
  rw [skipLines, List.dropWhile_cons_of_neg (by rw [h]; decide)]

/-! ## Reading on -/

theorem readBrackets_of_endsType (primary : List Branch) {rest : List Char} (h : EndsType rest) :
    readBrackets primary rest = (primary, rest) := by
  unfold readBrackets
  split
  · exact absurd rfl (h '[' _ rfl).2
  · rfl

/-- Where no brackets follow, a primary is one more part of its union. -/
theorem resume_of_endsType (stack : List Frame) (branches primary : List Branch) {rest : List Char}
    (h : EndsType rest) :
    resume stack branches primary rest = resume stack (branches ++ primary) [] rest := by
  rw [resume_eq, resume_eq stack (branches ++ primary), readBrackets_of_endsType _ h,
    readBrackets_of_endsType _ h, List.append_nil]

/-- Brackets make a list of a primary. -/
theorem resume_brackets (stack : List Frame) (branches primary : List Branch) (rest : List Char) :
    resume stack branches primary ('[' :: ']' :: rest) =
      resume stack branches [.array primary] rest := by
  rw [resume_eq, resume_eq stack branches [.array primary], readBrackets]

/-- Behind a type spaces are skipped. -/
theorem resume_space (stack : List Frame) (type : List Branch) {rest : List Char}
    (h : EndsType rest) : resume stack type [] (' ' :: rest) = resume stack type [] rest := by
  rw [resume_eq, resume_eq stack type [] rest, readBrackets_of_endsType _ h,
    readBrackets_of_endsType _ (endsType_cons _ (by decide)), skipSpaces_space]

/-- Behind a bar the union goes on. -/
theorem resume_bar (stack : List Frame) (type : List Branch) (rest : List Char) :
    resume stack type [] ('|' :: rest) = readPrimary stack type rest := by
  rw [resume_eq, readBrackets_of_endsType _ (endsType_cons _ (by decide)),
    skipSpaces_of_ne _ (by decide), List.append_nil]
  rfl

/-- At the end of the text a type is complete. -/
theorem resume_end (type : List Branch) : resume [] type [] [] = some (type, []) := by
  rw [resume_eq, readBrackets_of_endsType _ endsType_nil, List.append_nil]
  rfl

/-- A closing parenthesis makes a primary of a union. -/
theorem resume_paren (outer : List Frame) (before type : List Branch) (rest : List Char) :
    resume (.paren before :: outer) type [] (')' :: rest) = resume outer before type rest := by
  rw [resume_eq, readBrackets_of_endsType _ (endsType_cons _ (by decide)),
    skipSpaces_of_ne _ (by decide), List.append_nil]
  rfl

/-- At the end of a line a member of a record is complete. -/
theorem resume_line (outer : List Frame) (before type : List Branch) (members : List Member)
    (name : String) (rest : List Char) :
    resume (.record before members name :: outer) type [] ('\n' :: rest) =
      readMembers outer before (members ++ [(name, type)]) rest := by
  rw [resume_eq, readBrackets_of_endsType _ (endsType_cons _ (by decide)),
    skipSpaces_of_ne _ (by decide), List.append_nil]
  rfl

/-- A brace behind its last member closes a record. -/
theorem resume_brace (outer : List Frame) (before type : List Branch) (members : List Member)
    (name : String) (rest : List Char) :
    resume (.record before members name :: outer) type [] ('\x7d' :: rest) =
      resume outer before [.record (members ++ [(name, type)])] rest := by
  rw [resume_eq, readBrackets_of_endsType _ (endsType_cons _ (by decide)),
    skipSpaces_of_ne _ (by decide), List.append_nil]
  rfl

/-- A name is a primary. -/
theorem readPrimary_name (stack : List Frame) (branches : List Branch) {text : String}
    (h : IsIdentifier text) {rest : List Char} (hrest : EndsName rest) :
    readPrimary stack branches (text.toList ++ rest) = resume stack branches [.name text] rest := by
  have hread := readName?_append h hrest
  -- the first character of a name opens nothing else
  obtain ⟨c, front, htext, hc, -⟩ := h
  have hne {d : Char} (hd : isNamePart d = false) : c ≠ d :=
    ne_of_isNamePart (isNamePart_of_isNameStart hc) hd
  rw [htext, List.cons_append] at hread ⊢
  rw [readPrimary_eq, skipSpaces_of_ne _ (hne (by decide))]
  split
  · rename_i heq
    exact absurd (List.cons.inj heq).1 (hne (by decide))
  · rename_i heq
    exact absurd (List.cons.inj heq).1 (hne (by decide))
  · rename_i heq
    exact absurd (List.cons.inj heq).1 (hne (by decide))
  · rw [hread]

/-- A literal is a primary. -/
theorem readPrimary_literal (stack : List Frame) (branches : List Branch) {text : String}
    (h : IsQuotable text) (rest : List Char) :
    readPrimary stack branches ('\'' :: (text.toList ++ '\'' :: rest)) =
      resume stack branches [.literal text] rest := by
  rw [readPrimary_eq, skipSpaces_of_ne _ (by decide)]
  simp only [readLiteral?_append h rest]

/-- A parenthesis opens a union. -/
theorem readPrimary_paren (stack : List Frame) (branches : List Branch) (rest : List Char) :
    readPrimary stack branches ('(' :: rest) = readPrimary (.paren branches :: stack) [] rest := by
  rw [readPrimary_eq, skipSpaces_of_ne _ (by decide)]
  rfl

/-- A brace opens a record. -/
theorem readPrimary_brace (stack : List Frame) (branches : List Branch) (rest : List Char) :
    readPrimary stack branches ('\x7b' :: rest) = readMembers stack branches [] rest := by
  rw [readPrimary_eq, skipSpaces_of_ne _ (by decide)]
  rfl

/-- Spaces in front of a primary are skipped. -/
theorem readPrimary_space (stack : List Frame) (branches : List Branch) (rest : List Char) :
    readPrimary stack branches (' ' :: rest) = readPrimary stack branches rest := by
  rw [readPrimary_eq, readPrimary_eq stack branches rest, skipSpaces_space]

/-! ## Reading members -/

/-- Neither blanks nor a comment stand in front of a name. -/
theorem skip_identifier {text : String} (h : IsIdentifier text) (rest : List Char) :
    skipLines (text.toList ++ rest) = text.toList ++ rest ∧
      skipComment (text.toList ++ rest) = text.toList ++ rest := by
  obtain ⟨c, front, htext, hc, -⟩ := h
  have hne {d : Char} (hd : isNamePart d = false) : c ≠ d :=
    ne_of_isNamePart (isNamePart_of_isNameStart hc) hd
  have hblank : isBlank c = false := by
    simp [isBlank, hne (show isNamePart ' ' = false by decide),
      hne (show isNamePart '\n' = false by decide)]
  rw [htext, List.cons_append]
  refine ⟨skipLines_of_not_blank _ hblank, ?_⟩
  unfold skipComment
  split
  · rename_i heq
    exact absurd (List.cons.inj heq).1 (hne (by decide))
  · rfl

theorem readName?_colon {text : String} (h : IsIdentifier text) (rest : List Char) :
    readName? (text.toList ++ ':' :: rest) = some (text, ':' :: rest) :=
  readName?_append h (endsName_cons rest (by decide))

/-- Blanks in front of a head are skipped. -/
theorem readHead?_blank {c : Char} (s : List Char) (h : isBlank c = true) :
    readHead? (c :: s) = readHead? s := by
  rw [readHead?, readHead?, skipLines_blank s h]

/-- A name and a colon are a head. -/
theorem readHead?_name {text : String} (h : IsIdentifier text) (rest : List Char) :
    readHead? (text.toList ++ ':' :: rest) = some (text, rest) := by
  obtain ⟨hlines, hcomment⟩ := skip_identifier h (':' :: rest)
  rw [readHead?, hlines, hcomment, hlines, readName?_colon h]
  simp only [skipSpaces_of_ne rest (by decide : ':' ≠ ' ')]

theorem skipLines_blanks {blanks : List Char} (h : ∀ c ∈ blanks, isBlank c = true) (s : List Char) :
    skipLines (blanks ++ s) = skipLines s := List.dropWhile_append_of_pos h

/-- A comment in front of a head is skipped, and the blanks behind it. -/
theorem readHead?_comment {comment blanks : List Char} {text : String}
    (hcomment : ¬['*', '/'] <:+: '*' :: comment) (hblanks : ∀ c ∈ blanks, isBlank c = true)
    (h : IsIdentifier text) (rest : List Char) :
    readHead? ('/' :: '*' :: '*' :: (comment ++ '*' :: '/' :: (blanks ++ (text.toList ++ ':' :: rest)))) =
      some (text, rest) := by
  obtain ⟨hlines, -⟩ := skip_identifier h (':' :: rest)
  have hafter := afterComment?_append (blanks ++ (text.toList ++ ':' :: rest)) hcomment
  rw [List.cons_append] at hafter
  rw [readHead?, skipLines_of_not_blank _ (by decide), skipComment, hafter, Option.getD_some,
    skipLines_blanks hblanks, hlines, readName?_colon h]
  simp only [skipSpaces_of_ne rest (by decide : ':' ≠ ' ')]

/-- Blanks in front of a member, or at the end of a record, are skipped. -/
theorem readMembers_blank (stack : List Frame) (branches : List Branch) (members : List Member)
    {c : Char} (s : List Char) (h : isBlank c = true) :
    readMembers stack branches members (c :: s) = readMembers stack branches members s := by
  rw [readMembers_eq, readMembers_eq stack branches members s, skipLines_blank s h]

/-- A brace closes a record. -/
theorem readMembers_brace (stack : List Frame) (branches : List Branch) (members : List Member)
    (rest : List Char) :
    readMembers stack branches members ('\x7d' :: rest) =
      resume stack branches [.record members] rest := by
  rw [readMembers_eq, skipLines_of_not_blank _ (by decide)]
  rfl

theorem readHead?_skipLines (s : List Char) : readHead? (skipLines s) = readHead? s := by
  have hskip : skipLines (skipLines s) = skipLines s := List.dropWhile_idempotent ..
  rw [readHead?, readHead?, hskip]

/-- Where a head stands, a member is read on from its type. -/
theorem readMembers_head (stack : List Frame) (branches : List Branch) (members : List Member)
    {s rest : List Char} {name : String} (h : readHead? s = some (name, rest)) :
    readMembers stack branches members s =
      readPrimary (.record branches members name :: stack) [] rest := by
  rw [← readHead?_skipLines] at h
  rw [readMembers_eq]
  split
  · rename_i heq
    rw [heq, readHead?, skipLines_of_not_blank _ (by decide)] at h
    simp [skipComment, skipLines_of_not_blank, isBlank, readName?,
      show isNameStart '\x7d' = false by decide] at h
  · rw [h]

/-! ## Derivations are read -/

/-- What the reader does with a part of a type expression, for any rest behind it. -/
def Reads (s : List Char) : Phrase → Prop
  | .primary type | .array type => ∀ stack branches rest, EndsName rest →
      readPrimary stack branches (s ++ rest) = resume stack branches type rest
  | .type type => ∀ stack branches rest, EndsType rest →
      readPrimary stack branches (s ++ rest) = resume stack (branches ++ type) [] rest
  | .member member => ∃ body, (∀ rest, readHead? (s ++ rest) = some (member.1, body ++ rest)) ∧
      ∀ stack rest, EndsType rest →
        readPrimary stack [] (body ++ rest) = resume stack member.2 [] rest
  | .members members => ∀ stack branches before rest,
      readMembers stack branches before (s ++ '\x7d' :: rest) =
        resume stack branches [.record (before ++ members)] rest

/-- A type behind a head is read as the type of the member. -/
theorem reads_member {name : String} {s body : List Char} {type : List Branch}
    (hhead : ∀ rest, readHead? (s ++ rest) = some (name, body ++ rest)) (h : Reads body (.type type)) :
    Reads s (.member (name, type)) :=
  ⟨body, hhead, fun stack rest hrest => h stack [] rest hrest⟩

/-- **What is derived is read**, as what it is derived as. -/
theorem reads_of_derives {s : List Char} {phrase : Phrase} (h : Derives s phrase) : Reads s phrase := by
  induction h with
  | name htext => exact fun stack branches _ hrest => readPrimary_name stack branches htext hrest
  | literal htext =>
      intro stack branches rest _
      rw [List.cons_append, List.append_assoc]
      exact readPrimary_literal stack branches htext rest
  | @parentheses s type _ ih =>
      intro stack branches rest _
      rw [List.cons_append, List.append_assoc, readPrimary_paren]
      show readPrimary _ [] (s ++ ')' :: rest) = _
      rw [ih _ _ _ (endsType_cons _ (by decide)), List.nil_append, resume_paren]
  | @record s members _ ih =>
      intro stack branches rest _
      rw [List.cons_append, List.append_assoc, readPrimary_brace]
      exact ih stack branches [] rest
  | array _ ih => exact ih
  | @brackets s type _ ih =>
      intro stack branches rest _
      rw [List.append_assoc]
      show readPrimary stack branches (s ++ '[' :: ']' :: rest) = _
      rw [ih _ _ _ (endsName_cons _ (by decide)), resume_brackets]
  | type _ ih =>
      -- no brackets follow, so the primary is complete
      intro stack branches rest hrest
      rw [ih stack branches rest hrest.endsName, resume_of_endsType _ _ _ hrest]
  | @bar s s' type type' _ _ ih ih' =>
      intro stack branches rest hrest
      rw [List.append_assoc, List.cons_append, ih _ _ _ (endsType_cons _ (by decide)), resume_bar,
        ih' stack _ rest hrest, List.append_assoc]
  | spaceBefore _ ih =>
      intro stack branches rest hrest
      rw [List.cons_append, readPrimary_space, ih stack branches rest hrest]
  | @spaceBehind s type _ ih =>
      intro stack branches rest hrest
      rw [List.append_assoc]
      show readPrimary stack branches (s ++ ' ' :: rest) = _
      rw [ih _ _ _ (endsType_cons _ (by decide)), resume_space _ _ hrest]
  | @member name s type hname _ ih =>
      refine reads_member (fun rest => ?_) ih
      rw [List.append_assoc]
      exact readHead?_name hname (s ++ rest)
  | @describedMember text blanks name s type htext hblanks hname _ ih =>
      refine reads_member (fun rest => ?_) ih
      have hhead := readHead?_comment htext hblanks hname (s ++ rest)
      simpa only [List.cons_append, List.append_assoc] using hhead
  | @blankBeforeMember c s member hblank _ ih =>
      obtain ⟨body, hhead, htype⟩ := ih
      refine ⟨body, fun rest => ?_, htype⟩
      rw [List.cons_append, readHead?_blank _ hblank, hhead rest]
  | noMember =>
      intro stack branches before rest
      rw [List.nil_append, readMembers_brace, List.append_nil]
  | lastMember _ ih =>
      intro stack branches before rest
      obtain ⟨body, hhead, htype⟩ := ih
      rw [readMembers_head _ _ _ (hhead _), htype _ _ (endsType_cons _ (by decide)), resume_brace]
  | @memberLine s s' member members _ _ ih ih' =>
      -- the line break puts the member behind the others, and the rest of the record is read
      intro stack branches before rest
      obtain ⟨body, hhead, htype⟩ := ih
      rw [List.append_assoc, List.cons_append, readMembers_head _ _ _ (hhead _),
        htype _ _ (endsType_cons _ (by decide)), resume_line, ih' stack branches _ rest,
        List.append_assoc]
      rfl
  | blankBeforeMembers hblank _ ih =>
      intro stack branches before rest
      rw [List.cons_append, readMembers_blank _ _ _ _ hblank, ih stack branches before rest]

/-- A text that is derived as a member is read as the member, and nothing is left of it. -/
theorem readMember_of_derives {s : List Char} {member : Member} (h : Derives s (.member member)) :
    readMember s = some member := by
  obtain ⟨body, hhead, htype⟩ := reads_of_derives h
  have hhead' := hhead []
  have htype' := htype [] [] endsType_nil
  rw [List.append_nil, List.append_nil] at hhead'
  rw [List.append_nil, resume_end] at htype'
  rw [readMember, hhead']
  simp only [htype']

/-- **The grammar is unambiguous**: a text is one member at most. -/
theorem member_unique {s : List Char} {member member' : Member} (h : Derives s (.member member))
    (h' : Derives s (.member member')) : member = member' :=
  Option.some.inj ((readMember_of_derives h).symm.trans (readMember_of_derives h'))

end ContentTypes.TypeScript
