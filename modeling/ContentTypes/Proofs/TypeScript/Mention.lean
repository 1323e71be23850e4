import ContentTypes.Proofs.TypeScript.Balance

/-!
# Names that types mention

`typeNames` are the names that stand for types in a text: the names outside of comments and quoted text, as
the skeleton has them, that are not followed by the mark of a member. They are read from left to right, so
what is read of a text depends on what follows it only where its last name would go on (`ReadsApart`), or not
at all (`ReadsAs`).
The names that the type of a field mentions are those of the types at its leaves (`reads_type`).
-/

set_option autoImplicit false

namespace ContentTypes.TypeScript

/-! ## Names for types -/

/-- Whether a member is named by what stands before this: a colon follows, or the mark of a member that may
be missing. -/
def marksMember : List Char → Bool
  | c :: _ => c = ':' || c = '?'
  | [] => false

/-- The names outside of comments and quoted text that do not name members, in order. -/
def typeNames (s : List Char) : List String :=
  match s with
  | [] => []
  | c :: rest =>
      match _h : afterToken? (c :: rest) with
      | some rest' => typeNames rest'
      | none =>
          if isNamePart c then
            let behind := rest.dropWhile isNamePart
            (if marksMember behind then [] else [String.ofList (c :: rest.takeWhile isNamePart)]) ++
              typeNames behind
          else typeNames rest
termination_by s.length
decreasing_by
  · exact length_lt_of_afterToken? _h
  · exact Nat.lt_succ_of_le (List.dropWhile_suffix _).length_le
  · exact Nat.lt_succ_self _

theorem typeNames_of_afterToken? {s rest : List Char} (h : afterToken? s = some rest) :
    typeNames s = typeNames rest := by
  cases s with
  | nil => cases h
  | cons c s =>
      rw [typeNames]
      split
      · rename_i heq
        rw [h] at heq
        cases heq
        rfl
      · rename_i heq
        rw [h] at heq
        cases heq

theorem typeNames_cons {c : Char} {s : List Char} (h : afterToken? (c :: s) = none)
    (hc : isNamePart c = false) : typeNames (c :: s) = typeNames s := by
  rw [typeNames]
  split
  · rename_i heq
    rw [h] at heq
    cases heq
  · rw [hc]
    rfl

/-- Names open no comment and no quoted text. -/
theorem afterToken?_of_isNamePart {c : Char} (h : isNamePart c = true) (s : List Char) :
    afterToken? (c :: s) = none := by
  have hslash := ne_of_isNamePart (d := '/') h (by decide)
  have hquote := ne_of_isNamePart (d := '\'') h (by decide)
  have hquotes := ne_of_isNamePart (d := '"') h (by decide)
  have htick := ne_of_isNamePart (d := '`') h (by decide)
  exact afterToken?_of_opensToken (by simp [opensToken, hslash, hquote, hquotes, htick])

/-- A name is read as a whole. -/
theorem typeNames_append {word : List Char} (hne : word ≠ []) (hword : ∀ c ∈ word, isNamePart c = true)
    {rest : List Char} (hrest : ∀ c ∈ rest.head?, isNamePart c = false) :
    typeNames (word ++ rest) =
      (if marksMember rest then [] else [String.ofList word]) ++ typeNames rest := by
  obtain ⟨c, word, rfl⟩ := List.exists_cons_of_ne_nil hne
  rw [List.forall_mem_cons] at hword
  have hstop : rest.takeWhile isNamePart = [] ∧ rest.dropWhile isNamePart = rest := by
    cases rest with
    | nil => exact ⟨rfl, rfl⟩
    | cons d rest =>
        have hd := hrest d rfl
        exact ⟨List.takeWhile_cons_of_neg (by simp [hd]), List.dropWhile_cons_of_neg (by simp [hd])⟩
  have htake : (word ++ rest).takeWhile isNamePart = word := by
    rw [List.takeWhile_append_of_pos hword.2, hstop.1, List.append_nil]
  have hdrop : (word ++ rest).dropWhile isNamePart = rest := by
    rw [List.dropWhile_append_of_pos hword.2, hstop.2]
  rw [List.cons_append, typeNames]
  split
  · rename_i heq
    rw [afterToken?_of_isNamePart hword.1] at heq
    cases heq
  · rw [if_pos hword.1, htake, hdrop]

/-! ## Reading one text behind another -/

/-- Whether a name ends before this, and is not marked as the name of a member. -/
def Apart (rest : List Char) : Prop := ∀ c ∈ rest.head?, isNamePart c = false ∧ c ≠ ':' ∧ c ≠ '?'

theorem apart_nil : Apart [] := nofun

theorem Apart.marksMember {rest : List Char} (h : Apart rest) : marksMember rest = false := by
  cases rest with
  | nil => rfl
  | cons c rest =>
      obtain ⟨-, hcolon, hmark⟩ := h c rfl
      simp [TypeScript.marksMember, hcolon, hmark]

/-- Whether these names are read of a text, whatever follows it. -/
def ReadsAs (text : String) (names : List String) : Prop :=
  ∀ rest, typeNames (text.toList ++ rest) = names ++ typeNames rest

/-- Whether these names are read of a text if its last name ends with it. -/
def ReadsApart (text : String) (names : List String) : Prop :=
  ∀ rest, Apart rest → typeNames (text.toList ++ rest) = names ++ typeNames rest

variable {text text' : String} {names names' : List String}

theorem ReadsAs.apart (h : ReadsAs text names) : ReadsApart text names := fun rest _ => h rest

theorem ReadsApart.typeNames_eq (h : ReadsApart text names) : typeNames text.toList = names := by
  have hall := h [] apart_nil
  rwa [List.append_nil, typeNames, List.append_nil] at hall

theorem ReadsAs.append (h : ReadsAs text names) (h' : ReadsAs text' names') :
    ReadsAs (text ++ text') (names ++ names') := by
  intro rest
  rw [String.toList_append, List.append_assoc, h, h', List.append_assoc]

theorem ReadsAs.append_apart (h : ReadsAs text names) (h' : ReadsApart text' names') :
    ReadsApart (text ++ text') (names ++ names') := by
  intro rest hrest
  rw [String.toList_append, List.append_assoc, h, h' rest hrest, List.append_assoc]

/-- Behind a text that ends its last name anything may follow. -/
theorem ReadsApart.append (h : ReadsApart text names) (h' : ReadsAs text' names') {c : Char}
    (hc : text'.toList.head? = some c) (hapart : isNamePart c = false ∧ c ≠ ':' ∧ c ≠ '?') :
    ReadsAs (text ++ text') (names ++ names') := by
  intro rest
  have hrest : Apart (text'.toList ++ rest) := by
    intro d hd
    rw [List.head?_append, hc, Option.some_or, Option.mem_some_iff] at hd
    exact hd ▸ hapart
  rw [String.toList_append, List.append_assoc, h _ hrest, h', List.append_assoc]

theorem reads_empty : ReadsAs "" [] := fun _ => rfl

/-- Whether a character is no part of a name and opens nothing. -/
def isSign (c : Char) : Bool := isQuiet c && !isNamePart c && c != '/'

/-- Nothing is read of signs. -/
theorem reads_signs (h : text.toList.all isSign = true) : ReadsAs text [] := by
  rw [List.all_eq_true] at h
  intro rest
  generalize text.toList = s at h ⊢
  induction s with
  | nil => rfl
  | cons c s ih =>
      rw [List.forall_mem_cons] at h
      obtain ⟨hc, h⟩ := h
      simp only [isSign, isQuiet, Bool.and_eq_true, bne_iff_ne, Bool.not_eq_true'] at hc
      have htoken : afterToken? (c :: (s ++ rest)) = none :=
        afterToken?_of_opensToken (by simp [opensToken, hc])
      rw [List.cons_append, typeNames_cons htoken hc.1.2]
      exact ih h

/-- A name is read of a name. -/
theorem readsApart_name (h : IsIdentifier text) : ReadsApart text [text] := by
  intro rest hrest
  have hne : text.toList ≠ [] := by
    obtain ⟨c, s, htext, -⟩ := h
    rw [htext]
    exact List.cons_ne_nil c s
  rw [typeNames_append hne h.isNamePart fun c hc => (hrest c hc).1, hrest.marksMember,
    String.ofList_toList]
  rfl

/-- Nothing is read of a name with the mark of a member behind it. -/
theorem reads_memberName (h : IsIdentifier text) {mark : String} {c : Char} (hmark : mark.toList = [c])
    (hc : c = ':' ∨ c = '?') : ReadsAs (text ++ mark) [] := by
  intro rest
  have hne : text.toList ≠ [] := by
    obtain ⟨c, s, htext, -⟩ := h
    rw [htext]
    exact List.cons_ne_nil c s
  have hsign : isNamePart c = false ∧ opensToken (c :: rest) = false := by
    rcases hc with rfl | rfl <;> exact ⟨by decide, rfl⟩
  have hmarks : marksMember (c :: rest) = true := by
    rcases hc with rfl | rfl <;> rfl
  rw [String.toList_append, hmark, List.append_assoc, List.singleton_append,
    typeNames_append hne h.isNamePart, hmarks, typeNames_cons (afterToken?_of_opensToken hsign.2) hsign.1]
  · rfl
  · intro d hd
    cases hd
    exact hsign.1

/-- Nothing is read of quoted text. -/
theorem reads_quoted (h : IsQuotable text) : ReadsAs ("'" ++ text ++ "'") [] := by
  intro rest
  have htoken : afterToken? (("'" ++ text ++ "'").toList ++ rest) = some rest := by
    simpa [afterToken?] using afterQuote?_of_quotable h rest
  rw [typeNames_of_afterToken? htoken, List.nil_append]

/-- Nothing is read of a comment. -/
theorem reads_comment (h : IsRemark text) : ReadsAs ("/** " ++ text ++ " */") [] := by
  intro rest
  have htoken : afterToken? (("/** " ++ text ++ " */").toList ++ rest) = some rest := by
    simpa [afterToken?] using afterComment?_remark rest h
  rw [typeNames_of_afterToken? htoken, List.nil_append]

/-- Texts of which, one after the other, these names are read. -/
inductive ReadsEach : List String → List String → Prop where
  | nil : ReadsEach [] []
  | cons {text : String} {texts names names' : List String} :
      ReadsApart text names → ReadsEach texts names' → ReadsEach (text :: texts) (names ++ names')

theorem ReadsEach.append {texts texts' : List String} (h : ReadsEach texts names)
    (h' : ReadsEach texts' names') : ReadsEach (texts ++ texts') (names ++ names') := by
  induction h with
  | nil => exact h'
  | cons htext _ ih =>
      rw [List.cons_append, List.append_assoc]
      exact .cons htext ih

/-- What is read of texts with a separator between them that ends names. -/
theorem ReadsEach.intercalate {texts : List String} (h : ReadsEach texts names) {separator : String}
    {c : Char} (hseparator : ReadsAs separator []) (hhead : separator.toList.head? = some c)
    (hapart : isNamePart c = false ∧ c ≠ ':' ∧ c ≠ '?') :
    ReadsApart (String.intercalate separator texts) names := by
  induction h with
  | nil => exact reads_empty.apart
  | @cons text texts names names' htext hrest ih =>
      cases hrest with
      | nil =>
          rw [String.intercalate_singleton, List.append_nil]
          exact htext
      | cons =>
          have hfirst := htext.append hseparator hhead hapart
          rw [List.append_nil] at hfirst
          rw [String.intercalate_cons_cons]
          exact hfirst.append_apart ih

theorem ReadsEach.lines {texts : List String} (h : ReadsEach texts names) :
    ReadsApart (String.intercalate "\n" texts) names :=
  h.intercalate (reads_signs (by decide)) rfl (by decide)

theorem ReadsEach.union {texts : List String} (h : ReadsEach texts names) :
    ReadsApart (String.intercalate unionBar texts) names :=
  h.intercalate (reads_signs (by decide)) rfl (by decide)

/-! ## What types mention -/

mutual

/-- The names that a type mentions where it is written, in order. -/
def typeMentions : FieldType → List String
  | .boolean => ["boolean"]
  | .string | .date | .reference _ => ["string"]
  | .image => ["Image"]
  | .markdown => ["Markdown"]
  | .object name => [name.display]
  | .inlineObject fields => fieldsMention fields
  | .list (some item) => itemMentions item
  | .polymorphicList items => itemsMention items
  | .enumeration _ | .list none | .unknown _ _ | .plain => []

/-- The names that a field mentions as a member of a record. -/
def fieldMentions : FieldOf FieldType → List String
  | ⟨_, required, _, _, type⟩ =>
      typeMentions type ++ if required.holds then [] else ["undefined"]

/-- The names that fields mention as members of a record. -/
def fieldsMention : List (FieldOf FieldType) → List String
  | [] => []
  | field :: rest => fieldMentions field ++ fieldsMention rest

/-- The names that the type of an item mentions. -/
def itemMentions : ItemType → List String
  | .boolean => ["boolean"]
  | .string => ["string"]
  | .object name => [name.display]
  | .reference document => [document.display]
  | .inlineObject fields => fieldsMention fields
  | .enumeration _ | .unknown _ _ | .plain => []

/-- The names that the types of items mention. -/
def itemsMention : List ItemType → List String
  | [] => []
  | item :: rest => itemMentions item ++ itemsMention rest

end

/-! ### Members -/

theorem readsApart_display {v : Value} (h : IsName v) : ReadsApart v.display [v.display] := by
  obtain ⟨text, rfl, hidentifier⟩ := h
  exact readsApart_name hidentifier

theorem reads_literalUnion {options : List Value}
    (h : ∀ option ∈ options, IsQuotable option.display) : ReadsApart (literalUnion options) [] := by
  suffices heach : ReadsEach (options.map literal) [] from heach.union
  induction options with
  | nil => exact .nil
  | cons option options ih =>
      rw [List.forall_mem_cons] at h
      exact .cons (reads_quoted h.1).apart (ih h.2)

theorem reads_todo {kind : Value} (h : IsQuotable kind.display) : ReadsAs (todo kind) [] := by
  rw [todo_eq]
  exact reads_quoted (isQuotable_todo h)

/-- What stands between signs is read as it is. -/
theorem ReadsApart.between (h : ReadsApart text names) {front back : String} {c : Char}
    (hfront : front.toList.all isSign = true) (hback : back.toList.all isSign = true)
    (hhead : back.toList.head? = some c) (hapart : isNamePart c = false ∧ c ≠ ':' ∧ c ≠ '?') :
    ReadsAs (front ++ text ++ back) names := by
  have hwhole := ((reads_signs hfront).append_apart h).append (reads_signs hback) hhead hapart
  rwa [List.append_nil] at hwhole

theorem reads_described {description : Value} {line : String}
    (h : description.holds = true → IsRemark description.display) (hline : ReadsApart line names) :
    ReadsApart (described description line) names := by
  unfold described
  by_cases hd : description.holds = true
  · rw [if_pos hd]
    have hcomment : docComment indent description =
        indent ++ ("/** " ++ description.display ++ " */") := by
      simp only [docComment, String.append_assoc]
    have hindent : ReadsAs indent [] := reads_signs (by decide)
    have hbreak : ReadsAs "\n" [] := reads_signs (by decide)
    rw [hcomment]
    exact ((hindent.append (reads_comment (h hd))).append hbreak).append_apart hline
  · rwa [if_neg hd]

theorem reads_memberLine {name required description : Value} (hname : IsName name)
    (hdescription : description.holds = true → IsRemark description.display)
    (h : ReadsApart text names) :
    ReadsApart (memberLine name required description (.str text))
      (names ++ if required.holds then [] else ["undefined"]) := by
  apply reads_described hdescription
  obtain ⟨name, rfl, hidentifier⟩ := hname
  have hindent : ReadsAs indent [] := reads_signs (by decide)
  have hmember : ReadsAs (name ++ ":") [] := reads_memberName hidentifier rfl (.inl rfl)
  have hspace : ReadsAs " " [] := reads_signs (by decide)
  have htype : ReadsApart (indent ++ (name ++ ":") ++ " " ++ text) names :=
    ((hindent.append hmember).append hspace).append_apart h
  have hshape : indent ++ name ++ ": " ++ text = indent ++ (name ++ ":") ++ " " ++ text := by
    simp only [String.append_assoc]
    rfl
  show ReadsApart (indent ++ name ++ ": " ++ text ++ _) _
  rw [hshape]
  by_cases hr : required.holds = true
  · rw [if_pos hr, if_pos hr, String.append_empty, List.append_nil]
    exact htype
  · rw [if_neg hr, if_neg hr]
    have hbar : ReadsAs " | " [] := reads_signs (by decide)
    have hundefined : ReadsApart "undefined" ["undefined"] := readsApart_name (by decide)
    have hend := (htype.append hbar rfl (by decide)).append_apart hundefined
    rwa [String.append_assoc, List.append_nil] at hend

theorem reads_record {lines : List String} (h : ReadsEach lines names) : ReadsAs (record lines) names :=
  h.lines.between (by decide) (by decide) rfl (by decide)

mutual

/-- **A type mentions the names at its leaves.** -/
theorem reads_type : ∀ type : FieldType, TypeWritable type →
    ∃ text, fieldExpression type = .ok (.str text) ∧ ReadsApart text (typeMentions type)
  | .boolean, _ => ⟨_, rfl, readsApart_name (by decide)⟩
  | .string, _ => ⟨_, rfl, readsApart_name (by decide)⟩
  | .date, _ => ⟨_, rfl, readsApart_name (by decide)⟩
  | .image, _ => ⟨_, rfl, readsApart_name (by decide)⟩
  | .markdown, _ => ⟨_, rfl, readsApart_name (by decide)⟩
  | .reference _, _ => ⟨_, rfl, readsApart_name (by decide)⟩
  | .object name, h => by
      have hreads := readsApart_display h
      obtain ⟨text, rfl, -⟩ := h
      exact ⟨text, rfl, hreads⟩
  | .inlineObject fields, h => by
      obtain ⟨lines, hlines, hreads⟩ := reads_fields fields h
      refine ⟨record lines, ?_, (reads_record hreads).apart⟩
      rw [fieldExpression, hlines]
      rfl
  | .enumeration options, h => ⟨literalUnion options, rfl, reads_literalUnion h⟩
  | .list none, _ => ⟨_, rfl, (reads_todo (by decide)).apart⟩
  | .list (some item), h => by
      obtain ⟨text, htext, hreads⟩ := reads_item item h
      have hbrackets : ReadsAs "[]" [] := reads_signs (by decide)
      have hlist := hreads.append hbrackets rfl (by decide)
      rw [List.append_nil] at hlist
      refine ⟨text ++ "[]", ?_, hlist.apart⟩
      rw [fieldExpression, htext]
      rfl
  | .polymorphicList items, h => by
      obtain ⟨texts, htexts, hreads⟩ := reads_items items h
      refine ⟨"(" ++ String.intercalate unionBar texts ++ ")[]", ?_,
        (hreads.union.between (by decide) (by decide) rfl (by decide)).apart⟩
      rw [fieldExpression, htexts]
      show (do return Value.str ("(" ++ (← union (texts.map Value.str)) ++ ")[]")) = _
      rw [union_texts]
      rfl
  | .unknown kind _, h => ⟨todo kind, rfl, (reads_todo h).apart⟩
  | .plain, _ => ⟨_, rfl, (reads_todo (by decide)).apart⟩

theorem reads_field : ∀ field : FieldOf FieldType, FieldWritable field →
    ∃ line, fieldLine field = .ok line ∧ ReadsApart line (fieldMentions field)
  | ⟨name, required, description, _, type⟩, h => by
      obtain ⟨hname, hdescription, htype⟩ := h
      obtain ⟨text, htext, hreads⟩ := reads_type type htype
      refine ⟨memberLine name required description (.str text), ?_, ?_⟩
      · rw [fieldLine, htext]
        rfl
      · exact reads_memberLine hname hdescription hreads

theorem reads_fields : ∀ fields : List (FieldOf FieldType), FieldsWritable fields →
    ∃ lines, fieldLines fields = .ok lines ∧ ReadsEach lines (fieldsMention fields)
  | [], _ => ⟨[], rfl, .nil⟩
  | field :: fields, h => by
      obtain ⟨line, hline, hreads⟩ := reads_field field h.1
      obtain ⟨lines, hlines, heach⟩ := reads_fields fields h.2
      refine ⟨line :: lines, ?_, .cons hreads heach⟩
      rw [fieldLines, hline, hlines]
      rfl

theorem reads_item : ∀ item : ItemType, ItemWritable item →
    ∃ text, itemExpression item = .ok (.str text) ∧ ReadsApart text (itemMentions item)
  | .boolean, _ => ⟨_, rfl, readsApart_name (by decide)⟩
  | .string, _ => ⟨_, rfl, readsApart_name (by decide)⟩
  | .object name, h => by
      have hreads := readsApart_display h
      obtain ⟨text, rfl, -⟩ := h
      exact ⟨text, rfl, hreads⟩
  | .reference document, h => by
      have hreads := readsApart_display h
      obtain ⟨text, rfl, -⟩ := h
      exact ⟨text, rfl, hreads⟩
  | .enumeration options, h =>
      ⟨"(" ++ literalUnion options ++ ")", rfl,
        ((reads_literalUnion h).between (by decide) (by decide) rfl (by decide)).apart⟩
  | .inlineObject fields, h => by
      obtain ⟨lines, hlines, hreads⟩ := reads_fields fields h
      refine ⟨record lines, ?_, (reads_record hreads).apart⟩
      rw [itemExpression, hlines]
      rfl
  | .unknown kind _, h => ⟨todo kind, rfl, (reads_todo h).apart⟩
  | .plain, _ => ⟨_, rfl, (reads_todo (by decide)).apart⟩

theorem reads_items : ∀ items : List ItemType, ItemsWritable items →
    ∃ texts : List String, itemExpressions items = .ok (texts.map Value.str) ∧
      ReadsEach texts (itemsMention items)
  | [], _ => ⟨[], rfl, .nil⟩
  | item :: items, h => by
      obtain ⟨text, htext, hreads⟩ := reads_item item h.1
      obtain ⟨texts, htexts, heach⟩ := reads_items items h.2
      refine ⟨text :: texts, ?_, .cons hreads heach⟩
      rw [itemExpressions, htext, htexts]
      rfl

end

end ContentTypes.TypeScript
