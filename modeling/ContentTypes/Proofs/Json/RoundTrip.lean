import ContentTypes.Proofs.Json.Plain

/-!
# Printed values read back

What is printed is read as the value it was printed from, for values of JSON proper, but for its
floating-point numbers: of these what is read is the number that the text stands for (`reread`). The reader
is followed through the text by what it does behind a value: where a value is printed and something stands
behind it, the reader comes to stand behind the value with the same lists and objects open
(`readValue_printAt`). For the items and members that are still to come this takes an induction over them,
with those that were read already on the stack.
-/

set_option autoImplicit false

namespace ContentTypes.Json

/-! ## What is read -/

mutual

/-- The value that is read where a value is printed. -/
def reread : Value → Value
  | .float x => .float (rereadFloat x)
  | .arr items => .arr (rereadItems items)
  | .obj members => .obj (rereadMembers members)
  | .null => .null
  | .bool b => .bool b
  | .int n => .int n
  | .str s => .str s

/-- The items that are read where items are printed. -/
def rereadItems : List Value → List Value
  | [] => []
  | v :: rest => reread v :: rereadItems rest

/-- The members that are read where members are printed. -/
def rereadMembers : Members → Members
  | [] => []
  | (name, v) :: rest => (name, reread v) :: rereadMembers rest

end

mutual

/-- A value without floating-point numbers is read as itself. -/
theorem reread_of_floatFree : ∀ v : Value, v.FloatFree → reread v = v
  | .null, _ | .bool _, _ | .int _, _ | .str _, _ => rfl
  | .arr items, h => by rw [reread, rereadItems_of_floatFree items h]
  | .obj members, h => by rw [reread, rereadMembers_of_floatFree members h]

theorem rereadItems_of_floatFree : ∀ items : List Value, FloatFreeItems items → rereadItems items = items
  | [], _ => rfl
  | v :: items, h => by rw [rereadItems, reread_of_floatFree v h.1, rereadItems_of_floatFree items h.2]

theorem rereadMembers_of_floatFree : ∀ members : Members, FloatFreeMembers members →
    rereadMembers members = members
  | [], _ => rfl
  | (name, v) :: members, h => by
      rw [rereadMembers, reread_of_floatFree v h.1, rereadMembers_of_floatFree members h.2]

end

/-! ## Blanks -/

theorem skipBlanks_newLine (depth : Nat) (s : List Char) :
    skipBlanks (newLine depth ++ s) = skipBlanks s := by
  have hblank : ∀ c ∈ newLine depth, isBlank c = true := by
    intro c hc
    rcases List.mem_cons.mp hc with rfl | hc
    · rfl
    · rw [List.eq_of_mem_replicate hc]
      rfl
  exact List.dropWhile_append_of_pos hblank

theorem skipBlanks_blank (s : List Char) : skipBlanks (' ' :: s) = skipBlanks s := by
  rw [skipBlanks, List.dropWhile_cons_of_pos (by rfl)]
  rfl

theorem skipBlanks_of_not_blank {c : Char} (s : List Char) (h : isBlank c = false) :
    skipBlanks (c :: s) = c :: s := by
  rw [skipBlanks, List.dropWhile_cons_of_neg (by simp [h])]

/-- A printed value starts with a character that is not a blank and closes nothing. -/
theorem exists_cons_printAt (depth : Nat) (v : Value) :
    ∃ c s, printAt depth v = c :: s ∧ isBlank c = false ∧ c ≠ ']' ∧ c ≠ '}' := by
  have hdigit {c : Char} (hc : c.isDigit = true) : isBlank c = false ∧ c ≠ ']' ∧ c ≠ '\x7d' := by
    have hne {w : Char} (hw : w.isDigit = false) : c ≠ w := ne_of_isDigit hc hw
    simp [isBlank, hne]
  cases v with
  | null => exact ⟨_, _, rfl, by decide⟩
  | bool b => cases b <;> exact ⟨_, _, rfl, by decide⟩
  | int n =>
      obtain ⟨c, s, hs, hc | rfl⟩ := exists_cons_toString_int n
      · exact ⟨c, s, hs, hdigit hc⟩
      · exact ⟨'-', s, hs, by decide⟩
  | float x =>
      obtain ⟨c, s, hs, hc | hc⟩ := exists_cons_printFloat x
      · exact ⟨c, s, hs, hdigit hc⟩
      · have hword : ∀ c ∈ ['-', 'N', 'I'], isBlank c = false ∧ c ≠ ']' ∧ c ≠ '\x7d' := by simp [isBlank]
        exact ⟨c, s, hs, hword c hc⟩
  | str s => exact ⟨_, _, rfl, by decide⟩
  | arr items => cases items <;> exact ⟨'[', _, rfl, by decide⟩
  | obj members => cases members <;> exact ⟨'{', _, rfl, by decide⟩

/-- No blank stands in front of a printed value. -/
theorem skipBlanks_printAt (depth : Nat) (v : Value) (rest : List Char) :
    skipBlanks (printAt depth v ++ rest) = printAt depth v ++ rest := by
  obtain ⟨c, s, hs, hc, -⟩ := exists_cons_printAt depth v
  rw [hs, List.cons_append, skipBlanks_of_not_blank _ hc]

theorem skipBlanks_printText (text : String) (rest : List Char) :
    skipBlanks (printText text ++ rest) = printText text ++ rest :=
  skipBlanks_of_not_blank _ (by decide)

/-! ## What stands behind a value -/

theorem endsNumber_newLine (depth : Nat) (s : List Char) : EndsNumber (newLine depth ++ s) :=
  endsNumber_cons (by simp)

theorem endsNumber_printItems (depth : Nat) (items : List Value) (outer : Nat) (s : List Char) :
    EndsNumber (printItems depth items ++ (newLine outer ++ s)) := by
  cases items with
  | nil => exact endsNumber_newLine outer s
  | cons v items =>
      rw [printItems]
      exact endsNumber_cons (by simp)

theorem endsNumber_printMembers (depth : Nat) (members : Members) (outer : Nat) (s : List Char) :
    EndsNumber (printMembers depth members ++ (newLine outer ++ s)) := by
  cases members with
  | nil => exact endsNumber_newLine outer s
  | cons m members =>
      rw [printMembers]
      exact endsNumber_cons (by simp)

/-! ## One step of the reader -/

theorem readValue_eq (stack : List Frame) (s : List Char) :
    readValue stack s =
      match s with
      | '"' :: rest =>
          match readText s rest with
          | .error fault => .error fault
          | .ok (text, rest') => resume stack (.str (Text.ofPoints text)) rest'
      | '\x7b' :: rest =>
          match skipBlanks rest with
          | '\x7d' :: rest' => resume stack (.obj []) rest'
          | rest' => readMember stack [] rest'
      | '[' :: rest =>
          match skipBlanks rest with
          | ']' :: rest' => resume stack (.arr []) rest'
          | rest' => readValue (.list [] :: stack) rest'
      | atom =>
          match readAtom? atom with
          | some (v, rest) => resume stack v rest
          | none => .error ⟨.expectingValue, atom⟩ := by
  rw [readValue.eq_def]
  split
  · split <;> rename_i heq <;> simp only [heq]
  · split <;> rename_i heq <;> simp only [heq]
  · split <;> rename_i heq <;> simp only [heq]
  · split <;> rename_i heq <;> simp only [heq]

theorem readMember_eq (stack : List Frame) (members : Members) (s : List Char) :
    readMember stack members s =
      match s with
      | '"' :: rest =>
          match readText s rest with
          | .error fault => .error fault
          | .ok (name, rest') =>
              match skipBlanks rest' with
              | ':' :: rest'' =>
                  readValue (.object members (Text.ofPoints name) :: stack) (skipBlanks rest'')
              | rest'' => .error ⟨.expectingColon, rest''⟩
      | _ => .error ⟨.expectingName, s⟩ := by
  rw [readMember.eq_def]
  split
  · split
    · rename_i heq
      simp only [heq]
    · rename_i name rest' heq
      simp only [heq]
      split <;> rename_i heq' <;> simp only [heq']
  · simp only

theorem resume_eq (stack : List Frame) (v : Value) (s : List Char) :
    resume stack v s =
      match stack with
      | [] => .ok (v, s)
      | .list items :: stack =>
          match skipBlanks s with
          | ']' :: rest => resume stack (.arr (v :: items).reverse) rest
          | ',' :: rest => readValue (.list (v :: items) :: stack) (skipBlanks rest)
          | rest => .error ⟨.expectingComma, rest⟩
      | .object members name :: stack =>
          match skipBlanks s with
          | '\x7d' :: rest => resume stack (.obj (members.set name v)) rest
          | ',' :: rest => readMember stack (members.set name v) (skipBlanks rest)
          | rest => .error ⟨.expectingComma, rest⟩ := by
  rw [resume.eq_def]
  split
  · rfl
  · split <;> rename_i heq <;> simp only [heq]
  · split <;> rename_i heq <;> simp only [heq]

/-! ## The reader at a token -/

/-- A word or a number in front of something is read, and the reader stands behind it. -/
theorem readValue_of_readAtom? {stack : List Frame} {s rest : List Char} {v : Value} {c : Char}
    {s' : List Char} (hs : s = c :: s') (hc : c ≠ '"' ∧ c ≠ '\x7b' ∧ c ≠ '[')
    (h : readAtom? s = some (v, rest)) : readValue stack s = resume stack v rest := by
  subst hs
  obtain ⟨hquote, hbrace, hbracket⟩ := hc
  rw [readValue_eq]
  split
  · rename_i heq
    exact absurd (List.cons.inj heq).1 hquote
  · rename_i heq
    exact absurd (List.cons.inj heq).1 hbrace
  · rename_i heq
    exact absurd (List.cons.inj heq).1 hbracket
  · rw [h]

theorem readValue_printText (stack : List Frame) {text : String} (h : Text.WellCoded text)
    (rest : List Char) : readValue stack (printText text ++ rest) = resume stack (.str text) rest := by
  have hread := readText_printText (printText text ++ rest) h.apart rest
  have hs : printText text ++ rest = '"' :: ((Text.points text).flatMap escapePoint ++ '"' :: rest) := by
    simp [printText]
  rw [hs] at hread ⊢
  rw [readValue_eq]
  simp only [hread, h.coded]

/-- A list that is not empty is opened, and its first item begins. -/
theorem readValue_bracket {stack : List Frame} {s s' : List Char} {c : Char}
    (hs : skipBlanks s = c :: s') (hc : c ≠ ']') :
    readValue stack ('[' :: s) = readValue (.list [] :: stack) (skipBlanks s) := by
  rw [readValue_eq]
  show (match skipBlanks s with
    | ']' :: rest => resume stack (.arr []) rest
    | rest => readValue (.list [] :: stack) rest) = _
  split
  · rename_i heq
    rw [hs] at heq
    exact absurd (List.cons.inj heq).1 hc
  · rfl

/-- An object that is not empty is opened, and its first member begins. -/
theorem readValue_brace {stack : List Frame} {s s' : List Char} {c : Char}
    (hs : skipBlanks s = c :: s') (hc : c ≠ '\x7d') :
    readValue stack ('\x7b' :: s) = readMember stack [] (skipBlanks s) := by
  rw [readValue_eq]
  show (match skipBlanks s with
    | '\x7d' :: rest => resume stack (.obj []) rest
    | rest => readMember stack [] rest) = _
  split
  · rename_i heq
    rw [hs] at heq
    exact absurd (List.cons.inj heq).1 hc
  · rfl

theorem readValue_emptyList (stack : List Frame) (rest : List Char) :
    readValue stack ('[' :: ']' :: rest) = resume stack (.arr []) rest := by
  rw [readValue_eq]
  simp only [skipBlanks_of_not_blank rest (by decide : isBlank ']' = false)]

theorem readValue_emptyObject (stack : List Frame) (rest : List Char) :
    readValue stack ('\x7b' :: '\x7d' :: rest) = resume stack (.obj []) rest := by
  rw [readValue_eq]
  simp only [skipBlanks_of_not_blank rest (by decide : isBlank '\x7d' = false)]

/-- The name of a member is read, and its value begins. -/
theorem readMember_printText (stack : List Frame) (members : Members) {name : String}
    (h : Text.WellCoded name) (s : List Char) :
    readMember stack members (printText name ++ ':' :: ' ' :: s) =
      readValue (.object members name :: stack) (skipBlanks s) := by
  have hread := readText_printText (printText name ++ ':' :: ' ' :: s) h.apart (':' :: ' ' :: s)
  have hs : printText name ++ ':' :: ' ' :: s =
      '"' :: ((Text.points name).flatMap escapePoint ++ '"' :: ':' :: ' ' :: s) := by
    simp [printText]
  rw [hs] at hread ⊢
  have hcolon : skipBlanks (':' :: ' ' :: s) = ':' :: ' ' :: s :=
    skipBlanks_of_not_blank _ (by decide)
  rw [readMember_eq]
  simp only [hread, hcolon, h.coded, skipBlanks_blank]

/-! ## The reader behind a value -/

theorem skipBlanks_close {c : Char} (depth : Nat) (rest : List Char) (h : isBlank c = false) :
    skipBlanks (newLine depth ++ c :: rest) = c :: rest := by
  rw [skipBlanks_newLine, skipBlanks_of_not_blank _ h]

theorem resume_list_close (stack : List Frame) (items : List Value) (v : Value) (depth : Nat)
    (rest : List Char) :
    resume (.list items :: stack) v (newLine depth ++ ']' :: rest) =
      resume stack (.arr (v :: items).reverse) rest := by
  rw [resume_eq]
  simp only [skipBlanks_close depth rest (by decide : isBlank ']' = false)]

theorem resume_list_comma (stack : List Frame) (items : List Value) (v : Value) (s : List Char) :
    resume (.list items :: stack) v (',' :: s) =
      readValue (.list (v :: items) :: stack) (skipBlanks s) := by
  rw [resume_eq]
  simp only [skipBlanks_of_not_blank s (by decide : isBlank ',' = false)]

theorem resume_object_close (stack : List Frame) (members : Members) (name : String) (v : Value)
    (depth : Nat) (rest : List Char) :
    resume (.object members name :: stack) v (newLine depth ++ '\x7d' :: rest) =
      resume stack (.obj (members.set name v)) rest := by
  rw [resume_eq]
  simp only [skipBlanks_close depth rest (by decide : isBlank '\x7d' = false)]

theorem resume_object_comma (stack : List Frame) (members : Members) (name : String) (v : Value)
    (s : List Char) :
    resume (.object members name :: stack) v (',' :: s) =
      readMember stack (members.set name v) (skipBlanks s) := by
  rw [resume_eq]
  simp only [skipBlanks_of_not_blank s (by decide : isBlank ',' = false)]

/-! ## Whole values -/

/-- A member with a new name is set behind the others. -/
theorem set_of_nodup {before members : Members} {name : String} {v : Value}
    (h : ((before ++ (name, v) :: members).map (·.1)).Nodup) :
    before.set name v = before ++ [(name, v)] := by
  refine KeyedList.upsert_of_fresh v ?_
  intro m hm
  rw [List.map_append, List.map_cons] at h
  rw [beq_eq_false_iff_ne]
  exact (List.nodup_append.mp h).2.2 m.1 (List.mem_map_of_mem hm) name List.mem_cons_self

mutual

/-- In front of something that does not go on with a number, a value is read as it is printed. -/
theorem readValue_printAt (stack : List Frame) (depth : Nat) (rest : List Char)
    (hrest : EndsNumber rest) : ∀ v : Value, v.WellKeyed → v.WellCoded →
      readValue stack (printAt depth v ++ rest) = resume stack (reread v) rest
  | .null, _, _ => readValue_of_readAtom? rfl (by decide) rfl
  | .bool true, _, _ => readValue_of_readAtom? rfl (by decide) rfl
  | .bool false, _, _ => readValue_of_readAtom? rfl (by decide) rfl
  | .int n, _, _ => by
      have hread := readAtom?_int n hrest
      obtain ⟨c, s, hs, hc | rfl⟩ := exists_cons_toString_int n
      · have hne {w : Char} (hw : w.isDigit = false) : c ≠ w := ne_of_isDigit hc hw
        exact readValue_of_readAtom? (by rw [printAt, hs]; rfl) (by simp [hne]) hread
      · exact readValue_of_readAtom? (by rw [printAt, hs]; rfl) (by decide) hread
  | .float x, _, _ => by
      have hread := readAtom?_printFloat x hrest
      obtain ⟨c, s, hs, hc | hc⟩ := exists_cons_printFloat x
      · have hne {w : Char} (hw : w.isDigit = false) : c ≠ w := ne_of_isDigit hc hw
        exact readValue_of_readAtom? (by rw [printAt, hs]; rfl) (by simp [hne]) hread
      · have hword : ∀ c ∈ ['-', 'N', 'I'], c ≠ '"' ∧ c ≠ '\x7b' ∧ c ≠ '[' := by simp
        exact readValue_of_readAtom? (by rw [printAt, hs]; rfl) (hword c hc) hread
  | .str _, _, hcoded => readValue_printText stack hcoded rest
  | .arr [], _, _ => readValue_emptyList stack rest
  | .arr (v :: items), hkeyed, hcoded => by
      -- the bracket opens a list, and behind its first item stand the others
      obtain ⟨hkeyed, hkeyed'⟩ := hkeyed
      obtain ⟨hcoded, hcoded'⟩ := hcoded
      obtain ⟨c, s, hs, -, hclose, -⟩ := exists_cons_printAt (depth + 1) v
      have hopen : readValue stack (printAt depth (.arr (v :: items)) ++ rest) =
          readValue (.list [] :: stack) (printAt (depth + 1) v ++
            (printItems (depth + 1) items ++ (newLine depth ++ ']' :: rest))) := by
        simp only [printAt, List.cons_append, List.append_assoc, List.nil_append]
        have hskip := skipBlanks_newLine (depth + 1) (printAt (depth + 1) v ++
          (printItems (depth + 1) items ++ (newLine depth ++ ']' :: rest)))
        rw [skipBlanks_printAt] at hskip
        rw [readValue_bracket (by rw [hskip, hs]; rfl) hclose, hskip]
      rw [hopen, readValue_printAt _ _ _ (endsNumber_printItems _ _ _ _) v hkeyed hcoded,
        resume_printItems stack depth rest [] (reread v) items hkeyed' hcoded']
      rfl
  | .obj [], _, _ => readValue_emptyObject stack rest
  | .obj ((name, v) :: members), hkeyed, hcoded => by
      -- the brace opens an object, and behind its first member stand the others
      obtain ⟨hnodup, hkeyed, hkeyed'⟩ := hkeyed
      obtain ⟨hname, hcoded, hcoded'⟩ := hcoded
      have hopen : readValue stack (printAt depth (.obj ((name, v) :: members)) ++ rest) =
          readValue (.object [] name :: stack) (printAt (depth + 1) v ++
            (printMembers (depth + 1) members ++ (newLine depth ++ '}' :: rest))) := by
        simp only [printAt, List.cons_append, List.append_assoc, List.nil_append]
        have hskip := skipBlanks_newLine (depth + 1) (printText name ++ ':' :: ' ' ::
          (printAt (depth + 1) v ++
            (printMembers (depth + 1) members ++ (newLine depth ++ '}' :: rest))))
        rw [skipBlanks_printText] at hskip
        rw [readValue_brace (by rw [hskip]; rfl) (by decide : '"' ≠ '}'), hskip,
          readMember_printText _ _ hname, skipBlanks_printAt]
      rw [hopen, readValue_printAt _ _ _ (endsNumber_printMembers _ _ _ _) v hkeyed hcoded,
        resume_printMembers stack depth rest [] name (reread v) members hnodup hkeyed' hcoded']
      rfl

/-- Behind an item of a list the other items are read as they are printed. -/
theorem resume_printItems (stack : List Frame) (depth : Nat) (rest : List Char)
    (before : List Value) (v : Value) : ∀ items : List Value, WellKeyedItems items → WellCodedItems items →
      resume (.list before :: stack) v
          (printItems (depth + 1) items ++ (newLine depth ++ ']' :: rest)) =
        resume stack (.arr (before.reverse ++ v :: rereadItems items)) rest
  | [], _, _ => by
      rw [printItems, List.nil_append, resume_list_close, List.reverse_cons]
      rfl
  | v' :: items, hkeyed, hcoded => by
      simp only [printItems, List.cons_append, List.append_assoc]
      rw [resume_list_comma, skipBlanks_newLine, skipBlanks_printAt,
        readValue_printAt _ _ _ (endsNumber_printItems _ _ _ _) v' hkeyed.1 hcoded.1,
        resume_printItems stack depth rest (v :: before) (reread v') items hkeyed.2 hcoded.2,
        List.reverse_cons, List.append_assoc]
      rfl

/-- Behind a member of an object the other members are read as they are printed, if no name is there
twice. -/
theorem resume_printMembers (stack : List Frame) (depth : Nat) (rest : List Char)
    (before : Members) (name : String) (v : Value) : ∀ members : Members,
      ((before ++ (name, v) :: members).map (·.1)).Nodup → WellKeyedMembers members →
      WellCodedMembers members → resume (.object before name :: stack) v
          (printMembers (depth + 1) members ++ (newLine depth ++ '}' :: rest)) =
        resume stack (.obj (before ++ (name, v) :: rereadMembers members)) rest
  | [], hnodup, _, _ => by
      have hset := set_of_nodup hnodup
      rw [printMembers, List.nil_append, resume_object_close, hset]
      rfl
  | (name', v') :: members, hnodup, hkeyed, hcoded => by
      obtain ⟨hname, hcoded, hcoded'⟩ := hcoded
      have hset := set_of_nodup hnodup
      rw [printMembers]
      simp only [List.cons_append, List.append_assoc]
      rw [resume_object_comma, skipBlanks_newLine, hset, skipBlanks_printText,
        readMember_printText _ _ hname, skipBlanks_printAt,
        readValue_printAt _ _ _ (endsNumber_printMembers _ _ _ _) v' hkeyed.1 hcoded,
        resume_printMembers stack depth rest _ name' (reread v') members (by simpa using hnodup) hkeyed.2
          hcoded', List.append_assoc]
      rfl

end

/-- A printed value is read as the value that its text stands for. -/
theorem read_print_eq {v : Value} (hkeyed : v.WellKeyed) (hcoded : v.WellCoded) :
    read (print v) = .ok (reread v) := by
  obtain ⟨c, s, hs, hblank, -⟩ := exists_cons_printAt 0 v
  have hvalue := readValue_printAt [] 0 [] endsNumber_nil v hkeyed hcoded
  have hskip := skipBlanks_printAt 0 v []
  rw [List.append_nil] at hvalue hskip
  have hmark : (print v).head? ≠ some '\uFEFF' := by
    intro hhead
    have hplain := isPlain_printAt 0 v '\uFEFF' (List.mem_of_head? hhead)
    revert hplain
    decide
  rw [read, readAll, if_neg hmark, print, hskip, hvalue, resume]
  rfl

/-- **A printed value is read as it was.** -/
theorem read_print {v : Value} (hkeyed : v.WellKeyed) (hcoded : v.WellCoded) (hfree : v.FloatFree) :
    read (print v) = .ok v := by
  rw [read_print_eq hkeyed hcoded, reread_of_floatFree v hfree]

end ContentTypes.Json
