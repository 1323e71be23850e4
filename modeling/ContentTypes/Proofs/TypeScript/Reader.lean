import ContentTypes.Proofs.TypeScript.Grammar

/-!
# Reading type expressions

The grammar of type expressions as a reader. It walks the text once and keeps the parentheses and
records that are still open on a stack of frames, as the reader of JSON does: `readPrimary` stands where
a primary must begin, `resume` behind one, `readMembers` where a member of a record begins or the
record ends. The reader is a function, so what the grammar derives and the reader takes is a member in
one way only.
-/

set_option autoImplicit false

namespace ContentTypes.TypeScript

/-! ## Tokens -/

/-- The text without its leading spaces. -/
def skipSpaces (s : List Char) : List Char := s.dropWhile (· = ' ')

/-- The text without its leading spaces and line breaks. -/
def skipLines (s : List Char) : List Char := s.dropWhile isBlank

/-- Reads a name. -/
def readName? (s : List Char) : Option (String × List Char) :=
  match s with
  | [] => none
  | c :: _ =>
      if isNameStart c then
        some (String.ofList (s.takeWhile isNamePart), s.dropWhile isNamePart)
      else none

/-- Reads a literal behind its opening quote, up to the next quote on the same line. -/
def readLiteral? (s : List Char) : Option (String × List Char) :=
  match s.dropWhile fun c => c != '\'' && c != '\n' with
  | '\'' :: rest => some (String.ofList (s.takeWhile fun c => c != '\'' && c != '\n'), rest)
  | _ => none

/-- The text behind the comment that starts here, if one does. -/
def skipComment (s : List Char) : List Char :=
  match s with
  | '/' :: '*' :: rest => (afterComment? rest).getD s
  | _ => s

/-- Reads what stands before the type of a member: a comment if there is one, the name and a colon. -/
def readHead? (s : List Char) : Option (String × List Char) :=
  match readName? (skipLines (skipComment (skipLines s))) with
  | none => none
  | some (name, rest) =>
      match skipSpaces rest with
      | ':' :: rest => some (name, rest)
      | _ => none

/-- Puts the pairs of brackets that stand here behind a primary. -/
def readBrackets (primary : List Branch) : List Char → List Branch × List Char
  | '[' :: ']' :: rest => readBrackets [.array primary] rest
  | s => (primary, s)

/-! ### What is left is shorter than what was read -/

theorem length_skipSpaces_le (s : List Char) : (skipSpaces s).length ≤ s.length :=
  (List.dropWhile_suffix _).length_le

theorem length_skipLines_le (s : List Char) : (skipLines s).length ≤ s.length :=
  (List.dropWhile_suffix _).length_le

theorem length_lt_of_readName? {s rest : List Char} {name : String}
    (h : readName? s = some (name, rest)) : rest.length < s.length := by
  unfold readName? at h
  split at h
  · cases h
  · rename_i c s
    split at h
    · rename_i hc
      cases h
      have hpart : isNamePart c = true := by rw [isNamePart, hc, Bool.true_or]
      have := (List.dropWhile_suffix isNamePart (l := s)).length_le
      rw [List.dropWhile_cons_of_pos hpart, List.length_cons]
      omega
    · cases h

theorem length_lt_of_readLiteral? {s rest : List Char} {text : String}
    (h : readLiteral? s = some (text, rest)) : rest.length < s.length := by
  unfold readLiteral? at h
  split at h
  · rename_i heq
    cases h
    have := (List.dropWhile_suffix (fun c => c != '\'' && c != '\n') (l := s)).length_le
    rw [heq, List.length_cons] at this
    omega
  · cases h

theorem length_skipComment_le (s : List Char) : (skipComment s).length ≤ s.length := by
  unfold skipComment
  split
  · rename_i rest
    cases h : afterComment? rest with
    | none => exact Nat.le_refl _
    | some rest' =>
        have := length_le_of_afterComment? h
        simp only [Option.getD_some, List.length_cons]
        omega
  · exact Nat.le_refl _

theorem length_lt_of_readHead? {s rest : List Char} {name : String}
    (h : readHead? s = some (name, rest)) : rest.length < s.length := by
  unfold readHead? at h
  split at h
  · cases h
  · rename_i name' rest' hname
    split at h
    · rename_i heq
      cases h
      have h₁ := length_skipLines_le s
      have h₂ := length_skipComment_le (skipLines s)
      have h₃ := length_skipLines_le (skipComment (skipLines s))
      have h₄ := length_lt_of_readName? hname
      have h₅ := length_skipSpaces_le rest'
      rw [heq, List.length_cons] at h₅
      omega
    · cases h

theorem length_readBrackets_le (primary : List Branch) (s : List Char) :
    (readBrackets primary s).2.length ≤ s.length := by
  fun_induction readBrackets primary s with
  | case1 primary rest ih =>
      simp only [List.length_cons]
      omega
  | case2 => exact Nat.le_refl _

/-! ## Types -/

/-- What is still open: a parenthesis, with the branches of the union it stands in, or a record with
its members so far and the name of the member that is read, and the same branches. -/
inductive Frame where
  | paren (before : List Branch)
  | record (before : List Branch) (members : List Member) (name : String)

mutual

/-- Reads on from where a primary must begin, behind the branches of its union so far. -/
def readPrimary (stack : List Frame) (branches : List Branch) (s : List Char) :
    Option (List Branch × List Char) :=
  match _h : skipSpaces s with
  | '(' :: rest => readPrimary (.paren branches :: stack) [] rest
  | '{' :: rest => readMembers stack branches [] rest
  | '\'' :: rest =>
      match _h' : readLiteral? rest with
      | some (text, rest') => resume stack branches [.literal text] rest'
      | none => none
  | s' =>
      match _h' : readName? s' with
      | some (name, rest') => resume stack branches [.name name] rest'
      | none => none
termination_by s.length
decreasing_by
  all_goals have hskip := length_skipSpaces_le s
  all_goals rw [_h] at hskip
  · simp only [List.length_cons] at hskip
    omega
  · simp only [List.length_cons] at hskip
    omega
  · have := length_lt_of_readLiteral? _h'
    simp only [List.length_cons] at hskip
    omega
  · have := length_lt_of_readName? _h'
    omega

/-- Reads on behind a primary. -/
def resume (stack : List Frame) (branches primary : List Branch) (s : List Char) :
    Option (List Branch × List Char) :=
  let type := branches ++ (readBrackets primary s).1
  match stack with
  | [] =>
      match _h : skipSpaces (readBrackets primary s).2 with
      | '|' :: rest => readPrimary [] type rest
      | rest => some (type, rest)
  | .paren before :: outer =>
      match _h : skipSpaces (readBrackets primary s).2 with
      | '|' :: rest => readPrimary (.paren before :: outer) type rest
      | ')' :: rest => resume outer before type rest
      | _ => none
  | .record before members name :: outer =>
      match _h : skipSpaces (readBrackets primary s).2 with
      | '|' :: rest => readPrimary (.record before members name :: outer) type rest
      | '\n' :: rest => readMembers outer before (members ++ [(name, type)]) rest
      | '}' :: rest => resume outer before [.record (members ++ [(name, type)])] rest
      | _ => none
termination_by s.length
decreasing_by
  all_goals have hbrackets := length_readBrackets_le primary s
  all_goals have hskip := length_skipSpaces_le (readBrackets primary s).2
  all_goals rw [_h] at hskip
  all_goals simp only [List.length_cons] at hskip
  all_goals omega

/-- Reads on from where a member of a record begins or the record ends. -/
def readMembers (stack : List Frame) (branches : List Branch) (members : List Member)
    (s : List Char) : Option (List Branch × List Char) :=
  match _h : skipLines s with
  | '}' :: rest => resume stack branches [.record members] rest
  | s' =>
      match _h' : readHead? s' with
      | some (name, rest) => readPrimary (.record branches members name :: stack) [] rest
      | none => none
termination_by s.length
decreasing_by
  all_goals have hskip := length_skipLines_le s
  all_goals rw [_h] at hskip
  · simp only [List.length_cons] at hskip
    omega
  · have := length_lt_of_readHead? _h'
    omega

end

/-! ### One step of the reader -/

theorem readPrimary_eq (stack : List Frame) (branches : List Branch) (s : List Char) :
    readPrimary stack branches s =
      match skipSpaces s with
      | '(' :: rest => readPrimary (.paren branches :: stack) [] rest
      | '\x7b' :: rest => readMembers stack branches [] rest
      | '\'' :: rest =>
          match readLiteral? rest with
          | some (text, rest') => resume stack branches [.literal text] rest'
          | none => none
      | s' =>
          match readName? s' with
          | some (name, rest') => resume stack branches [.name name] rest'
          | none => none := by
  rw [readPrimary]
  generalize skipSpaces s = s'
  split
  · rfl
  · rfl
  · split <;> rename_i heq <;> simp only [heq]
  · split <;> rename_i heq <;> simp [*]

theorem resume_eq (stack : List Frame) (branches primary : List Branch) (s : List Char) :
    resume stack branches primary s =
      let type := branches ++ (readBrackets primary s).1
      match skipSpaces (readBrackets primary s).2 with
      | '|' :: rest => readPrimary stack type rest
      | s' =>
          match stack with
          | [] => some (type, s')
          | .paren before :: outer =>
              match s' with
              | ')' :: rest => resume outer before type rest
              | _ => none
          | .record before members name :: outer =>
              match s' with
              | '\n' :: rest => readMembers outer before (members ++ [(name, type)]) rest
              | '\x7d' :: rest => resume outer before [.record (members ++ [(name, type)])] rest
              | _ => none := by
  rw [resume.eq_def]
  generalize skipSpaces (readBrackets primary s).2 = s'
  rcases stack with _ | ⟨⟨before⟩ | ⟨before, members, name⟩, outer⟩
  all_goals dsimp only
  all_goals split <;> first | rfl | simp [*]

theorem readMembers_eq (stack : List Frame) (branches : List Branch) (members : List Member)
    (s : List Char) :
    readMembers stack branches members s =
      match skipLines s with
      | '}' :: rest => resume stack branches [.record members] rest
      | s' =>
          match readHead? s' with
          | some (name, rest) => readPrimary (.record branches members name :: stack) [] rest
          | none => none := by
  rw [readMembers]
  generalize skipLines s = s'
  split
  · rfl
  · split <;> rename_i heq <;> simp [*]

/-- Reads a text that is one member of a record and nothing else. -/
def readMember (s : List Char) : Option Member :=
  match readHead? s with
  | none => none
  | some (name, rest) =>
      match readPrimary [] [] rest with
      | some (type, []) => some (name, type)
      | _ => none

end ContentTypes.TypeScript
