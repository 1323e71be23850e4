import ContentTypes.Json.Atom
import ContentTypes.Json.Literal

/-!
# Reading JSON

`Json.read` reads a text that holds one JSON value. Of a name that is repeated in an object the first
place and the last value are kept.

The reader walks the text once, from left to right, and keeps the lists and objects that are still
open on a stack of frames: `readValue` stands where a value must begin, `resume` behind a value that
is complete, `readMember` where a member of an object must begin. Each call stands further to the
right than the one before, so the length of the rest of the text bounds the walk.
-/

set_option autoImplicit false

namespace ContentTypes.Json

/-! ## Blanks -/

/-- Whether the character may stand between tokens. -/
def isBlank (c : Char) : Bool := c = ' ' || c = '\t' || c = '\n' || c = '\r'

/-- The text without its leading blanks. -/
def skipBlanks (s : List Char) : List Char := s.dropWhile isBlank

theorem length_skipBlanks_le (s : List Char) : (skipBlanks s).length ≤ s.length :=
  (List.dropWhile_suffix isBlank).length_le

/-! ## Values -/

/-- A list or an object that is still open: the items of the list so far, last first, or the members
of the object so far and the name of the member that is read. -/
inductive Frame where
  | list (items : List Value)
  | object (members : Members) (name : String)

/-- What stands behind the first character after the blanks is shorter than the text. -/
theorem length_lt_of_skipBlanks {s rest : List Char} {c : Char} (h : skipBlanks s = c :: rest) :
    rest.length < s.length := by
  have := length_skipBlanks_le s
  rw [h, List.length_cons] at this
  omega

mutual

/-- Reads on from where a value must begin. -/
def readValue (stack : List Frame) (s : List Char) : Except Fault (Value × List Char) :=
  match s with
  | '"' :: rest =>
      match _h : readText s rest with
      | .error fault => .error fault
      | .ok (text, rest') => resume stack (.str (Text.ofPoints text)) rest'
  | '{' :: rest =>
      match _h : skipBlanks rest with
      | '}' :: rest' => resume stack (.obj []) rest'
      | rest' => readMember stack [] rest'
  | '[' :: rest =>
      match _h : skipBlanks rest with
      | ']' :: rest' => resume stack (.arr []) rest'
      | rest' => readValue (.list [] :: stack) rest'
  | atom =>
      match _h : readAtom? atom with
      | some (v, rest) => resume stack v rest
      | none => .error ⟨.expectingValue, atom⟩
termination_by s.length
decreasing_by
  · have := length_lt_of_readText _h
    simp only [List.length_cons]
    omega
  · have := length_lt_of_skipBlanks _h
    simp only [List.length_cons]
    omega
  · have := length_skipBlanks_le rest
    rw [_h] at this
    simp only [List.length_cons]
    omega
  · have := length_lt_of_skipBlanks _h
    simp only [List.length_cons]
    omega
  · have := length_skipBlanks_le rest
    rw [_h] at this
    simp only [List.length_cons]
    omega
  · exact length_lt_of_readAtom? _h

/-- Reads on from where a member of an object must begin. -/
def readMember (stack : List Frame) (members : Members) (s : List Char) :
    Except Fault (Value × List Char) :=
  match s with
  | '"' :: rest =>
      match _h : readText s rest with
      | .error fault => .error fault
      | .ok (name, rest') =>
          match _h' : skipBlanks rest' with
          | ':' :: rest'' =>
              readValue (.object members (Text.ofPoints name) :: stack) (skipBlanks rest'')
          | rest'' => .error ⟨.expectingColon, rest''⟩
  | _ => .error ⟨.expectingName, s⟩
termination_by s.length
decreasing_by
  have h₁ := length_lt_of_readText _h
  have h₂ := length_lt_of_skipBlanks _h'
  have h₃ := length_skipBlanks_le rest''
  simp only [List.length_cons]
  omega

/-- Reads on behind a value that is complete. -/
def resume (stack : List Frame) (v : Value) (s : List Char) : Except Fault (Value × List Char) :=
  match stack with
  | [] => .ok (v, s)
  | .list items :: stack =>
      match _h : skipBlanks s with
      | ']' :: rest => resume stack (.arr (v :: items).reverse) rest
      | ',' :: rest => readValue (.list (v :: items) :: stack) (skipBlanks rest)
      | rest => .error ⟨.expectingComma, rest⟩
  | .object members name :: stack =>
      match _h : skipBlanks s with
      | '}' :: rest => resume stack (.obj (members.set name v)) rest
      | ',' :: rest => readMember stack (members.set name v) (skipBlanks rest)
      | rest => .error ⟨.expectingComma, rest⟩
termination_by s.length
decreasing_by
  · exact length_lt_of_skipBlanks _h
  · have := length_lt_of_skipBlanks _h
    have := length_skipBlanks_le rest
    omega
  · exact length_lt_of_skipBlanks _h
  · have := length_lt_of_skipBlanks _h
    have := length_skipBlanks_le rest
    omega

end

/-! ## Whole texts -/

/-- Reads a text that holds one value. -/
def readAll (text : List Char) : Except Fault Value :=
  if text.head? = some '\uFEFF' then .error ⟨.byteOrderMark, text⟩
  else match readValue [] (skipBlanks text) with
    | .error fault => .error fault
    | .ok (v, rest) =>
        match skipBlanks rest with
        | [] => .ok v
        | rest => .error ⟨.extraData, rest⟩

/-- Reads a text that holds one value, or says where and why it does not. -/
def read (text : List Char) : Except SyntaxError Value :=
  (readAll text).mapError (·.locate text)

end ContentTypes.Json
