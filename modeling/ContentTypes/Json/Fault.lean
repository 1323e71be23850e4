/-!
# Faults in JSON texts

What can be wrong with a text that is not JSON, and where. While a text is read a fault is known by
the rest of the text from the place of the fault on; `Fault.locate` counts its line and column.
-/

set_option autoImplicit false

namespace ContentTypes.Json

/-- What is wrong with a text that is not JSON. -/
inductive Cause where
  | expectingValue
  | expectingName
  | expectingColon
  | expectingComma
  | unterminatedString
  | controlCharacter
  | invalidEscape
  | invalidUnicodeEscape
  | extraData
  | byteOrderMark
  deriving DecidableEq, Repr

/-- The wording of a cause. -/
def Cause.message : Cause → String
  | .expectingValue => "Expecting value"
  | .expectingName => "Expecting property name enclosed in double quotes"
  | .expectingColon => "Expecting ':' delimiter"
  | .expectingComma => "Expecting ',' delimiter"
  | .unterminatedString => "Unterminated string starting at"
  | .controlCharacter => "Invalid control character at"
  | .invalidEscape => "Invalid \\escape"
  | .invalidUnicodeEscape => "Invalid \\uXXXX escape"
  | .extraData => "Extra data"
  | .byteOrderMark => "Unexpected UTF-8 BOM (decode using utf-8-sig)"

/-- A fault at the first character of the rest of a text. -/
structure Fault where
  cause : Cause
  rest : List Char
  deriving DecidableEq, Repr

/-- A fault with its place in the text: the number of characters before it, and its line and
column, both counted from one. -/
structure SyntaxError where
  cause : Cause
  offset : Nat
  line : Nat
  column : Nat
  deriving DecidableEq, Repr

/-- The wording of a syntax error. -/
def SyntaxError.message (e : SyntaxError) : String :=
  s!"{e.cause.message}: line {e.line} column {e.column} (char {e.offset})"

/-- The place of a fault in the text it was found in. -/
def Fault.locate (text : List Char) (fault : Fault) : SyntaxError :=
  let before := text.take (text.length - fault.rest.length)
  ⟨fault.cause, before.length, before.count '\n' + 1,
    (before.reverse.takeWhile (· != '\n')).length + 1⟩

end ContentTypes.Json
