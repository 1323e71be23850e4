import ContentTypes.Text.CodePoint
import ContentTypes.Text.Printable

/-!
# Quoted text

The form a text takes inside a list or an object that is shown in a message or a declaration:
between single quotes, or between double quotes if it holds a single quote and no double quote,
with a backslash escape for the quote, the backslash and every code point without a visible form.
-/

set_option autoImplicit false

namespace ContentTypes.Text

/-- The quote for a text: single, unless only double quotes spare an escape. -/
def quoteFor (text : List Char) : Char :=
  if text.contains '\'' && !text.contains '"' then '"' else '\''

/-- One character of a quoted text. -/
def quoteChar (quote c : Char) : List Char :=
  if c = quote || c = '\\' then ['\\', c]
  else if c = '\t' then ['\\', 't']
  else if c = '\n' then ['\\', 'n']
  else if c = '\r' then ['\\', 'r']
  else if isPrintable c then [c]
  else if c.toNat < 0x100 then '\\' :: 'x' :: hexDigits 2 c.toNat
  else if c.toNat < 0x10000 then '\\' :: 'u' :: hexDigits 4 c.toNat
  else '\\' :: 'U' :: hexDigits 8 c.toNat

/-- One code point of a quoted text. -/
def quotePoint (quote : Char) : CodePoint → List Char
  | .char c => quoteChar quote c
  | .half i => '\\' :: 'u' :: hexDigits 4 (CodePoint.unit i)

/-- A text between quotes, with escapes. -/
def quoted (text : String) : String :=
  let quote := quoteFor text.toList
  String.ofList (quote :: (points text).flatMap (quotePoint quote) ++ [quote])

end ContentTypes.Text
