import ContentTypes.Text.Utf8

/-!
# Code points

A text is a sequence of code points. Most of them are characters; the others are the halves of surrogate
pairs, which a JSON text can name one by one, though no file can hold one. There is no `Char` for a half,
so in a `String` it stands as two: the `mark`, and behind it the character 0x800 below the half. The mark
as a character stands as two marks, and every other character as itself. `points` are the code points of a
`String`, and `ofPoints` is the `String` of code points. The mark is the first character behind all halves,
so that texts are in the order of their code points.

`Text.bytes` are the bytes of a text in a file, if it has any: a half has none (`encodeFault?`).
-/

set_option autoImplicit false

namespace ContentTypes.Text

/-! ## Digits -/

/-- The digit of value `d` below sixteen, in lower case. -/
def hexDigit (d : Nat) : Char := if d < 10 then Char.ofNat (48 + d) else Char.ofNat (87 + d)

/-- The last `width` hexadecimal digits of `n`. -/
def hexDigits : Nat → Nat → List Char
  | 0, _ => []
  | width + 1, n => hexDigits width (n / 16) ++ [hexDigit (n % 16)]

/-! ## Texts as code points -/

/-- A character, or one of the 0x800 halves of surrogate pairs. -/
inductive CodePoint where
  | char (c : Char)
  | half (i : Fin 0x800)
  deriving DecidableEq, Repr

/-- The character that a half stands behind. -/
def mark : Char := '\uE000'

/-- The character that stands for a half behind the mark. -/
def halfChar (i : Fin 0x800) : Char := Char.ofNat (0xD000 + i)

/-- The half that a character behind the mark stands for, if it stands for one. -/
def half? (c : Char) : Option (Fin 0x800) :=
  if h : 0xD000 ≤ c.toNat ∧ c.toNat < 0xD800 then some ⟨c.toNat - 0xD000, by omega⟩ else none

namespace CodePoint

/-- The sixteen-bit unit of a half. -/
def unit (i : Fin 0x800) : Nat := 0xD800 + i

/-- Whether a code point is a character. -/
def isChar : CodePoint → Bool
  | .char _ => true
  | .half _ => false

/-- Whether a code point begins a surrogate pair. -/
def isHigh : CodePoint → Bool
  | .char _ => false
  | .half i => i.val < 0x400

/-- Whether a code point ends a surrogate pair. -/
def isLow : CodePoint → Bool
  | .char _ => false
  | .half i => 0x400 ≤ i.val

/-- The characters that stand for a code point. -/
def chars : CodePoint → List Char
  | .char c => if c = mark then [mark, mark] else [c]
  | .half i => [mark, halfChar i]

/-- The bytes of a code point in a file. -/
def bytes : CodePoint → List UInt8
  | .char c => String.utf8EncodeChar c
  | .half _ => []

end CodePoint

/-- The code points that characters stand for. A mark with nothing behind it that it goes with stands for
itself. -/
def pointsOf : List Char → List CodePoint
  | [] => []
  | [c] => [.char c]
  | c :: d :: rest =>
      if c = mark then
        if d = mark then .char mark :: pointsOf rest
        else match half? d with
          | some i => .half i :: pointsOf rest
          | none => .char mark :: pointsOf (d :: rest)
      else .char c :: pointsOf (d :: rest)

/-- The code points of a text. -/
def points (text : String) : List CodePoint := pointsOf text.toList

/-- The text of code points. -/
def ofPoints (ps : List CodePoint) : String := String.ofList (ps.flatMap CodePoint.chars)

/-! ## Texts in files -/

/-- Why a text cannot be in a file: the place of the first half, the number of halves that stand there in
a row, and which one it is. -/
structure EncodeFault where
  start : Nat
  length : Nat
  half : Fin 0x800
  deriving DecidableEq, Repr

/-- The wording of a fault: one half is shown, several are given by their places. -/
def EncodeFault.message (f : EncodeFault) : String :=
  let halves :=
    if f.length = 1 then
      s!"character '\\u{String.ofList (hexDigits 4 (CodePoint.unit f.half))}' in position {f.start}"
    else s!"characters in position {f.start}-{f.start + f.length - 1}"
  s!"'utf-8' codec can't encode {halves}: surrogates not allowed"

/-- The first halves among the code points from a place on. -/
def faultFrom? (place : Nat) : List CodePoint → Option EncodeFault
  | [] => none
  | .char _ :: rest => faultFrom? (place + 1) rest
  | .half i :: rest => some ⟨place, (rest.takeWhile fun p => !p.isChar).length + 1, i⟩

/-- What keeps a text from being in a file. -/
def encodeFault? (text : String) : Option EncodeFault := faultFrom? 0 (points text)

/-- The bytes of a text in a file. -/
def bytes (text : String) : List UInt8 := (points text).flatMap CodePoint.bytes

/-- The number of bytes of a text. -/
def size (text : String) : Nat := (bytes text).length

end ContentTypes.Text
