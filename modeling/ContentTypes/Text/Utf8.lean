/-!
# UTF-8

Encoding and decoding of text as UTF-8. `scan` cuts a sequence of bytes into characters and faults,
where a fault covers the longest stretch that could have begun a character. `decode` accepts bytes
without fault; `decodeLossy` puts the replacement character in place of each fault.
-/

set_option autoImplicit false

namespace ContentTypes.Utf8

/-- Why a stretch of bytes is no character. -/
inductive Reason where
  | invalidStart
  | invalidContinuation
  | unexpectedEnd
  deriving DecidableEq, Repr

/-- A stretch of bytes that is no character: its place, its length and its first byte. -/
structure Fault where
  reason : Reason
  start : Nat
  length : Nat
  lead : UInt8
  deriving DecidableEq, Repr

/-- A piece of a sequence of bytes. -/
inductive Piece where
  | char (c : Char)
  | fault (f : Fault)
  deriving DecidableEq, Repr

/-- A character that has begun: its lead byte and the place of it, the number of bytes read, the
number of bytes still owed, the bounds for the next byte, and the code point read so far. -/
structure Pending where
  lead : UInt8
  start : Nat
  read : Nat
  owed : Nat
  low : UInt8
  high : UInt8
  code : Nat
  deriving DecidableEq, Repr

/-- The fault of a character that cannot go on. -/
def Pending.fault (p : Pending) (reason : Reason) : Fault := ⟨reason, p.start, p.read, p.lead⟩

/-- What a byte between characters is or begins. The bounds of the second byte rule out forms that
are too long, surrogates and code points beyond the last. -/
def lead (place : Nat) (b : UInt8) : Piece ⊕ Pending :=
  if b < 0x80 then .inl (.char (Char.ofNat b.toNat))
  else if b < 0xC2 then .inl (.fault ⟨.invalidStart, place, 1, b⟩)
  else if b < 0xE0 then .inr ⟨b, place, 1, 1, 0x80, 0xBF, b.toNat - 0xC0⟩
  else if b < 0xF0 then
    .inr ⟨b, place, 1, 2, if b = 0xE0 then 0xA0 else 0x80, if b = 0xED then 0x9F else 0xBF,
      b.toNat - 0xE0⟩
  else if b < 0xF5 then
    .inr ⟨b, place, 1, 3, if b = 0xF0 then 0x90 else 0x80, if b = 0xF4 then 0x8F else 0xBF,
      b.toNat - 0xF0⟩
  else .inl (.fault ⟨.invalidStart, place, 1, b⟩)

/-- Cuts the bytes from the given place on into pieces, after a character that may have begun. -/
def scanFrom (place : Nat) (pending : Option Pending) : List UInt8 → List Piece
  | [] =>
      match pending with
      | none => []
      | some p => [.fault (p.fault .unexpectedEnd)]
  | b :: rest =>
      -- the piece or beginning of one at `b`, where `b` stands between characters
      let fresh := fun (_ : Unit) =>
        match lead place b with
        | .inl piece => piece :: scanFrom (place + 1) none rest
        | .inr p => scanFrom (place + 1) (some p) rest
      match pending with
      | none => fresh ()
      | some p =>
          if p.low ≤ b ∧ b ≤ p.high then
            let code := p.code * 64 + (b.toNat - 0x80)
            if p.owed = 1 then .char (Char.ofNat code) :: scanFrom (place + 1) none rest
            else
              scanFrom (place + 1)
                (some ⟨p.lead, p.start, p.read + 1, p.owed - 1, 0x80, 0xBF, code⟩) rest
          else .fault (p.fault .invalidContinuation) :: fresh ()

/-- The characters and faults of a sequence of bytes. -/
def scan (bytes : List UInt8) : List Piece := scanFrom 0 none bytes

/-- The characters of pieces without fault, or the first fault. -/
def collect : List Piece → Except Fault (List Char)
  | [] => .ok []
  | .char c :: rest => (collect rest).map (c :: ·)
  | .fault f :: _ => .error f

/-- The text of a sequence of bytes that is UTF-8, or its first fault. -/
def decode (bytes : List UInt8) : Except Fault (List Char) := collect (scan bytes)

/-- The text of a sequence of bytes, with the replacement character for each fault. -/
def decodeLossy (bytes : List UInt8) : List Char :=
  (scan bytes).map fun
    | .char c => c
    | .fault _ => '\uFFFD'

/-- The bytes of a text. -/
def encode (text : List Char) : List UInt8 := text.flatMap String.utf8EncodeChar

end ContentTypes.Utf8
