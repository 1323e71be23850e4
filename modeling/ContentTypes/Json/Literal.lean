import ContentTypes.Json.Fault
import ContentTypes.Text.CodePoint

/-!
# Text literals

`readText` reads the code points of a JSON text from behind its opening quote, with escapes of one
letter or of four hexadecimal digits, of which two may form a surrogate pair. `length_lt_of_readText`
says that at least one character is read.
-/

set_option autoImplicit false

namespace ContentTypes.Json

open Text (CodePoint)

/-- The value of a hexadecimal digit. -/
def hexValue? (c : Char) : Option Nat :=
  if '0' ≤ c ∧ c ≤ '9' then some (c.toNat - 48)
  else if 'a' ≤ c ∧ c ≤ 'f' then some (c.toNat - 87)
  else if 'A' ≤ c ∧ c ≤ 'F' then some (c.toNat - 55)
  else none

/-- Reads a number of four hexadecimal digits. -/
def readHex? : List Char → Option (Nat × List Char)
  | a :: b :: c :: d :: rest =>
      match hexValue? a, hexValue? b, hexValue? c, hexValue? d with
      | some a, some b, some c, some d => some (((a * 16 + b) * 16 + c) * 16 + d, rest)
      | _, _, _, _ => none
  | _ => none

/-- Whether the unit begins a surrogate pair. -/
def isHighSurrogate (n : Nat) : Bool := 0xD800 ≤ n && n < 0xDC00

/-- Whether the unit ends a surrogate pair. -/
def isLowSurrogate (n : Nat) : Bool := 0xDC00 ≤ n && n < 0xE000

/-- The code point of a unit, which is a half if the unit is a surrogate. -/
def unitPoint (n : Nat) : CodePoint :=
  if h : 0xD800 ≤ n ∧ n < 0xE000 then .half ⟨n - 0xD800, by omega⟩ else .char (Char.ofNat n)

/-- The character of a surrogate pair. -/
def pairChar (high low : Nat) : Char :=
  Char.ofNat (0x10000 + (high - 0xD800) * 0x400 + (low - 0xDC00))

/-- Reads the second half of a surrogate pair, if an escape stands here that is one. An escape is
only looked at if more than its digits is left. -/
def readLowSurrogate (s : List Char) : Except Fault (Option (Nat × List Char)) :=
  match s with
  | '\\' :: 'u' :: rest =>
      if rest.length ≤ 4 then .ok none
      else match readHex? rest with
        | none => .error ⟨.invalidUnicodeEscape, 'u' :: rest⟩
        | some (n, rest) => .ok (if isLowSurrogate n then some (n, rest) else none)
  | _ => .ok none

/-- Reads the digits of a Unicode escape, and a second escape that completes a pair. -/
def readUnicodeEscape (s : List Char) : Except Fault (CodePoint × List Char) :=
  if s.length ≤ 4 then .error ⟨.invalidUnicodeEscape, 'u' :: s⟩
  else match readHex? s with
    | none => .error ⟨.invalidUnicodeEscape, 'u' :: s⟩
    | some (n, rest) =>
        if isHighSurrogate n then
          match readLowSurrogate rest with
          | .error fault => .error fault
          | .ok (some (m, rest)) => .ok (.char (pairChar n m), rest)
          | .ok none => .ok (unitPoint n, rest)
        else .ok (unitPoint n, rest)

/-- The character of a one-letter escape. -/
def escapedChar? : Char → Option Char
  | '"' => some '"'
  | '\\' => some '\\'
  | '/' => some '/'
  | 'b' => some '\x08'
  | 'f' => some '\x0c'
  | 'n' => some '\n'
  | 'r' => some '\r'
  | 't' => some '\t'
  | _ => none

/-- Reads an escape behind its backslash. `start` is the text from the opening quote on. -/
def readEscape (start : List Char) : List Char → Except Fault (CodePoint × List Char)
  | [] => .error ⟨.unterminatedString, start⟩
  | 'u' :: rest => readUnicodeEscape rest
  | c :: rest =>
      match escapedChar? c with
      | some e => .ok (.char e, rest)
      | none => .error ⟨.invalidEscape, '\\' :: c :: rest⟩

/-! ## What is left is shorter than what was read -/

theorem length_of_readHex? {s rest : List Char} {n : Nat} (h : readHex? s = some (n, rest)) :
    s.length = rest.length + 4 := by
  unfold readHex? at h
  split at h
  · split at h
    · simp only [Option.some.injEq, Prod.mk.injEq] at h
      simp [← h.2]
    · cases h
  · cases h

theorem length_lt_of_readLowSurrogate {s rest : List Char} {n : Nat}
    (h : readLowSurrogate s = .ok (some (n, rest))) : rest.length < s.length := by
  unfold readLowSurrogate at h
  split at h
  · split at h
    · cases h
    · split at h
      · cases h
      · rename_i m r hr
        split at h
        · simp only [Except.ok.injEq, Option.some.injEq, Prod.mk.injEq] at h
          have := length_of_readHex? hr
          simp only [← h.2, List.length_cons]
          omega
        · cases h
  · cases h

theorem length_lt_of_readUnicodeEscape {s rest : List Char} {p : CodePoint}
    (h : readUnicodeEscape s = .ok (p, rest)) : rest.length < s.length := by
  unfold readUnicodeEscape at h
  split at h
  · cases h
  · split at h
    · cases h
    · rename_i n r hr
      have hlen := length_of_readHex? hr
      split at h
      · split at h
        · cases h
        · rename_i hlow
          have := length_lt_of_readLowSurrogate hlow
          simp only [Except.ok.injEq, Prod.mk.injEq] at h
          rw [← h.2]
          omega
        · simp only [Except.ok.injEq, Prod.mk.injEq] at h
          rw [← h.2]
          omega
      · simp only [Except.ok.injEq, Prod.mk.injEq] at h
        rw [← h.2]
        omega

theorem length_lt_of_readEscape {start s rest : List Char} {p : CodePoint}
    (h : readEscape start s = .ok (p, rest)) : rest.length < s.length := by
  unfold readEscape at h
  split at h
  · cases h
  · have := length_lt_of_readUnicodeEscape h
    simp only [List.length_cons]
    omega
  · split at h
    · simp only [Except.ok.injEq, Prod.mk.injEq] at h
      simp [← h.2]
    · cases h

/-- Reads a text behind its opening quote. `start` is the text from the opening quote on, where a
missing closing quote is reported. -/
def readText (start : List Char) : List Char → Except Fault (List CodePoint × List Char)
  | [] => .error ⟨.unterminatedString, start⟩
  | '"' :: rest => .ok ([], rest)
  | '\\' :: rest =>
      match _h : readEscape start rest with
      | .error fault => .error fault
      | .ok (p, rest') =>
          match readText start rest' with
          | .error fault => .error fault
          | .ok (text, rest'') => .ok (p :: text, rest'')
  | c :: rest =>
      if c.toNat < 0x20 then .error ⟨.controlCharacter, c :: rest⟩
      else match readText start rest with
        | .error fault => .error fault
        | .ok (text, rest') => .ok (.char c :: text, rest')
termination_by s => s.length
decreasing_by
  · have := length_lt_of_readEscape _h
    simp only [List.length_cons]
    omega
  · simp

theorem length_lt_of_readText {start s rest : List Char} {text : List CodePoint}
    (h : readText start s = .ok (text, rest)) : rest.length < s.length := by
  fun_induction readText start s generalizing text rest with
  | case1 => cases h
  | case2 => simp only [Except.ok.injEq, Prod.mk.injEq] at h; simp [← h.2]
  | case3 => cases h
  | case4 => cases h
  | case5 r c r' he t r'' ht ih =>
      have h₁ := length_lt_of_readEscape he
      have h₂ := ih ht
      simp only [Except.ok.injEq, Prod.mk.injEq] at h
      simp only [← h.2, List.length_cons]
      omega
  | case6 => cases h
  | case7 => cases h
  | case8 c r _ _ _ t r' ht ih =>
      have h₂ := ih ht
      simp only [Except.ok.injEq, Prod.mk.injEq] at h
      simp only [← h.2, List.length_cons]
      omega

end ContentTypes.Json
