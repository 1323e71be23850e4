import ContentTypes.Json.Printer
import ContentTypes.Json.Reader
import ContentTypes.Proofs.Text.CodePoint
import Mathlib.Data.List.Chain

/-!
# Tokens read back

The values that are one token: `null`, the truth values, whole numbers and texts. Each of them, as it
is printed, is read as itself, whatever stands behind it. Only a number asks for more: what stands
behind it must not go on with it (`EndsNumber`).
-/

set_option autoImplicit false

namespace ContentTypes.Json

open Text (CodePoint)

/-! ## Numbers -/

/-- What stands here does not go on with a number in front of it. -/
def EndsNumber (s : List Char) : Prop :=
  ∀ c rest, s = c :: rest → c.isDigit = false ∧ c ≠ '.' ∧ c ≠ 'e' ∧ c ≠ 'E'

theorem endsNumber_nil : EndsNumber [] := by
  intro c rest h
  cases h

theorem endsNumber_cons {c : Char} {s : List Char} (h : c ∈ [',', '\n']) : EndsNumber (c :: s) := by
  intro c' rest heq
  cases heq
  simp only [List.mem_cons, List.not_mem_nil, or_false] at h
  rcases h with rfl | rfl <;> decide

/-- What stands here does not go on with digits in front of it. -/
def EndsDigits (s : List Char) : Prop := ∀ c rest, s = c :: rest → c.isDigit = false

theorem EndsNumber.endsDigits {s : List Char} (h : EndsNumber s) : EndsDigits s :=
  fun c rest heq => (h c rest heq).1

theorem endsDigits_cons {c : Char} (s : List Char) (h : c.isDigit = false) : EndsDigits (c :: s) := by
  rintro c' rest ⟨⟩
  exact h

/-- Digits in front of something else are cut off whole. -/
theorem spanDigits_append {digits rest : List Char} (h : ∀ c ∈ digits, c.isDigit = true)
    (hrest : EndsDigits rest) : spanDigits (digits ++ rest) = (digits, rest) := by
  have htake : rest.takeWhile Char.isDigit = [] ∧ rest.dropWhile Char.isDigit = rest := by
    cases rest with
    | nil => exact ⟨rfl, rfl⟩
    | cons c rest =>
        have hc := hrest c rest rfl
        simp [hc]
  rw [spanDigits, List.takeWhile_append_of_pos h, List.dropWhile_append_of_pos h, htake.1, htake.2,
    List.append_nil]

theorem readFraction?_of_endsNumber {s : List Char} (h : EndsNumber s) : readFraction? s = none := by
  unfold readFraction?
  split
  · rename_i rest
    exact absurd rfl (h '.' rest rfl).2.1
  · rfl

theorem readExponent?_of_endsNumber {s : List Char} (h : EndsNumber s) : readExponent? s = none := by
  cases s with
  | nil => rfl
  | cons c rest =>
      obtain ⟨-, -, he, hE⟩ := h c rest rfl
      simp [readExponent?, he, hE]

/-- The digits of a number stand for it. -/
theorem digitsValue_toDigits (n : Nat) : digitsValue (Nat.toDigits 10 n) = n := by
  have h := @Nat.ofDigitChars_ten_toDigits n
  rw [Nat.ofDigitChars_eq_foldl] at h
  exact h

/-- The digits of a number start with a zero only if they are one. -/
theorem toDigits_eq_zero_cons {n : Nat} {rest : List Char}
    (h : Nat.toDigits 10 n = '0' :: rest) : rest = [] := by
  induction n using Nat.strongRecOn generalizing rest with
  | ind n ih =>
      by_cases hn : n < 10
      · rw [Nat.toDigits_of_lt_base hn] at h
        exact (List.cons.inj h).2.symm
      · rw [Nat.toDigits_of_base_le (by omega) (by omega)] at h
        have hne : Nat.toDigits 10 (n / 10) ≠ [] := Nat.toDigits_ne_nil
        obtain ⟨c, front, hfront⟩ := List.exists_cons_of_ne_nil hne
        rw [hfront, List.cons_append] at h
        obtain rfl := (List.cons.inj h).1
        -- the front is a zero alone, so the number has one digit after all
        obtain rfl := ih (n / 10) (by omega) hfront
        have hzero := digitsValue_toDigits (n / 10)
        rw [hfront] at hzero
        have : n / 10 = 0 := hzero.symm
        omega

theorem isDigit_of_mem_toDigits {n : Nat} {c : Char} (h : c ∈ Nat.toDigits 10 n) :
    c.isDigit = true :=
  Nat.isDigit_of_mem_toDigits (by omega) (by omega) h

/-- Digits that start with a zero only if they are one are the whole part of a number. -/
theorem readWhole?_append {digits rest : List Char} (h : ∀ c ∈ digits, c.isDigit = true)
    (hne : digits ≠ []) (hzero : ∀ s, digits = '0' :: s → s = []) (hrest : EndsDigits rest) :
    readWhole? (digits ++ rest) = some (digits, rest) := by
  unfold readWhole?
  split
  · rename_i s hs
    obtain ⟨c, front, hfront⟩ := List.exists_cons_of_ne_nil hne
    rw [hfront, List.cons_append] at hs
    obtain ⟨rfl, hrest⟩ := List.cons.inj hs
    obtain rfl := hzero front hfront
    rw [hfront, ← hrest]
    rfl
  · rw [spanDigits_append h hrest]
    dsimp only
    rw [if_neg (by simp [hne])]

theorem readWhole?_toDigits (n : Nat) {rest : List Char} (h : EndsNumber rest) :
    readWhole? (Nat.toDigits 10 n ++ rest) = some (Nat.toDigits 10 n, rest) :=
  readWhole?_append (fun _ hc => isDigit_of_mem_toDigits hc) Nat.toDigits_ne_nil
    (fun _ hs => toDigits_eq_zero_cons hs) h.endsDigits

theorem readUnsigned?_toDigits (negative : Bool) (n : Nat) {rest : List Char} (h : EndsNumber rest) :
    readUnsigned? negative (Nat.toDigits 10 n ++ rest) =
      some (.int (if negative then -(n : Int) else n), rest) := by
  rw [readUnsigned?, readWhole?_toDigits n h]
  simp only [readOptional, readFraction?_of_endsNumber h, readExponent?_of_endsNumber h, numberOf,
    digitsValue_toDigits]

/-- A whole number as it is printed: its digits, behind a sign if it is negative. -/
theorem toList_toString_int (n : Int) :
    (toString n).toList =
      if 0 ≤ n then Nat.toDigits 10 n.toNat else '-' :: Nat.toDigits 10 (-n).toNat := by
  rw [Int.toString_eq_repr, Int.repr_eq_if]
  by_cases h : 0 ≤ n
  · rw [if_pos h, if_pos h, Nat.toList_repr]
  · rw [if_neg h, if_neg h, String.toList_append, Nat.toList_repr]
    rfl

theorem ne_of_isDigit {c w : Char} (h : c.isDigit = true) (hw : w.isDigit = false) : c ≠ w := by
  rintro rfl
  rw [h] at hw
  cases hw

theorem exists_cons_toDigits (n : Nat) :
    ∃ c s, Nat.toDigits 10 n = c :: s ∧ c.isDigit = true := by
  obtain ⟨c, s, hs⟩ := List.exists_cons_of_ne_nil (Nat.toDigits_ne_nil : Nat.toDigits 10 n ≠ [])
  exact ⟨c, s, hs, isDigit_of_mem_toDigits (by rw [hs]; exact List.mem_cons_self)⟩

/-- A printed number starts with a digit or a sign. -/
theorem exists_cons_toString_int (n : Int) :
    ∃ c s, (toString n).toList = c :: s ∧ (c.isDigit = true ∨ c = '-') := by
  rw [toList_toString_int]
  by_cases hn : 0 ≤ n
  · obtain ⟨c, s, hs, hc⟩ := exists_cons_toDigits n.toNat
    rw [if_pos hn]
    exact ⟨c, s, hs, .inl hc⟩
  · rw [if_neg hn]
    exact ⟨'-', _, rfl, .inr rfl⟩

/-- A digit begins none of the words, nor does a sign in front of one. -/
theorem readWord?_of_isDigit {c : Char} (s : List Char) (h : c.isDigit = true) :
    readWord? (c :: s) = none ∧ readWord? ('-' :: c :: s) = none := by
  have hne {w : Char} (hw : w.isDigit = false) : ¬w = c := (ne_of_isDigit h hw).symm
  simp [readWord?, words, dropWord?, hne]

theorem readNumber?_of_isDigit {c : Char} (s : List Char) (h : c.isDigit = true) :
    readNumber? (c :: s) = readUnsigned? false (c :: s) := by
  have hsign : c ≠ '-' := ne_of_isDigit h (by decide)
  unfold readNumber?
  split
  · rename_i heq
    exact absurd (List.cons.inj heq).1 hsign
  · rfl

/-- A whole number is read as it is printed. -/
theorem readAtom?_int (n : Int) {rest : List Char} (h : EndsNumber rest) :
    readAtom? ((toString n).toList ++ rest) = some (.int n, rest) := by
  rw [toList_toString_int]
  by_cases hn : 0 ≤ n
  · rw [if_pos hn]
    have hread := readUnsigned?_toDigits false n.toNat h
    obtain ⟨c, s, hs, hc⟩ := exists_cons_toDigits n.toNat
    rw [hs, List.cons_append] at hread ⊢
    rw [readAtom?, (readWord?_of_isDigit _ hc).1]
    show readNumber? (c :: (s ++ rest)) = _
    rw [readNumber?_of_isDigit _ hc, hread]
    simp [Int.toNat_of_nonneg hn]
  · rw [if_neg hn, List.cons_append]
    have hread := readUnsigned?_toDigits true (-n).toNat h
    obtain ⟨c, s, hs, hc⟩ := exists_cons_toDigits (-n).toNat
    have hvalue : -((-n).toNat : Int) = n := by omega
    rw [if_pos rfl, hvalue] at hread
    rw [hs, List.cons_append] at hread ⊢
    rw [readAtom?, (readWord?_of_isDigit _ hc).2]
    exact hread

/-! ## Texts -/

theorem hexValue?_hexDigit : ∀ d < 16, hexValue? (Text.hexDigit d) = some d := by decide

/-- Four digits are enough for a sixteen-bit unit. -/
theorem readHex?_hexDigits {n : Nat} (h : n < 0x10000) (rest : List Char) :
    readHex? (Text.hexDigits 4 n ++ rest) = some (n, rest) := by
  have hdigit : ∀ m, hexValue? (Text.hexDigit (m % 16)) = some (m % 16) :=
    fun m => hexValue?_hexDigit _ (by omega)
  have hvalue : ((n / 16 / 16 / 16 % 16 * 16 + n / 16 / 16 % 16) * 16 + n / 16 % 16) * 16 + n % 16
      = n := by omega
  simp only [Text.hexDigits, List.nil_append, List.cons_append, readHex?, hdigit, hvalue]

theorem length_hexDigits (width n : Nat) : (Text.hexDigits width n).length = width := by
  induction width generalizing n with
  | zero => rfl
  | succ width ih => rw [Text.hexDigits, List.length_append, ih, List.length_singleton]

/-- No character is half of a surrogate pair. -/
theorem not_surrogate (c : Char) :
    isHighSurrogate c.toNat = false ∧ isLowSurrogate c.toNat = false := by
  have hc : c.toNat < 0xD800 ∨ 0xDFFF < c.toNat ∧ c.toNat < 0x110000 := c.valid
  simp only [isHighSurrogate, isLowSurrogate, Bool.and_eq_false_iff, decide_eq_false_iff_not]
  omega

theorem unitPoint_toNat (c : Char) : unitPoint c.toNat = .char c := by
  have hc : c.toNat < 0xD800 ∨ 0xDFFF < c.toNat ∧ c.toNat < 0x110000 := c.valid
  rw [unitPoint, dif_neg (by omega), Char.ofNat_toNat]

theorem unitPoint_unit (i : Fin 0x800) : unitPoint (CodePoint.unit i) = .half i := by
  unfold unitPoint CodePoint.unit
  rw [dif_pos (by omega)]
  refine congrArg CodePoint.half (Fin.ext ?_)
  show 0xD800 + (i : Nat) - 0xD800 = i
  omega

theorem isHighSurrogate_unit (i : Fin 0x800) :
    isHighSurrogate (CodePoint.unit i) = (CodePoint.half i).isHigh := by
  rw [Bool.eq_iff_iff]
  simp only [isHighSurrogate, CodePoint.isHigh, Bool.and_eq_true, decide_eq_true_eq]
  unfold CodePoint.unit
  omega

theorem isLowSurrogate_unit (i : Fin 0x800) :
    isLowSurrogate (CodePoint.unit i) = (CodePoint.half i).isLow := by
  rw [Bool.eq_iff_iff]
  simp only [isLowSurrogate, CodePoint.isLow, Bool.and_eq_true, decide_eq_true_eq]
  unfold CodePoint.unit
  omega

theorem not_length_hexDigits_le {rest : List Char} (hrest : rest ≠ []) (n : Nat) :
    ¬(Text.hexDigits 4 n ++ rest).length ≤ 4 := by
  have := List.length_pos_iff.mpr hrest
  rw [List.length_append, length_hexDigits]
  omega

/-- The escape of a unit that begins no pair is read as the code point of the unit. -/
theorem readUnicodeEscape_unit {n : Nat} (hn : n < 0x10000) (hhigh : isHighSurrogate n = false)
    {rest : List Char} (hrest : rest ≠ []) :
    readUnicodeEscape (Text.hexDigits 4 n ++ rest) = .ok (unitPoint n, rest) := by
  rw [readUnicodeEscape, if_neg (not_length_hexDigits_le hrest n), readHex?_hexDigits hn]
  simp only [hhigh, Bool.false_eq_true, if_false]

/-- Where no second half of a pair stands behind it, a first half is read as itself. -/
theorem readUnicodeEscape_high {n : Nat} (hn : n < 0x10000) {rest : List Char} (hrest : rest ≠ [])
    (hnone : readLowSurrogate rest = .ok none) :
    readUnicodeEscape (Text.hexDigits 4 n ++ rest) = .ok (unitPoint n, rest) := by
  rw [readUnicodeEscape, if_neg (not_length_hexDigits_le hrest n), readHex?_hexDigits hn]
  simp only [hnone, ite_self]

/-- The escape of a unit that ends no pair does not complete one. -/
theorem readLowSurrogate_unitEscape {n : Nat} (hn : n < 0x10000) (hlow : isLowSurrogate n = false)
    {rest : List Char} (hrest : rest ≠ []) : readLowSurrogate (unitEscape n ++ rest) = .ok none := by
  rw [unitEscape, List.cons_append, List.cons_append, readLowSurrogate,
    if_neg (not_length_hexDigits_le hrest n), readHex?_hexDigits hn]
  simp only [hlow, Bool.false_eq_true, if_false]

/-- The two escapes of a character beyond the first plane are read as the character. -/
theorem readUnicodeEscape_pair {c : Char} (hc : 0x10000 ≤ c.toNat) {rest : List Char}
    (hrest : rest ≠ []) :
    readUnicodeEscape (Text.hexDigits 4 (0xD800 + (c.toNat - 0x10000) / 0x400) ++
      (unitEscape (0xDC00 + (c.toNat - 0x10000) % 0x400) ++ rest)) = .ok (.char c, rest) := by
  have hbound : c.toNat < 0x110000 := by
    have hv : c.toNat < 0xD800 ∨ 0xDFFF < c.toNat ∧ c.toNat < 0x110000 := c.valid
    omega
  obtain ⟨high, hhigh⟩ : ∃ high, high = 0xD800 + (c.toNat - 0x10000) / 0x400 := ⟨_, rfl⟩
  obtain ⟨low, hlow⟩ : ∃ low, low = 0xDC00 + (c.toNat - 0x10000) % 0x400 := ⟨_, rfl⟩
  rw [← hhigh, ← hlow]
  have hishigh : isHighSurrogate high = true := by
    simp only [isHighSurrogate, Bool.and_eq_true, decide_eq_true_eq]
    omega
  have hislow : isLowSurrogate low = true := by
    simp only [isLowSurrogate, Bool.and_eq_true, decide_eq_true_eq]
    omega
  have hpair : pairChar high low = c := by
    have hvalue : 0x10000 + (high - 0xD800) * 0x400 + (low - 0xDC00) = c.toNat := by omega
    rw [pairChar, hvalue, Char.ofNat_toNat]
  have hlen := not_length_hexDigits_le hrest low
  have hrest' : unitEscape low ++ rest ≠ [] := nofun
  have hlen' := not_length_hexDigits_le hrest' high
  rw [readUnicodeEscape, if_neg hlen', readHex?_hexDigits (by omega)]
  simp only [hishigh, if_true, unitEscape, List.cons_append, readLowSurrogate, if_neg hlen,
    readHex?_hexDigits (show low < 0x10000 by omega), hislow, hpair]

/-- An escape is read, and what stands behind it. -/
theorem readText_backslash {start s s' rest : List Char} {p : CodePoint} {text : List CodePoint}
    (hp : readEscape start s = .ok (p, s')) (h : readText start s' = .ok (text, rest)) :
    readText start ('\\' :: s) = .ok (p :: text, rest) := by
  rw [readText]
  split
  · rename_i heq
    rw [hp] at heq
    cases heq
  · rename_i heq
    rw [hp] at heq
    cases heq
    rw [h]

/-- What a character is printed as: a letter behind a backslash, itself, or one escape or two of four
digits. -/
theorem escapeChar_cases (c : Char) :
    (∃ d, d ≠ 'u' ∧ escapedChar? d = some c ∧ escapeChar c = ['\\', d]) ∨
    (c ≠ '"' ∧ c ≠ '\\' ∧ 0x20 ≤ c.toNat ∧ escapeChar c = [c]) ∨
    (c.toNat < 0x10000 ∧ escapeChar c = unitEscape c.toNat) ∨
    (0x10000 ≤ c.toNat ∧ escapeChar c = unitEscape (0xD800 + (c.toNat - 0x10000) / 0x400) ++
      unitEscape (0xDC00 + (c.toNat - 0x10000) % 0x400)) := by
  have hletter (d : Char) (hd : d ≠ 'u') (hc : escapedChar? d = some c) :
      ∃ d', d' ≠ 'u' ∧ escapedChar? d' = some c ∧ ['\\', d] = ['\\', d'] := ⟨d, hd, hc, rfl⟩
  unfold escapeChar
  split
  · exact .inl (hletter _ (by decide) (by simp [*, escapedChar?]))
  split
  · exact .inl (hletter _ (by decide) (by simp [*, escapedChar?]))
  split
  · exact .inl (hletter _ (by decide) (by simp [*, escapedChar?]))
  split
  · exact .inl (hletter _ (by decide) (by simp [*, escapedChar?]))
  split
  · exact .inl (hletter _ (by decide) (by simp [*, escapedChar?]))
  split
  · exact .inl (hletter _ (by decide) (by simp [*, escapedChar?]))
  split
  · exact .inl (hletter _ (by decide) (by simp [*, escapedChar?]))
  split
  · rename_i hquote hbackslash _ _ _ _ _ hplain
    exact .inr (.inl ⟨hquote, hbackslash, hplain.1, rfl⟩)
  split
  · exact .inr (.inr (.inl ⟨‹_›, rfl⟩))
  · exact .inr (.inr (.inr ⟨Nat.le_of_not_lt ‹_›, rfl⟩))

section Printed

variable {start s rest : List Char} {text : List CodePoint}

/-- An escape of four digits is read, and what stands behind it. -/
theorem readText_unicodeEscape {n : Nat} {s s' : List Char} {p : CodePoint}
    (hp : readUnicodeEscape (Text.hexDigits 4 n ++ s) = .ok (p, s'))
    (h : readText start s' = .ok (text, rest)) :
    readText start (unitEscape n ++ s) = .ok (p :: text, rest) := by
  have hescape (x : List Char) : readEscape start ('u' :: x) = readUnicodeEscape x := rfl
  rw [unitEscape, List.cons_append, List.cons_append]
  exact readText_backslash ((hescape _).trans hp) h

theorem ne_nil_of_readText (h : readText start s = .ok (text, rest)) : s ≠ [] := by
  rintro rfl
  simp [readText] at h

theorem readEscape_of_ne {d : Char} (hd : d ≠ 'u') (s : List Char) : readEscape start (d :: s) =
    match escapedChar? d with
    | some e => .ok (.char e, s)
    | none => .error ⟨.invalidEscape, '\\' :: d :: s⟩ := by
  unfold readEscape
  split
  · rename_i heq
    cases heq
  · rename_i heq
    exact absurd (List.cons.inj heq).1 hd
  · rename_i heq
    obtain ⟨rfl, rfl⟩ := List.cons.inj heq
    rfl

/-- Whatever a character is printed as is read as the character. -/
theorem readText_escapeChar (c : Char) (h : readText start s = .ok (text, rest)) :
    readText start (escapeChar c ++ s) = .ok (.char c :: text, rest) := by
  have hs := ne_nil_of_readText h
  rcases escapeChar_cases c with ⟨d, hd, hc, heq⟩ | ⟨hquote, hbackslash, hplain, heq⟩ | ⟨hc, heq⟩ | ⟨hc, heq⟩
  · rw [heq]
    refine readText_backslash ?_ h
    show readEscape start (d :: s) = _
    rw [readEscape_of_ne hd, hc]
  · -- a character that stands for itself
    rw [heq, List.singleton_append, readText]
    · rw [if_neg (by omega), h]
    · exact hquote
    · exact hbackslash
  · rw [heq, ← unitPoint_toNat c]
    exact readText_unicodeEscape (readUnicodeEscape_unit hc (not_surrogate c).1 hs) h
  · rw [heq, List.append_assoc]
    exact readText_unicodeEscape (readUnicodeEscape_pair hc hs) h

/-- What a half is printed as is read as the half, unless it would make a pair with what is behind it. -/
theorem readText_unitEscape (i : Fin 0x800) (h : readText start s = .ok (text, rest))
    (hnone : (CodePoint.half i).isHigh = true → readLowSurrogate s = .ok none) :
    readText start (unitEscape (CodePoint.unit i) ++ s) = .ok (.half i :: text, rest) := by
  have hs := ne_nil_of_readText h
  have hunit : CodePoint.unit i < 0x10000 := by
    unfold CodePoint.unit
    omega
  refine readText_unicodeEscape ?_ h
  rw [← unitPoint_unit i]
  cases hhigh : (CodePoint.half i).isHigh with
  | false => exact readUnicodeEscape_unit hunit ((isHighSurrogate_unit i).trans hhigh) hs
  | true => exact readUnicodeEscape_high hunit hs (hnone hhigh)

/-- What a code point is printed as does not complete a pair, unless it is the second half of one. -/
theorem readLowSurrogate_escapePoint {p : CodePoint} (hp : p.isLow = false) (hs : s ≠ []) :
    readLowSurrogate (escapePoint p ++ s) = .ok none := by
  cases p with
  | half i =>
      refine readLowSurrogate_unitEscape ?_ ((isLowSurrogate_unit i).trans hp) hs
      unfold CodePoint.unit
      omega
  | char c =>
      show readLowSurrogate (escapeChar c ++ s) = _
      rcases escapeChar_cases c with ⟨d, hd, -, heq⟩ | ⟨-, hbackslash, -, heq⟩ | ⟨hc, heq⟩ | ⟨hc, heq⟩
      · rw [heq]
        unfold readLowSurrogate
        split
        · rename_i h
          exact absurd (List.cons.inj (List.cons.inj h).2).1 hd
        · rfl
      · rw [heq]
        unfold readLowSurrogate
        split
        · rename_i h
          exact absurd (List.cons.inj h).1 hbackslash
        · rfl
      · rw [heq]
        exact readLowSurrogate_unitEscape hc (not_surrogate c).2 hs
      · -- the first half of a pair does not end one
        have hbound : c.toNat < 0xD800 ∨ 0xDFFF < c.toNat ∧ c.toNat < 0x110000 := c.valid
        rw [heq, List.append_assoc]
        refine readLowSurrogate_unitEscape (by omega) ?_ nofun
        simp only [isLowSurrogate, Bool.and_eq_false_iff, decide_eq_false_iff_not]
        omega

/-- A text is read as it is printed, if no two of its halves stand as those of a pair do. -/
theorem readText_printText (start : List Char)
    (h : text.IsChain fun p q => ¬(p.isHigh = true ∧ q.isLow = true)) (rest : List Char) :
    readText start (text.flatMap escapePoint ++ '"' :: rest) = .ok (text, rest) := by
  induction text with
  | nil => simp [readText]
  | cons p text ih =>
      have hread := ih h.tail
      rw [List.flatMap_cons, List.append_assoc]
      cases p with
      | char c => exact readText_escapeChar c hread
      | half i =>
          refine readText_unitEscape i hread fun hhigh => ?_
          -- what stands behind a first half is not the second one, and if it is the last the text ends
          cases text with
          | nil => rfl
          | cons q text =>
              have hlow : q.isLow = false := by
                have hq := (List.isChain_cons_cons.mp h).1
                simpa [hhigh] using hq
              rw [List.flatMap_cons, List.append_assoc]
              exact readLowSurrogate_escapePoint hlow (by simp)

end Printed

end ContentTypes.Json
