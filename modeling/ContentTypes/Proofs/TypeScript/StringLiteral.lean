import ContentTypes.Json.Reader
import ContentTypes.Proofs.TypeScript.Grammar
import ContentTypes.TypeScript.Expression
import Mathlib.Data.List.Basic

/-!
# What string literals denote

`readBody` reads a string literal behind its opening quote, with the escapes that TypeScript has, and gives
the units of UTF-16 that it denotes. `readUnion` reads a union of such literals, which `Denotes` at most one
list of texts (`Denotes.unique`).

Options are written between quotes as they stand, without escapes. A text that has neither a quote nor a
backslash nor a line break in it denotes itself between quotes. Any other text denotes something else, or is
no literal at all: what is read of it is shorter, or ends with the bar behind it (`readBody_cases`). So a
union of literals denotes its options exactly if they are all verbatim (`denotes_literalUnion_iff`), and texts
without quotes are told from each other in any case (`literalUnion_injective`).
-/

set_option autoImplicit false

namespace ContentTypes.TypeScript

open Json

/-! ## Units -/

/-- The units of a code point. -/
def pointUnits (n : Nat) : List Nat :=
  if n < 0x10000 then [n] else [0xD800 + (n - 0x10000) / 0x400, 0xDC00 + (n - 0x10000) % 0x400]

/-- The units of a text. -/
def units (s : List Char) : List Nat := s.flatMap fun c => pointUnits c.toNat

theorem units_cons (c : Char) (s : List Char) : units (c :: s) = pointUnits c.toNat ++ units s := rfl

theorem units_append (s s' : List Char) : units (s ++ s') = units s ++ units s' := List.flatMap_append

theorem length_pointUnits_pos (n : Nat) : 0 < (pointUnits n).length := by
  unfold pointUnits
  split <;> simp

theorem length_pointUnits_le (n : Nat) : (pointUnits n).length ≤ 2 := by
  unfold pointUnits
  split <;> simp

theorem length_le_length_units (s : List Char) : s.length ≤ (units s).length := by
  induction s with
  | nil => exact Nat.le_refl 0
  | cons c s ih =>
      have hpos := length_pointUnits_pos c.toNat
      rw [units_cons, List.length_append, List.length_cons]
      omega

/-- Whether the character ends a line. -/
def isLineEnd (c : Char) : Bool := c = '\n' || c = '\r' || c = '\u2028' || c = '\u2029'

/-- The units of a character behind a backslash: some letters have a meaning of their own. -/
def escapedUnits : Char → List Nat
  | 'b' => [0x08]
  | 't' => [0x09]
  | 'n' => [0x0A]
  | 'v' => [0x0B]
  | 'f' => [0x0C]
  | 'r' => [0x0D]
  | c => pointUnits c.toNat

/-- Reads the digits of a code point up to the closing brace, behind those with the value `n`. -/
def readPoint (n : Nat) : List Char → Option (Nat × List Char)
  | [] => none
  | c :: rest =>
      if c = '\x7d' then some (n, rest)
      else match hexValue? c with
        | none => none
        | some d => if n * 16 + d ≤ 0x10FFFF then readPoint (n * 16 + d) rest else none

/-- Reads a Unicode escape behind its letter: a code point between braces, or four digits of a unit. -/
def readUnicode : List Char → Option (List Nat × List Char)
  | '\x7b' :: c :: rest =>
      match hexValue? c with
      | none => none
      | some d => (readPoint d rest).map fun p => (pointUnits p.1, p.2)
  | s => (readHex? s).map fun p => ([p.1], p.2)

/-- Reads the two digits of a unit. -/
def readByte : List Char → Option (List Nat × List Char)
  | a :: b :: rest =>
      match hexValue? a, hexValue? b with
      | some a, some b => some ([a * 16 + b], rest)
      | _, _ => none
  | _ => none

/-- What follows a line break, which may be two characters. -/
def afterReturn : List Char → List Char
  | '\n' :: rest => rest
  | rest => rest

/-- Reads an escape behind its backslash. A line break is left out; digits are an error, but for a single
zero. -/
def readEscape : List Char → Option (List Nat × List Char)
  | [] => none
  | c :: rest =>
      if c = 'u' then readUnicode rest
      else if c = 'x' then readByte rest
      else if c = '0' then if rest.head?.any Char.isDigit then none else some ([0], rest)
      else if c.isDigit then none
      else if c = '\r' then some ([], afterReturn rest)
      else if isLineEnd c then some ([], rest)
      else some (escapedUnits c, rest)

/-- What is taken for an escape: its value is no longer than its text, and it goes beyond a quote only if the
quote is all of it. -/
structure Takes (s : List Char) (value : List Nat) (taken rest : List Char) : Prop where
  split : s = taken ++ rest
  ne_nil : taken ≠ []
  length_le : value.length ≤ (units taken).length
  quote : taken.length = 1 ∨ '\'' ∉ taken

theorem hexValue?_ne_quote {c : Char} {d : Nat} (h : hexValue? c = some d) : '\'' ≠ c := by
  rintro rfl
  cases h

theorem readPoint_split {n m : Nat} {s rest : List Char} (h : readPoint n s = some (m, rest)) :
    ∃ taken, s = taken ++ rest ∧ '\'' ∉ taken := by
  induction s generalizing n with
  | nil => cases h
  | cons c s ih =>
      rw [readPoint] at h
      split at h
      · rename_i hc
        cases h
        exact ⟨[c], rfl, by simp [hc]⟩
      · split at h
        · cases h
        · rename_i d hd
          split at h
          · obtain ⟨taken, rfl, htaken⟩ := ih h
            refine ⟨c :: taken, rfl, ?_⟩
            rw [List.mem_cons, not_or]
            exact ⟨hexValue?_ne_quote hd, htaken⟩
          · cases h

theorem readHex?_split {n : Nat} {s rest : List Char} (h : readHex? s = some (n, rest)) :
    ∃ taken, s = taken ++ rest ∧ taken.length = 4 ∧ '\'' ∉ taken := by
  unfold readHex? at h
  split at h
  · rename_i a b c d rest'
    split at h
    · rename_i ha hb hc hd
      cases h
      refine ⟨[a, b, c, d], rfl, rfl, ?_⟩
      simp [hexValue?_ne_quote ha, hexValue?_ne_quote hb, hexValue?_ne_quote hc, hexValue?_ne_quote hd]
    · cases h
  · cases h

theorem readUnicode_split {s rest : List Char} {value : List Nat}
    (h : readUnicode s = some (value, rest)) :
    ∃ taken, s = taken ++ rest ∧ '\'' ∉ taken ∧ value.length ≤ taken.length := by
  unfold readUnicode at h
  split at h
  · rename_i c s
    split at h
    · cases h
    · rename_i d hd
      obtain ⟨⟨m, rest'⟩, hpoint, heq⟩ := Option.map_eq_some_iff.mp h
      cases heq
      obtain ⟨taken, rfl, htaken⟩ := readPoint_split hpoint
      have hlength := length_pointUnits_le m
      refine ⟨'\x7b' :: c :: taken, rfl, ?_, ?_⟩
      · simp only [List.mem_cons, not_or]
        exact ⟨by decide, hexValue?_ne_quote hd, htaken⟩
      · simp only [List.length_cons]
        omega
  · obtain ⟨⟨n, rest'⟩, hhex, heq⟩ := Option.map_eq_some_iff.mp h
    cases heq
    obtain ⟨taken, hs, hlength, htaken⟩ := readHex?_split hhex
    exact ⟨taken, hs, htaken, by simp [hlength]⟩

theorem readByte_split {s rest : List Char} {value : List Nat} (h : readByte s = some (value, rest)) :
    ∃ taken, s = taken ++ rest ∧ '\'' ∉ taken ∧ value.length ≤ taken.length := by
  unfold readByte at h
  split at h
  · rename_i a b rest'
    split at h
    · rename_i ha hb
      cases h
      exact ⟨[a, b], rfl, by simp [hexValue?_ne_quote ha, hexValue?_ne_quote hb], by simp⟩
    · cases h
  · cases h

theorem length_escapedUnits_le (c : Char) : (escapedUnits c).length ≤ (units [c]).length := by
  unfold escapedUnits
  split
  case h_7 => exact Nat.le_of_eq (congrArg List.length (List.append_nil _).symm)
  all_goals exact length_le_length_units [_]

/-- What an escape takes and gives. -/
theorem exists_takes {s rest : List Char} {value : List Nat} (h : readEscape s = some (value, rest)) :
    ∃ taken, Takes s value taken rest := by
  cases s with
  | nil => cases h
  | cons c s =>
      -- a letter with digits behind it, or one character alone
      have hdigits (hc : '\'' ≠ c) (h : ∃ taken, s = taken ++ rest ∧ '\'' ∉ taken ∧
          value.length ≤ taken.length) : ∃ taken, Takes (c :: s) value taken rest := by
        obtain ⟨taken, rfl, hquote, hlength⟩ := h
        have hunits := length_le_length_units (c :: taken)
        refine ⟨c :: taken, rfl, List.cons_ne_nil c taken, ?_, .inr ?_⟩
        · rw [List.length_cons] at hunits
          omega
        · rw [List.mem_cons, not_or]
          exact ⟨hc, hquote⟩
      have halone {value' : List Nat} (hlength : value'.length ≤ (units [c]).length)
          (heq : some (value', s) = some (value, rest)) : ∃ taken, Takes (c :: s) value taken rest := by
        cases heq
        exact ⟨[c], rfl, List.cons_ne_nil c [], hlength, .inl rfl⟩
      rw [readEscape] at h
      split at h
      · rename_i hc
        exact hdigits (by rw [hc]; decide) (readUnicode_split h)
      split at h
      · rename_i hc
        exact hdigits (by rw [hc]; decide) (readByte_split h)
      split at h
      · rename_i hc
        split at h
        · cases h
        · exact halone (length_le_length_units [c]) h
      split at h
      · cases h
      split at h
      · rename_i hc
        cases h
        cases s with
        | nil => exact ⟨[c], rfl, List.cons_ne_nil c [], Nat.zero_le _, .inl rfl⟩
        | cons d s =>
            by_cases hd : d = '\n'
            · subst hd
              refine ⟨[c, '\n'], rfl, List.cons_ne_nil _ _, Nat.zero_le _, .inr ?_⟩
              rw [hc]
              decide
            · refine ⟨[c], ?_, List.cons_ne_nil c [], Nat.zero_le _, .inl rfl⟩
              rw [afterReturn]
              · rfl
              · rintro rest' heq
                exact hd (List.cons.inj heq).1
      split at h
      · exact halone (Nat.zero_le _) h
      · exact halone (length_escapedUnits_le c) h

theorem length_lt_of_readEscape {s rest : List Char} {value : List Nat}
    (h : readEscape s = some (value, rest)) : rest.length < s.length := by
  obtain ⟨taken, htakes⟩ := exists_takes h
  have hne := List.length_pos_of_ne_nil htakes.ne_nil
  rw [htakes.split, List.length_append]
  omega

/-- An escape in a text before a quote stays in that text, unless it is the quote that is escaped. -/
theorem Takes.within {o s rest taken : List Char} {value : List Nat}
    (h : Takes (o ++ '\'' :: s) value taken rest) (ho : o ≠ []) :
    ∃ o', o = taken ++ o' ∧ rest = o' ++ '\'' :: s := by
  rcases List.append_eq_append_iff.mp h.split with ⟨more, htaken, hs⟩ | ⟨o', ho', hrest⟩
  · cases more with
    | nil => exact ⟨[], by simpa using htaken.symm, by simpa using hs.symm⟩
    | cons c more =>
        obtain ⟨rfl, -⟩ := List.cons.inj hs
        have hlength := List.length_pos_of_ne_nil ho
        rcases h.quote with hone | hquote
        · rw [htaken, List.length_append, List.length_cons] at hone
          omega
        · exact absurd (htaken ▸ List.mem_append_right o List.mem_cons_self) hquote
  · exact ⟨o', ho', hrest⟩

/-! ## Literals -/

/-- Reads a literal from behind its opening quote. -/
def readBody : List Char → Option (List Nat × List Char)
  | [] => none
  | c :: s =>
      if c = '\'' then some ([], s)
      else if c = '\\' then
        match _ : readEscape s with
        | none => none
        | some (value, rest) => (readBody rest).map fun p => (value ++ p.1, p.2)
      else if c = '\n' || c = '\r' then none
      else (readBody s).map fun p => (pointUnits c.toNat ++ p.1, p.2)
  termination_by s => s.length
  decreasing_by
  · rename_i h
    exact Nat.lt_succ_of_lt (length_lt_of_readEscape h)
  · exact Nat.lt_succ_self s.length

/-- Whether the character stands for itself between quotes. -/
def isVerbatim (c : Char) : Bool := c ≠ '\'' && c ≠ '\\' && c ≠ '\n' && c ≠ '\r'

theorem readBody_quote (s : List Char) : readBody ('\'' :: s) = some ([], s) := by
  rw [readBody, if_pos rfl]

theorem readBody_escape {s rest : List Char} {value : List Nat} (h : readEscape s = some (value, rest)) :
    readBody ('\\' :: s) = (readBody rest).map fun p => (value ++ p.1, p.2) := by
  rw [readBody, if_neg (by decide), if_pos rfl]
  split
  · rename_i hnone
    cases hnone.symm.trans h
  · rename_i hsome
    cases hsome.symm.trans h
    rfl

example : readBody "it\\'s \\x41\\u0042' | 'C'".toList = some (units "it's AB".toList, " | 'C'".toList) := by cbv

theorem readBody_escape_none {s : List Char} (h : readEscape s = none) : readBody ('\\' :: s) = none := by
  rw [readBody, if_neg (by decide), if_pos rfl]
  split
  · rfl
  · rename_i hsome
    cases hsome.symm.trans h

theorem readBody_cons {c : Char} (s : List Char) (h : isVerbatim c = true) :
    readBody (c :: s) = (readBody s).map fun p => (pointUnits c.toNat ++ p.1, p.2) := by
  simp only [isVerbatim, Bool.and_eq_true, decide_eq_true_eq] at h
  rw [readBody, if_neg h.1.1.1, if_neg h.1.1.2, if_neg (by simp [h.1.2, h.2])]

/-- A character that does not stand for itself closes the literal, begins an escape or is an error. -/
theorem readBody_not_verbatim {c : Char} (s : List Char) (h : isVerbatim c = false) :
    c = '\'' ∨ c = '\\' ∨ readBody (c :: s) = none := by
  by_cases hquote : c = '\''
  · exact .inl hquote
  by_cases hbackslash : c = '\\'
  · exact .inr (.inl hbackslash)
  · refine .inr (.inr ?_)
    rw [readBody, if_neg hquote, if_neg hbackslash, if_pos]
    by_contra hline
    rw [Bool.or_eq_true, not_or, decide_eq_true_eq, decide_eq_true_eq] at hline
    simp [isVerbatim, hquote, hbackslash, hline] at h

theorem readBody_verbatim {o : List Char} (rest : List Char) (h : o.all isVerbatim = true) :
    readBody (o ++ '\'' :: rest) = some (units o, rest) := by
  induction o with
  | nil => exact readBody_quote rest
  | cons c o ih =>
      rw [List.all_cons, Bool.and_eq_true] at h
      rw [List.cons_append, readBody_cons _ h.1, ih h.2]
      rfl

/-- What stands behind a literal in a union: nothing, or the bar and the next literal. -/
def IsTail (rest : List Char) : Prop := rest = [] ∨ ∃ more, rest = ' ' :: '|' :: ' ' :: '\'' :: more

/-- How a text between quotes is read: as itself, or as something shorter, or beyond its closing quote and
up to the blank before the next one. -/
inductive Reading (o rest : List Char) (value : List Nat) (behind : List Char) : Prop where
  | verbatim : o.all isVerbatim = true → value = units o → behind = rest → Reading o rest value behind
  | shorter : value.length < (units o).length → Reading o rest value behind
  | beyond : o.getLast? = some '\\' → value.getLast? = some 0x20 → Reading o rest value behind

theorem getLast?_append_of_eq_some {α : Type} {a b : List α} {x : α} (h : b.getLast? = some x) :
    (a ++ b).getLast? = some x := by
  rw [List.getLast?_append, h]
  rfl

/-- What an escape before a text makes of its reading. -/
theorem Reading.behind_escape {taken o rest behind : List Char} {value value' : List Nat}
    (h : Reading o rest value' behind) (hlength : value.length ≤ (units taken).length) :
    Reading ('\\' :: (taken ++ o)) rest (value ++ value') behind := by
  have hunits : (units ('\\' :: (taken ++ o))).length = 1 + ((units taken).length + (units o).length) := by
    rw [units_cons, units_append, List.length_append, List.length_append]
    rfl
  cases h with
  | verbatim hverbatim hvalue hbehind =>
      refine .shorter ?_
      rw [hunits, List.length_append, hvalue]
      omega
  | shorter hshorter =>
      refine .shorter ?_
      rw [hunits, List.length_append]
      omega
  | beyond hlast hblank =>
      exact .beyond (getLast?_append_of_eq_some (a := '\\' :: taken) hlast)
        (getLast?_append_of_eq_some hblank)

/-- What a character that stands for itself makes of the reading of the text behind it. -/
theorem Reading.behind_verbatim {c : Char} {o rest behind : List Char} {value : List Nat}
    (h : Reading o rest value behind) (hc : isVerbatim c = true) :
    Reading (c :: o) rest (pointUnits c.toNat ++ value) behind := by
  cases h with
  | verbatim hverbatim hvalue hbehind =>
      refine .verbatim ?_ (by rw [hvalue, units_cons]) hbehind
      rw [List.all_cons, hc, hverbatim]
      rfl
  | shorter hshorter =>
      refine .shorter ?_
      rw [units_cons, List.length_append, List.length_append]
      omega
  | beyond hlast hblank =>
      exact .beyond (getLast?_append_of_eq_some (a := [c]) hlast) (getLast?_append_of_eq_some hblank)

/-- A backslash right before the closing quote of a literal makes the quote a part of it: the literal goes on
up to the next quote. -/
theorem reading_lone_backslash {rest behind : List Char} {value : List Nat} (hrest : IsTail rest)
    (h : readBody ('\\' :: '\'' :: rest) = some (value, behind)) : Reading ['\\'] rest value behind := by
  have hescape : readEscape ('\'' :: rest) = some ([0x27], rest) := rfl
  rw [readBody_escape hescape] at h
  obtain rfl | ⟨more, rfl⟩ := hrest
  · rw [readBody] at h
    cases h
  · have hnext : readBody (' ' :: '|' :: ' ' :: '\'' :: more) = some ([0x20, 0x7C, 0x20], more) :=
      readBody_verbatim (o := [' ', '|', ' ']) more (by decide)
    rw [hnext] at h
    cases h
    exact .beyond rfl rfl

/-- **How a text between quotes is read**, as a literal of a union. -/
theorem readBody_cases (o : List Char) {rest behind : List Char} {value : List Nat} (hrest : IsTail rest)
    (h : readBody (o ++ '\'' :: rest) = some (value, behind)) : Reading o rest value behind := by
  induction hn : o.length using Nat.strongRecOn generalizing o value with
  | _ n ih =>
      cases o with
      | nil =>
          rw [List.nil_append, readBody_quote] at h
          cases h
          exact .verbatim rfl rfl rfl
      | cons c o =>
          rw [List.length_cons] at hn
          rw [List.cons_append] at h
          by_cases hc : isVerbatim c = true
          · rw [readBody_cons _ hc] at h
            obtain ⟨⟨value', behind'⟩, hread, heq⟩ := Option.map_eq_some_iff.mp h
            cases heq
            exact (ih o.length (by omega) o hread rfl).behind_verbatim hc
          · rcases readBody_not_verbatim (o ++ '\'' :: rest) (Bool.eq_false_iff.mpr hc) with
              rfl | rfl | hnone
            · rw [readBody_quote] at h
              cases h
              refine .shorter ?_
              rw [units_cons, List.length_append]
              exact Nat.add_pos_left (length_pointUnits_pos _) _
            · by_cases ho : o = []
              · subst ho
                exact reading_lone_backslash hrest h
              · cases hescape : readEscape (o ++ '\'' :: rest) with
                | none =>
                    rw [readBody_escape_none hescape] at h
                    cases h
                | some p =>
                    obtain ⟨value₁, rest₁⟩ := p
                    obtain ⟨taken, htakes⟩ := exists_takes hescape
                    obtain ⟨o', rfl, rfl⟩ := htakes.within ho
                    have hshorter := List.length_pos_of_ne_nil htakes.ne_nil
                    rw [List.length_append] at hn
                    rw [readBody_escape hescape] at h
                    obtain ⟨⟨value', behind'⟩, hread, heq⟩ := Option.map_eq_some_iff.mp h
                    cases heq
                    exact (ih o'.length (by omega) o' hread rfl).behind_escape htakes.length_le
            · rw [hnone] at h
              cases h

/-- A text that denotes itself between quotes has only characters that stand for themselves. -/
theorem Reading.verbatim_of_eq {o rest behind : List Char} {value : List Nat}
    (h : Reading o rest value behind) (heq : value = units o) : o.all isVerbatim = true ∧ behind = rest := by
  cases h with
  | verbatim hverbatim hvalue hbehind => exact ⟨hverbatim, hbehind⟩
  | shorter hshorter =>
      rw [heq] at hshorter
      exact absurd hshorter (Nat.lt_irrefl _)
  | beyond hlast hblank =>
      obtain ⟨o', rfl⟩ := List.getLast?_eq_some_iff.mp hlast
      rw [heq, units_append, getLast?_append_of_eq_some (x := 0x5C) rfl] at hblank
      cases hblank

/-! ## Unions -/

theorem length_lt_of_readBody {s rest : List Char} {value : List Nat}
    (h : readBody s = some (value, rest)) : rest.length < s.length := by
  induction s using readBody.induct generalizing value with
  | case1 =>
      rw [readBody] at h
      cases h
  | case2 s =>
      rw [readBody_quote] at h
      cases h
      exact Nat.lt_succ_self _
  | case3 s hnone _ =>
      rw [readBody_escape_none hnone] at h
      cases h
  | case4 s value' rest' hescape _ ih =>
      rw [readBody_escape hescape] at h
      obtain ⟨⟨value₂, rest₂⟩, hread, heq⟩ := Option.map_eq_some_iff.mp h
      cases heq
      exact Nat.lt_trans (ih hread) (Nat.lt_succ_of_lt (length_lt_of_readEscape hescape))
  | case5 c s hquote hbackslash hline =>
      rw [readBody, if_neg hquote, if_neg hbackslash, if_pos hline] at h
      cases h
  | case6 c s hquote hbackslash hline ih =>
      rw [readBody, if_neg hquote, if_neg hbackslash, if_neg hline] at h
      obtain ⟨⟨value₂, rest₂⟩, hread, heq⟩ := Option.map_eq_some_iff.mp h
      cases heq
      exact Nat.lt_succ_of_lt (ih hread)

/-- Reads a literal, with blanks before it. -/
def readQuoted (s : List Char) : Option (List Nat × List Char) :=
  match Json.skipBlanks s with
  | '\'' :: body => readBody body
  | _ => none

theorem length_lt_of_readQuoted {s rest : List Char} {value : List Nat}
    (h : readQuoted s = some (value, rest)) : rest.length < s.length := by
  unfold readQuoted at h
  split at h
  · rename_i hbody
    exact Nat.lt_trans (length_lt_of_readBody h) (length_lt_of_skipBlanks hbody)
  · cases h

/-- Reads a union of literals, with blanks around them. -/
def readUnion (s : List Char) : Option (List (List Nat)) :=
  match _ : readQuoted s with
  | none => none
  | some (value, rest) =>
      match _ : Json.skipBlanks rest with
      | [] => some [value]
      | c :: more => if c = '|' then (readUnion more).map (value :: ·) else none
  termination_by s.length
  decreasing_by
  · rename_i hquoted hrest _
    exact Nat.lt_trans (length_lt_of_skipBlanks hrest) (length_lt_of_readQuoted hquoted)

theorem readUnion_last {s rest : List Char} {value : List Nat} (h : readQuoted s = some (value, rest))
    (hrest : Json.skipBlanks rest = []) : readUnion s = some [value] := by
  rw [readUnion]
  split
  · rename_i hnone
    cases hnone.symm.trans h
  · rename_i hsome
    cases hsome.symm.trans h
    split
    · rfl
    · rename_i hcons
      cases hcons.symm.trans hrest

theorem readUnion_bar {s rest more : List Char} {value : List Nat} (h : readQuoted s = some (value, rest))
    (hrest : Json.skipBlanks rest = '|' :: more) : readUnion s = (readUnion more).map (value :: ·) := by
  rw [readUnion]
  split
  · rename_i hnone
    cases hnone.symm.trans h
  · rename_i hsome
    cases hsome.symm.trans h
    split
    · rename_i hnil
      cases hnil.symm.trans hrest
    · rename_i hcons
      cases hcons.symm.trans hrest
      rfl

theorem exists_readQuoted_of_readUnion {s : List Char} {value : List Nat} {values : List (List Nat)}
    (h : readUnion s = some (value :: values)) : ∃ rest, readQuoted s = some (value, rest) := by
  rw [readUnion] at h
  split at h
  · cases h
  · rename_i value' rest hquoted
    split at h
    · cases h
      exact ⟨rest, hquoted⟩
    · split at h
      · obtain ⟨values', hread, heq⟩ := Option.map_eq_some_iff.mp h
        cases heq
        exact ⟨rest, hquoted⟩
      · cases h

theorem readQuoted_of_skipBlanks {s body : List Char} (h : Json.skipBlanks s = '\'' :: body) :
    readQuoted s = readBody body := by
  rw [readQuoted, h]
  rfl

/-- Whether a text is a union of literals that denote these texts, in order. -/
def Denotes (s : List Char) (texts : List String) : Prop :=
  readUnion s = some (texts.map fun text => units text.toList)

/-- The text of the literals of a union that stand behind another one. -/
def unionTail : List (List Char) → List Char
  | [] => []
  | o :: rest => ' ' :: '|' :: ' ' :: '\'' :: (o ++ '\'' :: unionTail rest)

theorem isTail_unionTail (options : List (List Char)) : IsTail (unionTail options) := by
  cases options with
  | nil => exact .inl rfl
  | cons o rest => exact .inr ⟨_, rfl⟩

/-- A union is read as its options if each of them has only characters that stand for themselves, and then
only. -/
theorem readUnion_eq_units_iff {s o : List Char} {options : List (List Char)}
    (hs : Json.skipBlanks s = '\'' :: (o ++ '\'' :: unionTail options)) :
    readUnion s = some (units o :: options.map units) ↔ ∀ o' ∈ o :: options, o'.all isVerbatim = true := by
  have hquoted := readQuoted_of_skipBlanks hs
  -- whatever is behind the first literal, it denotes its option only if that is verbatim
  have hfirst (h : readUnion s = some (units o :: options.map units)) : o.all isVerbatim = true := by
    obtain ⟨rest, hread⟩ := exists_readQuoted_of_readUnion h
    exact ((readBody_cases o (isTail_unionTail options) (hquoted.symm.trans hread)).verbatim_of_eq rfl).1
  rw [List.forall_mem_cons]
  cases hoption : o.all isVerbatim with
  | false => exact ⟨fun h => absurd (hfirst h) (by rw [hoption]; decide), fun h => absurd h.1 (by decide)⟩
  | true =>
      have hread := hquoted.trans (readBody_verbatim (unionTail options) hoption)
      cases options with
      | nil => exact ⟨fun _ => ⟨rfl, List.forall_mem_nil _⟩, fun _ => readUnion_last hread rfl⟩
      | cons o' options =>
          have hmore : Json.skipBlanks (' ' :: '\'' :: (o' ++ '\'' :: unionTail options)) =
              '\'' :: (o' ++ '\'' :: unionTail options) := rfl
          rw [readUnion_bar hread rfl, List.map_cons, ← readUnion_eq_units_iff hmore]
          refine ⟨fun h => ⟨rfl, ?_⟩, fun h => by rw [h.2]; rfl⟩
          obtain ⟨values, hvalues, heq⟩ := Option.map_eq_some_iff.mp h
          cases heq
          exact hvalues
  termination_by options.length

/-- A union of texts as literals. -/
theorem toList_literalUnion (o : String) (options : List String) :
    (literalUnion ((o :: options).map Value.str)).toList =
      '\'' :: (o.toList ++ '\'' :: unionTail (options.map String.toList)) := by
  have hliteral (o : String) : (literal (.str o)).toList = '\'' :: (o.toList ++ ['\'']) := by
    rw [literal, String.toList_append, String.toList_append, List.append_assoc]
    rfl
  unfold literalUnion
  induction options generalizing o with
  | nil =>
      rw [List.map_singleton, List.map_singleton, String.intercalate_singleton]
      exact hliteral o
  | cons o' options ih =>
      have hrest := ih o'
      simp only [List.map_cons] at hrest ⊢
      rw [String.intercalate_cons_cons, String.toList_append, String.toList_append, hrest, hliteral]
      simp [unionTail, unionBar]

/-- **A union of literals denotes its options** if each has only characters that stand for themselves, and
then only. -/
theorem denotes_literalUnion_iff {options : List String} (hne : options ≠ []) :
    Denotes (literalUnion (options.map Value.str)).toList options ↔
      ∀ o ∈ options, o.toList.all isVerbatim = true := by
  cases options with
  | nil => exact absurd rfl hne
  | cons o options =>
      have hskip : Json.skipBlanks (literalUnion ((o :: options).map Value.str)).toList =
          '\'' :: (o.toList ++ '\'' :: unionTail (options.map String.toList)) := by
        rw [toList_literalUnion]
        rfl
      have hread := readUnion_eq_units_iff hskip
      rw [List.map_map, ← List.map_cons (f := String.toList), List.forall_mem_map] at hread
      exact hread

/-! ## Texts without quotes -/

theorem append_quote_inj {o o' s s' : List Char} (h : '\'' ∉ o) (h' : '\'' ∉ o')
    (heq : o ++ '\'' :: s = o' ++ '\'' :: s') : o = o' ∧ s = s' := by
  induction o generalizing o' with
  | nil =>
      cases o' with
      | nil => exact ⟨rfl, (List.cons.inj heq).2⟩
      | cons c o' =>
          obtain ⟨rfl, -⟩ := List.cons.inj heq
          exact absurd List.mem_cons_self h'
  | cons c o ih =>
      cases o' with
      | nil =>
          obtain ⟨rfl, -⟩ := List.cons.inj heq
          exact absurd List.mem_cons_self h
      | cons c' o' =>
          obtain ⟨rfl, hrest⟩ := List.cons.inj heq
          rw [List.mem_cons, not_or] at h h'
          obtain ⟨rfl, rfl⟩ := ih h.2 h'.2 hrest
          exact ⟨rfl, rfl⟩

theorem unionTail_injective {options options' : List (List Char)} (h : ∀ o ∈ options, '\'' ∉ o)
    (h' : ∀ o ∈ options', '\'' ∉ o) (heq : unionTail options = unionTail options') : options = options' := by
  induction options generalizing options' with
  | nil =>
      cases options' with
      | nil => rfl
      | cons => cases heq
  | cons o options ih =>
      cases options' with
      | nil => cases heq
      | cons o' options' =>
          rw [List.forall_mem_cons] at h h'
          have hbody : o ++ '\'' :: unionTail options = o' ++ '\'' :: unionTail options' := by
            injection heq with _ heq
            injection heq with _ heq
            injection heq with _ heq
            injection heq
          obtain ⟨rfl, hrest⟩ := append_quote_inj h.1 h'.1 hbody
          rw [ih h.2 h'.2 hrest]

/-- **Texts without quotes are told from each other** by their union of literals. -/
theorem literalUnion_injective {options options' : List String} (h : ∀ o ∈ options, '\'' ∉ o.toList)
    (h' : ∀ o ∈ options', '\'' ∉ o.toList)
    (heq : literalUnion (options.map Value.str) = literalUnion (options'.map Value.str)) :
    options = options' := by
  have hlist := congrArg String.toList heq
  cases options with
  | nil =>
      cases options' with
      | nil => rfl
      | cons o' options' =>
          rw [toList_literalUnion] at hlist
          cases hlist
  | cons o options =>
      cases options' with
      | nil =>
          rw [toList_literalUnion] at hlist
          cases hlist
      | cons o' options' =>
          rw [toList_literalUnion, toList_literalUnion] at hlist
          -- a union of options is what stands behind one more literal
          have htail : unionTail ((o :: options).map String.toList) =
              unionTail ((o' :: options').map String.toList) :=
            congrArg ([' ', '|', ' '] ++ ·) hlist
          have hmap := unionTail_injective (List.forall_mem_map.mpr h) (List.forall_mem_map.mpr h') htail
          exact List.map_injective_iff.mpr (fun _ _ => String.toList_injective) hmap

/-! ## Enumerations -/

/-- **What an enumeration denotes**: exactly its options if each of them has only characters that stand for
themselves, and something else otherwise. Different options without quotes have different types, for fields
and for list items. -/
theorem literalUnion_denotes :
    (∀ options : List String, options ≠ [] →
      (Denotes (literalUnion (options.map Value.str)).toList options ↔
        ∀ o ∈ options, o.toList.all isVerbatim = true)) ∧
    ∀ options options' : List String, (∀ o ∈ options, '\'' ∉ o.toList) → (∀ o ∈ options', '\'' ∉ o.toList) →
      options ≠ options' →
        fieldExpression (.enumeration (options.map Value.str)) ≠
            fieldExpression (.enumeration (options'.map Value.str)) ∧
          itemExpression (.enumeration (options.map Value.str)) ≠
            itemExpression (.enumeration (options'.map Value.str)) := by
  refine ⟨fun options hne => denotes_literalUnion_iff hne, fun options options' h h' hne => ?_⟩
  refine ⟨fun heq => hne (literalUnion_injective h h' ?_), fun heq => hne (literalUnion_injective h h' ?_)⟩
  · rw [fieldExpression, fieldExpression] at heq
    injection heq with heq
    injection heq
  · rw [itemExpression, itemExpression] at heq
    injection heq with heq
    injection heq with heq
    exact (String.append_right_inj _).mp ((String.append_left_inj _).mp heq)

/-- Two words are read back, a word with a break in it is not, and the three differ from one another. -/
theorem literalUnion_denotes_words :
    Denotes (literalUnion (["left", "right"].map Value.str)).toList ["left", "right"] ∧
      ¬Denotes (literalUnion (["left\nright"].map Value.str)).toList ["left\nright"] ∧
      fieldExpression (.enumeration (["left", "right"].map Value.str)) ≠
        fieldExpression (.enumeration (["left\nright"].map Value.str)) ∧
      itemExpression (.enumeration (["left", "right"].map Value.str)) ≠
        itemExpression (.enumeration (["left\nright"].map Value.str)) := by
  have happlied := literalUnion_denotes
  refine ⟨(happlied.1 _ (by decide)).mpr (by decide), fun h => ?_, ?_⟩
  · exact absurd ((happlied.1 _ (by decide)).mp h) (by decide)
  · exact happlied.2 _ _ (by decide) (by decide) (by decide)

/-- A quote ends a literal: what stands behind it is lost, or taken for other options. -/
theorem literalUnion_quote :
    ¬Denotes (literalUnion [.str "it's"]).toList ["it's"] ∧
      fieldExpression (.enumeration [.str "a' | 'b"]) =
        fieldExpression (.enumeration [.str "a", .str "b"]) := by
  have hne : ["it's"] ≠ [] := by decide
  exact ⟨(denotes_literalUnion_iff hne).not.mpr (by decide), rfl⟩

end ContentTypes.TypeScript
