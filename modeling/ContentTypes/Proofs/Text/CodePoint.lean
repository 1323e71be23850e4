import ContentTypes.Text.CodePoint
import Mathlib.Data.List.Basic
import Mathlib.Data.String.Basic

/-!
# Texts and their code points

A text of code points has these code points (`points_ofPoints`), and texts are in the order of their code
points (`ofPoints_lt_iff`). Code points are cut apart from left to right, so that a character with no part in
a half parts a text (`pointsOf_append_cons`). A text has bytes exactly if all its code points are characters
(`encodeFault?_eq_none_iff`), and a text without the mark is one of its characters (`points_of_notMem`).

Printed in JSON a text can be told from every other one that is `WellCoded`: it is the text of its code points,
and no two of these stand as the halves of a pair do.
-/

set_option autoImplicit false

namespace ContentTypes.Text

variable {c : Char} {s t : List Char} {p q : CodePoint} {ps qs : List CodePoint} {text : String}

/-! ## Reading code points -/

theorem toNat_halfChar (i : Fin 0x800) : (halfChar i).toNat = 0xD000 + i := by
  have hvalid : (0xD000 + (i : Nat)).isValidChar := .inl (by omega)
  rw [halfChar, Char.ofNat, dif_pos hvalid]
  exact UInt32.toNat_ofNatLT ..

theorem half?_halfChar (i : Fin 0x800) : half? (halfChar i) = some i := by
  have hvalue := toNat_halfChar i
  have hrange : 0xD000 ≤ (halfChar i).toNat ∧ (halfChar i).toNat < 0xD800 := by omega
  rw [half?, dif_pos hrange]
  refine congrArg some (Fin.ext ?_)
  show (halfChar i).toNat - 0xD000 = i
  omega

theorem halfChar_ne_mark (i : Fin 0x800) : halfChar i ≠ mark := by
  intro h
  have hvalue := toNat_halfChar i
  rw [h, show mark.toNat = 0xE000 from rfl] at hvalue
  omega

theorem pointsOf_cons_of_ne (h : c ≠ mark) (s : List Char) :
    pointsOf (c :: s) = .char c :: pointsOf s := by
  cases s with
  | nil => rfl
  | cons d s => rw [pointsOf, if_neg h]

/-- The characters that stand for a code point are read as this code point, whatever is behind them. -/
theorem pointsOf_chars_append (p : CodePoint) (s : List Char) :
    pointsOf (p.chars ++ s) = p :: pointsOf s := by
  cases p with
  | char c =>
      by_cases h : c = mark
      · subst h
        rw [CodePoint.chars, if_pos rfl]
        simp [pointsOf]
      · rw [CodePoint.chars, if_neg h]
        exact pointsOf_cons_of_ne h s
  | half i => simp [CodePoint.chars, pointsOf, halfChar_ne_mark, half?_halfChar]

theorem CodePoint.exists_cons_chars (p : CodePoint) : ∃ c s, p.chars = c :: s := by
  cases p with
  | char c => rw [chars]; split <;> exact ⟨_, _, rfl⟩
  | half i => exact ⟨_, _, rfl⟩

/-- **A text of code points has these code points.** -/
theorem points_ofPoints (ps : List CodePoint) : points (ofPoints ps) = ps := by
  rw [points, ofPoints, String.toList_ofList]
  induction ps with
  | nil => rfl
  | cons p ps ih => rw [List.flatMap_cons, pointsOf_chars_append, ih]

/-! ## The order of texts -/

/-- The number of a code point. -/
def CodePoint.value : CodePoint → Nat
  | .char c => c.toNat
  | .half i => unit i

theorem cons_lt_cons_iff_toNat {c d : Char} :
    c :: s < d :: t ↔ c.toNat < d.toNat ∨ c.toNat = d.toNat ∧ s < t := by
  rw [List.cons_lt_cons_iff, Char.toNat_inj]
  rfl

/-- The first code points decide about the order of texts, unless they are the same. -/
theorem chars_append_lt_iff :
    p.chars ++ s < q.chars ++ t ↔ p.value < q.value ∨ p.value = q.value ∧ s < t := by
  have hmark : mark.toNat = 0xE000 := rfl
  have hchar (c : Char) : c.toNat < 0xD800 ∨ 0xDFFF < c.toNat := c.valid.imp id And.left
  -- a half is below the mark, a character is below all halves or not below the mark
  cases p with
  | char c =>
      cases q with
      | char d =>
          simp only [CodePoint.chars, CodePoint.value, ← Char.toNat_inj]
          split <;> split <;>
            simp only [List.cons_append, List.nil_append, cons_lt_cons_iff_toNat] <;> grind
      | half i =>
          have hc := hchar c
          simp only [CodePoint.chars, CodePoint.value, CodePoint.unit, ← Char.toNat_inj]
          split <;>
            simp only [List.cons_append, List.nil_append, cons_lt_cons_iff_toNat, toNat_halfChar] <;> grind
  | half i =>
      cases q with
      | char d =>
          have hd := hchar d
          simp only [CodePoint.chars, CodePoint.value, CodePoint.unit, ← Char.toNat_inj]
          split <;>
            simp only [List.cons_append, List.nil_append, cons_lt_cons_iff_toNat, toNat_halfChar] <;> grind
      | half j =>
          simp only [CodePoint.chars, CodePoint.value, CodePoint.unit, List.cons_append, List.nil_append,
            cons_lt_cons_iff_toNat, toNat_halfChar]
          grind

/-- **Texts are in the order of their code points.** -/
theorem ofPoints_lt_iff : ofPoints ps < ofPoints qs ↔ ps.map CodePoint.value < qs.map CodePoint.value := by
  rw [String.lt_iff_toList_lt, ofPoints, ofPoints, String.toList_ofList, String.toList_ofList]
  induction ps generalizing qs with
  | nil =>
      cases qs with
      | nil => simp
      | cons q qs =>
          obtain ⟨c, s, hq⟩ := q.exists_cons_chars
          rw [List.flatMap_cons, hq]
          exact iff_of_true (List.nil_lt_cons _ _) (List.nil_lt_cons _ _)
  | cons p ps ih =>
      cases qs with
      | nil => exact iff_of_false (List.not_lt_nil _) (List.not_lt_nil _)
      | cons q qs =>
          rw [List.flatMap_cons, List.flatMap_cons, chars_append_lt_iff, List.map_cons, List.map_cons,
            List.cons_lt_cons_iff, ih]

/-! ## Parts of texts -/

/-- A character that neither is the mark nor goes with it parts a text. -/
theorem pointsOf_append_cons (hmark : c ≠ mark) (hhalf : half? c = none) (s t : List Char) :
    pointsOf (s ++ c :: t) = pointsOf s ++ .char c :: pointsOf t := by
  fun_induction pointsOf s with
  | case1 => exact pointsOf_cons_of_ne hmark t
  | case2 d =>
      by_cases hd : d = mark
      · simp [pointsOf, hd, hmark, hhalf, pointsOf_cons_of_ne hmark]
      · simp [pointsOf_cons_of_ne hd, pointsOf_cons_of_ne hmark]
  | case3 s ih => simp [pointsOf, ih]
  | case4 d s hd i hi ih => simp [pointsOf, hd, hi, ih]
  | case5 d s hd hi ih => simp [pointsOf, hd, hi, ← ih]
  | case6 d e s hd ih => rw [List.cons_append, pointsOf_cons_of_ne hd, ih, List.cons_append]

theorem pointsOf_of_notMem (h : mark ∉ s) : pointsOf s = s.map .char := by
  induction s with
  | nil => rfl
  | cons c s ih =>
      rw [List.mem_cons, not_or] at h
      rw [pointsOf_cons_of_ne (Ne.symm h.1), ih h.2, List.map_cons]

/-- A text without the mark is one of its characters. -/
theorem points_of_notMem (h : mark ∉ text.toList) : points text = text.toList.map .char :=
  pointsOf_of_notMem h

/-! ## Texts that have bytes -/

theorem faultFrom?_eq_none_iff {place : Nat} :
    faultFrom? place ps = none ↔ ∀ p ∈ ps, p.isChar = true := by
  induction ps generalizing place with
  | nil => exact iff_of_true rfl (List.forall_mem_nil _)
  | cons p ps ih =>
      cases p with
      | char c => simp [faultFrom?, ih, CodePoint.isChar]
      | half i => simp [faultFrom?, CodePoint.isChar]

/-- A text has bytes exactly if all its code points are characters. -/
theorem encodeFault?_eq_none_iff : encodeFault? text = none ↔ ∀ p ∈ points text, p.isChar = true :=
  faultFrom?_eq_none_iff

/-- A text that a character parts has bytes exactly if both parts have. -/
theorem encodeFault?_of_append_cons {left right : String} (hmark : c ≠ mark) (hhalf : half? c = none)
    (h : text.toList = left.toList ++ c :: right.toList) :
    encodeFault? text = none ↔ encodeFault? left = none ∧ encodeFault? right = none := by
  simp only [encodeFault?_eq_none_iff, points, h, pointsOf_append_cons hmark hhalf, List.forall_mem_append,
    List.forall_mem_cons, CodePoint.isChar, true_and]

theorem encodeFault?_of_notMem (h : mark ∉ text.toList) : encodeFault? text = none := by
  rw [encodeFault?_eq_none_iff, points_of_notMem h]
  exact List.forall_mem_map.mpr fun _ _ => rfl

/-- The bytes of a text without the mark are those of its characters. -/
theorem bytes_of_notMem (h : mark ∉ text.toList) : bytes text = Utf8.encode text.toList := by
  rw [bytes, points_of_notMem h, List.flatMap_map]
  rfl

/-- The size of a text that a character parts. -/
theorem size_of_append_cons {left right : String} (hmark : c ≠ mark) (hhalf : half? c = none)
    (h : text.toList = left.toList ++ c :: right.toList) :
    size text = size left + ((String.utf8EncodeChar c).length + size right) := by
  simp only [size, bytes, points, h, pointsOf_append_cons hmark hhalf, List.flatMap_append,
    List.flatMap_cons, List.length_append, CodePoint.bytes]

theorem mark_notMem_replicate (n : Nat) (h : c ≠ mark) :
    mark ∉ (String.ofList (List.replicate n c)).toList := by
  rw [String.toList_ofList, List.mem_replicate]
  exact fun hmem => h hmem.2.symm

/-- The size of a character so many times. -/
theorem size_replicate (n : Nat) (h : c ≠ mark) :
    size (String.ofList (List.replicate n c)) = n * (String.utf8EncodeChar c).length := by
  rw [size, bytes_of_notMem (mark_notMem_replicate n h), String.toList_ofList, Utf8.encode,
    List.length_flatMap, List.map_replicate, List.sum_replicate_nat]

/-! ## Texts by the bytes of their characters

How a text is written can be computed from its bytes as a `String`, which are there without reading the
characters.
-/

/-- The characters of a text are those of which it has the bytes. -/
theorem toList_eq_of_encode (h : Utf8.encode s = text.toByteArray.data.toList) : text.toList = s := by
  have hbytes : s.utf8Encode = text.toByteArray := by
    rw [List.utf8Encode, ← Utf8.encode, h]
    exact ByteArray.ext (by rw [List.data_toByteArray])
  rw [← String.toByteArray_ofList] at hbytes
  rw [← String.toByteArray_inj.mp hbytes, String.toList_ofList]

/-! ## Texts that can be told from what is printed of them -/

/-- Whether a text can be told from what is printed of it: it is the text of its code points, and nowhere do
two halves stand as those of a pair do. -/
structure WellCoded (text : String) : Prop where
  coded : ofPoints (points text) = text
  apart : (points text).IsChain fun p q => ¬(p.isHigh = true ∧ q.isLow = true)

/-- A text without the mark is well coded. -/
theorem wellCoded_of_notMem (h : mark ∉ text.toList) : WellCoded text where
  coded := by
    have hchars (l : List Char) (hl : mark ∉ l) : (l.map CodePoint.char).flatMap CodePoint.chars = l := by
      induction l with
      | nil => rfl
      | cons c l ih =>
          rw [List.mem_cons, not_or] at hl
          rw [List.map_cons, List.flatMap_cons, ih hl.2, CodePoint.chars, if_neg (Ne.symm hl.1),
            List.singleton_append]
    rw [ofPoints, points_of_notMem h, hchars _ h, String.ofList_toList]
  apart := by
    rw [points_of_notMem h]
    exact (List.pairwise_map.mpr (List.pairwise_of_forall fun _ _ => nofun)).isChain

end ContentTypes.Text
