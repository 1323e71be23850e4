import ContentTypes.Proofs.Json.Number
import ContentTypes.Proofs.Value
import ContentTypes.Text.LineBreak
import ContentTypes.Text.Utf8

/-!
# Printed text is plain

A printed value is plain text: ASCII without a carriage return (`isPlain_printAt`). Nothing happens to
plain text on its way through a file: its bytes are decoded to it again, and it has no line breaks to
fold.
-/

set_option autoImplicit false

namespace ContentTypes

/-- Whether a character is ASCII and not a carriage return. -/
def Text.IsPlain (c : Char) : Prop := c.toNat < 0x80 ∧ c ≠ '\r'

instance : DecidablePred Text.IsPlain := fun c =>
  inferInstanceAs (Decidable (c.toNat < 0x80 ∧ c ≠ '\r'))

/-! ## Plain text in files -/

theorem Utf8.utf8EncodeChar_of_ascii {c : Char} (h : c.toNat < 0x80) :
    String.utf8EncodeChar c = [UInt8.ofNat c.toNat] := by
  have hle : c.val.toNat ≤ 0x7f := Nat.le_of_lt_succ h
  rw [String.utf8EncodeChar, if_pos hle]
  rfl

/-- ASCII is decoded as it was encoded. -/
theorem Utf8.decode_encode_of_ascii {text : List Char} (h : ∀ c ∈ text, c.toNat < 0x80) :
    Utf8.decode (Utf8.encode text) = .ok text := by
  suffices hscan : ∀ place, collect (scanFrom place none (encode text)) = .ok text from hscan 0
  induction text with
  | nil =>
      intro place
      rfl
  | cons c text ih =>
      intro place
      have hc := h c List.mem_cons_self
      have htoNat : (UInt8.ofNat c.toNat).toNat = c.toNat := by
        rw [UInt8.toNat_ofNat']
        omega
      have hlead : lead place (UInt8.ofNat c.toNat) = .inl (.char c) := by
        have hlt : UInt8.ofNat c.toNat < 0x80 := by
          rw [UInt8.lt_iff_toNat_lt, htoNat]
          exact hc
        rw [lead, if_pos hlt, htoNat, Char.ofNat_toNat]
      have hencode : encode (c :: text) = UInt8.ofNat c.toNat :: encode text := by
        rw [encode, List.flatMap_cons, utf8EncodeChar_of_ascii hc]
        rfl
      rw [hencode, scanFrom]
      simp only [hlead, collect, ih fun c' hc' => h c' (List.mem_cons_of_mem _ hc')]
      rfl

/-- Text without carriage returns has no line breaks to fold. -/
theorem Text.foldLineBreaks_of_forall_ne {text : List Char} (h : ∀ c ∈ text, c ≠ '\r') :
    Text.foldLineBreaks text = text := by
  induction text with
  | nil => rfl
  | cons c text ih =>
      have hc : c ≠ '\r' := h c List.mem_cons_self
      rw [foldLineBreaks]
      · rw [if_neg hc, ih fun c' hc' => h c' (List.mem_cons_of_mem _ hc')]
      · intro rest hcr
        exact absurd hcr hc

/-- Each character of a text that is at hand can be looked at. -/
theorem Text.isPlain_of_all {text : List Char}
    (h : (text.all fun c => decide (Text.IsPlain c)) = true) : ∀ c ∈ text, Text.IsPlain c := by
  intro c hc
  exact of_decide_eq_true (List.all_eq_true.mp h c hc)

/-! ## What is printed -/

namespace Json

open Text (IsPlain isPlain_of_all)

theorem isPlain_of_isDigit {c : Char} (h : c.isDigit = true) : IsPlain c := by
  simp only [Char.isDigit, Bool.and_eq_true, decide_eq_true_eq] at h
  refine ⟨?_, ne_of_isDigit (by simpa [Char.isDigit] using h) (by decide)⟩
  have := UInt32.le_iff_toNat_le.mp h.2
  exact Nat.lt_of_le_of_lt this (by decide)

theorem isPlain_hexDigits (width n : Nat) : ∀ c ∈ Text.hexDigits width n, IsPlain c := by
  have hdigit : ∀ d < 16, (Text.hexDigit d).toNat < 0x80 ∧ Text.hexDigit d ≠ '\r' := by decide
  induction width generalizing n with
  | zero => simp [Text.hexDigits]
  | succ width ih =>
      rw [Text.hexDigits, List.forall_mem_append, List.forall_mem_singleton]
      exact ⟨ih _, hdigit _ (by omega)⟩

theorem isPlain_unitEscape (n : Nat) : ∀ c ∈ unitEscape n, IsPlain c := by
  rw [unitEscape, List.forall_mem_cons, List.forall_mem_cons]
  exact ⟨by decide, by decide, isPlain_hexDigits 4 n⟩

theorem isPlain_escapeChar (c : Char) : ∀ c' ∈ escapeChar c, IsPlain c' := by
  unfold escapeChar
  split
  · exact isPlain_of_all rfl
  split
  · exact isPlain_of_all rfl
  split
  · exact isPlain_of_all rfl
  split
  · exact isPlain_of_all rfl
  split
  · exact isPlain_of_all rfl
  split
  · exact isPlain_of_all rfl
  split
  · exact isPlain_of_all rfl
  split
  · rename_i hr _ _ _ hprintable
    rw [List.forall_mem_singleton]
    exact ⟨by omega, hr⟩
  split
  · exact isPlain_unitEscape _
  · rw [List.forall_mem_append]
    exact ⟨isPlain_unitEscape _, isPlain_unitEscape _⟩

theorem isPlain_escapePoint (p : Text.CodePoint) : ∀ c ∈ escapePoint p, IsPlain c := by
  cases p with
  | char c => exact isPlain_escapeChar c
  | half i => exact isPlain_unitEscape _

theorem isPlain_printText (text : String) : ∀ c ∈ printText text, IsPlain c := by
  intro c hc
  simp only [printText, List.cons_append, List.mem_cons, List.mem_append, List.mem_flatMap,
    List.not_mem_nil, or_false] at hc
  rcases hc with rfl | ⟨p, -, hc⟩ | rfl
  · exact by decide
  · exact isPlain_escapePoint p c hc
  · exact by decide

theorem isPlain_newLine (depth : Nat) : ∀ c ∈ newLine depth, IsPlain c := by
  intro c hc
  rcases List.mem_cons.mp hc with rfl | hc
  · exact by decide
  · rw [List.eq_of_mem_replicate hc]
    exact by decide

theorem isPlain_toString_int (n : Int) : ∀ c ∈ (toString n).toList, IsPlain c := by
  rw [toList_toString_int]
  split
  · intro c hc
    exact isPlain_of_isDigit (isDigit_of_mem_toDigits hc)
  · rw [List.forall_mem_cons]
    refine ⟨by decide, ?_⟩
    intro c hc
    exact isPlain_of_isDigit (isDigit_of_mem_toDigits hc)

theorem isPlain_positional {digits : List Char} (h : ∀ c ∈ digits, c.isDigit = true) (point : Int) :
    ∀ c ∈ Floating.positional digits point, IsPlain c := by
  have hplain : ∀ c ∈ digits, IsPlain c := fun c hc => isPlain_of_isDigit (h c hc)
  have hzeros (n : Nat) : ∀ c ∈ List.replicate n '0', IsPlain c :=
    fun c hc => isPlain_of_isDigit (isDigit_of_mem_replicate c hc)
  unfold Floating.positional
  split
  · simp only [List.forall_mem_cons, List.forall_mem_append]
    exact ⟨by decide, by decide, hzeros _, hplain⟩
  · simp only [List.forall_mem_cons, List.forall_mem_append]
    refine ⟨⟨fun c hc => hplain c (List.mem_of_mem_take hc), hzeros _⟩, by decide, ?_⟩
    split
    · exact isPlain_of_all rfl
    · exact fun c hc => hplain c (List.mem_of_mem_drop hc)

theorem isPlain_scientific {digits : List Char} (h : ∀ c ∈ digits, c.isDigit = true) (point : Int) :
    ∀ c ∈ Floating.scientific digits point, IsPlain c := by
  have hplain : ∀ c ∈ digits, IsPlain c := fun c hc => isPlain_of_isDigit (h c hc)
  have hexponent : ∀ c ∈ List.replicate (2 - (Nat.toDigits 10 (point - 1).natAbs).length) '0' ++
      Nat.toDigits 10 (point - 1).natAbs, IsPlain c :=
    List.forall_mem_append.mpr ⟨fun c hc => isPlain_of_isDigit (isDigit_of_mem_replicate c hc),
      fun c hc => isPlain_of_isDigit (isDigit_of_mem_toDigits hc)⟩
  have hsign : IsPlain (if point - 1 < 0 then '-' else '+') := by
    split <;> decide
  unfold Floating.scientific
  simp only [List.forall_mem_append, List.forall_mem_cons]
  refine ⟨?_, by decide, hsign, List.forall_mem_append.mp hexponent⟩
  split
  · exact List.forall_mem_nil _
  · exact hplain
  · obtain ⟨hd, hrest⟩ := List.forall_mem_cons.mp hplain
    exact List.forall_mem_cons.mpr ⟨hd, List.forall_mem_cons.mpr ⟨by decide, hrest⟩⟩

theorem isPlain_printFloat (x : Floating) : ∀ c ∈ printFloat x, IsPlain c := by
  have hdecimal (d : Decimal) : ∀ c ∈ Floating.decimalText d, IsPlain c := by
    unfold Floating.decimalText
    dsimp only
    split
    · exact isPlain_positional (fun _ hc => isDigit_of_mem_toDigits hc) _
    · exact isPlain_scientific (fun _ hc => isDigit_of_mem_toDigits hc) _
  cases x with
  | nan => exact isPlain_of_all rfl
  | infinite negative => cases negative <;> exact isPlain_of_all rfl
  | finite negative m e =>
      have htext : ∀ c ∈ (if m = 0 then ['0', '.', '0'] else Floating.decimalText (Floating.shortest m e)),
          IsPlain c := by
        split
        · exact isPlain_of_all rfl
        · exact hdecimal _
      cases negative
      · simpa [printFloat, Floating.display] using htext
      · simpa [printFloat, Floating.display] using ⟨by decide, htext⟩

mutual

/-- A printed value is plain text. -/
theorem isPlain_printAt (depth : Nat) : ∀ v : Value, ∀ c ∈ printAt depth v, IsPlain c
  | .null => isPlain_of_all rfl
  | .bool true => isPlain_of_all rfl
  | .bool false => isPlain_of_all rfl
  | .int n => isPlain_toString_int n
  | .float x => isPlain_printFloat x
  | .str s => isPlain_printText s
  | .arr [] => isPlain_of_all rfl
  | .arr (v :: items) => by
      have hv := isPlain_printAt (depth + 1) v
      have hitems := isPlain_printItems (depth + 1) items
      simp only [printAt, List.forall_mem_append, List.forall_mem_cons, and_assoc]
      exact ⟨by decide, isPlain_newLine _, hv, hitems, isPlain_newLine _, by decide, by simp⟩
  | .obj [] => isPlain_of_all rfl
  | .obj ((name, v) :: members) => by
      have hv := isPlain_printAt (depth + 1) v
      have hmembers := isPlain_printMembers (depth + 1) members
      simp only [printAt, List.forall_mem_append, List.forall_mem_cons, and_assoc]
      exact ⟨by decide, isPlain_newLine _, isPlain_printText name, by decide, by decide, hv, hmembers,
        isPlain_newLine _, by decide, by simp⟩

theorem isPlain_printItems (depth : Nat) : ∀ items : List Value,
    ∀ c ∈ printItems depth items, IsPlain c
  | [] => isPlain_of_all rfl
  | v :: items => by
      have hv := isPlain_printAt depth v
      have hitems := isPlain_printItems depth items
      simp only [printItems, List.forall_mem_append, List.forall_mem_cons, and_assoc]
      exact ⟨by decide, isPlain_newLine _, hv, hitems⟩

theorem isPlain_printMembers (depth : Nat) : ∀ members : Members,
    ∀ c ∈ printMembers depth members, IsPlain c
  | [] => isPlain_of_all rfl
  | (name, v) :: members => by
      have hv := isPlain_printAt depth v
      have hmembers := isPlain_printMembers depth members
      simp only [printMembers, List.forall_mem_append, List.forall_mem_cons, and_assoc]
      exact ⟨by decide, isPlain_newLine _, isPlain_printText name, by decide, by decide, hv, hmembers⟩

end

end Json

end ContentTypes
