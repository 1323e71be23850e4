import ContentTypes.Proofs.Json.Token

/-!
# Floating-point numbers read back

A floating-point number is printed as the shortest decimal that rounds to it, with a point or an exponent.
`ReadsFloat` says that a text is read as some floating-point number; it is so of every decimal that is not
zero (`readsFloat_decimalText`), and `rereadFloat` is the number that is read. Which number that is plays
no part here: what has to be known of the text of a value is that a number in it is a number again.
-/

set_option autoImplicit false

namespace ContentTypes

open Json

namespace Floating

/-! ## The digits of a decimal -/

/-- What reads back as a number that is not zero is not zero. -/
theorem gridPoint?_ne_zero {m k : Nat} {e p : Int} (hm : m ≠ 0) (h : gridPoint? m e p = some k) :
    k ≠ 0 := by
  have hlow : 0 < (4 * m - if m = Nat.pow 2 52 ∧ minExponent < e then 1 else 2) *
      (Nat.pow 2 (e - 2).toNat * Nat.pow 10 (-p).toNat) := by
    refine Nat.mul_pos ?_ (Nat.mul_pos (Nat.pow_pos (by decide)) (Nat.pow_pos (by decide)))
    split <;> omega
  unfold gridPoint? at h
  dsimp only at h
  -- whatever the grid and the point below the value, zero is below what reads back
  generalize (4 * m - if m = Nat.pow 2 52 ∧ minExponent < e then 1 else 2) *
    (Nat.pow 2 (e - 2).toNat * Nat.pow 10 (-p).toNat) = low at h hlow
  generalize Nat.pow 2 (2 - e).toNat * Nat.pow 10 p.toNat = grid at h
  generalize 4 * m * (Nat.pow 2 (e - 2).toNat * Nat.pow 10 (-p).toNat) / grid = below at h
  have hzero : ∀ {high : Nat}, (if m % 2 = 0 then decide (low ≤ 0 * grid) && decide (0 * grid ≤ high)
      else decide (low < 0 * grid) && decide (0 * grid < high)) = true → False := by
    intro high hback
    rw [Nat.zero_mul] at hback
    split at hback
    · simp at hback
      omega
    · simp at hback
  rintro rfl
  split at h
  · rename_i hbelow _
    split at h
    · rw [Option.some.inj h] at hbelow
      exact hzero hbelow
    · cases h
  · rename_i hbelow _
    rw [Option.some.inj h] at hbelow
    exact hzero hbelow
  · cases h
  · cases h

theorem digits_shortest_ne_zero {m : Nat} (hm : m ≠ 0) (e : Int) : (shortest m e).digits ≠ 0 := by
  unfold shortest
  dsimp only
  split
  · rename_i d hd
    obtain ⟨p, -, hp⟩ := List.exists_of_findSome?_eq_some hd
    obtain ⟨k, hk, rfl⟩ := Option.map_eq_some_iff.mp hp
    exact gridPoint?_ne_zero hm hk
  · exact hm

end Floating

namespace Json

/-- Whether a text, behind a sign or not, is read as a floating-point number in front of what ends one. -/
structure ReadsFloat (text : List Char) : Prop where
  start : ∃ c s, text = c :: s ∧ c.isDigit = true
  reads : ∀ negative, ∃ x, ∀ rest, EndsNumber rest →
    readUnsigned? negative (text ++ rest) = some (.float x, rest)

/-! ## Numbers with a fraction or an exponent -/

theorem readUnsigned?_eq {negative : Bool} {s s₁ s₂ s₃ whole : List Char} {fraction : Option (List Char)}
    {exponent : Option Int} (hwhole : readWhole? s = some (whole, s₁))
    (hfraction : readOptional readFraction? s₁ = (fraction, s₂))
    (hexponent : readOptional readExponent? s₂ = (exponent, s₃)) :
    readUnsigned? negative s = some (numberOf negative whole fraction exponent, s₃) := by
  simp only [readUnsigned?, hwhole, hfraction, hexponent]

theorem readOptional_fraction {digits rest : List Char} (h : ∀ c ∈ digits, c.isDigit = true)
    (hne : digits ≠ []) (hrest : EndsDigits rest) :
    readOptional readFraction? ('.' :: (digits ++ rest)) = (some digits, rest) := by
  have hempty : digits.isEmpty = false := List.isEmpty_eq_false_iff.mpr hne
  simp only [readOptional, readFraction?, spanDigits_append h hrest, hempty, Bool.false_eq_true, if_false]

theorem readOptional_exponent {c : Char} (hsign : c = '+' ∨ c = '-') {digits : List Char}
    (h : ∀ c ∈ digits, c.isDigit = true) (hne : digits ≠ []) :
    ∃ n, ∀ rest, EndsDigits rest →
      readOptional readExponent? ('e' :: c :: (digits ++ rest)) = (some n, rest) := by
  have hempty : digits.isEmpty = false := List.isEmpty_eq_false_iff.mpr hne
  rcases hsign with rfl | rfl
  · refine ⟨digitsValue digits, fun rest hrest => ?_⟩
    simp [readOptional, readExponent?, readSign, spanDigits_append h hrest, hempty]
  · refine ⟨-digitsValue digits, fun rest hrest => ?_⟩
    simp [readOptional, readExponent?, readSign, spanDigits_append h hrest, hempty]

/-- With a fraction or an exponent a number is a floating-point number. -/
theorem exists_numberOf_eq_float (negative : Bool) (whole : List Char) {fraction : Option (List Char)}
    {exponent : Option Int} (h : fraction.isSome = true ∨ exponent.isSome = true) :
    ∃ x, numberOf negative whole fraction exponent = .float x := by
  unfold numberOf
  split
  · simp at h
  · exact ⟨_, rfl⟩

/-! ## Decimals -/

/-- Digits of a number that is not zero. -/
structure IsDigits (digits : List Char) : Prop where
  isDigit : ∀ c ∈ digits, c.isDigit = true
  ne_nil : digits ≠ []
  ne_zero : digits.head? ≠ some '0'

theorem isDigits_toDigits {n : Nat} (hn : n ≠ 0) : IsDigits (Nat.toDigits 10 n) where
  isDigit := fun _ hc => isDigit_of_mem_toDigits hc
  ne_nil := Nat.toDigits_ne_nil
  ne_zero := by
    intro hhead
    obtain ⟨s, hs⟩ := List.head?_eq_some_iff.mp hhead
    obtain rfl := toDigits_eq_zero_cons hs
    have hvalue := digitsValue_toDigits n
    rw [hs] at hvalue
    exact hn hvalue.symm

theorem isDigit_of_mem_replicate {n : Nat} : ∀ c ∈ List.replicate n '0', c.isDigit = true := by
  intro c hc
  rw [List.eq_of_mem_replicate hc]
  rfl

/-- Digits, a point and digits are a floating-point number. -/
theorem readsFloat_point {whole fraction : List Char} (hwhole : ∀ c ∈ whole, c.isDigit = true)
    (hne : whole ≠ []) (hzero : ∀ s, whole = '0' :: s → s = [])
    (hfraction : ∀ c ∈ fraction, c.isDigit = true) (hne' : fraction ≠ []) :
    ReadsFloat (whole ++ '.' :: fraction) where
  start := by
    obtain ⟨c, s, rfl⟩ := List.exists_cons_of_ne_nil hne
    exact ⟨c, _, rfl, hwhole c List.mem_cons_self⟩
  reads := by
    intro negative
    obtain ⟨x, hx⟩ := @exists_numberOf_eq_float negative whole (some fraction) none (.inl rfl)
    refine ⟨x, fun rest hrest => ?_⟩
    have hpoint : EndsDigits ('.' :: (fraction ++ rest)) := endsDigits_cons _ (by decide)
    have hexponent : readOptional readExponent? rest = (none, rest) := by
      rw [readOptional, readExponent?_of_endsNumber hrest]
    rw [List.append_assoc, List.cons_append, readUnsigned?_eq (readWhole?_append hwhole hne hzero hpoint)
      (readOptional_fraction hfraction hne' hrest.endsDigits) hexponent, hx]

/-- A digit, maybe a point and digits, and an exponent are a floating-point number. -/
theorem readsFloat_exponent {d c : Char} {fraction exponent : List Char} (hd : d.isDigit = true)
    (hfraction : ∀ c ∈ fraction, c.isDigit = true) (hsign : c = '+' ∨ c = '-')
    (hexponent : ∀ c ∈ exponent, c.isDigit = true) (hne : exponent ≠ []) :
    ReadsFloat (d :: ((if fraction = [] then [] else '.' :: fraction) ++ 'e' :: c :: exponent)) where
  start := ⟨d, _, rfl, hd⟩
  reads := by
    intro negative
    have hwhole {s : List Char} (h : EndsDigits s) : readWhole? (d :: s) = some ([d], s) :=
      readWhole?_append (List.forall_mem_singleton.mpr hd) (List.cons_ne_nil _ _)
        (fun _ hs => (List.cons.inj hs).2.symm) h
    have hmark (s : List Char) : EndsDigits ('e' :: s) := endsDigits_cons s (by decide)
    obtain ⟨n, hn⟩ := readOptional_exponent hsign hexponent hne
    by_cases hnil : fraction = []
    · obtain ⟨x, hx⟩ := @exists_numberOf_eq_float negative [d] none (some n) (.inr rfl)
      refine ⟨x, fun rest hrest => ?_⟩
      rw [if_pos hnil, List.nil_append, List.cons_append, List.cons_append, List.cons_append,
        readUnsigned?_eq (hwhole (hmark _)) rfl (hn rest hrest.endsDigits), hx]
    · obtain ⟨x, hx⟩ := @exists_numberOf_eq_float negative [d] (some fraction) (some n) (.inl rfl)
      refine ⟨x, fun rest hrest => ?_⟩
      have hpoint (s : List Char) : EndsDigits ('.' :: s) := endsDigits_cons s (by decide)
      rw [if_neg hnil, List.cons_append, List.append_assoc, List.cons_append, List.cons_append,
        List.cons_append, readUnsigned?_eq (hwhole (hpoint _))
          (readOptional_fraction hfraction hnil (hmark _)) (hn rest hrest.endsDigits), hx]

/-- A decimal written with a point where it belongs is a floating-point number. -/
theorem readsFloat_positional {digits : List Char} (h : IsDigits digits) (point : Int) :
    ReadsFloat (Floating.positional digits point) := by
  unfold Floating.positional
  split
  · have hzeros : ∀ c ∈ List.replicate (-point).toNat '0' ++ digits, c.isDigit = true :=
      List.forall_mem_append.mpr ⟨isDigit_of_mem_replicate, h.isDigit⟩
    have hzero : ∀ c ∈ ['0'], c.isDigit = true := List.forall_mem_singleton.mpr rfl
    exact @readsFloat_point ['0'] _ hzero (by decide) (fun _ hs => (List.cons.inj hs).2.symm) hzeros
      (by simp [h.ne_nil])
  · rename_i hpoint
    -- at least one digit stands before the point, and it is the first of the decimal
    have hpositive : point.toNat ≠ 0 := by omega
    have htake : (digits.take point.toNat).head? = digits.head? := by
      rw [List.head?_take, if_neg hpositive]
    have hne : digits.take point.toNat ++ List.replicate (point.toNat - digits.length) '0' ≠ [] := by
      simp [hpositive, h.ne_nil]
    have hwhole : ∀ c ∈ digits.take point.toNat ++ List.replicate (point.toNat - digits.length) '0',
        c.isDigit = true :=
      List.forall_mem_append.mpr
        ⟨fun c hc => h.isDigit c (List.mem_of_mem_take hc), isDigit_of_mem_replicate⟩
    have hzero : ∀ s, digits.take point.toNat ++ List.replicate (point.toNat - digits.length) '0' =
        '0' :: s → s = [] := by
      intro s hs
      have hhead := congrArg List.head? hs
      rw [List.head?_append, htake, List.head?_cons] at hhead
      obtain ⟨c, rest, rfl⟩ := List.exists_cons_of_ne_nil h.ne_nil
      exact absurd hhead h.ne_zero
    have hfraction : ∀ c ∈ if (digits.drop point.toNat).isEmpty = true then ['0'] else digits.drop point.toNat,
        c.isDigit = true := by
      split
      · exact List.forall_mem_singleton.mpr rfl
      · exact fun c hc => h.isDigit c (List.mem_of_mem_drop hc)
    refine readsFloat_point hwhole hne hzero hfraction ?_
    split
    · exact List.cons_ne_nil _ _
    · rename_i hempty
      simpa using hempty

theorem readsFloat_scientific {digits : List Char} (h : IsDigits digits) (point : Int) :
    ReadsFloat (Floating.scientific digits point) := by
  have hsign : (if point - 1 < 0 then '-' else '+') = '+' ∨ (if point - 1 < 0 then '-' else '+') = '-' := by
    split
    · exact .inr rfl
    · exact .inl rfl
  have hsize : ∀ c ∈ List.replicate (2 - (Nat.toDigits 10 (point - 1).natAbs).length) '0' ++
      Nat.toDigits 10 (point - 1).natAbs, c.isDigit = true :=
    List.forall_mem_append.mpr ⟨isDigit_of_mem_replicate, fun _ hc => isDigit_of_mem_toDigits hc⟩
  have hne : List.replicate (2 - (Nat.toDigits 10 (point - 1).natAbs).length) '0' ++
      Nat.toDigits 10 (point - 1).natAbs ≠ [] := by
    simp [Nat.toDigits_ne_nil]
  unfold Floating.scientific
  obtain ⟨d, rest, rfl⟩ := List.exists_cons_of_ne_nil h.ne_nil
  obtain ⟨hd, hrest⟩ := List.forall_mem_cons.mp h.isDigit
  have hread := readsFloat_exponent hd hrest hsign hsize hne
  cases rest with
  | nil => exact hread
  | cons d' rest => exact hread

/-- A decimal that is not zero is printed as a floating-point number. -/
theorem readsFloat_decimalText {d : Decimal} (hd : d.digits ≠ 0) : ReadsFloat (Floating.decimalText d) := by
  unfold Floating.decimalText
  dsimp only
  split
  · exact readsFloat_positional (isDigits_toDigits hd) _
  · exact readsFloat_scientific (isDigits_toDigits hd) _

/-! ## Floating-point numbers as they are printed -/

/-- A text that is read as a floating-point number is read behind a minus too. -/
theorem ReadsFloat.readAtom? {text : List Char} (h : ReadsFloat text) (negative : Bool) :
    ∃ x, ∀ rest, EndsNumber rest →
      readAtom? ((if negative then '-' :: text else text) ++ rest) = some (.float x, rest) := by
  obtain ⟨x, hx⟩ := h.reads negative
  obtain ⟨c, s, rfl, hc⟩ := h.start
  refine ⟨x, fun rest hrest => ?_⟩
  have hread := hx rest hrest
  rw [List.cons_append] at hread
  cases negative with
  | false =>
      rw [if_neg Bool.false_ne_true, List.cons_append, Json.readAtom?, (readWord?_of_isDigit _ hc).1]
      show readNumber? (c :: (s ++ rest)) = _
      rw [readNumber?_of_isDigit _ hc, hread]
  | true =>
      rw [if_pos rfl, List.cons_append, List.cons_append, Json.readAtom?, (readWord?_of_isDigit _ hc).2]
      exact hread

/-- A finite number as it is printed: its decimal, behind a sign if it is negative. -/
theorem exists_printFloat_finite (negative : Bool) (m : Nat) (e : Int) :
    ∃ text, printFloat (.finite negative m e) = (if negative then '-' :: text else text) ∧ ReadsFloat text := by
  by_cases hm : m = 0
  · refine ⟨['0', '.', '0'], ?_, ?_⟩
    · simp [printFloat, Floating.display, hm]
    · have hzero : ∀ c ∈ ['0'], c.isDigit = true := List.forall_mem_singleton.mpr rfl
      exact @readsFloat_point ['0'] ['0'] hzero (by decide) (fun _ hs => (List.cons.inj hs).2.symm) hzero
        (by decide)
  · refine ⟨Floating.decimalText (Floating.shortest m e), ?_, ?_⟩
    · simp [printFloat, Floating.display, hm]
    · exact readsFloat_decimalText (Floating.digits_shortest_ne_zero hm e)

theorem exists_readAtom?_printFloat (x : Floating) :
    ∃ y, ∀ rest, EndsNumber rest → readAtom? (printFloat x ++ rest) = some (.float y, rest) := by
  cases x with
  | nan => exact ⟨.nan, fun _ _ => rfl⟩
  | infinite negative => cases negative <;> exact ⟨.infinite _, fun _ _ => rfl⟩
  | finite negative m e =>
      obtain ⟨text, htext, hreads⟩ := exists_printFloat_finite negative m e
      rw [htext]
      exact hreads.readAtom? negative

/-- The number that is read where a floating-point number is printed. -/
def rereadFloat (x : Floating) : Floating :=
  match readAtom? (printFloat x) with
  | some (.float y, _) => y
  | _ => x

/-- A floating-point number is read as the number that its text stands for. -/
theorem readAtom?_printFloat (x : Floating) {rest : List Char} (h : EndsNumber rest) :
    readAtom? (printFloat x ++ rest) = some (.float (rereadFloat x), rest) := by
  obtain ⟨y, hy⟩ := exists_readAtom?_printFloat x
  have hread := hy [] endsNumber_nil
  rw [List.append_nil] at hread
  rw [hy rest h, rereadFloat, hread]

/-- A printed floating-point number starts with a digit, a sign or the letter of a word. -/
theorem exists_cons_printFloat (x : Floating) :
    ∃ c s, printFloat x = c :: s ∧ (c.isDigit = true ∨ c ∈ ['-', 'N', 'I']) := by
  cases x with
  | nan => exact ⟨'N', _, rfl, .inr (by decide)⟩
  | infinite negative =>
      cases negative
      · exact ⟨'I', _, rfl, .inr (by decide)⟩
      · exact ⟨'-', _, rfl, .inr (by decide)⟩
  | finite negative m e =>
      obtain ⟨text, htext, hreads⟩ := exists_printFloat_finite negative m e
      obtain ⟨c, s, rfl, hc⟩ := hreads.start
      cases negative
      · exact ⟨c, s, htext, .inl hc⟩
      · exact ⟨'-', _, htext, .inr (by decide)⟩

end Json

end ContentTypes
