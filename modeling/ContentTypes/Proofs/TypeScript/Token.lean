import ContentTypes.TypeScript.Skeleton

/-!
# Names, literals and comments

What may stand in a name, between single quotes and in a comment.
-/

set_option autoImplicit false

namespace ContentTypes.TypeScript

/-- Whether a name may start with the character. -/
def isNameStart (c : Char) : Bool := c.isAlpha || c = '_' || c = '$' || 0x80 ≤ c.toNat

/-- Whether the character may stand in a name. -/
def isNamePart (c : Char) : Bool := isNameStart c || c.isDigit

/-- Whether the text is an identifier. -/
def IsIdentifier (text : String) : Prop :=
  ∃ c rest, text.toList = c :: rest ∧ isNameStart c = true ∧ ∀ c' ∈ rest, isNamePart c' = true

/-- Whether the text stands for itself between single quotes. -/
def IsQuotable (text : String) : Prop := ∀ c ∈ text.toList, c ≠ '\'' ∧ c ≠ '\n'

/-- Whether the text ends no comment that it stands in. -/
def IsRemark (text : String) : Prop := ¬['*', '/'] <:+: text.toList

theorem isIdentifier_iff {text : String} {c : Char} {rest : List Char} (h : text.toList = c :: rest) :
    IsIdentifier text ↔ (isNameStart c && rest.all isNamePart) = true := by
  rw [Bool.and_eq_true, List.all_eq_true]
  constructor
  · rintro ⟨c', rest', htext, hc, hrest⟩
    rw [h] at htext
    cases htext
    exact ⟨hc, hrest⟩
  · rintro ⟨hc, hrest⟩
    exact ⟨c, rest, h, hc, hrest⟩

instance : DecidablePred IsIdentifier := fun text =>
  match h : text.toList with
  | [] => isFalse (by simp [IsIdentifier, h])
  | _ :: _ => decidable_of_iff _ (isIdentifier_iff h).symm

instance : DecidablePred IsQuotable := fun text =>
  decidable_of_iff ((text.toList.all fun c => c != '\'' && c != '\n') = true) (by simp [IsQuotable])

theorem occursIn_iff (word s : List Char) : occursIn word s = true ↔ word <:+: s := by
  induction s with
  | nil => rw [occursIn, List.isEmpty_iff, List.infix_nil]
  | cons c s ih => rw [occursIn, Bool.or_eq_true, ih, List.isPrefixOf_iff_prefix, List.infix_cons_iff]

instance : DecidablePred IsRemark := fun text =>
  decidable_of_iff (occursIn ['*', '/'] text.toList = false) (by
    rw [IsRemark, ← occursIn_iff, Bool.not_eq_true])

/-! ## Comments -/

/-- A comment ends at its first end. -/
theorem afterComment?_append {text : List Char} (rest : List Char) (h : ¬['*', '/'] <:+: text) :
    afterComment? (text ++ '*' :: '/' :: rest) = some rest := by
  induction text with
  | nil => rfl
  | cons c text ih =>
      have htext : ¬['*', '/'] <:+: text := fun hin => h (hin.trans (List.suffix_cons c _).isInfix)
      rw [List.cons_append, afterComment?]
      · exact ih htext
      · -- a star and a slash do not meet here, be it inside the text or at its end
        rintro rest' rfl heq
        apply h
        cases text with
        | nil =>
            rw [List.nil_append] at heq
            exact absurd (List.cons.inj heq).1 (by decide)
        | cons c' text =>
            rw [List.cons_append] at heq
            obtain ⟨rfl, -⟩ := List.cons.inj heq
            exact ⟨[], text, rfl⟩

/-- A remark with a space at either end ends no comment, also if a star stands before it. -/
theorem IsRemark.spaced {text : String} (h : IsRemark text) :
    ¬['*', '/'] <:+: '*' :: ' ' :: (text.toList ++ [' ']) := by
  intro hin
  rcases List.infix_cons_iff.mp hin with hprefix | hin
  · simp at hprefix
  rcases List.infix_cons_iff.mp hin with hprefix | hin
  · simp at hprefix
  rcases List.infix_concat_iff.mp hin with hsuffix | hin
  · -- an end of a comment that lies across the end of the text would need a slash there
    obtain ⟨before, heq⟩ := hsuffix
    have hlast := congrArg List.getLast? heq
    simp at hlast
  · exact h hin

/-- A remark between the marks of a comment, with a space at either end, is a comment. -/
theorem afterComment?_remark {text : String} (rest : List Char) (h : IsRemark text) :
    afterComment? ('*' :: ' ' :: (text.toList ++ ' ' :: '*' :: '/' :: rest)) = some rest := by
  have hshape : '*' :: ' ' :: (text.toList ++ ' ' :: '*' :: '/' :: rest) =
      ('*' :: ' ' :: (text.toList ++ [' '])) ++ '*' :: '/' :: rest := by simp
  rw [hshape]
  exact afterComment?_append rest h.spaced

/-! ## Names -/

theorem isNamePart_of_isNameStart {c : Char} (h : isNameStart c = true) : isNamePart c = true := by
  rw [isNamePart, h, Bool.true_or]

theorem IsIdentifier.isNamePart {text : String} (h : IsIdentifier text) :
    ∀ c ∈ text.toList, isNamePart c = true := by
  obtain ⟨c, rest, htext, hc, hrest⟩ := h
  rw [htext, List.forall_mem_cons]
  exact ⟨isNamePart_of_isNameStart hc, hrest⟩

/-- A name starts with none of the characters that open something or stand between things. -/
theorem ne_of_isNamePart {c d : Char} (h : isNamePart c = true) (hd : isNamePart d = false) : c ≠ d := by
  rintro rfl
  rw [h] at hd
  cases hd

/-- A name stands for itself between quotes. -/
theorem IsIdentifier.isQuotable {text : String} (h : IsIdentifier text) : IsQuotable text := by
  intro c hc
  have hpart := h.isNamePart c hc
  exact ⟨ne_of_isNamePart hpart (by decide), ne_of_isNamePart hpart (by decide)⟩

end ContentTypes.TypeScript
