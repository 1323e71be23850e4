import ContentTypes.Proofs.TypeScript.Skeleton
import ContentTypes.Proofs.TypeScript.StringLiteral

/-!
# Which declarations are taken for sound

A text is divided into comments, literals and structural characters as TypeScript has them: comments to the
end of a line as well as those between marks, and strings in which a backslash escapes what is behind it.
The check of declarations knows less. It has no comments to the end of a line and no escapes, looks for the
word `export type` anywhere, and counts braces instead of nesting them.

Where the division has nothing that the check mistakes (`Piece.PlainBefore`), `checkDeclarations_divided` says
what it comes to: a text is sound if the word occurs in it, be it in a comment, and if its structural
characters have as many opening as closing braces, in whatever order.
-/

set_option autoImplicit false

namespace ContentTypes.TypeScript

/-! ## Divisions -/

/-- A part of a text: a comment or a literal, with what is between its marks, or a character outside of
these. -/
inductive Piece where
  | lineComment (body : List Char)
  | blockComment (body : List Char)
  | quoted (quote : Char) (body : List Char)
  | template (body : List Char)
  | structural (c : Char)

/-- The text of a part. -/
def Piece.text : Piece → List Char
  | .lineComment body => '/' :: '/' :: body
  | .blockComment body => '/' :: '*' :: (body ++ ['*', '/'])
  | .quoted quote body => quote :: (body ++ [quote])
  | .template body => '`' :: (body ++ ['`'])
  | .structural c => [c]

/-- The structural text of a part. -/
def Piece.code : Piece → List Char
  | .structural c => [c]
  | _ => []

/-- The text that is divided into parts. -/
def textOf (pieces : List Piece) : List Char := pieces.flatMap Piece.text

/-- The structural text of what is divided into parts. -/
def codeOf (pieces : List Piece) : List Char := pieces.flatMap Piece.code

/-- Whether a text can stand between quotes: it has no such quote and no line break, but for those behind a
backslash. -/
def isStringBody (quote : Char) : List Char → Bool
  | [] => true
  | '\\' :: '\r' :: '\n' :: rest => isStringBody quote rest
  | '\\' :: _ :: rest => isStringBody quote rest
  | ['\\'] => false
  | c :: rest => c ≠ quote && c ≠ '\n' && c ≠ '\r' && isStringBody quote rest

/-- Whether a part is one by itself in front of this text. A comment to the end of a line ends there and a
comment between marks at its first end; a structural character opens nothing. -/
def Piece.StandsBefore (rest : List Char) : Piece → Prop
  | .lineComment body => (∀ c ∈ body, isLineEnd c = false) ∧ rest.head?.all isLineEnd = true
  | .blockComment body => ¬['*', '/'] <:+: body
  | .quoted quote body => (quote = '\'' ∨ quote = '"') ∧ isStringBody quote body = true
  | .template body => '`' ∉ body
  | .structural c => c ≠ '\'' ∧ c ≠ '"' ∧ c ≠ '`' ∧
      (c = '/' → rest.head? ≠ some '/' ∧ rest.head? ≠ some '*')

/-- Whether a part in front of this text has nothing in it that needs comments to the end of a line or
escapes. In a comment to the end of a line there are no braces and nothing opens; quotes may stand in it if a
line feed, or the end of the text, follows. In a string its quote and line feeds are not there at all. -/
def Piece.PlainBefore (rest : List Char) : Piece → Prop
  | .lineComment body =>
      (∀ c ∈ body, c ≠ '\x7b' ∧ c ≠ '\x7d' ∧ c ≠ '`') ∧ ¬['/', '*'] <:+: '/' :: body ∧
        (rest.head?.all (· = '\n') = true ∨ ∀ c ∈ body, c ≠ '\'' ∧ c ≠ '"')
  | .quoted quote body => quote ∉ body ∧ '\n' ∉ body
  | _ => True

/-- Whether each part is as the property says, with the text of those behind it. -/
def EachBefore (p : List Char → Piece → Prop) : List Piece → Prop
  | [] => True
  | piece :: rest => p (textOf rest) piece ∧ EachBefore p rest

/-- Whether a text is divided into these parts. -/
def Divided (pieces : List Piece) : Prop := EachBefore Piece.StandsBefore pieces

/-- Whether none of the parts is mistaken for something else. -/
def Plain (pieces : List Piece) : Prop := EachBefore Piece.PlainBefore pieces

-- what is asked of each character is decided along the list, not for all characters there are
instance (rest : List Char) : ∀ piece : Piece, Decidable (piece.StandsBefore rest)
  | .lineComment body =>
      have := List.decidableBAll (fun c => isLineEnd c = false) body
      inferInstanceAs (Decidable (_ ∧ _))
  | .quoted _ _ | .structural _ => inferInstanceAs (Decidable (_ ∧ _))
  | .blockComment _ | .template _ => inferInstanceAs (Decidable (¬_))

instance (rest : List Char) : ∀ piece : Piece, Decidable (piece.PlainBefore rest)
  | .lineComment body =>
      have := List.decidableBAll (fun c => c ≠ '\x7b' ∧ c ≠ '\x7d' ∧ c ≠ '`') body
      have := List.decidableBAll (fun c => c ≠ '\'' ∧ c ≠ '"') body
      inferInstanceAs (Decidable (_ ∧ _))
  | .quoted _ _ => inferInstanceAs (Decidable (_ ∧ _))
  | .blockComment _ | .template _ | .structural _ => .isTrue trivial

instance decidableEachBefore {p : List Char → Piece → Prop} [∀ rest piece, Decidable (p rest piece)] :
    ∀ pieces, Decidable (EachBefore p pieces)
  | [] => .isTrue trivial
  | piece :: rest =>
      have := decidableEachBefore (p := p) rest
      inferInstanceAs (Decidable (p (textOf rest) piece ∧ EachBefore p rest))

instance : DecidablePred Divided := fun pieces => decidableEachBefore pieces

instance : DecidablePred Plain := fun pieces => decidableEachBefore pieces

/-! ## Scanning a comment to the end of a line -/

variable {s rest : List Char}

/-- In front of a line feed, or at the end, no quote is closed by what follows. -/
theorem exists_suffix_of_afterQuote? {quote : Char} {s' : List Char} (hquote : quote ≠ '\n')
    (hrest : rest.head?.all (· = '\n') = true)
    (h : afterQuote? quote (· = '\n') (s ++ rest) = some s') : ∃ front, front <:+ s ∧ s' = front ++ rest := by
  induction s with
  | nil =>
      cases rest with
      | nil => cases h
      | cons c rest =>
          have hc : c = '\n' := by simpa using hrest
          subst hc
          rw [List.nil_append, afterQuote?, if_neg hquote.symm] at h
          cases h
  | cons c s ih =>
      rw [List.cons_append, afterQuote?] at h
      split at h
      · cases h
        exact ⟨s, List.suffix_cons c s, rfl⟩
      · split at h
        · cases h
        · obtain ⟨front, hfront, rfl⟩ := ih h
          exact ⟨front, hfront.trans (List.suffix_cons c s), rfl⟩

/-- Whether a token that starts in a text ends in it too, whatever it is, in front of `rest`. -/
structure KeepsTokens (rest s : List Char) : Prop where
  template : '`' ∉ s
  comment : ¬['/', '*'] <:+: s
  star : rest.head? ≠ some '*'
  quote : rest.head?.all (· = '\n') = true ∨ ∀ c ∈ s, c ≠ '\'' ∧ c ≠ '"'

theorem KeepsTokens.of_suffix {front : List Char} (h : KeepsTokens rest s) (hsuffix : front <:+ s) :
    KeepsTokens rest front where
  template := fun hin => h.template (hsuffix.subset hin)
  comment := fun hin => h.comment (hin.trans hsuffix.isInfix)
  star := h.star
  quote := h.quote.imp_right fun hquote c hc => hquote c (hsuffix.subset hc)

theorem KeepsTokens.exists_suffix {c : Char} {s' : List Char} (h : KeepsTokens rest (c :: s))
    (htoken : afterToken? (c :: (s ++ rest)) = some s') : ∃ front, front <:+ s ∧ s' = front ++ rest := by
  have hquoted (quote : Char) (hmem : quote = '\'' ∨ quote = '"') (hc : c = quote)
      (hafter : afterQuote? quote (· = '\n') (s ++ rest) = some s') :
      ∃ front, front <:+ s ∧ s' = front ++ rest := by
    rcases h.quote with hrest | hnone
    · refine exists_suffix_of_afterQuote? ?_ hrest hafter
      rcases hmem with rfl | rfl <;> decide
    · have hne := hnone c List.mem_cons_self
      rcases hmem with rfl | rfl
      · exact absurd hc hne.1
      · exact absurd hc hne.2
  unfold afterToken? at htoken
  split at htoken
  · rename_i heq
    -- a star behind the slash would be in the text, or the first character of the rest
    obtain ⟨rfl, hstar⟩ := List.cons.inj heq
    cases s with
    | nil => exact absurd (congrArg List.head? hstar) h.star
    | cons c' s =>
        obtain ⟨rfl, -⟩ := List.cons.inj hstar
        exact absurd ⟨[], s, rfl⟩ h.comment
  · rename_i heq
    obtain ⟨hc, rfl⟩ := List.cons.inj heq
    exact hquoted '\'' (.inl rfl) hc htoken
  · rename_i heq
    obtain ⟨hc, rfl⟩ := List.cons.inj heq
    exact hquoted '"' (.inr rfl) hc htoken
  · rename_i heq
    obtain ⟨rfl, -⟩ := List.cons.inj heq
    exact absurd List.mem_cons_self h.template
  · cases htoken

/-- What the scan leaves of such a text is some of its characters, and then it goes on behind it. -/
theorem KeepsTokens.exists_skeleton_eq (h : KeepsTokens rest s) :
    ∃ bones, skeleton (s ++ rest) = bones ++ skeleton rest ∧ bones ⊆ s := by
  induction hlength : s.length using Nat.strongRecOn generalizing s with
  | ind n ih =>
    cases s with
    | nil => exact ⟨[], rfl, List.nil_subset _⟩
    | cons c s =>
        rw [List.cons_append]
        have hshorter {front : List Char} (hfront : front <:+ s) :
            ∃ bones, skeleton (front ++ rest) = bones ++ skeleton rest ∧ bones ⊆ front := by
          have hle := hfront.length_le
          refine ih front.length ?_ (h.of_suffix (hfront.trans (List.suffix_cons c s))) rfl
          rw [← hlength, List.length_cons]
          omega
        cases htoken : afterToken? (c :: (s ++ rest)) with
        | none =>
            obtain ⟨bones, heq, hsubset⟩ := hshorter (List.suffix_refl s)
            refine ⟨c :: bones, ?_, List.cons_subset_cons c hsubset⟩
            rw [skeleton_of_afterToken?_eq_none htoken, heq, List.cons_append]
        | some s' =>
            obtain ⟨front, hfront, rfl⟩ := h.exists_suffix htoken
            obtain ⟨bones, heq, hsubset⟩ := hshorter hfront
            refine ⟨bones, ?_, List.Subset.trans hsubset (hfront.trans (List.suffix_cons c s)).subset⟩
            rw [skeleton_of_afterToken? htoken, heq]

/-! ## Scanning the parts of a text -/

/-- Whether the character is a brace. -/
def IsBrace (c : Char) : Prop := c = '\x7b' ∨ c = '\x7d'

theorem keepsTokens_lineComment {body : List Char} (h : (Piece.lineComment body).StandsBefore rest)
    (hplain : (Piece.lineComment body).PlainBefore rest) : KeepsTokens rest ('/' :: '/' :: body) := by
  obtain ⟨hbody, hcomment, hquote⟩ := hplain
  refine ⟨?_, ?_, ?_, ?_⟩
  · simpa using fun hmem => (hbody _ hmem).2.2 rfl
  · rw [List.infix_cons_iff]
    rintro (hhead | hin)
    · simp at hhead
    · exact hcomment hin
  · intro hhead
    have hend := h.2
    rw [hhead] at hend
    cases hend
  · exact hquote.imp_right fun hnone => by simpa using hnone

theorem opensToken_structural {c : Char} (h : (Piece.structural c).StandsBefore rest) :
    opensToken (c :: rest) = false := by
  obtain ⟨hsingle, hdouble, htemplate, hslash⟩ := h
  unfold opensToken
  split
  · rename_i heq
    obtain ⟨rfl, rfl⟩ := List.cons.inj heq
    exact absurd rfl (hslash rfl).2
  · rename_i heq
    obtain ⟨rfl, -⟩ := List.cons.inj heq
    simp [hsingle, hdouble, htemplate]
  · rfl

/-- Whether a part is a token of the scan: a comment between marks, or a literal in which nothing ends it
early. -/
def Piece.IsToken : Piece → Prop
  | .blockComment body => ¬['*', '/'] <:+: body
  | .quoted quote body => (quote = '\'' ∨ quote = '"') ∧ quote ∉ body ∧ '\n' ∉ body
  | .template body => '`' ∉ body
  | .lineComment _ | .structural _ => False

instance : DecidablePred Piece.IsToken
  | .blockComment _ | .template _ => inferInstanceAs (Decidable (¬_))
  | .quoted _ _ => inferInstanceAs (Decidable (_ ∧ _))
  | .lineComment _ | .structural _ => .isFalse id

/-- The scan takes a token out, whatever follows it. -/
theorem Piece.afterToken?_text {piece : Piece} (rest : List Char) (h : piece.IsToken) :
    afterToken? (piece.text ++ rest) = some rest := by
  cases piece with
  | lineComment body => exact h.elim
  | structural c => exact h.elim
  | blockComment body =>
      rw [text, List.cons_append, List.cons_append, List.append_assoc]
      exact afterComment?_append rest h
  | quoted quote body =>
      obtain ⟨hquote, hbody, hbreak⟩ := h
      have hall : ∀ c ∈ body, c ≠ quote ∧ decide (c = '\n') = false := fun c hc =>
        ⟨ne_of_mem_of_not_mem hc hbody, decide_eq_false (ne_of_mem_of_not_mem hc hbreak)⟩
      rw [text, List.cons_append, List.append_assoc]
      rcases hquote with rfl | rfl <;> exact afterQuote?_append hall rest
  | template body =>
      have hall : ∀ c ∈ body, c ≠ '`' ∧ false = false := fun c hc => ⟨ne_of_mem_of_not_mem hc h, rfl⟩
      rw [text, List.cons_append, List.append_assoc]
      exact afterQuote?_append hall rest

/-- What the scan leaves of a part has the braces of its structural text. -/
theorem Piece.exists_skeleton_eq {piece : Piece} (h : piece.StandsBefore rest)
    (hplain : piece.PlainBefore rest) :
    ∃ bones, skeleton (piece.text ++ rest) = bones ++ skeleton rest ∧
      ∀ brace, IsBrace brace → bones.count brace = piece.code.count brace := by
  have htoken (htoken : piece.IsToken) (hcode : piece.code = []) :
      ∃ bones, skeleton (piece.text ++ rest) = bones ++ skeleton rest ∧
        ∀ brace, IsBrace brace → bones.count brace = piece.code.count brace :=
    ⟨[], skeleton_of_afterToken? (afterToken?_text rest htoken), by simp [hcode]⟩
  cases piece with
  | lineComment body =>
      obtain ⟨bones, heq, hsubset⟩ := (keepsTokens_lineComment h hplain).exists_skeleton_eq
      refine ⟨bones, heq, fun brace hbrace => List.count_eq_zero.mpr fun hmem => ?_⟩
      have hin : brace ∈ '/' :: '/' :: body := hsubset hmem
      rcases hbrace with rfl | rfl
      · exact (hplain.1 _ (by simpa using hin)).1 rfl
      · exact (hplain.1 _ (by simpa using hin)).2.1 rfl
  | blockComment body => exact htoken h rfl
  | quoted quote body => exact htoken ⟨h.1, hplain⟩ rfl
  | template body => exact htoken h rfl
  | structural c => exact ⟨[c], skeleton_of_opensToken (opensToken_structural h), fun _ _ => rfl⟩

/-- The scan of a divided text leaves the braces of its structural text. -/
theorem count_skeleton_textOf {pieces : List Piece} (h : Divided pieces) (hplain : Plain pieces)
    (brace : Char) (hbrace : IsBrace brace) :
    (skeleton (textOf pieces)).count brace = (codeOf pieces).count brace := by
  induction pieces with
  | nil =>
      rw [textOf, List.flatMap_nil, skeleton]
      rfl
  | cons piece pieces ih =>
      obtain ⟨bones, heq, hcount⟩ := Piece.exists_skeleton_eq h.1 hplain.1
      rw [textOf, List.flatMap_cons, codeOf, List.flatMap_cons, List.count_append]
      rw [← textOf, heq, List.count_append, hcount brace hbrace, ih h.2 hplain.2, codeOf]

/-! ## The check -/

/-- The word that declares a type. -/
def declaring : List Char := "export type ".toList

/-- The check of a divided text looks at the text for the word, and at the structural text for the braces. -/
theorem checkDeclarations_eq {text : String} {pieces : List Piece} (htext : text.toList = textOf pieces)
    (hdivided : Divided pieces) (hplain : Plain pieces) :
    checkDeclarations text =
      if occursIn declaring text.toList then
        if (codeOf pieces).count '\x7b' = (codeOf pieces).count '\x7d' then .ok ()
        else .error (.unbalanced ((codeOf pieces).count '\x7b') ((codeOf pieces).count '\x7d'))
      else .error .noTypes := by
  rw [← count_skeleton_textOf hdivided hplain '\x7b' (.inl rfl),
    ← count_skeleton_textOf hdivided hplain '\x7d' (.inr rfl), ← htext]
  rfl

/-- **What the check takes for sound.** Let a text be divided into comments, literals and structural text,
without anything that is mistaken: a comment to the end of a line with what opens something or a brace in it,
or a string with an escaped quote or line break. Then the text is taken for sound exactly if it has the word
that declares a type in it, anywhere, and there are as many opening as closing braces in its structural text.
If it is not, the error says which of the two it is. -/
theorem checkDeclarations_divided {text : String} {pieces : List Piece} (htext : text.toList = textOf pieces)
    (hdivided : Divided pieces) (hplain : Plain pieces) :
    (checkDeclarations text = .ok () ↔ declaring <:+: text.toList ∧
      (codeOf pieces).count '\x7b' = (codeOf pieces).count '\x7d') ∧
    ∀ reason, checkDeclarations text = .error reason ↔
      (¬declaring <:+: text.toList ∧ reason = .noTypes) ∨
        (declaring <:+: text.toList ∧ (codeOf pieces).count '\x7b' ≠ (codeOf pieces).count '\x7d' ∧
          reason = .unbalanced ((codeOf pieces).count '\x7b') ((codeOf pieces).count '\x7d')) := by
  rw [checkDeclarations_eq htext hdivided hplain, ← occursIn_iff]
  generalize (codeOf pieces).count '\x7b' = opened
  generalize (codeOf pieces).count '\x7d' = closed
  by_cases hword : occursIn declaring text.toList = true
  · rw [if_pos hword]
    by_cases hcount : opened = closed
    · rw [if_pos hcount]
      simp [hword, hcount]
    · rw [if_neg hcount]
      simp [hword, hcount, eq_comm]
  · rw [if_neg hword]
    simp [hword, eq_comm]

/-- A comment with an apostrophe, strings with braces and the other quote, and structural text. -/
def samplePieces : List Piece :=
  [.lineComment "don't".toList, .structural '\n', .blockComment " \x7b \"".toList] ++
    "export type A = \x7b a: ".toList.map .structural ++
    [.quoted '\'' "\x7d\"".toList, .structural '|', .quoted '"' "\\'".toList, .structural '\x7d']

theorem checkDeclarations_divided_samplePieces :
    Divided samplePieces ∧ Plain samplePieces ∧
      checkDeclarations (String.ofList (textOf samplePieces)) = .ok () := by
  have hdivided : Divided samplePieces := by decide +kernel
  have hplain : Plain samplePieces := by decide +kernel
  have htext : (String.ofList (textOf samplePieces)).toList = textOf samplePieces := String.toList_ofList
  refine ⟨hdivided, hplain, (checkDeclarations_divided htext hdivided hplain).1.mpr ⟨?_, ?_⟩⟩
  · rw [htext]
    decide +kernel
  · decide +kernel

/-- A comment. -/
def commentPieces : List Piece := [.blockComment " export type A = \x7b\x7d ".toList]

/-- A closing brace, and an opening one behind it. -/
def crossedPieces : List Piece := "\x7dexport type A = \x7b".toList.map .structural

/-- What declares a type in a comment, and braces that are not nested, are taken for sound. -/
theorem checkDeclarations_unsound :
    (Divided commentPieces ∧ "/* export type A = \x7b\x7d */".toList = textOf commentPieces ∧
      ¬declaring <:+: codeOf commentPieces ∧
      checkDeclarations "/* export type A = \x7b\x7d */" = .ok ()) ∧
    Divided crossedPieces ∧ "\x7dexport type A = \x7b".toList = textOf crossedPieces ∧
      ¬ProperlyNested (codeOf crossedPieces) ∧
      checkDeclarations "\x7dexport type A = \x7b" = .ok () := by
  have hcomment : "/* export type A = \x7b\x7d */".toList = textOf commentPieces := by decide +kernel
  have hcrossed : "\x7dexport type A = \x7b".toList = textOf crossedPieces := by decide +kernel
  refine ⟨⟨by decide +kernel, hcomment, by decide +kernel, ?_⟩, by decide +kernel, hcrossed, ?_, ?_⟩
  · rw [checkDeclarations_eq hcomment (by decide +kernel) (by decide +kernel)]
    decide +kernel
  · intro h
    have hfirst := h.1 ['\x7d'] (by decide +kernel)
    cases hfirst
  · rw [checkDeclarations_eq hcrossed (by decide +kernel) (by decide +kernel)]
    decide +kernel

end ContentTypes.TypeScript
