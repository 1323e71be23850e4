import ContentTypes.Proofs.TypeScript.Division

/-!
# Scans of texts that are put together

The scan for comments and quoted text looks ahead, so what it leaves of a text depends on what stands behind
it: an opener without an end may find one there. `unclosed` gives the places of these openers. Where all of
them are quotes that a line break keeps from finding an end, the scan of the text goes the same way in front
of anything, and comes out at its end (`skeleton_append`).

A comment or literal behind such a text is then taken out whole, with whatever stands in it, and does not
change how the rest is scanned.
-/

set_option autoImplicit false

namespace ContentTypes.TypeScript

variable {a b rest s : List Char} {token : Piece}

/-! ## Openers without an end -/

/-- The text from each place on where the scan finds an opener and no end of it. -/
def unclosed (s : List Char) : List (List Char) :=
  match s with
  | [] => []
  | c :: rest =>
      match _h : afterToken? (c :: rest) with
      | some rest' => unclosed rest'
      | none => if opensToken (c :: rest) then (c :: rest) :: unclosed rest else unclosed rest
termination_by s.length
decreasing_by
  · exact length_lt_of_afterToken? _h
  · simp
  · simp

/-- Whether nothing that is put behind a text ends what the scan finds open in it: no comment and no template
is open, and no quote behind the last line break. -/
def EndsPlain (s : List Char) : Prop :=
  ∀ rest ∈ unclosed s, (rest.head? = some '\'' ∨ rest.head? = some '"') ∧ '\n' ∈ rest

instance : DecidablePred EndsPlain := fun s => List.decidableBAll _ (unclosed s)

/-- A quote that is not closed in front of what stops it is not closed by anything behind that. -/
theorem afterQuote?_append_of_none {quote : Char} {stop : Char → Bool} {c : Char} (hc : c ∈ s)
    (hstop : stop c = true) (h : afterQuote? quote stop s = none) (rest : List Char) :
    afterQuote? quote stop (s ++ rest) = none := by
  induction s with
  | nil => cases hc
  | cons c' s ih =>
      rw [List.cons_append, afterQuote?]
      rw [afterQuote?] at h
      split at h
      · cases h
      · rw [if_neg ‹_›]
        split at h
        · rw [if_pos ‹_›]
        · rw [if_neg ‹_›]
          rcases List.mem_cons.mp hc with rfl | hc
          · exact absurd hstop ‹_›
          · exact ih hc h

/-- A quote that is open where its line ends stays open in front of anything. -/
theorem afterToken?_append_of_none (hquote : s.head? = some '\'' ∨ s.head? = some '"')
    (hbreak : '\n' ∈ s) (h : afterToken? s = none) (rest : List Char) :
    afterToken? (s ++ rest) = none := by
  cases s with
  | nil => cases hbreak
  | cons c s =>
      have hs : '\n' ∈ s := by
        rcases List.mem_cons.mp hbreak with rfl | hs
        · simp at hquote
        · exact hs
      rcases hquote with hquote | hquote
      all_goals
        obtain rfl := Option.some.inj hquote
        exact afterQuote?_append_of_none hs (decide_eq_true rfl) h rest

/-! ## Scanning on -/

/-- The scan of a text that ends plain goes on behind it, in front of anything that does not open a comment
with its last character. -/
theorem skeleton_append (ha : EndsPlain a) (hjoins : Joins a rest) :
    skeleton (a ++ rest) = skeleton a ++ skeleton rest := by
  unfold EndsPlain at ha
  fun_induction unclosed a with
  | case1 =>
      rw [skeleton]
      rfl
  | case2 c a a' htoken ih =>
      rw [skeleton_of_afterToken? (afterToken?_append_of_some rest htoken), skeleton_of_afterToken? htoken]
      exact ih ha (hjoins.of_suffix (suffix_of_afterToken? htoken))
  | case3 c a htoken hopens ih =>
      rw [List.forall_mem_cons] at ha
      have htoken' := afterToken?_append_of_none ha.1.1 ha.1.2 htoken rest
      rw [List.cons_append] at htoken' ⊢
      rw [skeleton_of_afterToken?_eq_none htoken', skeleton_of_afterToken?_eq_none htoken,
        ih ha.2 (hjoins.of_suffix (List.suffix_cons c a)), List.cons_append]
  | case4 c a htoken hopens ih =>
      have hplain := opensToken_append (by simpa using hopens) hjoins
      rw [List.cons_append, skeleton_of_opensToken hplain, skeleton_of_afterToken?_eq_none htoken,
        ih ha (hjoins.of_suffix (List.suffix_cons c a)), List.cons_append]

theorem Piece.IsToken.head?_ne {b : List Char} (h : token.IsToken) : (token.text ++ b).head? ≠ some '*' := by
  cases token with
  | lineComment body => exact h.elim
  | structural c => exact h.elim
  | blockComment body => simp [Piece.text]
  | quoted quote body =>
      rcases h.1 with rfl | rfl <;> simp [Piece.text]
  | template body => simp [Piece.text]

/-- The scan of a text with a token in it is that of what stands in front and that of what stands behind. -/
theorem skeleton_around (ha : EndsPlain a) (ht : token.IsToken) (b : List Char) :
    skeleton (a ++ token.text ++ b) = skeleton a ++ skeleton b := by
  rw [List.append_assoc, skeleton_append ha fun _ => ht.head?_ne,
    skeleton_of_afterToken? (Piece.afterToken?_text b ht)]

/-! ## The check -/

/-- The check looks for the word that declares a type, and at the skeleton. -/
theorem checkDeclarations_congr {text text' : String}
    (hword : occursIn declaring text.toList = occursIn declaring text'.toList)
    (hskeleton : skeleton text.toList = skeleton text'.toList) :
    checkDeclarations text = checkDeclarations text' := by
  unfold checkDeclarations
  rw [hskeleton]
  exact if_congr (Bool.eq_iff_iff.mp hword) rfl rfl

/-- Whether the check counts as many opening as closing braces in a text. -/
def BracesBalance (s : List Char) : Prop := (skeleton s).count '\x7b' = (skeleton s).count '\x7d'

/-- **The inside of a comment or literal does not count.** Behind a text that ends plain, a comment or literal
adds nothing to the braces of a text: the check counts in the whole those in front of it and those behind it.
So another comment or literal in its place leaves the verdict on braces as it is, and the whole outcome, if
it does not bring in or take away the word that declares a type. -/
theorem checkDeclarations_around (ha : EndsPlain a) (ht : token.IsToken) (b : List Char) :
    (∀ brace, (skeleton (a ++ token.text ++ b)).count brace =
      (skeleton a).count brace + (skeleton b).count brace) ∧
    ∀ token' : Piece, token'.IsToken →
      (BracesBalance (a ++ token'.text ++ b) ↔ BracesBalance (a ++ token.text ++ b)) ∧
      ((declaring <:+: a ++ token'.text ++ b ↔ declaring <:+: a ++ token.text ++ b) →
        checkDeclarations (String.ofList (a ++ token'.text ++ b)) =
          checkDeclarations (String.ofList (a ++ token.text ++ b))) := by
  have hskeleton := skeleton_around ha ht b
  refine ⟨fun brace => ?_, fun token' ht' => ⟨?_, fun hdeclaring => ?_⟩⟩
  · rw [hskeleton, List.count_append]
  · rw [BracesBalance, BracesBalance, hskeleton, skeleton_around ha ht' b]
  · have hword : occursIn declaring (a ++ token'.text ++ b) = occursIn declaring (a ++ token.text ++ b) := by
      rw [Bool.eq_iff_iff, occursIn_iff, occursIn_iff, hdeclaring]
    apply checkDeclarations_congr
    · rw [String.toList_ofList, String.toList_ofList, hword]
    · rw [String.toList_ofList, String.toList_ofList, hskeleton, skeleton_around ha ht' b]

/-- The front of a declaration, with an apostrophe on the line before it. -/
def declarationFront : List Char := "don't\nexport type A = \x7b a: ".toList

/-- A literal with a closing brace and two openers in it. -/
def bracedLiteral : Piece := .quoted '"' "\x7d /* ' `".toList

/-- A comment with opening braces in it. -/
def bracedComment : Piece := .blockComment "\x7b\x7b '".toList

theorem checkDeclarations_around_declarationFront :
    EndsPlain declarationFront ∧ bracedLiteral.IsToken ∧ bracedComment.IsToken ∧
      (skeleton (declarationFront ++ bracedLiteral.text ++ [' ', '\x7d'])).count '\x7d' = 1 ∧
      BracesBalance (declarationFront ++ bracedComment.text ++ [' ', '\x7d']) ∧
      checkDeclarations (String.ofList (declarationFront ++ bracedComment.text ++ [' ', '\x7d'])) =
        checkDeclarations (String.ofList (declarationFront ++ bracedLiteral.text ++ [' ', '\x7d'])) := by
  have hfront : EndsPlain declarationFront := by decide +kernel
  have hliteral : bracedLiteral.IsToken := by decide
  have hcomment : bracedComment.IsToken := by decide
  obtain ⟨hcount, hverdict⟩ := checkDeclarations_around hfront hliteral [' ', '\x7d']
  obtain ⟨hbalance, hcheck⟩ := hverdict bracedComment hcomment
  refine ⟨hfront, hliteral, hcomment, ?_, hbalance.mpr ?_, hcheck ?_⟩
  · rw [hcount]
    decide +kernel
  · rw [BracesBalance, hcount, hcount]
    decide +kernel
  · decide +kernel

end ContentTypes.TypeScript
