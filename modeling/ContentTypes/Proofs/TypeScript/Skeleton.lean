import ContentTypes.Proofs.TypeScript.Token

/-!
# Texts that close what they open

The scan that leaves comments and quoted text out of a module runs from left to right over all of it,
so a quote that stays open in one place may take away braces anywhere behind it. `ScansTo` says that a
text, scanned alone, leaves nothing open, and what the scan leaves of it. Such texts may be put one
behind the other (`ScansTo.append`), as long as a slash and a star do not come together where they
meet.

A text in a module also has braces that other texts close. `Passes d text d'` says that the text takes
a scan from the depth `d` of open braces to the depth `d'`; a module is sound if it passes from no open
brace to none (`Passes.properlyNested`).
-/

set_option autoImplicit false

namespace ContentTypes.TypeScript

/-! ## Tokens in front of something else -/

theorem afterComment?_append_of_some {s rest : List Char} (more : List Char)
    (h : afterComment? s = some rest) : afterComment? (s ++ more) = some (rest ++ more) := by
  fun_induction afterComment? s with
  | case1 => cases h
  | case2 rest' =>
      cases h
      rfl
  | case3 c s hne ih =>
      rw [List.cons_append, afterComment?]
      · exact ih h
      · -- a slash behind the star would be one of `more`, but then the comment had no end
        rintro s' rfl heq
        cases s with
        | nil => cases h
        | cons c' s =>
            obtain ⟨rfl, -⟩ := List.cons.inj heq
            exact hne s rfl rfl

theorem afterQuote?_append_of_some {quote : Char} {stop : Char → Bool} {s rest : List Char}
    (more : List Char) (h : afterQuote? quote stop s = some rest) :
    afterQuote? quote stop (s ++ more) = some (rest ++ more) := by
  induction s with
  | nil => cases h
  | cons c s ih =>
      rw [List.cons_append, afterQuote?]
      rw [afterQuote?] at h
      split at h
      · cases h
        rw [if_pos ‹_›]
      · rw [if_neg ‹_›]
        split at h
        · cases h
        · rw [if_neg ‹_›]
          exact ih h

/-- What follows a token is followed by what is put behind it. -/
theorem afterToken?_append_of_some {s rest : List Char} (more : List Char)
    (h : afterToken? s = some rest) : afterToken? (s ++ more) = some (rest ++ more) := by
  unfold afterToken? at h
  split at h
  · exact afterComment?_append_of_some more h
  · exact afterQuote?_append_of_some more h
  · exact afterQuote?_append_of_some more h
  · exact afterQuote?_append_of_some more h
  · cases h

theorem suffix_of_afterComment? {s rest : List Char} (h : afterComment? s = some rest) :
    rest <:+ s := by
  fun_induction afterComment? s with
  | case1 => cases h
  | case2 rest' =>
      cases h
      exact ⟨['*', '/'], rfl⟩
  | case3 c s _ ih => exact (ih h).trans (List.suffix_cons c s)

theorem suffix_of_afterQuote? {quote : Char} {stop : Char → Bool} {s rest : List Char}
    (h : afterQuote? quote stop s = some rest) : rest <:+ s := by
  induction s with
  | nil => cases h
  | cons c s ih =>
      rw [afterQuote?] at h
      split at h
      · cases h
        exact List.suffix_cons c _
      · split at h
        · cases h
        · exact (ih h).trans (List.suffix_cons c s)

/-- What follows a token is the end of the text. -/
theorem suffix_of_afterToken? {s rest : List Char} (h : afterToken? s = some rest) : rest <:+ s := by
  unfold afterToken? at h
  split at h
  · exact (suffix_of_afterComment? h).trans ⟨['/', '*'], rfl⟩
  · exact (suffix_of_afterQuote? h).trans (List.suffix_cons _ _)
  · exact (suffix_of_afterQuote? h).trans (List.suffix_cons _ _)
  · exact (suffix_of_afterQuote? h).trans (List.suffix_cons _ _)
  · cases h

/-- Whether a comment or quoted text opens here, be it closed or not. -/
def opensToken : List Char → Bool
  | '/' :: '*' :: _ => true
  | c :: _ => c = '\'' || c = '"' || c = '`'
  | [] => false

theorem afterToken?_of_opensToken {s : List Char} (h : opensToken s = false) :
    afterToken? s = none := by
  unfold afterToken?
  split
  · cases h
  · cases h
  · cases h
  · cases h
  · rfl

/-! ## Scans -/

/-- A text of which a scan closes every comment and quoted text that it opens, with what it leaves of
the text. -/
inductive ScansTo : List Char → List Char → Prop where
  | nil : ScansTo [] []
  | token {s rest bones : List Char} :
      afterToken? s = some rest → ScansTo rest bones → ScansTo s bones
  | plain {c : Char} {rest bones : List Char} :
      opensToken (c :: rest) = false → ScansTo rest bones → ScansTo (c :: rest) (c :: bones)

theorem skeleton_of_afterToken? {s rest : List Char} (h : afterToken? s = some rest) :
    skeleton s = skeleton rest := by
  cases s with
  | nil => cases h
  | cons c s =>
      rw [skeleton]
      split
      · rename_i heq
        rw [h] at heq
        cases heq
        rfl
      · rename_i heq
        rw [h] at heq
        cases heq

theorem skeleton_of_afterToken?_eq_none {c : Char} {s : List Char} (h : afterToken? (c :: s) = none) :
    skeleton (c :: s) = c :: skeleton s := by
  rw [skeleton]
  split
  · rename_i heq
    rw [h] at heq
    cases heq
  · rfl

theorem skeleton_of_opensToken {c : Char} {s : List Char} (h : opensToken (c :: s) = false) :
    skeleton (c :: s) = c :: skeleton s :=
  skeleton_of_afterToken?_eq_none (afterToken?_of_opensToken h)

/-- What a scan leaves is the skeleton. -/
theorem ScansTo.skeleton_eq {s bones : List Char} (h : ScansTo s bones) : skeleton s = bones := by
  induction h with
  | nil => rw [skeleton]
  | token htoken _ ih => rw [skeleton_of_afterToken? htoken, ih]
  | plain hplain _ ih => rw [skeleton_of_opensToken hplain, ih]

/-- Two texts that do not make the opening of a comment where they meet. -/
def Joins (s s' : List Char) : Prop := s.getLast? = some '/' → s'.head? ≠ some '*'

theorem Joins.of_suffix {front s s' : List Char} (h : Joins s s') (hsuffix : front <:+ s) :
    Joins front s' := by
  intro hlast
  apply h
  obtain ⟨before, rfl⟩ := hsuffix
  rw [List.getLast?_append, hlast, Option.some_or]

theorem opensToken_append {c : Char} {s s' : List Char} (h : opensToken (c :: s) = false)
    (hjoins : Joins (c :: s) s') : opensToken (c :: (s ++ s')) = false := by
  by_cases hslash : c = '/'
  · subst hslash
    cases s with
    | cons c' s =>
        by_cases hstar : c' = '*'
        · subst hstar
          cases h
        · simp [opensToken, hstar]
    | nil =>
        -- the slash is the last character, and the first one behind it no star
        have hstar := hjoins rfl
        cases s' with
        | nil => rfl
        | cons c' s' =>
            have hne : c' ≠ '*' := by simpa using hstar
            simp [opensToken, hne]
  · simpa [opensToken, hslash] using h

/-- Texts that leave nothing open leave nothing open one behind the other. -/
theorem ScansTo.append {s s' bones bones' : List Char} (h : ScansTo s bones)
    (h' : ScansTo s' bones') (hjoins : Joins s s') : ScansTo (s ++ s') (bones ++ bones') := by
  induction h with
  | nil => exact h'
  | token htoken _ ih =>
      have hrest := hjoins.of_suffix (suffix_of_afterToken? htoken)
      exact .token (afterToken?_append_of_some s' htoken) (ih hrest)
  | plain hplain _ ih =>
      have hrest := hjoins.of_suffix (List.suffix_cons _ _)
      exact .plain (opensToken_append hplain hjoins) (ih hrest)

/-! ## Braces -/

/-- Braces that are nested: no beginning of the text closes more than it opens, and the whole text closes
as many as it opens. -/
def ProperlyNested (s : List Char) : Prop :=
  (∀ front, front <+: s → front.count '\x7d' ≤ front.count '\x7b') ∧ s.count '\x7b' = s.count '\x7d'

/-- The braces of a text from one depth of open braces to another: no beginning of the text closes more
than is open, and behind the text the second depth is open. -/
structure Nests (depth : Nat) (s : List Char) (depth' : Nat) : Prop where
  covered : ∀ front, front <+: s → front.count '\x7d' ≤ depth + front.count '\x7b'
  balanced : depth + s.count '\x7b' = depth' + s.count '\x7d'

theorem Nests.append {depth depth' depth'' : Nat} {s s' : List Char} (h : Nests depth s depth')
    (h' : Nests depth' s' depth'') : Nests depth (s ++ s') depth'' := by
  have htotal := h.balanced
  refine ⟨?_, ?_⟩
  · intro front hfront
    rcases List.prefix_or_prefix_of_prefix hfront (List.prefix_append s s') with hin | ⟨behind, rfl⟩
    · exact h.covered front hin
    · -- the beginning ends in the second text, where the first one is closed as far as it goes
      have hbehind := h'.covered behind ((List.prefix_append_right_inj s).mp hfront)
      rw [List.count_append, List.count_append]
      omega
  · have htotal' := h'.balanced
    rw [List.count_append, List.count_append]
    omega

theorem nests_nil (depth : Nat) : Nests depth [] depth := by
  refine ⟨?_, rfl⟩
  intro front hfront
  rw [List.prefix_nil.mp hfront]
  exact Nat.zero_le _

/-- Braces that are nested are nested at every depth. -/
theorem ProperlyNested.nests {s : List Char} (h : ProperlyNested s) (depth : Nat) :
    Nests depth s depth := by
  refine ⟨?_, ?_⟩
  · intro front hfront
    exact Nat.le_trans (h.1 front hfront) (Nat.le_add_left _ _)
  · rw [h.2]

theorem Nests.properlyNested {s : List Char} (h : Nests 0 s 0) : ProperlyNested s := by
  refine ⟨?_, ?_⟩
  · intro front hfront
    have := h.covered front hfront
    omega
  · have := h.balanced
    omega

/-- The depth of open braces behind a character, unless it closes one too many. -/
def depthBehind (depth : Nat) (c : Char) : Option Nat :=
  if c = '\x7b' then some (depth + 1)
  else if c = '\x7d' then if depth = 0 then none else some (depth - 1)
  else some depth

theorem nests_of_depthBehind {depth depth' : Nat} {c : Char} (h : depthBehind depth c = some depth') :
    Nests depth [c] depth' := by
  have hshape (hcovered : [c].count '\x7d' ≤ depth + [c].count '\x7b')
      (hbalanced : depth + [c].count '\x7b' = depth' + [c].count '\x7d') : Nests depth [c] depth' := by
    refine ⟨?_, hbalanced⟩
    intro front hfront
    rcases List.prefix_cons_iff.mp hfront with rfl | ⟨rest, rfl, hrest⟩
    · exact Nat.zero_le _
    · rwa [List.prefix_nil.mp hrest]
  unfold depthBehind at h
  by_cases hopen : c = '\x7b'
  · subst hopen
    rw [if_pos rfl] at h
    cases h
    exact hshape (Nat.zero_le _) rfl
  rw [if_neg hopen] at h
  by_cases hclose : c = '\x7d'
  · subst hclose
    rw [if_pos rfl] at h
    by_cases hzero : depth = 0
    · rw [if_pos hzero] at h
      cases h
    · rw [if_neg hzero] at h
      cases h
      apply hshape
      · simp
        omega
      · simp
        omega
  · rw [if_neg hclose] at h
    cases h
    apply hshape
    · simp [hclose]
    · simp [hopen, hclose]

/-- A text that is followed character by character nests its braces. -/
theorem nests_of_foldlM {depth depth' : Nat} {s : List Char}
    (h : s.foldlM depthBehind depth = some depth') : Nests depth s depth' := by
  induction s generalizing depth with
  | nil =>
      cases h
      exact nests_nil _
  | cons c s ih =>
      rw [List.foldlM_cons] at h
      obtain ⟨next, hnext, hrest⟩ := Option.bind_eq_some_iff.mp h
      exact (nests_of_depthBehind hnext).append (ih hrest)

/-! ## Texts in a module -/

/-- A text that leaves nothing open and takes the braces from one depth to another, wherever in a module
it stands. -/
structure Passes (depth : Nat) (text : String) (depth' : Nat) : Prop where
  start : text.toList.head? ≠ some '*'
  scan : ∃ bones, ScansTo text.toList bones ∧ Nests depth bones depth'

/-- The skeleton of a text that passes from no open brace to none is properly nested. -/
theorem Passes.properlyNested {text : String} (h : Passes 0 text 0) :
    ProperlyNested (skeleton text.toList) := by
  obtain ⟨bones, hscan, hnests⟩ := h.scan
  rw [hscan.skeleton_eq]
  exact hnests.properlyNested

/-- A text that leaves nothing open passes behind another, where the two do not open a comment between
them. -/
theorem Passes.append_of_joins {depth depth' depth'' : Nat} {text text' : String} {bones : List Char}
    (h : Passes depth text depth') (hscan : ScansTo text'.toList bones)
    (hnests : Nests depth' bones depth'') (hjoins : Joins text.toList text'.toList)
    (hstart : text.toList = [] → text'.toList.head? ≠ some '*') :
    Passes depth (text ++ text') depth'' := by
  obtain ⟨bones', hscan', hnests'⟩ := h.scan
  refine ⟨?_, bones' ++ bones, ?_, hnests'.append hnests⟩
  · rw [String.toList_append, List.head?_append]
    cases hhead : text.toList.head? with
    | none => exact hstart (List.head?_eq_none_iff.mp hhead)
    | some c =>
        have hfirst := h.start
        rwa [hhead] at hfirst
  · rw [String.toList_append]
    exact hscan'.append hscan hjoins

theorem Passes.append {depth depth' depth'' : Nat} {text text' : String}
    (h : Passes depth text depth') (h' : Passes depth' text' depth'') :
    Passes depth (text ++ text') depth'' := by
  obtain ⟨bones, hscan, hnests⟩ := h'.scan
  exact h.append_of_joins hscan hnests (fun _ => h'.start) (fun _ => h'.start)

/-- Characters that neither open a comment or quoted text nor, behind a slash, would. -/
def isQuiet (c : Char) : Bool := c != '\'' && c != '"' && c != '`' && c != '*'

theorem opensToken_of_quiet {c : Char} {s : List Char} (h : ∀ c' ∈ c :: s, isQuiet c' = true) :
    opensToken (c :: s) = false := by
  unfold opensToken
  split
  · rename_i rest heq
    have hstar := h '*' (by rw [heq]; simp)
    cases hstar
  · rename_i c' rest _ heq
    obtain ⟨rfl, -⟩ := List.cons.inj heq
    have hquiet := h c (by simp)
    simp only [isQuiet, Bool.and_eq_true, bne_iff_ne] at hquiet
    simp [hquiet]
  · rfl

theorem scansTo_of_quiet {s : List Char} (h : ∀ c ∈ s, isQuiet c = true) : ScansTo s s := by
  induction s with
  | nil => exact .nil
  | cons c s ih =>
      exact .plain (opensToken_of_quiet h) (ih fun c' hc' => h c' (List.mem_cons_of_mem c hc'))

/-- A text without quotes and stars passes as its braces say. -/
theorem passes_of_quiet {depth depth' : Nat} {text : String} (h : text.toList.all isQuiet = true)
    (hbraces : text.toList.foldlM depthBehind depth = some depth') : Passes depth text depth' := by
  rw [List.all_eq_true] at h
  refine ⟨?_, _, scansTo_of_quiet h, nests_of_foldlM hbraces⟩
  intro hhead
  have := h '*' (List.mem_of_head? hhead)
  cases this

/-- Quoted text ends at its first closing quote. -/
theorem afterQuote?_append {quote : Char} {stop : Char → Bool} {body : List Char}
    (h : ∀ c ∈ body, c ≠ quote ∧ stop c = false) (rest : List Char) :
    afterQuote? quote stop (body ++ quote :: rest) = some rest := by
  induction body with
  | nil =>
      rw [List.nil_append, afterQuote?, if_pos rfl]
  | cons c body ih =>
      obtain ⟨⟨hquote, hstop⟩, hbody⟩ := List.forall_mem_cons.mp h
      rw [List.cons_append, afterQuote?, if_neg hquote, if_neg (ne_true_of_eq_false hstop)]
      exact ih hbody

theorem afterQuote?_of_quotable {text : String} (h : IsQuotable text) (rest : List Char) :
    afterQuote? '\'' (· = '\n') (text.toList ++ '\'' :: rest) = some rest :=
  afterQuote?_append (fun c hc => ⟨(h c hc).1, decide_eq_false (h c hc).2⟩) rest

/-- A text that is one token passes. -/
theorem passes_of_afterToken? (depth : Nat) {text : String}
    (h : afterToken? text.toList = some []) : Passes depth text depth := by
  refine ⟨?_, [], .token h .nil, nests_nil depth⟩
  intro hhead
  obtain ⟨s, hs⟩ := List.head?_eq_some_iff.mp hhead
  rw [hs] at h
  cases h

/-- Quoted text passes, whatever braces and openings it holds. -/
theorem passes_quoted (depth : Nat) {text : String} (h : IsQuotable text) :
    Passes depth ("'" ++ text ++ "'") depth := by
  apply passes_of_afterToken?
  have htext : ("'" ++ text ++ "'").toList = '\'' :: (text.toList ++ ['\'']) := by simp
  rw [htext]
  exact afterQuote?_of_quotable h []

/-- Quoted text passes behind another text. -/
theorem Passes.quoted {depth depth' : Nat} {text text' : String} (h : Passes depth text depth')
    (h' : IsQuotable text') : Passes depth (text ++ "'" ++ text' ++ "'") depth' := by
  have htext : text ++ "'" ++ text' ++ "'" = text ++ ("'" ++ text' ++ "'") := by
    simp only [String.append_assoc]
  rw [htext]
  exact h.append (passes_quoted depth' h')

/-- A comment passes, whatever braces and quotes it holds. -/
theorem passes_comment (depth : Nat) {text : String} (h : IsRemark text) :
    Passes depth ("/** " ++ text ++ " */") depth := by
  apply passes_of_afterToken?
  have htext : ("/** " ++ text ++ " */").toList =
      '/' :: '*' :: '*' :: ' ' :: (text.toList ++ [' ', '*', '/']) := by simp
  rw [htext]
  exact afterComment?_remark [] h

/-- A name passes. -/
theorem passes_name (depth : Nat) {text : String} (h : IsIdentifier text) :
    Passes depth text depth := by
  have hpart := h.isNamePart
  have hquiet : text.toList.all isQuiet = true := by
    rw [List.all_eq_true]
    intro c hc
    have hne {d : Char} (hd : isNamePart d = false) : c ≠ d := ne_of_isNamePart (hpart c hc) hd
    simp only [isQuiet, Bool.and_eq_true, bne_iff_ne]
    exact ⟨⟨⟨hne (by decide), hne (by decide)⟩, hne (by decide)⟩, hne (by decide)⟩
  refine passes_of_quiet hquiet ?_
  clear hquiet h
  generalize text.toList = s at hpart ⊢
  induction s with
  | nil => rfl
  | cons c s ih =>
      rw [List.forall_mem_cons] at hpart
      have hne {d : Char} (hd : isNamePart d = false) : c ≠ d := ne_of_isNamePart hpart.1 hd
      have hstep : depthBehind depth c = some depth := by
        rw [depthBehind, if_neg (hne (by decide)), if_neg (hne (by decide))]
      rw [List.foldlM_cons, hstep]
      exact ih hpart.2

theorem passes_empty (depth : Nat) : Passes depth "" depth := passes_of_quiet rfl rfl

/-! ## Several texts -/

/-- Texts of which each passes from where the one before it ends. -/
inductive PassesAll : Nat → List String → Nat → Prop where
  | nil {depth : Nat} : PassesAll depth [] depth
  | cons {depth depth' depth'' : Nat} {text : String} {texts : List String} :
      Passes depth text depth' → PassesAll depth' texts depth'' →
        PassesAll depth (text :: texts) depth''

theorem PassesAll.append {depth depth' depth'' : Nat} {texts texts' : List String}
    (h : PassesAll depth texts depth') (h' : PassesAll depth' texts' depth'') :
    PassesAll depth (texts ++ texts') depth'' := by
  induction h with
  | nil => exact h'
  | cons htext _ ih => exact .cons htext (ih h')

theorem passesAll_of_forall {depth : Nat} {texts : List String}
    (h : ∀ text ∈ texts, Passes depth text depth) : PassesAll depth texts depth := by
  induction texts with
  | nil => exact .nil
  | cons text texts ih =>
      rw [List.forall_mem_cons] at h
      exact .cons h.1 (ih h.2)

/-- Such texts pass when they are joined. -/
theorem PassesAll.join {depth depth' : Nat} {texts : List String} (h : PassesAll depth texts depth') :
    Passes depth (String.join texts) depth' := by
  induction h with
  | nil => exact passes_empty _
  | cons htext _ ih =>
      rw [String.join_cons]
      exact htext.append ih

/-- Such texts pass with separators between them that pass everywhere. -/
theorem PassesAll.intercalate {depth depth' : Nat} {separator : String} {texts : List String}
    (h : PassesAll depth texts depth') (hseparator : ∀ depth, Passes depth separator depth) :
    Passes depth (String.intercalate separator texts) depth' := by
  induction h with
  | nil => exact passes_empty _
  | @cons depth depth' depth'' text texts htext hrest ih =>
      cases texts with
      | nil =>
          cases hrest
          rwa [String.intercalate_singleton]
      | cons text' texts =>
          rw [String.intercalate_cons_cons]
          exact (htext.append (hseparator depth')).append ih

end ContentTypes.TypeScript
