/-!
# The skeleton of a text

The skeleton of TypeScript text is what is left when block comments and quoted text are taken out.
The text is read from left to right: a token starts where its opener is followed by a closer, for a
single or double quote on the same line; an opener without a closer is text like any other.

Declarations are sound if they declare a type and the braces of their skeleton are as many open as
closed.
-/

set_option autoImplicit false

namespace ContentTypes.TypeScript

/-- What follows the first end of a comment. -/
def afterComment? : List Char → Option (List Char)
  | [] => none
  | '*' :: '/' :: rest => some rest
  | _ :: rest => afterComment? rest

/-- What follows the first closing quote that comes before any character `stop` forbids. -/
def afterQuote? (quote : Char) (stop : Char → Bool) : List Char → Option (List Char)
  | [] => none
  | c :: rest =>
      if c = quote then some rest else if stop c then none else afterQuote? quote stop rest

/-- What follows the comment or quoted text that starts here, if one does. -/
def afterToken? : List Char → Option (List Char)
  | '/' :: '*' :: rest => afterComment? rest
  | '\'' :: rest => afterQuote? '\'' (· = '\n') rest
  | '"' :: rest => afterQuote? '"' (· = '\n') rest
  | '`' :: rest => afterQuote? '`' (fun _ => false) rest
  | _ => none

theorem length_le_of_afterComment? {s rest : List Char} (h : afterComment? s = some rest) :
    rest.length ≤ s.length := by
  fun_induction afterComment? s with
  | case1 => cases h
  | case2 => cases h; simp only [List.length_cons]; omega
  | case3 c s _ ih => have := ih h; simp only [List.length_cons]; omega

theorem length_le_of_afterQuote? {quote : Char} {stop : Char → Bool} {s rest : List Char}
    (h : afterQuote? quote stop s = some rest) : rest.length ≤ s.length := by
  induction s with
  | nil => cases h
  | cons c s ih =>
      unfold afterQuote? at h
      split at h
      · cases h; simp
      · split at h
        · cases h
        · have := ih h; simp only [List.length_cons]; omega

theorem length_lt_of_afterToken? {s rest : List Char} (h : afterToken? s = some rest) :
    rest.length < s.length := by
  unfold afterToken? at h
  split at h
  · have := length_le_of_afterComment? h; simp only [List.length_cons]; omega
  · have := length_le_of_afterQuote? h; simp only [List.length_cons]; omega
  · have := length_le_of_afterQuote? h; simp only [List.length_cons]; omega
  · have := length_le_of_afterQuote? h; simp only [List.length_cons]; omega
  · cases h

/-- The text without its comments and quoted text. -/
def skeleton (s : List Char) : List Char :=
  match s with
  | [] => []
  | c :: rest =>
      match _h : afterToken? (c :: rest) with
      | some rest' => skeleton rest'
      | none => c :: skeleton rest
termination_by s.length
decreasing_by
  · exact length_lt_of_afterToken? _h
  · simp

/-- Whether the word occurs in the text. -/
def occursIn (word : List Char) : List Char → Bool
  | [] => word.isEmpty
  | c :: rest => word.isPrefixOf (c :: rest) || occursIn word rest

/-- Why declarations are not sound. -/
inductive Unsound where
  | noTypes
  | unbalanced (opened closed : Nat)
  deriving DecidableEq, Repr

/-- The wording of a reason. -/
def Unsound.message : Unsound → String
  | .noTypes => "Generated declarations contain no type definitions"
  | .unbalanced opened closed =>
      s!"Generated declarations have unbalanced braces: {opened} open, {closed} close"

/-- Checks that declarations are sound. -/
def checkDeclarations (text : String) : Except Unsound Unit :=
  if occursIn "export type ".toList text.toList then
    let bones := skeleton text.toList
    if bones.count '\x7b' = bones.count '\x7d' then .ok ()
    else .error (.unbalanced (bones.count '\x7b') (bones.count '\x7d'))
  else .error .noTypes

end ContentTypes.TypeScript
