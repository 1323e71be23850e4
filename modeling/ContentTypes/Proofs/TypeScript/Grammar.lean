import ContentTypes.Proofs.TypeScript.Token

/-!
# A grammar of type expressions

A type is a union of array types, separated by bars; an array type is a primary followed by any number
of pairs of brackets, which bind more tightly than a bar; a primary is a name, a literal between single
quotes, a type between parentheses, or a record between braces, with members on lines of their own,
each with a comment before it or without one.

What a text is derived as is the list of the branches of its union. A union between parentheses adds
its branches to the union it stands in, unless brackets follow.
-/

set_option autoImplicit false

namespace ContentTypes.TypeScript

/-- A branch of a union: anything but a union itself. -/
inductive Branch where
  | name (s : String)
  | literal (s : String)
  | array (item : List Branch)
  | record (members : List (String × List Branch))

/-- A member of a record: its name, and its type by the branches of it. -/
abbrev Member := String × List Branch

/-- Whether the character is a space or a line break. -/
def isBlank (c : Char) : Bool := c = ' ' || c = '\n'

/-- What a part of a type expression is. -/
inductive Phrase where
  | primary (branches : List Branch)
  | array (branches : List Branch)
  | type (branches : List Branch)
  | member (member : Member)
  | members (members : List Member)

/-- Whether a text is a part of a type expression. Spaces may stand around a type, and blanks and line
breaks before a member and at the end of a record. -/
inductive Derives : List Char → Phrase → Prop where
  | name {text : String} : IsIdentifier text → Derives text.toList (.primary [.name text])
  | literal {text : String} :
      IsQuotable text → Derives ('\'' :: (text.toList ++ ['\''])) (.primary [.literal text])
  | parentheses {s : List Char} {type : List Branch} :
      Derives s (.type type) → Derives ('(' :: (s ++ [')'])) (.primary type)
  | record {s : List Char} {members : List Member} :
      Derives s (.members members) → Derives ('\x7b' :: (s ++ ['\x7d'])) (.primary [.record members])
  | array {s : List Char} {type : List Branch} : Derives s (.primary type) → Derives s (.array type)
  | brackets {s : List Char} {type : List Branch} :
      Derives s (.array type) → Derives (s ++ ['[', ']']) (.array [.array type])
  | type {s : List Char} {type : List Branch} : Derives s (.array type) → Derives s (.type type)
  | bar {s s' : List Char} {type type' : List Branch} :
      Derives s (.type type) → Derives s' (.type type') →
        Derives (s ++ '|' :: s') (.type (type ++ type'))
  | spaceBefore {s : List Char} {type : List Branch} :
      Derives s (.type type) → Derives (' ' :: s) (.type type)
  | spaceBehind {s : List Char} {type : List Branch} :
      Derives s (.type type) → Derives (s ++ [' ']) (.type type)
  | member {name : String} {s : List Char} {type : List Branch} :
      IsIdentifier name → Derives s (.type type) →
        Derives (name.toList ++ ':' :: s) (.member (name, type))
  | describedMember {text blanks : List Char} {name : String} {s : List Char} {type : List Branch} :
      ¬['*', '/'] <:+: '*' :: text → (∀ c ∈ blanks, isBlank c = true) → IsIdentifier name →
        Derives s (.type type) →
        Derives ('/' :: '*' :: '*' :: (text ++ '*' :: '/' :: (blanks ++ (name.toList ++ ':' :: s))))
          (.member (name, type))
  | blankBeforeMember {c : Char} {s : List Char} {member : Member} :
      isBlank c = true → Derives s (.member member) → Derives (c :: s) (.member member)
  | noMember : Derives [] (.members [])
  | lastMember {s : List Char} {member : Member} :
      Derives s (.member member) → Derives s (.members [member])
  | memberLine {s s' : List Char} {member : Member} {members : List Member} :
      Derives s (.member member) → Derives s' (.members members) →
        Derives (s ++ '\n' :: s') (.members (member :: members))
  | blankBeforeMembers {c : Char} {s : List Char} {members : List Member} :
      isBlank c = true → Derives s (.members members) → Derives (c :: s) (.members members)

end ContentTypes.TypeScript
