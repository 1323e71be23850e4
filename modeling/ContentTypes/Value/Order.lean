import ContentTypes.Value.Basic

/-!
# Names as keys and in order

Definitions are keyed by their names and written in the order of their names. `Value.sameKey` says when
two names are one key: truth values count as the numbers one and zero, and numbers are compared by
value. `Value.same` is the same for values of all kinds, where objects are the same if each has the
members of the other, in any order.

`Value.before` orders texts among each other, by code point, numbers among each other, and lists among
each other by the first place where they differ. Other values have no order, and the comparison fails
with the kinds of the two that have none.
-/

set_option autoImplicit false

namespace ContentTypes

/-- The kinds of two values that have no order. -/
structure Unordered where
  left : Kind
  right : Kind
  deriving DecidableEq, Repr

namespace Value

/-- The number that a value stands for, if it is a number or a truth value. -/
def number? : Value → Option Floating
  | .bool b => some (Floating.ofInt (if b then 1 else 0))
  | .int n => some (Floating.ofInt n)
  | .float x => some x
  | _ => none

/-! ## Sameness -/

/-- Whether two numbers are one key. What is not a number is one key. -/
def sameNumber : Floating → Floating → Bool
  | .nan, .nan => true
  | x, y => Floating.compare? x y == some .eq

/-- Whether two names are one key. -/
def sameKey : Value → Value → Bool
  | .null, .null => true
  | .str s, .str t => s == t
  | v, w =>
      match v.number?, w.number? with
      | some x, some y => sameNumber x y
      | _, _ => false

mutual

/-- Whether two values are the same. -/
def same : Value → Value → Bool
  | .arr items, .arr items' => sameItems items items'
  | .obj members, .obj members' =>
      members.length == members'.length && sameMembers members members'
  | v, w => v.sameKey w

/-- Whether two lists have the same items. -/
def sameItems : List Value → List Value → Bool
  | [], [] => true
  | v :: items, w :: items' => same v w && sameItems items items'
  | _, _ => false

/-- Whether the members of the first object are also members of the second. -/
def sameMembers : List (String × Value) → List (String × Value) → Bool
  | [], _ => true
  | (key, v) :: members, members' =>
      (match members'.lookup key with
        | some w => same v w
        | none => false) && sameMembers members members'

end

/-! ## Order -/

mutual

/-- Whether the first value comes before the second, if the two are ordered at all. -/
def before : Value → Value → Except Unordered Bool
  | .str s, .str t => .ok (decide (s < t))
  | .arr items, .arr items' => itemsBefore items items'
  | v, w =>
      match v.number?, w.number? with
      | some x, some y => .ok (Floating.compare? x y == some .lt)
      | _, _ => .error ⟨v.kind, w.kind⟩

/-- Whether the first list comes before the second: by the first items that are not the same, or by
length if there are none. -/
def itemsBefore : List Value → List Value → Except Unordered Bool
  | [], items' => .ok !items'.isEmpty
  | _ :: _, [] => .ok false
  | v :: items, w :: items' => if same v w then itemsBefore items items' else before v w

end

end Value

end ContentTypes
