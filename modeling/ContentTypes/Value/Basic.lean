import ContentTypes.KeyedList
import ContentTypes.Number.Floating

/-!
# Values

The values of JSON, with whole and floating-point numbers kept apart and the members of an object
kept in order. `Value.holds` is the truth of a value where one stands for a yes or no, and `Kind`
names what sort of value was found.
-/

set_option autoImplicit false

namespace ContentTypes

/-- A JSON value. -/
inductive Value where
  | null
  | bool (b : Bool)
  | int (n : Int)
  | float (x : Floating)
  | str (s : String)
  | arr (items : List Value)
  | obj (members : List (String × Value))
  deriving Repr, Inhabited

/-- The members of an object, in order. -/
abbrev Members := List (String × Value)

/-- The sort of a value. -/
inductive Kind where
  | null | bool | int | float | str | arr | obj
  deriving DecidableEq, Repr

/-- The name of a sort of value in messages. -/
def Kind.name : Kind → String
  | .null => "NoneType"
  | .bool => "bool"
  | .int => "int"
  | .float => "float"
  | .str => "str"
  | .arr => "list"
  | .obj => "dict"

namespace Value

/-- The sort of a value. -/
def kind : Value → Kind
  | .null => .null
  | .bool _ => .bool
  | .int _ => .int
  | .float _ => .float
  | .str _ => .str
  | .arr _ => .arr
  | .obj _ => .obj

/-- Whether the value counts as yes: null, false, zero and whatever is empty do not. -/
def holds : Value → Bool
  | .null => false
  | .bool b => b
  | .int n => n != 0
  | .float x => !x.isZero
  | .str s => s != ""
  | .arr items => !items.isEmpty
  | .obj members => !members.isEmpty

/-- Whether the value is null. -/
def isNull : Value → Bool
  | .null => true
  | _ => false

/-- Whether the value is neither a list nor an object. -/
def isScalar : Value → Bool
  | .arr _ => false
  | .obj _ => false
  | _ => true

/-- A value of which null says that there is none. -/
def toOption : Value → Option Value
  | .null => none
  | v => some v

end Value

namespace Members

/-- Sets a member. -/
def set (members : Members) (key : String) (value : Value) : Members :=
  KeyedList.upsert (· == ·) key value members

/-- Sets the members of a second object. -/
def setAll (members changes : Members) : Members := KeyedList.update (· == ·) members changes

end Members

/-- What a look-up finds is smaller than the members it is found in. -/
theorem sizeOf_lt_of_lookup {members : Members} {key : String} {value : Value}
    (h : members.lookup key = some value) : sizeOf value < sizeOf members := by
  induction members with
  | nil => simp at h
  | cons m rest ih =>
      obtain ⟨k, v⟩ := m
      rw [List.lookup_cons] at h
      split at h
      · cases h
        simp only [List.cons.sizeOf_spec, Prod.mk.sizeOf_spec]
        omega
      · have := ih h
        simp only [List.cons.sizeOf_spec]
        omega

/-- The empty list is smaller than any object. -/
theorem sizeOf_nil_lt_obj (members : Members) :
    sizeOf ([] : List Value) < sizeOf (Value.obj members) := by
  cases members with
  | nil => simp
  | cons m rest =>
      simp only [List.nil.sizeOf_spec, Value.obj.sizeOf_spec, List.cons.sizeOf_spec]
      omega

end ContentTypes
