/-!
# Places in a schema

A pointer is the way from the root of a schema to one of its nodes, by member names and positions in
lists.
-/

set_option autoImplicit false

namespace ContentTypes

/-- One step of the way to a node. -/
inductive Segment where
  | member (name : String)
  | item (index : Nat)
  deriving DecidableEq, Repr

/-- The way from the root to a node. -/
structure Pointer where
  segments : List Segment
  deriving DecidableEq, Repr

/-- A step as part of a pointer's text. -/
def Segment.display : Segment → String
  | .member name => name
  | .item index => toString index

namespace Pointer

/-- The root. -/
def root : Pointer := ⟨[]⟩

/-- The member of that name below a node. -/
def member (p : Pointer) (name : String) : Pointer := ⟨p.segments ++ [.member name]⟩

/-- The item at that position below a node. -/
def item (p : Pointer) (index : Nat) : Pointer := ⟨p.segments ++ [.item index]⟩

/-- The text of a pointer: the steps with a slash before each, behind a number sign for the root. -/
def display (p : Pointer) : String :=
  p.segments.foldl (fun text segment => text ++ "/" ++ segment.display) "#"

end Pointer

end ContentTypes
