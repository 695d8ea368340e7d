/-
References to types, as fields, arguments and variables declare them.

A reference names a type and wraps it in lists; every layer is nullable or
not.  Non-null is part of each constructor, so that it cannot be applied
twice.
-/
import GraphQLEngine.Name

namespace GraphQLEngine

/-- A reference to a type. -/
inductive TypeRef where
  /-- A named type that admits null. -/
  | named (name : Name)
  /-- A named type without null. -/
  | nonNullNamed (name : Name)
  /-- A list that may itself be null. -/
  | list (item : TypeRef)
  /-- A list that is never null. -/
  | nonNullList (item : TypeRef)
deriving DecidableEq, Inhabited

namespace TypeRef

/-- The same type without null. -/
def nonNull : TypeRef → TypeRef
  | .named name => .nonNullNamed name
  | .list item => .nonNullList item
  | .nonNullNamed name => .nonNullNamed name
  | .nonNullList item => .nonNullList item

/-- The same type with null. -/
def nullable : TypeRef → TypeRef
  | .nonNullNamed name => .named name
  | .nonNullList item => .list item
  | .named name => .named name
  | .list item => .list item

/-- The type of the items of a list type. -/
def item? : TypeRef → Option TypeRef
  | .list item => some item
  | .nonNullList item => some item
  | .named _ => none
  | .nonNullNamed _ => none

/-- The name below all lists. -/
def innerName : TypeRef → Name
  | .named name => name
  | .nonNullNamed name => name
  | .list item => item.innerName
  | .nonNullList item => item.innerName

def isNonNull : TypeRef → Bool
  | .nonNullNamed _ => true
  | .nonNullList _ => true
  | .named _ => false
  | .list _ => false

def isList : TypeRef → Bool
  | .list _ => true
  | .nonNullList _ => true
  | .named _ => false
  | .nonNullNamed _ => false

/-- The reference in the notation of the query language. -/
def text : TypeRef → String
  | .named name => name
  | .nonNullNamed name => name ++ "!"
  | .list item => "[" ++ item.text ++ "]"
  | .nonNullList item => "[" ++ item.text ++ "]!"

instance : ToString TypeRef := ⟨text⟩

end TypeRef

end GraphQLEngine
