/-
Maps that remember the order in which their keys were first written.

A map is the plain list of its entries, so that it can stand inside a
recursive type.  Writing a key that is present changes its value and leaves
its place; writing a new one adds it at the end.  That keys stay distinct is
a consequence of building maps with `insert` and `ofList` only; it is not
part of the type.
-/

universe u

namespace GraphQLEngine

/-- The entries of a map with text keys, in order of first insertion. -/
abbrev OrderedMap (α : Type u) := List (String × α)

namespace OrderedMap

/-- The value of a key. -/
def get? {α : Type u} : OrderedMap α → String → Option α
  | [], _ => none
  | (k, a) :: rest, key => if k = key then some a else get? rest key

/-- Whether a key is present. -/
def contains {α : Type u} : OrderedMap α → String → Bool
  | [], _ => false
  | (k, _) :: rest, key => if k = key then true else contains rest key

/-- The keys in order. -/
def keys {α : Type u} (m : OrderedMap α) : List String :=
  m.map Prod.fst

/-- Writes an entry: in the place of an earlier one with the same key, else at the end. -/
def insert {α : Type u} : OrderedMap α → String → α → OrderedMap α
  | [], key, a => [(key, a)]
  | (k, b) :: rest, key, a => if k = key then (key, a) :: rest else (k, b) :: insert rest key a

/-- The map that results from writing the entries one after the other. -/
def ofList {α : Type u} (entries : List (String × α)) : OrderedMap α :=
  entries.foldl (fun m e => insert m e.1 e.2) []

end OrderedMap

/-- Adds a member to a list without repetitions, at the end if it is new. -/
def insertNew (names : List String) (name : String) : List String :=
  if names.contains name then names else names ++ [name]

end GraphQLEngine
