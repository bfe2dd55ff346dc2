import Propositional.Token

/-!
# Numbering of variables

Names are numbered in their sorted order, by code point. `insertName` keeps a table strictly
increasing, so every name has one place.
-/

namespace Propositional.Token

/-- A strictly increasing table with one more name, unless the name is there already. -/
def insertName (name : String) : List String → List String
  | [] => [name]
  | first :: rest =>
    if name < first then name :: first :: rest
    else if name = first then first :: rest
    else first :: insertName name rest

def sortNames (names : List String) : List String :=
  names.foldr insertName []

structure UnknownName where
  name : String
  deriving DecidableEq

def numberOne (names : List String) (token : Token) : Except UnknownName Token :=
  if token.kind = .var then
    match names.idxOf? token.lexeme with
    | some i => .ok { token with index := some i }
    | none => .error ⟨token.lexeme⟩
  else .ok token

structure Scanned where
  tokens : List Token
  /-- The sorted names that the indices of the variables refer to. -/
  names : List String

/-- Gives every variable its place among the sorted names; other tokens stay as they are. -/
def number (tokens : List Token) (names : List String) : Except UnknownName Scanned :=
  let table := sortNames names
  return ⟨← tokens.mapM (numberOne table), table⟩

theorem mem_insertName {name other : String} {table : List String} :
    other ∈ insertName name table ↔ other = name ∨ other ∈ table := by
  induction table with
  | nil => simp [insertName]
  | cons first rest ih =>
    rw [insertName]
    split
    · simp
    · split
      · simp_all
      · simp only [List.mem_cons, ih]; grind

theorem mem_sortNames {name : String} {names : List String} :
    name ∈ sortNames names ↔ name ∈ names := by
  induction names with
  | nil => simp [sortNames]
  | cons first rest ih => rw [List.mem_cons, ← ih]; exact mem_insertName

end Propositional.Token
