import Propositional.Distinct
import Propositional.Table

/-!
# Joint satisfiability

Several formulas are considered under one assignment of all their names. The names come in the order
in which the formulas bring them; each formula reads its own variables by name from the common row.
-/

namespace Propositional

inductive JointVerdict where
  | satisfiable | noFormulas | unsatisfiable
  deriving DecidableEq

namespace JointVerdict

def code : JointVerdict → Nat
  | satisfiable => 0
  | noFormulas => 1
  | unsatisfiable => 2

def name : JointVerdict → String
  | satisfiable => "SATISFIABLE"
  | noFormulas => "NO_FORMULAS"
  | unsatisfiable => "UNSATISFIABLE"

def label : JointVerdict → String
  | satisfiable => "Satisfiable"
  | noFormulas => "No formulas"
  | unsatisfiable => "Unsatisfiable"

end JointVerdict

/-- All names of the formulas, in the order in which they are first seen. -/
def commonNames (rs : List Compiled) : List String :=
  distinct (rs.flatMap (·.names))

theorem mem_commonNames {rs : List Compiled} {name : String} :
    name ∈ commonNames rs ↔ ∃ r ∈ rs, name ∈ r.names := by
  rw [commonNames, mem_distinct, List.mem_flatMap]

/-- A formula with the place of each of its variables in a larger table of names. -/
structure Member (size : Nat) where
  formula : Compiled
  places : Vector (Fin size) formula.names.length

namespace Member

def ofMem {rs : List Compiled} (r : Compiled) (h : r ∈ rs) : Member (commonNames rs).length where
  formula := r
  places := Vector.ofFn fun i =>
    ⟨(commonNames rs).idxOf (r.names.get i),
      List.idxOf_lt_length_of_mem (mem_commonNames.mpr ⟨r, h, List.get_mem _ _⟩)⟩

def value {size : Nat} (m : Member size) (a : Assignment size) : Bool :=
  m.formula.value (m.places.map (a[·]))

end Member

def members (rs : List Compiled) : List (Member (commonNames rs).length) :=
  rs.attach.map fun r => .ofMem r.val r.property

/-- The first common row under which every formula is true, by name; none without formulas. -/
def jointWitness (rs : List Compiled) : Option (List (String × Bool)) :=
  if rs.isEmpty then none
  else
    let ms := members rs
    (Assignment.find? _ fun a => ms.all (·.value a)).map fun a => (commonNames rs).zip a.toList

def jointVerdict (rs : List Compiled) : JointVerdict :=
  if rs.isEmpty then .noFormulas
  else if (jointWitness rs).isSome then .satisfiable
  else .unsatisfiable

/-- A column for each name and one for each formula; empty without formulas. -/
def jointTable (rs : List Compiled) : Table :=
  if rs.isEmpty then ⟨[], []⟩
  else
    let ms := members rs
    { header := commonNames rs ++ rs.map (·.formatted)
      rows := (Assignment.rows _).map fun a => a.toList ++ ms.map (·.value a) }

end Propositional
