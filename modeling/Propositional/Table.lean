import Propositional.Compiled
import Propositional.Formula.Subformula

/-!
# Truth tables

The full table of a formula has a column for each variable and one for each compound subformula.
-/

namespace Propositional

structure Table where
  header : List String
  rows : List (List Bool)

structure NoColumn where
  title : String

namespace Table

/-- The cells under the first column with this title. -/
def column (t : Table) (title : String) : Except NoColumn (List Bool) :=
  match t.header.idxOf? title with
  | some j => .ok (t.rows.filterMap (·[j]?))
  | none => .error ⟨title⟩

end Table

def Compiled.fullTable (r : Compiled) : Table :=
  let columns := r.ast.subformulas
  { header := r.names ++ columns.map (·.render r.names.get)
    rows := (Assignment.rows r.names.length).map fun a =>
      a.toList ++ columns.map (·.evaluate a.get) }

end Propositional
