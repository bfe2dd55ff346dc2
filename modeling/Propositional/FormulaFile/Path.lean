/-!
# Paths

The parts of a path and its normal form: repeated slashes and parts that stay in place are dropped,
and parts that lead upwards are kept.
-/

namespace Propositional.FormulaFile

/-- The parts of a path other than those that stay in place. -/
def pathParts (path : String) : List String :=
  (path.splitOn "/").filter fun part => part ≠ "" && part ≠ "."

/-- Two leading slashes are kept apart from one, and from more. -/
def pathRoot (path : String) : String :=
  match path.toList with
  | '/' :: '/' :: '/' :: _ => "/"
  | '/' :: '/' :: _ => "//"
  | '/' :: _ => "/"
  | _ => ""

def normalPath (path : String) : String :=
  let text := pathRoot path ++ "/".intercalate (pathParts path)
  if text.isEmpty then "." else text

end Propositional.FormulaFile
