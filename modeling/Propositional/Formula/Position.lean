import Propositional.Formula.Evaluate

/-!
# Variables by position

A formula over positions is read against a list: positions from 0 on count from the start and
negative ones from the end. A position outside the list fails the whole formula, also where its value
would not matter, since a walk visits every node.
-/

namespace Propositional

variable {α : Type}

/-- The entry at a position, where -1 is the last entry. -/
def itemAt? (xs : List α) (i : Int) : Option α :=
  if 0 ≤ i then xs[i.toNat]?
  else if 0 ≤ i + xs.length then xs[(i + xs.length).toNat]?
  else none

theorem itemAt?_eq_none_iff {xs : List α} {i : Int} :
    itemAt? xs i = none ↔ (xs.length : Int) ≤ i ∨ i < -xs.length := by
  rw [itemAt?]
  split
  · rw [List.getElem?_eq_none_iff]; omega
  · split
    · rw [List.getElem?_eq_none_iff]; omega
    · simp; omega

namespace Formula

def Keyed.evaluateAt (row : List Bool) (t : Keyed Int) : Except (Halt Int) Bool :=
  (t.walk (.evaluator (lookUp (itemAt? row))) ()).map (·.1)

def Keyed.renderWith (names : List String) (t : Keyed Int) : Except (Halt Int) String :=
  (t.walk (.renderer (lookUp (itemAt? names))) ()).map (·.1)

def evaluateAt? (row : List Bool) (f : Formula Int) : Option Bool :=
  (f.laid.evaluateAt row).toOption

def renderWith? (names : List String) (f : Formula Int) : Option String :=
  (f.laid.renderWith names).toOption

end Formula

end Propositional
