import Propositional.Distinct
import Propositional.Formula.Key

/-!
# Subformulas

The compound subformulas of a formula, breadth first with right before left, each once. Variables
are left out and constants are kept.
-/

namespace Propositional.Formula

variable {ν : Type}

/-- The nodes directly below, right before left. -/
def Keyed.parts : Keyed ν → List (Keyed ν)
  | .truth _ _ | .var _ _ => []
  | .not _ f => [f]
  | .binary _ _ l r => [r, l]

def Keyed.isVar : Keyed ν → Bool
  | .var _ _ => true
  | _ => false

def Keyed.total : List (Keyed ν) → Nat
  | [] => 0
  | node :: queue => node.size + total queue

theorem Keyed.total_append (front back : List (Keyed ν)) : total (front ++ back) = total front + total back := by
  induction front with
  | nil => simp [total]
  | cons node front ih =>
    simp only [List.cons_append, total, ih]
    omega

/-- All nodes of a queue of formulas: each node is taken from the front, and what is directly below
it joins at the back. -/
def breadthFirst : List (Keyed ν) → List (Keyed ν)
  | [] => []
  | node :: queue => node :: breadthFirst (queue ++ node.parts)
termination_by queue => Keyed.total queue
decreasing_by
  simp only [Keyed.total_append, Keyed.total]
  cases node <;>
    simp only [Keyed.parts, Keyed.size, Keyed.total] <;>
    omega

def subformulas [DecidableEq ν] (f : Formula ν) : List (Formula ν) :=
  let nodes := breadthFirst [(f.keyed []).1]
  (distinctBy Keyed.key [] (nodes.filter (!·.isVar))).map Keyed.formula

end Propositional.Formula
