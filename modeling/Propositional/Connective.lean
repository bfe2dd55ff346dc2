/-!
# Connectives

The four binary connectives: how tightly each binds, the function it stands for and the glyph it is
written with.
-/

namespace Propositional

inductive Connective where
  | iff | implies | or | and
  deriving DecidableEq

namespace Connective

/-- A larger number binds tighter. -/
def precedence : Connective → Int
  | iff => 0
  | implies => 1
  | or => 2
  | and => 3

def apply : Connective → Bool → Bool → Bool
  | iff, a, b => a == b
  | implies, a, b => !a || b
  | or, a, b => a || b
  | and, a, b => a && b

def glyph : Connective → String
  | iff => "↔"
  | implies => "→"
  | or => "∨"
  | and => "∧"

theorem precedence_nonneg (c : Connective) : 0 ≤ c.precedence := by
  cases c <;> decide

theorem precedence_injective {c d : Connective} (h : c.precedence = d.precedence) : c = d := by
  cases c <;> cases d <;> first | rfl | cases h

end Connective

end Propositional
