import Propositional.Connective

/-!
# Formulas

Propositional formulas over any type of variables. A parsed formula refers to its variables by
position (`Formula Int`), a compiled one by position in its own table (`Formula (Fin n)`), and `map`
turns positions into names. `holds` is the truth value by recursion on the formula, with tables of its
own, and `holds_binary` says that the connectives have these tables.
-/

namespace Propositional

inductive Formula (ν : Type) where
  | truth (value : Bool)
  | var (i : ν)
  | not (f : Formula ν)
  | binary (c : Connective) (l r : Formula ν)
  deriving DecidableEq

namespace Formula

variable {ν μ β : Type}

def children : Formula ν → List (Formula ν)
  | truth _ | var _ => []
  | not f => [f]
  | binary _ l r => [l, r]

/-- The variables at the leaves, left to right and with repetition. -/
def leaves : Formula ν → List ν
  | truth _ => []
  | var i => [i]
  | not f => f.leaves
  | binary _ l r => l.leaves ++ r.leaves

def map (g : ν → μ) : Formula ν → Formula μ
  | truth v => truth v
  | var i => var (g i)
  | not f => not (f.map g)
  | binary c l r => binary c (l.map g) (r.map g)

/-- The truth value under a valuation of the variables. -/
def holds (value : ν → Bool) : Formula ν → Bool
  | truth v => v
  | var i => value i
  | not f => !f.holds value
  | binary .and l r => l.holds value && r.holds value
  | binary .or l r => l.holds value || r.holds value
  | binary .implies l r => !l.holds value || r.holds value
  | binary .iff l r => l.holds value == r.holds value

theorem holds_binary (value : ν → Bool) (c : Connective) (l r : Formula ν) :
    (binary c l r).holds value = c.apply (l.holds value) (r.holds value) := by
  cases c <;> rfl

theorem leaves_map (g : ν → μ) (f : Formula ν) : (f.map g).leaves = f.leaves.map g := by
  induction f with
  | truth | var => rfl
  | not f ih => exact ih
  | binary c l r hl hr => simp [map, leaves, hl, hr]

theorem holds_map (g : ν → μ) (value : μ → Bool) (f : Formula ν) :
    (f.map g).holds value = f.holds (fun i => value (g i)) := by
  induction f with
  | truth | var => rfl
  | not f ih => simp [map, holds, ih]
  | binary c l r hl hr => rw [map, holds_binary, holds_binary, hl, hr]

end Formula

end Propositional
