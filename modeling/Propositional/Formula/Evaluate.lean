import Propositional.Formula.Walk.Reading

/-!
# Evaluation and rendering

Stateless walks over a formula: its truth value, its text and the replacement of its variables.
`evaluate_eq_holds` says that evaluation is the recursive truth value. `resolve` replaces every
variable or fails, so an unknown variable is found wherever it stands.
-/

namespace Propositional.Formula

variable {ε ν μ β : Type}

/-- Without a state, what has succeeded succeeds again. -/
theorem lasting_unit (act : Unit → Except ε (β × Unit)) : Lasting (fun _ _ => True) act :=
  fun _ _ _ done => ⟨trivial, fun _ _ => done⟩

/-- A pass that keeps no state. It can fail at a variable. -/
def Pass.stateless (truth : Bool → β) (var : ν → Except ε β) (not : β → β)
    (binary : Connective → β → β → β) : Pass Unit ε ν β where
  truth v s := .ok (truth v, s)
  var i s := (var i).map (·, s)
  not b s := .ok (not b, s)
  binary c a b s := .ok (binary c a b, s)
  later _ _ := True
  later_refl _ := trivial
  later_trans _ _ := trivial
  truth_lasting _ := lasting_unit _
  var_lasting _ := lasting_unit _
  not_lasting _ := lasting_unit _
  binary_lasting _ _ _ := lasting_unit _

def Pass.evaluator (value : ν → Except ε Bool) : Pass Unit ε ν Bool :=
  .stateless id value (!·) Connective.apply

/-- Every binary formula is parenthesised, whatever binds tighter. -/
def Pass.renderer (name : ν → Except ε String) : Pass Unit ε ν String :=
  .stateless (fun v => if v then "⊤" else "⊥") name ("¬" ++ ·)
    fun c a b => "(" ++ a ++ " " ++ c.glyph ++ " " ++ b ++ ")"

def Pass.resolver (look : ν → Except ε μ) : Pass Unit ε ν (Formula μ) :=
  .stateless .truth (fun i => (look i).map .var) .not .binary

/-- What is found for a variable; where nothing is, the variable is the failure. -/
def lookUp (look : ν → Option β) (i : ν) : Except ν β :=
  match look i with
  | some b => .ok b
  | none => .error i

def evaluate (value : ν → Bool) (f : Formula ν) : Bool :=
  (sure (f.walk (.evaluator fun i => .ok (value i)) ())).1

def render (name : ν → String) (f : Formula ν) : String :=
  (sure (f.walk (.renderer fun i => .ok (name i)) ())).1

def resolve (look : ν → Option μ) (f : Formula ν) : Option (Formula μ) :=
  ((f.walk (.resolver (lookUp look)) ()).map (·.1)).toOption

theorem evaluate_eq_holds (value : ν → Bool) (f : Formula ν) : f.evaluate value = f.holds value := by
  rw [evaluate, walk_eq_fold]
  induction f with
  | truth | var => rfl
  | not f ih =>
    simp only [fold, sure_bind, holds, ← ih]
    rfl
  | binary c l r hl hr =>
    simp only [fold, sure_bind, holds_binary, ← hl, ← hr]
    rfl

end Propositional.Formula
