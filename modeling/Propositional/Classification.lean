import Propositional.Compiled

/-!
# Classification

A formula that is true under every assignment is a tautology, one that is false under every
assignment a contradiction, any other a contingency.
-/

namespace Propositional

inductive Classification where
  | tautology | contingency | contradiction
  deriving DecidableEq

namespace Classification

def code : Classification → Nat
  | tautology => 0
  | contingency => 1
  | contradiction => 2

def name : Classification → String
  | tautology => "TAUTOLOGY"
  | contingency => "CONTINGENCY"
  | contradiction => "CONTRADICTION"

def label : Classification → String
  | tautology => "Tautology"
  | contingency => "Contingency"
  | contradiction => "Contradiction"

end Classification

structure Seen where
  holds : Bool
  fails : Bool

namespace Seen

def has (s : Seen) : Bool → Bool
  | true => s.holds
  | false => s.fails

def add (s : Seen) (value : Bool) : Seen :=
  if value then { s with holds := true } else { s with fails := true }

/-- What has turned up after the next `left` rows from row `i` on. Once both values have, no further
row is looked at. -/
def after (value : Nat → Bool) : (left i : Nat) → Seen → Seen
  | 0, _, s => s
  | left + 1, i, s =>
    let s := s.add (value i)
    if s.holds && s.fails then s else after value left (i + 1) s

def classification : Seen → Classification
  | ⟨true, true⟩ => .contingency
  | ⟨true, false⟩ => .tautology
  | ⟨false, _⟩ => .contradiction

end Seen

def Compiled.seen (r : Compiled) : Seen :=
  .after (fun i => r.value (Assignment.row r.names.length i)) (1 <<< r.names.length) 0 ⟨false, false⟩

def classify (r : Compiled) : Classification :=
  r.seen.classification

end Propositional
