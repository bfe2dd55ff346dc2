import Propositional.Token

/-!
# Parser failures

A fault is a mistake in the formula and points at the offending token. The other failures mean that
the parser's own bookkeeping is off.
-/

namespace Propositional

inductive Fault where
  | emptyFormula
  | unclosedGroup
  | missingOperand
  | unopenedGroup
  | expectedOperand
  | expectedConnective
  /-- An open parenthesis that is still pending after a complete operand. -/
  | unclosedAtEnd
  deriving DecidableEq

def Fault.message : Fault → String
  | emptyFormula => "The formula is empty."
  | unclosedGroup => "This open parenthesis has no matching close parenthesis."
  | missingOperand => "This operator is missing an operand."
  | unopenedGroup => "This close parenthesis doesn't match any open parenthesis."
  | expectedOperand => "We were expecting a variable, constant, or open parenthesis here."
  | expectedConnective => "We were expecting a close parenthesis or a binary connective here."
  | unclosedAtEnd => "No matching close parenthesis for this open parenthesis."

inductive Breach where
  | noTop
  | noOperands
  | negationInGroup
  | emptyGroup
  | noEnd
  | topNotEnd
  | unreduced
  | noSingleRoot
  | noIndex
  deriving DecidableEq

def Breach.message (breach : Breach) : String :=
  "Parser invariant violated: " ++ match breach with
    | noTop => "top of an empty operator stack"
    | noOperands => "binary operator without two operands"
    | negationInGroup => "negation pending inside a group"
    | emptyGroup => "empty group after close parenthesis"
    | noEnd => "no EOF on the operator stack"
    | topNotEnd => "operator stack top is not EOF"
    | unreduced => "operator left unreduced after EOF"
    | noSingleRoot => "operand stack does not hold one root"
    | noIndex => "variable token without an index"

inductive Failure where
  | fault (fault : Fault) (start stop : Int)
  | breach (breach : Breach)
  | noPrecedence (kind : Token.Kind)
  | noConnective (kind : Token.Kind)
  deriving DecidableEq

def Failure.message : Failure → String
  | fault mistake _ _ => mistake.message
  | breach broken => broken.message
  | noPrecedence kind | noConnective kind => s!"<TokenKind.{kind.name}: {kind.number}>"

def Fault.on (fault : Fault) (token : Token) : Failure :=
  .fault fault token.start token.stop

end Propositional
