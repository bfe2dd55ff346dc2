import Propositional.Formula
import Propositional.Stacks.Failure

/-!
# The parser's stacks

An operator-precedence parser for formulas. Operators and open parentheses wait on one stack,
finished operands on another; both are lists with the top first. An operator waits until one that
binds no tighter follows, so chains of one connective group to the right. A negation waits on the
operator stack for its operand and is applied as soon as that is finished.

The stacks outlive a parse: a failure leaves them as they were when it was noticed, and the next
parse goes on from there.
-/

namespace Propositional

structure Stacks where
  operators : List Token := []
  operands : List (Formula Int) := []

structure Stopped where
  failure : Failure
  left : Stacks

inductive Expecting where
  | operand
  | connective
  deriving DecidableEq

namespace Stacks

/-- A finished operand takes the negations that wait on top of the operators and joins the other
operands. -/
def finishOperand (f : Formula Int) (operands : List (Formula Int)) : List Token → Stacks
  | [] => ⟨[], f :: operands⟩
  | top :: rest =>
    if top.kind = .not then finishOperand (.not f) operands rest else ⟨top :: rest, f :: operands⟩

/-- Applies an operator that has left the stack to the two topmost operands. -/
def reduce (operator : Token) (s : Stacks) : Except Stopped Stacks :=
  match s.operands with
  | r :: l :: operands =>
    match operator.kind.connective? with
    | some c => .ok (finishOperand (.binary c l r) operands s.operators)
    | none => .error ⟨.noConnective operator.kind, { s with operands }⟩
  | _ => .error ⟨.breach .noOperands, s⟩

theorem length_finishOperand (f : Formula Int) (operands : List (Formula Int)) (operators : List Token) :
    (finishOperand f operands operators).operators.length ≤ operators.length := by
  induction operators generalizing f with
  | nil => simp [finishOperand]
  | cons top rest ih =>
    rw [finishOperand]
    split
    · exact Nat.le_succ_of_le (ih _)
    · simp

theorem length_reduce {operator : Token} {s t : Stacks} (h : reduce operator s = .ok t) :
    t.operators.length ≤ s.operators.length := by
  unfold reduce at h
  split at h
  · split at h
    · cases h; exact length_finishOperand _ _ _
    · cases h
  · cases h

/-- Reduces the operators that bind tighter than the incoming one, down to the nearest open
parenthesis. -/
def reduceAbove (incoming : Int) : Stacks → Except Stopped Stacks
  | ⟨[], operands⟩ => .ok ⟨[], operands⟩
  | ⟨top :: operators, operands⟩ =>
    if top.kind = .lparen then .ok ⟨top :: operators, operands⟩
    else
      match top.kind.precedence? with
      | none => .error ⟨.noPrecedence top.kind, ⟨top :: operators, operands⟩⟩
      | some precedence =>
        if precedence ≤ incoming then .ok ⟨top :: operators, operands⟩
        else
          match _reduced : reduce top ⟨operators, operands⟩ with
          | .error e => .error e
          | .ok t => reduceAbove incoming t
termination_by s => s.operators.length
decreasing_by exact Nat.lt_succ_of_le (length_reduce _reduced)

theorem reduceAbove_tight {incoming precedence : Int} {top : Token} {operators : List Token}
    {operands : List (Formula Int)} (closed : top.kind ≠ .lparen) (known : top.kind.precedence? = some precedence)
    (tight : ¬ precedence ≤ incoming) : reduceAbove incoming ⟨top :: operators, operands⟩ =
      (reduce top ⟨operators, operands⟩).bind (reduceAbove incoming) := by
  rw [reduceAbove, if_neg closed]
  simp only [known, if_neg tight]
  split <;> rename_i reduced <;> rw [reduced] <;> rfl

/-- Reduces everything inside the nearest open parenthesis, which leaves the stack. -/
def closeGroup (token : Token) : Stacks → Except Stopped Stacks
  | ⟨[], operands⟩ => .error ⟨Fault.unopenedGroup.on token, ⟨[], operands⟩⟩
  | ⟨top :: operators, operands⟩ =>
    if top.kind = .lparen then
      match operands with
      | [] => .error ⟨.breach .emptyGroup, ⟨operators, []⟩⟩
      | f :: operands => .ok (finishOperand f operands operators)
    else if top.kind = .not then .error ⟨.breach .negationInGroup, ⟨operators, operands⟩⟩
    else
      match _reduced : reduce top ⟨operators, operands⟩ with
      | .error e => .error e
      | .ok t => closeGroup token t
termination_by s => s.operators.length
decreasing_by exact Nat.lt_succ_of_le (length_reduce _reduced)

theorem closeGroup_tight {token top : Token} {operators : List Token} {operands : List (Formula Int)}
    (closed : top.kind ≠ .lparen) (binary : top.kind ≠ .not) : closeGroup token ⟨top :: operators, operands⟩ =
      (reduce top ⟨operators, operands⟩).bind (closeGroup token) := by
  rw [closeGroup.eq_def]
  simp only [if_neg closed, if_neg binary]
  split <;> rename_i reduced <;> rw [reduced] <;> rfl

def pushOperator (token : Token) (s : Stacks) : Stacks :=
  { s with operators := token :: s.operators }

def top (s : Stacks) : Except Failure Token :=
  match s.operators with
  | [] => .error (.breach .noTop)
  | top :: _ => .ok top

/-- The fault of a text that ends where an operand should stand. -/
def endFault (s : Stacks) : Failure :=
  if s.operators.isEmpty then .fault .emptyFormula 0 0
  else
    match s.top with
    | .error failure => failure
    | .ok top => if top.kind = .lparen then Fault.unclosedGroup.on top else Fault.missingOperand.on top

theorem endFault_empty {s : Stacks} (empty : s.operators = []) : s.endFault = .fault .emptyFormula 0 0 := by
  simp [endFault, empty]

theorem endFault_cons {s : Stacks} {top : Token} {rest : List Token} (pending : s.operators = top :: rest) :
    s.endFault = if top.kind = .lparen then Fault.unclosedGroup.on top else Fault.missingOperand.on top := by
  simp [endFault, Stacks.top, pending]

def isOpen (s : Stacks) : Bool :=
  s.operators.any (·.kind = .lparen)

def readOperand (token : Token) (s : Stacks) : Except Stopped (Expecting × Stacks) :=
  match token.kind with
  | .truth v => .ok (.connective, finishOperand (.truth v) s.operands s.operators)
  | .var =>
    match token.index with
    | some i => .ok (.connective, finishOperand (.var i) s.operands s.operators)
    | none => .error ⟨.breach .noIndex, s⟩
  | .lparen | .not => .ok (.operand, s.pushOperator token)
  | .eof => .error ⟨s.endFault, s⟩
  | .rparen =>
    .error ⟨(if s.isOpen then Fault.expectedOperand else Fault.unopenedGroup).on token, s⟩
  | .connective _ => .error ⟨Fault.expectedOperand.on token, s⟩

def readConnective (token : Token) (s : Stacks) : Except Stopped (Expecting × Stacks) :=
  match token.kind with
  | .connective c => (s.reduceAbove c.precedence).map fun t => (.operand, t.pushOperator token)
  | .eof => (s.reduceAbove (-1)).map fun t => (.operand, t.pushOperator token)
  | .rparen => (s.closeGroup token).map fun t => (.connective, t)
  | _ => .error ⟨Fault.expectedConnective.on token, s⟩

def step (expecting : Expecting) (token : Token) (s : Stacks) : Except Stopped (Expecting × Stacks) :=
  match expecting with
  | .operand => s.readOperand token
  | .connective => s.readConnective token

/-- Reads up to the first end of input that follows a complete operand. -/
def read (expecting : Expecting) : List Token → Stacks → Except Stopped Stacks
  | [], s => .ok s
  | token :: rest, s =>
    match s.step expecting token with
    | .error stopped => .error stopped
    | .ok (next, t) =>
      if expecting = .connective ∧ token.kind = .eof then .ok t else read next rest t

theorem read_cons (e : Expecting) (token : Token) (rest : List Token) (s : Stacks) : read e (token :: rest) s =
    (s.step e token).bind fun (next, t) =>
      if e = .connective ∧ token.kind = .eof then .ok t else read next rest t := by
  rw [read]
  cases s.step e token <;> rfl

/-- Takes the root when the end of input is the only operator and one operand is left. -/
def finish (s : Stacks) : Except Stopped (Formula Int × Stacks) :=
  match s.operators with
  | [] => .error ⟨.breach .noEnd, s⟩
  | top :: operators =>
    if top.kind ≠ .eof then .error ⟨.breach .topNotEnd, { s with operators }⟩
    else
      match operators with
      | pending :: operators =>
        let failure := if pending.kind = .lparen then Fault.unclosedAtEnd.on pending else .breach .unreduced
        .error ⟨failure, { s with operators }⟩
      | [] =>
        match s.operands with
        | [root] => .ok (root, {})
        | _ => .error ⟨.breach .noSingleRoot, { s with operators := [] }⟩

/-- Parses a list of tokens from the given stacks: the result, and the stacks afterwards. -/
def parse (s : Stacks) (tokens : List Token) : Except Failure (Formula Int) × Stacks :=
  match (s.read .operand tokens).bind finish with
  | .ok (root, t) => (.ok root, t)
  | .error stopped => (.error stopped.failure, stopped.left)

end Stacks

/-- The formula that the tokens before the first `eof` spell. -/
def parseTokens (tokens : List Token) : Except Failure (Formula Int) :=
  (Stacks.parse {} tokens).1

end Propositional
