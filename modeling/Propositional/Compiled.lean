import Propositional.Assignment
import Propositional.Formula.Evaluate
import Propositional.Stacks
import Propositional.Token.Scan

/-!
# Compiled formulas

A compiled formula is a text that parses, its sorted table of names and its formula over the places
of that table. A variable without a name cannot be represented, so evaluation and rendering of a
compiled formula always succeed.
-/

namespace Propositional

inductive CompileError where
  | lex (e : Token.LexError)
  | parse (failure : Failure)
  | unknownName (name : String)
  /-- A variable whose place lies outside the table of names. -/
  | unnamedVariable
  deriving DecidableEq

structure Parsed where
  ast : Formula Int
  names : List String

structure Compiled where
  source : String
  names : List String
  ast : Formula (Fin names.length)
  deriving DecidableEq

def parse (text : String) : Except CompileError Parsed :=
  match Token.scan text with
  | .error (.lex e) => .error (.lex e)
  | .error (.unknown e) => .error (.unknownName e.name)
  | .ok scanned =>
    match parseTokens scanned.tokens with
    | .error failure => .error (.parse failure)
    | .ok ast => .ok ⟨ast, scanned.names⟩

def place? (n : Nat) (i : Int) : Option (Fin n) :=
  if h : 0 ≤ i ∧ i < n then some ⟨i.toNat, by omega⟩ else none

def compile (text : String) : Except CompileError Compiled :=
  (parse text).bind fun parsed =>
    match parsed.ast.resolve (place? parsed.names.length) with
    | none => .error .unnamedVariable
    | some ast => .ok ⟨text, parsed.names, ast⟩

/-- A mistake in a formula, as shown to its author. -/
structure Rejection where
  description : String
  start : Int
  stop : Int
  deriving DecidableEq

/-- Failures that are the author's; all others would be the program's own. -/
def CompileError.rejection? : CompileError → Option Rejection
  | lex e => some ⟨e.message, e.position, e.position + 1⟩
  | parse (.fault fault start stop) => some ⟨fault.message, start, stop⟩
  | _ => none

structure LengthMismatch where
  given : Nat
  formatted : String
  expected : Nat
  deriving DecidableEq

def LengthMismatch.message (e : LengthMismatch) : String :=
  s!"Assignment has {e.given} values but formula {e.formatted} has {e.expected} variables"

namespace Compiled

def variableCount (r : Compiled) : Nat :=
  r.names.length

def formatted (r : Compiled) : String :=
  r.ast.render r.names.get

def positions (r : Compiled) : Formula Int :=
  r.ast.map fun i => (i.val : Int)

def named (r : Compiled) : Formula String :=
  r.ast.map r.names.get

def value (r : Compiled) (a : Assignment r.names.length) : Bool :=
  r.ast.evaluate fun i => a[i]

/-- The value under a row of any length; only a row with one value for each variable is accepted. -/
def evaluate (r : Compiled) (row : List Bool) : Except LengthMismatch Bool :=
  if h : row.length = r.names.length then
    .ok (r.value ⟨row.toArray, by simp [h]⟩)
  else .error ⟨row.length, r.formatted, r.variableCount⟩

end Compiled

end Propositional
