import Propositional.Message.Event

/-!
# Computations that speak

Scanning, parsing and compiling as they happen at a console: every stage says what it is about to do or has
done, and what was said before a failure stays said. What such a computation says may depend on the console,
since it could look at it.
-/

namespace Propositional

/-- A computation that may fail and that speaks at a console. -/
abbrev Logged (ε : Type) := ExceptT ε (StateM Console)

namespace Logged

variable {ε δ α : Type}

/-- What the computation comes to at a console, and the console afterwards. -/
def onConsole (x : Logged ε α) (c : Console) : Except ε α × Console :=
  Id.run (StateT.run (ExceptT.run x) c)

def say (m : Message) : Logged ε Unit :=
  modify (·.say m)

def sayAll (ms : List Message) : Logged ε Unit :=
  modify (·.sayAll ms)

def silent (x : Except ε α) : Logged ε α :=
  ExceptT.mk (pure x)

def attempt (x : Logged ε α) : Logged δ (Except ε α) :=
  ExceptT.lift (ExceptT.run x)

/-- The tokens of a text. A character that starts no lexeme is spoken of where it is found. -/
def lex (source : String) : Logged CompileError (List Token) :=
  match Token.lex source with
  | .ok tokens => return tokens
  | .error (.misplaced c position) => do
    say (Message.unexpected c position)
    throw (.lex (.misplaced c position))
  | .error e => throw (.lex e)

def scan (source : String) : Logged CompileError Token.Scanned := do
  say (Message.scanning source)
  silent ((Token.checkAllowed 0 source.toList).mapError .lex)
  let tokens ← lex source
  let scanned ← silent ((Token.number tokens (Token.seenNames tokens)).mapError fun e => .unknownName e.name)
  say (Message.scanned scanned)
  return scanned

/-- A mistake in the formula is spoken of before it is passed on. -/
def parse (source : String) : Logged CompileError Parsed := do
  say (Message.parsing source)
  try
    let scanned ← scan source
    let ast ← silent ((parseTokens scanned.tokens).mapError .parse)
    say (Message.parsed ast)
    pure ⟨ast, scanned.names⟩
  catch e =>
    sayAll (Message.failureTrace e)
    throw e

def compile (source : String) : Logged CompileError Compiled := do
  let parsed ← parse source
  match parsed.ast.resolve (place? parsed.names.length) with
  | none => throw .unnamedVariable
  | some ast =>
    let r : Compiled := ⟨source, parsed.names, ast⟩
    say (Message.compiled source r)
    return r

end Logged

end Propositional
