import Propositional.Compiled

/-!
# Messages

What a run has to say, as messages with a severity. A logger writes those that reach its thresholds
and never changes their text; a console keeps what it has written.
-/

namespace Propositional

/-- The named severities; any other number is a severity too. -/
inductive Level where
  | debug | info | warning | error
  deriving DecidableEq

def Level.severity : Level → Int
  | debug => 10
  | info => 20
  | warning => 30
  | error => 40

structure Message where
  severity : Int
  text : String
  deriving DecidableEq

namespace Message

def debug (text : String) : Message := ⟨Level.debug.severity, text⟩

def info (text : String) : Message := ⟨Level.info.severity, text⟩

def warning (text : String) : Message := ⟨Level.warning.severity, text⟩

def error (text : String) : Message := ⟨Level.error.severity, text⟩

/-- From `info` on a message stands as it is; less severe ones are marked. -/
def line (m : Message) : String :=
  if m.severity ≥ Level.info.severity then m.text
  else if m.severity = Level.debug.severity then "[DEBUG] " ++ m.text
  else s!"[Level {m.severity}] " ++ m.text

end Message

/-- What a message has to reach to be written: the threshold of the logger itself, and that of the handler
which writes for it. -/
structure Logger where
  threshold : Int := Level.info.severity
  handler : Int := threshold

namespace Logger

def setLevel (_ : Logger) (level : Level) : Logger := ⟨level.severity, level.severity⟩

/-- Debugging wins over quietness. -/
def configure (logger : Logger) (debug quiet : Bool) : Logger :=
  logger.setLevel (if debug then .debug else if quiet then .warning else .info)

def accepts (logger : Logger) (m : Message) : Bool :=
  logger.threshold ≤ m.severity && logger.handler ≤ m.severity

end Logger

structure Console where
  logger : Logger := {}
  written : Array Message := #[]

namespace Console

def configure (c : Console) (debug quiet : Bool) : Console :=
  { c with logger := c.logger.configure debug quiet }

def say (c : Console) (m : Message) : Console :=
  if c.logger.accepts m then { c with written := c.written.push m } else c

def sayAll (c : Console) (ms : List Message) : Console :=
  ms.foldl say c

def text (c : Console) : String :=
  String.join (c.written.toList.map fun m => m.line ++ "\n")

end Console

def Logger.write (logger : Logger) (ms : List Message) : String :=
  (Console.sayAll { logger } ms).text

end Propositional
