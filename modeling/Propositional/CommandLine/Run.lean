import Propositional.CommandLine.Account
import Propositional.Logged

/-!
# Runs

A run of the program at a console. Its flags on verbosity set the logger, and everything is said where it
happens. The exit code and what is written are those of the account of the run, `CommandLine.run`.
-/

namespace Propositional.Logged

open CommandLine

variable {ε : Type}

def compileOne (source : String) (maxVars : Int) : Logged Stop Compiled := do
  match ← attempt (compile source) with
  | .error e =>
    match e.rejection? with
    | some r => do
      sayAll (Message.rejected source r)
      throw .rejected
    | none => throw (.internal e)
  | .ok r =>
    if r.variableCount > maxVars then throw (.largeFormula r maxVars)
    else do
      say (Message.formulaCompiled source r.formatted r.names)
      return r

def compileAll (maxVars : Int) : List String → Logged Stop (List Compiled)
  | [] => return []
  | source :: rest => do
    let r ← compileOne source maxVars
    return r :: (← compileAll maxVars rest)

def classify (analyses : Analyses) (r : Compiled) : Logged ε Classification := do
  let c := analyses.classify r
  sayAll (Message.classifyTrace r c)
  return c

def fullTable (analyses : Analyses) (r : Compiled) : Logged ε Table := do
  let t := analyses.fullTable r
  sayAll (Message.tableTrace r t)
  return t

def jointVerdict (analyses : Analyses) (rs : List Compiled) : Logged ε JointVerdict := do
  let verdict := analyses.jointVerdict rs
  sayAll (Message.jointTrace rs verdict)
  return verdict

def reportOne (analyses : Analyses) (showTable : Bool) (r : Compiled) : Logged ε Unit := do
  let c ← classify analyses r
  say (Message.classified r.formatted c.label)
  if showTable then
    let t ← fullTable analyses r
    sayAll (Message.table t)

def reportAll (analyses : Analyses) (showTable : Bool) (rs : List Compiled) : Logged ε Unit := do
  if rs.isEmpty then return
  say Message.classification
  rs.forM (reportOne analyses showTable)

def reportJoint (analyses : Analyses) (maxVars : Int) (showTable : Bool) (rs : List Compiled) :
    Logged Stop Unit := do
  let count := (commonNames rs).length
  if count > maxVars then throw (.largeUniverse count maxVars)
  let verdict ← jointVerdict analyses rs
  say (Message.joint verdict.label ((analyses.jointWitness rs).map Message.witness))
  if showTable && !rs.isEmpty then sayAll (Message.table (analyses.jointTable rs))

def fileFormulas (file : Option String) (read : String → Except FormulaFile.ReadFault (List UInt8)) :
    Logged Stop (List String) :=
  match file with
  | none => return []
  | some path =>
    let path := FormulaFile.normalPath path
    silent ((FormulaFile.read path (read path)).mapError .fileFault)

def analyse (analyses : Analyses) (o : Options) (read : String → Except FormulaFile.ReadFault (List UInt8)) :
    Logged Stop Unit := do
  let fromFile ← fileFormulas o.file read
  let sources := o.formulas ++ fromFile
  if sources.isEmpty && !(o.joint || o.jointTable) then say Message.noFormulas
  else do
    let rs ← compileAll o.maxVars sources
    reportAll analyses o.table rs
    if o.joint || o.jointTable then reportJoint analyses o.maxVars o.jointTable rs

end Propositional.Logged

namespace Propositional.CommandLine

/-- A run at a console: the exit code, and the console afterwards. -/
def perform (o : Options) (read : String → Except FormulaFile.ReadFault (List UInt8)) (console : Console)
    (analyses : Analyses := {}) : Nat × Console :=
  match (Logged.analyse analyses o read).onConsole (console.configure o.debug o.quiet) with
  | (.ok (), c) => (0, c)
  | (.error why, c) => (why.exitCode, c.sayAll why.messages)

structure Output where
  stdout : String := ""
  stderr : String := ""
  exitCode : Nat

/-- The whole program: arguments and files in, text and exit code out. -/
def execute (logger : Logger) (arguments : List String)
    (read : String → Except FormulaFile.ReadFault (List UInt8)) : Output :=
  match Options.ofArguments arguments with
  | .error .help => { stdout := help, exitCode := 0 }
  | .error (.usage e) => { stderr := e.text, exitCode := 2 }
  | .ok o =>
    let (exitCode, console) := perform o read { logger }
    { stdout := console.text, exitCode }

end Propositional.CommandLine
