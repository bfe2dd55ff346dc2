import Propositional.CommandLine.Usage
import Propositional.FormulaFile
import Propositional.FormulaFile.Path
import Propositional.Message.Event

/-!
# What a run comes to

All messages of a run after its arguments are read, in order and whatever their severity, and how the
run ends. The flags on verbosity have no part in this.
-/

namespace Propositional.CommandLine

inductive Stop where
  | rejected
  | tooManyVariables (description : String)
  | fileFault (fault : FormulaFile.Fault)
  | internal (e : CompileError)

namespace Stop

def largeFormula (r : Compiled) (maxVars : Int) : Stop :=
  .tooManyVariables (r.formatted ++ s!" has {r.variableCount} variables (limit {maxVars})")

def largeUniverse (count : Nat) (maxVars : Int) : Stop :=
  .tooManyVariables s!"Formula set has {count} variables (limit {maxVars})"

end Stop

/-- Messages, and the value that follows them unless the run stops. -/
structure Traced (α : Type) where
  messages : List Message
  result : Except Stop α

namespace Traced

variable {α β : Type}

def pure (a : α) : Traced α := ⟨[], .ok a⟩

def bind (t : Traced α) (next : α → Traced β) : Traced β :=
  match t.result with
  | .ok a => ⟨t.messages ++ (next a).messages, (next a).result⟩
  | .error stop => ⟨t.messages, .error stop⟩

instance : Monad Traced where
  pure := pure
  bind := bind

def say (ms : List Message) : Traced Unit := ⟨ms, .ok ()⟩

def stop (why : Stop) : Traced α := ⟨[], .error why⟩

end Traced

open Traced

def compileOne (source : String) (maxVars : Int) : Traced Compiled := do
  say (Message.compileTrace source)
  match compile source with
  | .error e =>
    match e.rejection? with
    | some r => do
      say (Message.rejected source r)
      stop .rejected
    | none => stop (.internal e)
  | .ok r =>
    if r.variableCount > maxVars then
      stop (.largeFormula r maxVars)
    else do
      say [Message.formulaCompiled source r.formatted r.names]
      return r

def compileAll (maxVars : Int) : List String → Traced (List Compiled)
  | [] => return []
  | source :: rest => do
    let r ← compileOne source maxVars
    return r :: (← compileAll maxVars rest)

/-- What a run asks about compiled formulas. Every answer takes time exponential in the number of variables. -/
structure Analyses where
  classify : Compiled → Classification := Propositional.classify
  fullTable : Compiled → Table := Compiled.fullTable
  jointVerdict : List Compiled → JointVerdict := Propositional.jointVerdict
  jointWitness : List Compiled → Option (List (String × Bool)) := Propositional.jointWitness
  jointTable : List Compiled → Table := Propositional.jointTable

def reportOne (analyses : Analyses) (showTable : Bool) (r : Compiled) : List Message :=
  let c := analyses.classify r
  Message.classifyTrace r c ++ [Message.classified r.formatted c.label] ++
    if showTable then
      let t := analyses.fullTable r
      Message.tableTrace r t ++ Message.table t
    else []

def reportAll (analyses : Analyses) (showTable : Bool) (rs : List Compiled) : List Message :=
  if rs.isEmpty then []
  else Message.classification :: rs.flatMap (reportOne analyses showTable)

def reportJoint (analyses : Analyses) (maxVars : Int) (showTable : Bool) (rs : List Compiled) : Traced Unit := do
  let count := (commonNames rs).length
  if count > maxVars then
    stop (.largeUniverse count maxVars)
  else do
    let verdict := analyses.jointVerdict rs
    say (Message.jointTrace rs verdict)
    say [Message.joint verdict.label ((analyses.jointWitness rs).map Message.witness)]
    if showTable && !rs.isEmpty then say (Message.table (analyses.jointTable rs))

def fileFormulas (file : Option String) (read : String → Except FormulaFile.ReadFault (List UInt8)) :
    Traced (List String) :=
  match file with
  | none => return []
  | some path =>
    let path := FormulaFile.normalPath path
    match FormulaFile.read path (read path) with
    | .ok sources => return sources
    | .error fault => stop (.fileFault fault)

def analyse (analyses : Analyses) (o : Options) (read : String → Except FormulaFile.ReadFault (List UInt8)) :
    Traced Unit := do
  let fromFile ← fileFormulas o.file read
  let sources := o.formulas ++ fromFile
  if sources.isEmpty && !(o.joint || o.jointTable) then say [Message.noFormulas]
  else do
    let rs ← compileAll o.maxVars sources
    say (reportAll analyses o.table rs)
    if o.joint || o.jointTable then reportJoint analyses o.maxVars o.jointTable rs

namespace Stop

def exitCode : Stop → Nat
  | rejected => 2
  | fileFault _ => 3
  | tooManyVariables _ => 4
  | internal _ => 5

/-- What is said of a stop that has not been explained yet. -/
def messages : Stop → List Message
  | rejected => []
  | fileFault fault => [Message.error ("Formula file error: " ++ fault.message)]
  | tooManyVariables description => [Message.error ("Too many variables: " ++ description)]
  | internal e => [Message.error ("Unexpected error: " ++ Message.failure e)]

end Stop

structure Outcome where
  messages : List Message
  exitCode : Nat

def run (o : Options) (read : String → Except FormulaFile.ReadFault (List UInt8)) (analyses : Analyses := {}) :
    Outcome :=
  let traced := analyse analyses o read
  match traced.result with
  | .ok () => ⟨traced.messages, 0⟩
  | .error why => ⟨traced.messages ++ why.messages, why.exitCode⟩

end Propositional.CommandLine
