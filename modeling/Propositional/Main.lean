import Propositional.CommandLine.Run

/-!
# The program

Reads the file that the arguments name, if any, and writes what `CommandLine.execute` says.
-/

namespace Propositional

open FormulaFile

/-- A refusal by error number; some numbers arrive negated, as 32-bit words. -/
def refusal (code : UInt32) (details : String) : ReadFault :=
  .refused (min code.toNat (UInt32.size - code.toNat)) details.capitalize

def readFaultOf : IO.Error → ReadFault
  | .noFileOrDirectory .. => .missing
  | .alreadyExists _ code details | .otherError code details | .resourceBusy code details
  | .resourceVanished code details | .unsupportedOperation code details | .hardwareFault code details
  | .unsatisfiedConstraints code details | .illegalOperation code details | .protocolError code details
  | .timeExpired code details | .interrupted _ code details | .invalidArgument _ code details
  | .permissionDenied _ code details | .resourceExhausted _ code details | .inappropriateType _ code details
  | .noSuchThing _ code details => refusal code details
  | .unexpectedEof => .refused 0 "Unexpected end of file"
  | .userError details => .refused 0 details

def readBytes (path : String) : IO (Except ReadFault (List UInt8)) := do
  if path.toList.contains '\x00' then return .error .nullInPath
  try
    return .ok (← IO.FS.readBinFile path).toList
  catch e =>
    return .error (readFaultOf e)

def readNamedFile (arguments : List String) : IO (Except ReadFault (List UInt8)) :=
  match CommandLine.Options.ofArguments arguments with
  | .ok { file := some path, .. } => readBytes (normalPath path)
  | _ => return .error .missing

end Propositional

def main (arguments : List String) : IO UInt32 := do
  let content ← Propositional.readNamedFile arguments
  let output := Propositional.CommandLine.execute {} arguments fun _ => content
  (← IO.getStdout).putStr output.stdout
  (← IO.getStderr).putStr output.stderr
  return UInt32.ofNat output.exitCode
