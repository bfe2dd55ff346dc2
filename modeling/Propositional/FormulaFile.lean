import Propositional.Text.Lines
import Propositional.Text.Quoted
import Propositional.Text.Utf8

/-!
# Formula files

A formula file holds one formula a line. Blank lines and lines that start with `#` are left out.
-/

namespace Propositional.FormulaFile

/-- The formulas of a text, without the blanks around them. -/
def formulas (text : List Char) : List String :=
  let lines := (splitLines text).map strip
  (lines.filter fun line => !line.isEmpty && line.head? != some '#').map String.ofList

inductive ReadFault where
  | missing
  | nullInPath
  | refused (code : Nat) (reason : String)
  deriving DecidableEq

inductive Fault where
  | unreadable (path : String) (fault : ReadFault)
  | undecodable (fault : Utf8.Fault)

def Fault.message : Fault → String
  | unreadable path .missing => "Formula file not found: " ++ path
  | unreadable _ .nullInPath => "embedded null byte"
  | unreadable path (.refused code reason) =>
    s!"Error reading formula file: [Errno {code}] {reason}: " ++ quoted path
  | undecodable fault => fault.message

/-- The formulas of a file, given the outcome of reading its bytes. -/
def read (path : String) (content : Except ReadFault (List UInt8)) : Except Fault (List String) :=
  match content with
  | .error fault => .error (.unreadable path fault)
  | .ok bytes =>
    match Utf8.decode bytes with
    | .error fault => .error (.undecodable fault)
    | .ok text => .ok (formulas (lineFeeds text))

end Propositional.FormulaFile
