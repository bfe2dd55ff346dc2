import Propositional.Classification
import Propositional.Joint
import Propositional.Message
import Propositional.Table.Layout
import Propositional.Text.Quoted

/-!
# Events

The messages for what happens in a run: a formula is compiled or rejected, classified, tabulated or
checked jointly with others. The `trace` of a computation lists its debugging messages in the order
of its steps.
-/

namespace Propositional.Message

def formulaCompiled (source formatted : String) (names : List String) : Message :=
  let shown := if names.isEmpty then "none" else ", ".intercalate names
  info ("📋 " ++ String.ofList (strip source.toList) ++ " ⟹ " ++ formatted
    ++ "  [variables: " ++ shown ++ "]")

def classification : Message :=
  info "\n📊 Classification:"

def noFormulas : Message :=
  warning "No formulas given."

def classified (formatted label : String) : Message :=
  info ("  " ++ formatted ++ ": " ++ label)

/-- An empty witness is not shown. -/
def joint (label : String) (witness : Option String) : Message :=
  let shown := match witness with
    | some text => if text.isEmpty then "" else " (witness: " ++ text ++ ")"
    | none => ""
  info ("\n>>> JOINT VERDICT: " ++ label ++ shown ++ " <<<")

def repeated (c : Char) (count : Int) : String :=
  String.ofList (List.replicate count.toNat c)

/-- The description, the text and a line of carets under the offending characters, of which there is
at least one. -/
def rejected (source : String) (r : Rejection) : List Message :=
  [error ("❌ " ++ r.description), error ("    " ++ source),
    error ("    " ++ repeated ' ' r.start ++ repeated '^' (max (r.stop - r.start) 1))]

def rootName {ν : Type} : Formula ν → String
  | .truth true => "TrueConst"
  | .truth false => "FalseConst"
  | .var _ => "Var"
  | .not _ => "Not"
  | .binary .and _ _ => "And"
  | .binary .or _ _ => "Or"
  | .binary .implies _ _ => "Implies"
  | .binary .iff _ _ => "Iff"

def span (r : Rejection) : String :=
  s!"({r.start}, {r.stop})"

/-- The text of a failure. A name or a kind that is looked up in vain is all that is said. -/
def failure : CompileError → String
  | .lex e => e.message
  | .parse failure => failure.message
  | .unknownName name => quoted name
  | .unnamedVariable => "tuple index out of range"

def failureTrace (e : CompileError) : List Message :=
  let kind := match e with
    | .lex _ => "LexError"
    | _ => "FormulaSyntaxError"
  match e.rejection? with
  | some r => [debug (kind ++ " at " ++ span r ++ ": " ++ r.description)]
  | none => []

def scanning (source : String) : Message :=
  debug ("Scanning formula: " ++ quoted source)

def scanned (s : Token.Scanned) : Message :=
  debug (s!"Scanned {s.tokens.length} tokens, variables: " ++ quotedList s.names)

def unexpected (c : Char) (position : Nat) : Message :=
  debug ("Unexpected character '" ++ c.toString ++ s!"' at position {position}")

def parsing (source : String) : Message :=
  debug ("Parsing formula: " ++ source)

def parsed {ν : Type} (f : Formula ν) : Message :=
  debug ("Parsed formula into " ++ rootName f)

def compiled (source : String) (r : Compiled) : Message :=
  debug ("Compiled formula " ++ quoted source ++ " as " ++ r.formatted)

def scanTrace (source : String) : List Message :=
  scanning source :: match Token.scan source with
    | .ok s => [scanned s]
    | .error (.lex (.misplaced c position)) => [unexpected c position]
    | .error _ => []

def parseTrace (source : String) : List Message :=
  parsing source :: scanTrace source ++ match parse source with
    | .ok p => [parsed p.ast]
    | .error e => failureTrace e

def compileTrace (source : String) : List Message :=
  parseTrace source ++ match compile source with
    | .ok r => [compiled source r]
    | .error _ => []

def classifyTrace (r : Compiled) (c : Classification) : List Message :=
  [debug ("Classified " ++ r.formatted ++ " as " ++ c.name)]

def tableTrace (r : Compiled) (t : Table) : List Message :=
  [debug s!"Collected {r.ast.subformulas.length} subexpression columns",
    debug ("Built truth table for " ++ r.formatted
      ++ s!": {t.header.length} columns, {t.rows.length} rows")]

def jointTrace (rs : List Compiled) (verdict : JointVerdict) : List Message :=
  if rs.isEmpty then [debug "Joint check requested with no formulas"]
  else
    [debug (s!"Joint check over {rs.length} formulas ({(commonNames rs).length} variables): "
      ++ verdict.name)]

def table (t : Table) : List Message :=
  t.lines.map info

def witness (w : List (String × Bool)) : String :=
  ", ".intercalate (w.map fun (name, value) => name ++ "=" ++ Table.cell value)

end Propositional.Message
