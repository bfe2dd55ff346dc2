import Propositional.Text.Integer
import Propositional.Text.Quoted

/-!
# Arguments

Reading the arguments of the command line. First every argument is sorted into switches, operands
and the terminator `--`, after which all are operands; then the switches are applied from left to
right. The formulas are one run of operands, so operands that come after a later switch are not
recognized.
-/

namespace Propositional.CommandLine

inductive Switch where
  | help | file | table | joint | jointTable | maxVars | quiet | debug
  deriving DecidableEq

def switchNames : List (String × Switch) := [
  ("-h", .help), ("--help", .help), ("-f", .file), ("--file", .file), ("--table", .table),
  ("--joint", .joint), ("--joint-table", .jointTable), ("--max-vars", .maxVars), ("-q", .quiet),
  ("--quiet", .quiet), ("--debug", .debug)]

namespace Switch

def takesValue : Switch → Bool
  | file | maxVars => true
  | _ => false

def title (s : Switch) : String :=
  "/".intercalate ((switchNames.filter (·.2 = s)).map (·.1))

end Switch

inductive UsageError where
  | ambiguous (argument : String) (candidates : List String)
  | ignoredValue (switch : Switch) (value : String)
  | missingValue (switch : Switch)
  | notANumber (switch : Switch) (value : String)
  | unrecognized (arguments : List String)
  deriving DecidableEq

def UsageError.message : UsageError → String
  | ambiguous argument candidates =>
    "ambiguous option: " ++ argument ++ " could match " ++ ", ".intercalate candidates
  | ignoredValue s value => "argument " ++ s.title ++ ": ignored explicit argument " ++ quoted value
  | missingValue s => "argument " ++ s.title ++ ": expected one argument"
  | notANumber s value => "argument " ++ s.title ++ ": invalid int value: " ++ quoted value
  | unrecognized arguments => "unrecognized arguments: " ++ " ".intercalate arguments

/-- An argument as it is understood before any switch is applied. -/
inductive Word where
  | operand (text : String)
  | terminator
  | switch (s : Switch) (name : String) (value : Option (List Char))
  | unknown (text : String)

def Word.operandText? : Word → Option String
  | operand text => some text
  | terminator => some "--"
  | _ => none

def splitValue (text : List Char) : List Char × Option (List Char) :=
  match text.dropWhile (· ≠ '=') with
  | [] => (text, none)
  | _ :: value => (text.takeWhile (· ≠ '='), some value)

/-- The switches that an abbreviated or grouped argument may mean, with the value it carries. A long
name may be cut short; a short one may be followed by its value. -/
def candidates (text : List Char) : List (String × Switch × Option (List Char)) :=
  match text with
  | '-' :: '-' :: _ =>
    let (start, value) := splitValue text
    let matching := switchNames.filter fun (name, _) => start.isPrefixOf name.toList
    matching.map fun (name, s) => (name, s, value)
  | '-' :: c :: value =>
    let matching := switchNames.filter fun (name, _) => name = String.ofList ['-', c]
    matching.map fun (name, s) => (name, s, some value)
  | _ => []

/-- A whole number or a decimal fraction with a minus sign in front, and perhaps one line feed
behind. -/
def looksNegative : List Char → Bool
  | '-' :: rest =>
    let body := if rest.getLast? = some '\n' then rest.dropLast else rest
    let isDigit (c : Char) := (digit? c).isSome
    match body.dropWhile isDigit with
    | [] => !body.isEmpty
    | '.' :: fraction => !fraction.isEmpty && fraction.all isDigit
    | _ => false
  | _ => false

def wordOf (text : String) : Except UsageError Word :=
  match text.toList with
  | '-' :: c :: rest =>
    match switchNames.lookup text with
    | some s => .ok (.switch s text none)
    | none =>
      let (start, value) := splitValue ('-' :: c :: rest)
      match switchNames.lookup (String.ofList start), value with
      | some s, some value => .ok (.switch s (String.ofList start) (some value))
      | _, _ =>
        match candidates ('-' :: c :: rest) with
        | [(name, s, value)] => .ok (.switch s name value)
        | [] =>
          if looksNegative ('-' :: c :: rest) || text.toList.contains ' ' then .ok (.operand text)
          else .ok (.unknown text)
        | several => .error (.ambiguous text (several.map (·.1)))
  | _ => .ok (.operand text)

def wordsOf : List String → Except UsageError (List Word)
  | [] => .ok []
  | text :: rest =>
    if text = "--" then .ok (.terminator :: rest.map .operand)
    else do
      let word ← wordOf text
      return word :: (← wordsOf rest)

structure Options where
  formulas : List String := []
  file : Option String := none
  table : Bool := false
  joint : Bool := false
  jointTable : Bool := false
  maxVars : Int := 16
  quiet : Bool := false
  debug : Bool := false

inductive Refusal where
  | help
  | usage (e : UsageError)

/-- Applies a switch; a terminator is no value. -/
def Options.apply (o : Options) (s : Switch) (value : String) : Except Refusal Options :=
  match s with
  | .help => .error .help
  | .file => .ok (if value = "--" then o else { o with file := some value })
  | .table => .ok { o with table := true }
  | .joint => .ok { o with joint := true }
  | .jointTable => .ok { o with jointTable := true }
  | .maxVars =>
    if value = "--" then .ok o
    else
      match integer? value with
      | some n => .ok { o with maxVars := n }
      | none => .error (.usage (.notANumber .maxVars value))
  | .quiet => .ok { o with quiet := true }
  | .debug => .ok { o with debug := true }

/-- The switches of a group of short names that starts with `s`, given what is written after it. The
last one may take a value: what is left of the group or else the next operand. -/
def group (s : Switch) (long : Bool) (next : Option String) :
    Option (List Char) → Except UsageError (List (Switch × String) × Bool)
  | none =>
    if s.takesValue then
      match next with
      | some value => .ok ([(s, value)], true)
      | none => .error (.missingValue s)
    else .ok ([(s, "")], false)
  | some [] => if s.takesValue then .ok ([(s, "")], false) else .error (.ignoredValue s "")
  | some (c :: value) =>
    if s.takesValue then .ok ([(s, String.ofList (c :: value))], false)
    else
      match long, switchNames.lookup (String.ofList ['-', c]) with
      | false, some t => do
        let (switches, taken) ← group t false next (if value.isEmpty then none else some value)
        return ((s, "") :: switches, taken)
      | _, _ => .error (.ignoredValue s (String.ofList (c :: value)))
termination_by value => (value.map List.length).getD 0
decreasing_by split <;> simp

def isLong (name : String) : Bool :=
  "--".toList.isPrefixOf name.toList

/-- The words from the first switch on, after the operands in front of them. -/
def consume (o : Options) (formulasTaken : Bool) (extras : List String) :
    List Word → Except Refusal (Options × List String)
  | [] => .ok (o, extras)
  | .unknown text :: rest => consume o formulasTaken (extras ++ [text]) rest
  | .switch s name value :: rest => do
    let next := match rest with
      | .operand text :: _ => some text
      | _ => none
    let (switches, taken) ← (group s (isLong name) next value).mapError .usage
    let o ← switches.foldlM (fun o (s, value) => o.apply s value) o
    consume o formulasTaken extras (rest.drop (if taken then 1 else 0))
  | word :: rest =>
    let run := (word :: rest.takeWhile (·.operandText?.isSome)).filterMap (·.operandText?)
    let after := rest.dropWhile (·.operandText?.isSome)
    if formulasTaken then consume o true (extras ++ run) after
    else consume { o with formulas := run.erase "--" } true extras after
termination_by words => words.length
decreasing_by
  · exact Nat.lt_succ_self _
  · simp only [List.length_cons, List.length_drop]; omega
  · exact Nat.lt_succ_of_le (List.dropWhile_suffix _).length_le
  · exact Nat.lt_succ_of_le (List.dropWhile_suffix _).length_le

def Options.ofArguments (arguments : List String) : Except Refusal Options := do
  let words ← (wordsOf arguments).mapError .usage
  let (options, extras) ← consume {} false [] words
  if extras.isEmpty then return options else throw (.usage (.unrecognized extras))

end Propositional.CommandLine
