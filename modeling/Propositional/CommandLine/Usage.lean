import Propositional.CommandLine.Arguments

/-!
# Usage

The texts that explain the command line.
-/

namespace Propositional.CommandLine

def usageLines : List String := [
  "usage: run_tables.py [-h] [-f FILE] [--table] [--joint] [--joint-table]",
  "                     [--max-vars MAX_VARS] [-q] [--debug]",
  "                     [formulas ...]"]

def helpLines : List String := usageLines ++ [
  "",
  "Tabula propositional truth table generator",
  "",
  "positional arguments:",
  "  formulas              Formulas to analyze",
  "",
  "options:",
  "  -h, --help            show this help message and exit",
  "  -f FILE, --file FILE  Path to a file with one formula per line",
  "  --table               Print the full truth table of each formula",
  "  --joint               Check joint satisfiability of all formulas",
  "  --joint-table         Print the joint truth table (implies --joint)",
  "  --max-vars MAX_VARS   Reject formulas with more variables than this (default",
  "                        16)",
  "  -q, --quiet           Only report warnings and errors",
  "  --debug               Enable debug output (overrides --quiet)",
  "",
  "Examples:",
  "  python run_tables.py \"p or not p\"",
  "  python run_tables.py \"p -> q\" \"p\" --joint",
  "  python run_tables.py -f formulas.txt --table",
  "  python run_tables.py \"p /\\ q\" --table --debug",
  "",
  "Formula file format:",
  "  One formula per line; blank lines and lines starting with # are ignored.",
  "",
  "Connectives:",
  "  not: ~ ! not ¬ \\lnot \\neg        and: /\\ && and ^ ∧ \\land \\wedge",
  "  or:  \\/ || or ∨ \\lor \\vee         implies: -> => implies → \\to \\rightarrow",
  "  iff: <-> <=> iff ↔ \\leftrightarrow constants: T true ⊤ \\top / F false ⊥ \\bot",
  "        "]

def lineEnded (lines : List String) : String :=
  String.join (lines.map (· ++ "\n"))

def help : String :=
  lineEnded helpLines

def UsageError.text (e : UsageError) : String :=
  lineEnded (usageLines ++ ["run_tables.py: error: " ++ e.message])

end Propositional.CommandLine
