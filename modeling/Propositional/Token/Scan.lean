import Propositional.Distinct
import Propositional.Token.Numbering
import Propositional.Token.Spelling

/-!
# Scanning

From text to tokens in three steps: every character must be allowed, the text is read lexeme by
lexeme with variables carried by name, and the names are numbered. The tokens end with one `eof` of
no width.
-/

namespace Propositional.Token

inductive LexError where
  /-- A character that occurs in no lexeme. -/
  | illegal (position : Nat)
  /-- A character that starts no lexeme. -/
  | misplaced (c : Char) (position : Nat)
  deriving DecidableEq

namespace LexError

def position : LexError → Nat
  | illegal position | misplaced _ position => position

def message : LexError → String
  | illegal _ => "Illegal character"
  | misplaced c _ => "The character " ++ c.toString ++ " shouldn't be here."

end LexError

/-- Refuses a text at its first character that may not occur in a formula. -/
def checkAllowed (position : Nat) : List Char → Except LexError Unit
  | [] => .ok ()
  | c :: rest => if isAllowed c then checkAllowed (position + 1) rest else .error (.illegal position)

def lexFrom (position : Nat) : List Char → Except LexError (List Token)
  | [] => .ok [⟨.eof, position, position, "", none⟩]
  | c :: rest =>
    if isBlank c then lexFrom (position + 1) rest
    else
      match lexeme? (c :: rest) with
      | none => .error (.misplaced c position)
      | some (lexeme, kind) =>
        let stop := position + lexeme.length
        match lexFrom stop (rest.drop (lexeme.length - 1)) with
        | .ok tokens => .ok (⟨kind, position, stop, String.ofList lexeme, none⟩ :: tokens)
        | .error e => .error e
termination_by text => text.length
decreasing_by all_goals simp only [List.length_cons, List.length_drop]; omega

/-- The names of the variables in the order in which they first occur. -/
def seenNames (tokens : List Token) : List String :=
  distinct ((tokens.filter (·.kind = .var)).map lexeme)

def lex (text : String) : Except LexError (List Token) :=
  lexFrom 0 text.toList

inductive ScanError where
  | lex (e : LexError)
  | unknown (e : UnknownName)

def scan (text : String) : Except ScanError Scanned :=
  match checkAllowed 0 text.toList with
  | .error e => .error (.lex e)
  | .ok () =>
    match lex text with
    | .error e => .error (.lex e)
    | .ok tokens => (number tokens (seenNames tokens)).mapError .unknown

end Propositional.Token
