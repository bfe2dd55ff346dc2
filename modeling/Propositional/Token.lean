import Propositional.Connective

/-!
# Tokens

A token is a lexeme with its kind and its place in the text. Offsets count characters, and a token
covers `start` up to, but not including, `stop`.
-/

namespace Propositional

inductive Token.Kind where
  | lparen | rparen | not
  | connective (c : Connective)
  | truth (value : Bool)
  | var
  | eof
  deriving DecidableEq

structure Token where
  kind : Token.Kind
  start : Int
  stop : Int
  lexeme : String
  /-- The place of a variable in the table of names. -/
  index : Option Int := none
  deriving DecidableEq

namespace Token.Kind

/-- How tightly a kind binds as an operator; the end of input binds loosest, so it reduces all that
is pending. -/
def precedence? : Kind → Option Int
  | eof => some (-1)
  | connective c => some c.precedence
  | _ => none

def connective? : Kind → Option Connective
  | connective c => some c
  | _ => none

def name : Kind → String
  | lparen => "LPAREN"
  | rparen => "RPAREN"
  | not => "NOT"
  | connective .and => "AND"
  | connective .or => "OR"
  | connective .implies => "IMPLIES"
  | connective .iff => "IFF"
  | truth true => "TRUE"
  | truth false => "FALSE"
  | var => "VARIABLE"
  | eof => "EOF"

/-- The kinds are numbered in the order in which they are listed. -/
def number : Kind → Nat
  | lparen => 1
  | rparen => 2
  | not => 3
  | connective .and => 4
  | connective .or => 5
  | connective .implies => 6
  | connective .iff => 7
  | truth true => 8
  | truth false => 9
  | var => 10
  | eof => 11

end Token.Kind

end Propositional
