import Propositional.Text.Blank
import Propositional.Token

/-!
# Spellings

Every symbol may be written in several ways, and some words are reserved. `lexeme?` reads the lexeme
that a text starts with.
-/

namespace Propositional.Token

/-- The spellings of each symbol, in the order in which they are tried. -/
def spellings : List (Kind × List String) := [
  (.connective .iff, ["<->", "<=>", "↔", "\\leftrightarrow", "\\Leftrightarrow"]),
  (.truth true, ["⊤", "\\top"]),
  (.truth false, ["⊥", "\\bot"]),
  (.connective .implies, ["->", "=>", "→", "\\rightarrow", "\\Rightarrow", "\\to"]),
  (.not, ["~", "!", "¬", "\\lnot", "\\neg"]),
  (.connective .and, ["/\\", "&&", "^", "∧", "\\land", "\\wedge"]),
  (.connective .or, ["\\/", "||", "∨", "\\lor", "\\vee"]),
  (.lparen, ["("]),
  (.rparen, [")"])]

/-- Words with the shape of a name that stand for a symbol. -/
def reserved : List (String × Kind) := [
  ("T", .truth true), ("true", .truth true), ("F", .truth false), ("false", .truth false),
  ("not", .not), ("and", .connective .and), ("or", .connective .or),
  ("implies", .connective .implies), ("iff", .connective .iff)]

def symbols : List (List Char × Kind) :=
  spellings.flatMap fun (kind, texts) => texts.map fun text => (text.toList, kind)

/-- The first symbol that the text starts with. -/
def symbol? (text : List Char) : Option (List Char × Kind) :=
  symbols.find? fun (spelling, _) => spelling.isPrefixOf text

def isNameStart (c : Char) : Bool :=
  c.isAlpha || c == '_'

def isNamePart (c : Char) : Bool :=
  c.isAlphanum || c == '_'

def wordKind (word : String) : Kind :=
  (reserved.lookup word).getD .var

/-- The longest name or reserved word that the text starts with. -/
def word? : List Char → Option (List Char × Kind)
  | [] => none
  | c :: rest =>
    if isNameStart c then
      let word := c :: rest.takeWhile isNamePart
      some (word, wordKind (String.ofList word))
    else none

def lexeme? (text : List Char) : Option (List Char × Kind) :=
  symbol? text <|> word? text

def isAllowed (c : Char) : Bool :=
  isNamePart c || isBlank c || "\\/<>-~^()&|=!∧∨→↔⊤⊥¬".toList.contains c

end Propositional.Token
