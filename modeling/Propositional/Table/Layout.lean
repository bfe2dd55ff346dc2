import Propositional.Table

/-!
# Table layout

A table as lines of text: a header, a rule and a line a row. Every column is as wide as its title,
and at least one character; surplus cells of a row are left out.
-/

namespace Propositional.Table

def padded (width : Nat) (text : String) : String :=
  text ++ String.ofList (List.replicate (width - text.length) ' ')

def cell (value : Bool) : String :=
  if value then "T" else "F"

def widths (t : Table) : List Nat :=
  t.header.map fun title => max title.length 1

def line (widths : List Nat) (cells : List String) : String :=
  " | ".intercalate (List.zipWith padded widths cells)

def rule (widths : List Nat) : String :=
  "-+-".intercalate (widths.map fun w => String.ofList (List.replicate w '-'))

def lines (t : Table) : List String :=
  line t.widths t.header :: rule t.widths :: t.rows.map fun row => line t.widths (row.map cell)

end Propositional.Table
