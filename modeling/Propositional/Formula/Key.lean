import Propositional.Formula.Walk.Reading

/-!
# Keys

A key is a number that stands for a formula up to structural equality. A node's shape is the node
with its direct subformulas replaced by their keys, so two nodes are compared without looking below
them. A table of shapes, newest first, gives each shape the number of shapes that were there before
it.
-/

namespace Propositional.Formula

variable {ν : Type}

inductive Shape (ν : Type) where
  | truth (value : Bool)
  | var (i : ν)
  | not (f : Nat)
  | binary (c : Connective) (l r : Nat)
  deriving DecidableEq

variable [DecidableEq ν]

def Shape.key? (shape : Shape ν) : List (Shape ν) → Option Nat
  | [] => none
  | first :: older => if first = shape then some older.length else shape.key? older

/-- The key of a shape, which enters the table if it is new. -/
def Shape.enter (shape : Shape ν) (table : List (Shape ν)) : Nat × List (Shape ν) :=
  match shape.key? table with
  | some key => (key, table)
  | none => (table.length, shape :: table)

def Shape.Keeps (table larger : List (Shape ν)) : Prop :=
  ∀ (shape : Shape ν) (key : Nat), shape.key? table = some key → shape.key? larger = some key

theorem Shape.enter_known {shape : Shape ν} {table : List (Shape ν)} {key : Nat}
    (known : shape.key? table = some key) : shape.enter table = (key, table) := by
  rw [enter, known]

theorem Shape.key?_enter (shape : Shape ν) (table : List (Shape ν)) :
    shape.key? (shape.enter table).2 = some (shape.enter table).1 := by
  cases known : shape.key? table with
  | some key => rw [enter_known known, known]
  | none =>
    rw [enter, known, key?]
    exact if_pos rfl

theorem Shape.enter_keeps (shape : Shape ν) (table : List (Shape ν)) : Keeps table (shape.enter table).2 := by
  intro other key found
  cases known : shape.key? table with
  | some place => rwa [enter_known known]
  | none =>
    rw [enter, known, key?, if_neg, found]
    intro same
    rw [same, found] at known
    cases known

/-- A node whose key is that of its shape. -/
def Shape.enterNode (shape : Shape ν) (node : Nat → Keyed ν) (table : List (Shape ν)) :
    Except Empty (Keyed ν × List (Shape ν)) :=
  let (key, table) := shape.enter table
  .ok (node key, table)

theorem Shape.enterNode_lasting (shape : Shape ν) (node : Nat → Keyed ν) : Lasting Keeps (shape.enterNode node) := by
  intro table keyed larger entered
  have same : (node (shape.enter table).1, (shape.enter table).2) = (keyed, larger) := Except.ok.inj entered
  obtain ⟨rfl, rfl⟩ := Prod.mk.inj same
  refine ⟨shape.enter_keeps table, fun later kept => ?_⟩
  rw [enterNode, enter_known (kept shape _ (shape.key?_enter table))]

def Pass.key : Pass (List (Shape ν)) Empty ν (Keyed ν) where
  truth v := (Shape.truth v).enterNode fun key => .truth key v
  var i := (Shape.var i).enterNode fun key => .var key i
  not f := (Shape.not f.key).enterNode fun key => .not key f
  binary c l r := (Shape.binary c l.key r.key).enterNode fun key => .binary key c l r
  later := Shape.Keeps
  later_refl _ _ _ found := found
  later_trans first rest shape key found := rest shape key (first shape key found)
  truth_lasting _ := Shape.enterNode_lasting _ _
  var_lasting _ := Shape.enterNode_lasting _ _
  not_lasting _ := Shape.enterNode_lasting _ _
  binary_lasting _ _ _ := Shape.enterNode_lasting _ _

/-- Keys for every node of a formula, and the table with the shapes that were new. -/
def keyed (f : Formula ν) (table : List (Shape ν)) : Keyed ν × List (Shape ν) :=
  sure (f.walk .key table)

theorem keyed_formula (f : Formula ν) (table : List (Shape ν)) : (f.keyed table).1.formula = f := by
  rw [keyed, walk_eq_fold]
  induction f generalizing table with
  | truth | var => rfl
  | not f ih =>
    simp only [fold, sure_bind]
    exact congrArg Formula.not (ih table)
  | binary c l r hl hr =>
    simp only [fold, sure_bind]
    show Formula.binary c _ _ = _
    rw [hl, hr]

end Propositional.Formula
