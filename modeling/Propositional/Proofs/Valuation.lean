import Propositional.Compiled
import Propositional.Proofs.Assignment
import Propositional.Proofs.Formula.Renaming

/-!
# Formulas under a valuation of names

A row over a list of names gives each of them the truth value at its place. `Compiled.evaluate_eq_holds`
says that a compiled formula, evaluated at the places of its own table, has the truth value of the formula
by names.
-/

namespace Propositional

/-- The truth value that a row gives to a name; false for a name without a cell. -/
def valuationOf (names : List String) (row : List Bool) (name : String) : Bool :=
  row[names.idxOf name]?.getD false

variable {names : List String} {row : List Bool}

theorem valuationOf_map {name : String} (v : String → Bool) (known : name ∈ names) :
    valuationOf names (names.map v) name = v name := by
  have inside := List.idxOf_lt_length_of_mem known
  have place : names[names.idxOf name] = name := List.getElem_idxOf inside
  simp [valuationOf, List.getElem?_eq_getElem inside, place]

theorem valuationOf_getElem (distinct : names.Nodup) {i : Nat} (inside : i < names.length) :
    valuationOf names row names[i] = row[i]?.getD false := by
  rw [valuationOf, distinct.idxOf_getElem i inside]

theorem valuationOf_append {name : String} (size : row.length = names.length) (known : name ∈ names)
    (more : List Bool) : valuationOf names (row ++ more) name = valuationOf names row name := by
  have inside := List.idxOf_lt_length_of_mem known
  rw [valuationOf, valuationOf, List.getElem?_append_left (by omega)]

theorem map_valuationOf (distinct : names.Nodup) (size : row.length = names.length) :
    names.map (valuationOf names row) = row := by
  apply List.ext_getElem
  · rw [List.length_map, size]
  · intro i _ inside
    rw [List.getElem_map, valuationOf_getElem distinct, List.getElem?_eq_getElem inside]
    rfl

namespace Compiled

variable {r : Compiled} {v w : String → Bool}

theorem mem_names_of_map {f : Formula (Fin r.names.length)} {name : String}
    (leaf : name ∈ (f.map r.names.get).leaves) : name ∈ r.names := by
  rw [Formula.leaves_map] at leaf
  obtain ⟨i, _, rfl⟩ := List.mem_map.mp leaf
  exact List.get_mem _ _

theorem mem_names_of_leaf {name : String} (leaf : name ∈ r.named.leaves) : name ∈ r.names :=
  mem_names_of_map leaf

theorem holds_named_congr (same : ∀ name ∈ r.names, v name = w name) : r.named.holds v = r.named.holds w :=
  Formula.holds_congr fun name leaf => same name (mem_names_of_leaf leaf)

theorem value_eq_holds {a : Assignment r.names.length}
    (reads : ∀ i : Fin r.names.length, a.get i = v (r.names.get i)) : r.value a = r.named.holds v := by
  rw [value, Formula.evaluate_eq_holds, named, Formula.holds_map]
  exact congrArg (r.ast.holds ·) (funext reads)

theorem valuationOf_get (distinct : r.names.Nodup) (a : Assignment r.names.length) (i : Fin r.names.length) :
    valuationOf r.names a.toList (r.names.get i) = a.get i := by
  show valuationOf r.names a.toList r.names[i.val] = a.get i
  rw [valuationOf_getElem distinct, List.getElem?_eq_getElem (by rw [a.length_toList]; exact i.isLt)]
  rfl

theorem value_eq (distinct : r.names.Nodup) (a : Assignment r.names.length) :
    r.value a = r.named.holds (valuationOf r.names a.toList) :=
  value_eq_holds fun i => (valuationOf_get distinct a i).symm

theorem evaluate_eq_holds (distinct : r.names.Nodup) (size : row.length = r.names.length) :
    r.evaluate row = .ok (r.named.holds (valuationOf r.names row)) := by
  rw [evaluate, dif_pos size, value_eq distinct]
  rfl

end Compiled

end Propositional
