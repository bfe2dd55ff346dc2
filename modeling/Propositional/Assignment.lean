/-!
# Assignments

An assignment gives a truth value to each of `n` variables. The rows of a truth table go through all
of them: the first variable varies slowest and true comes before false. `find?_eq_none_iff` says
that the search over all rows misses none of them.
-/

namespace Propositional

abbrev Assignment (n : Nat) := Vector Bool n

namespace Assignment

def row (n i : Nat) : Assignment n :=
  Vector.ofFn fun j => decide (i % (1 <<< (n - j.val)) < 1 <<< (n - j.val - 1))

def rows (n : Nat) : List (Assignment n) :=
  (List.range (1 <<< n)).map (row n)

def findIndex? (p : Nat → Bool) : (left i : Nat) → Option Nat
  | 0, _ => none
  | left + 1, i => if p i then some i else findIndex? p left (i + 1)

/-- The first row with a property. Rows are computed as they are needed. -/
def find? (n : Nat) (p : Assignment n → Bool) : Option (Assignment n) :=
  (findIndex? (fun i => p (row n i)) (1 <<< n) 0).map (row n)

inductive RowError where
  | negativeCount (n : Int)
  | outOfRange (i n : Int)
  deriving DecidableEq

def RowError.message : RowError → String
  | negativeCount n => s!"Variable count must be non-negative, got {n}"
  | outOfRange i n => s!"Row {i} out of range for {n} variables"

def count (n : Int) : Except RowError Nat :=
  if n < 0 then .error (.negativeCount n) else .ok (1 <<< n.toNat)

/-- Row `i` over `n` variables; a negative row is refused before the number of variables is looked
at. -/
def rowAt (i n : Int) : Except RowError (List Bool) :=
  if i < 0 then .error (.outOfRange i n)
  else (count n).bind fun total =>
    if i < total then .ok (row n.toNat i.toNat).toList else .error (.outOfRange i n)

def firstRows (n : Int) (limit : Nat) : Except RowError (List (List Bool)) :=
  (count n).map fun total => (List.range (min limit total)).map fun i => (row n.toNat i).toList

theorem findIndex?_eq_none_iff {p : Nat → Bool} {left i : Nat} :
    findIndex? p left i = none ↔ ∀ k, i ≤ k → k < i + left → p k = false := by
  induction left generalizing i with
  | zero => exact ⟨fun _ k _ _ => by omega, fun _ => rfl⟩
  | succ left ih =>
    rw [findIndex?]
    split
    · simp only [reduceCtorEq, false_iff]
      intro h
      simp_all [h i (Nat.le_refl i) (by omega)]
    · rw [ih]
      constructor
      · intro h k hk hl
        by_cases e : k = i
        · subst e; simp_all
        · exact h k (by omega) (by omega)
      · exact fun h k hk hl => h k (by omega) (by omega)

theorem find?_eq_none_iff {n : Nat} {p : Assignment n → Bool} :
    find? n p = none ↔ ∀ a ∈ rows n, p a = false := by
  simp only [find?, Option.map_eq_none_iff, findIndex?_eq_none_iff, rows, List.mem_map, List.mem_range]
  constructor
  · rintro h a ⟨i, hi, rfl⟩
    exact h i (Nat.zero_le i) (by omega)
  · exact fun h k _ hk => h _ ⟨k, by omega, rfl⟩

end Assignment

end Propositional
