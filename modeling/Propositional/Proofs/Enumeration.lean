import Mathlib.Algebra.BigOperators.Ring.Finset
import Propositional.Proofs.Assignment

/-!
# Rows by index

`rows_enumerated` says that going through the rows by their indices is the Cartesian product in its usual
order, and that the index of a row is read off its false values as a binary number.
-/

namespace Propositional.Assignment

/-- All choices of one entry from each list. The last list is gone through fastest. -/
def product {α : Type} : List (List α) → List (List α)
  | [] => [[]]
  | entries :: more => entries.flatMap fun a => (product more).map (a :: ·)

/-- The index of a row: a false value stands behind all rows that go on from a true one. -/
def rank : List Bool → Nat
  | [] => 0
  | value :: rest => (if value then 0 else 2 ^ rest.length) + rank rest

variable {n : Nat} {i m : Int} {row : List Bool}

theorem lists_eq_product (n : Nat) : lists n = product (List.replicate n [true, false]) := by
  induction n with
  | zero => rfl
  | succ n ih =>
    rw [List.replicate_succ, product, ← ih, lists_succ]
    simp

theorem length_lists (n : Nat) : (lists n).length = 2 ^ n := by
  rw [lists, rows, List.length_map, List.length_map, List.length_range, Nat.one_shiftLeft]

theorem getElem?_lists {i : Nat} (inside : i < 2 ^ n) : (lists n)[i]? = some (Assignment.row n i).toList := by
  rw [lists, rows, List.getElem?_map, List.getElem?_map, List.getElem?_range (by rwa [Nat.one_shiftLeft])]
  rfl

theorem count_lists (row : List Bool) : (lists n).count row = if row.length = n then 1 else 0 := by
  rw [(nodup_lists n).count]
  exact if_congr mem_lists rfl rfl

/-! ### The index of a row -/

theorem getElem?_rank (row : List Bool) : (lists row.length)[rank row]? = some row := by
  induction row with
  | nil => rfl
  | cons value rest ih =>
    have inside : rank rest < (lists rest.length).length := (List.getElem?_eq_some_iff.mp ih).1
    rw [List.length_cons, lists_succ]
    cases value with
    | true =>
      have index : rank (true :: rest) = rank rest := Nat.zero_add _
      rw [index, List.getElem?_append_left (by rwa [List.length_map]), List.getElem?_map, ih]
      rfl
    | false =>
      have index : rank (false :: rest) = ((lists rest.length).map (true :: ·)).length + rank rest := by
        rw [List.length_map, length_lists]
        rfl
      rw [index, List.getElem?_append_right (Nat.le_add_right _ _), Nat.add_sub_cancel_left, List.getElem?_map, ih]
      rfl

theorem rank_eq_sum (row : List Bool) : rank row =
    ∑ j ∈ Finset.range row.length with row[j]? = some false, 2 ^ (row.length - 1 - j) := by
  induction row with
  | nil => rfl
  | cons value rest ih =>
    have first : (if value then 0 else 2 ^ rest.length) = if value = false then 2 ^ rest.length else 0 := by
      cases value <;> rfl
    have weight : ∀ j, rest.length - 1 - j = rest.length - (j + 1) := fun j => by omega
    rw [rank, ih, first, Finset.sum_filter, Finset.sum_filter, List.length_cons, Finset.sum_range_succ', Nat.add_comm]
    simp [weight]

/-! ### Rows on request -/

theorem count_eq (n : Nat) : count n = .ok (2 ^ n) := by
  unfold count
  rw [if_neg (by omega), Int.toNat_natCast, Nat.one_shiftLeft]

theorem rowAt_inside {i : Nat} (inside : i < 2 ^ n) : rowAt i n = .ok (Assignment.row n i).toList := by
  have below : (i : Int) < ((2 ^ n : Nat) : Int) := Int.ofNat_lt.mpr inside
  unfold rowAt
  rw [if_neg (by omega), count_eq]
  show (if (i : Int) < ((2 ^ n : Nat) : Int) then _ else _) = _
  rw [if_pos below]
  rfl

theorem rowAt_outside (outside : i < 0 ∨ 2 ^ n ≤ i) : rowAt i n = .error (.outOfRange i n) := by
  unfold rowAt
  split
  · rfl
  · rename_i nonneg
    have beyond : ¬ i < ((2 ^ n : Nat) : Int) := by
      rw [Nat.cast_pow]
      exact not_lt.mpr (outside.resolve_left nonneg)
    rw [count_eq]
    show (if i < ((2 ^ n : Nat) : Int) then _ else _) = _
    rw [if_neg beyond]

theorem firstRows_eq (n limit : Nat) : firstRows n limit = .ok ((lists n).take limit) := by
  have rows : (List.range (min limit (2 ^ n))).map (fun i => (Assignment.row n i).toList) = (lists n).take limit := by
    rw [lists, Assignment.rows, Nat.one_shiftLeft, ← List.take_range, List.map_take, List.map_map]
    rfl
  unfold firstRows
  rw [count_eq, ← rows]
  rfl

theorem count_negative (negative : m < 0) : count m = .error (.negativeCount m) :=
  if_pos negative

theorem rowAt_negative (negative : m < 0) (i : Int) :
    rowAt i m = .error (if i < 0 then .outOfRange i m else .negativeCount m) := by
  unfold rowAt
  rw [count_negative negative]
  split <;> rfl

theorem firstRows_negative (negative : m < 0) (limit : Nat) : firstRows m limit = .error (.negativeCount m) := by
  unfold firstRows
  rw [count_negative negative]
  rfl

/-- The rows are the product in its usual order, and the index of a row is read off its false values. -/
theorem rows_enumerated (n : Nat) :
    (∀ limit, firstRows n limit = .ok ((product (List.replicate n [true, false])).take limit)) ∧
    lists n = product (List.replicate n [true, false]) ∧
    count n = .ok (2 ^ n) ∧ (lists n).length = 2 ^ n ∧
    (∀ row, (lists n).count row = if row.length = n then 1 else 0) ∧
    (lists n).Pairwise Precedes ∧
    (∀ i : Nat, i < 2 ^ n → ∃ row, (lists n)[i]? = some row ∧ rowAt i n = .ok row) ∧
    (∀ row : List Bool, row.length = n →
      (lists n)[∑ j ∈ Finset.range n with row[j]? = some false, 2 ^ (n - 1 - j)]? = some row) ∧
    (∀ i : Int, i < 0 ∨ 2 ^ n ≤ i → rowAt i n = .error (.outOfRange i n)) ∧
    ∀ m : Int, m < 0 → count m = .error (.negativeCount m) ∧
      (∀ i, rowAt i m = .error (if i < 0 then .outOfRange i m else .negativeCount m)) ∧
      ∀ limit, firstRows m limit = .error (.negativeCount m) := by
  refine ⟨fun limit => ?_, lists_eq_product n, count_eq n, length_lists n, count_lists, lists_pairwise n,
    fun i inside => ⟨_, getElem?_lists inside, rowAt_inside inside⟩, fun row size => ?_,
    fun _ => rowAt_outside, fun m negative => ?_⟩
  · rw [← lists_eq_product]
    exact firstRows_eq n limit
  · subst size
    rw [← rank_eq_sum]
    exact getElem?_rank row
  · exact ⟨count_negative negative, rowAt_negative negative, firstRows_negative negative⟩

end Propositional.Assignment
