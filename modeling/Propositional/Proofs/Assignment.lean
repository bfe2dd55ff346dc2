import Mathlib.Algebra.Group.Nat.Defs
import Propositional.Assignment

/-!
# Rows in order

The rows over `n` variables are all lists of `n` truth values, each of them once, in lexicographic order
with true before false. `find?_eq_some_iff` says that the search over the rows stops at the earliest one.
-/

namespace Propositional.Assignment

/-- At the first place where the rows differ, the left one has true and the right one has false. -/
inductive Precedes : List Bool → List Bool → Prop where
  | here {xs ys : List Bool} : Precedes (true :: xs) (false :: ys)
  | later {x : Bool} {xs ys : List Bool} (after : Precedes xs ys) : Precedes (x :: xs) (x :: ys)

theorem Precedes.asymm {xs ys : List Bool} (h : Precedes xs ys) : ¬ Precedes ys xs := by
  induction h with
  | here => intro back; cases back
  | later _ ih =>
    intro back
    cases back with
    | later back => exact ih back

variable {n : Nat}

/-! ### The rows over one more variable -/

theorem toList_row_succ (n i : Nat) :
    (row (n + 1) i).toList = decide (i % 2 ^ (n + 1) < 2 ^ n) :: (row n i).toList := by
  unfold row
  rw [Vector.toList_ofFn, Vector.toList_ofFn, List.ofFn_succ]
  simp [Nat.one_shiftLeft, Nat.add_sub_add_right]

theorem row_add (n i : Nat) : row n (2 ^ n + i) = row n i := by
  unfold row
  apply congrArg Vector.ofFn
  funext j
  -- Every place looks at the index modulo a power that divides the number of rows.
  have divides : 2 ^ n % 2 ^ (n - j.val) = 0 := Nat.mod_eq_zero_of_dvd (Nat.pow_dvd_pow 2 (Nat.sub_le n j.val))
  rw [Nat.one_shiftLeft, Nat.add_mod, divides, Nat.zero_add, Nat.mod_mod]

theorem toList_row_first {i : Nat} (low : i < 2 ^ n) : (row (n + 1) i).toList = true :: (row n i).toList := by
  rw [toList_row_succ, Nat.mod_eq_of_lt (by rw [Nat.pow_succ]; omega), decide_eq_true low]

theorem toList_row_second {i : Nat} (low : i < 2 ^ n) :
    (row (n + 1) (2 ^ n + i)).toList = false :: (row n i).toList := by
  have high : ¬ 2 ^ n + i < 2 ^ n := by omega
  rw [toList_row_succ, row_add, Nat.mod_eq_of_lt (by rw [Nat.pow_succ]; omega), decide_eq_false high]

/-- The truth values of every row, in order. -/
def lists (n : Nat) : List (List Bool) :=
  (rows n).map (·.toList)

theorem lists_zero : lists 0 = [[]] :=
  rfl

theorem lists_succ (n : Nat) : lists (n + 1) = (lists n).map (true :: ·) ++ (lists n).map (false :: ·) := by
  have first : (List.range (2 ^ n)).map (fun i => (row (n + 1) i).toList) = (lists n).map (true :: ·) := by
    simp only [lists, rows, List.map_map, Nat.one_shiftLeft]
    exact List.map_congr_left fun i member => toList_row_first (List.mem_range.mp member)
  have second : (List.range (2 ^ n)).map (fun i => (row (n + 1) (2 ^ n + i)).toList) =
      (lists n).map (false :: ·) := by
    simp only [lists, rows, List.map_map, Nat.one_shiftLeft]
    exact List.map_congr_left fun i member => toList_row_second (List.mem_range.mp member)
  have double : 1 <<< (n + 1) = 2 ^ n + 2 ^ n := by rw [Nat.one_shiftLeft, Nat.pow_succ]; omega
  rw [← first, ← second, lists, rows, double, List.range_add, List.map_append, List.map_append, List.map_map,
    List.map_map, List.map_map]
  rfl

theorem mem_lists {xs : List Bool} : xs ∈ lists n ↔ xs.length = n := by
  induction n generalizing xs with
  | zero => rw [lists_zero, List.mem_singleton, List.length_eq_zero_iff]
  | succ n ih =>
    rw [lists_succ, List.mem_append, List.mem_map, List.mem_map]
    constructor
    · rintro (⟨ys, member, rfl⟩ | ⟨ys, member, rfl⟩)
      · rw [List.length_cons, ih.mp member]
      · rw [List.length_cons, ih.mp member]
    · intro size
      cases xs with
      | nil => cases size
      | cons x xs =>
        have member : xs ∈ lists n := ih.mpr (Nat.succ.inj size)
        cases x with
        | true => exact Or.inl ⟨xs, member, rfl⟩
        | false => exact Or.inr ⟨xs, member, rfl⟩

theorem lists_pairwise (n : Nat) : (lists n).Pairwise Precedes := by
  induction n with
  | zero => rw [lists_zero]; exact List.pairwise_singleton _ _
  | succ n ih =>
    rw [lists_succ, List.pairwise_append]
    refine ⟨ih.map _ fun _ _ => .later, ih.map _ fun _ _ => .later, fun xs left ys right => ?_⟩
    obtain ⟨_, _, rfl⟩ := List.mem_map.mp left
    obtain ⟨_, _, rfl⟩ := List.mem_map.mp right
    exact .here

theorem nodup_lists (n : Nat) : (lists n).Nodup := by
  refine (lists_pairwise n).imp fun before same => ?_
  rw [same] at before
  exact before.asymm before

theorem mem_rows (a : Assignment n) : a ∈ rows n := by
  have member : a.toList ∈ lists n := mem_lists.mpr a.length_toList
  obtain ⟨b, inside, same⟩ := List.mem_map.mp member
  rw [← Vector.toList_inj.mp same]
  exact inside

theorem rows_pairwise (n : Nat) : (rows n).Pairwise fun a b => Precedes a.toList b.toList :=
  List.pairwise_map.mp (lists_pairwise n)

/-! ### The earliest row with a property -/

theorem findIndex?_eq (p : Nat → Bool) (left i : Nat) : findIndex? p left i = (List.range' i left).find? p := by
  induction left generalizing i with
  | zero => rfl
  | succ left ih =>
    rw [findIndex?, List.range'_succ, List.find?_cons, ih]
    cases p i <;> rfl

theorem find?_eq (n : Nat) (p : Assignment n → Bool) : find? n p = (rows n).find? p := by
  rw [find?, findIndex?_eq, rows, List.range_eq_range', List.find?_map]
  rfl

variable {p : Assignment n → Bool} {a : Assignment n}

theorem find?_none_iff : find? n p = none ↔ ∀ a, p a = false := by
  rw [find?_eq_none_iff]
  exact ⟨fun none a => none a (mem_rows a), fun none a _ => none a⟩

theorem earliest_of_find? (found : find? n p = some a) :
    p a = true ∧ ∀ b, p b = true → b = a ∨ Precedes a.toList b.toList := by
  rw [find?_eq, List.find?_eq_some_iff_append] at found
  obtain ⟨holds, before, after, split, fails⟩ := found
  refine ⟨holds, fun b holds' => ?_⟩
  have member := mem_rows b
  have sorted := rows_pairwise n
  rw [split] at member sorted
  rcases List.mem_append.mp member with earlier | later
  · have differs := fails b earlier
    rw [holds'] at differs
    cases differs
  · rcases List.mem_cons.mp later with same | later
    · exact Or.inl same
    · exact Or.inr ((List.pairwise_cons.mp (List.pairwise_append.mp sorted).2.1).1 b later)

theorem find?_eq_some_iff : find? n p = some a ↔
    p a = true ∧ ∀ b, p b = true → b = a ∨ Precedes a.toList b.toList := by
  constructor
  · exact earliest_of_find?
  · rintro ⟨holds, earliest⟩
    cases found : find? n p with
    | none =>
      rw [find?_none_iff.mp found] at holds
      cases holds
    | some b =>
      obtain ⟨holds', earliest'⟩ := earliest_of_find? found
      obtain rfl | before := earliest b holds'
      · rfl
      · obtain same | after := earliest' a holds
        · rw [same]
        · exact absurd after before.asymm

end Propositional.Assignment
