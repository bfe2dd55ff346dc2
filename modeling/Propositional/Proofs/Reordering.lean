import Mathlib.Data.List.NodupEquivFin
import Propositional.Proofs.Joint

/-!
# The order of formulas

In another order the same formulas bring their names in another order, so the columns and the rows of their
joint table are rearranged. `joint_reordered` says that this is all that happens.
-/

namespace Propositional

open Assignment

/-- The row of the joint table under a valuation of the names. -/
def jointRow (rs : List Compiled) (v : String → Bool) : List Bool :=
  (commonNames rs).map v ++ rs.map (·.named.holds v)

/-- Rows of two joint tables that agree on every name and on every formula, wherever it stands in its table. -/
structure Matched (rs qs : List Compiled) (row other : List Bool) : Prop where
  names : ∀ (j k : Nat) name, (commonNames rs)[j]? = some name → (commonNames qs)[k]? = some name →
    ∃ value, row[j]? = some value ∧ other[k]? = some value
  formulas : ∀ (j k : Nat) r, rs[j]? = some r → qs[k]? = some r →
    ∃ value, row[(commonNames rs).length + j]? = some value ∧ other[(commonNames qs).length + k]? = some value

/-- The value that a witness gives to a name; false for a name that it leaves out. -/
def witnessValue (witness : List (String × Bool)) (name : String) : Bool :=
  (witness.lookup name).getD false

variable {rs qs : List Compiled} {v w : String → Bool}

/-! ### Rows of a joint table -/

theorem valuationOf_jointRow {name : String} (known : name ∈ commonNames rs) :
    valuationOf (commonNames rs) (jointRow rs v) name = v name := by
  unfold jointRow
  rw [valuationOf_append (List.length_map ..) known, valuationOf_map v known]

theorem jointRow_congr (same : ∀ name ∈ commonNames rs, v name = w name) : jointRow rs v = jointRow rs w := by
  unfold jointRow
  rw [List.map_congr_left same]
  apply congrArg
  apply List.map_congr_left
  intro r member
  exact Compiled.holds_named_congr fun name known => same name (mem_commonNames_of_mem member known)

theorem jointRow_valuationOf {inputs : List Bool} (size : inputs.length = (commonNames rs).length) :
    jointRow rs (valuationOf (commonNames rs) inputs) =
      inputs ++ rs.map fun r => r.named.holds (valuationOf (commonNames rs) inputs) := by
  unfold jointRow
  rw [map_valuationOf (nodup_commonNames rs) size]

theorem jointTable_rows_eq (nonempty : rs ≠ []) : (jointTable rs).rows =
    (lists (commonNames rs).length).map fun inputs => jointRow rs (valuationOf (commonNames rs) inputs) := by
  rw [jointTable_rows nonempty]
  apply List.map_congr_left
  intro inputs member
  exact (jointRow_valuationOf (mem_lists.mp member)).symm

theorem mem_jointTable_rows (nonempty : rs ≠ []) {row : List Bool} :
    row ∈ (jointTable rs).rows ↔ ∃ v, row = jointRow rs v := by
  rw [jointTable_rows_eq nonempty, List.mem_map]
  constructor
  · rintro ⟨inputs, _, rfl⟩
    exact ⟨_, rfl⟩
  · rintro ⟨v, rfl⟩
    refine ⟨(commonNames rs).map v, mem_lists.mpr (List.length_map ..), ?_⟩
    exact jointRow_congr fun name known => valuationOf_map v known

theorem nodup_jointTable_rows (nonempty : rs ≠ []) : (jointTable rs).rows.Nodup := by
  rw [jointTable_rows nonempty]
  refine List.Nodup.map_on (fun xs left ys right same => ?_) (nodup_lists _)
  exact (List.append_inj same ((mem_lists.mp left).trans (mem_lists.mp right).symm)).1

/-! ### Another order -/

theorem commonNames_perm (perm : rs.Perm qs) : (commonNames rs).Perm (commonNames qs) := by
  apply (List.perm_ext_iff_of_nodup (nodup_commonNames rs) (nodup_commonNames qs)).mpr
  intro name
  rw [mem_commonNames, mem_commonNames]
  exact exists_congr fun r => and_congr_left fun _ => perm.mem_iff

theorem satisfies_perm (perm : rs.Perm qs) : Satisfies v rs ↔ Satisfies v qs := by
  unfold Satisfies
  exact forall_congr' fun r => imp_congr_left perm.mem_iff

theorem jointRow_matched (v : String → Bool) : Matched rs qs (jointRow rs v) (jointRow qs v) where
  names := by
    have cell : ∀ (ts : List Compiled) (j : Nat) name, (commonNames ts)[j]? = some name →
        (jointRow ts v)[j]? = some (v name) := by
      intro ts j name found
      have inside : j < (commonNames ts).length := (List.getElem?_eq_some_iff.mp found).1
      rw [jointRow, List.getElem?_append_left (by rw [List.length_map]; exact inside), List.getElem?_map, found]
      rfl
    exact fun j k name left right => ⟨v name, cell rs j name left, cell qs k name right⟩
  formulas := by
    have cell : ∀ (ts : List Compiled) (j : Nat) r, ts[j]? = some r →
        (jointRow ts v)[(commonNames ts).length + j]? = some (r.named.holds v) := by
      intro ts j r found
      have beyond : ((commonNames ts).map v).length ≤ (commonNames ts).length + j := by
        rw [List.length_map]
        omega
      rw [jointRow, List.getElem?_append_right beyond, List.length_map, Nat.add_sub_cancel_left, List.getElem?_map,
        found]
      rfl
    exact fun j k r left right => ⟨r.named.holds v, cell rs j r left, cell qs k r right⟩

/-- A row of the one table and the row of the other under the same valuation. -/
def rearrange (nonempty : qs ≠ []) (row : { row // row ∈ (jointTable rs).rows }) :
    { row // row ∈ (jointTable qs).rows } :=
  ⟨jointRow qs (valuationOf (commonNames rs) row.val), (mem_jointTable_rows nonempty).mpr ⟨_, rfl⟩⟩

theorem rearrange_rearrange (nonempty : rs ≠ []) (nonempty' : qs ≠ []) (perm : rs.Perm qs)
    (row : { row // row ∈ (jointTable rs).rows }) : rearrange nonempty (rearrange nonempty' row) = row := by
  obtain ⟨row, member⟩ := row
  obtain ⟨v, rfl⟩ := (mem_jointTable_rows nonempty).mp member
  apply Subtype.ext
  show jointRow rs (valuationOf (commonNames qs) (jointRow qs (valuationOf (commonNames rs) (jointRow rs v)))) = _
  apply jointRow_congr
  intro name known
  rw [valuationOf_jointRow ((commonNames_perm perm).mem_iff.mp known), valuationOf_jointRow known]

theorem exists_row_pairing (perm : rs.Perm qs) :
    ∃ pairing : Fin (jointTable rs).rows.length ≃ Fin (jointTable qs).rows.length,
      ∀ i, Matched rs qs ((jointTable rs).rows.get i) ((jointTable qs).rows.get (pairing i)) := by
  by_cases nonempty : rs = []
  · subst nonempty
    obtain rfl := List.nil_perm.mp perm
    exact ⟨Equiv.refl _, fun i => absurd i.isLt (Nat.not_lt_zero _)⟩
  · have nonempty' : qs ≠ [] := fun empty => nonempty (List.perm_nil.mp (empty ▸ perm))
    let left := List.Nodup.getEquiv _ (nodup_jointTable_rows nonempty)
    let right := List.Nodup.getEquiv _ (nodup_jointTable_rows nonempty')
    let middle : { row // row ∈ (jointTable rs).rows } ≃ { row // row ∈ (jointTable qs).rows } :=
      ⟨rearrange nonempty', rearrange nonempty, rearrange_rearrange nonempty nonempty' perm,
        rearrange_rearrange nonempty' nonempty perm.symm⟩
    refine ⟨(left.trans middle).trans right.symm, fun i => ?_⟩
    have here : (left i).val = (jointTable rs).rows.get i := List.Nodup.getEquiv_apply_coe _ _ i
    have there : (jointTable qs).rows.get (right.symm (middle (left i))) = (middle (left i)).val := by
      rw [← List.Nodup.getEquiv_apply_coe _ (nodup_jointTable_rows nonempty')]
      exact congrArg Subtype.val (right.apply_symm_apply _)
    show Matched rs qs _ ((jointTable qs).rows.get (right.symm (middle (left i))))
    rw [there]
    -- Both rows are the rows under the valuation that the first one stands for.
    obtain ⟨v, row⟩ := (mem_jointTable_rows nonempty).mp (left i).property
    have same : (middle (left i)).val = jointRow qs v := by
      show jointRow qs (valuationOf (commonNames rs) (left i).val) = _
      apply jointRow_congr
      intro name known
      rw [row, valuationOf_jointRow ((commonNames_perm perm).mem_iff.mpr known)]
    rw [same, ← here, row]
    exact jointRow_matched v

/-! ### Witnesses -/

theorem lookup_zip {names : List String} {row : List Bool} (size : row.length = names.length) (name : String) :
    (names.zip row).lookup name = row[names.idxOf name]? := by
  induction names generalizing row with
  | nil =>
    obtain rfl := List.length_eq_zero_iff.mp size
    rfl
  | cons first names ih =>
    obtain _ | ⟨value, row⟩ := row
    · cases size
    · rw [List.zip_cons_cons, List.lookup_cons, List.idxOf_cons]
      by_cases same : name = first
      · simp [same]
      · rw [beq_false_of_ne same, beq_false_of_ne (Ne.symm same)]
        exact ih (Nat.succ.inj size)

theorem witnessValue_zip {names : List String} {row : List Bool} (size : row.length = names.length) :
    witnessValue (names.zip row) = valuationOf names row := by
  funext name
  unfold witnessValue valuationOf
  rw [lookup_zip size]

theorem satisfies_jointWitness {witness : List (String × Bool)} (found : jointWitness rs = some witness) :
    Satisfies (witnessValue witness) rs := by
  have nonempty : rs ≠ [] := by
    rintro rfl
    cases found
  obtain ⟨row, earliest, rfl⟩ := (jointWitness_eq_some_iff nonempty).mp found
  rw [witnessValue_zip earliest.size]
  exact earliest.satisfies

/-- In another order the formulas have the same names, the same verdict and corresponding rows. The witness may
differ, but each satisfies both. -/
theorem joint_reordered (rs qs : List Compiled) (perm : rs.Perm qs) :
    (commonNames rs).Perm (commonNames qs) ∧
    jointVerdict rs = jointVerdict qs ∧
    (∃ pairing : Fin (jointTable rs).rows.length ≃ Fin (jointTable qs).rows.length,
      ∀ i, Matched rs qs ((jointTable rs).rows.get i) ((jointTable qs).rows.get (pairing i))) ∧
    (jointWitness rs = none ↔ jointWitness qs = none) ∧
    ∀ witness, jointWitness rs = some witness ∨ jointWitness qs = some witness →
      Satisfies (witnessValue witness) rs ∧ Satisfies (witnessValue witness) qs := by
  have empty : rs = [] ↔ qs = [] :=
    ⟨fun none => List.nil_perm.mp (none ▸ perm), fun none => List.perm_nil.mp (none ▸ perm)⟩
  have models : (∃ v, Satisfies v rs) ↔ ∃ v, Satisfies v qs := exists_congr fun _ => satisfies_perm perm
  refine ⟨commonNames_perm perm, jointVerdict_congr empty models, exists_row_pairing perm, ?_, ?_⟩
  · by_cases nonempty : rs = []
    · rw [nonempty, empty.mp nonempty]
    · rw [jointWitness_eq_none_iff nonempty, jointWitness_eq_none_iff (mt empty.mpr nonempty), models]
  · rintro witness (found | found)
    · have satisfies := satisfies_jointWitness found
      exact ⟨satisfies, (satisfies_perm perm).mp satisfies⟩
    · have satisfies := satisfies_jointWitness found
      exact ⟨(satisfies_perm perm).mpr satisfies, satisfies⟩

def opposed : List Compiled := [
  ⟨"s or ~s", ["s"], .binary .or (.var 0) (.not (.var 0))⟩,
  ⟨"r <-> ~s", ["r", "s"], .binary .iff (.var 0) (.not (.var 1))⟩]

theorem joint_reordered_opposed : opposed.Perm opposed.reverse ∧
    jointWitness opposed = some [("s", true), ("r", false)] ∧
    jointWitness opposed.reverse = some [("r", true), ("s", false)] ∧
    Satisfies (witnessValue [("s", true), ("r", false)]) opposed.reverse ∧
    Satisfies (witnessValue [("r", true), ("s", false)]) opposed := by
  have perm : opposed.Perm opposed.reverse := opposed.reverse_perm.symm
  have here : jointWitness opposed = some [("s", true), ("r", false)] := by decide +kernel
  have there : jointWitness opposed.reverse = some [("r", true), ("s", false)] := by decide +kernel
  obtain ⟨_, _, _, _, satisfies⟩ := joint_reordered opposed opposed.reverse perm
  exact ⟨perm, here, there, (satisfies _ (Or.inl here)).2, (satisfies _ (Or.inr there)).1⟩

end Propositional
