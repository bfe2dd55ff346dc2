import Mathlib.Data.List.Forall2
import Propositional.Joint
import Propositional.Proofs.Assignment
import Propositional.Proofs.Valuation

/-!
# Joint satisfiability by names

`joint_exact` says that the common rows stand for all valuations of the names: the verdict tells whether
some valuation makes every formula true, the witness is the earliest row that does, and the table shows
every formula under every row.
-/

namespace Propositional

open Assignment

/-- Every formula is true when its variables are read by name. -/
def Satisfies (v : String → Bool) (rs : List Compiled) : Prop :=
  ∀ r ∈ rs, r.named.holds v = true

/-- A row over the common names makes every formula true, and no earlier one does. -/
structure EarliestModel (rs : List Compiled) (row : List Bool) : Prop where
  size : row.length = (commonNames rs).length
  satisfies : Satisfies (valuationOf (commonNames rs) row) rs
  earliest : ∀ other, other.length = (commonNames rs).length →
    Satisfies (valuationOf (commonNames rs) other) rs → other = row ∨ Precedes row other

variable {rs : List Compiled} {r : Compiled} {v w : String → Bool}

theorem nodup_commonNames (rs : List Compiled) : (commonNames rs).Nodup :=
  nodup_distinct _

theorem mem_commonNames_of_mem {name : String} (member : r ∈ rs) (known : name ∈ r.names) :
    name ∈ commonNames rs :=
  mem_commonNames.mpr ⟨r, member, known⟩

theorem satisfies_congr (same : ∀ name ∈ commonNames rs, v name = w name) :
    Satisfies v rs ↔ Satisfies w rs := by
  unfold Satisfies
  refine forall₂_congr fun r member => ?_
  rw [Compiled.holds_named_congr fun name known => same name (mem_commonNames_of_mem member known)]

/-! ### Formulas on a common row -/

theorem Member.value_ofMem (member : r ∈ rs) (a : Assignment (commonNames rs).length) :
    (Member.ofMem r member).value a = r.named.holds (valuationOf (commonNames rs) a.toList) := by
  show r.value ((Member.ofMem r member).places.map (a[·])) = _
  refine Compiled.value_eq_holds fun i => ?_
  have inside := List.idxOf_lt_length_of_mem (mem_commonNames_of_mem member (List.get_mem r.names i))
  have cell : a.toList[(commonNames rs).idxOf (r.names.get i)]? =
      some a[(commonNames rs).idxOf (r.names.get i)] := by
    rw [List.getElem?_eq_getElem (by rw [a.length_toList]; exact inside)]
    rfl
  rw [valuationOf, cell]
  simp only [Member.ofMem, Vector.get, Vector.toArray_map, Vector.toArray_ofFn, Array.getElem_map, Array.getElem_ofFn]
  rfl

theorem members_values (rs : List Compiled) (a : Assignment (commonNames rs).length) :
    (members rs).map (·.value a) = rs.map fun r => r.named.holds (valuationOf (commonNames rs) a.toList) := by
  let cell := fun r : Compiled => r.named.holds (valuationOf (commonNames rs) a.toList)
  calc (members rs).map (·.value a)
      = rs.attach.map (fun r => (Member.ofMem r.val r.property).value a) := List.map_map ..
    _ = rs.attach.map (fun r => cell r.val) := List.map_congr_left fun r _ => Member.value_ofMem r.property a
    _ = rs.map cell := List.attach_map_val (f := cell)

theorem all_members_iff {a : Assignment (commonNames rs).length} :
    (members rs).all (·.value a) = true ↔ Satisfies (valuationOf (commonNames rs) a.toList) rs := by
  have cells : (members rs).all (·.value a) = ((members rs).map (·.value a)).all id := by rw [List.all_map]; rfl
  rw [cells, members_values, List.all_eq_true, Satisfies]
  simp

theorem exists_model_iff (rs : List Compiled) : (∃ v, Satisfies v rs) ↔
    ∃ a : Assignment (commonNames rs).length, Satisfies (valuationOf (commonNames rs) a.toList) rs := by
  constructor
  · rintro ⟨v, satisfies⟩
    have size : ((commonNames rs).map v).length = (commonNames rs).length := List.length_map ..
    refine ⟨⟨((commonNames rs).map v).toArray, by simp⟩, ?_⟩
    exact (satisfies_congr fun name known => (valuationOf_map v known).symm).mp satisfies
  · rintro ⟨a, satisfies⟩
    exact ⟨_, satisfies⟩

/-! ### The answers -/

theorem jointWitness_eq (nonempty : rs ≠ []) : jointWitness rs =
    (find? _ fun a => (members rs).all (·.value a)).map fun a => (commonNames rs).zip a.toList := by
  have filled : ¬ rs.isEmpty = true := mt List.isEmpty_iff.mp nonempty
  rw [jointWitness, if_neg filled]

theorem jointWitness_eq_none_iff (nonempty : rs ≠ []) : jointWitness rs = none ↔ ¬ ∃ v, Satisfies v rs := by
  rw [jointWitness_eq nonempty, Option.map_eq_none_iff, find?_none_iff, exists_model_iff, not_exists]
  refine forall_congr' fun a => ?_
  rw [← all_members_iff, Bool.not_eq_true]

theorem earliestModel_iff {a : Assignment (commonNames rs).length} :
    find? _ (fun a => (members rs).all (·.value a)) = some a ↔ EarliestModel rs a.toList := by
  rw [find?_eq_some_iff, all_members_iff]
  constructor
  · rintro ⟨satisfies, earliest⟩
    refine ⟨a.length_toList, satisfies, fun other size model => ?_⟩
    let b : Assignment (commonNames rs).length := ⟨other.toArray, size⟩
    obtain same | before := earliest b (all_members_iff.mpr model)
    · exact Or.inl (congrArg Vector.toList same)
    · exact Or.inr before
  · rintro ⟨_, satisfies, earliest⟩
    refine ⟨satisfies, fun b model => ?_⟩
    obtain same | before := earliest b.toList b.length_toList (all_members_iff.mp model)
    · exact Or.inl (Vector.toList_inj.mp same)
    · exact Or.inr before

theorem jointWitness_eq_some_iff (nonempty : rs ≠ []) {witness : List (String × Bool)} :
    jointWitness rs = some witness ↔ ∃ row, EarliestModel rs row ∧ witness = (commonNames rs).zip row := by
  rw [jointWitness_eq nonempty, Option.map_eq_some_iff]
  constructor
  · rintro ⟨a, found, rfl⟩
    exact ⟨a.toList, earliestModel_iff.mp found, rfl⟩
  · rintro ⟨row, earliest, rfl⟩
    let a : Assignment (commonNames rs).length := ⟨row.toArray, earliest.size⟩
    exact ⟨a, earliestModel_iff.mpr earliest, rfl⟩

theorem jointVerdict_eq (nonempty : rs ≠ []) :
    jointVerdict rs = if (jointWitness rs).isSome then .satisfiable else .unsatisfiable := by
  have filled : ¬ rs.isEmpty = true := mt List.isEmpty_iff.mp nonempty
  rw [jointVerdict, if_neg filled]

theorem jointVerdict_eq_unsatisfiable_iff (nonempty : rs ≠ []) :
    jointVerdict rs = .unsatisfiable ↔ ¬ ∃ v, Satisfies v rs := by
  rw [jointVerdict_eq nonempty, ← jointWitness_eq_none_iff nonempty]
  cases jointWitness rs <;> simp

theorem jointVerdict_eq_satisfiable_iff (nonempty : rs ≠ []) :
    jointVerdict rs = .satisfiable ↔ ∃ v, Satisfies v rs := by
  have either : jointVerdict rs = .satisfiable ↔ ¬ jointVerdict rs = .unsatisfiable := by
    rw [jointVerdict_eq nonempty]
    cases jointWitness rs <;> simp
  rw [either, jointVerdict_eq_unsatisfiable_iff nonempty, Classical.not_not]

theorem jointVerdict_congr {qs : List Compiled} (empty : rs = [] ↔ qs = [])
    (models : (∃ v, Satisfies v rs) ↔ ∃ v, Satisfies v qs) : jointVerdict rs = jointVerdict qs := by
  by_cases nonempty : rs = []
  · rw [nonempty, empty.mp nonempty]
  · have nonempty' : qs ≠ [] := mt empty.mpr nonempty
    by_cases satisfiable : ∃ v, Satisfies v rs
    · rw [(jointVerdict_eq_satisfiable_iff nonempty).mpr satisfiable,
        (jointVerdict_eq_satisfiable_iff nonempty').mpr (models.mp satisfiable)]
    · rw [(jointVerdict_eq_unsatisfiable_iff nonempty).mpr satisfiable,
        (jointVerdict_eq_unsatisfiable_iff nonempty').mpr (mt models.mpr satisfiable)]

theorem jointTable_eq (nonempty : rs ≠ []) : jointTable rs =
    ⟨commonNames rs ++ rs.map (·.formatted),
      (rows _).map fun a => a.toList ++ (members rs).map (·.value a)⟩ := by
  have filled : ¬ rs.isEmpty = true := mt List.isEmpty_iff.mp nonempty
  rw [jointTable, if_neg filled]

theorem jointTable_rows (nonempty : rs ≠ []) :
    (jointTable rs).rows = (lists (commonNames rs).length).map fun row =>
      row ++ rs.map fun r => r.named.holds (valuationOf (commonNames rs) row) := by
  rw [jointTable_eq nonempty, lists, List.map_map]
  refine List.map_congr_left fun a _ => ?_
  rw [members_values]
  rfl

theorem jointWitness_eq_find? (nonempty : rs ≠ []) : jointWitness rs =
    ((jointTable rs).rows.find? fun row => (row.drop (commonNames rs).length).all id).map fun row =>
      (commonNames rs).zip (row.take (commonNames rs).length) := by
  rw [jointWitness_eq nonempty, find?_eq, jointTable_eq nonempty, List.find?_map, Option.map_map]
  have test : ∀ a : Assignment (commonNames rs).length,
      ((a.toList ++ (members rs).map (·.value a)).drop (commonNames rs).length).all id =
        (members rs).all (·.value a) := by
    intro a
    rw [List.drop_left' a.length_toList, List.all_map]
    rfl
  have inputs : ∀ a : Assignment (commonNames rs).length,
      (a.toList ++ (members rs).map (·.value a)).take (commonNames rs).length = a.toList :=
    fun a => List.take_left' a.length_toList
  simp only [Function.comp_def, test, inputs]

/-- The rows over the common names stand for all valuations of them, and the witness is the earliest model. -/
theorem joint_exact (rs : List Compiled) (nonempty : rs ≠ []) :
    (∀ name, name ∈ commonNames rs ↔ ∃ r ∈ rs, name ∈ r.names) ∧
    ((commonNames rs).Pairwise fun a b => (rs.flatMap (·.names)).idxOf a < (rs.flatMap (·.names)).idxOf b) ∧
    (jointVerdict rs = .satisfiable ↔ ∃ v, Satisfies v rs) ∧
    (jointVerdict rs = .unsatisfiable ↔ ¬ ∃ v, Satisfies v rs) ∧
    (jointWitness rs = none ↔ jointVerdict rs = .unsatisfiable) ∧
    (∀ witness, jointWitness rs = some witness ↔
      ∃ row, EarliestModel rs row ∧ witness = (commonNames rs).zip row) ∧
    (∃ inputs : List (List Bool), (∀ row, row ∈ inputs ↔ row.length = (commonNames rs).length) ∧
      inputs.Pairwise Precedes ∧
      (jointTable rs).rows = inputs.map fun row =>
        row ++ rs.map fun r => r.named.holds (valuationOf (commonNames rs) row)) ∧
    jointWitness rs =
      ((jointTable rs).rows.find? fun row => (row.drop (commonNames rs).length).all id).map fun row =>
        (commonNames rs).zip (row.take (commonNames rs).length) := by
  refine ⟨fun _ => mem_commonNames, distinct_pairwise _, jointVerdict_eq_satisfiable_iff nonempty,
    jointVerdict_eq_unsatisfiable_iff nonempty, ?_, fun _ => jointWitness_eq_some_iff nonempty, ?_,
    jointWitness_eq_find? nonempty⟩
  · rw [jointVerdict_eq_unsatisfiable_iff nonempty, jointWitness_eq_none_iff nonempty]
  · exact ⟨lists (commonNames rs).length, fun _ => mem_lists, lists_pairwise _, jointTable_rows nonempty⟩

/-- "q" and "q -> ~p": the name that comes first in the second table is seen last. -/
def crossed : List Compiled := [
  ⟨"q", ["q"], .var 0⟩,
  ⟨"q -> ~p", ["p", "q"], .binary .implies (.var 1) (.not (.var 0))⟩]

theorem compile_crossed : ∀ r ∈ crossed, compile r.source = .ok r := by
  have first : compile "q" = .ok ⟨"q", ["q"], .var 0⟩ := by decide +kernel
  have second : compile "q -> ~p" =
      .ok ⟨"q -> ~p", ["p", "q"], .binary .implies (.var 1) (.not (.var 0))⟩ := by decide +kernel
  exact List.forall_mem_cons.mpr ⟨first, List.forall_mem_cons.mpr ⟨second, by simp⟩⟩

theorem compile_crossed_texts :
    List.Forall₂ (fun text r => compile text = .ok r) ["q", "q -> ~p"] crossed :=
  .cons (compile_crossed _ List.mem_cons_self)
    (.cons (compile_crossed _ (List.mem_cons_of_mem _ List.mem_cons_self)) .nil)

theorem jointWitness_crossed : crossed ≠ [] ∧ jointVerdict crossed = .satisfiable ∧
    jointWitness crossed = some [("q", true), ("p", false)] := by
  have filled : crossed ≠ [] := by simp [crossed]
  have names : commonNames crossed = ["q", "p"] := by decide
  obtain ⟨_, _, satisfiable, _, _, witness, _⟩ := joint_exact crossed filled
  have model : Satisfies (valuationOf (commonNames crossed) [true, false]) crossed := by
    rw [names]
    unfold Satisfies
    decide
  have size : [true, false].length = (commonNames crossed).length := by rw [names]; rfl
  refine ⟨filled, satisfiable.mpr ⟨_, model⟩, (witness _).mpr ⟨[true, false], ⟨size, model, ?_⟩, ?_⟩⟩
  · -- The only row before this one makes both names true, which the second formula rules out.
    intro other cells satisfies
    rw [names] at cells satisfies
    match other, cells with
    | [true, true], _ => exact absurd (satisfies _ (List.mem_cons_of_mem _ List.mem_cons_self)) (by decide)
    | [true, false], _ => exact Or.inl rfl
    | [false, _], _ => exact Or.inr .here
  · rw [names]
    rfl

end Propositional
