import Propositional.Proofs.Classification
import Propositional.Proofs.Enumeration
import Propositional.Proofs.Formula.Subformula
import Propositional.Proofs.Titles

/-!
# Full tables

A rendering over the table of a compiled formula belongs to one formula only, as it compiles to nothing else.
`fullTable_distinct` says that no title and no row of a full table is repeated, and `classify_exact` that the
column of the whole formula shows what its classification says.
-/

namespace Propositional

open Token Assignment

variable {text : String} {r : Compiled}

/-! ### Titles -/

theorem render_injective (compiled : compile text = .ok r) {f g : Formula (Fin r.names.length)}
    (same : f.render r.names.get = g.render r.names.get) : f = g := by
  have valid : ∀ h : Formula (Fin r.names.length), ∀ name ∈ (h.map r.names.get).leaves, IsName name :=
    fun h name leaf => isName_of_mem compiled name (Compiled.mem_names_of_map leaf)
  obtain ⟨s, left, named⟩ := compile_render (valid f)
  obtain ⟨s', right, named'⟩ := compile_render (valid g)
  rw [Formula.render_map] at left right
  have texts : compile (f.render r.names.get) = compile (g.render r.names.get) := congrArg compile same
  obtain rfl : s = s' := Except.ok.inj (left.symm.trans (texts.trans right))
  exact Formula.map_injective (fun _ _ place => (nodup_names compiled).injective_get place) (named.symm.trans named')

theorem render_ne_name (compiled : compile text = .ok r) {f : Formula (Fin r.names.length)}
    (compound : f.isVar = false) {name : String} (known : name ∈ r.names) : f.render r.names.get ≠ name := by
  intro same
  obtain ⟨i, rfl⟩ := List.mem_iff_get.mp known
  rw [← Formula.render_var r.names.get i] at same
  rw [render_injective compiled same] at compound
  cases compound

theorem nodup_fullTable_header (compiled : compile text = .ok r) : r.fullTable.header.Nodup := by
  have titles : (r.ast.subformulas.map (·.render r.names.get)).Nodup :=
    (Formula.nodup_subformulas r.ast).map fun f g => render_injective compiled
  refine List.nodup_append.mpr ⟨nodup_names compiled, titles, fun name known title column same => ?_⟩
  obtain ⟨f, member, rfl⟩ := List.mem_map.mp column
  exact render_ne_name compiled (Formula.mem_subformulas_iff.mp member).1 known same.symm

theorem formatted_mem_header (r : Compiled) : r.formatted ∈ r.fullTable.header := by
  cases whole : r.ast with
  | var i =>
    have bare : r.formatted = r.names.get i := by rw [Compiled.formatted, whole, Formula.render_var]
    rw [bare]
    exact List.mem_append_left _ (List.get_mem _ _)
  | truth | not | binary =>
    have compound : r.ast.isVar = false := by rw [whole]; rfl
    have root : r.ast ∈ r.ast.subformulas := Formula.mem_subformulas_iff.mpr ⟨compound, 0, .root⟩
    exact List.mem_append_right _ (List.mem_map_of_mem root)

/-! ### Rows -/

theorem fullTable_rows (r : Compiled) : r.fullTable.rows =
    (rows r.names.length).map fun a => a.toList ++ r.ast.subformulas.map (·.evaluate a.get) :=
  rfl

theorem inputs_fullTable (r : Compiled) : r.fullTable.rows.map (·.take r.variableCount) = lists r.variableCount := by
  rw [fullTable_rows, List.map_map]
  exact List.map_congr_left fun a _ => List.take_left' a.length_toList

/-- No title stands twice in a full table, since different formulas are written differently. -/
theorem fullTable_distinct (text : String) (r : Compiled) (compiled : compile text = .ok r) :
    r.fullTable.header.Nodup ∧
    (∀ name ∈ r.names, ∀ f : Formula (Fin r.names.length), f.isVar = false → f.render r.names.get ≠ name) ∧
    (∀ f g : Formula (Fin r.names.length), f.render r.names.get = g.render r.names.get → f = g) ∧
    (∀ row ∈ r.fullTable.rows, row.length = r.fullTable.header.length) ∧
    r.fullTable.rows.length = 2 ^ r.variableCount ∧
    (r.fullTable.rows.map (·.take r.variableCount)).Nodup := by
  refine ⟨nodup_fullTable_header compiled, fun name known f compound => render_ne_name compiled compound known,
    fun f g => render_injective compiled, fun row member => ?_, ?_, ?_⟩
  · obtain ⟨a, _, rfl⟩ := List.mem_map.mp member
    simp [Compiled.fullTable]
  · rw [← length_lists, ← inputs_fullTable, List.length_map]
  · rw [inputs_fullTable]
    exact nodup_lists _

def twice : Compiled :=
  ⟨"(a -> b) && (a -> b)", ["a", "b"],
    .binary .and (.binary .implies (.var 0) (.var 1)) (.binary .implies (.var 0) (.var 1))⟩

/-- The formula that stands there twice has one column. -/
theorem fullTable_twice : compile "(a -> b) && (a -> b)" = .ok twice ∧
    twice.fullTable.header = ["a", "b", "((a → b) ∧ (a → b))", "(a → b)"] ∧
    twice.fullTable.header.Nodup ∧ twice.fullTable.rows.length = 4 := by
  have compiled : compile "(a -> b) && (a -> b)" = .ok twice := by decide +kernel
  have header : twice.fullTable.header = ["a", "b", "((a → b) ∧ (a → b))", "(a → b)"] := by decide +kernel
  obtain ⟨distinct, _, _, _, size, _⟩ := fullTable_distinct _ twice compiled
  exact ⟨compiled, header, distinct, size⟩

/-! ### Classification -/

theorem column_formatted (compiled : compile text = .ok r) :
    r.fullTable.column r.formatted = .ok ((rows r.names.length).map r.value) := by
  obtain ⟨j, titled⟩ := List.mem_iff_getElem?.mp (formatted_mem_header r)
  rw [(fullTable_tabulates compiled).column titled (recompile compiled), fullTable_rows, List.map_map]
  refine congrArg Except.ok (List.map_congr_left fun a _ => ?_)
  have inputs : ∀ name ∈ r.names, valuationOf r.names (a.toList ++ r.ast.subformulas.map (·.evaluate a.get)) name =
      valuationOf r.names a.toList name := fun name known => valuationOf_append a.length_toList known _
  rw [Compiled.value_eq (nodup_names compiled)]
  exact Compiled.holds_named_congr inputs

theorem evaluate_toList (r : Compiled) (a : Assignment r.names.length) : r.evaluate a.toList = .ok (r.value a) :=
  dif_pos a.length_toList

theorem exists_toList_eq {row : List Bool} (size : row.length = r.variableCount) :
    ∃ a : Assignment r.names.length, a.toList = row :=
  ⟨⟨row.toArray, size⟩, rfl⟩

theorem exists_row_iff {b : Bool} :
    (∃ row, row.length = r.variableCount ∧ r.evaluate row = .ok b) ↔ ∃ a, r.value a = b := by
  constructor
  · rintro ⟨row, size, value⟩
    obtain ⟨a, rfl⟩ := exists_toList_eq size
    rw [evaluate_toList] at value
    exact ⟨a, Except.ok.inj value⟩
  · rintro ⟨a, rfl⟩
    exact ⟨a.toList, a.length_toList, evaluate_toList r a⟩

theorem forall_row_iff {b : Bool} :
    (∀ row, row.length = r.variableCount → r.evaluate row = .ok b) ↔ ∀ a, r.value a = b := by
  constructor
  · intro all a
    exact Except.ok.inj ((evaluate_toList r a).symm.trans (all a.toList a.length_toList))
  · intro all row size
    obtain ⟨a, rfl⟩ := exists_toList_eq size
    rw [evaluate_toList, all]

/-- The classification says whether the values under all rows, which are the column of the formula, are all true,
all false or mixed. -/
theorem classify_exact (text : String) (r : Compiled) (compiled : compile text = .ok r) :
    (classify r = .tautology ↔ ∀ row, row.length = r.variableCount → r.evaluate row = .ok true) ∧
    (classify r = .contradiction ↔ ∀ row, row.length = r.variableCount → r.evaluate row = .ok false) ∧
    (classify r = .contingency ↔ (∃ row, row.length = r.variableCount ∧ r.evaluate row = .ok true) ∧
      ∃ row, row.length = r.variableCount ∧ r.evaluate row = .ok false) ∧
    ∃ cells, r.fullTable.column r.formatted = .ok cells ∧ cells.length = 2 ^ r.variableCount ∧
      (lists r.variableCount).map r.evaluate = cells.map .ok ∧
      (classify r = .tautology ↔ ∀ cell ∈ cells, cell = true) ∧
      (classify r = .contradiction ↔ ∀ cell ∈ cells, cell = false) ∧
      (classify r = .contingency ↔ true ∈ cells ∧ false ∈ cells) := by
  have every : ∀ b, (∀ cell ∈ (rows r.names.length).map r.value, cell = b) ↔ ∀ a, r.value a = b := by
    intro b
    rw [List.forall_mem_map]
    exact ⟨fun all a => all a (mem_rows a), fun all a _ => all a⟩
  have some : ∀ b, b ∈ (rows r.names.length).map r.value ↔ ∃ a, r.value a = b := by
    intro b
    rw [List.mem_map]
    exact exists_congr fun a => and_iff_right (mem_rows a)
  refine ⟨?_, ?_, ?_, _, column_formatted compiled, ?_, ?_, ?_, ?_, ?_⟩
  · rw [forall_row_iff, classify_eq_tautology_iff]
  · rw [forall_row_iff, classify_eq_contradiction_iff]
  · rw [exists_row_iff, exists_row_iff, classify_eq_contingency_iff]
  · rw [← length_lists, lists, List.length_map, List.length_map]
    rfl
  · rw [lists, List.map_map, List.map_map]
    exact List.map_congr_left fun a _ => evaluate_toList r a
  · rw [every, classify_eq_tautology_iff]
  · rw [every, classify_eq_contradiction_iff]
  · rw [some, some, classify_eq_contingency_iff]

/-- A variable, which has no column but its own input. -/
def bare : Compiled :=
  ⟨"x", ["x"], .var 0⟩

theorem classify_bare : compile "x" = .ok bare ∧ classify bare = .contingency ∧
    bare.fullTable.column "x" = .ok [true, false] := by
  have compiled : compile "x" = .ok bare := by decide +kernel
  have formatted : bare.formatted = "x" := by decide +kernel
  have values : (lists bare.variableCount).map bare.evaluate = [true, false].map .ok := by decide +kernel
  obtain ⟨_, _, _, cells, column, _, shown, _, _, mixed⟩ := classify_exact "x" bare compiled
  have same : cells = [true, false] :=
    List.map_injective_iff.mpr (fun _ _ => Except.ok.inj) (shown.symm.trans values)
  rw [formatted] at column
  subst same
  exact ⟨compiled, mixed.mpr (by decide), column⟩

end Propositional
