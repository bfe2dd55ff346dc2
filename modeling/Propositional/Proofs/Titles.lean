import Propositional.Proofs.Joint
import Propositional.Proofs.Rendering

/-!
# Titles of truth tables

A title is the text of the formula whose values stand below it. `titles_honest` says that every title
compiles, and that the column shows what it compiles to, so columns with one title hold the same values.
-/

namespace Propositional

open Token Assignment

/-- The tables that compiled formulas give rise to, with the names of their input columns. -/
inductive TableOver : List String → Table → Prop where
  | full {text : String} {r : Compiled} (compiled : compile text = .ok r) : TableOver r.names r.fullTable
  | joint {rs : List Compiled} (compiled : ∀ r ∈ rs, ∃ text, compile text = .ok r) :
      TableOver (commonNames rs) (jointTable rs)

/-- The columns of the table show these formulas under the inputs of each row. -/
structure Tabulates (inputs : List String) (columns : List (Formula String)) (t : Table) : Prop where
  header : t.header = columns.map (·.render id)
  rows : ∀ row ∈ t.rows, row = columns.map (·.holds (valuationOf inputs row))
  known : ∀ f ∈ columns, ∀ name ∈ f.leaves, name ∈ inputs
  valid : ∀ name ∈ inputs, IsName name

variable {text : String} {r : Compiled} {rs : List Compiled} {inputs : List String} {t : Table}

/-! ### The formulas of the columns -/

/-- Input columns are bare variables, so a row is the values of all its columns under its own inputs. -/
theorem row_eq_columns {row whole : List Bool} {gs : List (Formula String)} (distinct : inputs.Nodup)
    (size : row.length = inputs.length) (known : ∀ g ∈ gs, ∀ name ∈ g.leaves, name ∈ inputs)
    (split : whole = row ++ gs.map (·.holds (valuationOf inputs row))) :
    whole = (inputs.map Formula.var ++ gs).map (·.holds (valuationOf inputs whole)) := by
  have same : ∀ name ∈ inputs, valuationOf inputs whole name = valuationOf inputs row name := by
    rw [split]
    exact fun name member => valuationOf_append size member _
  have bare : (inputs.map Formula.var).map (·.holds (valuationOf inputs whole)) = row := by
    rw [List.map_map]
    show inputs.map (valuationOf inputs whole) = row
    rw [List.map_congr_left same, map_valuationOf distinct size]
  have values : gs.map (·.holds (valuationOf inputs whole)) = gs.map (·.holds (valuationOf inputs row)) :=
    List.map_congr_left fun g member =>
      Formula.holds_congr fun name leaf => same name (known g member name leaf)
  rw [List.map_append, bare, values, split]

theorem leaves_columns {gs : List (Formula String)} (known : ∀ g ∈ gs, ∀ name ∈ g.leaves, name ∈ inputs) :
    ∀ f ∈ inputs.map Formula.var ++ gs, ∀ name ∈ f.leaves, name ∈ inputs := by
  intro f member name leaf
  rcases List.mem_append.mp member with input | column
  · obtain ⟨input, inside, rfl⟩ := List.mem_map.mp input
    rw [List.mem_singleton.mp leaf]
    exact inside
  · exact known f column name leaf

theorem render_inputs (inputs : List String) : (inputs.map Formula.var).map (·.render id) = inputs := by
  rw [List.map_map]
  refine (List.map_congr_left fun name _ => ?_).trans (List.map_id inputs)
  exact Formula.render_var id name

theorem fullTable_tabulates (compiled : compile text = .ok r) :
    Tabulates r.names (r.names.map Formula.var ++ r.ast.subformulas.map (·.map r.names.get)) r.fullTable := by
  have distinct := nodup_names compiled
  have known : ∀ g ∈ r.ast.subformulas.map (·.map r.names.get), ∀ name ∈ g.leaves, name ∈ r.names := by
    intro g member name leaf
    obtain ⟨f, _, rfl⟩ := List.mem_map.mp member
    exact Compiled.mem_names_of_map leaf
  refine ⟨?_, fun row member => ?_, leaves_columns known, isName_of_mem compiled⟩
  · rw [List.map_append, render_inputs, List.map_map]
    refine congrArg (r.names ++ ·) (List.map_congr_left fun f _ => ?_)
    exact (Formula.render_map _ id f).symm
  · obtain ⟨a, _, rfl⟩ := List.mem_map.mp member
    have cells : r.ast.subformulas.map (·.evaluate a.get) =
        (r.ast.subformulas.map (·.map r.names.get)).map (·.holds (valuationOf r.names a.toList)) := by
      rw [List.map_map]
      refine List.map_congr_left fun f _ => ?_
      rw [Formula.evaluate_eq_holds, Function.comp_apply, Formula.holds_map]
      refine congrArg (f.holds ·) (funext fun i => ?_)
      exact (Compiled.valuationOf_get distinct a i).symm
    rw [cells]
    exact row_eq_columns distinct a.length_toList known rfl

theorem jointTable_tabulates (compiled : ∀ r ∈ rs, ∃ text, compile text = .ok r) :
    Tabulates (commonNames rs) ((commonNames rs).map Formula.var ++ rs.map (·.named)) (jointTable rs) := by
  have known : ∀ g ∈ rs.map (·.named), ∀ name ∈ g.leaves, name ∈ commonNames rs := by
    intro g member name leaf
    obtain ⟨r, inside, rfl⟩ := List.mem_map.mp member
    exact mem_commonNames_of_mem inside (Compiled.mem_names_of_leaf leaf)
  have valid : ∀ name ∈ commonNames rs, IsName name := by
    intro name member
    obtain ⟨r, inside, known⟩ := mem_commonNames.mp member
    obtain ⟨text, compiled⟩ := compiled r inside
    exact isName_of_mem compiled name known
  by_cases nonempty : rs = []
  · subst nonempty
    exact ⟨rfl, by simp [jointTable], leaves_columns known, valid⟩
  · refine ⟨?_, fun row member => ?_, leaves_columns known, valid⟩
    · rw [jointTable_eq nonempty, List.map_append, render_inputs, List.map_map]
      refine congrArg (commonNames rs ++ ·) (List.map_congr_left fun r _ => ?_)
      exact r.formatted_eq
    · rw [jointTable_rows nonempty] at member
      obtain ⟨inputs, inside, rfl⟩ := List.mem_map.mp member
      exact row_eq_columns (nodup_commonNames rs) (mem_lists.mp inside) known (by rw [List.map_map]; rfl)

/-! ### Titles -/

variable {columns : List (Formula String)}

theorem Tabulates.title (h : Tabulates inputs columns t) {j : Nat} {title : String}
    (titled : t.header[j]? = some title) :
    ∃ s, compile title = .ok s ∧ (∀ name ∈ s.names, name ∈ inputs) ∧
      ∀ row ∈ t.rows, row[j]? = some (s.named.holds (valuationOf inputs row)) := by
  rw [h.header, List.getElem?_map, Option.map_eq_some_iff] at titled
  obtain ⟨f, column, rfl⟩ := titled
  have known := h.known f (List.mem_of_getElem? column)
  obtain ⟨s, compiled, named⟩ := compile_render fun name leaf => h.valid name (known name leaf)
  refine ⟨s, compiled, fun name member => ?_, fun row member => ?_⟩
  · rw [mem_names_iff compiled, named] at member
    exact known name member
  · have cells := congrArg (·[j]?) (h.rows row member)
    simpa [column, named] using cells

theorem Tabulates.column (h : Tabulates inputs columns t) {j : Nat} {title : String} {s : Compiled}
    (titled : t.header[j]? = some title) (compiled : compile title = .ok s) :
    t.column title = .ok (t.rows.map fun row => s.named.holds (valuationOf inputs row)) := by
  unfold Table.column
  cases found : t.header.idxOf? title with
  | none => exact absurd (List.mem_of_getElem? titled) (List.idxOf?_eq_none_iff.mp found)
  | some first =>
    obtain ⟨inside, place, _⟩ := List.idxOf?_eq_some_iff.mp found
    obtain ⟨s', compiled', _, cells⟩ := h.title (List.getElem?_eq_some_iff.mpr ⟨inside, place⟩)
    obtain rfl : s' = s := Except.ok.inj (compiled'.symm.trans compiled)
    show Except.ok (t.rows.filterMap (·[first]?)) = _
    rw [List.filterMap_congr cells]
    exact congrArg Except.ok (congrFun List.filterMap_eq_map t.rows)

theorem TableOver.tabulates (arises : TableOver inputs t) : ∃ columns, Tabulates inputs columns t := by
  cases arises with
  | full compiled => exact ⟨_, fullTable_tabulates compiled⟩
  | joint compiled => exact ⟨_, jointTable_tabulates compiled⟩

theorem TableOver.inputs_first (arises : TableOver inputs t) : inputs.Nodup ∧ inputs <+: t.header := by
  cases arises with
  | full compiled => exact ⟨nodup_names compiled, List.prefix_append _ _⟩
  | @joint rs _ =>
    refine ⟨nodup_commonNames rs, ?_⟩
    unfold jointTable
    split
    · rename_i none
      rw [List.isEmpty_iff.mp none]
      exact List.nil_prefix
    · exact List.prefix_append _ _

/-- Every title of a table compiles to a formula over the input columns, and every cell below it is its value. -/
theorem titles_honest (inputs : List String) (t : Table) (arises : TableOver inputs t) :
    inputs.Nodup ∧ inputs <+: t.header ∧
    (∀ (j : Nat) title, t.header[j]? = some title →
      ∃ s, compile title = .ok s ∧ (∀ name ∈ s.names, name ∈ inputs) ∧
        ∀ row ∈ t.rows, row[j]? = some (s.named.holds (valuationOf inputs row))) ∧
    (∀ (j k : Nat) title, t.header[j]? = some title → t.header[k]? = some title →
      ∀ row ∈ t.rows, row[j]? = row[k]?) ∧
    (∀ (j : Nat) title, t.header[j]? = some title →
      ∃ cells, t.column title = .ok cells ∧ t.rows.map (·[j]?) = cells.map some) := by
  obtain ⟨columns, h⟩ := arises.tabulates
  refine ⟨arises.inputs_first.1, arises.inputs_first.2, fun _ _ => h.title, ?_, ?_⟩
  · intro j k title left right row member
    obtain ⟨s, compiled, _, cells⟩ := h.title left
    obtain ⟨s', compiled', _, cells'⟩ := h.title right
    obtain rfl : s = s' := Except.ok.inj (compiled.symm.trans compiled')
    rw [cells row member, cells' row member]
  · intro j title titled
    obtain ⟨s, compiled, _, cells⟩ := h.title titled
    refine ⟨_, h.column titled compiled, ?_⟩
    rw [List.map_map]
    exact List.map_congr_left cells

/-- The first formula is a bare variable, so its column repeats the title of its own input. -/
theorem titles_crossed : TableOver ["q", "p"] (jointTable crossed) ∧
    (jointTable crossed).header = ["q", "p", "q", "(q → ¬p)"] ∧
    ∃ cells, (jointTable crossed).column "q" = .ok cells ∧
      (jointTable crossed).rows.map (fun row => row[2]?) = cells.map some := by
  have compiled : ∀ r ∈ crossed, ∃ text, compile text = .ok r :=
    fun r member => ⟨r.source, compile_crossed r member⟩
  have names : commonNames crossed = ["q", "p"] := by decide
  have arises : TableOver ["q", "p"] (jointTable crossed) := by
    rw [← names]
    exact .joint compiled
  have header : (jointTable crossed).header = ["q", "p", "q", "(q → ¬p)"] := by decide +kernel
  obtain ⟨_, _, _, _, lookup⟩ := titles_honest _ _ arises
  exact ⟨arises, header, lookup 2 "q" (by rw [header]; rfl)⟩

end Propositional
