import Mathlib.Algebra.GroupWithZero.Nat
import Mathlib.Data.List.Forall2
import Propositional.Message.Event

/-!
# Aligned tables

`lines_aligned` says that the lines of a table have the same length, that each column stands at the same
offset in all of them and that the same three characters stand between any two columns.
-/

namespace Propositional

def stretch (line : String) (start width : Nat) : List Char :=
  (line.toList.drop start).take width

namespace Table

def columnTitle (t : Table) (j : Nat) : String :=
  t.header.getD j ""

def columnWidth (t : Table) (j : Nat) : Nat :=
  max (t.columnTitle j).length 1

/-- Every column but the last is followed by three characters. -/
def columnStart (t : Table) (j : Nat) : Nat :=
  ((List.range j).map fun i => t.columnWidth i + 3).sum

/-- A line over the columns of a table: what it shows in each, and what it has between any two. -/
structure Aligned (t : Table) (separator : String) (field : Nat → List Char) (line : String) : Prop where
  length_eq : line.length = t.columnStart (t.header.length - 1) + t.columnWidth (t.header.length - 1)
  fields : ∀ j < t.header.length, stretch line (t.columnStart j) (t.columnWidth j) = field j
  gaps : ∀ j, j + 1 < t.header.length → stretch line (t.columnStart j + t.columnWidth j) 3 = separator.toList

def titleField (t : Table) (j : Nat) : List Char :=
  (t.columnTitle j).toList ++ List.replicate (t.columnWidth j - (t.columnTitle j).length) ' '

def ruleField (t : Table) (j : Nat) : List Char :=
  List.replicate (t.columnWidth j) '-'

def cellField (t : Table) (row : List Bool) (j : Nat) : List Char :=
  (if row.getD j false then 'T' else 'F') :: List.replicate (t.columnWidth j - 1) ' '

end Table

/-! ### Joined texts -/

/-- A field of a joined text stands behind the fields before it, each of them with a separator, and in front
of a separator unless it is the last. -/
theorem intercalate_split {α : Type} (separator : List α) {fields : List (List α)} {j : Nat} (inside : j < fields.length) :
    ∃ before after, separator.intercalate fields = before ++ (fields[j] ++ after) ∧
      before.length = ((fields.take j).map fun field => field.length + separator.length).sum ∧
      (j + 1 = fields.length → after = []) ∧ (j + 1 < fields.length → separator <+: after) := by
  induction fields generalizing j with
  | nil => cases inside
  | cons first fields ih =>
    cases fields with
    | nil =>
      obtain rfl : j = 0 := by simpa using inside
      exact ⟨[], [], by simp, by simp, fun _ => rfl, fun more => by simp at more⟩
    | cons second fields =>
      rw [List.intercalate_cons_cons]
      cases j with
      | zero =>
        refine ⟨[], separator ++ separator.intercalate (second :: fields), by simp, by simp, fun last => ?_, fun _ => ?_⟩
        · simp at last
        · exact List.prefix_append _ _
      | succ j =>
        obtain ⟨before, after, split, size, last, more⟩ := ih (Nat.lt_of_succ_lt_succ inside)
        refine ⟨first ++ separator ++ before, after, ?_, ?_, ?_, ?_⟩
        · rw [split, List.getElem_cons_succ]
          simp only [List.append_assoc]
        · simp only [List.length_append, size, List.take_succ_cons, List.map_cons, List.sum_cons]
        · exact fun final => last (Nat.succ.inj final)
        · exact fun further => more (Nat.lt_of_succ_lt_succ further)

namespace Table

variable {t : Table}

theorem columnStart_eq (sizes : List Nat)
    (widths : ∀ j, (h : j < sizes.length) → sizes[j] = t.columnWidth j) {j : Nat} (inside : j ≤ sizes.length) :
    ((sizes.take j).map (· + 3)).sum = t.columnStart j := by
  unfold columnStart
  congr 1
  refine List.ext_getElem (by simp [inside]) fun i _ _ => ?_
  simp [widths]

theorem aligned_intercalate {separator : String} (wide : separator.length = 3) {texts : List String}
    (count : texts.length = t.header.length) (titled : t.header ≠ [])
    (sizes : ∀ j, (h : j < texts.length) → texts[j].length = t.columnWidth j) :
    t.Aligned separator (fun j => (texts.getD j "").toList) (separator.intercalate texts) := by
  have split : ∀ j, (h : j < texts.length) → ∃ before after : List Char,
      (separator.intercalate texts).toList = before ++ (texts[j].toList ++ after) ∧
      before.length = t.columnStart j ∧ texts[j].toList.length = t.columnWidth j ∧
      (j + 1 = texts.length → after = []) ∧ (j + 1 < texts.length → separator.toList <+: after) := by
    intro j inside
    have inside' : j < (texts.map String.toList).length := by simpa using inside
    obtain ⟨before, after, joined, size, last, more⟩ := intercalate_split separator.toList inside'
    refine ⟨before, after, ?_, ?_, ?_, ?_, ?_⟩
    · rw [String.toList_intercalate, joined, List.getElem_map]
    · rw [size, ← columnStart_eq (texts.map String.length)
        (fun i h => by simpa using sizes i (by simpa using h)) (by simpa using Nat.le_of_lt inside)]
      simp [List.map_take, String.length_toList, wide, Function.comp_def]
    · rw [String.length_toList]
      exact sizes j inside
    · simpa using last
    · simpa using more
  have some_column : 0 < texts.length := by rw [count]; exact List.length_pos_iff.mpr titled
  refine ⟨?_, fun j inside => ?_, fun j inside => ?_⟩
  · obtain ⟨before, after, joined, start, width, last, -⟩ := split (texts.length - 1) (by omega)
    rw [← String.length_toList, joined, last (by omega), List.append_nil, List.length_append, start, width, count]
  · obtain ⟨before, after, joined, start, width, -, -⟩ := split j (by omega)
    rw [stretch, joined, ← start, List.drop_left, ← width, List.take_left]
    simp [count, inside]
  · obtain ⟨before, after, joined, start, width, -, more⟩ := split j (by omega)
    obtain ⟨rest, rfl⟩ := more (by omega)
    rw [stretch, joined, ← start, ← width, ← List.drop_drop, List.drop_left, List.drop_left]
    exact List.take_left' (String.length_toList.trans wide)

/-! ### The lines of a table -/

theorem length_padded {width : Nat} {text : String} (fits : text.length ≤ width) : (padded width text).length = width := by
  simp only [padded, String.length_append, String.length_ofList, List.length_replicate]
  omega

theorem toList_padded (width : Nat) (text : String) :
    (padded width text).toList = text.toList ++ List.replicate (width - text.length) ' ' := by
  simp [padded]

theorem length_widths : t.widths.length = t.header.length :=
  List.length_map ..

theorem getElem_widths {j : Nat} (inside : j < t.widths.length) : t.widths[j] = t.columnWidth j := by
  have inside' : j < t.header.length := by simpa [widths] using inside
  simp [widths, columnWidth, columnTitle, inside']

theorem length_cell (value : Bool) : (cell value).length = 1 := by
  cases value <;> rfl

theorem Aligned.congr {separator line : String} {field other : Nat → List Char} (h : t.Aligned separator field line)
    (same : ∀ j < t.header.length, field j = other j) : t.Aligned separator other line :=
  { h with fields := fun j inside => (h.fields j inside).trans (same j inside) }

theorem aligned_line {cells : List String} (count : cells.length = t.header.length) (titled : t.header ≠ [])
    (fits : ∀ j, (h : j < cells.length) → cells[j].length ≤ t.columnWidth j) :
    t.Aligned " | " (fun j => (padded (t.columnWidth j) (cells.getD j "")).toList) (line t.widths cells) := by
  have count' : (List.zipWith padded t.widths cells).length = t.header.length := by
    simp [length_widths, count]
  refine (aligned_intercalate rfl count' titled fun j inside => ?_).congr fun j inside => ?_
  · rw [List.getElem_zipWith, getElem_widths]
    exact length_padded (fits j (by omega))
  · have zipped : j < (List.zipWith padded t.widths cells).length := by omega
    have inside' : j < cells.length := by omega
    simp only [List.getD_eq_getElem?_getD, List.getElem?_eq_getElem zipped, List.getElem?_eq_getElem inside',
      List.getElem_zipWith, getElem_widths, Option.getD_some]

theorem aligned_header (titled : t.header ≠ []) : t.Aligned " | " t.titleField (line t.widths t.header) := by
  refine (aligned_line rfl titled fun j inside => ?_).congr fun j _ => toList_padded ..
  have title : t.columnTitle j = t.header[j] := by simp [columnTitle, inside]
  rw [columnWidth, title]
  exact Nat.le_max_left ..

theorem aligned_rule (titled : t.header ≠ []) : t.Aligned "-+-" t.ruleField (rule t.widths) := by
  refine (aligned_intercalate rfl (by simp [length_widths]) titled fun j inside => ?_).congr fun j inside => ?_
  · simp [getElem_widths]
  · have inside' : j < t.widths.length := length_widths ▸ inside
    simp [ruleField, inside', getElem_widths]

theorem aligned_row (titled : t.header ≠ []) {row : List Bool} (full : row.length = t.header.length) :
    t.Aligned " | " (t.cellField row) (line t.widths (row.map cell)) := by
  refine (aligned_line (by simpa using full) titled fun j inside => ?_).congr fun j inside => ?_
  · rw [List.getElem_map, length_cell]
    exact Nat.le_max_right ..
  · have inside' : j < row.length := full ▸ inside
    have shown : (row.map cell).getD j "" = cell row[j] := by simp [inside']
    rw [shown, toList_padded, length_cell]
    cases value : row[j] <;> simp [cellField, cell, inside', value]

/-- The header, the rule and the rows of a table are the lines that are printed, and every column stands at
the same place in all of them. -/
theorem lines_aligned (t : Table) (titled : t.header ≠ []) (full : ∀ row ∈ t.rows, row.length = t.header.length) :
    ∃ head rule body, Message.table t = (head :: rule :: body).map Message.info ∧
      t.Aligned " | " t.titleField head ∧ t.Aligned "-+-" t.ruleField rule ∧
      List.Forall₂ (fun row line => t.Aligned " | " (t.cellField row) line) t.rows body := by
  refine ⟨line t.widths t.header, rule t.widths, t.rows.map fun row => line t.widths (row.map cell), rfl,
    aligned_header titled, aligned_rule titled, ?_⟩
  rw [List.forall₂_map_right_iff, List.forall₂_same]
  exact fun row member => aligned_row titled (full row member)

theorem lines_aligned_untitled :
    ∃ t : Table, t.header = ["", "(p → q)"] ∧ t.rows = [[false, true], [true, false]] ∧
      t.lines = ["  | (p → q)", "--+--------", "F | T      ", "T | F      "] ∧
      ∃ head rule body, Message.table t = (head :: rule :: body).map Message.info ∧
        t.Aligned " | " t.titleField head ∧ t.Aligned "-+-" t.ruleField rule ∧
        List.Forall₂ (fun row line => t.Aligned " | " (t.cellField row) line) t.rows body :=
  ⟨⟨["", "(p → q)"], [[false, true], [true, false]]⟩, rfl, rfl, by decide,
    lines_aligned _ (by decide) (by decide)⟩

end Table

end Propositional
