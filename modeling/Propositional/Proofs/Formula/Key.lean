import Mathlib.Data.List.Nodup
import Propositional.Formula.Key

/-!
# Keys decide equality

Numbering a formula enters the shapes of its nodes into a table in which no shape stands twice.
`keyed_sound` says that every node then carries the number of its shape, and `Keyed.Sound.key_eq_iff`
that under one table two nodes have the same key exactly when they are the same formula.
-/

namespace Propositional.Formula

variable {ν : Type} {table larger : List (Shape ν)} {shape other : Shape ν} {key place : Nat}

/-! ### Numbers of shapes -/

def Numbered (table : List (Shape ν)) (key : Nat) (shape : Shape ν) : Prop :=
  table.reverse[key]? = some shape

theorem Numbered.unique (left : Numbered table key shape) (right : Numbered table key other) : shape = other :=
  Option.some.inj (left.symm.trans right)

theorem Numbered.injective (distinct : table.Nodup) (left : Numbered table key shape)
    (right : Numbered table place shape) : key = place := by
  have inside : key < table.reverse.length := (List.getElem?_eq_some_iff.mp left).1
  exact (List.getElem?_inj inside (List.nodup_reverse.mpr distinct)).mp (left.trans right.symm)

theorem Numbered.mono (kept : table <:+ larger) (numbered : Numbered table key shape) :
    Numbered larger key shape := by
  obtain ⟨newer, rfl⟩ := kept
  have inside : key < table.reverse.length := (List.getElem?_eq_some_iff.mp numbered).1
  unfold Numbered
  rw [List.reverse_append, List.getElem?_append_left inside]
  exact numbered

theorem numbered_newest (first : Shape ν) (older : List (Shape ν)) :
    Numbered (first :: older) older.length first := by
  unfold Numbered
  rw [List.reverse_cons, List.getElem?_append_right (by simp)]
  simp

namespace Keyed

/-- A node with its parts replaced by their keys. -/
def toShape : Keyed ν → Shape ν
  | truth _ v => .truth v
  | var _ i => .var i
  | not _ f => .not f.key
  | binary _ c l r => .binary c l.key r.key

/-- Every node carries the number of its shape. -/
def Sound (table : List (Shape ν)) : Keyed ν → Prop
  | truth key v => Numbered table key (.truth v)
  | var key i => Numbered table key (.var i)
  | not key f => Numbered table key (.not f.key) ∧ f.Sound table
  | binary key c l r => Numbered table key (.binary c l.key r.key) ∧ l.Sound table ∧ r.Sound table

namespace Sound

variable {a b : Keyed ν}

theorem numbered (sound : a.Sound table) : Numbered table a.key a.toShape := by
  cases a with
  | truth | var => exact sound
  | not | binary => exact sound.1

theorem mono (kept : table <:+ larger) (sound : a.Sound table) : a.Sound larger := by
  induction a with
  | truth | var => exact Numbered.mono kept sound
  | not key f ih => exact ⟨sound.1.mono kept, ih sound.2⟩
  | binary key c l r hl hr => exact ⟨sound.1.mono kept, hl sound.2.1, hr sound.2.2⟩

theorem shape_eq (left : a.Sound table) (right : b.Sound table) (same : a.key = b.key) :
    a.toShape = b.toShape := by
  have numbered := right.numbered
  rw [← same] at numbered
  exact left.numbered.unique numbered

theorem formula_eq (left : a.Sound table) (right : b.Sound table) (same : a.key = b.key) :
    a.formula = b.formula := by
  have shapes := left.shape_eq right same
  induction a generalizing b with
  | truth =>
    cases b with
    | truth => exact congrArg Formula.truth (Shape.truth.inj shapes)
    | var | not | binary => cases shapes
  | var =>
    cases b with
    | var => exact congrArg Formula.var (Shape.var.inj shapes)
    | truth | not | binary => cases shapes
  | not key f ih =>
    cases b with
    | not place g =>
      have below : f.key = g.key := Shape.not.inj shapes
      exact congrArg Formula.not (ih left.2 right.2 below (left.2.shape_eq right.2 below))
    | truth | var | binary => cases shapes
  | binary key c l r hl hr =>
    cases b with
    | binary place d l' r' =>
      obtain ⟨rfl, first, second⟩ := Shape.binary.inj shapes
      have lefts := hl left.2.1 right.2.1 first (left.2.1.shape_eq right.2.1 first)
      have rights := hr left.2.2 right.2.2 second (left.2.2.shape_eq right.2.2 second)
      exact congrArg₂ (Formula.binary c) lefts rights
    | truth | var | not => cases shapes

theorem key_eq_of_shape (distinct : table.Nodup) (left : a.Sound table) (right : b.Sound table)
    (same : a.toShape = b.toShape) : a.key = b.key := by
  have numbered := right.numbered
  rw [← same] at numbered
  exact left.numbered.injective distinct numbered

theorem key_eq (distinct : table.Nodup) (left : a.Sound table) (right : b.Sound table)
    (same : a.formula = b.formula) : a.key = b.key := by
  apply left.key_eq_of_shape distinct right
  induction a generalizing b with
  | truth =>
    cases b with
    | truth => exact congrArg Shape.truth (Formula.truth.inj same)
    | var | not | binary => cases same
  | var =>
    cases b with
    | var => exact congrArg Shape.var (Formula.var.inj same)
    | truth | not | binary => cases same
  | not key f ih =>
    cases b with
    | not place g =>
      have below := ih left.2 right.2 (Formula.not.inj same)
      exact congrArg Shape.not (left.2.key_eq_of_shape distinct right.2 below)
    | truth | var | binary => cases same
  | binary key c l r hl hr =>
    cases b with
    | binary place d l' r' =>
      obtain ⟨rfl, first, second⟩ := Formula.binary.inj same
      have lefts := left.2.1.key_eq_of_shape distinct right.2.1 (hl left.2.1 right.2.1 first)
      have rights := left.2.2.key_eq_of_shape distinct right.2.2 (hr left.2.2 right.2.2 second)
      exact congrArg₂ (Shape.binary c) lefts rights
    | truth | var | not => cases same

theorem key_eq_iff (distinct : table.Nodup) (left : a.Sound table) (right : b.Sound table) :
    a.key = b.key ↔ a.formula = b.formula :=
  ⟨left.formula_eq right, left.key_eq distinct right⟩

end Sound

end Keyed

/-! ### Growing tables -/

variable [DecidableEq ν]

theorem Shape.numbered_of_key? (found : shape.key? table = some key) : Numbered table key shape := by
  induction table with
  | nil => cases found
  | cons first older ih =>
    rw [key?] at found
    split at found
    · rename_i same
      obtain rfl := Option.some.inj found
      rw [← same]
      exact numbered_newest first older
    · exact (ih found).mono (List.suffix_cons first older)

theorem Shape.not_mem_of_key? (fresh : shape.key? table = none) : shape ∉ table := by
  induction table with
  | nil => exact List.not_mem_nil
  | cons first older ih =>
    rw [key?] at fresh
    split at fresh
    · cases fresh
    · rename_i differs
      exact List.not_mem_cons_of_ne_of_not_mem (Ne.symm differs) (ih fresh)

theorem Shape.enter_numbered (shape : Shape ν) (table : List (Shape ν)) :
    Numbered (shape.enter table).2 (shape.enter table).1 shape := by
  unfold enter
  split
  · rename_i found
    exact numbered_of_key? found
  · exact numbered_newest shape table

theorem Shape.enter_kept (shape : Shape ν) (table : List (Shape ν)) : table <:+ (shape.enter table).2 := by
  unfold enter
  split
  · exact List.suffix_refl table
  · exact List.suffix_cons shape table

theorem Shape.enter_nodup (shape : Shape ν) (distinct : table.Nodup) : (shape.enter table).2.Nodup := by
  unfold enter
  split
  · exact distinct
  · rename_i fresh
    exact List.nodup_cons.mpr ⟨not_mem_of_key? fresh, distinct⟩

theorem keyed_truth (v : Bool) (table : List (Shape ν)) : (truth v).keyed table =
    (.truth ((Shape.truth v).enter table).1 v, ((Shape.truth v).enter table).2) := by
  rw [keyed, walk_eq_fold]
  rfl

theorem keyed_var (i : ν) (table : List (Shape ν)) : (var i).keyed table =
    (.var ((Shape.var i).enter table).1 i, ((Shape.var i).enter table).2) := by
  rw [keyed, walk_eq_fold]
  rfl

theorem keyed_not (f : Formula ν) (table : List (Shape ν)) : (not f).keyed table =
    let below := f.keyed table
    let entered := (Shape.not below.1.key).enter below.2
    (.not entered.1 below.1, entered.2) := by
  simp only [keyed, walk_eq_fold, fold, sure_bind]
  rfl

theorem keyed_binary (c : Connective) (l r : Formula ν) (table : List (Shape ν)) : (binary c l r).keyed table =
    let left := l.keyed table
    let right := r.keyed left.2
    let entered := (Shape.binary c left.1.key right.1.key).enter right.2
    (.binary entered.1 c left.1 right.1, entered.2) := by
  simp only [keyed, walk_eq_fold, fold, sure_bind]
  rfl

theorem keyed_kept (f : Formula ν) (table : List (Shape ν)) : table <:+ (f.keyed table).2 := by
  induction f generalizing table with
  | truth v =>
    rw [keyed_truth]
    exact Shape.enter_kept _ table
  | var i =>
    rw [keyed_var]
    exact Shape.enter_kept _ table
  | not f ih =>
    rw [keyed_not]
    exact (ih table).trans (Shape.enter_kept _ _)
  | binary c l r hl hr =>
    rw [keyed_binary]
    exact ((hl table).trans (hr _)).trans (Shape.enter_kept _ _)

theorem keyed_nodup (f : Formula ν) (distinct : table.Nodup) : (f.keyed table).2.Nodup := by
  induction f generalizing table with
  | truth v =>
    rw [keyed_truth]
    exact Shape.enter_nodup _ distinct
  | var i =>
    rw [keyed_var]
    exact Shape.enter_nodup _ distinct
  | not f ih =>
    rw [keyed_not]
    exact Shape.enter_nodup _ (ih distinct)
  | binary c l r hl hr =>
    rw [keyed_binary]
    exact Shape.enter_nodup _ (hr (hl distinct))

theorem keyed_sound (f : Formula ν) (table : List (Shape ν)) : (f.keyed table).1.Sound (f.keyed table).2 := by
  induction f generalizing table with
  | truth v =>
    rw [keyed_truth]
    exact Shape.enter_numbered _ table
  | var i =>
    rw [keyed_var]
    exact Shape.enter_numbered _ table
  | not f ih =>
    rw [keyed_not]
    exact ⟨Shape.enter_numbered _ _, (ih table).mono (Shape.enter_kept _ _)⟩
  | binary c l r hl hr =>
    rw [keyed_binary]
    have left := (hl table).mono (keyed_kept r _)
    exact ⟨Shape.enter_numbered _ _, left.mono (Shape.enter_kept _ _), (hr _).mono (Shape.enter_kept _ _)⟩

end Propositional.Formula
