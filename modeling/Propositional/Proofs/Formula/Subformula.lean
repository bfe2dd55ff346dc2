import Mathlib.Order.Lattice.Nat
import Propositional.Formula.Subformula
import Propositional.Proofs.Formula.Key

/-!
# Subformulas in level order

A queue that takes nodes from the front and puts their parts at the back goes through a formula level by
level. `subformulas_levelOrder` says that the compound subformulas are what this gives without the
variables and without repetitions, so each of them stands there once, the shallower ones first.
-/

namespace Propositional.Formula

variable {ν : Type} {f g h : Formula ν} {d : Nat}

/-! ### Levels -/

def isVar : Formula ν → Bool
  | var _ => true
  | _ => false

def height : Formula ν → Nat
  | truth _ | var _ => 0
  | not f => f.height + 1
  | binary _ l r => max l.height r.height + 1

/-- The nodes this many steps below the root, from right to left. -/
def level : Formula ν → Nat → List (Formula ν)
  | f, 0 => [f]
  | truth _, _ + 1 | var _, _ + 1 => []
  | not f, d + 1 => f.level d
  | binary _ l r, d + 1 => r.level d ++ l.level d

def levelOrder (f : Formula ν) : List (Formula ν) :=
  (List.range (f.height + 1)).flatMap f.level

/-- A formula stands in another one, this many steps below its root. -/
inductive OccursAt (g : Formula ν) : Nat → Formula ν → Prop where
  | root : OccursAt g 0 g
  | not {f : Formula ν} {d : Nat} (below : OccursAt g d f) : OccursAt g (d + 1) (not f)
  | left {c : Connective} {l r : Formula ν} {d : Nat} (below : OccursAt g d l) : OccursAt g (d + 1) (binary c l r)
  | right {c : Connective} {l r : Formula ν} {d : Nat} (below : OccursAt g d r) : OccursAt g (d + 1) (binary c l r)

theorem level_zero (f : Formula ν) : f.level 0 = [f] := by
  cases f <;> rfl

theorem level_succ (f : Formula ν) (d : Nat) : f.level (d + 1) = (f.level d).flatMap (·.children.reverse) := by
  induction f generalizing d with
  | truth | var => cases d <;> rfl
  | not f ih =>
    cases d with
    | zero => exact level_zero f
    | succ d => exact ih d
  | binary c l r hl hr =>
    cases d with
    | zero =>
      show r.level 0 ++ l.level 0 = _
      rw [level_zero, level_zero]
      rfl
    | succ d =>
      show r.level (d + 1) ++ l.level (d + 1) = (r.level d ++ l.level d).flatMap _
      rw [List.flatMap_append, hr, hl]

theorem mem_level_iff : g ∈ f.level d ↔ g.OccursAt d f := by
  constructor
  · intro member
    induction f generalizing d with
    | truth | var =>
      cases d with
      | zero => rw [List.mem_singleton.mp member]; exact .root
      | succ d => cases member
    | not f ih =>
      cases d with
      | zero => rw [List.mem_singleton.mp member]; exact .root
      | succ d => exact .not (ih member)
    | binary c l r hl hr =>
      cases d with
      | zero => rw [List.mem_singleton.mp member]; exact .root
      | succ d =>
        rcases List.mem_append.mp member with right | left
        · exact .right (hr right)
        · exact .left (hl left)
  · intro occurs
    induction occurs with
    | root => rw [level_zero]; exact List.mem_singleton_self g
    | not _ ih => exact ih
    | left _ ih => exact List.mem_append_right _ ih
    | right _ ih => exact List.mem_append_left _ ih

theorem OccursAt.le_height (occurs : g.OccursAt d f) : d ≤ f.height := by
  induction occurs with
  | root => exact Nat.zero_le _
  | not _ ih => exact Nat.succ_le_succ ih
  | left _ ih => exact Nat.succ_le_succ (Nat.le_trans ih (Nat.le_max_left _ _))
  | right _ ih => exact Nat.succ_le_succ (Nat.le_trans ih (Nat.le_max_right _ _))

theorem level_beyond (f : Formula ν) : f.level (f.height + 1) = [] := by
  refine List.eq_nil_iff_forall_not_mem.mpr fun g member => ?_
  exact Nat.not_succ_le_self _ (mem_level_iff.mp member).le_height

theorem mem_levelOrder_iff : g ∈ f.levelOrder ↔ ∃ d, g.OccursAt d f := by
  unfold levelOrder
  rw [List.mem_flatMap]
  constructor
  · rintro ⟨d, _, member⟩
    exact ⟨d, mem_level_iff.mp member⟩
  · rintro ⟨d, occurs⟩
    exact ⟨d, List.mem_range.mpr (Nat.lt_succ_of_le occurs.le_height), mem_level_iff.mpr occurs⟩

theorem levels_front (f : Formula ν) (inside : d ≤ f.height) :
    (List.range (d + 1)).flatMap f.level <+: f.levelOrder := by
  obtain ⟨more, total⟩ := Nat.exists_eq_add_of_le (Nat.add_le_add_right inside 1)
  have split : List.range (d + 1 + more) = List.range (d + 1) ++ (List.range more).map (d + 1 + ·) := List.range_add
  rw [levelOrder, total, split, List.flatMap_append]
  exact List.prefix_append _ _

/-! ### The queue -/

namespace Keyed

variable {table : List (Shape ν)} {node part : Keyed ν} {queue : List (Keyed ν)}

theorem map_parts (node : Keyed ν) : node.parts.map formula = node.formula.children.reverse := by
  cases node <;> rfl

theorem isVar_formula (node : Keyed ν) : node.formula.isVar = node.isVar := by
  cases node <;> rfl

theorem Sound.parts (sound : node.Sound table) (member : part ∈ node.parts) : part.Sound table := by
  cases node with
  | truth | var => cases member
  | not key f =>
    rw [List.mem_singleton.mp member]
    exact sound.2
  | binary key c l r =>
    rcases List.mem_pair.mp member with rfl | rfl
    · exact sound.2.2
    · exact sound.2.1

end Keyed

open Keyed

theorem breadthFirst_append (front queue : List (Keyed ν)) :
    breadthFirst (front ++ queue) = front ++ breadthFirst (queue ++ front.flatMap parts) := by
  induction front generalizing queue with
  | nil => simp
  | cons node front ih =>
    rw [List.cons_append, breadthFirst, List.append_assoc, ih]
    simp

/-- One round takes all nodes of the queue and leaves all their parts. -/
theorem breadthFirst_round (queue : List (Keyed ν)) :
    breadthFirst queue = queue ++ breadthFirst (queue.flatMap parts) := by
  have round := breadthFirst_append queue []
  rwa [List.append_nil, List.nil_append] at round

/-- After as many rounds the queue holds just this level. -/
theorem breadthFirst_level (node : Keyed ν) (d : Nat) : ∃ queue : List (Keyed ν),
    queue.map formula = node.formula.level d ∧
    (breadthFirst [node]).map formula =
      (List.range d).flatMap node.formula.level ++ (breadthFirst queue).map formula := by
  induction d with
  | zero => exact ⟨[node], (level_zero _).symm, rfl⟩
  | succ d ih =>
    obtain ⟨queue, level, before⟩ := ih
    refine ⟨queue.flatMap parts, ?_, ?_⟩
    · rw [level_succ, ← level, List.map_flatMap, List.flatMap_map]
      exact List.flatMap_congr fun node _ => map_parts node
    · rw [before, breadthFirst_round queue, List.map_append, level, List.range_succ, List.flatMap_append,
        List.append_assoc]
      simp

theorem map_breadthFirst (node : Keyed ν) : (breadthFirst [node]).map formula = node.formula.levelOrder := by
  obtain ⟨queue, level, all⟩ := breadthFirst_level node (node.formula.height + 1)
  rw [level_beyond, List.map_eq_nil_iff] at level
  rw [all, level, breadthFirst, List.map_nil, List.append_nil, levelOrder]

theorem breadthFirst_sound {table : List (Shape ν)} {queue : List (Keyed ν)}
    (sound : ∀ node ∈ queue, node.Sound table) : ∀ node ∈ breadthFirst queue, node.Sound table := by
  fun_induction breadthFirst queue with
  | case1 => exact sound
  | case2 node queue ih =>
    obtain ⟨first, others⟩ := List.forall_mem_cons.mp sound
    refine List.forall_mem_cons.mpr ⟨first, ih fun next member => ?_⟩
    rcases List.mem_append.mp member with waiting | part
    · exact others next waiting
    · exact first.parts part

/-! ### Subformulas -/

variable [DecidableEq ν]

theorem subformulas_eq (f : Formula ν) : f.subformulas = (f.levelOrder.filter (!·.isVar)).eraseDups := by
  let node := (f.keyed []).1
  have once : (f.keyed []).2.Nodup := keyed_nodup f List.nodup_nil
  have sound : ∀ part ∈ (breadthFirst [node]).filter (!·.isVar), part.Sound (f.keyed []).2 := by
    intro part member
    exact breadthFirst_sound (List.forall_mem_singleton.mpr (keyed_sound f [])) part (List.mem_filter.mp member).1
  have compound : ((breadthFirst [node]).filter (!·.isVar)).map formula = f.levelOrder.filter (!·.isVar) := by
    have all : (breadthFirst [node]).map formula = f.levelOrder := by
      rw [map_breadthFirst, keyed_formula]
    rw [← all, List.filter_map]
    exact congrArg (List.map formula) (List.filter_congr fun part _ => by rw [Function.comp_apply, isVar_formula])
  calc f.subformulas
      = (distinctBy key [] ((breadthFirst [node]).filter (!·.isVar))).map formula := rfl
    _ = distinct (((breadthFirst [node]).filter (!·.isVar)).map formula) :=
        map_distinctBy [] _ (fun _ _ left right => left.key_eq_iff once right) (by simp) sound
    _ = (f.levelOrder.filter (!·.isVar)).eraseDups := by rw [compound, distinct_eq_eraseDups]

theorem mem_subformulas_iff : g ∈ f.subformulas ↔ g.isVar = false ∧ ∃ d, g.OccursAt d f := by
  rw [subformulas_eq, List.mem_eraseDups, List.mem_filter, mem_levelOrder_iff, Bool.not_eq_true', and_comm]

theorem nodup_subformulas (f : Formula ν) : f.subformulas.Nodup := by
  rw [subformulas_eq, ← distinct_eq_eraseDups]
  exact nodup_distinct _

theorem head?_subformulas (compound : f.isVar = false) : f.subformulas.head? = some f := by
  have first : f.levelOrder = f :: ((List.range f.height).map (· + 1)).flatMap f.level := by
    rw [levelOrder, List.range_succ_eq_map, List.flatMap_cons, level_zero]
    rfl
  rw [subformulas_eq, first, List.filter_cons_of_pos (by rw [compound]; rfl), List.eraseDups_cons]
  rfl

/-- A subformula occurs no deeper than those that come after it. -/
theorem subformulas_shallow (f : Formula ν) :
    f.subformulas.Pairwise fun g h => ∀ d, h.OccursAt d f → ∃ e ≤ d, g.OccursAt e f := by
  have fronts := distinct_fronts (f.levelOrder.filter (!·.isVar))
  rw [distinct_eq_eraseDups, ← subformulas_eq] at fronts
  refine fronts.imp_of_mem fun {g h} _ right earlier d occurs => ?_
  have compound := (mem_subformulas_iff.mp right).1
  have stands : h ∈ (List.range (d + 1)).flatMap f.level :=
    List.mem_flatMap.mpr ⟨d, List.mem_range.mpr (Nat.lt_succ_self d), mem_level_iff.mpr occurs⟩
  have stands' := earlier _ ((levels_front f occurs.le_height).filter _)
    (List.mem_filter.mpr ⟨stands, by rw [compound]; rfl⟩)
  obtain ⟨e, above, member⟩ := List.mem_flatMap.mp (List.mem_filter.mp stands').1
  exact ⟨e, Nat.le_of_lt_succ (List.mem_range.mp above), mem_level_iff.mp member⟩

/-- The compound subformulas are the nodes level by level and from right to left, each where it first occurs. -/
theorem subformulas_levelOrder (f : Formula ν) :
    f.subformulas = (f.levelOrder.filter (!·.isVar)).eraseDups ∧
    (∀ g, g ∈ f.subformulas ↔ g.isVar = false ∧ ∃ d, g.OccursAt d f) ∧
    f.subformulas.Nodup ∧
    (f.isVar = false → f.subformulas.head? = some f) ∧
    f.subformulas.Pairwise fun g h => sInf {d | g.OccursAt d f} ≤ sInf {d | h.OccursAt d f} := by
  refine ⟨subformulas_eq f, fun _ => mem_subformulas_iff, nodup_subformulas f, head?_subformulas, ?_⟩
  refine (subformulas_shallow f).imp_of_mem fun {g h} _ right shallow => ?_
  have least : h.OccursAt (sInf {d | h.OccursAt d f}) f := Nat.sInf_mem (mem_subformulas_iff.mp right).2
  obtain ⟨e, above, occurs⟩ := shallow _ least
  exact (Nat.sInf_le occurs).trans above

/-- The right operand stands before the left one, which also occurs deeper down. -/
example : (binary .or (binary .and (var 0) (var 1)) (not (binary .and (var 0) (var 1)))).subformulas =
    [binary .or (binary .and (var 0) (var 1)) (not (binary .and (var 0) (var 1))),
      not (binary .and (var 0) (var 1)), binary .and (var 0) (var 1)] := by
  decide +kernel

end Propositional.Formula
