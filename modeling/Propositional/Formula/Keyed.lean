import Propositional.Formula

/-!
# Formulas with numbered nodes

A formula whose every node carries a number, which may stand for the node's place in memory or for
the structure below it. `laid_coherent` says that a formula can be laid out so that no two of its
nodes share a number.
-/

namespace Propositional.Formula

variable {ν : Type}

/-- A formula whose every node carries its key. -/
inductive Keyed (ν : Type) where
  | truth (key : Nat) (value : Bool)
  | var (key : Nat) (i : ν)
  | not (key : Nat) (f : Keyed ν)
  | binary (key : Nat) (c : Connective) (l r : Keyed ν)
  deriving DecidableEq

namespace Keyed

def key : Keyed ν → Nat
  | truth key _ | var key _ | not key _ | binary key _ _ _ => key

def formula : Keyed ν → Formula ν
  | truth _ v => .truth v
  | var _ i => .var i
  | not _ f => .not f.formula
  | binary _ c l r => .binary c l.formula r.formula

def size : Keyed ν → Nat
  | truth _ _ | var _ _ => 1
  | not _ f => f.size + 1
  | binary _ _ l r => l.size + r.size + 1

def children : Keyed ν → List (Keyed ν)
  | truth _ _ | var _ _ => []
  | not _ f => [f]
  | binary _ _ l r => [l, r]

/-- All nodes, each before those below it. -/
def nodes : Keyed ν → List (Keyed ν)
  | truth key v => [truth key v]
  | var key i => [var key i]
  | not key f => not key f :: f.nodes
  | binary key c l r => binary key c l r :: (l.nodes ++ r.nodes)

/-- Nodes of one key are one node, which may stand in several places. -/
def Coherent (t : Keyed ν) : Prop :=
  ∀ a ∈ t.nodes, ∀ b ∈ t.nodes, a.key = b.key → a = b

theorem size_pos (t : Keyed ν) : 0 < t.size := by
  cases t <;> simp [size]

theorem self_mem_nodes (t : Keyed ν) : t ∈ t.nodes := by
  cases t <;> exact List.mem_cons_self

theorem size_le_of_mem {a t : Keyed ν} (inside : a ∈ t.nodes) : a.size ≤ t.size := by
  induction t with
  | truth | var => exact Nat.le_of_eq (congrArg size (List.mem_singleton.mp inside))
  | not key f ih =>
    rcases List.mem_cons.mp inside with rfl | below
    · exact Nat.le_refl _
    · exact Nat.le_succ_of_le (ih below)
  | binary key c l r hl hr =>
    simp only [size]
    rcases List.mem_cons.mp inside with rfl | below
    · exact Nat.le_refl _
    · rcases List.mem_append.mp below with left | right
      · have := hl left; omega
      · have := hr right; omega

theorem nodes_subset {a t : Keyed ν} (inside : a ∈ t.nodes) : a.nodes ⊆ t.nodes := by
  induction t with
  | truth | var => rw [List.mem_singleton.mp inside]; exact List.Subset.refl _
  | not key f ih =>
    rcases List.mem_cons.mp inside with rfl | below
    · exact List.Subset.refl _
    · exact fun b member => List.mem_cons_of_mem _ (ih below member)
  | binary key c l r hl hr =>
    rcases List.mem_cons.mp inside with rfl | below
    · exact List.Subset.refl _
    · intro b member
      apply List.mem_cons_of_mem
      rcases List.mem_append.mp below with left | right
      · exact List.mem_append_left _ (hl left member)
      · exact List.mem_append_right _ (hr right member)

/-- In a coherent formula no node has the key of a smaller one. -/
theorem Coherent.key_ne {t a b : Keyed ν} (coherent : t.Coherent) (inside : a ∈ t.nodes) (other : b ∈ t.nodes)
    (smaller : b.size < a.size) : b.key ≠ a.key := by
  intro same
  rw [coherent b other a inside same] at smaller
  exact Nat.lt_irrefl _ smaller

end Keyed

/-! ### Layout -/

/-- A layout whose keys count on from `next`, each node before those below it; and the first key left over. -/
def laidFrom : Formula ν → Nat → Keyed ν × Nat
  | truth v, next => (.truth next v, next + 1)
  | var i, next => (.var next i, next + 1)
  | not f, next =>
    let (below, free) := f.laidFrom (next + 1)
    (.not next below, free)
  | binary c l r, next =>
    let (left, free) := l.laidFrom (next + 1)
    let (right, free) := r.laidFrom free
    (.binary next c left right, free)

def laid (f : Formula ν) : Keyed ν :=
  (f.laidFrom 0).1

theorem laidFrom_formula (f : Formula ν) (next : Nat) : (f.laidFrom next).1.formula = f := by
  induction f generalizing next with
  | truth | var => rfl
  | not f ih => exact congrArg Formula.not (ih _)
  | binary c l r hl hr => exact congr (congrArg (Formula.binary c) (hl _)) (hr _)

theorem laid_formula (f : Formula ν) : f.laid.formula = f :=
  laidFrom_formula f 0

/-- The keys of a layout are those from its first one up to the first one left over. -/
theorem laidFrom_bounds (f : Formula ν) (next : Nat) : next < (f.laidFrom next).2 ∧
    ∀ a ∈ (f.laidFrom next).1.nodes, next ≤ a.key ∧ a.key < (f.laidFrom next).2 := by
  induction f generalizing next with
  | truth | var =>
    refine ⟨Nat.lt_succ_self next, fun a inside => ?_⟩
    rw [List.mem_singleton.mp inside]
    exact ⟨Nat.le_refl next, Nat.lt_succ_self next⟩
  | not f ih =>
    obtain ⟨more, bounds⟩ := ih (next + 1)
    refine ⟨Nat.lt_of_succ_lt more, fun a inside => ?_⟩
    rcases List.mem_cons.mp inside with rfl | below
    · exact ⟨Nat.le_refl next, Nat.lt_of_succ_lt more⟩
    · have bound := bounds a below
      exact ⟨Nat.le_of_succ_le bound.1, bound.2⟩
  | binary c l r hl hr =>
    obtain ⟨moreLeft, boundsLeft⟩ := hl (next + 1)
    obtain ⟨moreRight, boundsRight⟩ := hr (l.laidFrom (next + 1)).2
    have more : next < (r.laidFrom (l.laidFrom (next + 1)).2).2 := by omega
    refine ⟨more, fun a inside => ?_⟩
    rcases List.mem_cons.mp inside with rfl | below
    · exact ⟨Nat.le_refl next, more⟩
    · rcases List.mem_append.mp below with left | right
      · have bound := boundsLeft a left
        exact ⟨by omega, Nat.lt_trans bound.2 moreRight⟩
      · have bound := boundsRight a right
        exact ⟨by omega, bound.2⟩

theorem laidFrom_increasing (f : Formula ν) (next : Nat) :
    (f.laidFrom next).1.nodes.Pairwise fun a b => a.key < b.key := by
  induction f generalizing next with
  | truth | var => exact List.pairwise_singleton _ _
  | not f ih => exact List.pairwise_cons.mpr ⟨fun a below => ((laidFrom_bounds f _).2 a below).1, ih _⟩
  | binary c l r hl hr =>
    obtain ⟨more, lefts⟩ := laidFrom_bounds l (next + 1)
    obtain ⟨_, rights⟩ := laidFrom_bounds r (l.laidFrom (next + 1)).2
    refine List.pairwise_cons.mpr ⟨fun a below => ?_, List.pairwise_append.mpr ⟨hl _, hr _, fun a left b right => ?_⟩⟩
    · rcases List.mem_append.mp below with left | right
      · exact (lefts a left).1
      · exact Nat.lt_of_lt_of_le (Nat.lt_of_succ_lt more) (rights a right).1
    · exact Nat.lt_of_lt_of_le (lefts a left).2 (rights b right).1

theorem laid_coherent (f : Formula ν) : f.laid.Coherent := by
  have increasing := List.pairwise_iff_getElem.mp (laidFrom_increasing f 0)
  intro a first b second same
  obtain ⟨i, insideFirst, rfl⟩ := List.getElem_of_mem first
  obtain ⟨j, insideSecond, rfl⟩ := List.getElem_of_mem second
  rcases Nat.lt_trichotomy i j with before | rfl | after
  · exact absurd same (Nat.ne_of_lt (increasing i j insideFirst insideSecond before))
  · rfl
  · exact absurd same.symm (Nat.ne_of_lt (increasing j i insideSecond insideFirst after))

end Propositional.Formula
