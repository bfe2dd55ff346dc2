import Propositional.Formula.Evaluate

/-!
# Renamed variables

Truth values, rendering and resolving by recursion on the formula, and how they follow a change of
variables. `exists_resolve` says that a formula resolves when each of its leaves does.
-/

namespace Propositional.Formula

variable {ν μ ξ : Type}

theorem map_map (g : ν → μ) (h : μ → ξ) (f : Formula ν) : (f.map g).map h = f.map fun i => h (g i) := by
  induction f with
  | truth | var => rfl
  | not f ih => simp [map, ih]
  | binary c l r hl hr => simp [map, hl, hr]

theorem map_self (f : Formula ν) : f.map (fun i => i) = f := by
  induction f with
  | truth | var => rfl
  | not f ih => rw [map, ih]
  | binary c l r hl hr => rw [map, hl, hr]

theorem map_congr {g h : ν → μ} {f : Formula ν} (same : ∀ i ∈ f.leaves, g i = h i) : f.map g = f.map h := by
  induction f with
  | truth => rfl
  | var i => rw [map, map, same i List.mem_cons_self]
  | not f ih => rw [map, map, ih same]
  | binary c l r hl hr =>
    have left := hl fun i member => same i (List.mem_append_left _ member)
    have right := hr fun i member => same i (List.mem_append_right _ member)
    rw [map, map, left, right]

theorem holds_congr {v w : ν → Bool} {f : Formula ν} (same : ∀ i ∈ f.leaves, v i = w i) : f.holds v = f.holds w := by
  induction f with
  | truth => rfl
  | var i => exact same i List.mem_cons_self
  | not f ih => rw [holds, holds, ih same]
  | binary c l r hl hr =>
    have left := hl fun i member => same i (List.mem_append_left _ member)
    have right := hr fun i member => same i (List.mem_append_right _ member)
    rw [holds_binary, holds_binary, left, right]

theorem map_injective {g : ν → μ} (injective : ∀ i j, g i = g j → i = j) {f k : Formula ν}
    (same : f.map g = k.map g) : f = k := by
  induction f generalizing k with
  | truth =>
    cases k with
    | truth => simpa [map] using same
    | _ => cases same
  | var i =>
    cases k with
    | var j => rw [injective i j (var.inj same)]
    | _ => cases same
  | not f ih =>
    cases k with
    | not k => rw [ih (not.inj same)]
    | _ => cases same
  | binary c l r hl hr =>
    cases k with
    | binary d a b =>
      obtain ⟨rfl, left, right⟩ := binary.inj same
      rw [hl left, hr right]
    | _ => cases same

/-! ### Rendering -/

theorem render_truth (name : ν → String) (v : Bool) : (truth v).render name = if v then "⊤" else "⊥" := by
  rw [render, walk_eq_fold]
  rfl

theorem render_var (name : ν → String) (i : ν) : (var i).render name = name i := by
  rw [render, walk_eq_fold]
  rfl

theorem render_not (name : ν → String) (f : Formula ν) : (not f).render name = "¬" ++ f.render name := by
  simp only [render, walk_eq_fold, fold, sure_bind]
  rfl

theorem render_binary (name : ν → String) (c : Connective) (l r : Formula ν) :
    (binary c l r).render name = "(" ++ l.render name ++ " " ++ c.glyph ++ " " ++ r.render name ++ ")" := by
  simp only [render, walk_eq_fold, fold, sure_bind]
  rfl

theorem render_map (g : ν → μ) (name : μ → String) (f : Formula ν) :
    (f.map g).render name = f.render fun i => name (g i) := by
  induction f with
  | truth => simp only [map, render_truth]
  | var => simp only [map, render_var]
  | not f ih => simp only [map, render_not, ih]
  | binary c l r hl hr => simp only [map, render_binary, hl, hr]

/-! ### Resolving -/

theorem resolve_truth (look : ν → Option μ) (v : Bool) : (truth v).resolve look = some (truth v) := by
  rw [resolve, walk_eq_fold]
  rfl

theorem resolve_var (look : ν → Option μ) (i : ν) : (var i).resolve look = (look i).map var := by
  rw [resolve, walk_eq_fold]
  simp only [fold, Pass.resolver, Pass.stateless, lookUp]
  cases look i <;> rfl

theorem resolve_not (look : ν → Option μ) (f : Formula ν) : (not f).resolve look = (f.resolve look).map not := by
  simp only [resolve, walk_eq_fold, fold]
  cases f.fold (.resolver (lookUp look)) () <;> rfl

theorem resolve_binary (look : ν → Option μ) (c : Connective) (l r : Formula ν) :
    (binary c l r).resolve look = (l.resolve look).bind fun a => (r.resolve look).map (binary c a) := by
  simp only [resolve, walk_eq_fold, fold]
  cases l.fold (.resolver (lookUp look)) () with
  | error e => rfl
  | ok result =>
    cases walked : r.fold (.resolver (lookUp look)) result.2 <;> rw [Except.bind, walked] <;> rfl

theorem resolve_map (g : ν → μ) (look : μ → Option ξ) (f : Formula ν) :
    (f.map g).resolve look = f.resolve fun i => look (g i) := by
  induction f with
  | truth => simp only [map, resolve_truth]
  | var => simp only [map, resolve_var]
  | not f ih => simp only [map, resolve_not, ih]
  | binary c l r hl hr => simp only [map, resolve_binary, hl, hr]

/-- A formula whose every leaf is found resolves, and what is found leads back to it. -/
theorem exists_resolve {look : ν → Option μ} {back : μ → ν} {f : Formula ν}
    (found : ∀ i ∈ f.leaves, ∃ j, look i = some j ∧ back j = i) :
    ∃ k, f.resolve look = some k ∧ k.map back = f := by
  induction f with
  | truth v => exact ⟨truth v, resolve_truth look v, rfl⟩
  | var i =>
    obtain ⟨j, look, rfl⟩ := found i List.mem_cons_self
    exact ⟨var j, by rw [resolve_var, look]; rfl, rfl⟩
  | not f ih =>
    obtain ⟨k, resolved, rfl⟩ := ih found
    exact ⟨not k, by rw [resolve_not, resolved]; rfl, rfl⟩
  | binary c l r hl hr =>
    obtain ⟨a, left, rfl⟩ := hl fun i member => found i (List.mem_append_left _ member)
    obtain ⟨b, right, rfl⟩ := hr fun i member => found i (List.mem_append_right _ member)
    exact ⟨binary c a b, by rw [resolve_binary, left, right]; rfl, rfl⟩

theorem map_of_resolve {look : ν → Option μ} {back : μ → ν} (inverse : ∀ i j, look i = some j → back j = i)
    {f : Formula ν} {k : Formula μ} (resolved : f.resolve look = some k) : k.map back = f := by
  induction f generalizing k with
  | truth v =>
    rw [resolve_truth] at resolved
    obtain rfl := Option.some.inj resolved
    rfl
  | var i =>
    rw [resolve_var] at resolved
    obtain ⟨j, found, rfl⟩ := Option.map_eq_some_iff.mp resolved
    rw [map, inverse i j found]
  | not f ih =>
    rw [resolve_not] at resolved
    obtain ⟨k, found, rfl⟩ := Option.map_eq_some_iff.mp resolved
    rw [map, ih found]
  | binary c l r hl hr =>
    rw [resolve_binary] at resolved
    obtain ⟨a, left, rest⟩ := Option.bind_eq_some_iff.mp resolved
    obtain ⟨b, right, rfl⟩ := Option.map_eq_some_iff.mp rest
    rw [map, hl left, hr right]

end Propositional.Formula
