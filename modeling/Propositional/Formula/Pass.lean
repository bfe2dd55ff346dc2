import Propositional.Formula

/-!
# Passes

What a pass over a formula computes at each node, and its recursive reading. A pass may keep a state
and may fail, but what it has done at a node it can do there again without effect: `fold_lasting`
says the same of whole formulas.
-/

namespace Propositional.Formula

variable {σ ε ν β : Type}

/-- An action that has succeeded succeeds again in every later state, with the same value and
without a change of state. -/
def Lasting (later : σ → σ → Prop) (act : σ → Except ε (β × σ)) : Prop :=
  ∀ s b t, act s = .ok (b, t) → later s t ∧ ∀ u, later t u → act u = .ok (b, u)

/-- What to compute at a node from the values below it, with a state threaded from left to right. A
second visit to a node would change nothing. -/
structure Pass (σ ε ν β : Type) where
  truth : Bool → σ → Except ε (β × σ)
  var : ν → σ → Except ε (β × σ)
  not : β → σ → Except ε (β × σ)
  binary : Connective → β → β → σ → Except ε (β × σ)
  later : σ → σ → Prop
  later_refl : ∀ s, later s s
  later_trans : ∀ {s t u}, later s t → later t u → later s u
  truth_lasting : ∀ v, Lasting later (truth v)
  var_lasting : ∀ i, Lasting later (var i)
  not_lasting : ∀ b, Lasting later (not b)
  binary_lasting : ∀ c a b, Lasting later (binary c a b)

/-- The recursive reading of a pass. -/
def fold (p : Pass σ ε ν β) : Formula ν → σ → Except ε (β × σ)
  | truth v, s => p.truth v s
  | var i, s => p.var i s
  | not f, s => (f.fold p s).bind fun (b, s) => p.not b s
  | binary c l r, s => (l.fold p s).bind fun (a, s) => (r.fold p s).bind fun (b, s) => p.binary c a b s

theorem bind_ok {α γ : Type} {x : Except ε α} {next : α → Except ε γ} {c : γ} (done : x.bind next = .ok c) :
    ∃ a, x = .ok a ∧ next a = .ok c := by
  cases x with
  | error e => cases done
  | ok a => exact ⟨a, rfl, done⟩

theorem Pass.lasting_bind (p : Pass σ ε ν β) {α : Type} {act : σ → Except ε (α × σ)}
    {next : α → σ → Except ε (β × σ)} (first : Lasting p.later act) (rest : ∀ a, Lasting p.later (next a)) :
    Lasting p.later fun s => (act s).bind fun (a, s) => next a s := by
  intro s b t done
  obtain ⟨⟨a, m⟩, acted, done⟩ := bind_ok done
  obtain ⟨before, again⟩ := first s a m acted
  obtain ⟨after, same⟩ := rest a m b t done
  refine ⟨p.later_trans before after, fun u later => ?_⟩
  dsimp only
  rw [again u (p.later_trans after later)]
  exact same u later

theorem fold_lasting (p : Pass σ ε ν β) (f : Formula ν) : Lasting p.later (f.fold p) := by
  induction f with
  | truth v => exact p.truth_lasting v
  | var i => exact p.var_lasting i
  | not f ih => exact p.lasting_bind ih p.not_lasting
  | binary c l r hl hr =>
    exact p.lasting_bind hl fun a => p.lasting_bind hr (p.binary_lasting c a)

end Propositional.Formula
