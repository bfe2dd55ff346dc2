import Mathlib.Data.List.Chain
import Propositional.Proofs.Reuse

/-!
# The shape of the operators

What the operators look like between any two tokens, whatever was parsed before. `passed` lists the stacks
that a parse goes through, and `after_shaped` says that in all of them, and between two parses, a connective rests
on nothing that would have to be applied before it, and no end of input is left.
-/

namespace Propositional.Stacks

/-- The stacks in front of every token that reading gets to, and behind the last token, each with what is
expected there. The stacks behind the end of input of a complete formula are not among them. -/
def passed (expecting : Expecting) : List Token → Stacks → List (Expecting × Stacks)
  | [], s => [(expecting, s)]
  | token :: rest, s =>
    (expecting, s) :: match s.step expecting token with
      | .error _ => []
      | .ok (next, t) => if expecting = .connective ∧ token.kind = .eof then [] else passed next rest t

/-- A connective stands directly on no negation and on no connective that binds tighter. -/
def Rests (above below : Token) : Prop :=
  ∀ c, above.kind = .connective c →
    below.kind ≠ .not ∧ ∀ d, below.kind = .connective d → d.precedence ≤ c.precedence

/-- Operators, the top first, that wait in the order in which they can be applied. Read from below, a stretch
without a parenthesis is a run of connectives, none of them looser than the one before, and then negations. -/
structure Shaped (operators : List Token) : Prop where
  rests : operators.IsChain Rests
  stretches : ∀ stretch, stretch <:+: operators → (∀ token ∈ stretch, token.kind ≠ .lparen) →
    ∃ (joined : List Connective) (negations : Nat),
      stretch.reverse.map (·.kind) = joined.map .connective ++ List.replicate negations .not ∧
      joined.Pairwise (·.precedence ≤ ·.precedence)
  unended : ∀ token ∈ operators, token.kind ≠ .eof

variable {e : Expecting} {d : Int} {s t : Stacks} {operators stretch : List Token}

/-! ### Ordered operators -/

theorem Ordered.kinds (ordered : Ordered operators) : ∀ token ∈ operators,
    token.kind = .lparen ∨ token.kind = .not ∨ ∃ c, token.kind = .connective c := by
  induction ordered with
  | empty => exact fun _ member => absurd member List.not_mem_nil
  | opened _ opens ih => exact List.forall_mem_cons.mpr ⟨Or.inl opens, ih⟩
  | negated _ negates ih => exact List.forall_mem_cons.mpr ⟨Or.inr (Or.inl negates), ih⟩
  | joined _ _ joins ih => exact List.forall_mem_cons.mpr ⟨Or.inr (Or.inr ⟨_, joins⟩), ih⟩

theorem Fits.rests {c : Connective} {token : Token} (fits : Fits c.precedence operators)
    (joins : token.kind = .connective c) : ∀ below ∈ operators.head?, Rests token below := by
  intro below first c' kind
  obtain rfl : c = c' := Token.Kind.connective.inj (joins.symm.trans kind)
  obtain ⟨demand, known, bound⟩ := fits below first
  refine ⟨fits.applied c.precedence_lt_unary below first, fun d below => ?_⟩
  rw [below] at known
  obtain rfl : d.precedence = demand := Option.some.inj known
  exact bound

theorem Ordered.rests (ordered : Ordered operators) : operators.IsChain Rests := by
  induction ordered with
  | empty => exact List.isChain_nil
  | opened _ opens ih =>
    refine List.isChain_cons.mpr ⟨fun _ _ c joins => ?_, ih⟩
    rw [opens] at joins
    cases joins
  | negated _ negates ih =>
    refine List.isChain_cons.mpr ⟨fun _ _ c joins => ?_, ih⟩
    rw [negates] at joins
    cases joins
  | joined _ fits joins ih => exact List.isChain_cons.mpr ⟨fits.rests joins, ih⟩

/-- The kinds in a stretch without a parenthesis, from the top. -/
theorem exists_run (rests : stretch.IsChain Rests)
    (kinds : ∀ token ∈ stretch, token.kind = .not ∨ ∃ c, token.kind = .connective c) :
    ∃ (joined : List Connective) (negations : Nat),
      stretch.map (·.kind) = List.replicate negations .not ++ joined.map .connective ∧
      joined.Pairwise fun above below => below.precedence ≤ above.precedence := by
  induction stretch with
  | nil => exact ⟨[], 0, rfl, List.Pairwise.nil⟩
  | cons token rest ih =>
    obtain ⟨first, rests⟩ := List.isChain_cons.mp rests
    obtain ⟨kind, kinds⟩ := List.forall_mem_cons.mp kinds
    obtain ⟨joined, negations, spelled, sorted⟩ := ih rests kinds
    obtain negates | ⟨c, joins⟩ := kind
    · refine ⟨joined, negations + 1, ?_, sorted⟩
      rw [List.map_cons, spelled, negates]
      rfl
    · cases rest with
      | nil => exact ⟨[c], 0, by rw [List.map_cons, joins]; rfl, List.pairwise_singleton _ _⟩
      | cons below rest =>
        obtain ⟨unnegated, bound⟩ := first below rfl c joins
        rw [List.map_cons] at spelled
        match negations, joined with
        | n + 1, joined => exact absurd (List.cons.inj spelled).1 unnegated
        | 0, [] => cases spelled
        | 0, d :: joined =>
          have top : below.kind = .connective d := (List.cons.inj spelled).1
          refine ⟨c :: d :: joined, 0, ?_, List.pairwise_cons.mpr ⟨?_, sorted⟩⟩
          · rw [List.map_cons, List.map_cons, joins, spelled]
            rfl
          · have under := bound d top
            refine List.forall_mem_cons.mpr ⟨under, fun lower member => ?_⟩
            exact Int.le_trans ((List.pairwise_cons.mp sorted).1 lower member) under

theorem Ordered.shaped (ordered : Ordered operators) : Shaped operators := by
  refine ⟨ordered.rests, fun stretch within unopened => ?_, fun token member ends => ?_⟩
  · have kinds : ∀ token ∈ stretch, token.kind = .not ∨ ∃ c, token.kind = .connective c :=
      fun token member => (ordered.kinds token (within.subset member)).resolve_left (unopened token member)
    obtain ⟨above, below, rfl⟩ := within
    obtain ⟨joined, negations, spelled, sorted⟩ := exists_run ordered.rests.left_of_append.right_of_append kinds
    refine ⟨joined.reverse, negations, ?_, List.pairwise_reverse.mpr sorted⟩
    rw [List.map_reverse, spelled, List.reverse_append, List.reverse_replicate, List.map_reverse]
  · obtain opens | negates | ⟨c, joins⟩ := ordered.kinds token member
    · rw [opens] at ends; cases ends
    · rw [negates] at ends; cases ends
    · rw [joins] at ends; cases ends

/-! ### The stacks of a parse -/

theorem passed_balanced (balanced : Balanced e d s) (nonneg : 0 ≤ d) (tokens : List Token) :
    ∀ place ∈ passed e tokens s, Balanced place.1 d place.2 := by
  induction tokens generalizing e s with
  | nil => exact List.forall_mem_singleton.mpr balanced
  | cons token rest ih =>
    refine List.forall_mem_cons.mpr ⟨balanced, ?_⟩
    obtain ⟨next, t, ok, notEnd, later⟩ | ⟨rfl, ends, t, ok, _⟩ | ⟨stopped, failed, _⟩ :=
      step_balanced balanced nonneg token
    · simp only [ok, notEnd, and_false, if_false]
      exact ih later
    · simp only [ok, ends, and_self, if_true]
      exact fun _ member => absurd member List.not_mem_nil
    · simp only [failed]
      exact fun _ member => absurd member List.not_mem_nil

/-- Reading leaves stacks that it has passed through or, behind an end of input, some with that on top. -/
theorem read_passed (balanced : Balanced e d s) (nonneg : 0 ≤ d) {tokens : List Token}
    (done : read e tokens s = .ok t) : (∃ last, (last, t) ∈ passed e tokens s) ∨
      ∃ stop ∈ tokens, stop.kind = .eof ∧ ∃ below, t = below.pushOperator stop ∧ Balanced .connective d below := by
  induction tokens generalizing e s with
  | nil =>
    obtain rfl : s = t := Except.ok.inj done
    exact Or.inl ⟨e, List.mem_singleton.mpr rfl⟩
  | cons token rest ih =>
    obtain ⟨next, u, ok, notEnd, later⟩ | ⟨rfl, ends, u, ok, complete, _⟩ | ⟨stopped, failed, _⟩ :=
      step_balanced balanced nonneg token
    · rw [read_step ok notEnd] at done
      have more : passed e (token :: rest) s = (e, s) :: passed next rest u := by
        simp only [passed, ok, notEnd, and_false, if_false]
      rw [more]
      obtain ⟨last, member⟩ | ⟨stop, member, ended⟩ := ih later done
      · exact Or.inl ⟨last, List.mem_cons_of_mem _ member⟩
      · exact Or.inr ⟨stop, List.mem_cons_of_mem _ member, ended⟩
    · have left : u.pushOperator token = t := by
        simpa only [read, ok, ends, and_self, if_true, Except.ok.injEq] using done
      exact Or.inr ⟨token, List.mem_cons_self, ends, u, left.symm, complete⟩
    · rw [read_stop failed] at done
      cases done

theorem finishOperand_applies (f : Formula Int) (operands : List (Formula Int)) (operators : List Token) :
    Applied (finishOperand f operands operators).operators := by
  induction operators generalizing f with
  | nil => exact applied_nil
  | cons top rest ih =>
    rw [finishOperand]
    split
    · exact ih _
    · rename_i other
      exact applied_cons.mpr other

/-- In every history of parses the operators keep their shape, between two parses and wherever a parse gets to. -/
theorem after_shaped (history : List (List Token)) :
    Shaped (after history).operators ∧
    (∀ tokens, ∀ place ∈ passed .operand tokens (after history),
      Shaped place.2.operators ∧ (place.1 = .connective → Applied place.2.operators)) ∧
    (∀ tokens t, read .operand tokens (after history) = .ok t →
      (∃ last, (last, t) ∈ passed .operand tokens (after history)) ∨
      ∃ stop ∈ tokens, stop.kind = .eof ∧
        ∃ below, t.operators = stop :: below ∧ Shaped below ∧ Applied below) ∧
    ∀ f operands operators, Applied (finishOperand f operands operators).operators := by
  obtain ⟨nonneg, balanced⟩ := after_balanced history
  refine ⟨balanced.ordered.shaped, fun tokens place member => ?_, fun tokens t done => ?_, finishOperand_applies⟩
  · have reached := passed_balanced balanced nonneg tokens place member
    exact ⟨reached.ordered.shaped, reached.applied⟩
  · obtain within | ⟨stop, member, ends, below, rfl, complete⟩ := read_passed balanced nonneg done
    · exact Or.inl within
    · exact Or.inr ⟨stop, member, ends, below.operators, rfl, complete.ordered.shaped, complete.applied rfl⟩

end Propositional.Stacks
