import Propositional.Proofs.Parsing
import Propositional.Proofs.Stacks.Surplus

/-!
# Parsing again

A parse that fails leaves its operands and operators to the parses after it. `after_surplus` says that
exactly the operands that no connective takes spoil the stacks for good, `after_breaches` that a history of
parses makes the parser's own checks fail in a few ways only.
-/

namespace Propositional.Stacks

/-- The stacks after a history of parses, the first of them from empty stacks. -/
def after (history : List (List Token)) : Stacks :=
  history.foldl (fun s tokens => (s.parse tokens).2) {}

variable {d : Int} {s : Stacks}

/-! ### One parse -/

/-- A parse takes its operand back only if it finds the stacks without a surplus and succeeds; an operand
that is complete when it fails is left over. -/
theorem parse_balanced (balanced : Balanced .operand d s) (nonneg : 0 ≤ d) (tokens : List Token) :
    (d = 0 ∧ ∃ f, s.parse tokens = (.ok f, {})) ∨
    ∃ failure t d', s.parse tokens = (.error failure, t) ∧ Balanced .operand d' t ∧
      d + (lastExpecting .operand tokens s).completed ≤ d' ∧ Arises d (lastExpecting .operand tokens s) failure ∧
      ∀ fault start stop, failure = .fault fault start stop →
        d' = d + (lastExpecting .operand tokens s).completed := by
  obtain ⟨t, ok, left⟩ | ⟨last, stop, t, ends, ok, left, fits⟩ | ⟨stopped, failed, left, arises⟩ :=
    read_balanced balanced nonneg tokens
  · obtain ⟨failure, left, d', failed, balanced, more, why⟩ := finish_without_end left
    have run : (s.read .operand tokens).bind finish = .error ⟨failure, left⟩ := by rw [ok]; exact failed
    refine Or.inr ⟨failure, left, d', parse_error run, balanced, more, ?_, ?_⟩
    · rcases why with rfl | rfl <;> trivial
    · rintro fault start stop rfl
      rcases why with why | why <;> cases why
  · rw [last]
    obtain ⟨rfl, f, done⟩ | ⟨_, failure, left, failed, balanced, arises⟩ := finish_at_end left nonneg fits ends
    · have run : (s.read .operand tokens).bind finish = .ok (f, {}) := by rw [ok]; exact done
      exact Or.inl ⟨rfl, f, parse_ok run⟩
    · have run : (s.read .operand tokens).bind finish = .error ⟨failure, left⟩ := by rw [ok]; exact failed
      exact Or.inr ⟨failure, left, _, parse_error run, balanced, Int.le_refl _, arises, fun _ _ _ _ => rfl⟩
  · have run : (s.read .operand tokens).bind finish = .error stopped := by rw [failed]; rfl
    exact Or.inr ⟨_, _, _, parse_error run, left.restart, Int.le_refl _, arises, fun _ _ _ _ => rfl⟩

/-! ### Stacks without a surplus -/

theorem read_closings (balanced : Balanced .connective d s) (nonneg : 0 ≤ d) {closing : Token}
    (closes : closing.kind = .rparen) : ∃ t, Balanced .connective d t ∧ openGroups t.operators = 0 ∧ ∀ rest,
      read .connective (List.replicate (openGroups s.operators) closing ++ rest) s = read .connective rest t := by
  induction groups : openGroups s.operators generalizing s with
  | zero => exact ⟨s, balanced, groups, fun _ => rfl⟩
  | succ n ih =>
    obtain ⟨t, closed, next, fewer⟩ | ⟨none, _⟩ := closeGroup_balanced balanced nonneg closing
    · obtain ⟨u, left, shut, reads⟩ := ih next (by omega)
      have step : s.step .connective closing = .ok (.connective, t) := by
        simp only [step, readConnective, closes, closed, Except.map]
      refine ⟨u, left, shut, fun rest => ?_⟩
      rw [List.replicate_succ, List.cons_append, read_step step (by simp [closes]), reads]
    · omega

/-- A constant, a close parenthesis for each group that is open, and the end of input. -/
theorem exists_accepted (balanced : Balanced .operand 0 s) : ∃ tokens f, (s.parse tokens).1 = .ok f := by
  let constant : Token := ⟨.truth true, 0, 0, "T", none⟩
  let closing : Token := ⟨.rparen, 0, 0, ")", none⟩
  let stop : Token := ⟨.eof, 0, 0, "", none⟩
  let tokens := constant :: (List.replicate (openGroups s.operators) closing ++ [stop])
  have count : s.surplus = 0 := by rw [balanced.count]; rfl
  obtain ⟨next, groups⟩ := finishOperand_balanced (f := .truth true) balanced.ordered count
  have first : s.step .operand constant =
      .ok (.connective, finishOperand (.truth true) s.operands s.operators) := rfl
  obtain ⟨t, left, shut, reads⟩ := read_closings next (Int.le_refl 0) (rfl : closing.kind = .rparen)
  obtain ⟨u, reduced, last, fits, same⟩ := reduceAbove_balanced left (Int.le_refl 0) (-1) (Int.le_refl _)
  have ended : read .connective [stop] t = .ok (u.pushOperator stop) := by
    simp only [read, step, readConnective, stop, reduced, Except.map, and_self, if_true]
  obtain ⟨_, f, done⟩ | ⟨surplus | opened, _⟩ := finish_at_end last (Int.le_refl 0) fits (rfl : stop.kind = .eof)
  · have run : (s.read .operand tokens).bind finish = .ok (f, {}) := by
      rw [read_step first (by simp [constant]), ← groups, reads, ended]
      exact done
    exact ⟨tokens, f, by rw [parse_ok run]⟩
  · omega
  · exact absurd (same.trans shut) opened

/-! ### Histories -/

theorem after_append (history later : List (List Token)) :
    after (history ++ later) = later.foldl (fun s tokens => (s.parse tokens).2) (after history) :=
  List.foldl_append

theorem after_concat (history : List (List Token)) (tokens : List Token) :
    after (history ++ [tokens]) = ((after history).parse tokens).2 :=
  after_append history [tokens]

/-- Parsing again and again never lowers the surplus. -/
theorem foldl_balanced (balanced : Balanced .operand d s) (nonneg : 0 ≤ d) (history : List (List Token)) :
    ∃ d', d ≤ d' ∧ Balanced .operand d' (history.foldl (fun s tokens => (s.parse tokens).2) s) := by
  induction history generalizing d s with
  | nil => exact ⟨d, Int.le_refl d, balanced⟩
  | cons tokens history ih =>
    rw [List.foldl_cons]
    obtain ⟨rfl, f, parsed⟩ | ⟨failure, t, more, parsed, left, grows, _⟩ := parse_balanced balanced nonneg tokens
    · rw [parsed]
      exact ih balanced_empty (Int.le_refl 0)
    · have complete := (lastExpecting .operand tokens s).completed_nonneg
      obtain ⟨d', larger, last⟩ := ih left (by omega)
      rw [parsed]
      exact ⟨d', by omega, last⟩

theorem after_balanced (history : List (List Token)) :
    0 ≤ (after history).surplus ∧ Balanced .operand (after history).surplus (after history) := by
  obtain ⟨d, nonneg, balanced⟩ := foldl_balanced balanced_empty (Int.le_refl 0) history
  have count : (after history).surplus = d := by
    rw [after, balanced.count, Expecting.completed, Int.add_zero]
  rw [count]
  exact ⟨nonneg, balanced⟩

/-- The outcome of one more parse, with the surplus before and after it. -/
theorem after_outcome (history : List (List Token)) (tokens : List Token) :
    ((after history).surplus = 0 ∧ ∃ f, (after history).parse tokens = (.ok f, {})) ∨
    ∃ failure, ((after history).parse tokens).1 = .error failure ∧
      (after history).surplus + (lastExpecting .operand tokens (after history)).completed ≤
        (after (history ++ [tokens])).surplus ∧
      Arises (after history).surplus (lastExpecting .operand tokens (after history)) failure ∧
      ∀ fault start stop, failure = .fault fault start stop → (after (history ++ [tokens])).surplus =
        (after history).surplus + (lastExpecting .operand tokens (after history)).completed := by
  obtain ⟨nonneg, balanced⟩ := after_balanced history
  obtain done | ⟨failure, t, d', parsed, left, grows, arises, exactly⟩ := parse_balanced balanced nonneg tokens
  · exact Or.inl done
  · have count : (after (history ++ [tokens])).surplus = d' := by
      rw [after_concat, parsed, left.count, Expecting.completed, Int.add_zero]
    rw [count]
    exact Or.inr ⟨failure, by rw [parsed], grows, arises, exactly⟩

theorem surplus_eq_zero_iff (history : List (List Token)) :
    (after history).surplus = 0 ↔ ∃ tokens f, ((after history).parse tokens).1 = .ok f := by
  constructor
  · intro zero
    obtain ⟨_, balanced⟩ := after_balanced history
    rw [zero] at balanced
    exact exists_accepted balanced
  · rintro ⟨tokens, f, parsed⟩
    obtain ⟨zero, _⟩ | ⟨failure, failed, _⟩ := after_outcome history tokens
    · exact zero
    · rw [failed] at parsed
      cases parsed

theorem after_append_surplus (history later : List (List Token)) :
    (after history).surplus ≤ (after (history ++ later)).surplus := by
  obtain ⟨nonneg, balanced⟩ := after_balanced history
  obtain ⟨d, grows, last⟩ := foldl_balanced balanced nonneg later
  rw [after_append, last.count, Expecting.completed, Int.add_zero]
  exact grows

/-- The surplus of operands never falls, a failure behind a complete operand raises it, and with a surplus no
parse succeeds. -/
theorem after_surplus (history : List (List Token)) :
    0 ≤ (after history).surplus ∧
    ((after history).surplus = 0 ↔ ∃ tokens f, ((after history).parse tokens).1 = .ok f) ∧
    ∀ tokens,
      (∀ f, ((after history).parse tokens).1 = .ok f →
        (after history).surplus = 0 ∧ after (history ++ [tokens]) = {}) ∧
      ∀ failure, ((after history).parse tokens).1 = .error failure →
        (after history).surplus ≤ (after (history ++ [tokens])).surplus ∧
        (∀ fault start stop, failure = .fault fault start stop →
          (∀ expected ∈ fault.expecting?, lastExpecting .operand tokens (after history) = expected) ∧
          (lastExpecting .operand tokens (after history) = .connective →
            (after (history ++ [tokens])).surplus = (after history).surplus + 1) ∧
          (lastExpecting .operand tokens (after history) = .operand →
            (after (history ++ [tokens])).surplus = (after history).surplus)) ∧
        (lastExpecting .operand tokens (after history) = .connective →
          ∀ later next, ∃ failure', ((after (history ++ tokens :: later)).parse next).1 = .error failure') := by
  refine ⟨(after_balanced history).1, surplus_eq_zero_iff history, fun tokens => ?_⟩
  obtain ⟨zero, f, parsed⟩ | ⟨failure, failed, grows, arises, exactly⟩ := after_outcome history tokens
  · refine ⟨fun _ _ => ⟨zero, by rw [after_concat, parsed]⟩, fun failure failed => ?_⟩
    rw [parsed] at failed
    cases failed
  · refine ⟨fun f parsed => ?_, fun other same => ?_⟩
    · rw [failed] at parsed
      cases parsed
    obtain rfl : failure = other := Except.error.inj (failed.symm.trans same)
    have complete := (lastExpecting .operand tokens (after history)).completed_nonneg
    refine ⟨by omega, ?_, fun last later next => ?_⟩
    · rintro fault start stop rfl
      have count := exactly fault start stop rfl
      refine ⟨arises, fun last => ?_, fun last => ?_⟩
      · rw [count, last]
        rfl
      · rw [count, last, Expecting.completed, Int.add_zero]
    · -- The operand left over here is still there at every later parse.
      rw [last, Expecting.completed] at grows
      have kept := after_append_surplus (history ++ [tokens]) later
      have nonneg := (after_balanced history).1
      rw [List.append_assoc, List.singleton_append] at kept
      obtain ⟨zero, _⟩ | ⟨failure', failed', _⟩ := after_outcome (history ++ tokens :: later) next
      · omega
      · exact ⟨failure', failed'⟩

/-! ### Failed checks -/

theorem arises_of_failure (history : List (List Token)) {tokens : List Token} {failure : Failure}
    (failed : ((after history).parse tokens).1 = .error failure) :
    Arises (after history).surplus (lastExpecting .operand tokens (after history)) failure := by
  obtain ⟨_, f, parsed⟩ | ⟨other, same, _, arises, _⟩ := after_outcome history tokens
  · rw [parsed] at failed
    cases failed
  · obtain rfl : failure = other := Except.error.inj (failed.symm.trans same)
    exact arises

theorem Arises.breach {e : Expecting} {breach : Breach} (arises : Arises d e (.breach breach)) :
    breach ∈ [Breach.noIndex, .noEnd, .topNotEnd] ∨ (breach = .noSingleRoot ∧ 0 < d) := by
  cases breach with
  | noIndex | noEnd | topNotEnd => exact Or.inl (by decide)
  | noSingleRoot => exact Or.inr ⟨rfl, arises⟩
  | noTop | noOperands | negationInGroup | emptyGroup | unreduced => exact False.elim arises

theorem exists_first_breach : ∀ breach ∈ [Breach.noIndex, .noEnd, .topNotEnd],
    ∃ tokens, (Stacks.parse {} tokens).1 = .error (.breach breach) := by
  have unnumbered : (Stacks.parse {} [⟨.var, 0, 1, "p", none⟩]).1 = .error (.breach .noIndex) := rfl
  have nothing : (Stacks.parse {} []).1 = .error (.breach .noEnd) := rfl
  have unended : (Stacks.parse {} [⟨.lparen, 0, 1, "(", none⟩]).1 = .error (.breach .topNotEnd) := rfl
  exact List.forall_mem_cons.mpr ⟨⟨_, unnumbered⟩, List.forall_mem_cons.mpr ⟨⟨_, nothing⟩,
    List.forall_mem_cons.mpr ⟨⟨_, unended⟩, by simp⟩⟩⟩

/-- The first parse stops behind a complete operand, the second one adds another. -/
theorem exists_later_breach :
    ∃ history tokens, ((after history).parse tokens).1 = .error (.breach .noSingleRoot) := by
  let constant : Token := ⟨.truth true, 0, 1, "T", none⟩
  let stop : Token := ⟨.eof, 1, 1, "", none⟩
  have left : after [[constant, constant]] = ⟨[], [.truth true]⟩ := rfl
  have reduced : reduceAbove (-1) ⟨[], [.truth true, .truth true]⟩ = .ok ⟨[], [.truth true, .truth true]⟩ :=
    reduceAbove_fits (fits_nil _) (by decide)
  have ended : read .connective [stop] ⟨[], [.truth true, .truth true]⟩ =
      .ok ⟨[stop], [.truth true, .truth true]⟩ := by
    simp only [read, step, readConnective, stop, reduced, Except.map, and_self, if_true]
    rfl
  have run : (read .operand [constant, stop] ⟨[], [.truth true]⟩).bind finish =
      .error ⟨.breach .noSingleRoot, ⟨[], [.truth true, .truth true]⟩⟩ := by
    rw [read_step rfl (by simp [constant]), finishOperand, ended]
    rfl
  exact ⟨[[constant, constant]], [constant, stop], by rw [left, parse_error run]⟩

/-- In no history does a parse look up what a token does not have, and of the checks only four can ever fail. -/
theorem after_breaches :
    (∀ history tokens kind, ((after history).parse tokens).1 ≠ .error (.noPrecedence kind) ∧
      ((after history).parse tokens).1 ≠ .error (.noConnective kind)) ∧
    (∀ breach, (∃ history tokens, ((after history).parse tokens).1 = .error (.breach breach)) ↔
      breach ∈ [Breach.noIndex, .noEnd, .topNotEnd, .noSingleRoot]) ∧
    ∀ breach, (∃ tokens, (Stacks.parse {} tokens).1 = .error (.breach breach)) ↔
      breach ∈ [Breach.noIndex, .noEnd, .topNotEnd] := by
  refine ⟨fun history tokens kind => ⟨?_, ?_⟩, fun breach => ⟨?_, fun member => ?_⟩,
    fun breach => ⟨?_, exists_first_breach breach⟩⟩
  · intro failed
    exact arises_of_failure history failed
  · intro failed
    exact arises_of_failure history failed
  · rintro ⟨history, tokens, failed⟩
    obtain early | ⟨rfl, _⟩ := (arises_of_failure history failed).breach
    · exact List.mem_append_left [Breach.noSingleRoot] early
    · simp
  · have either : breach ∈ [Breach.noIndex, .noEnd, .topNotEnd] ++ [Breach.noSingleRoot] := member
    rcases List.mem_append.mp either with early | late
    · exact ⟨[], exists_first_breach breach early⟩
    · obtain rfl := List.mem_singleton.mp late
      exact exists_later_breach
  · rintro ⟨tokens, failed⟩
    obtain early | ⟨_, surplus⟩ := (arises_of_failure [] failed).breach
    · exact early
    · exact absurd surplus (by decide)

end Propositional.Stacks
