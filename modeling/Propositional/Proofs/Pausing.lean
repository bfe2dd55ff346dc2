import Propositional.Proofs.Reuse

/-!
# Pauses

A parse that fails where an operand is expected leaves the stacks as the tokens in front of the failure have
made them, so the next parse goes on from there. `after_pause` says that the two parses then act as one, and
that after a failure behind a complete operand they never do.
-/

namespace Propositional.Stacks

/-- The place of the token at which reading ends, or behind the last token. -/
def lastPlace (expecting : Expecting) : List Token → Stacks → Nat
  | [], _ => 0
  | token :: rest, s =>
    match s.step expecting token with
    | .error _ => 0
    | .ok (next, t) => if expecting = .connective ∧ token.kind = .eof then 0 else lastPlace next rest t + 1

variable {e : Expecting} {d : Int} {s : Stacks} {tokens : List Token} {token ending : Token}

/-! ### Where reading ends -/

theorem lastPlace_step {next : Expecting} {t : Stacks} (ok : s.step e token = .ok (next, t))
    (onward : ¬ (e = .connective ∧ token.kind = .eof)) : lastPlace e (token :: tokens) s = lastPlace next tokens t + 1 := by
  simp only [lastPlace, ok, if_neg onward]

theorem lastExpecting_step {next : Expecting} {t : Stacks} (ok : s.step e token = .ok (next, t))
    (onward : ¬ (e = .connective ∧ token.kind = .eof)) :
    lastExpecting e (token :: tokens) s = lastExpecting next tokens t := by
  simp only [lastExpecting, ok, if_neg onward]

/-- The tokens in front of the last place lead to stacks from which any others are read, and the token there,
if there is one, cannot be read or ends the formula. -/
theorem read_lastPlace (balanced : Balanced e d s) (nonneg : 0 ≤ d) (tokens : List Token) : ∃ t,
    Balanced (lastExpecting e tokens s) d t ∧
    (∀ more, read e (tokens.take (lastPlace e tokens s) ++ more) s = read (lastExpecting e tokens s) more t) ∧
    (tokens.drop (lastPlace e tokens s) = [] ∨ ∃ token after, tokens.drop (lastPlace e tokens s) = token :: after ∧
      ((∃ stopped, t.step (lastExpecting e tokens s) token = .error stopped) ∨
        (lastExpecting e tokens s = .connective ∧ token.kind = .eof))) := by
  induction tokens generalizing e s with
  | nil => exact ⟨s, balanced, fun _ => rfl, Or.inl rfl⟩
  | cons token rest ih =>
    obtain ⟨next, t, ok, notEnd, later⟩ | ⟨rfl, ends, t, ok, _⟩ | ⟨stopped, failed, _⟩ :=
      step_balanced balanced nonneg token
    · have onward : ¬ (e = .connective ∧ token.kind = .eof) := fun ends => notEnd ends.2
      obtain ⟨u, left, reads, stop⟩ := ih later
      rw [lastPlace_step ok onward, lastExpecting_step ok onward]
      refine ⟨u, left, fun more => ?_, stop⟩
      rw [List.take_succ_cons, List.cons_append, read_step ok notEnd]
      exact reads more
    · have place : lastPlace .connective (token :: rest) s = 0 := by
        simp only [lastPlace, ok, ends, and_self, if_true]
      have last : lastExpecting .connective (token :: rest) s = .connective := by
        simp only [lastExpecting, ok, ends, and_self, if_true]
      rw [place, last]
      exact ⟨s, balanced, fun _ => rfl, Or.inr ⟨token, rest, rfl, Or.inr ⟨rfl, ends⟩⟩⟩
    · have place : lastPlace e (token :: rest) s = 0 := by simp only [lastPlace, failed]
      have last : lastExpecting e (token :: rest) s = e := by simp only [lastExpecting, failed]
      rw [place, last]
      exact ⟨s, balanced, fun _ => rfl, Or.inr ⟨token, rest, rfl, Or.inl ⟨stopped, failed⟩⟩⟩

/-- A token that is refused where an operand is expected leaves the stacks untouched. -/
theorem left_of_readOperand {stopped : Stopped} (failed : s.readOperand token = .error stopped) :
    stopped.left = s := by
  unfold readOperand at failed
  split at failed
  · cases failed
  · split at failed
    · cases failed
    · cases failed; rfl
  · cases failed
  · cases failed
  · cases failed; rfl
  · cases failed; rfl
  · cases failed; rfl

/-! ### The next parse -/

theorem parse_congr {t : Stacks} {xs ys : List Token} (same : read .operand xs s = read .operand ys t) :
    s.parse xs = t.parse ys := by
  simp only [parse, same]

/-- Only the parser's own checks fail when reading comes to no end of input. -/
theorem not_fault_of_drop_eq_nil (balanced : Balanced .operand d s) (nonneg : 0 ≤ d)
    (ended : tokens.drop (lastPlace .operand tokens s) = []) (fault : Fault) (start stop : Int) :
    (s.parse tokens).1 ≠ .error (.fault fault start stop) := by
  obtain ⟨t, left, reads, _⟩ := read_lastPlace balanced nonneg tokens
  have whole : read .operand tokens s = .ok t := by
    have all := reads (tokens.drop (lastPlace .operand tokens s))
    rw [List.take_append_drop, ended] at all
    exact all
  obtain ⟨failure, last, _, failed, _, _, why⟩ := finish_without_end left
  have run : (s.read .operand tokens).bind finish = .error ⟨failure, last⟩ := by rw [whole]; exact failed
  rw [parse_error run]
  rcases why with rfl | rfl <;> simp

theorem parse_paused (balanced : Balanced .operand d s) (nonneg : 0 ≤ d)
    (paused : lastExpecting .operand tokens s = .operand)
    (found : tokens.drop (lastPlace .operand tokens s) ≠ []) (more : List Token) :
    (s.parse tokens).2.parse more = s.parse (tokens.take (lastPlace .operand tokens s) ++ more) := by
  obtain ⟨t, _, reads, none | ⟨token, after, split, ⟨stopped, failed⟩ | ⟨complete, _⟩⟩⟩ :=
    read_lastPlace balanced nonneg tokens
  · exact absurd none found
  · rw [paused] at reads failed
    have whole : read .operand tokens s = .error stopped := by
      have all := reads (tokens.drop (lastPlace .operand tokens s))
      rw [List.take_append_drop, split, read_stop failed] at all
      exact all
    have run : (s.read .operand tokens).bind finish = .error stopped := by rw [whole]; rfl
    rw [parse_error run, left_of_readOperand failed]
    exact parse_congr (reads more).symm
  · rw [paused] at complete
    cases complete

/-! ### Telling two parses apart -/

theorem parse_ending (s : Stacks) (ends : ending.kind = .eof) : (s.parse [ending]).1 = .error s.endFault := by
  have run : (s.read .operand [ending]).bind finish = .error ⟨s.endFault, s⟩ := by
    simp only [read, step, readOperand, ends, Except.bind]
  rw [parse_error run]

theorem endFault_not_arises (s : Stacks) : ¬ Arises d .connective s.endFault := by
  intro arises
  cases operators : s.operators with
  | nil =>
    rw [endFault_empty operators] at arises
    exact absurd (arises .operand rfl) (by decide)
  | cons top rest =>
    rw [endFault_cons operators] at arises
    split at arises
    · exact absurd (arises .operand rfl) (by decide)
    · exact absurd (arises .operand rfl) (by decide)

/-- An end of input behind a complete operand is never a mistake where an operand is expected. -/
theorem parse_ending_complete (balanced : Balanced .operand d s) (nonneg : 0 ≤ d)
    (complete : lastExpecting .operand tokens s = .connective) (ends : ending.kind = .eof) (other : Stacks) :
    (s.parse (tokens.take (lastPlace .operand tokens s) ++ [ending])).1 ≠ .error other.endFault := by
  obtain ⟨t, left, reads, _⟩ := read_lastPlace balanced nonneg tokens
  rw [complete] at left reads
  obtain ⟨u, reduced, last, fits, _⟩ := reduceAbove_balanced left nonneg (-1) (Int.le_refl _)
  have read : read .operand (tokens.take (lastPlace .operand tokens s) ++ [ending]) s =
      .ok (u.pushOperator ending) := by
    rw [reads]
    simp only [Stacks.read, step, readConnective, ends, reduced, Except.map, and_self, if_true]
  obtain ⟨_, f, done⟩ | ⟨_, failure, rest, failed, _, arises⟩ := finish_at_end last nonneg fits ends
  · rw [parse_ok (by rw [read]; exact done)]
    intro same
    cases same
  · rw [parse_error (by rw [read]; exact failed)]
    intro same
    obtain rfl : failure = other.endFault := Except.error.inj same
    exact endFault_not_arises other arises

/-- A mistake where an operand is expected is a pause: a later parse goes on from the tokens in front of it. One
behind a complete operand is none. -/
theorem after_pause (history : List (List Token)) (tokens : List Token) (fault : Fault) (start stop : Int)
    (failed : ((after history).parse tokens).1 = .error (.fault fault start stop)) :
    lastPlace .operand tokens (after history) < tokens.length ∧
    (lastExpecting .operand tokens (after history) = .operand → ∀ more,
      (after (history ++ [tokens])).parse more =
        (after history).parse (tokens.take (lastPlace .operand tokens (after history)) ++ more)) ∧
    (lastExpecting .operand tokens (after history) = .connective → ∀ ending : Token, ending.kind = .eof →
      ((after (history ++ [tokens])).parse [ending]).1 ≠
        ((after history).parse (tokens.take (lastPlace .operand tokens (after history)) ++ [ending])).1) := by
  obtain ⟨nonneg, balanced⟩ := after_balanced history
  have found : tokens.drop (lastPlace .operand tokens (after history)) ≠ [] :=
    fun ended => not_fault_of_drop_eq_nil balanced nonneg ended fault start stop failed
  refine ⟨?_, fun paused more => ?_, fun complete ending ends => ?_⟩
  · apply Nat.lt_of_not_le
    intro beyond
    exact found (List.drop_eq_nil_of_le beyond)
  · rw [after_concat]
    exact parse_paused balanced nonneg paused found more
  · rw [parse_ending _ ends]
    exact (parse_ending_complete balanced nonneg complete ends _).symm

/-- The tokens of "(". -/
def openGroup : List Token := [⟨.lparen, 0, 1, "(", none⟩, ⟨.eof, 1, 1, "", none⟩]

/-- The tokens of "p ->". -/
def openArrow : List Token := [
  ⟨.var, 0, 1, "p", some 0⟩, ⟨.connective .implies, 2, 4, "->", none⟩, ⟨.eof, 4, 4, "", none⟩]

/-- The tokens of "q)". -/
def groupRest : List Token := [
  ⟨.var, 0, 1, "q", some 1⟩, ⟨.rparen, 1, 2, ")", none⟩, ⟨.eof, 2, 2, "", none⟩]

theorem after_pause_openArrow :
    ((after [openGroup]).parse openArrow).1 = .error (.fault .missingOperand 2 4) ∧
    lastExpecting .operand openArrow (after [openGroup]) = .operand ∧
    ((after [openGroup, openArrow]).parse groupRest).1 = .ok (.binary .implies (.var 0) (.var 1)) := by
  have failed : ((after [openGroup]).parse openArrow).1 = .error (.fault .missingOperand 2 4) := by decide +kernel
  have paused : lastExpecting .operand openArrow (after [openGroup]) = .operand := by decide +kernel
  have place : lastPlace .operand openArrow (after [openGroup]) = 2 := by decide +kernel
  have whole : ((after [openGroup]).parse (openArrow.take 2 ++ groupRest)).1 =
      .ok (.binary .implies (.var 0) (.var 1)) := by decide +kernel
  have resumed := (after_pause [openGroup] openArrow .missingOperand 2 4 failed).2.1 paused groupRest
  rw [place] at resumed
  exact ⟨failed, paused, (congrArg Prod.fst resumed).trans whole⟩

end Propositional.Stacks
