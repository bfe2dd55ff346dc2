import Mathlib.Data.List.Basic
import Propositional.Compiled
import Propositional.Proofs.Parsing

/-!
# Where and why parsing fails

A list of tokens is viable when it can be continued to a derived one. `rejects_iff` says that parsing
blames the first token that ends a prefix which is not viable, and otherwise what the end of input cuts
off.
-/

namespace Propositional

/-- Some continuation of the tokens is a formula. -/
def Viable (tokens : List Token) : Prop :=
  ∃ rest f, Derives Token.index .start (tokens ++ rest) f

/-- The token at `k` ends the first prefix that is not viable. -/
def FirstDead (tokens : List Token) (k : Nat) : Prop :=
  ¬ Viable (tokens.take (k + 1)) ∧ ∀ j < k, Viable (tokens.take (j + 1))

def Token.Kind.awaits : Kind → Bool
  | lparen | not | connective _ => true
  | _ => false

def awaitsOperand (tokens : List Token) : Bool :=
  match tokens.getLast? with
  | none => true
  | some last => last.kind.awaits

/-- What is said of a token that no formula has after the tokens before it. -/
def deadRejection (before : List Token) (token : Token) : Rejection where
  description :=
    if token.kind = .rparen ∧ unclosed before = [] then
      "This close parenthesis doesn't match any open parenthesis."
    else if awaitsOperand before then
      "We were expecting a variable, constant, or open parenthesis here."
    else "We were expecting a close parenthesis or a binary connective here."
  start := token.start
  stop := token.stop

/-- What is said of tokens that end too early. -/
def endRejection? (tokens : List Token) : Option Rejection :=
  match tokens.getLast? with
  | none => some ⟨"The formula is empty.", 0, 0⟩
  | some last =>
    if last.kind = .lparen then
      some ⟨"This open parenthesis has no matching close parenthesis.", last.start, last.stop⟩
    else if last.kind.awaits then some ⟨"This operator is missing an operand.", last.start, last.stop⟩
    else (unclosed tokens).head?.map fun innermost =>
      ⟨"No matching close parenthesis for this open parenthesis.", innermost.start, innermost.stop⟩

/-- Parsing from empty stacks fails with a mistake that is shown to the author. -/
def Rejects (tokens : List Token) (rejection : Rejection) : Prop :=
  ∃ failure, (Stacks.parse {} tokens).1 = .error failure ∧
    (CompileError.parse failure).rejection? = some rejection

theorem Rejects.unique {tokens : List Token} {p q : Rejection} (left : Rejects tokens p)
    (right : Rejects tokens q) : p = q := by
  obtain ⟨failure, failed, shown⟩ := left
  obtain ⟨other, same, shown'⟩ := right
  obtain rfl : failure = other := Except.error.inj (failed.symm.trans same)
  exact Option.some.inj (shown.symm.trans shown')

theorem rejects_on {tokens : List Token} {fault : Fault} {token : Token}
    (failed : (Stacks.parse {} tokens).1 = .error (fault.on token)) :
    Rejects tokens ⟨fault.message, token.start, token.stop⟩ :=
  ⟨fault.on token, failed, rfl⟩

/-! ### Viable prefixes -/

theorem Viable.of_append {before after : List Token} (h : Viable (before ++ after)) : Viable before := by
  obtain ⟨rest, f, derives⟩ := h
  exact ⟨after ++ rest, f, by rw [← List.append_assoc]; exact derives⟩

theorem Viable.take {tokens : List Token} (h : Viable tokens) (k : Nat) : Viable (tokens.take k) := by
  rw [← List.take_append_drop k tokens] at h
  exact h.of_append

/-- Close parentheses complete a broken-off derivation with an operand on top. -/
theorem Stacks.Pending.completed {tokens operators after : List Token} {operands : List (Formula Int)}
    {n : Nonterminal} {f : Formula Int} (pending : Pending tokens operators operands)
    (operand : Derives Token.index n after f) (fits : Fits n.rank operators) : Viable (tokens ++ after) := by
  induction pending generalizing n after f with
  | empty => exact ⟨[], f, by simpa using operand.loosen (Nonterminal.rank_start_le n)⟩
  | @opened token tokens _ _ before opens ih =>
    let closing : Token := ⟨.rparen, 0, 0, ")", none⟩
    have group : Derives Token.index .atom (token :: after ++ [closing]) f :=
      .group opens (operand.loosen (Nonterminal.rank_start_le n)) rfl
    have whole : Viable ((tokens ++ [token] ++ after) ++ [closing]) := by
      simpa using ih (.atom group) before.fits
    exact whole.of_append
  | @negated token tokens _ _ before negates ih =>
    obtain ⟨d, demand, bound⟩ := fits_cons.mp fits
    rw [negates] at demand
    obtain rfl : Nonterminal.unary.rank = d := Option.some.inj demand
    simpa using ih (.not negates (operand.loosen bound)) before.fits
  | @joined token c _ _ _ _ _ before chainFits left joins ih =>
    obtain ⟨d, demand, bound⟩ := fits_cons.mp fits
    rw [joins] at demand
    obtain rfl : c.precedence = d := Option.some.inj demand
    simpa using ih (.chain left joins (operand.loosen bound)) chainFits

theorem Stacks.Reads.viable {e : Expecting} {tokens : List Token} {s : Stacks} (reads : Reads e tokens s) :
    Viable tokens := by
  cases reads with
  | operand pending =>
    have constant : Derives Token.index .unary [⟨.truth true, 0, 0, "T", none⟩] (.truth true) :=
      .atom (.truth rfl)
    exact (pending.completed constant pending.fits).of_append
  | connective finished =>
    cases finished with
    | intro pending operand fits _ => exact pending.completed operand fits

theorem Viable.reads {tokens : List Token} (viable : Viable tokens) :
    ∃ e t, Stacks.Reads e tokens t ∧ ∀ rest, Stacks.read .operand (tokens ++ rest) {} = Stacks.read e rest t := by
  obtain ⟨rest, f, derives⟩ := viable
  have noEnd : ∀ token ∈ tokens, token.kind ≠ .eof :=
    fun token member => derives.kind_ne_eof token (List.mem_append_left rest member)
  obtain ok | ⟨e, t, before, token, after, stopped, rfl, _, run, _⟩ :=
    Stacks.read_reads Stacks.reads_empty tokens noEnd
  · exact ok
  · let stop : Token := ⟨.eof, 0, 0, "", none⟩
    have parsed := parse_of_derives derives (rfl : stop.kind = .eof) []
    have failed : (Stacks.read .operand (before ++ token :: (after ++ rest ++ [stop])) {}).bind Stacks.finish =
        .error stopped := by rw [run]; rfl
    have same : before ++ token :: after ++ rest ++ [stop] = before ++ token :: (after ++ rest ++ [stop]) := by simp
    rw [same, Stacks.parse_error failed] at parsed
    cases (Prod.mk.inj parsed).1

/-! ### Where an operand is expected -/

theorem Derives.getLast? {leaf : Token → Option Int} {n : Nonterminal} {tokens : List Token} {f : Formula Int}
    (h : Derives leaf n tokens f) : ∃ last, tokens.getLast? = some last ∧ last.kind.awaits = false := by
  induction h with
  | single _ ih | atom _ ih => exact ih
  | @chain _ sign ls rs _ _ _ _ right _ ih =>
    obtain ⟨last, found, complete⟩ := ih
    refine ⟨last, ?_, complete⟩
    simp [List.getLast?_append, List.getLast?_cons, found]
  | not _ _ ih =>
    obtain ⟨last, found, complete⟩ := ih
    exact ⟨last, by simp [List.getLast?_cons, found], complete⟩
  | @truth token _ kind | @var token _ kind _ => exact ⟨token, rfl, by rw [kind]; rfl⟩
  | @group _ closing _ _ _ _ closes _ => exact ⟨closing, List.getLast?_concat, by rw [closes]; rfl⟩

theorem Stacks.Pending.getLast? {tokens operators : List Token} {operands : List (Formula Int)}
    (pending : Pending tokens operators operands) :
    tokens.getLast? = operators.head? ∧ ∀ top ∈ operators.head?, top.kind.awaits = true := by
  cases pending with
  | empty => simp
  | opened _ kind | negated _ kind => simp [kind, Token.Kind.awaits]
  | joined _ _ _ kind => simp [← List.append_assoc, kind, Token.Kind.awaits]

theorem Stacks.Finished.getLast? {n : Nonterminal} {tokens : List Token} {s : Stacks}
    (finished : Finished n tokens s) : ∃ last, tokens.getLast? = some last ∧ last.kind.awaits = false := by
  cases finished with
  | intro _ operand _ _ =>
    obtain ⟨last, found, complete⟩ := operand.getLast?
    exact ⟨last, by simp [List.getLast?_append, found], complete⟩

theorem Stacks.Reads.awaitsOperand_eq {e : Expecting} {tokens : List Token} {s : Stacks}
    (reads : Reads e tokens s) : awaitsOperand tokens = decide (e = .operand) := by
  cases reads with
  | operand pending =>
    obtain ⟨last, awaits⟩ := pending.getLast?
    rw [awaitsOperand, last]
    cases top : s.operators.head? with
    | none => rfl
    | some token => exact awaits token top
  | connective finished =>
    obtain ⟨last, found, complete⟩ := finished.getLast?
    rw [awaitsOperand, found]
    exact complete

/-! ### The verdict -/

theorem deadRejection_misplaced {e : Expecting} {before : List Token} {s : Stacks}
    (reads : Stacks.Reads e before s) (token : Token) :
    (CompileError.parse (Stacks.misplaced e before token)).rejection? = some (deadRejection before token) := by
  have awaits := reads.awaitsOperand_eq
  unfold Stacks.misplaced deadRejection
  by_cases unopened : token.kind = .rparen ∧ unclosed before = []
  · rw [if_pos unopened, if_pos unopened]
    rfl
  · rw [if_neg unopened, if_neg unopened, awaits]
    cases e <;> rfl

theorem endRejection?_operand {tokens : List Token} {s : Stacks}
    (pending : Stacks.Pending tokens s.operators s.operands) :
    (CompileError.parse s.endFault).rejection? = endRejection? tokens := by
  obtain ⟨last, awaits⟩ := pending.getLast?
  rw [endRejection?, last]
  cases operators : s.operators with
  | nil =>
    rw [Stacks.endFault_empty operators]
    rfl
  | cons top rest =>
    rw [Stacks.endFault_cons operators]
    simp only [List.head?_cons]
    by_cases opens : top.kind = .lparen
    · rw [if_pos opens, if_pos opens]
      rfl
    · rw [if_neg opens, if_neg opens, awaits top (by rw [operators]; rfl)]
      rfl

theorem endRejection?_connective {n : Nonterminal} {tokens : List Token} {s : Stacks}
    (finished : Stacks.Finished n tokens s) :
    endRejection? tokens = (unclosed tokens).head?.map fun innermost =>
      ⟨Fault.unclosedAtEnd.message, innermost.start, innermost.stop⟩ := by
  obtain ⟨last, found, complete⟩ := finished.getLast?
  have closed : last.kind ≠ .lparen := by
    intro opens
    rw [opens] at complete
    cases complete
  rw [endRejection?, found]
  simp [closed, complete, Fault.message]

variable {tokens : List Token} {stop : Token}

theorem FirstDead.unique {j k : Nat} (left : FirstDead tokens j) (right : FirstDead tokens k) : j = k := by
  by_cases less : j < k
  · exact absurd (right.2 j less) left.1
  · by_cases more : k < j
    · exact absurd (left.2 k more) right.1
    · omega

theorem firstDead_of_stuck {e : Expecting} {before after : List Token} {token : Token} {s : Stacks}
    {stopped : Stopped} (reads : Stacks.Reads e before s)
    (run : ∀ rest, Stacks.read .operand (before ++ token :: rest) {} = .error stopped) :
    FirstDead (before ++ token :: after) before.length := by
  constructor
  · intro viable
    have dead : (before ++ token :: after).take (before.length + 1) = before ++ [token] := by
      rw [List.take_length_add_append, List.take_succ_cons, List.take_zero]
    rw [dead] at viable
    obtain ⟨e', t, _, all⟩ := viable.reads
    have ok := all []
    rw [List.append_nil, run] at ok
    cases ok
  · intro j low
    rw [List.take_append_of_le_length low]
    exact reads.viable.take _

theorem endFault_rejection (s : Stacks) :
    ∃ rejection, (CompileError.parse s.endFault).rejection? = some rejection := by
  cases operators : s.operators with
  | nil => exact ⟨_, by rw [Stacks.endFault_empty operators]; rfl⟩
  | cons top rest =>
    rw [Stacks.endFault_cons operators]
    split <;> exact ⟨_, rfl⟩

theorem parse_at_end {e : Expecting} {s : Stacks} (reads : Stacks.Reads e tokens s)
    (run : ∀ rest, Stacks.read .operand (tokens ++ rest) {} = Stacks.read e rest s) (ends : stop.kind = .eof) :
    (endRejection? tokens = none ∧ ∃ f, (Stacks.parse {} (tokens ++ [stop])).1 = .ok f) ∨
    ∃ rejection, endRejection? tokens = some rejection ∧ Rejects (tokens ++ [stop]) rejection := by
  cases reads with
  | operand pending =>
    have failed : (Stacks.read .operand (tokens ++ [stop]) {}).bind Stacks.finish = .error ⟨s.endFault, s⟩ := by
      rw [run]
      simp only [Stacks.read, Stacks.step, Stacks.readOperand, ends, Except.bind]
    obtain ⟨rejection, found⟩ := endFault_rejection s
    refine Or.inr ⟨rejection, (endRejection?_operand pending).symm.trans found, s.endFault, ?_, found⟩
    rw [Stacks.parse_error failed]
  | connective finished =>
    have shown := endRejection?_connective finished
    obtain ⟨closed, f, _, ended⟩ | ⟨innermost, outer, left, opened, ended⟩ := Stacks.read_end finished ends []
    · refine Or.inl ⟨by rw [shown, closed]; rfl, f, ?_⟩
      rw [Stacks.parse_ok (by rw [run]; exact ended)]
    · refine Or.inr ⟨_, by rw [shown, opened]; rfl, rejects_on ?_⟩
      rw [Stacks.parse_error (by rw [run]; exact ended)]

/-- Parsing blames the token that ends the first prefix that is not viable, if there is one; otherwise
it succeeds or blames what the end of input cuts off. -/
theorem parse_localized (noEnd : ∀ token ∈ tokens, token.kind ≠ .eof) (ends : stop.kind = .eof)
    (indexed : ∀ token ∈ tokens, token.kind = .var → token.index ≠ none) :
    (∃ k, ∃ inside : k < tokens.length, FirstDead tokens k ∧
      Rejects (tokens ++ [stop]) (deadRejection (tokens.take k) tokens[k])) ∨
    (Viable tokens ∧
      ((endRejection? tokens = none ∧ ∃ f, (Stacks.parse {} (tokens ++ [stop])).1 = .ok f) ∨
        ∃ rejection, endRejection? tokens = some rejection ∧ Rejects (tokens ++ [stop]) rejection)) := by
  obtain ⟨e, t, reads, run⟩ | ⟨e, t, before, token, after, stopped, rfl, reads, run, why⟩ :=
    Stacks.read_reads Stacks.reads_empty tokens noEnd
  · rw [List.nil_append] at reads
    exact Or.inr ⟨reads.viable, parse_at_end reads run ends⟩
  · rw [List.nil_append] at reads why
    have failed : (Stacks.read .operand (before ++ token :: (after ++ [stop])) {}).bind Stacks.finish =
        .error stopped := by rw [run]; rfl
    refine Or.inl ⟨before.length, by simp, firstDead_of_stuck reads run, stopped.failure, ?_, ?_⟩
    · rw [List.append_assoc, List.cons_append, Stacks.parse_error failed]
    · rw [why (indexed token (by simp)), List.take_left, List.getElem_append_right (Nat.le_refl _)]
      simpa using deadRejection_misplaced reads token

/-- A mistake is found at the first token that ends a prefix which is not viable, or else at the end of input. -/
theorem rejects_iff (tokens : List Token) (stop : Token) (noEnd : ∀ token ∈ tokens, token.kind ≠ .eof)
    (ends : stop.kind = .eof) (indexed : ∀ token ∈ tokens, token.kind = .var → token.index ≠ none) :
    ((∃ f, (Stacks.parse {} (tokens ++ [stop])).1 = .ok f) ∨ ∃ rejection, Rejects (tokens ++ [stop]) rejection) ∧
    ∀ rejection, Rejects (tokens ++ [stop]) rejection ↔
      (∃ k, ∃ inside : k < tokens.length, FirstDead tokens k ∧
        rejection = deadRejection (tokens.take k) tokens[k]) ∨
      ((∀ k, Viable (tokens.take k)) ∧ endRejection? tokens = some rejection) := by
  obtain ⟨k, inside, dead, rejects⟩ | ⟨viable, verdict⟩ := parse_localized noEnd ends indexed
  · refine ⟨Or.inr ⟨_, rejects⟩, fun rejection => ⟨fun rejected => ?_, ?_⟩⟩
    · exact Or.inl ⟨k, inside, dead, rejected.unique rejects⟩
    · rintro (⟨j, _, dead', rfl⟩ | ⟨viable, _⟩)
      · obtain rfl := dead'.unique dead
        exact rejects
      · exact absurd (viable (k + 1)) dead.1
  · have alive : ∀ k, ¬ FirstDead tokens k := fun k dead => dead.1 (viable.take (k + 1))
    obtain ⟨none, f, parsed⟩ | ⟨rejection, found, rejects⟩ := verdict
    · refine ⟨Or.inl ⟨f, parsed⟩, fun rejection => ⟨?_, ?_⟩⟩
      · rintro ⟨failure, failed, _⟩
        rw [parsed] at failed
        cases failed
      · rintro (⟨k, _, dead, _⟩ | ⟨_, found⟩)
        · exact absurd dead (alive k)
        · rw [none] at found
          cases found
    · refine ⟨Or.inr ⟨rejection, rejects⟩, fun other => ⟨fun rejected => ?_, ?_⟩⟩
      · exact Or.inr ⟨viable.take, found.trans (congrArg some (rejects.unique rejected))⟩
      · rintro (⟨k, _, dead, _⟩ | ⟨_, found'⟩)
        · exact absurd dead (alive k)
        · obtain rfl := Option.some.inj (found'.symm.trans found)
          exact rejects

/-- The tokens of "(p ->) q". -/
def danglingArrow : List Token := [
  ⟨.lparen, 0, 1, "(", none⟩, ⟨.var, 1, 2, "p", some 0⟩, ⟨.connective .implies, 3, 5, "->", none⟩,
  ⟨.rparen, 5, 6, ")", none⟩, ⟨.var, 7, 8, "q", some 1⟩]

theorem rejects_danglingArrow :
    (∀ token ∈ danglingArrow, token.kind ≠ .eof) ∧
    (∀ token ∈ danglingArrow, token.kind = .var → token.index ≠ none) ∧
    ∃ k, ∃ inside : k < danglingArrow.length, FirstDead danglingArrow k ∧
      ⟨"We were expecting a variable, constant, or open parenthesis here.", 5, 6⟩ =
        deadRejection (danglingArrow.take k) danglingArrow[k] := by
  refine ⟨by decide, by decide, ?_⟩
  have rejects : Rejects (danglingArrow ++ [⟨.eof, 8, 8, "", none⟩])
      ⟨"We were expecting a variable, constant, or open parenthesis here.", 5, 6⟩ :=
    ⟨.fault .expectedOperand 5 6, by decide +kernel, rfl⟩
  obtain dead | ⟨_, cut⟩ :=
    ((rejects_iff danglingArrow ⟨.eof, 8, 8, "", none⟩ (by decide) rfl (by decide)).2 _).mp rejects
  · exact dead
  · cases cut

end Propositional
