import Propositional.Proofs.Grammar
import Propositional.Stacks

/-!
# What the stacks stand for

While a list of tokens is read, the stacks hold a derivation that is broken off: `Pending` before an
operand and `Finished` after one. `step_reads` says what one token does to it, or why it cannot follow.
-/

namespace Propositional.Stacks

/-- How tightly a derivation has to bind that stands on top of an operator or an open parenthesis. -/
def demand? : Token.Kind → Option Int
  | .lparen => some (-1)
  | .connective c => some c.precedence
  | .not => some Nonterminal.unary.rank
  | _ => none

/-- A derivation of this rank may stand on top of the operators. -/
def Fits (rank : Int) (operators : List Token) : Prop :=
  ∀ top ∈ operators.head?, ∃ d, demand? top.kind = some d ∧ d ≤ rank

/-- No negation waits for the operand that has just been finished. -/
def Applied (operators : List Token) : Prop :=
  ∀ top ∈ operators.head?, top.kind ≠ .not

/-- The tokens derive the two stacks where an operand is expected: the operands are the left operands
of the connectives among the operators. -/
inductive Pending : List Token → List Token → List (Formula Int) → Prop where
  | empty : Pending [] [] []
  | opened {token : Token} {tokens operators : List Token} {operands : List (Formula Int)}
      (before : Pending tokens operators operands) (opens : token.kind = .lparen) :
      Pending (tokens ++ [token]) (token :: operators) operands
  | negated {token : Token} {tokens operators : List Token} {operands : List (Formula Int)}
      (before : Pending tokens operators operands) (negates : token.kind = .not) :
      Pending (tokens ++ [token]) (token :: operators) operands
  | joined {token : Token} {c : Connective} {tokens ls operators : List Token} {l : Formula Int}
      {operands : List (Formula Int)} (before : Pending tokens operators operands)
      (fits : Fits c.precedence operators) (left : Derives Token.index c.operand ls l)
      (joins : token.kind = .connective c) :
      Pending (tokens ++ (ls ++ [token])) (token :: operators) (l :: operands)

/-- The tokens derive the stacks after an operand, which the symbol derives. -/
inductive Finished (n : Nonterminal) : List Token → Stacks → Prop where
  | intro {before after operators : List Token} {f : Formula Int} {operands : List (Formula Int)}
      (pending : Pending before operators operands) (operand : Derives Token.index n after f)
      (fits : Fits n.rank operators) (applied : Applied operators) :
      Finished n (before ++ after) ⟨operators, f :: operands⟩

inductive Reads : Expecting → List Token → Stacks → Prop where
  | operand {tokens : List Token} {s : Stacks} (pending : Pending tokens s.operators s.operands) :
      Reads .operand tokens s
  | connective {tokens : List Token} {s : Stacks} (finished : Finished .unary tokens s) :
      Reads .connective tokens s

theorem reads_empty : Reads .operand [] {} :=
  .operand .empty

theorem Pending.fits {tokens operators : List Token} {operands : List (Formula Int)}
    (pending : Pending tokens operators operands) : Fits Nonterminal.unary.rank operators := by
  cases pending with
  | empty => simp [Fits]
  | opened _ opens => simp [Fits, opens, demand?, Nonterminal.rank]
  | negated _ negates => simp [Fits, negates, demand?]
  | @joined _ c _ _ _ _ _ _ _ _ joins =>
    have low := c.precedence_lt_unary
    simp [Fits, joins, demand?]
    omega

/-! ### Fitting operators -/

theorem fits_nil (rank : Int) : Fits rank [] := by
  simp [Fits]

theorem fits_cons {rank : Int} {top : Token} {operators : List Token} :
    Fits rank (top :: operators) ↔ ∃ d, demand? top.kind = some d ∧ d ≤ rank := by
  simp [Fits]

theorem Fits.mono {r q : Int} {operators : List Token} (h : Fits r operators) (looser : r ≤ q) :
    Fits q operators := by
  intro top member
  obtain ⟨d, demand, bound⟩ := h top member
  exact ⟨d, demand, by omega⟩

theorem Fits.top {rank : Int} {top : Token} {operators : List Token} (h : Fits rank (top :: operators))
    (applied : top.kind ≠ .not) : top.kind = .lparen ∨ ∃ c, top.kind = .connective c ∧ c.precedence ≤ rank := by
  obtain ⟨d, demand, bound⟩ := fits_cons.mp h
  cases kind : top.kind with
  | lparen => exact Or.inl rfl
  | not => exact absurd kind applied
  | connective c =>
    rw [kind] at demand
    obtain rfl : c.precedence = d := Option.some.inj demand
    exact Or.inr ⟨c, rfl, bound⟩
  | _ => rw [kind] at demand; cases demand

theorem Fits.applied {r : Int} {operators : List Token} (h : Fits r operators)
    (low : r < Nonterminal.unary.rank) : Applied operators := by
  intro top member negates
  obtain ⟨d, demand, bound⟩ := h top member
  rw [negates] at demand
  obtain rfl : Nonterminal.unary.rank = d := Option.some.inj demand
  omega

theorem applied_nil : Applied [] := by
  simp [Applied]

theorem applied_cons {top : Token} {operators : List Token} :
    Applied (top :: operators) ↔ top.kind ≠ .not := by
  simp [Applied]

theorem finishOperand_applied {f : Formula Int} {operands : List (Formula Int)} {operators : List Token}
    (applied : Applied operators) :
    finishOperand f operands operators = ⟨operators, f :: operands⟩ := by
  cases operators with
  | nil => rfl
  | cons top rest => rw [finishOperand, if_neg (applied top rfl)]

/-! ### Finishing and reducing -/

theorem finishOperand_finished {before after operators : List Token} {f : Formula Int}
    {operands : List (Formula Int)} (pending : Pending before operators operands)
    (operand : Derives Token.index .unary after f) :
    Finished .unary (before ++ after) (finishOperand f operands operators) := by
  induction pending generalizing after f with
  | empty => exact .intro .empty operand (fits_nil _) applied_nil
  | @opened token _ operators _ before opens =>
    have applied : Applied (token :: operators) := applied_cons.mpr (by simp [opens])
    rw [finishOperand_applied applied]
    exact .intro (.opened before opens) operand (fits_cons.mpr ⟨-1, by rw [opens]; rfl, by decide⟩) applied
  | negated before negates ih =>
    rw [finishOperand, if_pos negates, List.append_assoc]
    exact ih (.not negates operand)
  | @joined token c _ _ operators _ _ before fits left joins =>
    have applied : Applied (token :: operators) := applied_cons.mpr (by simp [joins])
    rw [finishOperand_applied applied]
    refine .intro (.joined before fits left joins) operand (fits_cons.mpr ⟨c.precedence, ?_, ?_⟩) applied
    · rw [joins]; rfl
    · exact Int.le_of_lt c.precedence_lt_unary

theorem Finished.top {n : Nonterminal} {tokens operators : List Token} {top : Token}
    {operands : List (Formula Int)} (finished : Finished n tokens ⟨top :: operators, operands⟩) :
    top.kind = .lparen ∨ ∃ c, top.kind = .connective c ∧ c.precedence ≤ n.rank := by
  cases finished with
  | intro _ _ fits applied => exact fits.top (applied_cons.mp applied)

/-- The connective on top and its left operand take the right operand that has just been finished. -/
theorem reduce_finished {n : Nonterminal} {tokens operators : List Token} {top : Token} {c : Connective}
    {operands : List (Formula Int)} (finished : Finished n tokens ⟨top :: operators, operands⟩)
    (kind : top.kind = .connective c) (tight : c.precedence ≤ n.rank) :
    ∃ t, reduce top ⟨operators, operands⟩ = .ok t ∧ Finished (.chain c) tokens t := by
  cases finished with
  | @intro _ after _ f _ pending operand _ _ =>
    cases pending with
    | opened _ opens => rw [kind] at opens; cases opens
    | negated _ negates => rw [kind] at negates; cases negates
    | @joined _ d before ls _ l operands earlier fits left joins =>
      obtain rfl : c = d := Token.Kind.connective.inj (kind.symm.trans joins)
      have applied := fits.applied c.precedence_lt_unary
      refine ⟨⟨operators, .binary c l f :: operands⟩, ?_, ?_⟩
      · simp only [reduce, joins, Token.Kind.connective?, finishOperand_applied applied]
      · have split : before ++ (ls ++ [top]) ++ after = before ++ (ls ++ top :: after) := by simp
        rw [split]
        exact .intro earlier (.chain left joins (operand.loosen tight)) fits applied

theorem Finished.reduce_top {n : Nonterminal} {tokens operators : List Token} {top : Token}
    {operands : List (Formula Int)} (finished : Finished n tokens ⟨top :: operators, operands⟩)
    (closed : top.kind ≠ .lparen) : ∃ c t, top.kind = .connective c ∧
      reduce top ⟨operators, operands⟩ = .ok t ∧ Finished (.chain c) tokens t := by
  obtain opens | ⟨c, kind, bound⟩ := finished.top
  · exact absurd opens closed
  · obtain ⟨t, ok, next⟩ := reduce_finished finished kind bound
    exact ⟨c, t, kind, ok, next⟩

/-- Reducing leaves an operand that binds tighter than the incoming operator, on operators that bind
no tighter than it. -/
theorem reduceAbove_finished {incoming : Int} {n : Nonterminal} {tokens : List Token} {s : Stacks}
    (finished : Finished n tokens s) (tight : incoming < n.rank) (low : -1 ≤ incoming) :
    ∃ m t, reduceAbove incoming s = .ok t ∧ Finished m tokens t ∧ incoming < m.rank ∧
      Fits incoming t.operators := by
  fun_induction reduceAbove incoming s generalizing n with
  | case1 operands => exact ⟨n, _, rfl, finished, tight, fits_nil _⟩
  | case2 top operators operands opens =>
    exact ⟨n, _, rfl, finished, tight, fits_cons.mpr ⟨-1, by rw [opens]; rfl, low⟩⟩
  | case3 top operators operands closed noPrecedence =>
    obtain ⟨c, _, kind, _⟩ := finished.reduce_top closed
    rw [kind] at noPrecedence
    cases noPrecedence
  | case4 top operators operands closed precedence known loose =>
    obtain ⟨c, _, kind, _⟩ := finished.reduce_top closed
    rw [kind] at known
    obtain rfl : c.precedence = precedence := Option.some.inj known
    exact ⟨n, _, rfl, finished, tight, fits_cons.mpr ⟨_, by rw [kind]; rfl, loose⟩⟩
  | case5 top operators operands closed precedence known above stopped failed =>
    obtain ⟨c, t, _, ok, _⟩ := finished.reduce_top closed
    rw [failed] at ok
    cases ok
  | case6 top operators operands closed precedence known above t reduced ih =>
    obtain ⟨c, t', kind, ok, next⟩ := finished.reduce_top closed
    obtain rfl : t = t' := Except.ok.inj (reduced.symm.trans ok)
    rw [kind] at known
    obtain rfl : c.precedence = precedence := Option.some.inj known
    exact ih next (by simp only [Nonterminal.rank]; omega)

/-! ### Open parentheses -/

theorem Pending.filter_lparen {tokens operators : List Token} {operands : List (Formula Int)}
    (pending : Pending tokens operators operands) :
    operators.filter (·.kind = .lparen) = unclosed tokens := by
  induction pending with
  | empty => rfl
  | opened _ opens ih => simp [unclosed_concat, trackGroups, opens, ih]
  | negated _ negates ih => simp [unclosed_concat, trackGroups, negates, ih]
  | joined _ _ left joins ih =>
    rw [← List.append_assoc, unclosed_concat, left.unclosed_append]
    simp [trackGroups, joins, ih]

theorem Finished.filter_lparen {n : Nonterminal} {tokens : List Token} {s : Stacks}
    (finished : Finished n tokens s) : s.operators.filter (·.kind = .lparen) = unclosed tokens := by
  cases finished with
  | intro pending operand _ _ => rw [operand.unclosed_append]; exact pending.filter_lparen

theorem isOpen_eq_false_iff {s : Stacks} :
    s.isOpen = false ↔ s.operators.filter (·.kind = .lparen) = [] := by
  simp [isOpen, List.filter_eq_nil_iff]

theorem closeGroup_finished {n : Nonterminal} {tokens : List Token} {s : Stacks} {token : Token}
    (finished : Finished n tokens s) (closes : token.kind = .rparen) :
    (unclosed tokens ≠ [] ∧ ∃ t, closeGroup token s = .ok t ∧ Finished .unary (tokens ++ [token]) t) ∨
    (unclosed tokens = [] ∧ ∃ left, closeGroup token s = .error ⟨Fault.unopenedGroup.on token, left⟩) := by
  have opened := finished.filter_lparen
  fun_induction closeGroup token s generalizing n with
  | case1 operands => exact Or.inr ⟨opened.symm, _, rfl⟩
  | case2 top operators opens => cases finished
  | case3 top operators opens f operands =>
    refine Or.inl ⟨by simp [← opened, opens], _, rfl, ?_⟩
    cases finished with
    | @intro _ after _ _ _ pending operand _ _ =>
      cases pending with
      | @opened _ before _ _ earlier _ =>
        have split : before ++ [top] ++ after ++ [token] = before ++ (top :: after ++ [token]) := by simp
        rw [split]
        exact finishOperand_finished earlier
          (.atom (.group opens (operand.loosen (Nonterminal.rank_start_le n)) closes))
      | negated _ negates => rw [opens] at negates; cases negates
      | joined _ _ _ joins => rw [opens] at joins; cases joins
  | case4 top operators operands closed negates =>
    obtain ⟨c, _, kind, _⟩ := finished.reduce_top closed
    rw [kind] at negates
    cases negates
  | case5 top operators operands closed _ stopped failed =>
    obtain ⟨c, t, _, ok, _⟩ := finished.reduce_top closed
    rw [failed] at ok
    cases ok
  | case6 top operators operands closed _ t reduced ih =>
    obtain ⟨c, t', _, ok, next⟩ := finished.reduce_top closed
    obtain rfl : t = t' := Except.ok.inj (reduced.symm.trans ok)
    exact ih next next.filter_lparen

/-! ### One token -/

def misplaced (expecting : Expecting) (before : List Token) (token : Token) : Failure :=
  if token.kind = .rparen ∧ unclosed before = [] then Fault.unopenedGroup.on token
  else match expecting with
    | .operand => Fault.expectedOperand.on token
    | .connective => Fault.expectedConnective.on token

theorem Finished.join {n : Nonterminal} {tokens : List Token} {s : Stacks} {c : Connective} {token : Token}
    (finished : Finished n tokens s) (tight : c.precedence < n.rank) (fits : Fits c.precedence s.operators)
    (joins : token.kind = .connective c) :
    Pending (tokens ++ [token]) (token :: s.operators) s.operands := by
  cases finished with
  | intro pending operand _ _ =>
    rw [List.append_assoc]
    exact .joined pending fits (operand.loosen (by rw [Nonterminal.rank_operand]; omega)) joins

theorem readOperand_reads {tokens : List Token} {s : Stacks} {token : Token}
    (pending : Pending tokens s.operators s.operands) (notEnd : token.kind ≠ .eof) :
    (∃ e t, s.readOperand token = .ok (e, t) ∧ Reads e (tokens ++ [token]) t) ∨
    (∃ stopped, s.readOperand token = .error stopped ∧
      ((token.kind = .var → token.index ≠ none) → stopped.failure = misplaced .operand tokens token)) := by
  cases kind : token.kind with
  | truth v =>
    have finished := finishOperand_finished pending (.atom (.truth kind))
    refine Or.inl ⟨.connective, _, ?_, .connective finished⟩
    simp only [readOperand, kind]
  | var =>
    cases index : token.index with
    | some i =>
      have finished := finishOperand_finished pending (.atom (.var kind index))
      refine Or.inl ⟨.connective, _, ?_, .connective finished⟩
      simp only [readOperand, kind, index]
    | none =>
      refine Or.inr ⟨⟨.breach .noIndex, s⟩, ?_, fun indexed => absurd rfl (indexed rfl)⟩
      simp only [readOperand, kind, index]
  | lparen =>
    refine Or.inl ⟨.operand, s.pushOperator token, ?_, .operand (.opened pending kind)⟩
    simp only [readOperand, kind]
  | not =>
    refine Or.inl ⟨.operand, s.pushOperator token, ?_, .operand (.negated pending kind)⟩
    simp only [readOperand, kind]
  | eof => exact absurd kind notEnd
  | connective c =>
    refine Or.inr ⟨⟨Fault.expectedOperand.on token, s⟩, ?_, fun _ => ?_⟩
    · simp only [readOperand, kind]
    · simp [misplaced, kind]
  | rparen =>
    have opened := pending.filter_lparen
    cases isOpen : s.isOpen with
    | true =>
      have some : unclosed tokens ≠ [] := by
        rw [← opened]
        intro none
        rw [isOpen_eq_false_iff.mpr none] at isOpen
        cases isOpen
      refine Or.inr ⟨⟨Fault.expectedOperand.on token, s⟩, ?_, fun _ => ?_⟩
      · simp only [readOperand, kind, isOpen, if_true]
      · simp [misplaced, some]
    | false =>
      have none : unclosed tokens = [] := opened.symm.trans (isOpen_eq_false_iff.mp isOpen)
      refine Or.inr ⟨⟨Fault.unopenedGroup.on token, s⟩, ?_, fun _ => ?_⟩
      · simp only [readOperand, kind, isOpen, Bool.false_eq_true, if_false]
      · simp [misplaced, none, kind]

theorem readConnective_reads {tokens : List Token} {s : Stacks} {token : Token}
    (finished : Finished .unary tokens s) (notEnd : token.kind ≠ .eof) :
    (∃ e t, s.readConnective token = .ok (e, t) ∧ Reads e (tokens ++ [token]) t) ∨
    (∃ stopped, s.readConnective token = .error stopped ∧
      stopped.failure = misplaced .connective tokens token) := by
  cases kind : token.kind with
  | connective c =>
    obtain ⟨m, t, reduced, finished, tight, fits⟩ := reduceAbove_finished finished c.precedence_lt_unary
      (Int.le_trans (by decide) c.precedence_nonneg)
    refine Or.inl ⟨.operand, t.pushOperator token, ?_, .operand (finished.join tight fits kind)⟩
    simp only [readConnective, kind, reduced, Except.map]
  | rparen =>
    obtain ⟨opened, t, closed, finished⟩ | ⟨none, left, failed⟩ := closeGroup_finished finished kind
    · refine Or.inl ⟨.connective, t, ?_, .connective finished⟩
      simp only [readConnective, kind, closed, Except.map]
    · refine Or.inr ⟨⟨Fault.unopenedGroup.on token, left⟩, ?_, ?_⟩
      · simp only [readConnective, kind, failed, Except.map]
      · simp [misplaced, kind, none]
  | eof => exact absurd kind notEnd
  | truth _ | var | lparen | not =>
    refine Or.inr ⟨⟨Fault.expectedConnective.on token, s⟩, by simp only [readConnective, kind], ?_⟩
    simp [misplaced, kind]

theorem step_reads {e : Expecting} {tokens : List Token} {s : Stacks} {token : Token}
    (reads : Reads e tokens s) (notEnd : token.kind ≠ .eof) :
    (∃ e' t, s.step e token = .ok (e', t) ∧ Reads e' (tokens ++ [token]) t) ∨
    (∃ stopped, s.step e token = .error stopped ∧
      ((token.kind = .var → token.index ≠ none) → stopped.failure = misplaced e tokens token)) := by
  cases reads with
  | operand pending => exact readOperand_reads pending notEnd
  | connective finished =>
    obtain ok | ⟨stopped, failed, why⟩ := readConnective_reads finished notEnd
    · exact Or.inl ok
    · exact Or.inr ⟨stopped, failed, fun _ => why⟩

end Propositional.Stacks
