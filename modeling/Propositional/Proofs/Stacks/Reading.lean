import Propositional.Proofs.Stacks.Pending

/-!
# Reading a derivation

`read_derives` says that tokens which a symbol derives are read on top of any stacks that fit it, and
leave what finishing their formula there would leave, up to connectives that wait to be reduced.
`read_reads` says that any tokens are read to the last or up to the first misplaced one.
-/

namespace Propositional.Stacks

/-- The stacks `t` act as if `f` had been finished on the stacks `s`, towards what binds looser than
the rank and towards the end of a group. -/
def Settles (rank : Int) (f : Formula Int) (s t : Stacks) : Prop :=
  (∀ incoming < rank,
    reduceAbove incoming t = reduceAbove incoming (finishOperand f s.operands s.operators)) ∧
  ∀ token, closeGroup token t = closeGroup token (finishOperand f s.operands s.operators)

theorem settles_refl (rank : Int) (f : Formula Int) (s : Stacks) :
    Settles rank f s (finishOperand f s.operands s.operators) :=
  ⟨fun _ _ => rfl, fun _ => rfl⟩

theorem Settles.mono {r q : Int} {f : Formula Int} {s t : Stacks} (h : Settles r f s t) (looser : q ≤ r) :
    Settles q f s t :=
  ⟨fun incoming low => h.1 incoming (by omega), h.2⟩

/-! ### Steps of the stacks -/

theorem reduceAbove_fits {incoming : Int} {operators : List Token} {operands : List (Formula Int)}
    (fits : Fits incoming operators) (low : incoming < Nonterminal.unary.rank) :
    reduceAbove incoming ⟨operators, operands⟩ = .ok ⟨operators, operands⟩ := by
  cases operators with
  | nil => rw [reduceAbove]
  | cons top rest =>
    rw [reduceAbove]
    obtain opens | ⟨c, kind, bound⟩ := fits.top (applied_cons.mp (fits.applied low))
    · rw [if_pos opens]
    · simp [kind, Token.Kind.precedence?, bound]

theorem reduce_connective {top : Token} {c : Connective} {operators : List Token} {l r : Formula Int}
    {operands : List (Formula Int)} (kind : top.kind = .connective c) :
    reduce top ⟨operators, r :: l :: operands⟩ = .ok (finishOperand (.binary c l r) operands operators) := by
  simp only [reduce, kind, Token.Kind.connective?]

theorem reduceAbove_connective {incoming : Int} {top : Token} {c : Connective} {operators : List Token}
    {l r : Formula Int} {operands : List (Formula Int)} (kind : top.kind = .connective c)
    (tight : incoming < c.precedence) :
    reduceAbove incoming ⟨top :: operators, r :: l :: operands⟩ =
      reduceAbove incoming (finishOperand (.binary c l r) operands operators) := by
  have known : top.kind.precedence? = some c.precedence := by rw [kind]; rfl
  rw [reduceAbove_tight (by simp [kind]) known (Int.not_le.mpr tight), reduce_connective kind]
  rfl

theorem closeGroup_connective {token top : Token} {c : Connective} {operators : List Token}
    {l r : Formula Int} {operands : List (Formula Int)} (kind : top.kind = .connective c) :
    closeGroup token ⟨top :: operators, r :: l :: operands⟩ =
      closeGroup token (finishOperand (.binary c l r) operands operators) := by
  rw [closeGroup_tight (by simp [kind]) (by simp [kind]), reduce_connective kind]
  rfl

theorem closeGroup_lparen {token top : Token} {operators : List Token} {f : Formula Int}
    {operands : List (Formula Int)} (opens : top.kind = .lparen) :
    closeGroup token ⟨top :: operators, f :: operands⟩ = .ok (finishOperand f operands operators) := by
  rw [closeGroup, if_pos opens]

theorem read_step {e next : Expecting} {token : Token} {rest : List Token} {s t : Stacks}
    (ok : s.step e token = .ok (next, t)) (notEnd : token.kind ≠ .eof) :
    read e (token :: rest) s = read next rest t := by
  rw [read_cons, ok]
  simp only [Except.bind, notEnd, and_false, if_false]

theorem read_stop {e : Expecting} {token : Token} {rest : List Token} {s : Stacks} {stopped : Stopped}
    (failed : s.step e token = .error stopped) : read e (token :: rest) s = .error stopped := by
  rw [read_cons, failed]
  rfl

/-! ### Derivations -/

theorem Settles.chain {c : Connective} {sign : Token} {l r : Formula Int} {s t : Stacks}
    (joins : sign.kind = .connective c)
    (right : Settles c.precedence r ⟨sign :: s.operators, l :: s.operands⟩ t) :
    Settles c.precedence (.binary c l r) s t := by
  have applied : Applied (sign :: s.operators) := applied_cons.mpr (by simp [joins])
  constructor
  · intro incoming low
    rw [right.1 incoming low, finishOperand_applied applied, reduceAbove_connective joins low]
  · intro token
    rw [right.2 token, finishOperand_applied applied, closeGroup_connective joins]

theorem read_derives {n : Nonterminal} {tokens : List Token} {f : Formula Int}
    (h : Derives Token.index n tokens f) (s : Stacks) (fits : Fits n.rank s.operators) :
    ∃ t, Settles n.rank f s t ∧ ∀ rest, read .operand (tokens ++ rest) s = read .connective rest t := by
  induction h generalizing s with
  | @single c _ _ _ ih =>
    have tight := Nonterminal.rank_operand c
    have level : (Nonterminal.chain c).rank = c.precedence := rfl
    obtain ⟨t, settles, reads⟩ := ih s (fits.mono (by omega))
    exact ⟨t, settles.mono (by omega), reads⟩
  | @chain c sign ls rs l r _ joins _ ihl ihr =>
    have tight := Nonterminal.rank_operand c
    have low := c.precedence_lt_unary
    have level : (Nonterminal.chain c).rank = c.precedence := rfl
    obtain ⟨t, settles, readsLeft⟩ := ihl s (fits.mono (by omega))
    have reduced : reduceAbove c.precedence t = .ok ⟨s.operators, l :: s.operands⟩ := by
      rw [settles.1 _ (by omega), finishOperand_applied (fits.applied low)]
      exact reduceAbove_fits fits low
    have step : t.step .connective sign = .ok (.operand, ⟨sign :: s.operators, l :: s.operands⟩) := by
      simp only [Stacks.step, readConnective, joins, reduced, Except.map, pushOperator]
    obtain ⟨u, settlesRight, readsRight⟩ := ihr ⟨sign :: s.operators, l :: s.operands⟩
      (fits_cons.mpr ⟨c.precedence, by rw [joins]; rfl, Int.le_refl _⟩)
    refine ⟨u, settlesRight.chain joins, fun rest => ?_⟩
    rw [List.append_assoc, readsLeft, List.cons_append, read_step step (by simp [joins]), readsRight]
  | @not sign _ f negates _ ih =>
    have step : s.step .operand sign = .ok (.operand, s.pushOperator sign) := by
      simp only [Stacks.step, readOperand, negates]
    obtain ⟨t, settles, reads⟩ := ih (s.pushOperator sign)
      (fits_cons.mpr ⟨Nonterminal.unary.rank, by rw [negates]; rfl, Int.le_refl _⟩)
    have waits : finishOperand f s.operands (sign :: s.operators) =
        finishOperand (.not f) s.operands s.operators := by rw [finishOperand, if_pos negates]
    refine ⟨t, ?_, fun rest => ?_⟩
    · simpa only [Settles, pushOperator, waits] using settles
    · rw [List.cons_append, read_step step (by simp [negates]), reads]
  | atom _ ih =>
    obtain ⟨t, settles, reads⟩ := ih s (fits.mono (by decide))
    exact ⟨t, settles.mono (by decide), reads⟩
  | @truth token v constant =>
    have step : s.step .operand token = .ok (.connective, finishOperand (.truth v) s.operands s.operators) := by
      simp only [Stacks.step, readOperand, constant]
    exact ⟨_, settles_refl _ _ s, fun rest => read_step step (by simp [constant])⟩
  | @var token i named stands =>
    have step : s.step .operand token = .ok (.connective, finishOperand (.var i) s.operands s.operators) := by
      simp only [Stacks.step, readOperand, named, stands]
    exact ⟨_, settles_refl _ _ s, fun rest => read_step step (by simp [named])⟩
  | @group opening closing tokens f opens _ closes ih =>
    have opened : s.step .operand opening = .ok (.operand, s.pushOperator opening) := by
      simp only [Stacks.step, readOperand, opens]
    obtain ⟨t, settles, reads⟩ := ih (s.pushOperator opening)
      (fits_cons.mpr ⟨-1, by rw [opens]; rfl, by decide⟩)
    have applied : Applied (opening :: s.operators) := applied_cons.mpr (by simp [opens])
    have closed : closeGroup closing t = .ok (finishOperand f s.operands s.operators) := by
      rw [settles.2, pushOperator, finishOperand_applied applied]
      exact closeGroup_lparen opens
    have step : t.step .connective closing = .ok (.connective, finishOperand f s.operands s.operators) := by
      simp only [Stacks.step, readConnective, closes, closed, Except.map]
    refine ⟨_, settles_refl _ _ s, fun rest => ?_⟩
    rw [List.append_assoc, List.cons_append, read_step opened (by simp [opens]), reads, List.singleton_append,
      read_step step (by simp [closes])]

/-! ### Runs over any tokens -/

theorem read_reads {e : Expecting} {tokens : List Token} {s : Stacks} (reads : Reads e tokens s)
    (more : List Token) (noEnd : ∀ token ∈ more, token.kind ≠ .eof) :
    (∃ e' t, Reads e' (tokens ++ more) t ∧ ∀ rest, read e (more ++ rest) s = read e' rest t) ∨
    (∃ e' t before token after stopped, more = before ++ token :: after ∧ Reads e' (tokens ++ before) t ∧
      (∀ rest, read e (before ++ token :: rest) s = .error stopped) ∧
      ((token.kind = .var → token.index ≠ none) →
        stopped.failure = misplaced e' (tokens ++ before) token)) := by
  induction more generalizing e tokens s with
  | nil => exact Or.inl ⟨e, s, by simpa using reads, fun _ => rfl⟩
  | cons token more ih =>
    have notEnd := noEnd token List.mem_cons_self
    obtain ⟨next, t, ok, later⟩ | ⟨stopped, failed, why⟩ := step_reads reads notEnd
    · obtain ⟨e', u, reads', run⟩ | ⟨e', u, before, bad, after, stopped, split, reads', run, why⟩ :=
        ih later fun token member => noEnd token (List.mem_cons_of_mem _ member)
      · refine Or.inl ⟨e', u, by simpa using reads', fun rest => ?_⟩
        rw [List.cons_append, read_step ok notEnd, run]
      · refine Or.inr ⟨e', u, token :: before, bad, after, stopped, by simp [split], by simpa using reads', ?_, ?_⟩
        · intro rest
          rw [List.cons_append, read_step ok notEnd, run]
        · simpa using why
    · refine Or.inr ⟨e, s, [], token, more, stopped, rfl, by simpa using reads, ?_, by simpa using why⟩
      exact fun rest => read_stop failed

theorem read_after_eof (e : Expecting) (s : Stacks) (before after other : List Token) {stop : Token}
    (ends : stop.kind = .eof) : read e (before ++ stop :: after) s = read e (before ++ stop :: other) s := by
  induction before generalizing e s with
  | nil =>
    simp only [List.nil_append, read]
    cases e with
    | operand => simp only [step, readOperand, ends]
    | connective => simp only [ends, and_self, if_true]
  | cons token before ih =>
    simp only [List.cons_append, read]
    split
    · rfl
    · split
      · rfl
      · exact ih _ _

/-- At the end of input the only operator left is an open parenthesis, or the formula is complete. -/
theorem finish_finished {n : Nonterminal} {tokens : List Token} {s : Stacks} {stop : Token}
    (finished : Finished n tokens s) (fits : Fits (-1) s.operators) (ends : stop.kind = .eof) :
    (unclosed tokens = [] ∧ ∃ f, Derives Token.index .start tokens f ∧ finish (s.pushOperator stop) = .ok (f, {})) ∨
    (∃ innermost outer left, unclosed tokens = innermost :: outer ∧
      finish (s.pushOperator stop) = .error ⟨Fault.unclosedAtEnd.on innermost, left⟩) := by
  have opened := finished.filter_lparen
  cases finished with
  | @intro before after operators f operands pending operand _ _ =>
    cases operators with
    | nil =>
      cases pending with
      | empty =>
        refine Or.inl ⟨opened.symm, f, operand.loosen (Nonterminal.rank_start_le n), ?_⟩
        simp [finish, pushOperator, ends]
    | cons top rest =>
      have low : (-1 : Int) < Nonterminal.unary.rank := by decide
      obtain opens | ⟨c, _, loose⟩ := fits.top (applied_cons.mp (fits.applied low))
      · refine Or.inr ⟨top, _, ⟨rest, f :: operands⟩, by rw [← opened]; simp [opens]; rfl, ?_⟩
        simp [finish, pushOperator, ends, opens]
      · have tight := c.precedence_nonneg
        omega

theorem read_end {tokens : List Token} {s : Stacks} {stop : Token} (finished : Finished .unary tokens s)
    (ends : stop.kind = .eof) (rest : List Token) :
    (unclosed tokens = [] ∧ ∃ f, Derives Token.index .start tokens f ∧
      (read .connective (stop :: rest) s).bind finish = .ok (f, {})) ∨
    (∃ innermost outer left, unclosed tokens = innermost :: outer ∧
      (read .connective (stop :: rest) s).bind finish = .error ⟨Fault.unclosedAtEnd.on innermost, left⟩) := by
  obtain ⟨m, t, reduced, finished, _, fits⟩ := reduceAbove_finished finished (by decide : (-1 : Int) < _) (by decide)
  have read : read .connective (stop :: rest) s = .ok (t.pushOperator stop) := by
    simp only [read, step, readConnective, ends, reduced, Except.map, and_self, if_true]
  rw [read]
  exact finish_finished finished fits ends

end Propositional.Stacks
