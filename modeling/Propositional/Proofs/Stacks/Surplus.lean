import Propositional.Proofs.Stacks.Reading

/-!
# Stacks that outlive a parse

The stacks are never cleared, so a parse starts from whatever the parses before it have left. `Balanced`
holds of them between any two tokens, whatever was read before: the operands suffice for the connectives,
and the operators stand in an order in which they can be reduced. `read_balanced`, `finish_without_end` and
`finish_at_end` say how a parse changes the surplus of operands, and in which ways it may fail.
-/

namespace Propositional

/-- The number of operands that are complete and wait for a connective. -/
def Expecting.completed : Expecting → Int
  | .operand => 0
  | .connective => 1

theorem Expecting.completed_nonneg (e : Expecting) : 0 ≤ e.completed := by
  cases e <;> decide

/-- What is expected where a fault is noticed. A close parenthesis may be unmatched in either place. -/
def Fault.expecting? : Fault → Option Expecting
  | .emptyFormula | .unclosedGroup | .missingOperand | .expectedOperand => some .operand
  | .expectedConnective | .unclosedAtEnd => some .connective
  | .unopenedGroup => none

namespace Stacks

def connectives (operators : List Token) : Nat :=
  operators.countP (·.kind.connective?.isSome)

def openGroups (operators : List Token) : Nat :=
  operators.countP (·.kind = .lparen)

/-- The operands that are left when every connective has taken one. -/
def surplus (s : Stacks) : Int :=
  s.operands.length - connectives s.operators

/-- What is expected at the token at which reading ends, or behind the last token. -/
def lastExpecting (expecting : Expecting) : List Token → Stacks → Expecting
  | [], _ => expecting
  | token :: rest, s =>
    match s.step expecting token with
    | .error _ => expecting
    | .ok (next, t) => if expecting = .connective ∧ token.kind = .eof then expecting else lastExpecting next rest t

/-- Operators that any tokens may have left: a connective stands on nothing that binds tighter. -/
inductive Ordered : List Token → Prop where
  | empty : Ordered []
  | opened {token : Token} {operators : List Token} (before : Ordered operators) (opens : token.kind = .lparen) :
      Ordered (token :: operators)
  | negated {token : Token} {operators : List Token} (before : Ordered operators) (negates : token.kind = .not) :
      Ordered (token :: operators)
  | joined {token : Token} {c : Connective} {operators : List Token} (before : Ordered operators)
      (fits : Fits c.precedence operators) (joins : token.kind = .connective c) : Ordered (token :: operators)

/-- The stacks of a parse that started with a surplus of `d`. -/
structure Balanced (e : Expecting) (d : Int) (s : Stacks) : Prop where
  ordered : Ordered s.operators
  applied : e = .connective → Applied s.operators
  count : s.surplus = d + e.completed

/-- The failures of a parse that started with a surplus of `d`, with what was expected last. -/
def Arises (d : Int) (e : Expecting) : Failure → Prop
  | .fault fault _ _ => ∀ expected ∈ fault.expecting?, e = expected
  | .breach .noIndex | .breach .noEnd | .breach .topNotEnd => True
  | .breach .noSingleRoot => 0 < d
  | _ => False

variable {e : Expecting} {d : Int} {s : Stacks} {top token : Token} {operators : List Token}
  {operands : List (Formula Int)} {f : Formula Int}

/-! ### Counting -/

theorem connectives_cons_of_connective {c : Connective} (joins : top.kind = .connective c) :
    connectives (top :: operators) = connectives operators + 1 := by
  simp [connectives, joins, Token.Kind.connective?]

theorem connectives_cons_of_ne (other : ∀ c, top.kind ≠ .connective c) :
    connectives (top :: operators) = connectives operators := by
  cases kind : top.kind with
  | connective c => exact absurd kind (other c)
  | _ => simp [connectives, kind, Token.Kind.connective?]

theorem openGroups_cons_of_lparen (opens : top.kind = .lparen) :
    openGroups (top :: operators) = openGroups operators + 1 := by
  simp [openGroups, opens]

theorem openGroups_cons_of_ne (closed : top.kind ≠ .lparen) :
    openGroups (top :: operators) = openGroups operators := by
  simp [openGroups, closed]

theorem balanced_empty : Balanced .operand 0 {} :=
  ⟨.empty, by simp, rfl⟩

/-- What is expected next may be an operand as well, with those that are complete left over. -/
theorem Balanced.restart (balanced : Balanced e d s) : Balanced .operand (d + e.completed) s :=
  ⟨balanced.ordered, by simp, by rw [balanced.count, Expecting.completed, Int.add_zero]⟩

/-! ### Ordered operators -/

theorem Ordered.tail (ordered : Ordered (top :: operators)) : Ordered operators := by
  cases ordered with
  | opened before _ | negated before _ | joined before _ _ => exact before

theorem Ordered.kind_ne_eof (ordered : Ordered (top :: operators)) : top.kind ≠ .eof := by
  cases ordered with
  | opened _ kind | negated _ kind | joined _ _ kind => simp [kind]

theorem Ordered.reducible (ordered : Ordered (top :: operators)) (applied : Applied (top :: operators)) :
    top.kind = .lparen ∨ ∃ c, top.kind = .connective c ∧ Fits c.precedence operators := by
  cases ordered with
  | opened _ opens => exact Or.inl opens
  | negated _ negates => exact absurd negates (applied_cons.mp applied)
  | joined _ fits joins => exact Or.inr ⟨_, joins, fits⟩

theorem finishOperand_balanced (ordered : Ordered operators)
    (count : surplus ⟨operators, operands⟩ = d) : Balanced .connective d (finishOperand f operands operators) ∧
      openGroups (finishOperand f operands operators).operators = openGroups operators := by
  have more : ∀ g operators', connectives operators' = connectives operators →
      surplus ⟨operators', g :: operands⟩ = d + Expecting.completed .connective := by
    intro g operators' same
    simp only [surplus, Expecting.completed, List.length_cons, same] at count ⊢
    omega
  induction ordered generalizing f with
  | empty => exact ⟨⟨.empty, fun _ => applied_nil, more f [] rfl⟩, rfl⟩
  | @opened token operators before opens =>
    have applied : Applied (token :: operators) := applied_cons.mpr (by simp [opens])
    rw [finishOperand_applied applied]
    exact ⟨⟨.opened before opens, fun _ => applied, more f _ rfl⟩, rfl⟩
  | @negated token operators before negates ih =>
    have same : connectives (token :: operators) = connectives operators :=
      connectives_cons_of_ne (by simp [negates])
    rw [finishOperand, if_pos negates, openGroups_cons_of_ne (by simp [negates])]
    refine ih ?_ fun g operators' equal => more g operators' (equal.trans same.symm)
    rw [← count, surplus, surplus, same]
  | @joined token c operators before fits joins =>
    have applied : Applied (token :: operators) := applied_cons.mpr (by simp [joins])
    rw [finishOperand_applied applied]
    exact ⟨⟨.joined before fits joins, fun _ => applied, more f _ rfl⟩, rfl⟩

/-! ### Reducing -/

theorem Balanced.reduce_top (balanced : Balanced .connective d ⟨top :: operators, operands⟩) (nonneg : 0 ≤ d)
    (closed : top.kind ≠ .lparen) : ∃ c t, top.kind = .connective c ∧ reduce top ⟨operators, operands⟩ = .ok t ∧
      Balanced .connective d t ∧ openGroups t.operators = openGroups (top :: operators) := by
  obtain opens | ⟨c, joins, fits⟩ := balanced.ordered.reducible (balanced.applied rfl)
  · exact absurd opens closed
  · have count := balanced.count
    simp only [surplus, connectives_cons_of_connective joins, Expecting.completed] at count
    match operands with
    | [] | [_] => simp only [List.length_nil, List.length_singleton] at count; omega
    | r :: l :: operands =>
      have applied := fits.applied c.precedence_lt_unary
      refine ⟨c, _, joins, reduce_connective joins, ?_, ?_⟩
      · rw [finishOperand_applied applied]
        refine ⟨balanced.ordered.tail, fun _ => applied, ?_⟩
        simp only [surplus, Expecting.completed, List.length_cons] at count ⊢
        omega
      · rw [finishOperand_applied applied, openGroups_cons_of_ne closed]

theorem reduceAbove_balanced (balanced : Balanced .connective d s) (nonneg : 0 ≤ d) (incoming : Int)
    (low : -1 ≤ incoming) : ∃ t, reduceAbove incoming s = .ok t ∧ Balanced .connective d t ∧
      Fits incoming t.operators ∧ openGroups t.operators = openGroups s.operators := by
  fun_induction reduceAbove incoming s with
  | case1 operands => exact ⟨_, rfl, balanced, fits_nil _, rfl⟩
  | case2 top operators operands opens =>
    exact ⟨_, rfl, balanced, fits_cons.mpr ⟨-1, by rw [opens]; rfl, low⟩, rfl⟩
  | case3 top operators operands closed noPrecedence =>
    obtain ⟨c, _, kind, _⟩ := balanced.reduce_top nonneg closed
    rw [kind] at noPrecedence
    cases noPrecedence
  | case4 top operators operands closed precedence known loose =>
    obtain ⟨c, _, kind, _⟩ := balanced.reduce_top nonneg closed
    rw [kind] at known
    obtain rfl : c.precedence = precedence := Option.some.inj known
    exact ⟨_, rfl, balanced, fits_cons.mpr ⟨_, by rw [kind]; rfl, loose⟩, rfl⟩
  | case5 top operators operands closed precedence known above stopped failed =>
    obtain ⟨c, t, _, ok, _⟩ := balanced.reduce_top nonneg closed
    rw [failed] at ok
    cases ok
  | case6 top operators operands closed precedence known above t reduced ih =>
    obtain ⟨c, t', _, ok, next, same⟩ := balanced.reduce_top nonneg closed
    obtain rfl : t = t' := Except.ok.inj (reduced.symm.trans ok)
    rw [← same]
    exact ih next

theorem closeGroup_balanced (balanced : Balanced .connective d s) (nonneg : 0 ≤ d) (token : Token) :
    (∃ t, closeGroup token s = .ok t ∧ Balanced .connective d t ∧
      openGroups s.operators = openGroups t.operators + 1) ∨
    (openGroups s.operators = 0 ∧
      ∃ left, closeGroup token s = .error ⟨Fault.unopenedGroup.on token, left⟩ ∧ Balanced .connective d left) := by
  fun_induction closeGroup token s with
  | case1 operands => exact Or.inr ⟨rfl, _, rfl, balanced⟩
  | case2 top operators opens =>
    have count := balanced.count
    simp only [surplus, Expecting.completed, List.length_nil] at count
    omega
  | case3 top operators opens f operands =>
    have count := balanced.count
    rw [surplus, connectives_cons_of_ne (by simp [opens])] at count
    have before : surplus ⟨operators, operands⟩ = d := by
      simp only [surplus, Expecting.completed, List.length_cons] at count ⊢
      omega
    obtain ⟨next, same⟩ := finishOperand_balanced (f := f) balanced.ordered.tail before
    exact Or.inl ⟨_, rfl, next, by rw [openGroups_cons_of_lparen opens, same]⟩
  | case4 top operators operands closed negates =>
    obtain ⟨c, _, kind, _⟩ := balanced.reduce_top nonneg closed
    rw [kind] at negates
    cases negates
  | case5 top operators operands closed _ stopped failed =>
    obtain ⟨c, t, _, ok, _⟩ := balanced.reduce_top nonneg closed
    rw [failed] at ok
    cases ok
  | case6 top operators operands closed _ t reduced ih =>
    obtain ⟨c, t', _, ok, next, same⟩ := balanced.reduce_top nonneg closed
    obtain rfl : t = t' := Except.ok.inj (reduced.symm.trans ok)
    rw [← same]
    exact ih next

/-! ### One token -/

theorem endFault_arises (s : Stacks) : Arises d .operand s.endFault := by
  cases operators : s.operators with
  | nil =>
    rw [endFault_empty operators]
    simp [Arises, Fault.expecting?]
  | cons top rest =>
    rw [endFault_cons operators]
    split <;> simp [Arises, Fault.on, Fault.expecting?]

theorem pushOperator_waiting (balanced : Balanced .operand d s)
    (waits : token.kind = .lparen ∨ token.kind = .not) : Balanced .operand d (s.pushOperator token) := by
  have same : connectives (token :: s.operators) = connectives s.operators :=
    connectives_cons_of_ne fun c joins => by rcases waits with kind | kind <;> rw [kind] at joins <;> cases joins
  refine ⟨?_, by simp, by rw [← balanced.count, surplus, surplus, pushOperator, same]⟩
  rcases waits with opens | negates
  · exact .opened balanced.ordered opens
  · exact .negated balanced.ordered negates

theorem pushOperator_connective {c : Connective} (balanced : Balanced .connective d s)
    (fits : Fits c.precedence s.operators) (joins : token.kind = .connective c) :
    Balanced .operand d (s.pushOperator token) := by
  have count := balanced.count
  refine ⟨.joined balanced.ordered fits joins, by simp, ?_⟩
  simp only [surplus, pushOperator, connectives_cons_of_connective joins, Expecting.completed] at count ⊢
  omega

theorem readOperand_balanced (balanced : Balanced .operand d s) (token : Token) :
    (∃ next t, s.readOperand token = .ok (next, t) ∧ token.kind ≠ .eof ∧ Balanced next d t) ∨
    (∃ failure, s.readOperand token = .error ⟨failure, s⟩ ∧ Arises d .operand failure) := by
  have count : s.surplus = d := by rw [balanced.count, Expecting.completed, Int.add_zero]
  have finished : ∀ f, Balanced .connective d (finishOperand f s.operands s.operators) :=
    fun f => (finishOperand_balanced balanced.ordered count).1
  cases kind : token.kind with
  | truth v =>
    refine Or.inl ⟨.connective, _, ?_, by simp, finished (.truth v)⟩
    simp only [readOperand, kind]
  | var =>
    cases index : token.index with
    | some i =>
      refine Or.inl ⟨.connective, _, ?_, by simp, finished (.var i)⟩
      simp only [readOperand, kind, index]
    | none =>
      refine Or.inr ⟨.breach .noIndex, ?_, trivial⟩
      simp only [readOperand, kind, index]
  | lparen =>
    refine Or.inl ⟨.operand, s.pushOperator token, ?_, by simp, pushOperator_waiting balanced (Or.inl kind)⟩
    simp only [readOperand, kind]
  | not =>
    refine Or.inl ⟨.operand, s.pushOperator token, ?_, by simp, pushOperator_waiting balanced (Or.inr kind)⟩
    simp only [readOperand, kind]
  | eof => exact Or.inr ⟨s.endFault, by simp only [readOperand, kind], endFault_arises s⟩
  | rparen =>
    refine Or.inr ⟨(if s.isOpen then Fault.expectedOperand else Fault.unopenedGroup).on token, ?_, ?_⟩
    · simp only [readOperand, kind]
    · cases s.isOpen <;> simp [Arises, Fault.on, Fault.expecting?]
  | connective c =>
    refine Or.inr ⟨Fault.expectedOperand.on token, by simp only [readOperand, kind], ?_⟩
    simp [Arises, Fault.on, Fault.expecting?]

theorem readConnective_balanced (balanced : Balanced .connective d s) (nonneg : 0 ≤ d) (token : Token) :
    (∃ next t, s.readConnective token = .ok (next, t) ∧ token.kind ≠ .eof ∧ Balanced next d t) ∨
    (token.kind = .eof ∧ ∃ t, s.readConnective token = .ok (.operand, t.pushOperator token) ∧
      Balanced .connective d t ∧ Fits (-1) t.operators ∧ openGroups t.operators = openGroups s.operators) ∨
    (∃ stopped, s.readConnective token = .error stopped ∧ Balanced .connective d stopped.left ∧
      Arises d .connective stopped.failure) := by
  cases kind : token.kind with
  | connective c =>
    obtain ⟨t, reduced, next, fits, _⟩ :=
      reduceAbove_balanced balanced nonneg c.precedence (Int.le_trans (by decide) c.precedence_nonneg)
    refine Or.inl ⟨.operand, t.pushOperator token, ?_, by simp, pushOperator_connective next fits kind⟩
    simp only [readConnective, kind, reduced, Except.map]
  | eof =>
    obtain ⟨t, reduced, next, fits, same⟩ := reduceAbove_balanced balanced nonneg (-1) (Int.le_refl _)
    refine Or.inr (Or.inl ⟨rfl, t, ?_, next, fits, same⟩)
    simp only [readConnective, kind, reduced, Except.map]
  | rparen =>
    obtain ⟨t, closed, next, _⟩ | ⟨_, left, failed, next⟩ := closeGroup_balanced balanced nonneg token
    · refine Or.inl ⟨.connective, t, ?_, by simp, next⟩
      simp only [readConnective, kind, closed, Except.map]
    · refine Or.inr (Or.inr ⟨⟨Fault.unopenedGroup.on token, left⟩, ?_, next, ?_⟩)
      · simp only [readConnective, kind, failed, Except.map]
      · simp [Arises, Fault.on, Fault.expecting?]
  | truth _ | var | lparen | not =>
    refine Or.inr (Or.inr ⟨⟨Fault.expectedConnective.on token, s⟩, ?_, balanced, ?_⟩)
    · simp only [readConnective, kind]
    · simp [Arises, Fault.on, Fault.expecting?]

/-- One token keeps the balance, unless it is the end of input after an operand: then it stands on operators
of which none can be reduced. -/
theorem step_balanced (balanced : Balanced e d s) (nonneg : 0 ≤ d) (token : Token) :
    (∃ next t, s.step e token = .ok (next, t) ∧ token.kind ≠ .eof ∧ Balanced next d t) ∨
    (e = .connective ∧ token.kind = .eof ∧ ∃ t, s.step e token = .ok (.operand, t.pushOperator token) ∧
      Balanced .connective d t ∧ Fits (-1) t.operators ∧ openGroups t.operators = openGroups s.operators) ∨
    (∃ stopped, s.step e token = .error stopped ∧ Balanced e d stopped.left ∧ Arises d e stopped.failure) := by
  cases e with
  | operand =>
    obtain ok | ⟨failure, failed, arises⟩ := readOperand_balanced balanced token
    · exact Or.inl ok
    · exact Or.inr (Or.inr ⟨⟨failure, s⟩, failed, balanced, arises⟩)
  | connective =>
    obtain ok | ⟨ends, ended⟩ | stopped := readConnective_balanced balanced nonneg token
    · exact Or.inl ok
    · exact Or.inr (Or.inl ⟨rfl, ends, ended⟩)
    · exact Or.inr (Or.inr stopped)

/-! ### One parse -/

theorem read_balanced (balanced : Balanced e d s) (nonneg : 0 ≤ d) (tokens : List Token) :
    (∃ t, read e tokens s = .ok t ∧ Balanced (lastExpecting e tokens s) d t) ∨
    (lastExpecting e tokens s = .connective ∧ ∃ stop t, stop.kind = .eof ∧
      read e tokens s = .ok (t.pushOperator stop) ∧ Balanced .connective d t ∧ Fits (-1) t.operators) ∨
    (∃ stopped, read e tokens s = .error stopped ∧ Balanced (lastExpecting e tokens s) d stopped.left ∧
      Arises d (lastExpecting e tokens s) stopped.failure) := by
  induction tokens generalizing e s with
  | nil => exact Or.inl ⟨s, rfl, balanced⟩
  | cons token rest ih =>
    obtain ⟨next, t, ok, notEnd, later⟩ | ⟨rfl, ends, t, ok, later, fits, _⟩ | ⟨stopped, failed, left, arises⟩ :=
      step_balanced balanced nonneg token
    · have last : lastExpecting e (token :: rest) s = lastExpecting next rest t := by
        simp only [lastExpecting, ok, notEnd, and_false, if_false]
      rw [read_step ok notEnd, last]
      exact ih later
    · have last : lastExpecting .connective (token :: rest) s = .connective := by
        simp only [lastExpecting, ok, ends, and_self, if_true]
      refine Or.inr (Or.inl ⟨last, token, t, ends, ?_, later, fits⟩)
      simp only [read, ok, ends, and_self, if_true]
    · have last : lastExpecting e (token :: rest) s = e := by simp only [lastExpecting, failed]
      rw [last]
      exact Or.inr (Or.inr ⟨stopped, read_stop failed, left, arises⟩)

/-- Without an end of input the topmost operator is lost, which may leave one more operand over. -/
theorem finish_without_end (balanced : Balanced e d s) : ∃ failure left d',
    finish s = .error ⟨failure, left⟩ ∧ Balanced .operand d' left ∧ d + e.completed ≤ d' ∧
      (failure = .breach .noEnd ∨ failure = .breach .topNotEnd) := by
  obtain ⟨operators, operands⟩ := s
  cases operators with
  | nil => exact ⟨_, _, _, rfl, balanced.restart, Int.le_refl _, Or.inl rfl⟩
  | cons top rest =>
    have count := balanced.count
    have kind : top.kind ≠ .eof := balanced.ordered.kind_ne_eof
    have failed : finish ⟨top :: rest, operands⟩ = .error ⟨.breach .topNotEnd, ⟨rest, operands⟩⟩ := by
      simp only [finish, ne_eq, kind, not_false_eq_true, if_true]
    refine ⟨_, _, surplus ⟨rest, operands⟩, failed, ⟨balanced.ordered.tail, by simp, ?_⟩, ?_, Or.inr rfl⟩
    · simp [Expecting.completed]
    · have fewer : connectives rest ≤ connectives (top :: rest) := (List.sublist_cons_self top rest).countP_le
      simp only [surplus] at count ⊢
      omega

theorem finish_at_end {stop : Token} (balanced : Balanced .connective d s) (nonneg : 0 ≤ d)
    (fits : Fits (-1) s.operators) (ends : stop.kind = .eof) :
    (d = 0 ∧ ∃ f, finish (s.pushOperator stop) = .ok (f, {})) ∨
    ((0 < d ∨ openGroups s.operators ≠ 0) ∧ ∃ failure left, finish (s.pushOperator stop) = .error ⟨failure, left⟩ ∧
      Balanced .operand (d + 1) left ∧ Arises d .connective failure) := by
  obtain ⟨operators, operands⟩ := s
  have count := balanced.count
  cases operators with
  | nil =>
    simp only [surplus, Expecting.completed] at count
    match operands with
    | [root] =>
      have zero : d = 0 := by simp [connectives] at count; omega
      exact Or.inl ⟨zero, root, by simp [finish, pushOperator, ends]⟩
    | [] => simp [connectives] at count; omega
    | f :: g :: rest =>
      have more : 0 < d := by simp [connectives] at count; omega
      refine Or.inr ⟨Or.inl more, .breach .noSingleRoot, ⟨[], f :: g :: rest⟩, ?_, balanced.restart, more⟩
      simp [finish, pushOperator, ends]
  | cons top rest =>
    obtain opens | ⟨c, _, loose⟩ := fits.top (applied_cons.mp (balanced.applied rfl))
    · have opened : openGroups (top :: rest) ≠ 0 := by simp [openGroups_cons_of_lparen opens]
      refine Or.inr ⟨Or.inr opened, Fault.unclosedAtEnd.on top, ⟨rest, operands⟩, ?_,
        ⟨balanced.ordered.tail, by simp, ?_⟩, ?_⟩
      · simp [finish, pushOperator, ends, opens]
      · rw [surplus, connectives_cons_of_ne (by simp [opens])] at count
        simp only [surplus, Expecting.completed] at count ⊢
        omega
      · simp [Arises, Fault.on, Fault.expecting?]
    · have tight := c.precedence_nonneg
      omega

end Stacks

end Propositional
