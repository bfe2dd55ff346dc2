import Mathlib.Data.List.Forall2
import Propositional.Stacks

/-!
# Tokens that only their places tell apart

The parser looks at the kind and at the index of a token and at nothing else. So two lists of tokens that
agree in these give the same formula or fail in the same way (`parse_alike`), and where the one parse blames
a token the other blames the token at the same place (`parseTokens_alike`).
-/

namespace Propositional

/-- Two results of the same kind, with related values or related errors. -/
inductive Agree {ε α : Type} (E : ε → ε → Prop) (V : α → α → Prop) : Except ε α → Except ε α → Prop where
  | ok {a b : α} (values : V a b) : Agree E V (.ok a) (.ok b)
  | error {e f : ε} (errors : E e f) : Agree E V (.error e) (.error f)

theorem Agree.bind {ε α β : Type} {E : ε → ε → Prop} {V : α → α → Prop} {W : β → β → Prop} {x y : Except ε α}
    {f g : α → Except ε β} (agree : Agree E V x y) (next : ∀ a b, V a b → Agree E W (f a) (g b)) :
    Agree E W (x.bind f) (y.bind g) := by
  cases agree with
  | ok values => exact next _ _ values
  | error errors => exact .error errors

theorem Agree.map {ε α β : Type} {E : ε → ε → Prop} {V : α → α → Prop} {W : β → β → Prop} {x y : Except ε α}
    {f g : α → β} (agree : Agree E V x y) (next : ∀ a b, V a b → W (f a) (g b)) :
    Agree E W (x.map f) (y.map g) := by
  cases agree with
  | ok values => exact .ok (next _ _ values)
  | error errors => exact .error errors

theorem Agree.of_ok {ε α : Type} {E : ε → ε → Prop} {V : α → α → Prop} {a : α} {y : Except ε α}
    (agree : Agree E V (.ok a) y) : ∃ b, y = .ok b ∧ V a b := by
  cases agree with
  | ok values => exact ⟨_, rfl, values⟩

theorem Agree.of_error {ε α : Type} {E : ε → ε → Prop} {V : α → α → Prop} {e : ε} {y : Except ε α}
    (agree : Agree E V (.error e) y) : ∃ f, y = .error f ∧ E e f := by
  cases agree with
  | error errors => exact ⟨_, rfl, errors⟩

/-- The parser cannot tell the tokens apart. -/
structure Token.Alike (x y : Token) : Prop where
  kind : x.kind = y.kind
  index : x.index = y.index

section Related

variable (R : Token → Token → Prop)

/-- The same failure, on related tokens if it is on one. -/
inductive Failure.Alike : Failure → Failure → Prop where
  | on {x y : Token} (fault : Fault) (related : R x y) : Alike (fault.on x) (fault.on y)
  | empty : Alike (.fault .emptyFormula 0 0) (.fault .emptyFormula 0 0)
  | breach (breach : Breach) : Alike (.breach breach) (.breach breach)
  | noPrecedence (kind : Token.Kind) : Alike (.noPrecedence kind) (.noPrecedence kind)
  | noConnective (kind : Token.Kind) : Alike (.noConnective kind) (.noConnective kind)

inductive Stacks.Alike : Stacks → Stacks → Prop where
  | intro {xs ys : List Token} (operands : List (Formula Int)) (operators : List.Forall₂ R xs ys) :
      Alike ⟨xs, operands⟩ ⟨ys, operands⟩

/-- The same value beside stacks that are alike. -/
structure Stacks.AlikeBeside {α : Type} (p q : α × Stacks) : Prop where
  value : p.1 = q.1
  left : Stacks.Alike R p.2 q.2

structure Stopped.Alike (p q : Stopped) : Prop where
  failure : Failure.Alike R p.failure q.failure
  left : Stacks.Alike R p.left q.left

end Related

namespace Stacks

variable {R : Token → Token → Prop}

theorem Alike.of_nil {operands : List (Formula Int)} {t : Stacks} (alike : Alike R ⟨[], operands⟩ t) :
    t = ⟨[], operands⟩ := by
  obtain ⟨_, operators⟩ := alike
  rw [List.forall₂_nil_left_iff.mp operators]

theorem Alike.of_cons {x : Token} {xs : List Token} {operands : List (Formula Int)} {t : Stacks}
    (alike : Alike R ⟨x :: xs, operands⟩ t) :
    ∃ y ys, t = ⟨y :: ys, operands⟩ ∧ R x y ∧ List.Forall₂ R xs ys := by
  obtain ⟨_, operators⟩ := alike
  obtain ⟨y, ys, related, rest, rfl⟩ := List.forall₂_cons_left_iff.mp operators
  exact ⟨y, ys, rfl, related, rest⟩

variable (same : ∀ x y, R x y → Token.Alike x y)
  {xs ys : List Token} {x y : Token} {s t : Stacks}

include same

theorem finishOperand_alike (f : Formula Int) (operands : List (Formula Int)) (operators : List.Forall₂ R xs ys) :
    Alike R (finishOperand f operands xs) (finishOperand f operands ys) := by
  induction operators generalizing f with
  | nil => exact ⟨[f] ++ operands, .nil⟩
  | cons related rest ih =>
    rw [finishOperand, finishOperand, (same _ _ related).kind]
    split
    · exact ih _
    · exact ⟨f :: operands, .cons related rest⟩

theorem reduce_alike (related : R x y) (alike : Alike R s t) :
    Agree (Stopped.Alike R) (Alike R) (reduce x s) (reduce y t) := by
  cases alike with
  | intro operands operators =>
    match operands with
    | [] | [_] => exact .error ⟨.breach _, .intro _ operators⟩
    | r :: l :: operands =>
      simp only [reduce, (same _ _ related).kind]
      cases y.kind.connective? with
      | none => exact .error ⟨.noConnective _, .intro _ operators⟩
      | some c => exact .ok (finishOperand_alike same _ _ operators)

theorem reduceAbove_alike (incoming : Int) (alike : Alike R s t) :
    Agree (Stopped.Alike R) (Alike R) (reduceAbove incoming s) (reduceAbove incoming t) := by
  fun_induction reduceAbove incoming s generalizing t with
  | case1 operands =>
    obtain rfl := alike.of_nil
    rw [reduceAbove]
    exact .ok alike
  | case2 top operators operands opens =>
    obtain ⟨y, ys, rfl, related, rest⟩ := alike.of_cons
    rw [reduceAbove, ← (same _ _ related).kind, if_pos opens]
    exact .ok alike
  | case3 top operators operands closed unknown =>
    obtain ⟨y, ys, rfl, related, rest⟩ := alike.of_cons
    rw [reduceAbove, ← (same _ _ related).kind, if_neg closed]
    simp only [unknown]
    exact .error ⟨.noPrecedence _, alike⟩
  | case4 top operators operands closed precedence known loose =>
    obtain ⟨y, ys, rfl, related, rest⟩ := alike.of_cons
    rw [reduceAbove, ← (same _ _ related).kind, if_neg closed]
    simp only [known, if_pos loose]
    exact .ok alike
  | case5 top operators operands closed precedence known above stopped failed =>
    obtain ⟨y, ys, rfl, related, rest⟩ := alike.of_cons
    have agree := reduce_alike same related (.intro operands rest)
    rw [failed] at agree
    obtain ⟨stopped', failed', errors⟩ := agree.of_error
    rw [(same _ _ related).kind] at closed known
    rw [reduceAbove_tight closed known above, failed']
    exact .error errors
  | case6 top operators operands closed precedence known above t reduced ih =>
    obtain ⟨y, ys, rfl, related, rest⟩ := alike.of_cons
    have agree := reduce_alike same related (.intro operands rest)
    rw [reduced] at agree
    obtain ⟨t', reduced', values⟩ := agree.of_ok
    rw [(same _ _ related).kind] at closed known
    rw [reduceAbove_tight closed known above, reduced']
    exact ih values

theorem closeGroup_alike {token token' : Token} (tokens : R token token') (alike : Alike R s t) :
    Agree (Stopped.Alike R) (Alike R) (closeGroup token s) (closeGroup token' t) := by
  fun_induction closeGroup token s generalizing t with
  | case1 operands =>
    obtain rfl := alike.of_nil
    rw [closeGroup]
    exact .error ⟨.on _ tokens, alike⟩
  | case2 top operators opens =>
    obtain ⟨y, ys, rfl, related, rest⟩ := alike.of_cons
    rw [closeGroup, ← (same _ _ related).kind, if_pos opens]
    exact .error ⟨.breach _, .intro _ rest⟩
  | case3 top operators opens f operands =>
    obtain ⟨y, ys, rfl, related, rest⟩ := alike.of_cons
    rw [closeGroup, ← (same _ _ related).kind, if_pos opens]
    exact .ok (finishOperand_alike same _ _ rest)
  | case4 top operators operands closed negates =>
    obtain ⟨y, ys, rfl, related, rest⟩ := alike.of_cons
    rw [(same _ _ related).kind] at closed negates
    rw [closeGroup.eq_def]
    simp only [if_neg closed, if_pos negates]
    exact .error ⟨.breach _, .intro _ rest⟩
  | case5 top operators operands closed binary stopped failed =>
    obtain ⟨y, ys, rfl, related, rest⟩ := alike.of_cons
    have agree := reduce_alike same related (.intro operands rest)
    rw [failed] at agree
    obtain ⟨stopped', failed', errors⟩ := agree.of_error
    rw [(same _ _ related).kind] at closed binary
    rw [closeGroup_tight closed binary, failed']
    exact .error errors
  | case6 top operators operands closed binary t reduced ih =>
    obtain ⟨y, ys, rfl, related, rest⟩ := alike.of_cons
    have agree := reduce_alike same related (.intro operands rest)
    rw [reduced] at agree
    obtain ⟨t', reduced', values⟩ := agree.of_ok
    rw [(same _ _ related).kind] at closed binary
    rw [closeGroup_tight closed binary, reduced']
    exact ih values

theorem endFault_alike (alike : Alike R s t) : Failure.Alike R s.endFault t.endFault := by
  obtain ⟨operands, operators⟩ := alike
  cases operators with
  | nil => exact .empty
  | cons related rest =>
    rw [endFault_cons rfl, endFault_cons rfl, (same _ _ related).kind]
    split
    · exact .on _ related
    · exact .on _ related

theorem isOpen_alike (alike : Alike R s t) : s.isOpen = t.isOpen := by
  obtain ⟨operands, operators⟩ := alike
  induction operators with
  | nil => rfl
  | cons related rest ih =>
    simp only [isOpen, List.any_cons, (same _ _ related).kind] at ih ⊢
    rw [ih]

theorem readOperand_alike (related : R x y) (alike : Alike R s t) :
    Agree (Stopped.Alike R) (AlikeBeside R) (s.readOperand x) (t.readOperand y) := by
  obtain ⟨kind, index⟩ := same _ _ related
  have finished : ∀ f,
      Alike R (finishOperand f s.operands s.operators) (finishOperand f t.operands t.operators) := by
    obtain ⟨operands, operators⟩ := alike
    exact fun f => finishOperand_alike same f operands operators
  have pushed : Alike R (s.pushOperator x) (t.pushOperator y) := by
    obtain ⟨operands, operators⟩ := alike
    exact .intro operands (.cons related operators)
  simp only [readOperand, kind, index, isOpen_alike same alike]
  cases y.kind with
  | truth v => exact .ok ⟨rfl, finished _⟩
  | var =>
    cases y.index with
    | some i => exact .ok ⟨rfl, finished _⟩
    | none => exact .error ⟨.breach _, alike⟩
  | lparen | not => exact .ok ⟨rfl, pushed⟩
  | eof => exact .error ⟨endFault_alike same alike, alike⟩
  | rparen | connective _ => exact .error ⟨.on _ related, alike⟩

theorem readConnective_alike (related : R x y) (alike : Alike R s t) :
    Agree (Stopped.Alike R) (AlikeBeside R) (s.readConnective x) (t.readConnective y) := by
  have pushed : ∀ s t, Alike R s t → Alike R (s.pushOperator x) (t.pushOperator y) := by
    rintro _ _ ⟨operands, operators⟩
    exact .intro operands (.cons related operators)
  simp only [readConnective, (same _ _ related).kind]
  cases y.kind with
  | connective c => exact (reduceAbove_alike same _ alike).map fun _ _ later => ⟨rfl, pushed _ _ later⟩
  | eof => exact (reduceAbove_alike same _ alike).map fun _ _ later => ⟨rfl, pushed _ _ later⟩
  | rparen => exact (closeGroup_alike same related alike).map fun _ _ later => ⟨rfl, later⟩
  | truth _ | var | lparen | not => exact .error ⟨.on _ related, alike⟩

theorem step_alike (e : Expecting) (related : R x y) (alike : Alike R s t) :
    Agree (Stopped.Alike R) (AlikeBeside R) (s.step e x) (t.step e y) := by
  cases e with
  | operand => exact readOperand_alike same related alike
  | connective => exact readConnective_alike same related alike

theorem read_alike (e : Expecting) (alike : Alike R s t) (tokens : List.Forall₂ R xs ys) :
    Agree (Stopped.Alike R) (Alike R) (read e xs s) (read e ys t) := by
  induction tokens generalizing e s t with
  | nil => exact .ok alike
  | @cons x y _ _ related rest ih =>
    rw [read_cons, read_cons, (same _ _ related).kind]
    refine (step_alike same e related alike).bind ?_
    rintro ⟨next, left⟩ ⟨next', left'⟩ ⟨rfl, later⟩
    by_cases ends : e = .connective ∧ y.kind = .eof
    · simp only [if_pos ends]
      exact .ok later
    · simp only [if_neg ends]
      exact ih next later

theorem finish_alike (alike : Alike R s t) :
    Agree (Stopped.Alike R) (AlikeBeside R) (finish s) (finish t) := by
  obtain ⟨operands, operators⟩ := alike
  cases operators with
  | nil => exact .error ⟨.breach _, .intro _ .nil⟩
  | cons related rest =>
    simp only [finish, (same _ _ related).kind]
    split
    · exact .error ⟨.breach _, .intro _ rest⟩
    · cases rest with
      | cons pending outer =>
        refine .error ⟨?_, .intro _ outer⟩
        rw [(same _ _ pending).kind]
        split
        · exact .on _ pending
        · exact .breach _
      | nil =>
        match operands with
        | [root] => exact .ok ⟨rfl, .intro _ .nil⟩
        | [] | _ :: _ :: _ => exact .error ⟨.breach _, .intro _ .nil⟩

/-- Tokens that are alike give the same formula or the same failure, on any stacks that are alike. -/
theorem parse_alike (alike : Alike R s t) (tokens : List.Forall₂ R xs ys) :
    Agree (Failure.Alike R) Eq (s.parse xs).1 (t.parse ys).1 ∧ Alike R (s.parse xs).2 (t.parse ys).2 := by
  have run := (read_alike same .operand alike tokens).bind fun _ _ left => finish_alike same left
  simp only [parse]
  generalize (s.read .operand xs).bind finish = first, (t.read .operand ys).bind finish = second at run ⊢
  cases run with
  | ok values => exact ⟨.ok values.value, values.left⟩
  | error errors => exact ⟨.error errors.failure, errors.left⟩

end Stacks

/-! ### Places -/

/-- The tokens are alike and stand at the same place of two lists. -/
def SamePlace (xs ys : List Token) (x y : Token) : Prop :=
  Token.Alike x y ∧ ∃ k : Nat, xs[k]? = some x ∧ ys[k]? = some y

theorem forall₂_samePlace {xs ys : List Token}
    (alike : List.Forall₂ Token.Alike xs ys) :
    List.Forall₂ (SamePlace xs ys) xs ys := by
  obtain ⟨lengths, pairs⟩ := List.forall₂_iff_get.mp alike
  refine List.forall₂_iff_get.mpr ⟨lengths, fun k inside inside' => ⟨pairs k inside inside', k, ?_, ?_⟩⟩
  · exact List.getElem?_eq_getElem inside
  · exact List.getElem?_eq_getElem inside'

/-- Two lists of tokens that are alike give the same formula, or fail at the same place, or
fail in a way that blames no token. -/
theorem parseTokens_alike {xs ys : List Token}
    (alike : List.Forall₂ Token.Alike xs ys) :
    (∃ f, parseTokens xs = .ok f ∧ parseTokens ys = .ok f) ∨
    (∃ (fault : Fault) (k : Nat) (x y : Token), xs[k]? = some x ∧ ys[k]? = some y ∧
      parseTokens xs = .error (fault.on x) ∧ parseTokens ys = .error (fault.on y)) ∨
    ∃ failure, parseTokens xs = .error failure ∧ parseTokens ys = .error failure ∧
      ∀ fault start stop, failure = .fault fault start stop → failure = .fault .emptyFormula 0 0 := by
  have agree : Agree (Failure.Alike (SamePlace xs ys)) Eq (parseTokens xs) (parseTokens ys) :=
    (Stacks.parse_alike (fun _ _ related => related.1) (.intro [] .nil) (forall₂_samePlace alike)).1
  generalize parseTokens xs = first, parseTokens ys = second at agree ⊢
  cases agree with
  | @ok f g values =>
    subst values
    exact Or.inl ⟨f, rfl, rfl⟩
  | error failures =>
    cases failures with
    | @on x y fault related =>
      obtain ⟨_, k, here, there⟩ := related
      exact Or.inr (Or.inl ⟨fault, k, x, y, here, there, rfl, rfl⟩)
    | empty => exact Or.inr (Or.inr ⟨_, rfl, rfl, fun _ _ _ _ => rfl⟩)
    | breach | noPrecedence | noConnective => exact Or.inr (Or.inr ⟨_, rfl, rfl, by simp⟩)

end Propositional
