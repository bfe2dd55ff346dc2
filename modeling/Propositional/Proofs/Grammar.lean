import Mathlib.Data.List.Forall2
import Propositional.Formula
import Propositional.Token

/-!
# The grammar of formulas

A chain joins operands of the next tighter level by one connective and groups to the right; below the
chains stand negations and atoms. `Derives` ties a list of tokens to the formula it spells; parentheses
leave no trace in it. `Derives.loosen` says that a tightly bound list may stand wherever a looser one
may, `Derives.unclosed_append` that derived lists are balanced.
-/

namespace Propositional

inductive Nonterminal where
  | chain (c : Connective)
  | unary
  | atom
  deriving DecidableEq

def Connective.operand : Connective → Nonterminal
  | iff => .chain .implies
  | implies => .chain .or
  | or => .chain .and
  | and => .unary

namespace Nonterminal

def start : Nonterminal :=
  .chain .iff

/-- A larger number binds tighter; on chains it is the precedence of the connective. -/
def rank : Nonterminal → Int
  | chain c => c.precedence
  | unary => 4
  | atom => 5

theorem rank_operand (c : Connective) : c.operand.rank = c.precedence + 1 := by
  cases c <;> rfl

theorem rank_injective {m n : Nonterminal} (h : m.rank = n.rank) : m = n := by
  cases m with
  | chain c =>
    cases n with
    | chain d => exact congrArg chain (Connective.precedence_injective h)
    | unary | atom => cases c <;> cases h
  | unary | atom =>
    cases n with
    | chain d => cases d <;> cases h
    | unary | atom => first | rfl | cases h

theorem rank_le_atom (n : Nonterminal) : n.rank ≤ atom.rank := by
  cases n with
  | chain c => cases c <;> decide
  | unary | atom => decide

theorem rank_start_le (n : Nonterminal) : start.rank ≤ n.rank := by
  cases n with
  | chain c => exact c.precedence_nonneg
  | unary | atom => decide

end Nonterminal

theorem Connective.precedence_lt_unary (c : Connective) : c.precedence < Nonterminal.unary.rank := by
  cases c <;> decide

variable {ν : Type}

/-- The symbol derives the tokens, and the formula is the tree of the derivation. A variable token
stands for the variable that `leaf` reads from it. -/
inductive Derives (leaf : Token → Option ν) : Nonterminal → List Token → Formula ν → Prop where
  | single {c : Connective} {tokens : List Token} {f : Formula ν}
      (operand : Derives leaf c.operand tokens f) : Derives leaf (.chain c) tokens f
  | chain {c : Connective} {sign : Token} {ls rs : List Token} {l r : Formula ν}
      (left : Derives leaf c.operand ls l) (joins : sign.kind = .connective c)
      (right : Derives leaf (.chain c) rs r) : Derives leaf (.chain c) (ls ++ sign :: rs) (.binary c l r)
  | not {sign : Token} {tokens : List Token} {f : Formula ν} (negates : sign.kind = .not)
      (operand : Derives leaf .unary tokens f) : Derives leaf .unary (sign :: tokens) (.not f)
  | atom {tokens : List Token} {f : Formula ν} (single : Derives leaf .atom tokens f) :
      Derives leaf .unary tokens f
  | truth {token : Token} {v : Bool} (constant : token.kind = .truth v) :
      Derives leaf .atom [token] (.truth v)
  | var {token : Token} {i : ν} (named : token.kind = .var) (stands : leaf token = some i) :
      Derives leaf .atom [token] (.var i)
  | group {opening closing : Token} {tokens : List Token} {f : Formula ν}
      (opens : opening.kind = .lparen) (inner : Derives leaf .start tokens f)
      (closes : closing.kind = .rparen) : Derives leaf .atom (opening :: tokens ++ [closing]) f

theorem exists_append_of_forall₂ {α β : Type} {R : α → β → Prop} {xs ys : List α} {zs : List β}
    (places : List.Forall₂ R (xs ++ ys) zs) :
    ∃ us vs, List.Forall₂ R xs us ∧ List.Forall₂ R ys vs ∧ zs = us ++ vs := by
  induction xs generalizing zs with
  | nil => exact ⟨[], zs, .nil, places, rfl⟩
  | cons x xs ih =>
    obtain ⟨z, zs, same, after, rfl⟩ := List.forall₂_cons_left_iff.mp places
    obtain ⟨us, vs, left, right, rfl⟩ := ih after
    exact ⟨z :: us, vs, .cons same left, right, rfl⟩

namespace Derives

variable {leaf : Token → Option ν} {m n : Nonterminal} {tokens : List Token} {f : Formula ν}

theorem loosen (h : Derives leaf n tokens f) (looser : m.rank ≤ n.rank) : Derives leaf m tokens f := by
  obtain ⟨k, hk⟩ : ∃ k : Nat, n.rank = m.rank + k := ⟨(n.rank - m.rank).toNat, by omega⟩
  -- One rule for each level between the two symbols.
  induction k generalizing m with
  | zero =>
    obtain rfl : n = m := Nonterminal.rank_injective (by omega)
    exact h
  | succ k ih =>
    cases m with
    | chain c =>
      have next := Nonterminal.rank_operand c
      have level : (Nonterminal.chain c).rank = c.precedence := rfl
      exact .single (ih (by omega) (by omega))
    | unary =>
      have next : Nonterminal.atom.rank = Nonterminal.unary.rank + 1 := rfl
      exact .atom (ih (by omega) (by omega))
    | atom =>
      have bound := n.rank_le_atom
      omega

theorem kind_ne_eof (h : Derives leaf n tokens f) : ∀ token ∈ tokens, token.kind ≠ .eof := by
  induction h with
  | single _ ih | atom _ ih => exact ih
  | chain _ joins _ ihl ihr =>
    intro token member
    rcases List.mem_append.mp member with left | right
    · exact ihl token left
    · rcases List.mem_cons.mp right with rfl | right
      · simp [joins]
      · exact ihr token right
  | not negates _ ih =>
    intro token member
    rcases List.mem_cons.mp member with rfl | member
    · simp [negates]
    · exact ih token member
  | truth kind | var kind _ => simp [kind]
  | group opens _ closes ih =>
    intro token member
    simp only [List.cons_append, List.mem_cons, List.mem_append, List.not_mem_nil, or_false] at member
    rcases member with rfl | inner | rfl
    · simp [opens]
    · exact ih token inner
    · simp [closes]

/-- The variables of the formula are what the variable tokens stand for, in order. -/
theorem leaves_eq (h : Derives leaf n tokens f) :
    (tokens.filter (·.kind = .var)).map leaf = f.leaves.map some := by
  induction h with
  | single _ ih | atom _ ih => exact ih
  | chain _ joins _ ihl ihr => simp [joins, ihl, ihr, Formula.leaves]
  | not negates _ ih => simp [negates, ih, Formula.leaves]
  | truth kind => simp [kind, Formula.leaves]
  | var kind stands => simp [kind, stands, Formula.leaves]
  | group opens _ closes ih => simp [opens, closes, ih]

/-- Tokens may be replaced by others of the same kind, and variables renamed with them. -/
theorem related {μ : Type} {leaf' : Token → Option μ} {R : Token → Token → Prop} {rename : ν → μ} {others : List Token}
    (h : Derives leaf n tokens f) (kinds : ∀ x y, R x y → y.kind = x.kind)
    (stands : ∀ x y, R x y → x.kind = .var → ∀ i, leaf x = some i → leaf' y = some (rename i))
    (places : List.Forall₂ R tokens others) : Derives leaf' n others (f.map rename) := by
  induction h generalizing others with
  | single _ ih => exact .single (ih places)
  | atom _ ih => exact .atom (ih places)
  | chain _ joins _ ihl ihr =>
    obtain ⟨lefts, rest, left, after, rfl⟩ := exists_append_of_forall₂ places
    obtain ⟨sign, rights, same, right, rfl⟩ := List.forall₂_cons_left_iff.mp after
    exact .chain (ihl left) ((kinds _ _ same).trans joins) (ihr right)
  | not negates _ ih =>
    obtain ⟨sign, operand, same, after, rfl⟩ := List.forall₂_cons_left_iff.mp places
    exact .not ((kinds _ _ same).trans negates) (ih after)
  | truth constant =>
    obtain ⟨token, rest, same, after, rfl⟩ := List.forall₂_cons_left_iff.mp places
    obtain rfl := List.forall₂_nil_left_iff.mp after
    exact .truth ((kinds _ _ same).trans constant)
  | var named found =>
    obtain ⟨token, rest, same, after, rfl⟩ := List.forall₂_cons_left_iff.mp places
    obtain rfl := List.forall₂_nil_left_iff.mp after
    exact .var ((kinds _ _ same).trans named) (stands _ _ same named _ found)
  | group opens _ closes ih =>
    obtain ⟨before, after, front, back, rfl⟩ := exists_append_of_forall₂ places
    obtain ⟨opening, inside, same, inner, rfl⟩ := List.forall₂_cons_left_iff.mp front
    obtain ⟨closing, rest, same', nothing, rfl⟩ := List.forall₂_cons_left_iff.mp back
    obtain rfl := List.forall₂_nil_left_iff.mp nothing
    exact .group ((kinds _ _ same).trans opens) (ih inner) ((kinds _ _ same').trans closes)

theorem relabel {μ : Type} {leaf' : Token → Option μ} {g : Token → Token} {rename : ν → μ}
    (kinds : ∀ token, (g token).kind = token.kind) (h : Derives leaf n tokens f)
    (stands : ∀ token ∈ tokens, token.kind = .var → ∀ i, leaf token = some i → leaf' (g token) = some (rename i)) :
    Derives leaf' n (tokens.map g) (f.map rename) := by
  let R := fun x y : Token => x ∈ tokens ∧ y = g x
  have places : List.Forall₂ R tokens (tokens.map g) := by
    rw [List.forall₂_map_right_iff, List.forall₂_same]
    exact fun token member => ⟨member, rfl⟩
  refine h.related (R := R) ?_ ?_ places
  · rintro x _ ⟨_, rfl⟩
    exact kinds x
  · rintro x _ ⟨member, rfl⟩
    exact stands x member

end Derives

/-! ### Open parentheses -/

/-- The parentheses that are open after one more token, the innermost first. -/
def trackGroups (opened : List Token) (token : Token) : List Token :=
  match token.kind with
  | .lparen => token :: opened
  | .rparen => opened.tail
  | _ => opened

/-- The parentheses that the tokens leave open, the innermost first. -/
def unclosed (tokens : List Token) : List Token :=
  tokens.foldl trackGroups []

theorem unclosed_concat (tokens : List Token) (token : Token) :
    unclosed (tokens ++ [token]) = trackGroups (unclosed tokens) token := by
  simp [unclosed]

theorem Derives.foldl_trackGroups {leaf : Token → Option ν} {n : Nonterminal} {tokens : List Token}
    {f : Formula ν} (h : Derives leaf n tokens f) (opened : List Token) :
    tokens.foldl trackGroups opened = opened := by
  induction h generalizing opened with
  | single _ ih | atom _ ih => exact ih opened
  | chain _ joins _ ihl ihr => rw [List.foldl_append, ihl, List.foldl_cons, ihr]; simp [trackGroups, joins]
  | not negates _ ih => rw [List.foldl_cons, ih]; simp [trackGroups, negates]
  | truth kind | var kind _ => simp [trackGroups, kind]
  | group opens _ closes ih =>
    simp only [List.cons_append, List.foldl_cons, List.foldl_append, List.foldl_nil, ih]
    simp [trackGroups, opens, closes]

theorem Derives.unclosed_append {leaf : Token → Option ν} {n : Nonterminal} {tokens : List Token}
    {f : Formula ν} (h : Derives leaf n tokens f) (before : List Token) :
    unclosed (before ++ tokens) = unclosed before := by
  rw [unclosed, List.foldl_append]
  exact h.foldl_trackGroups _

end Propositional
