import Propositional.Proofs.Token.Munch

/-!
# Texts put together

The longest lexemes of a text stay what they are when the text stands further along (`Munch.shift`) or when
more text follows that no lexeme runs into (`Munch.append`).
-/

namespace Propositional.Token

/-- The token of the same lexeme `d` characters later. -/
def shift (d : Nat) (token : Token) : Token :=
  { token with start := token.start + d, stop := token.stop + d }

theorem kind_shift (d : Nat) (token : Token) : (shift d token).kind = token.kind :=
  rfl

/-- A lexeme that has the character begins with it. -/
def Separates (c : Char) : Prop :=
  ∀ w k, IsLexeme w k → c ∉ w.tail

variable {p q : Nat} {text left rest : List Char} {tokens : List Token}

theorem Munch.shift (h : Munch p text tokens q left) (d : Nat) :
    Munch (p + d) text (tokens.map (shift d)) (q + d) left := by
  induction h with
  | done => exact .done
  | @blank p q c text left tokens blank _ ih =>
    rw [show p + 1 + d = p + d + 1 by omega] at ih
    exact .blank blank ih
  | @lexeme p q w text left k tokens longest _ ih =>
    have later : p + w.length + d = p + d + w.length := by omega
    rw [later] at ih
    have moved : Token.shift d ⟨k, p, (p + w.length : Nat), String.ofList w, none⟩ =
        ⟨k, (p + d : Nat), (p + d + w.length : Nat), String.ofList w, none⟩ := by
      simp only [Token.shift, Token.mk.injEq, true_and, and_true]
      omega
    rw [List.map_cons, moved]
    exact .lexeme longest ih

/-! ### Separating characters -/

theorem separates_head {c : Char} (separates : Separates c) (chars : List Char) :
    ∀ d ∈ (c :: chars).head?, Separates d := by
  intro d head
  obtain rfl := Option.some.inj head
  exact separates

theorem separates_of_blank {c : Char} (blank : isBlank c = true) : Separates c := by
  intro w k lexeme member
  have solid := (lexeme.chars.2 c (List.mem_of_mem_tail member)).2
  rw [blank] at solid
  cases solid

theorem symbols_rparen : ∀ symbol ∈ symbols, ')' ∉ symbol.1.tail := by
  decide

theorem separates_rparen : Separates ')' := by
  intro w k lexeme member
  rcases lexeme with symbol | ⟨word, _⟩
  · exact symbols_rparen _ symbol member
  · have part := word.2 ')' (List.mem_of_mem_tail member)
    cases part

theorem IsLongest.append {w : List Char} {k : Kind} (longest : IsLongest text w k)
    (seam : ∀ c ∈ rest.head?, Separates c) : IsLongest (text ++ rest) w k := by
  obtain ⟨lexeme, starts, longer⟩ := longest
  refine ⟨lexeme, starts.trans (List.prefix_append text rest), fun other kind lexeme' begins => ?_⟩
  rcases List.prefix_or_prefix_of_prefix begins (List.prefix_append text rest) with inside | ⟨extra, split⟩
  · exact longer other kind lexeme' inside
  · -- A lexeme that goes on behind the text would have the separating character in its middle.
    subst split
    cases extra with
    | nil => exact longer _ kind lexeme' (by simp)
    | cons c extra =>
      obtain ⟨after, rfl⟩ := (List.prefix_append_right_inj text).mp begins
      have nonempty : text ≠ [] := by
        rintro rfl
        exact lexeme.chars.1 (List.prefix_nil.mp starts)
      have inner : c ∈ (text ++ c :: extra).tail := by
        rw [List.tail_append_of_ne_nil nonempty]
        exact List.mem_append_right _ List.mem_cons_self
      exact absurd inner (seam c rfl _ kind lexeme')

/-- A whole lexeme is the longest one in front of a separating character. -/
theorem IsLexeme.isLongest {w : List Char} {k : Kind} (lexeme : IsLexeme w k)
    (seam : ∀ c ∈ rest.head?, Separates c) : IsLongest (w ++ rest) w k := by
  have alone : IsLongest w w k := ⟨lexeme, List.prefix_refl w, fun _ _ _ begins => begins.length_le⟩
  exact alone.append seam

theorem Munch.append (h : Munch p text tokens q left) (seam : ∀ c ∈ rest.head?, Separates c) :
    Munch p (text ++ rest) tokens q (left ++ rest) := by
  induction h with
  | done => exact .done
  | blank blank _ ih => exact .blank blank ih
  | lexeme longest _ ih =>
    have longest' := longest.append seam
    rw [List.append_assoc] at longest' ⊢
    exact .lexeme longest' ih

end Propositional.Token
