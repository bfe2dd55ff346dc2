import Mathlib.Data.List.Forall2
import Propositional.Proofs.Token.Seam

/-!
# Renamed variables in a text

`renameText` writes another name for every variable of a text, with a space on either side. `Munch.renamed` says
that a renamed text is read like the old one: the same symbols, and the new name where the old one was.
-/

namespace Propositional.Token

/-- The characters from `p` on, with the new name between spaces for each variable. -/
def respell (ρ : String → String) (p : Nat) (text : List Char) : List Token → List Char
  | [] => text
  | token :: tokens =>
    if token.kind = .var then
      text.take (token.start.toNat - p) ++ ' ' :: ((ρ token.lexeme).toList ++
        ' ' :: respell ρ token.stop.toNat (text.drop (token.stop.toNat - p)) tokens)
    else respell ρ p text tokens

/-- The text with its variables renamed; a text that cannot be read stays as it is. -/
def renameText (ρ : String → String) (text : String) : String :=
  match lex text with
  | .ok tokens => String.ofList (respell ρ 0 text.toList tokens)
  | .error _ => text

/-- The same symbol, or the new name for a name. -/
structure Renames (ρ : String → String) (x y : Token) : Prop where
  kind : y.kind = x.kind
  name : x.kind = .var → y.lexeme = ρ x.lexeme

variable {ρ : String → String} {tokens : List Token}

theorem respell_append {p : Nat} (w : List Char) {chars : List Char}
    (later : ∀ token ∈ tokens, (p + w.length : Nat) ≤ token.start ∧ token.start < token.stop) :
    respell ρ p (w ++ chars) tokens = w ++ respell ρ (p + w.length) chars tokens := by
  induction tokens with
  | nil => rfl
  | cons token tokens ih =>
    obtain ⟨⟨start, stop⟩, later⟩ := List.forall_mem_cons.mp later
    unfold respell
    split
    · have front : token.start.toNat - p = w.length + (token.start.toNat - (p + w.length)) := by omega
      have back : token.stop.toNat - p = w.length + (token.stop.toNat - (p + w.length)) := by omega
      rw [front, back, List.take_length_add_append, List.drop_length_add_append, List.append_assoc]
    · exact ih later

theorem respell_name (p : Nat) (w chars : List Char) :
    respell ρ p (w ++ chars) (⟨.var, p, (p + w.length : Nat), String.ofList w, none⟩ :: tokens) =
      ' ' :: ((ρ (String.ofList w)).toList ++ ' ' :: respell ρ (p + w.length) chars tokens) := by
  have front : (p : Int).toNat - p = 0 := by omega
  have back : ((p + w.length : Nat) : Int).toNat - p = w.length := by omega
  rw [respell, if_pos rfl, front, back, List.take_zero, List.nil_append, List.drop_left, Int.toNat_natCast]

/-- A renamed text goes on like the old one, up to a space if not to its end. -/
theorem respell_split (ρ : String → String) (p : Nat) (chars : List Char) (tokens : List Token) :
    ∃ u v, respell ρ p chars tokens = u ++ v ∧ u <+: chars ∧ ∀ c ∈ v.head?, isBlank c = true := by
  induction tokens with
  | nil => exact ⟨chars, [], (List.append_nil chars).symm, List.prefix_refl chars, by simp⟩
  | cons token tokens ih =>
    unfold respell
    split
    · refine ⟨_, _, rfl, List.take_prefix _ _, ?_⟩
      intro c head
      obtain rfl := Option.some.inj head
      rfl
    · exact ih

theorem IsLongest.renamed {w chars : List Char} {k : Kind} {p : Nat} (longest : IsLongest (w ++ chars) w k) :
    IsLongest (w ++ respell ρ p chars tokens) w k := by
  obtain ⟨u, v, split, ⟨rest, rfl⟩, blank⟩ := respell_split ρ p chars tokens
  obtain ⟨lexeme, _, longer⟩ := longest
  have inside : IsLongest (w ++ u) w k := by
    refine ⟨lexeme, List.prefix_append w u, fun other kind lexeme' begins => ?_⟩
    apply longer other kind lexeme'
    rw [← List.append_assoc]
    exact begins.trans (List.prefix_append (w ++ u) rest)
  rw [split, ← List.append_assoc]
  exact inside.append fun c head => separates_of_blank (blank c head)

theorem Munch.later {p q : Nat} {chars left : List Char} (munch : Munch p chars tokens q left) (all : left = []) :
    ∀ token ∈ tokens, (p : Int) ≤ token.start ∧ token.start < token.stop := by
  have laid := munch.laid all
  intro token member
  obtain ⟨before, _, _, start, _⟩ := laid.slices token member
  exact ⟨by omega, laid.proper token member⟩

theorem Munch.renamed {p q : Nat} {chars left : List Char} (munch : Munch p chars tokens q left)
    (all : left = []) (valid : ∀ token ∈ tokens, token.kind = .var → IsName (ρ token.lexeme)) (p' : Nat) :
    ∃ others q', Munch p' (respell ρ p chars tokens) others q' [] ∧
      List.Forall₂ (Renames ρ) tokens others := by
  induction munch generalizing p' with
  | done => exact ⟨[], p', all ▸ .done, .nil⟩
  | @blank p q c chars left tokens blank after ih =>
    obtain ⟨others, q', munch, renames⟩ := ih all valid (p' + 1)
    refine ⟨others, q', ?_, renames⟩
    rw [← List.singleton_append, respell_append [c] (after.later all)]
    exact .blank blank munch
  | @lexeme p q w chars left k tokens longest after ih =>
    obtain ⟨first, rest⟩ := List.forall_mem_cons.mp valid
    by_cases named : k = .var
    · subst named
      have space : isBlank ' ' = true := rfl
      have longest' := (first rfl).isLexeme.isLongest
        (separates_head (separates_of_blank space) (respell ρ (p + w.length) chars tokens))
      obtain ⟨others, q', munch, renames⟩ := ih all rest (p' + 1 + (ρ (String.ofList w)).toList.length + 1)
      rw [respell_name]
      refine ⟨_, q', .blank space (.lexeme longest' (.blank space munch)), .cons ⟨rfl, fun _ => ?_⟩ renames⟩
      exact String.ofList_toList
    · obtain ⟨others, q', munch, renames⟩ := ih all rest (p' + w.length)
      rw [respell, if_neg named, respell_append w (after.later all)]
      exact ⟨_, q', .lexeme longest.renamed munch, .cons ⟨rfl, fun var => absurd var named⟩ renames⟩

theorem respell_eof (p i : Nat) (chars : List Char) :
    respell ρ p chars (tokens ++ [⟨.eof, i, i, "", none⟩]) = respell ρ p chars tokens := by
  induction tokens generalizing p chars with
  | nil => rfl
  | cons token tokens ih =>
    rw [List.cons_append, respell, respell, ih, ih]

end Propositional.Token
