import Propositional.Proofs.Token.Lexeme
import Propositional.Token.Scan

/-!
# Longest lexemes from left to right

`Munch` skips blanks and takes the longest lexeme at each place; how far it comes is part of the
relation, so readings can be put one after the other. `Munch.lexFrom_eq` and `exists_munch` say that
this is how a text is read, `Munch.laid` where the tokens lie in it.
-/

namespace Propositional.Token

/-- Reading a text from a position gives the tokens and reaches a later position, where `left` is
still to be read. -/
inductive Munch : Nat → List Char → List Token → Nat → List Char → Prop where
  | done {p : Nat} {left : List Char} : Munch p left [] p left
  | blank {p q : Nat} {c : Char} {text left : List Char} {tokens : List Token} (blank : isBlank c = true)
      (after : Munch (p + 1) text tokens q left) : Munch p (c :: text) tokens q left
  | lexeme {p q : Nat} {w text left : List Char} {k : Kind} {tokens : List Token}
      (longest : IsLongest (w ++ text) w k) (after : Munch (p + w.length) text tokens q left) :
      Munch p (w ++ text) (⟨k, p, (p + w.length : Nat), String.ofList w, none⟩ :: tokens) q left

/-- The text goes on, but neither with a blank nor with a lexeme. -/
def Stuck : List Char → Prop
  | [] => False
  | c :: rest => isBlank c = false ∧ ∀ w k, IsLexeme w k → ¬ w <+: c :: rest

/-- The tokens stand in a text that starts at `p`: each over its own lexeme, in order and apart, with
only blanks outside them. -/
structure Laid (p : Nat) (text : List Char) (tokens : List Token) : Prop where
  slices : ∀ token ∈ tokens, ∃ before after, text = before ++ token.lexeme.toList ++ after ∧
    token.start = (p + before.length : Nat) ∧ token.stop = token.start + token.lexeme.length
  proper : ∀ token ∈ tokens, token.start < token.stop
  apart : tokens.Pairwise fun earlier later => earlier.stop ≤ later.start
  covered : ∀ i c, text[i]? = some c → isBlank c = false →
    ∃ token ∈ tokens, token.start ≤ (p + i : Nat) ∧ ((p + i : Nat) : Int) < token.stop

variable {p q : Nat} {text left : List Char} {tokens : List Token}

theorem Munch.trans {r : Nat} {later : List Token} {rest : List Char} (first : Munch p text tokens q left)
    (second : Munch q left later r rest) : Munch p text (tokens ++ later) r rest := by
  induction first with
  | done => exact second
  | blank space _ ih => exact .blank space (ih second)
  | lexeme longest _ ih => exact .lexeme longest (ih second)

theorem lexFrom_blank {c : Char} (blank : isBlank c = true) : lexFrom p (c :: text) = lexFrom (p + 1) text := by
  rw [lexFrom, if_pos blank]

theorem lexFrom_lexeme {w : List Char} {k : Kind} (longest : IsLongest (w ++ text) w k) :
    lexFrom p (w ++ text) =
      (lexFrom (p + w.length) text).map (⟨k, p, (p + w.length : Nat), String.ofList w, none⟩ :: ·) := by
  obtain ⟨nonempty, chars⟩ := longest.1.chars
  have found : lexeme? (w ++ text) = some (w, k) := lexeme?_eq_some_iff.mpr longest
  cases w with
  | nil => exact absurd rfl nonempty
  | cons c tail =>
    have solid : ¬ isBlank c = true := by simp [(chars c List.mem_cons_self).2]
    rw [List.cons_append] at found ⊢
    rw [lexFrom, if_neg solid, found]
    simp only [List.length_cons, Nat.add_sub_cancel, List.drop_left]
    cases lexFrom (p + (tail.length + 1)) text <;> rfl

theorem lexFrom_stuck {c : Char} (stuck : Stuck (c :: text)) : lexFrom p (c :: text) = .error (.misplaced c p) := by
  have solid : ¬ isBlank c = true := by simp [stuck.1]
  rw [lexFrom, if_neg solid, lexeme?_eq_none_iff.mpr stuck.2]

theorem Munch.lexFrom_eq (h : Munch p text tokens q left) :
    lexFrom p text = (lexFrom q left).map (tokens ++ ·) := by
  induction h with
  | @done q left => cases lexFrom q left <;> rfl
  | blank space _ ih => rw [lexFrom_blank space, ih]
  | @lexeme _ q _ _ left _ _ longest _ ih =>
    rw [lexFrom_lexeme longest, ih]
    cases lexFrom q left <;> rfl

theorem exists_munch (p : Nat) (text : List Char) :
    ∃ tokens q left, Munch p text tokens q left ∧ (left = [] ∨ Stuck left) := by
  -- A lexeme may be long, so the induction is on the length of what is left.
  induction size : text.length using Nat.strongRecOn generalizing p text with
  | ind n ih =>
    cases text with
    | nil => exact ⟨[], p, [], .done, Or.inl rfl⟩
    | cons c rest =>
      have shorter : rest.length < n := by rw [← size]; exact Nat.lt_succ_self _
      cases blank : isBlank c with
      | true =>
        obtain ⟨tokens, q, left, munch, stop⟩ := ih _ shorter (p + 1) rest rfl
        exact ⟨tokens, q, left, .blank blank munch, stop⟩
      | false =>
        cases found : lexeme? (c :: rest) with
        | none => exact ⟨[], p, c :: rest, .done, Or.inr ⟨blank, lexeme?_eq_none_iff.mp found⟩⟩
        | some lexeme =>
          obtain ⟨w, k⟩ := lexeme
          have longest := lexeme?_isLongest found
          obtain ⟨after, split⟩ := longest.2.1
          have nonempty := List.length_pos_iff.mpr longest.1.chars.1
          have sizes : w.length + after.length = n := by rw [← size, ← split, List.length_append]
          obtain ⟨tokens, q, left, munch, stop⟩ := ih after.length (by omega) (p + w.length) after rfl
          rw [← split] at longest ⊢
          exact ⟨_, q, left, .lexeme longest munch, stop⟩

/-! ### Places in the text -/

theorem Munch.split (h : Munch p text tokens q left) : ∃ taken, text = taken ++ left ∧ q = p + taken.length := by
  induction h with
  | done => exact ⟨[], rfl, rfl⟩
  | @blank _ _ c _ _ _ _ _ ih =>
    obtain ⟨taken, rfl, rfl⟩ := ih
    exact ⟨c :: taken, rfl, by simp only [List.length_cons]; omega⟩
  | @lexeme _ _ w _ _ _ _ _ _ ih =>
    obtain ⟨taken, rfl, rfl⟩ := ih
    exact ⟨w ++ taken, by rw [List.append_assoc], by simp only [List.length_append]; omega⟩

theorem Munch.allowed (h : Munch p text tokens q left) (rest : ∀ c ∈ left, isAllowed c = true) :
    ∀ c ∈ text, isAllowed c = true := by
  induction h with
  | done => exact rest
  | blank space _ ih =>
    intro c member
    rcases List.mem_cons.mp member with rfl | later
    · simp [isAllowed, space]
    · exact ih rest c later
  | lexeme longest _ ih =>
    intro c member
    rcases List.mem_append.mp member with inside | later
    · exact (longest.1.chars.2 c inside).1
    · exact ih rest c later

theorem Munch.lexemes (h : Munch p text tokens q left) :
    ∀ token ∈ tokens, IsLexeme token.lexeme.toList token.kind := by
  induction h with
  | done => simp
  | blank _ _ ih => exact ih
  | lexeme longest _ ih =>
    refine List.forall_mem_cons.mpr ⟨?_, ih⟩
    rw [String.toList_ofList]
    exact longest.1

theorem Munch.unnumbered (h : Munch p text tokens q left) : ∀ token ∈ tokens, token.index = none := by
  induction h with
  | done => simp
  | blank _ _ ih => exact ih
  | lexeme _ _ ih => exact List.forall_mem_cons.mpr ⟨rfl, ih⟩

theorem Laid.blank {c : Char} (h : Laid (p + 1) text tokens) (blank : isBlank c = true) :
    Laid p (c :: text) tokens where
  slices := by
    intro token member
    obtain ⟨before, after, split, start, stop⟩ := h.slices token member
    exact ⟨c :: before, after, by rw [split]; rfl, by rw [start, List.length_cons]; omega, stop⟩
  proper := h.proper
  apart := h.apart
  covered := by
    intro i d found solid
    cases i with
    | zero =>
      obtain rfl : c = d := Option.some.inj found
      rw [blank] at solid
      cases solid
    | succ i =>
      have place : p + (i + 1) = p + 1 + i := by omega
      rw [place]
      exact h.covered i d found solid

theorem Laid.lexeme {w : List Char} (k : Kind) (nonempty : w ≠ []) (h : Laid (p + w.length) text tokens) :
    Laid p (w ++ text) (⟨k, p, (p + w.length : Nat), String.ofList w, none⟩ :: tokens) where
  slices := by
    intro token member
    rcases List.mem_cons.mp member with rfl | later
    · exact ⟨[], text, by simp, by simp, by simp⟩
    · obtain ⟨before, after, split, start, stop⟩ := h.slices token later
      exact ⟨w ++ before, after, by rw [split]; simp, by rw [start, List.length_append]; omega, stop⟩
  proper := by
    have width := List.length_pos_iff.mpr nonempty
    exact List.forall_mem_cons.mpr ⟨by simp only; omega, h.proper⟩
  apart := by
    refine List.pairwise_cons.mpr ⟨fun token later => ?_, h.apart⟩
    obtain ⟨before, _, _, start, _⟩ := h.slices token later
    rw [start]
    simp only
    omega
  covered := by
    intro i c found solid
    by_cases inside : i < w.length
    · exact ⟨_, List.mem_cons_self, by simp only; omega, by simp only; omega⟩
    · rw [List.getElem?_append_right (by omega)] at found
      obtain ⟨token, member, start, stop⟩ := h.covered _ c found solid
      exact ⟨token, List.mem_cons_of_mem _ member, by omega, by omega⟩

theorem Munch.laid (h : Munch p text tokens q left) (all : left = []) : Laid p text tokens := by
  induction h with
  | done =>
    subst all
    exact ⟨by simp, by simp, List.Pairwise.nil, by simp⟩
  | blank space _ ih => exact (ih all).blank space
  | lexeme longest _ ih => exact (ih all).lexeme _ longest.1.chars.1

end Propositional.Token
