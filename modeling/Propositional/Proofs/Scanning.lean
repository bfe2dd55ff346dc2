import Propositional.Compiled
import Propositional.Proofs.Token.Munch
import Propositional.Proofs.Token.Numbering

/-!
# Scanning

`scan_munch` ties scanning to longest lexemes: a text is refused at its first character that is not
allowed, else at the first place where no lexeme starts, and otherwise gives its longest lexemes from left
to right.
-/

namespace Propositional.Token

variable {text : String} {tokens : List Token}

/-! ### Allowed characters -/

theorem checkAllowed_ok (p : Nat) {chars : List Char} (allowed : ∀ c ∈ chars, isAllowed c = true) :
    checkAllowed p chars = .ok () := by
  induction chars generalizing p with
  | nil => rfl
  | cons c rest ih =>
    obtain ⟨first, later⟩ := List.forall_mem_cons.mp allowed
    rw [checkAllowed, if_pos first, ih _ later]

theorem checkAllowed_illegal (p : Nat) {before : List Char} {c : Char} (after : List Char)
    (allowed : ∀ d ∈ before, isAllowed d = true) (illegal : isAllowed c = false) :
    checkAllowed p (before ++ c :: after) = .error (.illegal (p + before.length)) := by
  induction before generalizing p with
  | nil => simp [checkAllowed, illegal]
  | cons d before ih =>
    obtain ⟨first, later⟩ := List.forall_mem_cons.mp allowed
    rw [List.cons_append, checkAllowed, if_pos first, ih _ later, List.length_cons]
    congr 2
    omega

theorem exists_first_illegal (chars : List Char) : (∀ c ∈ chars, isAllowed c = true) ∨
    ∃ before c after, chars = before ++ c :: after ∧ (∀ d ∈ before, isAllowed d = true) ∧ isAllowed c = false := by
  induction chars with
  | nil => exact Or.inl (by simp)
  | cons c rest ih =>
    cases allowed : isAllowed c with
    | false => exact Or.inr ⟨[], c, rest, rfl, by simp, allowed⟩
    | true =>
      obtain all | ⟨before, d, after, rfl, clean, illegal⟩ := ih
      · exact Or.inl (List.forall_mem_cons.mpr ⟨allowed, all⟩)
      · exact Or.inr ⟨c :: before, d, after, rfl, List.forall_mem_cons.mpr ⟨allowed, clean⟩, illegal⟩

/-! ### The outcomes -/

theorem lex_of_munch {p : Nat} (munch : Munch 0 text.toList tokens p []) :
    lex text = .ok (tokens ++ [⟨.eof, text.length, text.length, "", none⟩]) := by
  obtain ⟨taken, split, rfl⟩ := munch.split
  rw [List.append_nil] at split
  rw [lex, munch.lexFrom_eq, lexFrom, ← split, String.length_toList, Nat.zero_add]
  rfl

theorem lex_stuck {p : Nat} {c : Char} {rest : List Char} (munch : Munch 0 text.toList tokens p (c :: rest))
    (stuck : Stuck (c :: rest)) : lex text = .error (.misplaced c p) := by
  rw [lex, munch.lexFrom_eq, lexFrom_stuck stuck]
  rfl

theorem seenNames_append_eof (tokens : List Token) (p : Int) :
    seenNames (tokens ++ [⟨.eof, p, p, "", none⟩]) = seenNames tokens := by
  simp [seenNames]

theorem scan_illegal {before after : List Char} {c : Char} (split : text.toList = before ++ c :: after)
    (allowed : ∀ d ∈ before, isAllowed d = true) (illegal : isAllowed c = false) :
    scan text = .error (.lex (.illegal before.length)) := by
  rw [scan, split, checkAllowed_illegal 0 after allowed illegal, Nat.zero_add]

theorem scan_stuck {p : Nat} {c : Char} {rest : List Char} (allowed : ∀ d ∈ text.toList, isAllowed d = true)
    (munch : Munch 0 text.toList tokens p (c :: rest)) (stuck : Stuck (c :: rest)) :
    scan text = .error (.lex (.misplaced c p)) := by
  rw [scan, checkAllowed_ok 0 allowed, lex_stuck munch stuck]

theorem scan_of_munch {p : Nat} (munch : Munch 0 text.toList tokens p []) :
    scan text = .ok ⟨tokens.map (indexIn (sortNames (seenNames tokens))) ++
      [⟨.eof, text.length, text.length, "", none⟩], sortNames (seenNames tokens)⟩ := by
  have allowed : ∀ c ∈ text.toList, isAllowed c = true := munch.allowed (by simp)
  have numbers := number_seenNames (tokens ++ [⟨.eof, text.length, text.length, "", none⟩])
  rw [seenNames_append_eof, List.map_append] at numbers
  rw [scan, checkAllowed_ok 0 allowed, lex_of_munch munch]
  simp only [seenNames_append_eof, numbers]
  rfl

theorem munch_or_stuck (text : List Char) : (∃ tokens p, Munch 0 text tokens p []) ∨
    ∃ tokens p c rest, Munch 0 text tokens p (c :: rest) ∧ Stuck (c :: rest) := by
  obtain ⟨tokens, p, left, munch, rfl | stuck⟩ := exists_munch 0 text
  · exact Or.inl ⟨tokens, p, munch⟩
  · cases left with
    | nil => cases stuck
    | cons c rest => exact Or.inr ⟨tokens, p, c, rest, munch, stuck⟩

/-- Scanning fails with a mistake that is shown to the author. -/
def Refuses (text : String) (rejection : Rejection) : Prop :=
  ∃ e, scan text = .error (.lex e) ∧ (CompileError.lex e).rejection? = some rejection

theorem Refuses.unique {p q : Rejection} (left : Refuses text p) (right : Refuses text q) : p = q := by
  obtain ⟨e, failed, shown⟩ := left
  obtain ⟨other, same, shown'⟩ := right
  rw [failed] at same
  obtain rfl := ScanError.lex.inj (Except.error.inj same)
  exact Option.some.inj (shown.symm.trans shown')

theorem Refuses.not_ok {scanned : Scanned} {rejection : Rejection} (refused : Refuses text rejection) :
    scan text ≠ .ok scanned := by
  obtain ⟨e, failed, _⟩ := refused
  simp [failed]

theorem refuses_illegal {before after : List Char} {c : Char} (split : text.toList = before ++ c :: after)
    (allowed : ∀ d ∈ before, isAllowed d = true) (illegal : isAllowed c = false) :
    Refuses text ⟨"Illegal character", before.length, before.length + 1⟩ :=
  ⟨_, scan_illegal split allowed illegal, rfl⟩

theorem refuses_stuck {p : Nat} {c : Char} {rest : List Char} (allowed : ∀ d ∈ text.toList, isAllowed d = true)
    (munch : Munch 0 text.toList tokens p (c :: rest)) (stuck : Stuck (c :: rest)) :
    Refuses text ⟨"The character " ++ c.toString ++ " shouldn't be here.", p, p + 1⟩ :=
  ⟨_, scan_stuck allowed munch stuck, rfl⟩

theorem munch_or_refused (text : String) :
    (∃ tokens, Munch 0 text.toList tokens text.length []) ∨ ∃ rejection, Refuses text rejection := by
  obtain ⟨tokens, p, munch⟩ | ⟨tokens, p, c, rest, munch, stuck⟩ := munch_or_stuck text.toList
  · obtain ⟨taken, split, rfl⟩ := munch.split
    rw [List.append_nil] at split
    rw [← split, String.length_toList, Nat.zero_add] at munch
    exact Or.inl ⟨tokens, munch⟩
  · obtain allowed | ⟨before, c, after, split, clean, illegal⟩ := exists_first_illegal text.toList
    · exact Or.inr ⟨_, refuses_stuck allowed munch stuck⟩
    · exact Or.inr ⟨_, refuses_illegal split clean illegal⟩

theorem lex_accepted_allowed (accepted : lex text = .ok tokens) : checkAllowed 0 text.toList = .ok () := by
  obtain ⟨read, p, munch⟩ | ⟨read, p, c, rest, munch, stuck⟩ := munch_or_stuck text.toList
  · exact checkAllowed_ok 0 (munch.allowed (by simp))
  · rw [lex_stuck munch stuck] at accepted
    cases accepted

/-- A text is refused at its first character that is not allowed, else at the first place where no lexeme starts,
and otherwise gives its longest lexemes in order. -/
theorem scan_munch (text : String) :
    (∀ rejection, Refuses text rejection ↔
      (∃ before c after, text.toList = before ++ c :: after ∧ (∀ d ∈ before, isAllowed d = true) ∧
        isAllowed c = false ∧ rejection = ⟨"Illegal character", before.length, before.length + 1⟩) ∨
      ((∀ c ∈ text.toList, isAllowed c = true) ∧ ∃ tokens p c rest, Munch 0 text.toList tokens p (c :: rest) ∧
        Stuck (c :: rest) ∧ rejection = ⟨"The character " ++ c.toString ++ " shouldn't be here.", p, p + 1⟩)) ∧
    (∀ scanned, scan text = .ok scanned ↔ ∃ tokens, Munch 0 text.toList tokens text.length [] ∧
      scanned.names = sortNames (seenNames tokens) ∧
      scanned.tokens = tokens.map (indexIn scanned.names) ++ [⟨.eof, text.length, text.length, "", none⟩]) ∧
    ((∃ scanned, scan text = .ok scanned) ∨ ∃ rejection, Refuses text rejection) ∧
    (∀ tokens p left, Munch 0 text.toList tokens p left → text.toList.drop p = left) ∧
    (∀ tokens p, Munch 0 text.toList tokens p [] → Laid 0 text.toList tokens) ∧
    (∀ tokens, lex text = .ok tokens → checkAllowed 0 text.toList = .ok ()) := by
  refine ⟨fun rejection => ⟨fun refused => ?_, ?_⟩, fun scanned => ⟨fun ok => ?_, ?_⟩, ?_, ?_, ?_, ?_⟩
  · obtain allowed | ⟨before, c, after, split, clean, illegal⟩ := exists_first_illegal text.toList
    · obtain ⟨tokens, p, munch⟩ | ⟨tokens, p, c, rest, munch, stuck⟩ := munch_or_stuck text.toList
      · exact absurd (scan_of_munch munch) refused.not_ok
      · have same := refused.unique (refuses_stuck allowed munch stuck)
        exact Or.inr ⟨allowed, tokens, p, c, rest, munch, stuck, same⟩
    · have same := refused.unique (refuses_illegal split clean illegal)
      exact Or.inl ⟨before, c, after, split, clean, illegal, same⟩
  · rintro (⟨before, c, after, split, clean, illegal, rfl⟩ | ⟨allowed, tokens, p, c, rest, munch, stuck, rfl⟩)
    · exact refuses_illegal split clean illegal
    · exact refuses_stuck allowed munch stuck
  · obtain ⟨tokens, munch⟩ | ⟨rejection, refused⟩ := munch_or_refused text
    · rw [scan_of_munch munch] at ok
      obtain rfl := Except.ok.inj ok
      exact ⟨tokens, munch, rfl, rfl⟩
    · exact absurd ok refused.not_ok
  · rintro ⟨tokens, munch, names, numbers⟩
    rw [scan_of_munch munch, ← names, ← numbers]
  · obtain ⟨tokens, munch⟩ | refused := munch_or_refused text
    · exact Or.inl ⟨_, scan_of_munch munch⟩
    · exact Or.inr refused
  · intro tokens p left munch
    obtain ⟨taken, split, rfl⟩ := munch.split
    rw [split, Nat.zero_add, List.drop_left]
  · intro tokens p munch
    exact munch.laid rfl
  · intro tokens
    exact lex_accepted_allowed

end Propositional.Token
