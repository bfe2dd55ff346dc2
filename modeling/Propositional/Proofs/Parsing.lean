import Propositional.Proofs.Stacks.Reading

/-!
# Parsing

`parse_iff_derives` ties parsing from empty stacks to the grammar: a formula is returned exactly when
the tokens before the first end of input derive it.
-/

namespace Propositional

theorem Stacks.parse_ok {s t : Stacks} {tokens : List Token} {f : Formula Int}
    (run : (s.read .operand tokens).bind finish = .ok (f, t)) : s.parse tokens = (.ok f, t) := by
  simp only [parse, run]

theorem Stacks.parse_error {s : Stacks} {tokens : List Token} {stopped : Stopped}
    (run : (s.read .operand tokens).bind finish = .error stopped) :
    s.parse tokens = (.error stopped.failure, stopped.left) := by
  simp only [parse, run]

variable {before tokens : List Token} {stop : Token} {f g : Formula Int}

theorem parse_of_derives (derives : Derives Token.index .start before f) (ends : stop.kind = .eof)
    (after : List Token) : Stacks.parse {} (before ++ stop :: after) = (.ok f, {}) := by
  obtain ⟨t, settles, reads⟩ := Stacks.read_derives derives {} (Stacks.fits_nil _)
  have reduced : Stacks.reduceAbove (-1) t = .ok ⟨[], [f]⟩ := by
    rw [settles.1 (-1) (by decide)]
    exact Stacks.reduceAbove_fits (Stacks.fits_nil _) (by decide)
  have run : Stacks.read .operand (before ++ stop :: after) {} = .ok ⟨[stop], [f]⟩ := by
    rw [reads]
    simp only [Stacks.read, Stacks.step, Stacks.readConnective, ends, reduced, Except.map, and_self, if_true,
      Stacks.pushOperator]
  have finished : Stacks.finish ⟨[stop], [f]⟩ = .ok (f, {}) := by simp [Stacks.finish, ends]
  exact Stacks.parse_ok (by rw [run]; exact finished)

theorem derives_unique (left : Derives Token.index .start tokens f) (right : Derives Token.index .start tokens g) :
    f = g := by
  let stop : Token := ⟨.eof, 0, 0, "", none⟩
  have ends : stop.kind = .eof := rfl
  have parsed := (parse_of_derives left ends []).symm.trans (parse_of_derives right ends [])
  exact Except.ok.inj (Prod.mk.inj parsed).1

theorem derives_of_parse (noEnd : ∀ token ∈ before, token.kind ≠ .eof) (ends : stop.kind = .eof)
    {after : List Token} (parsed : (Stacks.parse {} (before ++ stop :: after)).1 = .ok f) :
    Derives Token.index .start before f := by
  obtain ⟨e, t, reads, run⟩ | ⟨e, t, earlier, token, later, stopped, rfl, _, run, _⟩ :=
    Stacks.read_reads Stacks.reads_empty before noEnd
  · cases reads with
    | operand pending =>
      have failed : (Stacks.read .operand (before ++ stop :: after) {}).bind Stacks.finish =
          .error ⟨t.endFault, t⟩ := by
        rw [run]
        simp only [Stacks.read, Stacks.step, Stacks.readOperand, ends, Except.bind]
      rw [Stacks.parse_error failed] at parsed
      cases parsed
    | connective finished =>
      obtain ⟨_, g, derives, ended⟩ | ⟨innermost, _, left, _, ended⟩ := Stacks.read_end finished ends after
      · rw [Stacks.parse_ok (by rw [run]; exact ended)] at parsed
        obtain rfl : g = f := Except.ok.inj parsed
        exact derives
      · rw [Stacks.parse_error (by rw [run]; exact ended)] at parsed
        cases parsed
  · have failed : (Stacks.read .operand (earlier ++ token :: (later ++ stop :: after)) {}).bind Stacks.finish =
        .error stopped := by rw [run]; rfl
    rw [List.append_assoc, List.cons_append, Stacks.parse_error failed] at parsed
    cases parsed

theorem Stacks.Pending.top_ne_eof {tokens operators : List Token} {operands : List (Formula Int)}
    (pending : Pending tokens operators operands) : ∀ top ∈ operators.head?, top.kind ≠ .eof := by
  cases pending with
  | empty => simp
  | opened _ kind | negated _ kind | joined _ _ _ kind => simp [kind]

theorem parse_without_end (noEnd : ∀ token ∈ tokens, token.kind ≠ .eof) :
    ∃ failure, (Stacks.parse {} tokens).1 = .error failure := by
  obtain ⟨e, t, reads, run⟩ | ⟨e, t, earlier, token, later, stopped, rfl, _, run, _⟩ :=
    Stacks.read_reads Stacks.reads_empty tokens noEnd
  · have notEnd : ∀ top ∈ t.operators.head?, top.kind ≠ .eof := by
      cases reads with
      | operand pending => exact pending.top_ne_eof
      | connective finished => cases finished with
        | intro pending _ _ _ => exact pending.top_ne_eof
    have ended : (Stacks.read .operand tokens {}).bind Stacks.finish = Stacks.finish t := by
      have all := run []
      rw [List.append_nil] at all
      rw [all]
      rfl
    obtain ⟨stopped, failed⟩ : ∃ stopped, Stacks.finish t = .error stopped := by
      cases operators : t.operators with
      | nil => exact ⟨_, by simp only [Stacks.finish, operators]; rfl⟩
      | cons top rest =>
        rw [operators] at notEnd
        exact ⟨_, by simp only [Stacks.finish, operators, ne_eq, notEnd top rfl, not_false_eq_true, if_true]; rfl⟩
    exact ⟨stopped.failure, by rw [Stacks.parse_error (ended.trans failed)]⟩
  · have failed : (Stacks.read .operand (earlier ++ token :: later) {}).bind Stacks.finish = .error stopped := by
      rw [run]
      rfl
    exact ⟨stopped.failure, by rw [Stacks.parse_error failed]⟩

theorem parse_after_eof (s : Stacks) (before after other : List Token) (ends : stop.kind = .eof) :
    s.parse (before ++ stop :: after) = s.parse (before ++ stop :: other) := by
  rw [Stacks.parse, Stacks.parse, Stacks.read_after_eof .operand s before after other ends]

/-- The tokens up to the first end of input. -/
theorem exists_first_end (tokens : List Token) :
    (∀ token ∈ tokens, token.kind ≠ .eof) ∨
    ∃ before stop after, tokens = before ++ stop :: after ∧ (∀ token ∈ before, token.kind ≠ .eof) ∧
      stop.kind = .eof := by
  induction tokens with
  | nil => exact Or.inl (by simp)
  | cons token tokens ih =>
    by_cases ends : token.kind = .eof
    · exact Or.inr ⟨[], token, tokens, rfl, by simp, ends⟩
    · obtain noEnd | ⟨before, stop, after, rfl, noEnd, stops⟩ := ih
      · exact Or.inl (List.forall_mem_cons.mpr ⟨ends, noEnd⟩)
      · exact Or.inr ⟨token :: before, stop, after, rfl, List.forall_mem_cons.mpr ⟨ends, noEnd⟩, stops⟩

theorem parse_eq_ok_iff : (Stacks.parse {} tokens).1 = .ok f ↔
    ∃ before stop after, tokens = before ++ stop :: after ∧ (∀ token ∈ before, token.kind ≠ .eof) ∧
      stop.kind = .eof ∧ Derives Token.index .start before f := by
  constructor
  · intro parsed
    obtain noEnd | ⟨before, stop, after, rfl, noEnd, ends⟩ := exists_first_end tokens
    · obtain ⟨failure, failed⟩ := parse_without_end noEnd
      rw [failed] at parsed
      cases parsed
    · exact ⟨before, stop, after, rfl, noEnd, ends, derives_of_parse noEnd ends parsed⟩
  · rintro ⟨before, stop, after, rfl, _, ends, derives⟩
    rw [parse_of_derives derives ends]

/-- From empty stacks a formula is returned exactly when the tokens before the first end of input derive it. -/
theorem parse_iff_derives (tokens : List Token) :
    (∀ f, (Stacks.parse {} tokens).1 = .ok f ↔
      ∃ before stop after, tokens = before ++ stop :: after ∧ (∀ token ∈ before, token.kind ≠ .eof) ∧
        stop.kind = .eof ∧ Derives Token.index .start before f) ∧
    (∀ before stop after other, tokens = before ++ stop :: after → stop.kind = .eof →
      Stacks.parse {} tokens = Stacks.parse {} (before ++ stop :: other)) ∧
    ((∀ token ∈ tokens, token.kind ≠ .eof) → ∃ failure, (Stacks.parse {} tokens).1 = .error failure) ∧
    (∀ f g, Derives Token.index .start tokens f → Derives Token.index .start tokens g → f = g) := by
  refine ⟨fun f => parse_eq_ok_iff, ?_, parse_without_end, fun f g => derives_unique⟩
  rintro before stop after other rfl ends
  exact parse_after_eof {} before after other ends

end Propositional
