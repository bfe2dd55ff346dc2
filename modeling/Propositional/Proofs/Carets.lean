import Mathlib.Data.List.Induction
import Propositional.Proofs.CommandLine.Outcome
import Propositional.Proofs.Respelling

/-!
# Where mistakes are shown

A mistake is shown at a character or at a whole token of the text, never at its end; only a text of blanks
has no place to point at. `compile_points` says so, and that the carets of a run stand under just that place.
-/

namespace Propositional

open Token

def sliceOf (text : String) (start stop : Int) : List Char :=
  (text.toList.take stop.toNat).drop start.toNat

/-- The place lies in the text and is not empty. -/
structure Rejection.Inside (r : Rejection) (text : String) : Prop where
  nonneg : 0 ≤ r.start
  proper : r.start < r.stop
  within : r.stop ≤ text.length

/-- The place is that of the token, which stands there in the text, and of no other token. -/
structure Rejection.At (r : Rejection) (text : String) (tokens : List Token) (token : Token) : Prop where
  member : token ∈ tokens
  solid : token.kind ≠ .eof
  start : token.start = r.start
  stop : token.stop = r.stop
  lexeme : token.lexeme.toList = sliceOf text r.start r.stop
  only : ∀ other ∈ tokens, other.start < r.stop → r.start < other.stop → other = token

/-- The text is shown with an indent of four blanks, and below it, in the same columns, carets at the offsets
from `start` up to `stop` and nowhere else. -/
def Message.Marks (text : String) (r : Rejection) (start stop : Int) : Prop :=
  ∃ shown carets, Message.rejected text r = [error ("❌ " ++ r.description), error shown, error carets] ∧
    (∀ i < 4, shown.toList[i]? = some ' ') ∧ (∀ i, shown.toList[4 + i]? = text.toList[i]?) ∧
    ∀ i : Nat, carets.toList[i]? = some '^' ↔ 4 + start ≤ i ∧ i < 4 + stop

variable {text : String} {tokens : List Token} {r : Rejection} {e : CompileError}

/-! ### Tokens that are blamed -/

theorem mem_of_mem_unclosed {token : Token} (opened : token ∈ unclosed tokens) : token ∈ tokens := by
  induction tokens using List.reverseRecOn with
  | nil => exact opened
  | append_singleton tokens last ih =>
    rw [unclosed_concat] at opened
    unfold trackGroups at opened
    rw [List.mem_append, List.mem_singleton]
    split at opened
    · rcases List.mem_cons.mp opened with rfl | before
      · exact Or.inr rfl
      · exact Or.inl (ih before)
    · exact Or.inl (ih (List.mem_of_mem_tail opened))
    · exact Or.inl (ih opened)

theorem endRejection?_place (found : endRejection? tokens = some r) :
    (tokens = [] ∧ r = ⟨"The formula is empty.", 0, 0⟩) ∨
      ∃ token ∈ tokens, token.start = r.start ∧ token.stop = r.stop := by
  unfold endRejection? at found
  split at found
  · rename_i last
    exact Or.inl ⟨List.getLast?_eq_none_iff.mp last, (Option.some.inj found).symm⟩
  · rename_i token last
    have member := List.mem_of_getLast? last
    refine Or.inr ?_
    split at found
    · obtain rfl := Option.some.inj found
      exact ⟨token, member, rfl, rfl⟩
    · split at found
      · obtain rfl := Option.some.inj found
        exact ⟨token, member, rfl, rfl⟩
      · obtain ⟨innermost, first, rfl⟩ := Option.map_eq_some_iff.mp found
        exact ⟨innermost, mem_of_mem_unclosed (List.mem_of_mem_head? first), rfl, rfl⟩

theorem Rejects.place {stop : Token} (noEnd : ∀ token ∈ tokens, token.kind ≠ .eof) (ends : stop.kind = .eof)
    (indexed : ∀ token ∈ tokens, token.kind = .var → token.index ≠ none) (rejects : Rejects (tokens ++ [stop]) r) :
    (tokens = [] ∧ r = ⟨"The formula is empty.", 0, 0⟩) ∨
      ∃ token ∈ tokens, token.start = r.start ∧ token.stop = r.stop := by
  obtain ⟨k, inside, _, dead⟩ | ⟨_, ⟨_, f, parsed⟩ | ⟨found, shown, ended⟩⟩ := parse_localized noEnd ends indexed
  · rw [rejects.unique dead]
    exact Or.inr ⟨tokens[k], List.getElem_mem inside, rfl, rfl⟩
  · obtain ⟨failure, failed, _⟩ := rejects
    cases failed.symm.trans parsed
  · rw [rejects.unique ended]
    exact endRejection?_place shown

/-! ### Failures of a text -/

theorem lex_position {refusal : LexError} (failed : scan text = .error (.lex refusal)) :
    refusal.position < text.length := by
  have size := text.length_toList
  obtain allowed | ⟨before, c, after, split, clean, illegal⟩ := exists_first_illegal text.toList
  · obtain ⟨tokens, p, munch⟩ | ⟨tokens, p, c, rest, munch, stuck⟩ := munch_or_stuck text.toList
    · rw [scan_of_munch munch] at failed
      cases failed
    · rw [scan_stuck allowed munch stuck] at failed
      obtain rfl := ScanError.lex.inj (Except.error.inj failed)
      obtain ⟨taken, split, rfl⟩ := munch.split
      rw [split, List.length_append, List.length_cons] at size
      simp only [LexError.position]
      omega
  · rw [scan_illegal split clean illegal] at failed
    obtain rfl := ScanError.lex.inj (Except.error.inj failed)
    rw [split, List.length_append, List.length_cons] at size
    simp only [LexError.position]
    omega

theorem compile_error_cases (failed : compile text = .error e) :
    (∃ refusal, e = .lex refusal ∧ scan text = .error (.lex refusal)) ∨
    ∃ tokens failure, Munch 0 text.toList tokens text.length [] ∧ e = .parse failure ∧
      parseTokens (tokens.map (indexIn (sortNames (seenNames tokens))) ++
        [⟨.eof, text.length, text.length, "", none⟩]) = .error failure := by
  obtain ⟨tokens, munch⟩ | ⟨_, refusal, refused, _⟩ := munch_or_refused text
  · have scanned := scan_of_munch munch
    cases parsed : parseTokens (tokens.map (indexIn (sortNames (seenNames tokens))) ++
        [⟨.eof, text.length, text.length, "", none⟩]) with
    | ok f =>
      obtain ⟨r, compiled, _⟩ := compile_of_scan scanned parsed
      cases failed.symm.trans compiled
    | error failure =>
      have same := Except.error.inj (failed.symm.trans (compile_failed scanned parsed))
      exact Or.inr ⟨tokens, failure, munch, same, parsed⟩
  · have lexed : compile text = .error (.lex refusal) := by
      rw [compile, parse, refused]
      rfl
    exact Or.inl ⟨refusal, Except.error.inj (failed.symm.trans lexed), refused⟩

/-! ### Places of tokens -/

theorem start_indexIn (table : List String) (token : Token) : (indexIn table token).start = token.start := by
  unfold indexIn
  split <;> rfl

theorem stop_indexIn (table : List String) (token : Token) : (indexIn table token).stop = token.stop := by
  unfold indexIn
  split <;> rfl

theorem blank_of_no_tokens (munch : Munch 0 text.toList [] text.length []) : ∀ c ∈ text.toList, isBlank c = true := by
  intro c member
  obtain ⟨i, inside, rfl⟩ := List.getElem_of_mem member
  cases blank : isBlank text.toList[i] with
  | true => rfl
  | false =>
    obtain ⟨token, absent, _⟩ := (munch.laid rfl).covered i _ (List.getElem?_eq_getElem inside) blank
    cases absent

theorem Token.Laid.inside (laid : Laid 0 text.toList tokens) {token : Token} (member : token ∈ tokens) :
    0 ≤ token.start ∧ token.stop ≤ text.length ∧ token.lexeme.toList = sliceOf text token.start token.stop := by
  obtain ⟨before, after, split, start, stop⟩ := laid.slices token member
  have size := text.length_toList
  rw [split, List.length_append, List.length_append, String.length_toList] at size
  have last : token.stop.toNat = (before ++ token.lexeme.toList).length := by
    rw [List.length_append, String.length_toList]
    omega
  have first : token.start.toNat = before.length := by omega
  refine ⟨by omega, by omega, ?_⟩
  rw [sliceOf, split, last, List.take_left, first, List.drop_left]

/-- Tokens that overlap are one token. -/
theorem Token.Laid.only (laid : Laid 0 text.toList tokens) {token other : Token} (member : token ∈ tokens)
    (second : other ∈ tokens) (before : other.start < token.stop) (after : token.start < other.stop) :
    other = token := by
  have apart := List.pairwise_iff_getElem.mp laid.apart
  obtain ⟨i, insideFirst, rfl⟩ := List.getElem_of_mem member
  obtain ⟨j, insideSecond, rfl⟩ := List.getElem_of_mem second
  rcases Nat.lt_trichotomy i j with less | rfl | more
  · have := apart i j insideFirst insideSecond less
    omega
  · rfl
  · have := apart j i insideSecond insideFirst more
    omega

theorem at_scanned (laid : Laid 0 text.toList tokens) (names : List String) {token : Token} (member : token ∈ tokens)
    (solid : token.kind ≠ .eof) (start : token.start = r.start) (stop : token.stop = r.stop) :
    r.Inside text ∧ ∃ numbered,
      r.At text (tokens.map (indexIn names) ++ [⟨.eof, text.length, text.length, "", none⟩]) numbered := by
  obtain ⟨nonneg, within, lexeme⟩ := laid.inside member
  have proper := laid.proper token member
  refine ⟨⟨by omega, by omega, by omega⟩, indexIn names token, ?_⟩
  refine ⟨List.mem_append_left _ (List.mem_map_of_mem member), ?_, ?_, ?_, ?_, fun other present before after => ?_⟩
  · rwa [kind_indexIn]
  · rwa [start_indexIn]
  · rwa [stop_indexIn]
  · rw [lexeme_indexIn, lexeme, start, stop]
  · rcases List.mem_append.mp present with scanned | final
    · obtain ⟨plain, second, rfl⟩ := List.mem_map.mp scanned
      rw [start_indexIn] at before
      rw [stop_indexIn] at after
      rw [laid.only member second (by omega) (by omega)]
    · -- the end of input starts where the text ends
      obtain rfl := List.mem_singleton.mp final
      simp only at before
      omega

/-! ### Lines of carets -/

theorem toList_repeated (c : Char) (count : Int) : (Message.repeated c count).toList = List.replicate count.toNat c :=
  String.toList_ofList

/-- There is at least one caret. -/
theorem marks_rejected (text : String) (nonneg : 0 ≤ r.start) :
    Message.Marks text r r.start (r.start + max (r.stop - r.start) 1) := by
  have indent : "    ".toList = List.replicate 4 ' ' := rfl
  refine ⟨_, _, rfl, fun i low => ?_, fun i => ?_, fun i => ?_⟩
  · rw [String.toList_append, indent, List.getElem?_append_left (by simpa using low), List.getElem?_replicate,
      if_pos low]
  · rw [String.toList_append, indent, List.getElem?_append_right (by simp), List.length_replicate,
      Nat.add_sub_cancel_left]
  · simp only [String.toList_append, toList_repeated, indent, List.replicate_append_replicate]
    generalize wide : max (r.stop - r.start) 1 = width
    rw [List.getElem?_append, List.length_replicate]
    split
    · rw [List.getElem?_replicate, if_pos (by assumption)]
      simp only [Option.some.injEq, Char.reduceEq, false_iff]
      omega
    · rw [List.getElem?_replicate]
      split
      · simp only [true_iff]
        omega
      · simp only [reduceCtorEq, false_iff]
        omega

theorem Rejection.Inside.marks (inside : r.Inside text) : Message.Marks text r r.start r.stop := by
  have proper := inside.proper
  have marks := marks_rejected (r := r) text inside.nonneg
  rwa [show r.start + max (r.stop - r.start) 1 = r.stop by omega] at marks

theorem compileAll_rejected {maxVars : Int} {before : List String} {rs : List Compiled} (after : List String)
    (accepted : List.Forall₂ (CommandLine.Accepts maxVars) before rs) (failed : compile text = .error e)
    (shown : e.rejection? = some r) : ∃ ms, CommandLine.compileAll maxVars (before ++ text :: after) =
      ⟨ms ++ Message.rejected text r, .error .rejected⟩ := by
  obtain ⟨why, stopped, said, code⟩ := CommandLine.compileAll_refused after accepted (.mistake failed shown)
  cases why with
  | rejected =>
    rw [CommandLine.Stop.messages, List.append_nil, ← List.append_assoc] at said
    exact ⟨_, congr (congrArg CommandLine.Traced.mk said) stopped⟩
  | tooManyVariables | fileFault | internal => cases code

/-- A text that does not compile is rejected at a character or at a token of its own, with carets under just
that place, unless it holds nothing but blanks. This is what a run shows that comes to such a text. -/
theorem compile_points (failed : compile text = .error e) : ∃ r, e.rejection? = some r ∧
    ((r = ⟨"The formula is empty.", 0, 0⟩ ∧ (∀ c ∈ text.toList, isBlank c = true) ∧ Message.Marks text r 0 1) ∨
      (r.Inside text ∧ Message.Marks text r r.start r.stop ∧
        ((∃ refusal, e = .lex refusal ∧ r.stop = r.start + 1) ∨
          ∃ fault scanned token, e = .parse (.fault fault r.start r.stop) ∧ scan text = .ok scanned ∧
            r.At text scanned.tokens token))) ∧
    ∀ maxVars before after rs, List.Forall₂ (CommandLine.Accepts maxVars) before rs →
      ∃ ms, CommandLine.compileAll maxVars (before ++ text :: after) =
        ⟨ms ++ Message.rejected text r, .error .rejected⟩ := by
  obtain ⟨refusal, rfl, refused⟩ | ⟨tokens, failure, munch, rfl, rejected⟩ := compile_error_cases failed
  · have below := lex_position refused
    let r : Rejection := ⟨refusal.message, refusal.position, refusal.position + 1⟩
    have inside : r.Inside text := ⟨by simp only [r]; omega, by simp only [r]; omega, by simp only [r]; omega⟩
    exact ⟨r, rfl, Or.inr ⟨inside, inside.marks, Or.inl ⟨refusal, rfl, rfl⟩⟩,
      fun _ _ after _ accepted => compileAll_rejected after accepted failed rfl⟩
  · have scanned := scan_of_munch munch
    generalize sortNames (seenNames tokens) = names at rejected scanned
    obtain ⟨f, parsed⟩ | ⟨fault, start, stop, same⟩ :=
      parseTokens_outcome munch names ⟨.eof, text.length, text.length, "", none⟩ rfl
    · cases rejected.symm.trans parsed
    · obtain rfl := Except.error.inj (rejected.symm.trans same)
      let r : Rejection := ⟨fault.message, start, stop⟩
      have rejects : Rejects _ r := ⟨_, rejected, rfl⟩
      refine ⟨r, rfl, ?_, fun _ _ after _ accepted => compileAll_rejected after accepted failed rfl⟩
      obtain ⟨empty, message⟩ | ⟨_, member, starts, stops⟩ :=
        rejects.place (kind_indexIn_ne_eof munch names) rfl (index_ne_none_of_mem names tokens)
      · obtain rfl := List.map_eq_nil_iff.mp empty
        refine Or.inl ⟨message, blank_of_no_tokens munch, ?_⟩
        rw [message]
        exact marks_rejected text (Int.le_refl 0)
      · obtain ⟨token, present, rfl⟩ := List.mem_map.mp member
        rw [start_indexIn] at starts
        rw [stop_indexIn] at stops
        obtain ⟨inside, numbered, place⟩ :=
          at_scanned (munch.laid rfl) names present (munch.lexemes token present).kind_ne_eof starts stops
        exact Or.inr ⟨inside, inside.marks, Or.inr ⟨fault, _, numbered, rfl, scanned, place⟩⟩

/-- A group that is left open is noticed at the end of the text and shown where it starts. -/
theorem compile_points_group : compile "p or (q" = .error (.parse (.fault .unclosedAtEnd 5 6)) ∧
    Message.Marks "p or (q" ⟨"No matching close parenthesis for this open parenthesis.", 5, 6⟩ 5 6 := by
  have failed : compile "p or (q" = .error (.parse (.fault .unclosedAtEnd 5 6)) := by decide +kernel
  obtain ⟨r, shown, place, _⟩ := compile_points failed
  obtain rfl := Option.some.inj shown
  refine ⟨failed, ?_⟩
  obtain ⟨empty, _⟩ | ⟨_, marks, _⟩ := place
  · exact absurd (congrArg Rejection.start empty) (by decide)
  · exact marks

end Propositional
