import Propositional.Proofs.Localization
import Propositional.Proofs.Rendering
import Propositional.Proofs.Valuation

/-!
# Well-formed compiled formulas

`compile_outcome` says that compiling a text fails only with a mistake of its author, at a character or at
a token, and otherwise gives a formula whose table holds the names of the text, sorted, whose variables
are the places of these names in the order of the text, and which has a value under every row of its table.
-/

namespace Propositional

open Token

/-- What holds of a formula that a text compiles to. The tokens are the longest lexemes of the text. -/
structure WellFormed (text : String) (tokens : List Token) (r : Compiled) : Prop where
  read : Munch 0 text.toList tokens text.length []
  source : r.source = text
  parsed : parse text = .ok ⟨r.positions, r.names⟩
  sorted : r.names.Pairwise (· < ·)
  names : ∀ name, name ∈ r.names ↔ IsName name ∧ ∃ token ∈ tokens, token.lexeme = name
  bounded : ∀ i ∈ r.positions.leaves, 0 ≤ i ∧ i < r.names.length
  used : ∀ i : Nat, i < r.names.length → (i : Int) ∈ r.positions.leaves
  leaves : r.positions.leaves.map (itemAt? r.names) =
    (tokens.filter (·.kind = .var)).map fun token => some token.lexeme
  accepts : ∀ row, row.length = r.variableCount →
    r.evaluate row = .ok (r.named.holds (valuationOf r.names row))
  refuses : ∀ row, row.length ≠ r.variableCount →
    r.evaluate row = .error ⟨row.length, r.formatted, r.variableCount⟩

variable {text : String} {tokens : List Token} {r : Compiled}

/-! ### Failures -/

theorem Rejects.fault {rejection : Rejection} (rejects : Rejects tokens rejection) :
    ∃ fault start stop, parseTokens tokens = .error (.fault fault start stop) := by
  obtain ⟨failure, failed, shown⟩ := rejects
  cases failure with
  | fault fault start stop => exact ⟨fault, start, stop, failed⟩
  | breach | noPrecedence | noConnective => cases shown

theorem parseTokens_outcome {p : Nat} (munch : Munch 0 text.toList tokens p []) (names : List String)
    (stop : Token) (ends : stop.kind = .eof) :
    (∃ f, parseTokens (tokens.map (indexIn names) ++ [stop]) = .ok f) ∨
      ∃ fault start stop',
        parseTokens (tokens.map (indexIn names) ++ [stop]) = .error (.fault fault start stop') := by
  have indexed := index_ne_none_of_mem names tokens
  have plain := kind_indexIn_ne_eof munch names
  obtain ⟨_, _, _, rejects⟩ | ⟨_, ⟨_, parsed⟩ | ⟨_, _, rejects⟩⟩ := parse_localized plain ends indexed
  · exact Or.inr rejects.fault
  · exact Or.inl parsed
  · exact Or.inr rejects.fault

theorem parse_outcome (text : String) : (∃ e, parse text = .error (.lex e)) ∨
    (∃ fault start stop, parse text = .error (.parse (.fault fault start stop))) ∨
    ∃ parsed, parse text = .ok parsed := by
  unfold parse
  obtain ⟨tokens, munch⟩ | ⟨_, e, failed, _⟩ := munch_or_refused text
  · rw [scan_of_munch munch]
    obtain ⟨f, parsed⟩ | ⟨fault, start, stop, failed⟩ :=
      parseTokens_outcome munch (sortNames (seenNames tokens)) ⟨.eof, text.length, text.length, "", none⟩ rfl
    · exact Or.inr (Or.inr ⟨⟨f, sortNames (seenNames tokens)⟩, by simp only [parsed]⟩)
    · exact Or.inr (Or.inl ⟨fault, start, stop, by simp only [failed]⟩)
  · exact Or.inl ⟨e, by rw [failed]⟩

theorem compile_of_parse {parsed : Parsed} (parses : parse text = .ok parsed) : ∃ r, compile text = .ok r := by
  obtain ⟨tokens, munch, names, indexed⟩ := munch_of_parse parses
  obtain ⟨r, compiled, _⟩ := compile_of_derives munch (derives_named munch names indexed)
  exact ⟨r, compiled⟩

/-! ### Variables -/

theorem bounds_positions (r : Compiled) : ∀ i ∈ r.positions.leaves, 0 ≤ i ∧ i < r.names.length := by
  intro i leaf
  rw [Compiled.positions, Formula.leaves_map] at leaf
  obtain ⟨place, _, rfl⟩ := List.mem_map.mp leaf
  have below := place.isLt
  omega

theorem mem_leaves_positions (compiled : compile text = .ok r) {i : Nat} (inside : i < r.names.length) :
    (i : Int) ∈ r.positions.leaves := by
  have leaf := (mem_names_iff compiled _).mp (List.getElem_mem inside)
  rw [Compiled.named, Formula.leaves_map] at leaf
  obtain ⟨place, member, same⟩ := List.mem_map.mp leaf
  obtain rfl : place.val = i := (List.getElem_inj (nodup_names compiled)).mp same
  rw [Compiled.positions, Formula.leaves_map]
  exact List.mem_map_of_mem member

theorem mem_seenNames_iff {p : Nat} (munch : Munch 0 text.toList tokens p []) (name : String) :
    name ∈ seenNames tokens ↔ IsName name ∧ ∃ token ∈ tokens, token.lexeme = name := by
  rw [mem_seenNames]
  constructor
  · rintro ⟨token, member, named, rfl⟩
    have lexeme := munch.lexemes token member
    rw [named] at lexeme
    exact ⟨lexeme.isName, token, member, rfl⟩
  · rintro ⟨valid, token, member, rfl⟩
    exact ⟨token, member, (munch.lexemes token member).unique valid.isLexeme, rfl⟩

theorem leaves_positions (derives : Derives Token.spelled .start tokens r.named) :
    r.positions.leaves.map (itemAt? r.names) =
      (tokens.filter (·.kind = .var)).map fun token => some token.lexeme := by
  have named : r.positions.leaves.map (itemAt? r.names) = r.named.leaves.map some := by
    rw [r.named_eq, Formula.leaves_map, List.map_map]
    exact List.map_congr_left fun i leaf => itemAt?_eq_nameAt (bounds_positions r i leaf)
  rw [named, ← derives.leaves_eq]
  rfl

theorem wellFormed_of_compile (compiled : compile text = .ok r) : ∃ tokens, WellFormed text tokens r := by
  obtain ⟨source, tokens, munch, names, derives⟩ := derives_of_compile compiled
  have sorted := (compile_eq_ok_iff.mp compiled).2.1
  refine ⟨tokens, munch, source, (parse_of_compile compiled).2, sorted, fun name => ?_, bounds_positions r,
    fun i => mem_leaves_positions compiled, leaves_positions derives, fun row size => ?_, fun row size => ?_⟩
  · rw [names, mem_sortNames]
    exact mem_seenNames_iff munch name
  · exact Compiled.evaluate_eq_holds (nodup_names compiled) size
  · exact dif_neg size

/-- Compiling a text fails at a character or at a token, with a message for its author, or gives a
well-formed formula. -/
theorem compile_outcome (text : String) : (∃ e, compile text = .error (.lex e)) ∨
    (∃ fault start stop, compile text = .error (.parse (.fault fault start stop))) ∨
    ∃ r, compile text = .ok r ∧ ∃ tokens, WellFormed text tokens r := by
  obtain ⟨e, failed⟩ | ⟨fault, start, stop, failed⟩ | ⟨parsed, parses⟩ := parse_outcome text
  · exact Or.inl ⟨e, by rw [compile, failed]; rfl⟩
  · exact Or.inr (Or.inl ⟨fault, start, stop, by rw [compile, failed]; rfl⟩)
  · obtain ⟨r, compiled⟩ := compile_of_parse parses
    exact Or.inr (Or.inr ⟨r, compiled, wellFormed_of_compile compiled⟩)

end Propositional
