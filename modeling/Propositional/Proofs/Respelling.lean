import Propositional.Proofs.Stacks.Alike
import Propositional.Proofs.Token.Seam
import Propositional.Proofs.WellFormed

/-!
# Spellings and blanks

`Writes` says that a text writes a list of symbols and names, in any spelling and with any blanks. What a
text writes is all that matters: `compile_respelled` says that two texts which write the same have the same
outcome.
-/

namespace Propositional

open Token

/-- What a lexeme says, however it is spelled. -/
inductive Item where
  | symbol (kind : Token.Kind)
  | name (name : String)

def Token.item (token : Token) : Item :=
  if token.kind = .var then .name token.lexeme else .symbol token.kind

/-- A symbol has several spellings, a name only one. -/
inductive Item.Spelled : Item → List Char → Prop where
  | symbol {k : Kind} {w : List Char} (lexeme : IsLexeme w k) (fixed : k ≠ .var) : Spelled (.symbol k) w
  | name {name : String} (valid : IsName name) : Spelled (.name name) name.toList

/-- The items one after the other, each in front of blanks that are missing at most at the end. -/
inductive Written : List Item → List Char → Prop where
  | nil : Written [] []
  | cons {item : Item} {items : List Item} {w gap text : List Char} (spelled : item.Spelled w)
      (blank : ∀ c ∈ gap, isBlank c = true) (apart : items ≠ [] → gap ≠ []) (after : Written items text) :
      Written (item :: items) (w ++ (gap ++ text))

/-- The text writes the items, perhaps behind blanks. -/
def Writes (items : List Item) (text : String) : Prop :=
  ∃ gap written, text.toList = gap ++ written ∧ (∀ c ∈ gap, isBlank c = true) ∧ Written items written

variable {items : List Item} {text s t : String}

/-! ### Scanning -/

theorem munch_blanks {p q : Nat} {gap rest left : List Char} {tokens : List Token}
    (blank : ∀ c ∈ gap, isBlank c = true) (after : Munch (p + gap.length) rest tokens q left) :
    Munch p (gap ++ rest) tokens q left := by
  induction gap generalizing p with
  | nil => exact after
  | cons c gap ih =>
    obtain ⟨first, later⟩ := List.forall_mem_cons.mp blank
    have place : p + (c :: gap).length = p + 1 + gap.length := by simp only [List.length_cons]; omega
    rw [place] at after
    exact .blank first (ih later after)

theorem Item.Spelled.token {item : Item} {w : List Char} (spelled : item.Spelled w) (start stop : Int) :
    ∃ k, IsLexeme w k ∧ Token.item ⟨k, start, stop, String.ofList w, none⟩ = item := by
  cases spelled with
  | @symbol k w lexeme fixed => exact ⟨k, lexeme, if_neg fixed⟩
  | @name name valid => exact ⟨.var, valid.isLexeme, by simp [Token.item]⟩

theorem Written.munch {written : List Char} (h : Written items written) (p : Nat) :
    ∃ tokens q, Munch p written tokens q [] ∧ tokens.map Token.item = items := by
  induction h generalizing p with
  | nil => exact ⟨[], p, .done, rfl⟩
  | @cons item items w gap text spelled blank apart after ih =>
    obtain ⟨k, lexeme, reads⟩ := spelled.token p (p + w.length : Nat)
    obtain ⟨tokens, q, munch, rest⟩ := ih (p + w.length + gap.length)
    have seam : ∀ c ∈ (gap ++ text).head?, Separates c := by
      cases gap with
      | cons c gap => exact separates_head (separates_of_blank (blank c List.mem_cons_self)) (gap ++ text)
      | nil =>
        have last : items = [] := not_imp_not.mp apart rfl
        subst last
        cases after
        simp
    refine ⟨_, q, .lexeme (lexeme.isLongest seam) (munch_blanks blank munch), ?_⟩
    rw [List.map_cons, reads, rest]

theorem Writes.munch (writes : Writes items text) :
    ∃ tokens q, Munch 0 text.toList tokens q [] ∧ tokens.map Token.item = items := by
  obtain ⟨gap, written, split, blank, after⟩ := writes
  obtain ⟨tokens, q, munch, reads⟩ := after.munch (0 + gap.length)
  rw [split]
  exact ⟨tokens, q, munch_blanks blank munch, reads⟩

theorem item_eq_name_iff {token : Token} {name : String} :
    token.item = .name name ↔ token.kind = .var ∧ token.lexeme = name := by
  unfold Token.item
  split
  · rename_i named
    simp [named]
  · rename_i other
    simp [other]

theorem item_eq_symbol_iff {token : Token} {k : Kind} :
    token.item = .symbol k ↔ token.kind ≠ .var ∧ token.kind = k := by
  unfold Token.item
  split
  · rename_i named
    simp [named]
  · rename_i other
    simp [other]

theorem item_indexIn (table : List String) (token : Token) : (indexIn table token).item = token.item := by
  rw [Token.item, Token.item, kind_indexIn, lexeme_indexIn]

theorem sortNames_seenNames_eq {us vs : List Token} (same : us.map Token.item = vs.map Token.item) :
    sortNames (seenNames us) = sortNames (seenNames vs) := by
  have members : ∀ tokens name, name ∈ seenNames tokens ↔ Item.name name ∈ tokens.map Token.item := by
    intro tokens name
    simp only [mem_seenNames, List.mem_map, item_eq_name_iff]
  refine sortNames_eq (sortNames_pairwise _) fun name => ?_
  rw [mem_sortNames, members, members, same]

/-- Tokens that say the same, numbered by one table. -/
theorem indexIn_alike {x y : Token} (same : x.item = y.item) (plain : x.index = none) (plain' : y.index = none)
    (table : List String) : (indexIn table x).Alike (indexIn table y) := by
  by_cases named : x.kind = .var
  · have shown : x.item = .name x.lexeme := if_pos named
    obtain ⟨named', spelled⟩ := item_eq_name_iff.mp (same.symm.trans shown)
    refine ⟨by rw [kind_indexIn, kind_indexIn, named, named'], ?_⟩
    rw [index_indexIn named, index_indexIn named', spelled]
  · have shown : x.item = .symbol x.kind := if_neg named
    obtain ⟨other, kind⟩ := item_eq_symbol_iff.mp (same.symm.trans shown)
    refine ⟨by rw [kind_indexIn, kind_indexIn, kind], ?_⟩
    rw [indexIn, if_neg named, indexIn, if_neg other, plain, plain']

/-! ### Parsing -/

theorem numbered_alike {us vs : List Token} (same : us.map Token.item = vs.map Token.item)
    (plain : ∀ token ∈ us, token.index = none) (plain' : ∀ token ∈ vs, token.index = none) (table : List String) :
    List.Forall₂ Token.Alike (us.map (indexIn table)) (vs.map (indexIn table)) := by
  induction us generalizing vs with
  | nil =>
    obtain rfl := List.map_eq_nil_iff.mp same.symm
    exact .nil
  | cons x us ih =>
    obtain ⟨y, vs, rfl, first, rest⟩ := List.map_eq_cons_iff.mp same.symm
    obtain ⟨bare, later⟩ := List.forall_mem_cons.mp plain
    obtain ⟨bare', later'⟩ := List.forall_mem_cons.mp plain'
    exact .cons (indexIn_alike first.symm bare bare' table) (ih rest.symm later later')

theorem item_numbered {tokens : List Token} (table : List String) {stop : Token} (ends : stop.kind = .eof)
    (reads : tokens.map Token.item = items) :
    (tokens.map (indexIn table) ++ [stop]).map Token.item = items ++ [.symbol .eof] := by
  have last : stop.item = .symbol .eof := item_eq_symbol_iff.mpr ⟨by simp [ends], ends⟩
  rw [List.map_append, List.map_map, List.map_singleton, last, ← reads]
  simp only [Function.comp_def, item_indexIn]

/-- Only a formula without any tokens is called empty. -/
theorem eq_nil_of_emptyFormula {tokens : List Token} {p : Nat} {table : List String} {stop : Token} {i j : Int}
    (munch : Munch 0 text.toList tokens p []) (ends : stop.kind = .eof)
    (failed : parseTokens (tokens.map (indexIn table) ++ [stop]) = .error (.fault .emptyFormula i j)) :
    tokens = [] := by
  have empty : Rejects (tokens.map (indexIn table) ++ [stop]) ⟨"The formula is empty.", i, j⟩ := ⟨_, failed, rfl⟩
  obtain ⟨k, inside, _, dead⟩ | ⟨_, ⟨_, f, parsed⟩ | ⟨rejection, found, ended⟩⟩ :=
    parse_localized (kind_indexIn_ne_eof munch table) ends (index_ne_none_of_mem table tokens)
  · have said := congrArg Rejection.description (empty.unique dead)
    simp only [deadRejection] at said
    split at said
    · simp at said
    · split at said <;> simp at said
  · cases failed.symm.trans parsed
  · obtain rfl := empty.unique ended
    unfold endRejection? at found
    split at found
    · rename_i last
      exact List.map_eq_nil_iff.mp (List.getLast?_eq_none_iff.mp last)
    · split at found
      · simp at found
      · split at found
        · simp at found
        · obtain ⟨innermost, _, shown⟩ := Option.map_eq_some_iff.mp found
          simp at shown

/-! ### Outcomes -/

theorem compile_of_scan {tokens : List Token} {names : List String} {f : Formula Int}
    (scanned : scan text = .ok ⟨tokens, names⟩) (parsed : parseTokens tokens = .ok f) :
    ∃ r, compile text = .ok r ∧ r.names = names ∧ r.positions = f := by
  have parses : parse text = .ok ⟨f, names⟩ := by
    rw [parse, scanned]
    simp only [parsed]
  obtain ⟨r, compiled⟩ := compile_of_parse parses
  have back := (parse_of_compile compiled).2
  rw [parses] at back
  obtain ⟨ast, table⟩ := Parsed.mk.inj (Except.ok.inj back)
  exact ⟨r, compiled, table.symm, ast.symm⟩

theorem compile_failed {tokens : List Token} {names : List String} {failure : Failure}
    (scanned : scan text = .ok ⟨tokens, names⟩) (failed : parseTokens tokens = .error failure) :
    compile text = .error (.parse failure) := by
  rw [compile, parse, scanned]
  simp only [failed, Except.bind]

theorem formatted_congr {q r : Compiled} (names : q.names = r.names) (ast : q.positions = r.positions) :
    q.formatted = r.formatted := by
  rw [q.formatted_eq, r.formatted_eq, q.named_eq, r.named_eq, names, ast]

/-- Two texts that write the same symbols and names are scanned to just these, and they have the same outcome:
the same formula over the same names, or the same mistake at the token at the same place. -/
theorem compile_respelled (items : List Item) (s t : String) (first : Writes items s) (second : Writes items t) :
    ∃ m n : Scanned, scan s = .ok m ∧ scan t = .ok n ∧
      m.tokens.map Token.item = items ++ [.symbol .eof] ∧ n.tokens.map Token.item = items ++ [.symbol .eof] ∧
      ((∃ q r, compile s = .ok q ∧ compile t = .ok r ∧ q.names = r.names ∧ q.positions = r.positions ∧
          q.formatted = r.formatted) ∨
        (items = [] ∧ compile s = .error (.parse (.fault .emptyFormula 0 0)) ∧
          compile t = .error (.parse (.fault .emptyFormula 0 0))) ∨
        ∃ (fault : Fault) (k : Nat) (x y : Token), m.tokens[k]? = some x ∧ n.tokens[k]? = some y ∧
          compile s = .error (.parse (fault.on x)) ∧ compile t = .error (.parse (fault.on y))) := by
  obtain ⟨us, p, munch, reads⟩ := first.munch
  obtain ⟨vs, q, munch', reads'⟩ := second.munch
  have same : us.map Token.item = vs.map Token.item := reads.trans reads'.symm
  have scanned := scan_of_munch munch
  have scanned' := scan_of_munch munch'
  rw [← sortNames_seenNames_eq same] at scanned'
  generalize sortNames (seenNames us) = table at scanned scanned'
  refine ⟨_, _, scanned, scanned', item_numbered table rfl reads, item_numbered table rfl reads', ?_⟩
  have stop : List.Forall₂ Token.Alike
      [⟨.eof, s.length, s.length, "", none⟩] [⟨.eof, t.length, t.length, "", none⟩] := .cons ⟨rfl, rfl⟩ .nil
  have alike := List.rel_append (numbered_alike same munch.unnumbered munch'.unnumbered table) stop
  obtain ⟨f, parsed, parsed'⟩ | ⟨fault, k, x, y, here, there, failed, failed'⟩ | ⟨failure, failed, failed', blames⟩ :=
    parseTokens_alike alike
  · obtain ⟨q, compiled, names, ast⟩ := compile_of_scan scanned parsed
    obtain ⟨r, compiled', names', ast'⟩ := compile_of_scan scanned' parsed'
    have table := names.trans names'.symm
    have positions := ast.trans ast'.symm
    exact Or.inl ⟨q, r, compiled, compiled', table, positions, formatted_congr table positions⟩
  · have first := compile_failed scanned failed
    have second := compile_failed scanned' failed'
    exact Or.inr (Or.inr ⟨fault, k, x, y, here, there, first, second⟩)
  · -- A text fails only with a mistake of its author, and the only one without a token is the empty formula.
    obtain rfl : failure = .fault .emptyFormula 0 0 := by
      obtain ⟨f, parsed⟩ | ⟨fault, i, j, mistake⟩ :=
        parseTokens_outcome munch table ⟨.eof, s.length, s.length, "", none⟩ rfl
      · cases failed.symm.trans parsed
      · exact blames fault i j (Except.error.inj (failed.symm.trans mistake))
    obtain rfl := eq_nil_of_emptyFormula munch rfl failed
    exact Or.inr (Or.inl ⟨reads.symm, compile_failed scanned failed, compile_failed scanned' failed'⟩)

/-- "p =>" and the same with another arrow and other blanks: the arrow is missing an operand. -/
theorem compile_respelled_arrow : Writes [.name "p", .symbol (.connective .implies)] "p =>" ∧
    Writes [.name "p", .symbol (.connective .implies)] "\tp  \\to " ∧
    compile "p =>" = .error (.parse (.fault .missingOperand 2 4)) ∧
    ∃ (n : Scanned) (k : Nat) (y : Token), scan "\tp  \\to " = .ok n ∧ n.tokens[k]? = some y ∧
      compile "\tp  \\to " = .error (.parse (Fault.missingOperand.on y)) := by
  have name : (Item.name "p").Spelled ['p'] := .name ⟨⟨⟨'p', rfl, rfl⟩, List.all_eq_true.mp rfl⟩, by decide⟩
  have first : Writes [.name "p", .symbol (.connective .implies)] "p =>" := by
    have arrow : (Item.symbol (.connective .implies)).Spelled ['=', '>'] := .symbol (Or.inl (by decide)) (by decide)
    have last : Written [.symbol (.connective .implies)] (['=', '>'] ++ ([] ++ [])) :=
      .cons arrow (List.all_eq_true.mp rfl) (by simp) .nil
    have both : Written [.name "p", .symbol (.connective .implies)] (['p'] ++ ([' '] ++ ['=', '>'])) :=
      .cons name (List.all_eq_true.mp rfl) (by simp) last
    exact ⟨[], _, rfl, List.all_eq_true.mp rfl, both⟩
  have second : Writes [.name "p", .symbol (.connective .implies)] "\tp  \\to " := by
    have arrow : (Item.symbol (.connective .implies)).Spelled ['\\', 't', 'o'] :=
      .symbol (Or.inl (by decide)) (by decide)
    have last : Written [.symbol (.connective .implies)] (['\\', 't', 'o'] ++ ([' '] ++ [])) :=
      .cons arrow (List.all_eq_true.mp rfl) (by simp) .nil
    have both : Written [.name "p", .symbol (.connective .implies)] (['p'] ++ ([' ', ' '] ++ ['\\', 't', 'o', ' '])) :=
      .cons name (List.all_eq_true.mp rfl) (by simp) last
    exact ⟨['\t'], _, rfl, List.all_eq_true.mp rfl, both⟩
  have known : compile "p =>" = .error (.parse (.fault .missingOperand 2 4)) := by decide +kernel
  refine ⟨first, second, known, ?_⟩
  obtain ⟨_, n, _, scanned, _, _, ⟨q, _, compiled, _⟩ | ⟨none, _⟩ | ⟨fault, k, x, y, _, there, failed, failed'⟩⟩ :=
    compile_respelled _ _ _ first second
  · rw [known] at compiled
    cases compiled
  · cases none
  · rw [known] at failed
    obtain ⟨rfl, _⟩ := Failure.fault.inj (CompileError.parse.inj (Except.error.inj failed))
    exact ⟨n, k, y, scanned, there, failed'⟩

end Propositional
