import Propositional.Token.Spelling

/-!
# Lexemes

A lexeme is a spelling of a symbol or a whole word. `lexeme?_eq_some_iff` says that the first rule that
matches reads the longest lexeme: no spelling starts a later one, and no word starts like a symbol.
-/

namespace Propositional.Token

def IsWord (text : List Char) : Prop :=
  (∃ c ∈ text.head?, isNameStart c = true) ∧ ∀ c ∈ text, isNamePart c = true

def IsLexeme (text : List Char) (kind : Kind) : Prop :=
  (text, kind) ∈ symbols ∨ (IsWord text ∧ kind = wordKind (String.ofList text))

def IsLongest (text lexeme : List Char) (kind : Kind) : Prop :=
  IsLexeme lexeme kind ∧ lexeme <+: text ∧
    ∀ other kind', IsLexeme other kind' → other <+: text → other.length ≤ lexeme.length

def IsName (name : String) : Prop :=
  IsWord name.toList ∧ name ∉ reserved.map Prod.fst

/-! ### Characters -/

theorem isNamePart_of_isNameStart {c : Char} (h : isNameStart c = true) : isNamePart c = true := by
  simp only [isNameStart, isNamePart, Char.isAlphanum, Bool.or_eq_true] at h ⊢
  rcases h with alpha | line
  · exact Or.inl (Or.inl alpha)
  · exact Or.inr line

theorem isBlank_of_isNamePart {c : Char} (h : isNamePart c = true) : isBlank c = false := by
  have range : 0x30 ≤ c.toNat ∧ c.toNat ≤ 0x7A := by
    have kinds : (((c.isUpper || c.isLower) || c.isDigit) || c == '_') = true := h
    simp only [Bool.or_eq_true, beq_iff_eq] at kinds
    rcases kinds with ((upper | lower) | digit) | rfl
    · have bounds : 'A'.val ≤ c.val ∧ c.val ≤ 'Z'.val := of_decide_eq_true upper
      exact ⟨Nat.le_trans (by decide) bounds.1, Nat.le_trans bounds.2 (by decide)⟩
    · obtain ⟨low, high⟩ := Bool.and_eq_true_iff.mp lower
      exact ⟨Nat.le_trans (by decide) (of_decide_eq_true low), of_decide_eq_true high⟩
    · obtain ⟨low, high⟩ := Bool.and_eq_true_iff.mp digit
      exact ⟨of_decide_eq_true low, Nat.le_trans (of_decide_eq_true high) (by decide)⟩
    · decide
  simp only [isBlank, Bool.or_eq_false_iff, Bool.and_eq_false_iff, decide_eq_false_iff_not, beq_eq_false_iff_ne]
  omega

/-! ### Symbols -/

theorem symbols_not_prefix : symbols.Pairwise fun earlier later => ¬ earlier.1 <+: later.1 := by
  decide

theorem symbols_start : ∀ symbol ∈ symbols, symbol.1.head?.any (fun c => !isNameStart c) = true := by
  decide

theorem symbols_chars : ∀ symbol ∈ symbols, symbol.1.all (fun c => isAllowed c && !isBlank c) = true := by
  decide

/-- The first entry of a table that starts the text is the longest, when no entry starts a later one. -/
theorem find?_prefix_longest {table : List (List Char × Kind)} {text : List Char} {found : List Char × Kind}
    (apart : table.Pairwise fun earlier later => ¬ earlier.1 <+: later.1)
    (h : table.find? (fun entry => entry.1.isPrefixOf text) = some found) :
    ∀ other ∈ table, other.1 <+: text → other.1.length ≤ found.1.length := by
  induction table with
  | nil => cases h
  | cons entry rest ih =>
    obtain ⟨first, later⟩ := List.pairwise_cons.mp apart
    rw [List.find?_cons] at h
    split at h
    · rename_i starts
      obtain rfl := Option.some.inj h
      intro other member match'
      rcases List.mem_cons.mp member with rfl | member
      · exact Nat.le_refl _
      · -- Two prefixes of one text are comparable, so the later one cannot be the longer one.
        have comparable := List.prefix_or_prefix_of_prefix (List.isPrefixOf_iff_prefix.mp starts) match'
        rcases comparable with longer | shorter
        · exact absurd longer (first other member)
        · exact shorter.length_le
    · rename_i differs
      intro other member match'
      rcases List.mem_cons.mp member with rfl | member
      · rw [List.isPrefixOf_iff_prefix.mpr match'] at differs
        cases differs
      · exact ih later h other member match'

theorem symbols_kind : ∀ symbol ∈ symbols, ∀ other ∈ symbols, symbol.1 = other.1 → symbol.2 = other.2 := by
  decide

/-! ### Words -/

theorem IsWord.length_le {word rest : List Char} {c : Char} (h : IsWord word) (starts : word <+: c :: rest) :
    word.length ≤ (c :: rest.takeWhile isNamePart).length := by
  cases word with
  | nil => simp
  | cons d word =>
    obtain ⟨rfl, after, rfl⟩ := List.cons_prefix_cons.mp starts
    rw [List.takeWhile_append_of_pos fun e member => h.2 e (List.mem_cons_of_mem _ member)]
    simp

theorem isWord_takeWhile {c : Char} (first : isNameStart c = true) (rest : List Char) :
    IsWord (c :: rest.takeWhile isNamePart) := by
  refine ⟨⟨c, rfl, first⟩, fun d member => ?_⟩
  rcases List.mem_cons.mp member with rfl | member
  · exact isNamePart_of_isNameStart first
  · exact List.all_eq_true.mp List.all_takeWhile d member

theorem IsWord.head {word text : List Char} (h : IsWord word) (starts : word <+: text) :
    ∃ c rest, text = c :: rest ∧ isNameStart c = true := by
  obtain ⟨⟨c, head, first⟩, _⟩ := h
  obtain ⟨after, rfl⟩ := starts
  cases word with
  | nil => cases head
  | cons d word =>
    obtain rfl := Option.some.inj head
    exact ⟨d, word ++ after, rfl, first⟩

theorem not_isWord_of_symbol {word text : List Char} {symbol : List Char × Kind} (member : symbol ∈ symbols)
    (starts : symbol.1 <+: text) (word_starts : word <+: text) : ¬ IsWord word := by
  intro h
  obtain ⟨c, rest, rfl, first⟩ := h.head word_starts
  have symbolic := symbols_start symbol member
  obtain ⟨after, split⟩ := starts
  cases spelling : symbol.1 with
  | nil =>
    rw [spelling] at symbolic
    cases symbolic
  | cons d tail =>
    rw [spelling] at split symbolic
    obtain ⟨rfl, _⟩ := List.cons.inj split
    simp [first] at symbolic

/-! ### The longest lexeme -/

theorem IsLexeme.unique {text : List Char} {k j : Kind} (left : IsLexeme text k) (right : IsLexeme text j) :
    k = j := by
  rcases left with left | ⟨left, rfl⟩ <;> rcases right with right | ⟨right, rfl⟩
  · exact symbols_kind _ left _ right rfl
  · exact absurd right (not_isWord_of_symbol left (List.prefix_refl _) (List.prefix_refl _))
  · exact absurd left (not_isWord_of_symbol right (List.prefix_refl _) (List.prefix_refl _))
  · rfl

theorem IsLongest.unique {text v w : List Char} {k j : Kind} (left : IsLongest text v k)
    (right : IsLongest text w j) : v = w ∧ k = j := by
  have longer := right.2.2 v k left.1 left.2.1
  have shorter := left.2.2 w j right.1 right.2.1
  have same : v = w := (List.prefix_of_prefix_length_le left.2.1 right.2.1 longer).eq_of_length (by omega)
  subst same
  exact ⟨rfl, left.1.unique right.1⟩

theorem symbol?_isLongest {text w : List Char} {k : Kind} (h : symbol? text = some (w, k)) :
    IsLongest text w k := by
  have member : (w, k) ∈ symbols := List.mem_of_find?_eq_some h
  have begins : w.isPrefixOf text = true := by
    unfold symbol? at h
    simpa using List.find?_some h
  have starts : w <+: text := List.isPrefixOf_iff_prefix.mp begins
  refine ⟨Or.inl member, starts, fun other kind lexeme begins => ?_⟩
  rcases lexeme with symbol | ⟨word, _⟩
  · exact find?_prefix_longest symbols_not_prefix h _ symbol begins
  · exact absurd word (not_isWord_of_symbol member starts begins)

theorem word?_isLongest {text w : List Char} {k : Kind} (none : symbol? text = none)
    (h : word? text = some (w, k)) : IsLongest text w k := by
  cases text with
  | nil => cases h
  | cons c rest =>
    rw [word?] at h
    split at h
    · rename_i first
      obtain ⟨rfl, rfl⟩ := Prod.mk.inj (Option.some.inj h)
      refine ⟨Or.inr ⟨isWord_takeWhile first rest, rfl⟩, ?_, fun other kind lexeme begins => ?_⟩
      · exact List.cons_prefix_cons.mpr ⟨rfl, List.takeWhile_prefix _⟩
      · rcases lexeme with symbol | ⟨word, _⟩
        · have absent := List.find?_eq_none.mp none _ symbol
          exact absurd (List.isPrefixOf_iff_prefix.mpr begins) absent
        · exact word.length_le begins
    · cases h

theorem lexeme?_isLongest {text w : List Char} {k : Kind} (h : lexeme? text = some (w, k)) :
    IsLongest text w k := by
  unfold lexeme? at h
  cases symbol : symbol? text with
  | some found =>
    rw [symbol] at h
    obtain rfl := Option.some.inj h
    exact symbol?_isLongest symbol
  | none =>
    rw [symbol] at h
    exact word?_isLongest symbol h

theorem lexeme?_eq_none_iff {text : List Char} :
    lexeme? text = none ↔ ∀ w k, IsLexeme w k → ¬ w <+: text := by
  constructor
  · intro none w k lexeme begins
    have ⟨noSymbol, noWord⟩ : symbol? text = .none ∧ word? text = .none := by
      simpa [lexeme?] using none
    rcases lexeme with symbol | ⟨word, _⟩
    · exact List.find?_eq_none.mp noSymbol _ symbol (List.isPrefixOf_iff_prefix.mpr begins)
    · obtain ⟨c, rest, rfl, first⟩ := word.head begins
      rw [word?, if_pos first] at noWord
      cases noWord
  · intro absent
    cases found : lexeme? text with
    | none => rfl
    | some lexeme =>
      have longest := lexeme?_isLongest found
      exact absurd longest.2.1 (absent _ _ longest.1)

theorem lexeme?_eq_some_iff {text w : List Char} {k : Kind} :
    lexeme? text = some (w, k) ↔ IsLongest text w k := by
  constructor
  · exact lexeme?_isLongest
  · intro longest
    cases found : lexeme? text with
    | none => exact absurd longest.2.1 (lexeme?_eq_none_iff.mp found _ _ longest.1)
    | some lexeme =>
      obtain ⟨rfl, rfl⟩ := (lexeme?_isLongest found).unique longest
      rfl

/-! ### The characters of a lexeme -/

theorem IsLexeme.chars {w : List Char} {k : Kind} (h : IsLexeme w k) :
    w ≠ [] ∧ ∀ c ∈ w, isAllowed c = true ∧ isBlank c = false := by
  rcases h with symbol | ⟨⟨⟨first, head, _⟩, parts⟩, _⟩
  · have nonempty : w ≠ [] := by
      rintro rfl
      cases symbols_start _ symbol
    have chars := symbols_chars _ symbol
    simp only [List.all_eq_true, Bool.and_eq_true, Bool.not_eq_true'] at chars
    exact ⟨nonempty, chars⟩
  · have nonempty : w ≠ [] := by
      rintro rfl
      cases head
    exact ⟨nonempty, fun c member => ⟨by simp [isAllowed, parts c member], isBlank_of_isNamePart (parts c member)⟩⟩

/-! ### Names -/

theorem reserved_kind : ∀ entry ∈ reserved, entry.2 ≠ .var ∧ entry.2 ≠ .eof := by
  decide

theorem symbols_kind_ne : ∀ symbol ∈ symbols, symbol.2 ≠ .var ∧ symbol.2 ≠ .eof := by
  decide

theorem wordKind_eq_var_iff {name : String} : wordKind name = .var ↔ name ∉ reserved.map Prod.fst := by
  unfold wordKind
  cases found : reserved.lookup name with
  | none =>
    have absent : name ∉ reserved.map Prod.fst := by
      intro member
      obtain ⟨entry, inside, rfl⟩ := List.mem_map.mp member
      have differs := List.lookup_eq_none_iff.mp found entry inside
      simp at differs
    exact ⟨fun _ => absent, fun _ => rfl⟩
  | some kind =>
    obtain ⟨before, after, split, _⟩ := List.lookup_eq_some_iff.mp found
    have member : (name, kind) ∈ reserved := by simp [split]
    constructor
    · intro var
      exact absurd var (reserved_kind _ member).1
    · intro absent
      exact absurd (List.mem_map_of_mem member) absent

theorem IsLexeme.kind_ne_eof {w : List Char} {k : Kind} (h : IsLexeme w k) : k ≠ .eof := by
  rcases h with symbol | ⟨_, rfl⟩
  · exact (symbols_kind_ne _ symbol).2
  · unfold wordKind
    cases found : reserved.lookup (String.ofList w) with
    | none => simp
    | some kind =>
      obtain ⟨before, after, split, _⟩ := List.lookup_eq_some_iff.mp found
      exact (reserved_kind (String.ofList w, kind) (by simp [split])).2

theorem IsLexeme.isName {name : String} (h : IsLexeme name.toList .var) : IsName name := by
  rcases h with symbol | ⟨word, kind⟩
  · exact absurd rfl (symbols_kind_ne _ symbol).1
  · rw [String.ofList_toList] at kind
    exact ⟨word, wordKind_eq_var_iff.mp kind.symm⟩

theorem IsName.isLexeme {name : String} (h : IsName name) : IsLexeme name.toList .var := by
  refine Or.inr ⟨h.1, ?_⟩
  rw [String.ofList_toList]
  exact (wordKind_eq_var_iff.mpr h.2).symm

/-- A word that no further name character follows is the longest lexeme. -/
theorem IsWord.isLongest {word rest : List Char} (h : IsWord word) (breaks : ∀ c ∈ rest.head?, isNamePart c = false) :
    IsLongest (word ++ rest) word (wordKind (String.ofList word)) := by
  have starts : word <+: word ++ rest := List.prefix_append word rest
  refine ⟨Or.inr ⟨h, rfl⟩, starts, fun other kind lexeme begins => ?_⟩
  rcases lexeme with symbol | ⟨longer, _⟩
  · exact absurd h (not_isWord_of_symbol symbol begins starts)
  · rcases List.prefix_or_prefix_of_prefix begins starts with shorter | ⟨extra, split⟩
    · exact shorter.length_le
    · subst split
      obtain ⟨after, rfl⟩ := (List.prefix_append_right_inj word).mp begins
      cases extra with
      | nil => simp
      | cons c extra =>
        have part := longer.2 c (by simp)
        rw [breaks c rfl] at part
        cases part

theorem IsName.isLongest {name : String} {rest : List Char} (h : IsName name)
    (breaks : ∀ c ∈ rest.head?, isNamePart c = false) : IsLongest (name.toList ++ rest) name.toList .var := by
  have longest := h.1.isLongest breaks
  rw [String.ofList_toList, wordKind_eq_var_iff.mpr h.2] at longest
  exact longest

end Propositional.Token
