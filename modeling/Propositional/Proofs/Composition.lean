import Mathlib.Data.List.Forall2
import Propositional.Proofs.Classification
import Propositional.Proofs.Joint
import Propositional.Proofs.Rendering
import Propositional.Proofs.Token.Seam

/-!
# Formulas put together from texts

A text that compiles is one operand when it stands in parentheses, whatever is around it (`munch_group`).
`compile_composed` says that joining texts by a connective, or negating one, does the same to their formulas.
`compile_conjunction` says that joining texts by "and" gives one formula that is satisfiable exactly when
the texts are satisfiable together.
-/

namespace Propositional

open Token

/-- The conjunction of one or more formulas, grouped to the right. -/
def Formula.conjoin {ν : Type} (f : Formula ν) : List (Formula ν) → Formula ν
  | [] => f
  | g :: gs => .binary .and f (g.conjoin gs)

def conjunctionText (texts : List String) : String :=
  " and ".intercalate (texts.map fun text => "(" ++ text ++ ")")

theorem Formula.holds_conjoin {ν : Type} (v : ν → Bool) (f : Formula ν) (gs : List (Formula ν)) :
    (f.conjoin gs).holds v = (f :: gs).all (·.holds v) := by
  induction gs generalizing f with
  | nil => simp [conjoin]
  | cons g gs ih => simp only [conjoin, holds, ih, List.all_cons]

theorem Formula.leaves_conjoin {ν : Type} (f : Formula ν) (gs : List (Formula ν)) :
    (f.conjoin gs).leaves = (f :: gs).flatMap leaves := by
  induction gs generalizing f with
  | nil => simp [conjoin]
  | cons g gs ih => rw [conjoin, leaves, ih, List.flatMap_cons, List.flatMap_cons, List.flatMap_cons]

/-! ### Reading a text in parentheses -/

theorem Derives.shift {n : Nonterminal} {tokens : List Token} {f : Formula String}
    (h : Derives Token.spelled n tokens f) (d : Nat) :
    Derives Token.spelled n (tokens.map (Token.shift d)) f := by
  have same : ∀ token ∈ tokens, token.kind = .var → ∀ name, token.spelled = some name →
      (Token.shift d token).spelled = some name := fun _ _ _ _ spelled => spelled
  have moved := h.relabel (kind_shift d) same
  rw [Formula.map_self] at moved
  exact moved

theorem munch_group {text : String} {tokens : List Token} {n : Nat} {f : Formula String}
    (munch : Munch 0 text.toList tokens n []) (derives : Derives Token.spelled .start tokens f) (p : Nat)
    (rest : List Char) : ∃ group q, Munch p ('(' :: (text.toList ++ ')' :: rest)) group q rest ∧
      Derives Token.spelled .atom group f := by
  have inside : Munch (p + 1) (text.toList ++ ')' :: rest) (tokens.map (Token.shift (p + 1))) (n + (p + 1))
      (')' :: rest) := by
    have moved := (munch.shift (p + 1)).append (separates_head separates_rparen rest)
    rw [Nat.zero_add] at moved
    exact moved
  have opening : lexeme? ('(' :: (text.toList ++ ')' :: rest)) = some (['('], .lparen) := rfl
  have closing : lexeme? (')' :: rest) = some ([')'], .rparen) := rfl
  exact ⟨_, _, .glyph opening (inside.trans (.glyph closing .done)), .group rfl (derives.shift (p + 1)) rfl⟩

/-- A lexeme between blanks is read as it stands. -/
theorem munch_spaced {w : List Char} {k : Kind} (lexeme : IsLexeme w k) {p q : Nat} {rest left : List Char}
    {tokens : List Token} (after : Munch (p + 1 + w.length + 1) rest tokens q left) :
    ∃ sign : Token, sign.kind = k ∧ Munch p (' ' :: (w ++ ' ' :: rest)) (sign :: tokens) q left := by
  have space : isBlank ' ' = true := rfl
  have longest := lexeme.isLongest (separates_head (separates_of_blank space) rest)
  exact ⟨_, rfl, .blank space (.lexeme longest (.blank space after))⟩

theorem isLexeme_and : IsLexeme ['a', 'n', 'd'] (.connective .and) :=
  Or.inr ⟨⟨⟨'a', rfl, rfl⟩, List.all_eq_true.mp rfl⟩, rfl⟩

/-! ### One connective -/

section Composed

variable {s t b n text : String} {q r : Compiled} {c : Connective}

/-- The place in a new table of the name at a place of the old one. -/
def renumber (old new : List String) (i : Int) : Int :=
  ((new.idxOf (nameAt old i) : Nat) : Int)

theorem Compiled.map_renumber (r : Compiled) (names : List String) :
    r.positions.map (renumber r.names names) = r.named.map fun name => ((names.idxOf name : Nat) : Int) := by
  rw [r.named_eq, Formula.map_map]
  rfl

theorem munch_joined (first : compile s = .ok q) (second : compile t = .ok r)
    (joins : IsLexeme b.toList (.connective c)) : ∃ tokens p,
      Munch 0 ("(" ++ s ++ ") " ++ b ++ " (" ++ t ++ ")").toList tokens p [] ∧
        Derives Token.spelled .start tokens (.binary c q.named r.named) := by
  obtain ⟨_, ls, munchLeft, _, left⟩ := derives_of_compile first
  obtain ⟨_, rs, munchRight, _, right⟩ := derives_of_compile second
  obtain ⟨lefts, m, opening, left⟩ :=
    munch_group munchLeft left 0 (' ' :: (b.toList ++ ' ' :: '(' :: (t.toList ++ [')'])))
  obtain ⟨rights, p, closing, right⟩ := munch_group munchRight right (m + 1 + b.toList.length + 1) []
  obtain ⟨sign, kind, joined⟩ := munch_spaced joins closing
  have tight : (Nonterminal.chain c).rank ≤ Nonterminal.atom.rank := Nonterminal.rank_le_atom _
  have chain : Derives Token.spelled (.chain c) (lefts ++ sign :: rights) (.binary c q.named r.named) :=
    .chain (left.loosen (Nonterminal.rank_le_atom _)) kind (right.loosen tight)
  have split : ("(" ++ s ++ ") " ++ b ++ " (" ++ t ++ ")").toList =
      '(' :: (s.toList ++ ')' :: ' ' :: (b.toList ++ ' ' :: '(' :: (t.toList ++ [')']))) := by simp
  rw [split]
  exact ⟨_, p, opening.trans joined, chain.loosen (Nonterminal.rank_start_le _)⟩

theorem munch_negated (compiled : compile s = .ok q) (negates : IsLexeme n.toList .not) : ∃ tokens p,
    Munch 0 (n ++ " (" ++ s ++ ")").toList tokens p [] ∧ Derives Token.spelled .start tokens (.not q.named) := by
  obtain ⟨_, tokens, munch, _, derives⟩ := derives_of_compile compiled
  obtain ⟨group, p, munch, derives⟩ := munch_group munch derives (0 + n.toList.length + 1) []
  have space : isBlank ' ' = true := rfl
  have longest := negates.isLongest (separates_head (separates_of_blank space) ('(' :: (s.toList ++ [')'])))
  have split : (n ++ " (" ++ s ++ ")").toList = n.toList ++ ' ' :: '(' :: (s.toList ++ [')']) := by simp
  have negated : ∀ sign : Token, sign.kind = .not → Derives Token.spelled .start (sign :: group) (.not q.named) :=
    fun sign kind => (Derives.not kind (.atom derives)).loosen (Nonterminal.rank_start_le _)
  rw [split]
  exact ⟨_, p, .lexeme longest (.blank space munch), negated _ rfl⟩

theorem munch_grouped (compiled : compile s = .ok q) : ∃ tokens p,
    Munch 0 ("(" ++ s ++ ")").toList tokens p [] ∧ Derives Token.spelled .start tokens q.named := by
  obtain ⟨_, tokens, munch, _, derives⟩ := derives_of_compile compiled
  obtain ⟨group, p, munch, derives⟩ := munch_group munch derives 0 []
  have split : ("(" ++ s ++ ")").toList = '(' :: (s.toList ++ [')']) := by simp
  rw [split]
  exact ⟨_, p, munch, derives.loosen (Nonterminal.rank_start_le _)⟩

/-- A text whose formula has the leaves of one that compiles has its table. -/
theorem compile_over {tokens : List Token} {p : Nat} {ast : Formula (Fin q.names.length)}
    (compiled : compile s = .ok q) (munch : Munch 0 text.toList tokens p [])
    (derives : Derives Token.spelled .start tokens (ast.map q.names.get))
    (leaves : (ast.map q.names.get).leaves = q.named.leaves) : compile text = .ok ⟨text, q.names, ast⟩ := by
  obtain ⟨u, composed, source, _, named⟩ := compile_of_derives munch derives
  have names : u.names = q.names := by
    rw [names_of_compile composed, named, leaves, ← names_of_compile compiled]
  have distinct : q.names.Nodup := nodup_names compiled
  have same : u = ⟨text, q.names, ast⟩ := Compiled.eq_of_named distinct source names named
  rw [composed, same]

/-- Texts that compile are operands of larger texts, under any spelling of a connective or of negation and in
parentheses. -/
theorem compile_composed (first : compile s = .ok q) (second : compile t = .ok r)
    (joins : IsLexeme b.toList (.connective c)) (negates : IsLexeme n.toList .not) :
    (∃ u, compile ("(" ++ s ++ ") " ++ b ++ " (" ++ t ++ ")") = .ok u ∧ u.names.Pairwise (· < ·) ∧
      (∀ name, name ∈ u.names ↔ name ∈ q.names ∨ name ∈ r.names) ∧
      u.positions =
        .binary c (q.positions.map (renumber q.names u.names)) (r.positions.map (renumber r.names u.names)) ∧
      u.formatted = "(" ++ q.formatted ++ " " ++ c.glyph ++ " " ++ r.formatted ++ ")") ∧
    (∃ u, compile (n ++ " (" ++ s ++ ")") = .ok u ∧ u.names = q.names ∧ u.positions = .not q.positions ∧
      u.formatted = "¬" ++ q.formatted) ∧
    ∃ u, compile ("(" ++ s ++ ")") = .ok u ∧ u.names = q.names ∧ u.positions = q.positions ∧
      u.formatted = q.formatted := by
  refine ⟨?_, ?_, ?_⟩
  · obtain ⟨tokens, p, munch, derives⟩ := munch_joined first second joins
    obtain ⟨u, joined, _, _, named⟩ := compile_of_derives munch derives
    obtain ⟨_, sorted, members, _⟩ := compile_eq_ok_iff.mp joined
    refine ⟨u, joined, sorted, fun name => ?_, ?_, ?_⟩
    · rw [members, named, Formula.leaves, List.mem_append, mem_names_iff first, mem_names_iff second]
    · rw [u.positions_eq (nodup_of_increasing sorted), named, q.map_renumber, r.map_renumber]
      rfl
    · rw [u.formatted_eq, named, Formula.render_binary, q.formatted_eq, r.formatted_eq]
  · obtain ⟨tokens, p, munch, derives⟩ := munch_negated first negates
    have negated : compile (n ++ " (" ++ s ++ ")") = .ok ⟨_, q.names, .not q.ast⟩ :=
      compile_over first munch derives rfl
    exact ⟨_, negated, rfl, rfl, Formula.render_not _ _⟩
  · obtain ⟨tokens, p, munch, derives⟩ := munch_grouped first
    have grouped : compile ("(" ++ s ++ ")") = .ok ⟨_, q.names, q.ast⟩ := compile_over first munch derives rfl
    exact ⟨_, grouped, rfl, rfl, rfl⟩

/-- "q -> ~p" and "q": the name of the second text has another place in the common table. -/
theorem compile_composed_crossed :
    compile "q -> ~p" = .ok ⟨"q -> ~p", ["p", "q"], .binary .implies (.var 1) (.not (.var 0))⟩ ∧
    compile "q" = .ok ⟨"q", ["q"], .var 0⟩ ∧
    IsLexeme "\\leftrightarrow".toList (.connective .iff) ∧ IsLexeme "not".toList .not ∧
    (∃ u, compile "(q -> ~p) \\leftrightarrow (q)" = .ok u ∧
      u.positions = .binary .iff (.binary .implies (.var 1) (.not (.var 0))) (.var 1) ∧
      u.formatted = "((q → ¬p) ↔ q)") ∧
    (∃ u, compile "not (q -> ~p)" = .ok u ∧ u.formatted = "¬(q → ¬p)") ∧
    ∃ u, compile "(q -> ~p)" = .ok u ∧ u.formatted = "(q → ¬p)" := by
  have first : compile "q -> ~p" = .ok ⟨"q -> ~p", ["p", "q"], .binary .implies (.var 1) (.not (.var 0))⟩ :=
    compile_crossed _ (List.mem_cons_of_mem _ List.mem_cons_self)
  have second : compile "q" = .ok ⟨"q", ["q"], .var 0⟩ := compile_crossed _ List.mem_cons_self
  have joins : IsLexeme "\\leftrightarrow".toList (.connective .iff) := Or.inl (by decide)
  have negates : IsLexeme "not".toList .not := Or.inr ⟨⟨⟨'n', rfl, rfl⟩, List.all_eq_true.mp rfl⟩, rfl⟩
  obtain ⟨⟨u, joined, sorted, names, ast, formatted⟩, ⟨v, negated, _, _, shown⟩, ⟨w, grouped, _, _, same⟩⟩ :=
    compile_composed first second joins negates
  have table : sortNames ["p", "q"] = u.names := sortNames_eq sorted fun name => by rw [names]; simp
  have left : Compiled.formatted ⟨"q -> ~p", ["p", "q"], .binary .implies (.var 1) (.not (.var 0))⟩ =
      "(q → ¬p)" := by
    simp [Compiled.formatted, Formula.render_binary, Formula.render_not, Formula.render_var, Connective.glyph]
  have right : Compiled.formatted ⟨"q", ["q"], .var 0⟩ = "q" := Formula.render_var _ _
  refine ⟨first, second, joins, negates, ⟨u, joined, ?_, ?_⟩, ⟨v, negated, ?_⟩, ⟨w, grouped, ?_⟩⟩
  · rw [ast, ← table]
    decide
  · rw [formatted, left, right]
    decide
  · rw [shown, left]
    decide
  · rw [same, left]

end Composed

/-! ### Conjunctions -/

variable {texts : List String} {rs : List Compiled} {text : String} {r : Compiled}

theorem munch_conjunction (compiled : compile text = .ok r)
    (others : List.Forall₂ (fun text r => compile text = .ok r) texts rs) (p : Nat) :
    ∃ tokens q, Munch p (conjunctionText (text :: texts)).toList tokens q [] ∧
      Derives Token.spelled (.chain .and) tokens (r.named.conjoin (rs.map (·.named))) := by
  induction others generalizing text r p with
  | nil =>
    obtain ⟨_, tokens, munch, _, derives⟩ := derives_of_compile compiled
    obtain ⟨group, q, munch, derives⟩ := munch_group munch derives p []
    refine ⟨group, q, ?_, .single (.atom derives)⟩
    simpa [conjunctionText] using munch
  | @cons next s texts rs first _ ih =>
    obtain ⟨_, tokens, munch, _, derives⟩ := derives_of_compile compiled
    obtain ⟨group, m, munch, left⟩ :=
      munch_group munch derives p (' ' :: (['a', 'n', 'd'] ++ ' ' :: (conjunctionText (next :: texts)).toList))
    obtain ⟨tokens, q, later, right⟩ := ih first _
    obtain ⟨sign, joins, joined⟩ := munch_spaced isLexeme_and later
    refine ⟨group ++ sign :: tokens, q, ?_, .chain (.atom left) joins right⟩
    have split : (conjunctionText (text :: next :: texts)).toList =
        '(' :: (text.toList ++ ')' :: ' ' ::
          (['a', 'n', 'd'] ++ ' ' :: (conjunctionText (next :: texts)).toList)) := by
      simp [conjunctionText]
    rw [split]
    exact munch.trans joined

theorem exists_text_of_mem (compiled : List.Forall₂ (fun text r => compile text = .ok r) texts rs) :
    ∀ r ∈ rs, ∃ text, compile text = .ok r := by
  induction compiled with
  | nil => simp
  | cons first _ ih => exact List.forall_mem_cons.mpr ⟨⟨_, first⟩, ih⟩

theorem mem_leaves_conjoin (compiled : ∀ s ∈ r :: rs, ∃ text, compile text = .ok s) (name : String) :
    name ∈ (r.named.conjoin (rs.map (·.named))).leaves ↔ name ∈ commonNames (r :: rs) := by
  have leaves : (r.named.conjoin (rs.map (·.named))).leaves = (r :: rs).flatMap (·.named.leaves) := by
    rw [Formula.leaves_conjoin, List.flatMap_cons, List.flatMap_map, List.flatMap_cons]
  rw [leaves, List.mem_flatMap, mem_commonNames]
  refine exists_congr fun s => and_congr_right fun member => ?_
  obtain ⟨_, compiled⟩ := compiled s member
  exact (mem_names_iff compiled name).symm

theorem holds_conjoin_iff (v : String → Bool) :
    (r.named.conjoin (rs.map (·.named))).holds v = true ↔ Satisfies v (r :: rs) := by
  rw [Formula.holds_conjoin, ← List.map_cons (f := Compiled.named), List.all_map, List.all_eq_true]
  rfl

/-- Texts that compile can be joined by "and". The table of the result holds the names of all of them,
sorted, and the result is a contradiction exactly when the texts are not satisfiable together. -/
theorem compile_conjunction (texts : List String) (rs : List Compiled) (nonempty : texts ≠ [])
    (compiled : List.Forall₂ (fun text r => compile text = .ok r) texts rs) :
    ∃ r, compile (conjunctionText texts) = .ok r ∧ r.names.Pairwise (· < ·) ∧ r.names.Perm (commonNames rs) ∧
      (jointVerdict rs = .satisfiable ↔ classify r ≠ .contradiction) := by
  have known := exists_text_of_mem compiled
  cases compiled with
  | nil => exact absurd rfl nonempty
  | @cons text s texts rs first others =>
    obtain ⟨tokens, q, munch, derives⟩ := munch_conjunction first others 0
    obtain ⟨r, joined, _, _, named⟩ := compile_of_derives munch (derives.loosen (Nonterminal.rank_start_le _))
    have distinct := nodup_names joined
    refine ⟨r, joined, (compile_eq_ok_iff.mp joined).2.1, ?_, ?_⟩
    · refine (List.perm_ext_iff_of_nodup distinct (nodup_commonNames _)).mpr fun name => ?_
      rw [mem_names_iff joined, named, mem_leaves_conjoin known]
    · rw [jointVerdict_eq_satisfiable_iff (List.cons_ne_nil _ _), ne_eq,
        classify_eq_contradiction_iff_named distinct, not_forall, named]
      refine exists_congr fun v => ?_
      rw [Bool.not_eq_false, holds_conjoin_iff]

theorem compile_conjunction_crossed : ["q", "q -> ~p"] ≠ [] ∧
    List.Forall₂ (fun text r => compile text = .ok r) ["q", "q -> ~p"] crossed ∧
    ∃ r, compile "(q) and (q -> ~p)" = .ok r ∧ r.names.Perm ["q", "p"] ∧
      (jointVerdict crossed = .satisfiable ↔ classify r ≠ .contradiction) := by
  have filled : ["q", "q -> ~p"] ≠ [] := List.cons_ne_nil _ _
  have compiled := compile_crossed_texts
  have spelling : conjunctionText ["q", "q -> ~p"] = "(q) and (q -> ~p)" := by decide +kernel
  have names : commonNames crossed = ["q", "p"] := by decide
  obtain ⟨r, joined, _, perm, verdict⟩ := compile_conjunction _ _ filled compiled
  rw [spelling] at joined
  rw [names] at perm
  exact ⟨filled, compiled, r, joined, perm, verdict⟩

end Propositional
