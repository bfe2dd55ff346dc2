import Propositional.Proofs.Compiling
import Propositional.Proofs.Formula.Walk

/-!
# Rendered formulas

`munch_render` says that the longest lexemes of a rendered formula derive it, whatever follows, as long
as it does not go on like a name. `compile_renderWith` says that compiling undoes rendering.
-/

namespace Propositional

open Token

variable {f : Formula String} {p q : Nat} {chars left : List Char} {tokens : List Token}

def Token.single (k : Kind) (p : Nat) (c : Char) : Token :=
  ⟨k, p, (p + 1 : Nat), String.ofList [c], none⟩

theorem Token.Munch.glyph {c : Char} {k : Kind} (found : lexeme? (c :: chars) = some ([c], k))
    (after : Munch (p + 1) chars tokens q left) :
    Munch p (c :: chars) (Token.single k p c :: tokens) q left := by
  have longest : IsLongest ([c] ++ chars) [c] k := lexeme?_isLongest found
  exact .lexeme longest after

theorem Connective.glyph_lexeme (c : Connective) : ∃ d, c.glyph.toList = [d] ∧
    ∀ chars, lexeme? (d :: chars) = some ([d], .connective c) := by
  cases c <;> exact ⟨_, rfl, fun _ => rfl⟩

theorem Derives.parenthesized {c : Connective} {opening sign closing : Token} {ls rs : List Token}
    {l r : Formula String} (opens : opening.kind = .lparen) (left : Derives Token.spelled .unary ls l)
    (joins : sign.kind = .connective c) (right : Derives Token.spelled .unary rs r)
    (closes : closing.kind = .rparen) :
    Derives Token.spelled .unary (opening :: (ls ++ sign :: (rs ++ [closing]))) (.binary c l r) := by
  have tight := c.precedence_lt_unary
  have operand : c.operand.rank ≤ Nonterminal.unary.rank := by
    rw [Nonterminal.rank_operand]
    omega
  have chain : (Nonterminal.chain c).rank ≤ Nonterminal.unary.rank := Int.le_of_lt tight
  have joined : Derives Token.spelled (.chain c) (ls ++ sign :: rs) (.binary c l r) :=
    .chain (left.loosen operand) joins (right.loosen chain)
  have group := Derives.group opens (joined.loosen (Nonterminal.rank_start_le _)) closes
  simpa using Derives.atom group

theorem breaks_cons (c : Char) (breaks : isNamePart c = false) (chars : List Char) :
    ∀ d ∈ (c :: chars).head?, isNamePart d = false := by
  intro d head
  obtain rfl := Option.some.inj head
  exact breaks

theorem munch_render (names : ∀ name ∈ f.leaves, IsName name) (p : Nat) (rest : List Char)
    (breaks : ∀ c ∈ rest.head?, isNamePart c = false) :
    ∃ tokens q, Munch p ((f.render id).toList ++ rest) tokens q rest ∧ Derives Token.spelled .unary tokens f := by
  induction f generalizing p rest with
  | truth v =>
    rw [Formula.render_truth]
    cases v with
    | true => exact ⟨_, _, .glyph rfl .done, .atom (.truth rfl)⟩
    | false => exact ⟨_, _, .glyph rfl .done, .atom (.truth rfl)⟩
  | var name =>
    rw [Formula.render_var]
    have longest := (names name List.mem_cons_self).isLongest breaks
    exact ⟨_, _, .lexeme longest .done, .atom (.var rfl (congrArg some String.ofList_toList))⟩
  | not f ih =>
    obtain ⟨tokens, q, munch, derives⟩ := ih names (p + 1) rest breaks
    rw [Formula.render_not, String.toList_append, List.append_assoc]
    have sign : lexeme? ('¬' :: ((f.render id).toList ++ rest)) = some (['¬'], .not) := rfl
    exact ⟨_, q, .glyph sign munch, .not rfl derives⟩
  | binary c l r hl hr =>
    obtain ⟨sign, glyph, joins⟩ := c.glyph_lexeme
    have namesl : ∀ name ∈ l.leaves, IsName name := fun name member => names name (List.mem_append_left _ member)
    have namesr : ∀ name ∈ r.leaves, IsName name := fun name member => names name (List.mem_append_right _ member)
    have spelling : ((Formula.binary c l r).render id).toList ++ rest = '(' :: ((l.render id).toList ++
        ' ' :: sign :: ' ' :: ((r.render id).toList ++ ')' :: rest)) := by
      rw [Formula.render_binary]
      simp [glyph]
    have space : isBlank ' ' = true := rfl
    have opening : ∀ chars, lexeme? ('(' :: chars) = some (['('], .lparen) := fun _ => rfl
    have closing : lexeme? (')' :: rest) = some ([')'], .rparen) := rfl
    -- The left operand is read up to the blank before the sign, the right one up to the closing parenthesis.
    obtain ⟨ls, m, first, left⟩ := hl namesl (p + 1) _ (breaks_cons ' ' rfl _)
    obtain ⟨rs, n, second, right⟩ := hr namesr (m + 1 + 1 + 1) _ (breaks_cons ')' rfl rest)
    have tail : Munch (m + 1) (sign :: ' ' :: ((r.render id).toList ++ ')' :: rest))
        (Token.single (.connective c) (m + 1) sign :: (rs ++ [Token.single .rparen n ')'])) (n + 1) rest :=
      .glyph (joins _) (.blank space (second.trans (.glyph closing .done)))
    rw [spelling]
    exact ⟨_, n + 1, .glyph (opening _) (first.trans (.blank space tail)), left.parenthesized rfl rfl right rfl⟩

/-! ### Compiling what was rendered -/

variable {text : String} {r : Compiled}

theorem Compiled.formatted_eq (r : Compiled) : r.formatted = r.named.render id := by
  rw [named, Formula.render_map]
  rfl

theorem Compiled.positions_eq (r : Compiled) (distinct : r.names.Nodup) :
    r.positions = r.named.map fun name => ((r.names.idxOf name : Nat) : Int) := by
  rw [named, Formula.map_map]
  refine Formula.map_congr fun i _ => ?_
  have place : r.names.idxOf (r.names.get i) = i.val := distinct.idxOf_getElem i.val i.isLt
  rw [place]

theorem compile_render (names : ∀ name ∈ f.leaves, IsName name) :
    ∃ r, compile (f.render id) = .ok r ∧ r.named = f := by
  obtain ⟨tokens, q, munch, derives⟩ := munch_render names 0 [] (by simp)
  rw [List.append_nil] at munch
  obtain ⟨r, compiled, _, _, named⟩ := compile_of_derives munch (derives.loosen (Nonterminal.rank_start_le _))
  exact ⟨r, compiled, named⟩

theorem isName_of_compile (compiled : compile text = .ok r) : ∀ name ∈ r.named.leaves, IsName name := by
  intro name member
  obtain ⟨_, tokens, munch, _, derives⟩ := derives_of_compile compiled
  obtain ⟨token, inside, named, rfl⟩ := mem_seenNames.mp ((derives.mem_leaves name).mp member)
  have lexeme := munch.lexemes token inside
  rw [named] at lexeme
  exact lexeme.isName

theorem isName_of_mem (compiled : compile text = .ok r) : ∀ name ∈ r.names, IsName name := by
  intro name member
  exact isName_of_compile compiled name ((mem_names_iff compiled name).mp member)

theorem names_of_compile (compiled : compile text = .ok r) : r.names = sortNames r.named.leaves := by
  obtain ⟨_, sorted, members, _⟩ := compile_eq_ok_iff.mp compiled
  exact (sortNames_eq sorted members).symm

theorem recompile (compiled : compile text = .ok r) :
    compile r.formatted = .ok { r with source := r.formatted } := by
  obtain ⟨s, again, named⟩ := compile_render (isName_of_compile compiled)
  rw [← r.formatted_eq] at again
  have source := (compile_eq_ok_iff.mp again).1
  have names : s.names = r.names := by rw [names_of_compile again, named, ← names_of_compile compiled]
  have distinct : r.names.Nodup := nodup_names compiled
  have same : s = { r with source := r.formatted } := Compiled.eq_of_named distinct source names named
  rw [again, same]

theorem itemAt?_eq_nameAt {names : List String} {i : Int} (bounds : 0 ≤ i ∧ i < names.length) :
    itemAt? names i = some (nameAt names i) := by
  have inside : i.toNat < names.length := by omega
  rw [itemAt?, if_pos bounds.1, nameAt, List.getElem?_eq_getElem inside]
  rfl

/-- A formula that is rendered with names compiles again, to itself over the names that occur. -/
theorem compile_renderWith (f : Formula Int) (names : List String) (valid : ∀ name ∈ names, IsName name)
    (bounds : ∀ i ∈ f.leaves, 0 ≤ i ∧ i < names.length) :
    (∃ text r, f.renderWith? names = some text ∧ compile text = .ok r ∧
      r.names.Pairwise (· < ·) ∧ (∀ name, name ∈ r.names ↔ ∃ i ∈ f.leaves, itemAt? names i = some name) ∧
      r.positions = f.map (fun i => ((r.names.idxOf (nameAt names i) : Nat) : Int)) ∧ r.formatted = text) ∧
    ∀ text r, compile text = .ok r → compile r.formatted = .ok { r with source := r.formatted } := by
  have item : ∀ i ∈ f.leaves, itemAt? names i = some (nameAt names i) :=
    fun i member => itemAt?_eq_nameAt (bounds i member)
  have leaves : ∀ name ∈ (f.map (nameAt names)).leaves, IsName name := by
    intro name member
    rw [Formula.leaves_map] at member
    obtain ⟨i, leaf, rfl⟩ := List.mem_map.mp member
    have bound := bounds i leaf
    have inside : i.toNat < names.length := by omega
    rw [nameAt, List.getElem?_eq_getElem inside]
    exact valid _ (List.getElem_mem inside)
  obtain ⟨r, compiled, named⟩ := compile_render leaves
  obtain ⟨_, sorted, members, _⟩ := compile_eq_ok_iff.mp compiled
  refine ⟨⟨(f.map (nameAt names)).render id, r, ?_, compiled, sorted, fun name => ?_, ?_, ?_⟩, fun _ _ => recompile⟩
  · rw [Formula.renderWith?_of_leaves item, Formula.render_map]
    rfl
  · rw [members, named, Formula.leaves_map, List.mem_map]
    constructor
    · rintro ⟨i, member, rfl⟩
      exact ⟨i, member, item i member⟩
    · rintro ⟨i, member, found⟩
      exact ⟨i, member, Option.some.inj ((item i member).symm.trans found)⟩
  · rw [r.positions_eq (nodup_of_increasing sorted), named, Formula.map_map]
  · rw [r.formatted_eq, named]

/-- A formula over a table that is neither sorted nor used up. -/
def scattered : Formula Int :=
  .binary .implies (.var 2) (.not (.binary .and (.var 0) (.not (.truth true))))

theorem compile_scattered : (∀ name ∈ ["q_1", "Tr", "p"], IsName name) ∧
    (∀ i ∈ scattered.leaves, 0 ≤ i ∧ i < ["q_1", "Tr", "p"].length) ∧
    ∃ r, compile "(p → ¬(q_1 ∧ ¬⊤))" = .ok r ∧ (∀ name, name ∈ r.names ↔ name = "p" ∨ name = "q_1") ∧
      r.formatted = "(p → ¬(q_1 ∧ ¬⊤))" := by
  have valid : ∀ name ∈ ["q_1", "Tr", "p"], IsName name := by
    refine List.forall_mem_cons.mpr ⟨?_, List.forall_mem_cons.mpr ⟨?_, List.forall_mem_cons.mpr ⟨?_, by simp⟩⟩⟩
    · exact ⟨⟨⟨'q', rfl, rfl⟩, List.all_eq_true.mp rfl⟩, by decide⟩
    · exact ⟨⟨⟨'T', rfl, rfl⟩, List.all_eq_true.mp rfl⟩, by decide⟩
    · exact ⟨⟨⟨'p', rfl, rfl⟩, List.all_eq_true.mp rfl⟩, by decide⟩
  have bounds : ∀ i ∈ scattered.leaves, 0 ≤ i ∧ i < ["q_1", "Tr", "p"].length := by
    decide
  refine ⟨valid, bounds, ?_⟩
  obtain ⟨⟨text, r, rendered, compiled, _, members, _, formatted⟩, _⟩ :=
    compile_renderWith scattered ["q_1", "Tr", "p"] valid bounds
  have spelling : scattered.renderWith? ["q_1", "Tr", "p"] = some "(p → ¬(q_1 ∧ ¬⊤))" := by
    rw [Formula.renderWith?_of_leaves fun i leaf => itemAt?_eq_nameAt (bounds i leaf)]
    simp [scattered, Formula.render_binary, Formula.render_not, Formula.render_var, Formula.render_truth, nameAt,
      Connective.glyph]
  obtain rfl := Option.some.inj (rendered.symm.trans spelling)
  refine ⟨r, compiled, fun name => ?_, formatted⟩
  rw [members]
  simp [scattered, Formula.leaves, itemAt?, eq_comm]

end Propositional
