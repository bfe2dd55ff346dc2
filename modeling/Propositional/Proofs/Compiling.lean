import Mathlib.Data.List.Basic
import Propositional.Proofs.Formula.Renaming
import Propositional.Proofs.Parsing
import Propositional.Proofs.Scanning

/-!
# Compiling

`compile_eq_ok_iff` says which texts compile, and to what: the longest lexemes of the text derive the
formula by names, and the table holds the names of the formula in increasing order.
-/

namespace Propositional

open Token

/-- A variable token stands for its own name. -/
def Token.spelled (token : Token) : Option String :=
  some token.lexeme

variable {text : String} {tokens : List Token} {r : Compiled} {g : Formula String}

theorem place?_eq_some_iff {n : Nat} {i : Int} {j : Fin n} : place? n i = some j ↔ (j.val : Int) = i := by
  unfold place?
  split
  · simp only [Option.some.injEq, Fin.ext_iff]
    omega
  · have below := j.isLt
    constructor
    · intro none
      cases none
    · intro same
      omega

/-! ### Names -/

theorem Derives.mem_leaves {n : Nonterminal} (h : Derives Token.spelled n tokens g) (name : String) :
    name ∈ g.leaves ↔ name ∈ seenNames tokens := by
  have same := h.leaves_eq
  rw [mem_seenNames]
  constructor
  · intro member
    have stands : some name ∈ g.leaves.map some := List.mem_map_of_mem member
    rw [← same] at stands
    obtain ⟨token, inside, spelled⟩ := List.mem_map.mp stands
    obtain ⟨member, named⟩ := List.mem_filter.mp inside
    exact ⟨token, member, of_decide_eq_true named, Option.some.inj spelled⟩
  · rintro ⟨token, member, named, rfl⟩
    have inside : token ∈ tokens.filter (·.kind = .var) := List.mem_filter.mpr ⟨member, decide_eq_true named⟩
    have stands : some token.lexeme ∈ g.leaves.map some := by
      rw [← same]
      exact List.mem_map_of_mem inside
    obtain ⟨name, member, found⟩ := List.mem_map.mp stands
    rw [← Option.some.inj found]
    exact member

theorem Compiled.eq_of_named {s : Compiled} (distinct : r.names.Nodup) (source : s.source = r.source)
    (names : s.names = r.names) (named : s.named = r.named) : s = r := by
  obtain ⟨source', names', ast'⟩ := s
  obtain ⟨source'', names'', ast⟩ := r
  obtain rfl : source' = source'' := source
  obtain rfl : names' = names'' := names
  have injective : ∀ i j, names'.get i = names'.get j → i = j :=
    fun i j same => Fin.ext ((List.getElem_inj distinct).mp same)
  have same : ast'.map names'.get = ast.map names'.get := named
  rw [Formula.map_injective injective same]

/-! ### From tokens to a compiled formula -/

theorem compile_of_derives {p : Nat} (munch : Munch 0 text.toList tokens p [])
    (derives : Derives Token.spelled .start tokens g) :
    ∃ r, compile text = .ok r ∧ r.source = text ∧ r.names = sortNames (seenNames tokens) ∧ r.named = g := by
  have scanned := scan_of_munch munch
  generalize table_eq : sortNames (seenNames tokens) = table at scanned
  have known : ∀ name ∈ g.leaves, name ∈ table := by
    intro name member
    rw [← table_eq]
    exact mem_sortNames.mpr ((derives.mem_leaves name).mp member)
  let place := fun name => ((table.idxOf name : Nat) : Int)
  have indexed : Derives Token.index .start (tokens.map (indexIn table)) (g.map place) := by
    refine derives.relabel (kind_indexIn table) fun token _ named name spelled => ?_
    obtain rfl := Option.some.inj spelled
    exact index_indexIn named
  have parsed : parse text = .ok ⟨g.map place, table⟩ := by
    have ends : (⟨.eof, text.length, text.length, "", none⟩ : Token).kind = .eof := rfl
    rw [parse, scanned]
    simp only [parseTokens, parse_of_derives indexed ends []]
  have found : ∀ name ∈ g.leaves, ∃ j, place? table.length (place name) = some j ∧ table.get j = name := by
    intro name member
    have inside := List.idxOf_lt_length_of_mem (known name member)
    exact ⟨⟨table.idxOf name, inside⟩, place?_eq_some_iff.mpr rfl, List.getElem_idxOf inside⟩
  obtain ⟨ast, resolved, named⟩ := Formula.exists_resolve found
  refine ⟨⟨text, table, ast⟩, ?_, rfl, rfl, named⟩
  rw [compile, parsed]
  simp only [Except.bind, Formula.resolve_map, resolved]

/-! ### From a compiled formula to tokens -/

theorem parse_of_compile (compiled : compile text = .ok r) :
    r.source = text ∧ parse text = .ok ⟨r.positions, r.names⟩ := by
  unfold compile at compiled
  cases parses : parse text with
  | error e =>
    rw [parses] at compiled
    cases compiled
  | ok parsed =>
    rw [parses] at compiled
    simp only [Except.bind] at compiled
    cases resolves : parsed.ast.resolve (place? parsed.names.length) with
    | none =>
      rw [resolves] at compiled
      cases compiled
    | some ast =>
      rw [resolves] at compiled
      obtain rfl := Except.ok.inj compiled
      have back := Formula.map_of_resolve (fun i j found => place?_eq_some_iff.mp found) resolves
      exact ⟨rfl, by rw [Compiled.positions, back]⟩

theorem kind_indexIn_ne_eof {p : Nat} (munch : Munch 0 text.toList tokens p []) (names : List String) :
    ∀ token ∈ tokens.map (indexIn names), token.kind ≠ .eof := by
  intro token member
  obtain ⟨plain, inside, rfl⟩ := List.mem_map.mp member
  rw [kind_indexIn]
  exact (munch.lexemes plain inside).kind_ne_eof

theorem munch_of_parse {f : Formula Int} {names : List String} (parses : parse text = .ok ⟨f, names⟩) : ∃ tokens,
    Munch 0 text.toList tokens text.length [] ∧ names = sortNames (seenNames tokens) ∧
      Derives Token.index .start (tokens.map (indexIn names)) f := by
  unfold parse at parses
  obtain ⟨tokens, munch⟩ | ⟨_, e, failed, _⟩ := munch_or_refused text
  · rw [scan_of_munch munch] at parses
    simp only [parseTokens] at parses
    generalize table_eq : sortNames (seenNames tokens) = table at parses
    split at parses
    · cases parses
    · rename_i ast accepted
      obtain ⟨rfl, rfl⟩ := Parsed.mk.inj (Except.ok.inj parses)
      exact ⟨tokens, munch, table_eq.symm, derives_of_parse (kind_indexIn_ne_eof munch table) rfl accepted⟩
  · rw [failed] at parses
    cases parses

def nameAt (names : List String) (i : Int) : String :=
  names[i.toNat]?.getD ""

theorem Compiled.named_eq (r : Compiled) : r.named = r.positions.map (nameAt r.names) := by
  rw [named, positions, Formula.map_map]
  refine Formula.map_congr fun i _ => ?_
  simp [nameAt]

/-- Numbered tokens derive what the tokens derive by name. -/
theorem derives_named {f : Formula Int} {names : List String} {p : Nat} (munch : Munch 0 text.toList tokens p [])
    (table : names = sortNames (seenNames tokens))
    (indexed : Derives Token.index .start (tokens.map (indexIn names)) f) :
    Derives Token.spelled .start tokens (f.map (nameAt names)) := by
  let plain := fun token : Token => { token with index := none }
  have back : (tokens.map (indexIn names)).map plain = tokens := by
    rw [List.map_map]
    refine (List.map_congr_left fun token member => ?_).trans (List.map_id tokens)
    exact plain_indexIn names (munch.unnumbered token member)
  have derives : Derives Token.spelled .start ((tokens.map (indexIn names)).map plain) (f.map (nameAt names)) := by
    refine indexed.relabel (fun _ => rfl) fun token member named i stands => ?_
    obtain ⟨token, inside, rfl⟩ := List.mem_map.mp member
    rw [kind_indexIn] at named
    rw [index_indexIn named] at stands
    obtain rfl := Option.some.inj stands
    have known : token.lexeme ∈ names := by
      rw [table]
      exact mem_sortNames.mpr (mem_seenNames.mpr ⟨token, inside, named, rfl⟩)
    show some (indexIn names token).lexeme = _
    rw [lexeme_indexIn, nameAt, Int.toNat_natCast, List.getElem?_idxOf known]
    rfl
  rw [back] at derives
  exact derives

theorem derives_of_compile (compiled : compile text = .ok r) : r.source = text ∧ ∃ tokens,
    Munch 0 text.toList tokens text.length [] ∧ r.names = sortNames (seenNames tokens) ∧
      Derives Token.spelled .start tokens r.named := by
  obtain ⟨source, parses⟩ := parse_of_compile compiled
  obtain ⟨tokens, munch, names, indexed⟩ := munch_of_parse parses
  refine ⟨source, tokens, munch, names, ?_⟩
  rw [r.named_eq]
  exact derives_named munch names indexed

/-- A text compiles when its longest lexemes derive a formula by names. The table holds the names of that
formula in increasing order, and its places stand for them. -/
theorem compile_eq_ok_iff : compile text = .ok r ↔
    r.source = text ∧ r.names.Pairwise (· < ·) ∧ (∀ name, name ∈ r.names ↔ name ∈ r.named.leaves) ∧
      ∃ tokens, Munch 0 text.toList tokens text.length [] ∧ Derives Token.spelled .start tokens r.named := by
  constructor
  · intro compiled
    obtain ⟨source, tokens, munch, names, derives⟩ := derives_of_compile compiled
    have members : ∀ name, name ∈ r.names ↔ name ∈ r.named.leaves := by
      intro name
      rw [derives.mem_leaves, names]
      exact mem_sortNames
    refine ⟨source, ?_, members, tokens, munch, derives⟩
    rw [names]
    exact sortNames_pairwise _
  · rintro ⟨source, sorted, members, tokens, munch, derives⟩
    obtain ⟨s, compiled, source', names, named⟩ := compile_of_derives munch derives
    have same : sortNames (seenNames tokens) = r.names :=
      sortNames_eq sorted fun name => (members name).trans (derives.mem_leaves name)
    rw [compiled, Compiled.eq_of_named (nodup_of_increasing sorted) (source'.trans source.symm) (names.trans same) named]

theorem mem_names_iff (compiled : compile text = .ok r) (name : String) : name ∈ r.names ↔ name ∈ r.named.leaves :=
  (compile_eq_ok_iff.mp compiled).2.2.1 name

theorem nodup_names (compiled : compile text = .ok r) : r.names.Nodup :=
  nodup_of_increasing (compile_eq_ok_iff.mp compiled).2.1

end Propositional
