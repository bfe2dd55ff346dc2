import Propositional.Token.Scan

/-!
# Numbered tokens

`number_seenNames` says that numbering tokens by their own names always succeeds, `sortNames_eq` that
the table depends only on which names there are.
-/

namespace Propositional.Token

/-- The token with the place of its name in the table, if it is a variable. -/
def indexIn (table : List String) (token : Token) : Token :=
  if token.kind = .var then { token with index := some ((table.idxOf token.lexeme : Nat) : Int) } else token

variable {name : String} {table names : List String} {tokens : List Token}

theorem insertName_pairwise (sorted : table.Pairwise (· < ·)) : (insertName name table).Pairwise (· < ·) := by
  induction table with
  | nil => simp [insertName]
  | cons first rest ih =>
    obtain ⟨least, later⟩ := List.pairwise_cons.mp sorted
    rw [insertName]
    split
    · rename_i less
      have below : ∀ other ∈ first :: rest, name < other :=
        List.forall_mem_cons.mpr ⟨less, fun other member => String.lt_trans less (least other member)⟩
      exact List.pairwise_cons.mpr ⟨below, sorted⟩
    · split
      · exact sorted
      · rename_i notLess differs
        refine List.pairwise_cons.mpr ⟨fun other member => ?_, ih later⟩
        rcases mem_insertName.mp member with rfl | member
        · have le : first ≤ other := String.not_lt.mp notLess
          exact Std.lt_of_le_of_ne le (Ne.symm differs)
        · exact least other member

theorem sortNames_pairwise (names : List String) : (sortNames names).Pairwise (· < ·) := by
  induction names with
  | nil => exact List.Pairwise.nil
  | cons name names ih => exact insertName_pairwise ih

theorem nodup_of_increasing (sorted : table.Pairwise (· < ·)) : table.Nodup :=
  sorted.imp String.ne_of_lt

theorem sortNames_eq (sorted : table.Pairwise (· < ·)) (same : ∀ name, name ∈ table ↔ name ∈ names) :
    sortNames names = table := by
  have increasing := sortNames_pairwise names
  have members : ∀ name, name ∈ sortNames names ↔ name ∈ table := fun name => mem_sortNames.trans (same name).symm
  have perm := (List.perm_ext_iff_of_nodup (nodup_of_increasing increasing) (nodup_of_increasing sorted)).mpr members
  exact perm.eq_of_pairwise (fun a b _ _ less more => absurd more (String.lt_asymm less)) increasing sorted

theorem mem_seenNames : name ∈ seenNames tokens ↔ ∃ token ∈ tokens, token.kind = .var ∧ token.lexeme = name := by
  rw [seenNames, mem_distinct, List.mem_map]
  simp only [List.mem_filter, decide_eq_true_eq, and_assoc]

theorem numberOne_eq {token : Token} (known : token.kind = .var → token.lexeme ∈ table) :
    numberOne table token = .ok (indexIn table token) := by
  unfold numberOne indexIn
  split
  · rename_i named
    have inside := List.idxOf_lt_length_of_mem (known named)
    have found : table.idxOf? token.lexeme = some (table.idxOf token.lexeme) :=
      List.findIdx?_eq_some_iff_findIdx_eq.mpr ⟨inside, rfl⟩
    rw [found]
  · rfl

theorem kind_indexIn (table : List String) (token : Token) : (indexIn table token).kind = token.kind := by
  unfold indexIn
  split <;> rfl

theorem lexeme_indexIn (table : List String) (token : Token) : (indexIn table token).lexeme = token.lexeme := by
  unfold indexIn
  split <;> rfl

theorem plain_indexIn (table : List String) {token : Token} (plain : token.index = none) :
    { indexIn table token with index := none } = token := by
  obtain ⟨kind, start, stop, lexeme, index⟩ := token
  subst plain
  unfold indexIn
  split <;> rfl

theorem index_indexIn {token : Token} (named : token.kind = .var) :
    (indexIn table token).index = some ((table.idxOf token.lexeme : Nat) : Int) := by
  rw [indexIn, if_pos named]

theorem index_ne_none_of_mem (table : List String) (tokens : List Token) :
    ∀ token ∈ tokens.map (indexIn table), token.kind = .var → token.index ≠ none := by
  intro token member named
  obtain ⟨plain, _, rfl⟩ := List.mem_map.mp member
  rw [kind_indexIn] at named
  simp [index_indexIn named]

theorem mapM_numberOne (known : ∀ token ∈ tokens, token.kind = .var → token.lexeme ∈ table) :
    tokens.mapM (numberOne table) = .ok (tokens.map (indexIn table)) := by
  induction tokens with
  | nil => rfl
  | cons token tokens ih =>
    obtain ⟨first, later⟩ := List.forall_mem_cons.mp known
    rw [List.mapM_cons, numberOne_eq first, ih later]
    rfl

theorem number_seenNames (tokens : List Token) : number tokens (seenNames tokens) =
    .ok ⟨tokens.map (indexIn (sortNames (seenNames tokens))), sortNames (seenNames tokens)⟩ := by
  have known : ∀ token ∈ tokens, token.kind = .var → token.lexeme ∈ sortNames (seenNames tokens) :=
    fun token member named => mem_sortNames.mpr (mem_seenNames.mpr ⟨token, member, named, rfl⟩)
  simp only [number, mapM_numberOne known]
  rfl

end Propositional.Token
