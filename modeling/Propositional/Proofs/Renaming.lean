import Mathlib.Data.List.Nodup
import Mathlib.Data.Set.Function
import Propositional.Proofs.Composition
import Propositional.Proofs.Token.Renaming

/-!
# Formulas under other names

Other names for the variables change which names a formula has and in which order its columns stand.
`compile_renamed` says that they change nothing else.
-/

namespace Propositional

open Token

/-- The second formula is the first one with other names. Its columns stand in the order of the new names, and
it has the same values and the same classification. -/
structure RenamedBy (ρ : String → String) (r s : Compiled) : Prop where
  named : s.named = r.named.map ρ
  sorted : s.names.Pairwise (· < ·)
  names : s.names.Perm (r.names.map ρ)
  positions : s.positions = r.positions.map fun i => ((s.names.idxOf (ρ (nameAt r.names i)) : Nat) : Int)
  evaluates : ∀ row row', row.length = r.names.length → row'.length = s.names.length →
    (∀ name ∈ r.names, valuationOf s.names row' (ρ name) = valuationOf r.names row name) →
    ∃ value, r.evaluate row = .ok value ∧ s.evaluate row' = .ok value
  classified : classify s = classify r

variable {ρ : String → String} {text : String} {tokens : List Token} {r s : Compiled} {rs ss : List Compiled}

/-! ### One text -/

theorem compile_renameText (compiled : compile text = .ok r) (valid : ∀ name ∈ r.names, IsName (ρ name)) :
    ∃ s, compile (renameText ρ text) = .ok s ∧ s.named = r.named.map ρ := by
  obtain ⟨_, tokens, munch, names, derives⟩ := derives_of_compile compiled
  have known : ∀ token ∈ tokens, token.kind = .var → IsName (ρ token.lexeme) := by
    intro token member named
    apply valid
    rw [names]
    exact mem_sortNames.mpr (mem_seenNames.mpr ⟨token, member, named, rfl⟩)
  obtain ⟨others, q, munch', renames⟩ := munch.renamed rfl known 0
  have spelling : (renameText ρ text).toList = respell ρ 0 text.toList tokens := by
    rw [renameText, lex_of_munch munch]
    simp only [respell_eof, String.toList_ofList]
  rw [← spelling] at munch'
  have derives' : Derives Token.spelled .start others (r.named.map ρ) := by
    refine derives.related (fun _ _ same => same.kind) ?_ renames
    intro x y same named name spelled
    obtain rfl := Option.some.inj spelled
    exact congrArg some (same.name named)
  obtain ⟨s, compiled', _, _, named⟩ := compile_of_derives munch' derives'
  exact ⟨s, compiled', named⟩

/-! ### Valuations -/

theorem exists_renamed {names : List String} (injective : Set.InjOn ρ {name | name ∈ names}) (v : String → Bool) :
    ∃ w : String → Bool, ∀ name ∈ names, w (ρ name) = v name := by
  refine ⟨fun name => v (Function.invFunOn ρ {name | name ∈ names} name), fun name known => ?_⟩
  exact congrArg v (injective.leftInvOn_invFunOn known)

theorem holds_renamed (named : s.named = r.named.map ρ) (v : String → Bool) :
    s.named.holds v = r.named.holds fun name => v (ρ name) := by
  rw [named, Formula.holds_map]

theorem mem_names_renamed {text' : String} (compiled : compile text = .ok r) (compiled' : compile text' = .ok s)
    (named : s.named = r.named.map ρ) (name : String) : name ∈ s.names ↔ ∃ old ∈ r.names, ρ old = name := by
  rw [mem_names_iff compiled', named, Formula.leaves_map, List.mem_map]
  exact exists_congr fun old => and_congr_left fun _ => (mem_names_iff compiled old).symm

theorem renamedBy_of_named {text' : String} (compiled : compile text = .ok r) (compiled' : compile text' = .ok s)
    (named : s.named = r.named.map ρ) (injective : Set.InjOn ρ {name | name ∈ r.names}) : RenamedBy ρ r s where
  named := named
  sorted := (compile_eq_ok_iff.mp compiled').2.1
  names := by
    have distinct : (r.names.map ρ).Nodup :=
      (nodup_names compiled).map_on fun x left y right same => injective left right same
    apply (List.perm_ext_iff_of_nodup (nodup_names compiled') distinct).mpr
    intro name
    rw [mem_names_renamed compiled compiled' named, List.mem_map]
  positions := by
    rw [s.positions_eq (nodup_names compiled'), named, r.named_eq, Formula.map_map, Formula.map_map]
  evaluates := by
    intro row row' size size' same
    refine ⟨_, Compiled.evaluate_eq_holds (nodup_names compiled) size, ?_⟩
    rw [Compiled.evaluate_eq_holds (nodup_names compiled') size', holds_renamed named]
    exact congrArg Except.ok (Compiled.holds_named_congr same)
  classified := by
    refine classify_congr (nodup_names compiled') (nodup_names compiled) fun b => ?_
    constructor
    · rintro ⟨v, value⟩
      exact ⟨_, (holds_renamed named v).symm.trans value⟩
    · rintro ⟨v, value⟩
      obtain ⟨w, same⟩ := exists_renamed injective v
      refine ⟨w, ?_⟩
      rw [holds_renamed named, Compiled.holds_named_congr same, value]

/-! ### Several texts -/

theorem exists_renamedBy {texts : List String} (compiled : List.Forall₂ (fun text r => compile text = .ok r) texts rs)
    (valid : ∀ r ∈ rs, ∀ name ∈ r.names, IsName (ρ name))
    (injective : ∀ r ∈ rs, Set.InjOn ρ {name | name ∈ r.names}) :
    ∃ ss, List.Forall₂ (fun text s => compile (renameText ρ text) = .ok s) texts ss ∧
      List.Forall₂ (RenamedBy ρ) rs ss := by
  induction compiled with
  | nil => exact ⟨[], .nil, .nil⟩
  | cons first _ ih =>
    obtain ⟨valid, valids⟩ := List.forall_mem_cons.mp valid
    obtain ⟨injective, injectives⟩ := List.forall_mem_cons.mp injective
    obtain ⟨s, compiled', named⟩ := compile_renameText first valid
    obtain ⟨ss, compiles, renamings⟩ := ih valids injectives
    exact ⟨s :: ss, .cons compiled' compiles, .cons (renamedBy_of_named first compiled' named injective) renamings⟩

theorem mem_commonNames_renamed (renamings : List.Forall₂ (RenamedBy ρ) rs ss) (name : String) :
    name ∈ commonNames ss ↔ ∃ old ∈ commonNames rs, ρ old = name := by
  simp only [mem_commonNames]
  induction renamings with
  | nil => simp
  | @cons r s rs ss first _ ih =>
    have here : name ∈ s.names ↔ ∃ old ∈ r.names, ρ old = name := first.names.mem_iff.trans List.mem_map
    simp only [List.exists_mem_cons_iff, here, ih, or_and_right, exists_or]

theorem satisfies_renamed (renamings : List.Forall₂ (RenamedBy ρ) rs ss) (v : String → Bool) :
    Satisfies v ss ↔ Satisfies (fun name => v (ρ name)) rs := by
  unfold Satisfies
  induction renamings with
  | nil => simp
  | cons first _ ih => rw [List.forall_mem_cons, List.forall_mem_cons, ih, holds_renamed first.named]

theorem jointVerdict_renamed (renamings : List.Forall₂ (RenamedBy ρ) rs ss)
    (injective : Set.InjOn ρ {name | name ∈ commonNames rs}) : jointVerdict ss = jointVerdict rs := by
  have empty : ss = [] ↔ rs = [] := by
    rw [← List.length_eq_zero_iff, ← List.length_eq_zero_iff, renamings.length_eq]
  apply jointVerdict_congr empty
  constructor
  · rintro ⟨v, satisfies⟩
    exact ⟨_, (satisfies_renamed renamings v).mp satisfies⟩
  · rintro ⟨v, satisfies⟩
    obtain ⟨w, same⟩ := exists_renamed injective v
    exact ⟨w, (satisfies_renamed renamings w).mpr ((satisfies_congr same).mpr satisfies)⟩

/-- Texts compile alike when their variables get other names, different ones for different variables. -/
theorem compile_renamed (ρ : String → String) (texts : List String) (rs : List Compiled)
    (compiled : List.Forall₂ (fun text r => compile text = .ok r) texts rs)
    (valid : ∀ name ∈ commonNames rs, IsName (ρ name))
    (injective : Set.InjOn ρ {name | name ∈ commonNames rs}) :
    ∃ ss, List.Forall₂ (fun text s => compile (renameText ρ text) = .ok s) texts ss ∧
      List.Forall₂ (RenamedBy ρ) rs ss ∧
      jointVerdict ss = jointVerdict rs ∧
      ∀ name, name ∈ commonNames ss ↔ ∃ old ∈ commonNames rs, ρ old = name := by
  have known : ∀ r ∈ rs, ∀ name ∈ r.names, name ∈ commonNames rs :=
    fun r member name known => mem_commonNames_of_mem member known
  obtain ⟨ss, compiled', renamings⟩ := exists_renamedBy compiled
    (fun r member name inside => valid name (known r member name inside))
    (fun r member => injective.mono (known r member))
  exact ⟨ss, compiled', renamings, jointVerdict_renamed renamings injective, mem_commonNames_renamed renamings⟩

def mirrored (name : String) : String :=
  if name = "p" then "b" else "a"

theorem compile_renamed_crossed :
    List.Forall₂ (fun text r => compile text = .ok r) ["q", "q -> ~p"] crossed ∧
    (∀ name ∈ commonNames crossed, IsName (mirrored name)) ∧
    Set.InjOn mirrored {name | name ∈ commonNames crossed} ∧
    ∃ ss, List.Forall₂ (fun text s => compile text = .ok s) [" a ", " a  -> ~ b "] ss ∧
      List.Forall₂ (RenamedBy mirrored) crossed ss ∧ jointVerdict ss = .satisfiable ∧
      ∀ name, name ∈ commonNames ss ↔ name = "a" ∨ name = "b" := by
  have names : commonNames crossed = ["q", "p"] := by decide
  have compiled := compile_crossed_texts
  have valid : ∀ name ∈ commonNames crossed, IsName (mirrored name) := by
    rw [names]
    refine List.forall_mem_cons.mpr ⟨?_, List.forall_mem_cons.mpr ⟨?_, by simp⟩⟩
    · exact ⟨⟨⟨'a', rfl, rfl⟩, List.all_eq_true.mp rfl⟩, by decide⟩
    · exact ⟨⟨⟨'b', rfl, rfl⟩, List.all_eq_true.mp rfl⟩, by decide⟩
  have injective : Set.InjOn mirrored {name | name ∈ commonNames crossed} := by
    rw [names]
    have pairs : ∀ x ∈ ["q", "p"], ∀ y ∈ ["q", "p"], mirrored x = mirrored y → x = y := by decide
    exact fun x left y right => pairs x left y right
  obtain ⟨ss, compiles, renamings, verdict, common⟩ := compile_renamed mirrored _ _ compiled valid injective
  have first : renameText mirrored "q" = " a " := by decide +kernel
  have second : renameText mirrored "q -> ~p" = " a  -> ~ b " := by decide +kernel
  have satisfiable : jointVerdict crossed = .satisfiable := by decide +kernel
  refine ⟨compiled, valid, injective, ss, ?_, renamings, verdict.trans satisfiable, fun name => ?_⟩
  · rw [← first, ← second, ← List.map_singleton, ← List.map_cons, List.forall₂_map_left_iff]
    exact compiles
  · rw [common, names]
    simp [mirrored, eq_comm]

end Propositional
