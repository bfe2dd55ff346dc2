import Mathlib.Data.Bool.Basic
import Mathlib.Tactic.ByContra
import Propositional.Classification
import Propositional.Proofs.Valuation

/-!
# Classification by one pass

Both flags of the pass stand for what some row shows, also where it stops early. `classify_eq_iff` says that the
classification describes the formula by names.
-/

namespace Propositional

def Classification.Describes (f : Formula String) : Classification → Prop
  | tautology => ∀ v, f.holds v = true
  | contingency => (∃ v, f.holds v = true) ∧ ∃ v, f.holds v = false
  | contradiction => ∀ v, f.holds v = false

variable {f g : Formula String} {c d : Classification} {r : Compiled}

/-! ### The pass -/

theorem Seen.has_add (s : Seen) (value b : Bool) : (s.add value).has b = (s.has b || value == b) := by
  cases value <;> cases b <;> simp [add, has]

theorem Seen.has_after {value : Nat → Bool} {left i : Nat} {s : Seen} {b : Bool} :
    (after value left i s).has b = true ↔ s.has b = true ∨ ∃ k, i ≤ k ∧ k < i + left ∧ value k = b := by
  induction left generalizing i s with
  | zero =>
    refine ⟨Or.inl, ?_⟩
    rintro (before | ⟨k, low, high, _⟩)
    · exact before
    · omega
  | succ left ih =>
    have step : ((s.add (value i)).has b = true ∨ ∃ k, i + 1 ≤ k ∧ k < i + 1 + left ∧ value k = b) ↔
        s.has b = true ∨ ∃ k, i ≤ k ∧ k < i + (left + 1) ∧ value k = b := by
      rw [has_add, Bool.or_eq_true, beq_iff_eq, or_assoc]
      refine or_congr_right ⟨?_, ?_⟩
      · rintro (now | ⟨k, low, high, later⟩)
        · exact ⟨i, Nat.le_refl i, by omega, now⟩
        · exact ⟨k, by omega, by omega, later⟩
      · rintro ⟨k, low, high, found⟩
        obtain rfl | beyond := Nat.eq_or_lt_of_le low
        · exact Or.inl found
        · exact Or.inr ⟨k, beyond, by omega, found⟩
    rw [after]
    split
    · -- Both values have turned up, so the rows that are skipped cannot add any.
      rename_i both
      have now : (s.add (value i)).has b = true := by
        obtain ⟨holds, fails⟩ := Bool.and_eq_true_iff.mp both
        cases b
        · exact fails
        · exact holds
      exact iff_of_true now (step.mp (Or.inl now))
    · rw [ih, step]

theorem Compiled.has_seen {b : Bool} : r.seen.has b = true ↔ ∃ a, r.value a = b := by
  rw [seen, Seen.has_after]
  constructor
  · rintro (before | ⟨k, _, _, value⟩)
    · cases b <;> cases before
    · exact ⟨_, value⟩
  · rintro ⟨a, value⟩
    obtain ⟨k, inside, rfl⟩ := List.mem_map.mp (Assignment.mem_rows a)
    exact Or.inr ⟨k, Nat.zero_le k, by simpa using inside, value⟩

theorem Compiled.has_seen_eq_false {b : Bool} : r.seen.has (!b) = false ↔ ∀ a, r.value a = b := by
  rw [← Bool.not_eq_true, has_seen, not_exists]
  exact forall_congr' fun a => Bool.not_eq_not

theorem classify_eq_contingency_iff : classify r = .contingency ↔
    (∃ a, r.value a = true) ∧ ∃ a, r.value a = false := by
  rw [← Compiled.has_seen, ← Compiled.has_seen, classify]
  rcases r.seen with ⟨_ | _, _ | _⟩ <;> simp [Seen.classification, Seen.has]

theorem classify_eq_contradiction_iff : classify r = .contradiction ↔ ∀ a, r.value a = false := by
  rw [← Compiled.has_seen_eq_false, classify]
  rcases r.seen with ⟨_ | _, _ | _⟩ <;> simp [Seen.classification, Seen.has]

theorem classify_eq_tautology_iff : classify r = .tautology ↔ ∀ a, r.value a = true := by
  -- There is always a row, so a formula that is never seen false is seen true.
  have either : r.seen.has true = true ∨ r.seen.has false = true := by
    let a : Assignment r.names.length := .replicate _ true
    cases value : r.value a with
    | true => exact Or.inl (Compiled.has_seen.mpr ⟨a, value⟩)
    | false => exact Or.inr (Compiled.has_seen.mpr ⟨a, value⟩)
  rw [← Compiled.has_seen_eq_false, classify]
  generalize r.seen = s at either ⊢
  rcases s with ⟨_ | _, _ | _⟩ <;> simp_all [Seen.classification, Seen.has]

/-! ### By names -/

theorem Classification.Describes.unique (left : c.Describes f) (right : d.Describes f) : c = d := by
  have value : ∀ b, (∀ v, f.holds v = b) → ¬ ∃ v, f.holds v = !b := by
    rintro b always ⟨v, other⟩
    rw [always v] at other
    cases b <;> cases other
  have both : ¬ ((∀ v, f.holds v = true) ∧ ∀ v, f.holds v = false) :=
    fun both => value true both.1 ⟨fun _ => true, both.2 _⟩
  cases c <;> cases d
  case tautology.tautology | contingency.contingency | contradiction.contradiction => rfl
  case tautology.contingency => exact absurd right.2 (value true left)
  case contingency.tautology => exact absurd left.2 (value true right)
  case contingency.contradiction => exact absurd left.1 (value false right)
  case contradiction.contingency => exact absurd right.1 (value false left)
  case tautology.contradiction => exact absurd ⟨left, right⟩ both
  case contradiction.tautology => exact absurd ⟨right, left⟩ both

theorem Classification.Describes.congr (same : ∀ b, (∃ v, f.holds v = b) ↔ ∃ v, g.holds v = b)
    (describes : c.Describes f) : c.Describes g := by
  have always : ∀ b, (∀ v, f.holds v = !b) → ∀ v, g.holds v = !b := by
    intro b all v
    by_contra other
    obtain ⟨w, value⟩ := (same b).mpr ⟨v, Bool.not_eq_not.mp other⟩
    rw [all w] at value
    cases b <;> cases value
  cases c with
  | tautology => exact always false describes
  | contingency => exact ⟨(same true).mp describes.1, (same false).mp describes.2⟩
  | contradiction => exact always true describes

theorem Compiled.exists_value_iff (distinct : r.names.Nodup) {b : Bool} :
    (∃ a, r.value a = b) ↔ ∃ v, r.named.holds v = b := by
  constructor
  · rintro ⟨a, value⟩
    exact ⟨_, (value_eq distinct a).symm.trans value⟩
  · rintro ⟨v, value⟩
    let a : Assignment r.names.length := ⟨(r.names.map v).toArray, by simp⟩
    have same : r.value a = r.named.holds v := value_eq_holds fun i => by simp [a, Vector.get]
    exact ⟨a, same.trans value⟩

theorem Compiled.forall_value_iff (distinct : r.names.Nodup) {b : Bool} :
    (∀ a, r.value a = b) ↔ ∀ v, r.named.holds v = b := by
  have never := not_congr (exists_value_iff distinct (b := !b))
  simpa only [not_exists, ← ne_eq, Bool.ne_not] using never

theorem classify_describes (distinct : r.names.Nodup) : (classify r).Describes r.named := by
  cases result : classify r with
  | tautology => exact (Compiled.forall_value_iff distinct).mp (classify_eq_tautology_iff.mp result)
  | contingency =>
    obtain ⟨holds, fails⟩ := classify_eq_contingency_iff.mp result
    exact ⟨(Compiled.exists_value_iff distinct).mp holds, (Compiled.exists_value_iff distinct).mp fails⟩
  | contradiction => exact (Compiled.forall_value_iff distinct).mp (classify_eq_contradiction_iff.mp result)

theorem classify_eq_iff (distinct : r.names.Nodup) : classify r = c ↔ c.Describes r.named := by
  constructor
  · rintro rfl
    exact classify_describes distinct
  · exact (classify_describes distinct).unique

theorem classify_eq_contradiction_iff_named (distinct : r.names.Nodup) :
    classify r = .contradiction ↔ ∀ v, r.named.holds v = false :=
  classify_eq_iff distinct

theorem classify_congr {s : Compiled} (distinct : r.names.Nodup) (distinct' : s.names.Nodup)
    (same : ∀ b, (∃ v, r.named.holds v = b) ↔ ∃ v, s.named.holds v = b) : classify r = classify s :=
  ((classify_eq_iff distinct').mpr ((classify_describes distinct).congr same)).symm

end Propositional
