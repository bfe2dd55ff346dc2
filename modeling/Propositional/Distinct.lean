/-!
# First occurrences

Keeping the first of several entries with the same key, in order. `mem_distinct` says that no entry
is lost, `distinct_pairwise` that what is kept stands in the order of first occurrences, and
`map_distinctBy` that keys may stand in for what they tell apart.
-/

namespace Propositional

variable {α κ : Type} [DecidableEq κ]

/-- The first entry with each key, leaving out the keys in `seen`. -/
def distinctBy (key : α → κ) (seen : List κ) : List α → List α
  | [] => []
  | a :: rest =>
    if key a ∈ seen then distinctBy key seen rest
    else a :: distinctBy key (key a :: seen) rest

def distinct (xs : List κ) : List κ :=
  distinctBy id [] xs

theorem mem_distinctBy_id (seen xs : List κ) (a : κ) :
    a ∈ distinctBy id seen xs ↔ a ∈ xs ∧ a ∉ seen := by
  induction xs generalizing seen with
  | nil => simp [distinctBy]
  | cons x rest ih =>
    rw [distinctBy]
    split
    · grind
    · grind

theorem mem_distinct {xs : List κ} {a : κ} : a ∈ distinct xs ↔ a ∈ xs := by
  simp [distinct, mem_distinctBy_id]

theorem distinctBy_id_pairwise (seen xs : List κ) :
    (distinctBy id seen xs).Pairwise fun a b => xs.idxOf a < xs.idxOf b := by
  induction xs generalizing seen with
  | nil => exact List.Pairwise.nil
  | cons x rest ih =>
    have next : ∀ c, c ≠ x → (x :: rest).idxOf c = rest.idxOf c + 1 := by
      intro c differs
      rw [List.idxOf_cons, beq_false_of_ne differs.symm, cond_false]
    -- What is kept behind `x` differs from it.
    have shifted : ∀ seen, x ∈ seen →
        (distinctBy id seen rest).Pairwise fun a b => (x :: rest).idxOf a < (x :: rest).idxOf b := by
      intro seen known
      refine (ih seen).imp_of_mem fun {a b} left right before => ?_
      have differs : ∀ c ∈ distinctBy id seen rest, c ≠ x := by
        rintro c member rfl
        exact ((mem_distinctBy_id seen rest c).mp member).2 known
      rw [next a (differs a left), next b (differs b right)]
      exact Nat.succ_lt_succ before
    unfold distinctBy
    by_cases known : id x ∈ seen
    · rw [if_pos known]
      exact shifted seen known
    · rw [if_neg known]
      refine List.pairwise_cons.mpr ⟨fun b member => ?_, shifted (id x :: seen) List.mem_cons_self⟩
      have differs : b ≠ x := by
        rintro rfl
        exact ((mem_distinctBy_id _ _ _).mp member).2 List.mem_cons_self
      show (x :: rest).idxOf x < (x :: rest).idxOf b
      rw [List.idxOf_cons_self, next b differs]
      exact Nat.succ_pos _

theorem distinct_pairwise (xs : List κ) : (distinct xs).Pairwise fun a b => xs.idxOf a < xs.idxOf b :=
  distinctBy_id_pairwise [] xs

theorem nodup_distinct (xs : List κ) : (distinct xs).Nodup :=
  (distinct_pairwise xs).imp fun before same => absurd before (by rw [same]; exact Nat.lt_irrefl _)

/-- A front of the list that holds a later entry also holds the earlier ones. -/
theorem distinct_fronts (xs : List κ) :
    (distinct xs).Pairwise fun a b => ∀ front, front <+: xs → b ∈ front → a ∈ front := by
  refine (distinct_pairwise xs).imp fun {a b} before front begins member => ?_
  obtain ⟨rest, rfl⟩ := begins
  rw [List.idxOf_append (a := b), if_pos member, List.idxOf_append] at before
  have inside := List.idxOf_lt_length_of_mem member
  split at before
  · assumption
  · omega

theorem distinctBy_id_eq (seen xs : List κ) : distinctBy id seen xs = (xs.filter (· ∉ seen)).eraseDups := by
  induction xs generalizing seen with
  | nil => rfl
  | cons x rest ih =>
    rw [distinctBy, id_eq]
    by_cases known : x ∈ seen
    · rw [if_pos known, ih, List.filter_cons_of_neg (by simpa using known)]
    · rw [if_neg known, ih, List.filter_cons_of_pos (by simpa using known), List.eraseDups_cons, List.filter_filter]
      congr 3
      funext y
      by_cases same : y = x <;> simp [same]

theorem distinct_eq_eraseDups (xs : List κ) : distinct xs = xs.eraseDups := by
  rw [distinct, distinctBy_id_eq, List.filter_eq_self.mpr (by simp)]

/-- Where keys tell apart what the entries stand for, the first entry with each key is the first entry
that stands for a thing. -/
theorem map_distinctBy {μ : Type} [DecidableEq μ] {key : α → κ} {image : α → μ} {p : α → Prop}
    (seen xs : List α) (decides : ∀ a b, p a → p b → (key a = key b ↔ image a = image b))
    (before : ∀ a ∈ seen, p a) (entries : ∀ a ∈ xs, p a) :
    (distinctBy key (seen.map key) xs).map image = distinctBy id (seen.map image) (xs.map image) := by
  induction xs generalizing seen with
  | nil => rfl
  | cons x rest ih =>
    have first := entries x List.mem_cons_self
    have others : ∀ a ∈ rest, p a := fun a member => entries a (List.mem_cons_of_mem x member)
    have known : key x ∈ seen.map key ↔ image x ∈ seen.map image := by
      rw [List.mem_map, List.mem_map]
      exact exists_congr fun a => and_congr_right fun member => decides a x (before a member) first
    rw [List.map_cons, distinctBy, distinctBy, id_eq]
    by_cases again : key x ∈ seen.map key
    · rw [if_pos again, if_pos (known.mp again), ih seen before others]
    · rw [if_neg again, if_neg (mt known.mpr again), List.map_cons]
      exact congrArg (image x :: ·) (ih (x :: seen) (List.forall_mem_cons.mpr ⟨first, before⟩) others)

end Propositional
