import Propositional.Formula.Position
import Propositional.Proofs.Formula.Renaming

/-!
# Walks that read a list

A formula over positions, laid out in memory in any coherent way, is evaluated and rendered by a walk from
a stack. `Keyed.walks_exact` says that the walk ends, that it fails exactly when some position lies outside
the list, whether or not its value matters, and that it otherwise gives the recursive truth value or the
recursive rendering.
-/

namespace Propositional

variable {σ ε ν α β : Type}

/-- The entry at a position, counted from the start or, if it is negative, from the end. -/
def entryAt [Inhabited α] (xs : List α) (i : Int) : α :=
  xs.getD (if 0 ≤ i then i else xs.length + i).toNat default

theorem itemAt?_inside [Inhabited α] {xs : List α} {i : Int} (inside : -(xs.length : Int) ≤ i ∧ i < xs.length) :
    itemAt? xs i = some (entryAt xs i) := by
  unfold itemAt? entryAt
  rw [List.getD_eq_getElem?_getD]
  split
  · have place : i.toNat < xs.length := by omega
    rw [List.getElem?_eq_getElem place]
    rfl
  · have place : (i + xs.length).toNat < xs.length := by omega
    rw [if_pos (by omega), Int.add_comm (xs.length : Int) i, List.getElem?_eq_getElem place]
    rfl

namespace Formula

/-! ### Turns -/

namespace Pass

variable (p : Pass σ ε ν β)

/-- A number of turns; when nothing is left on the stack, they pass without effect. -/
def turns : Nat → Walk σ ν β → Except (Halt ε) (Walk σ ν β)
  | 0, w => .ok w
  | n + 1, w => (p.turn w).bind (turns n)

theorem turns_eq_run {w : Walk σ ν β} {n : Nat} (enough : w.work ≤ n) : p.turns n w = p.run w := by
  induction n generalizing w with
  | zero =>
    obtain ⟨_ | ⟨entry, stack⟩, values, s⟩ := w
    · exact (p.run_nil).symm
    · have := entry.work_pos
      simp only [Walk.work, Entry.total] at enough
      omega
  | succ n ih =>
    obtain ⟨_ | ⟨entry, stack⟩, values, s⟩ := w
    · exact ih (Nat.zero_le n)
    · rw [turns, run_cons]
      cases turned : p.turn ⟨entry :: stack, values, s⟩ with
      | error h => rfl
      | ok next =>
        have less := p.turn_work turned
        exact ih (by omega)

theorem stack_of_run {w final : Walk σ ν β} (ran : p.run w = .ok final) : final.stack = [] := by
  induction w using Pass.run.induct p with
  | case1 values s =>
    rw [run_nil] at ran
    rw [← Except.ok.inj ran]
  | case2 entry stack values s h turned =>
    rw [run_cons, turned] at ran
    cases ran
  | case3 entry stack values s next turned ih =>
    rw [run_cons, turned] at ran
    exact ih ran

/-- Two turns a node are enough for a walk to end, by failure or with an empty stack. -/
theorem turns_end {t : Keyed ν} {s : σ} {final : Walk σ ν β}
    (ran : p.turns (2 * t.size) (.start t s) = .ok final) : final.stack = [] := by
  rw [turns_eq_run p (Nat.le_refl (2 * t.size))] at ran
  exact p.stack_of_run ran

end Pass

/-! ### Passes without a state -/

theorem bind_error {γ : Type} {x : Except ε α} {next : α → Except ε γ} {e : ε} (failed : x.bind next = .error e) :
    x = .error e ∨ ∃ a, x = .ok a ∧ next a = .error e := by
  cases x with
  | error e' => exact .inl (congrArg Except.error (Except.error.inj failed))
  | ok a => exact .inr ⟨a, rfl, failed⟩

section

variable {truth : Bool → β} {var : ν → Except ε β} {not : β → β} {binary : Connective → β → β → β} {f : Formula ν}

/-- A pass that succeeds has read every variable, also where its value does not matter. -/
theorem leaves_of_fold_ok {result : β × Unit} (done : f.fold (.stateless truth var not binary) () = .ok result) :
    ∀ i ∈ f.leaves, ∃ b, var i = .ok b := by
  induction f generalizing result with
  | truth v => exact fun i leaf => absurd leaf List.not_mem_nil
  | var i =>
    intro j leaf
    obtain rfl := List.mem_singleton.mp leaf
    cases read : var j with
    | error e =>
      simp only [fold, Pass.stateless, read, Except.map] at done
      cases done
    | ok b => exact ⟨b, rfl⟩
  | not f ih =>
    obtain ⟨_, below, _⟩ := bind_ok done
    exact ih below
  | binary c l r hl hr =>
    obtain ⟨_, left, rest⟩ := bind_ok done
    obtain ⟨_, right, _⟩ := bind_ok rest
    intro i leaf
    rcases List.mem_append.mp leaf with first | second
    · exact hl left i first
    · exact hr right i second

theorem leaf_of_fold_error {e : ε} (failed : f.fold (.stateless truth var not binary) () = .error e) :
    ∃ i ∈ f.leaves, var i = .error e := by
  induction f with
  | truth v => cases failed
  | var i =>
    refine ⟨i, List.mem_singleton.mpr rfl, ?_⟩
    cases read : var i with
    | error e' =>
      simp only [fold, Pass.stateless, read, Except.map] at failed
      rw [Except.error.inj failed]
    | ok b =>
      simp only [fold, Pass.stateless, read, Except.map] at failed
      cases failed
  | not f ih =>
    rcases bind_error failed with below | ⟨_, _, last⟩
    · exact ih below
    · cases last
  | binary c l r hl hr =>
    rcases bind_error failed with left | ⟨_, _, rest⟩
    · obtain ⟨i, leaf, read⟩ := hl left
      exact ⟨i, List.mem_append_left _ leaf, read⟩
    · rcases bind_error rest with right | ⟨_, _, last⟩
      · obtain ⟨i, leaf, read⟩ := hr right
        exact ⟨i, List.mem_append_right _ leaf, read⟩
      · cases last

/-- Where every variable is read, a pass gives what it gives when reading cannot fail. -/
theorem fold_of_leaves {g : ν → β} (known : ∀ i ∈ f.leaves, var i = .ok (g i)) :
    f.fold (.stateless truth var not binary) () =
      .ok (sure (f.fold (.stateless truth (fun i => .ok (g i)) not binary) ())) := by
  induction f with
  | truth v => rfl
  | var i =>
    simp only [fold, Pass.stateless, known i (List.mem_singleton.mpr rfl)]
    rfl
  | not f ih =>
    simp only [fold, ih known, sure_bind]
    rfl
  | binary c l r hl hr =>
    have left := hl fun i leaf => known i (List.mem_append_left _ leaf)
    have right := hr fun i leaf => known i (List.mem_append_right _ leaf)
    simp only [fold, left, sure_bind]
    show (r.fold (.stateless truth var not binary) ()).bind _ = _
    rw [right]
    rfl

end

/-! ### Reading a list -/

section

variable {truth : Bool → β} {not : β → β} {binary : Connective → β → β → β}

theorem lookUp_eq_ok_iff {look : ν → Option β} {i : ν} {b : β} : lookUp look i = .ok b ↔ look i = some b := by
  unfold lookUp
  cases look i <;> simp

theorem lookUp_eq_error_iff {look : ν → Option β} {i j : ν} : lookUp look i = .error j ↔ look i = none ∧ i = j := by
  unfold lookUp
  cases look i <;> simp

/-- What a walk comes to that reads the variables of a formula in a list of the given length: it never
asks for a value before that is computed, it fails exactly when a position lies outside the list, and
otherwise it has the given value. -/
structure Keyed.Reads (t : Keyed Int) (length : Nat) (result : Except (Halt Int) β) (value : β) : Prop where
  ordered : result ≠ .error .unread
  fails_iff : (∃ i, result = .error (.failed i)) ↔ ∃ i ∈ t.formula.leaves, (length : Int) ≤ i ∨ i < -length
  value_eq : (∀ i ∈ t.formula.leaves, -(length : Int) ≤ i ∧ i < length) → result = .ok value

theorem Keyed.reads [Inhabited β] {t : Keyed Int} (coherent : t.Coherent) (xs : List β) :
    t.Reads xs.length ((t.walk (.stateless truth (lookUp (itemAt? xs)) not binary) ()).map (·.1))
      (sure (t.formula.fold (.stateless truth (fun i => .ok (entryAt xs i)) not binary) ())).1 := by
  rw [Keyed.walk_eq_fold _ coherent]
  refine ⟨?_, ⟨?_, ?_⟩, ?_⟩
  · cases t.formula.fold (.stateless truth (lookUp (itemAt? xs)) not binary) () <;> exact nofun
  · rintro ⟨i, failed⟩
    cases value : t.formula.fold (.stateless truth (lookUp (itemAt? xs)) not binary) () with
    | error j =>
      obtain ⟨k, leaf, read⟩ := leaf_of_fold_error value
      exact ⟨k, leaf, itemAt?_eq_none_iff.mp (lookUp_eq_error_iff.mp read).1⟩
    | ok result => rw [value] at failed; cases failed
  · rintro ⟨i, leaf, outside⟩
    cases value : t.formula.fold (.stateless truth (lookUp (itemAt? xs)) not binary) () with
    | error j => exact ⟨j, rfl⟩
    | ok result =>
      obtain ⟨b, read⟩ := leaves_of_fold_ok value i leaf
      rw [lookUp_eq_ok_iff, itemAt?_eq_none_iff.mpr outside] at read
      cases read
  · intro inside
    rw [fold_of_leaves fun i leaf => lookUp_eq_ok_iff.mpr (itemAt?_inside (inside i leaf))]
    rfl

end

theorem renderWith?_of_leaves {names : List String} {name : Int → String} {f : Formula Int}
    (known : ∀ i ∈ f.leaves, itemAt? names i = some (name i)) : f.renderWith? names = some (f.render name) := by
  rw [renderWith?, Keyed.renderWith, Keyed.walk_eq_fold _ f.laid_coherent, laid_formula, Pass.renderer,
    fold_of_leaves fun i leaf => lookUp_eq_ok_iff.mpr (known i leaf), render, walk_eq_fold]
  rfl

/-- The rendering by recursion on the formula. -/
def written (name : ν → String) : Formula ν → String
  | truth true => "⊤"
  | truth false => "⊥"
  | var i => name i
  | not f => "¬" ++ f.written name
  | binary .and l r => "(" ++ l.written name ++ " ∧ " ++ r.written name ++ ")"
  | binary .or l r => "(" ++ l.written name ++ " ∨ " ++ r.written name ++ ")"
  | binary .implies l r => "(" ++ l.written name ++ " → " ++ r.written name ++ ")"
  | binary .iff l r => "(" ++ l.written name ++ " ↔ " ++ r.written name ++ ")"

theorem render_eq_written (name : ν → String) (f : Formula ν) : f.render name = f.written name := by
  induction f with
  | truth v =>
    rw [render_truth]
    cases v <;> rfl
  | var i => exact render_var name i
  | not f ih => rw [render_not, ih, written]
  | binary c l r hl hr =>
    have spaced : ∀ sign, "(" ++ l.written name ++ " " ++ sign ++ " " ++ r.written name ++ ")" =
        "(" ++ l.written name ++ (" " ++ sign ++ " ") ++ r.written name ++ ")" := by
      intro sign
      simp only [String.append_assoc]
    rw [render_binary, hl, hr, spaced]
    cases c <;> rfl

/-- Evaluation and rendering from a stack are the recursive ones, and fail exactly at a position outside the list. -/
theorem Keyed.walks_exact (t : Keyed Int) (coherent : t.Coherent) (row : List Bool) (names : List String) :
    (∀ final, (Pass.evaluator (lookUp (itemAt? row))).turns (2 * t.size) (.start t ()) = .ok final →
      final.stack = []) ∧
    t.Reads row.length (t.evaluateAt row) (t.formula.holds (entryAt row)) ∧
    (∀ final, (Pass.renderer (lookUp (itemAt? names))).turns (2 * t.size) (.start t ()) = .ok final →
      final.stack = []) ∧
    t.Reads names.length (t.renderWith names) (t.formula.written (entryAt names)) ∧
    t.formula.evaluateAt? row = (t.evaluateAt row).toOption ∧
    t.formula.renderWith? names = (t.renderWith names).toOption := by
  have laidOut {β : Type} (p : Pass Unit Int Int β) : t.formula.laid.walk p () = t.walk p () := by
    rw [walk_eq_fold p t.formula.laid_coherent, walk_eq_fold p coherent, laid_formula]
  refine ⟨fun _ => Pass.turns_end _, ?_, fun _ => Pass.turns_end _, ?_, ?_, ?_⟩
  · rw [← evaluate_eq_holds, evaluate, Formula.walk_eq_fold]
    exact reads coherent row
  · rw [← render_eq_written, render, Formula.walk_eq_fold]
    exact reads coherent names
  · rw [evaluateAt?, evaluateAt, evaluateAt, laidOut]
  · rw [renderWith?, renderWith, renderWith, laidOut]

/-- Two operands are one node, which an evaluation that stops early would not need. -/
def Keyed.shared : Keyed Int :=
  .binary 0 .or (.truth 1 true) (.binary 2 .and (.var 4 (-1)) (.not 3 (.var 4 (-1))))

def Keyed.joined (c : Connective) : Keyed Int :=
  .binary 0 c (.var 1 0) (.var 2 (-1))

theorem Keyed.joined_coherent (c : Connective) : (joined c).Coherent := by
  unfold Coherent
  cases c <;> decide

/-- All four tables, each with its sign. -/
theorem Keyed.walks_shared :
    (shared.Coherent ∧ shared.evaluateAt [true, false] = .ok true ∧
      shared.renderWith ["p", "q"] = .ok "(⊤ ∨ (q ∧ ¬q))" ∧ ∃ i, shared.evaluateAt [] = .error (.failed i)) ∧
    ([[true, true], [true, false], [false, true], [false, false]].map fun row =>
      [.and, .or, .implies, .iff].map fun c => (joined c).evaluateAt row) =
      [[.ok true, .ok true, .ok true, .ok true], [.ok false, .ok true, .ok false, .ok false],
        [.ok false, .ok true, .ok true, .ok false], [.ok false, .ok false, .ok true, .ok true]] ∧
    ([.and, .or, .implies, .iff].map fun c => (joined c).renderWith ["p", "q"]) =
      [.ok "(p ∧ q)", .ok "(p ∨ q)", .ok "(p → q)", .ok "(p ↔ q)"] := by
  have coherent : shared.Coherent := by
    unfold Coherent
    decide
  obtain ⟨_, evaluated, _, rendered, _⟩ := walks_exact shared coherent [true, false] ["p", "q"]
  obtain ⟨_, unread, _⟩ := walks_exact shared coherent [] []
  have inside : ∀ c, ∀ i ∈ (joined c).formula.leaves, -2 ≤ i ∧ i < 2 := by
    intro c
    cases c <;> decide
  have tables : ∀ c a b, (joined c).evaluateAt [a, b] = .ok ((joined c).formula.holds (entryAt [a, b])) :=
    fun c a b => (walks_exact (joined c) (joined_coherent c) [a, b] []).2.1.value_eq (inside c)
  have texts : ∀ c, (joined c).renderWith ["p", "q"] = .ok ((joined c).formula.written (entryAt ["p", "q"])) :=
    fun c => (walks_exact (joined c) (joined_coherent c) [] ["p", "q"]).2.2.2.1.value_eq (inside c)
  refine ⟨⟨coherent, evaluated.value_eq (by decide), rendered.value_eq (by decide), ?_⟩, ?_, ?_⟩
  · exact unread.fails_iff.mpr ⟨-1, by decide, by decide⟩
  · simp only [List.map_cons, List.map_nil, tables]
    rfl
  · simp only [List.map_cons, List.map_nil, texts]
    rfl

end Formula

end Propositional
