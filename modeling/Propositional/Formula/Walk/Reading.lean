import Propositional.Formula.Walk

/-!
# What a walk computes

A walk over a formula whose keys are coherent computes what the recursive reading of its pass computes
(`Keyed.walk_eq_fold`): values that are kept stay right, and when a node comes up for the second time,
the values below it are there. Hence a walk over a formula that is laid out for it never asks for a
value too early.
-/

namespace Propositional.Formula

variable {σ ε ν β : Type}

namespace Pass

variable {p : Pass σ ε ν β} {root node : Keyed ν} {values : Memo β} {s : σ}

/-- Every value that is kept for a node of the formula is the value of that node. -/
def Sound (p : Pass σ ε ν β) (root : Keyed ν) (values : Memo β) (s : σ) : Prop :=
  ∀ a ∈ root.nodes, ∀ b, values.find? a.key = some b → a.formula.fold p s = .ok (b, s)

theorem Sound.mono {t : σ} (sound : p.Sound root values s) (later : p.later s t) : p.Sound root values t :=
  fun a inside b found => (fold_lasting p a.formula s b s (sound a inside b found)).2 t later

theorem Sound.insert {b : β} (sound : p.Sound root values s) (coherent : root.Coherent) (inside : node ∈ root.nodes)
    (value : node.formula.fold p s = .ok (b, s)) : p.Sound root (values.insert node.key b) s := by
  intro a member c found
  rw [Memo.find?_insert] at found
  split at found
  · rename_i same
    obtain rfl := Option.some.inj found
    rw [coherent a member node inside same]
    exact value
  · exact sound a member c found

/-- The values after the visit of a node: those that were there are kept, and only the node and those
below it have got one. -/
structure Grown (node : Keyed ν) (values after : Memo β) : Prop where
  kept : ∀ key b, values.find? key = some b → after.find? key = some b
  within : ∀ key, (∀ a ∈ node.nodes, a.key ≠ key) → after.find? key = values.find? key

theorem Grown.refl (node : Keyed ν) (values : Memo β) : Grown node values values :=
  ⟨fun _ _ found => found, fun _ _ => rfl⟩

theorem Grown.trans {more after : Memo β} (first : Grown node values more) (rest : Grown node more after) :
    Grown node values after :=
  ⟨fun key b found => rest.kept key b (first.kept key b found),
    fun key outside => (rest.within key outside).trans (first.within key outside)⟩

theorem Grown.above {below : Keyed ν} {after : Memo β} (grown : Grown below values after)
    (inside : below ∈ node.nodes) : Grown node values after :=
  ⟨grown.kept, fun key outside => grown.within key fun a member => outside a (Keyed.nodes_subset inside member)⟩

theorem Grown.insert (unknown : values.find? node.key = none) (b : β) :
    Grown node values (values.insert node.key b) := by
  refine ⟨fun key c found => ?_, fun key outside => ?_⟩
  · rw [Memo.find?_insert, if_neg, found]
    intro same
    rw [same, unknown] at found
    cases found
  · rw [Memo.find?_insert, if_neg (Ne.symm (outside node node.self_mem_nodes))]

/-- A walk with a node on top of the stack goes on as the recursive reading of that node says. -/
def Follows (p : Pass σ ε ν β) (root node : Keyed ν) (values : Memo β) (s : σ) : Prop :=
  ∀ stack, match node.formula.fold p s with
    | .error e => p.run ⟨⟨node, false⟩ :: stack, values, s⟩ = .error (.failed e)
    | .ok (b, t) => ∃ after, p.run ⟨⟨node, false⟩ :: stack, values, s⟩ = p.run ⟨stack, after, t⟩ ∧
      after.find? node.key = some b ∧ p.Sound root after t ∧ Grown node values after

theorem follows_known {b : β} (inside : node ∈ root.nodes) (sound : p.Sound root values s)
    (known : values.find? node.key = some b) : p.Follows root node values s := by
  intro stack
  rw [sound node inside b known]
  exact ⟨values, p.run_known known false, known, sound, .refl node values⟩

theorem Follows.failed {e : ε} (follows : p.Follows root node values s) (value : node.formula.fold p s = .error e)
    (stack : List (Entry ν)) : p.run ⟨⟨node, false⟩ :: stack, values, s⟩ = .error (.failed e) := by
  have next := follows stack
  rwa [value] at next

theorem Follows.done {b : β} {t : σ} (follows : p.Follows root node values s)
    (value : node.formula.fold p s = .ok (b, t)) (stack : List (Entry ν)) :
    ∃ after, p.run ⟨⟨node, false⟩ :: stack, values, s⟩ = p.run ⟨stack, after, t⟩ ∧
      after.find? node.key = some b ∧ p.Sound root after t ∧ Grown node values after := by
  have next := follows stack
  rwa [value] at next

/-- The last step for a node, once the values below it are there. -/
theorem run_last (coherent : root.Coherent) (inside : node ∈ root.nodes) {more : Memo β} {t : σ} {expanded : Bool}
    (ready : (expanded || node.children.isEmpty) = true) (unknown : more.find? node.key = none)
    (sound : p.Sound root more t) (grown : Grown node values more) {act : σ → Except ε (β × σ)}
    (lasting : Lasting p.later act) (value : node.formula.fold p s = act t)
    (read : p.visit more node t = (act t).mapError .failed) (stack : List (Entry ν)) :
    match node.formula.fold p s with
    | .error e => p.run ⟨⟨node, expanded⟩ :: stack, more, t⟩ = .error (.failed e)
    | .ok (b, u) => ∃ after, p.run ⟨⟨node, expanded⟩ :: stack, more, t⟩ = p.run ⟨stack, after, u⟩ ∧
      after.find? node.key = some b ∧ p.Sound root after u ∧ Grown node values after := by
  rw [run_visit p unknown ready, read]
  cases acted : act t with
  | error e =>
    rw [value, acted]
    rfl
  | ok result =>
    obtain ⟨b, u⟩ := result
    rw [acted] at value
    have again := (fold_lasting p node.formula s b u value).2 u (p.later_refl u)
    rw [value]
    refine ⟨more.insert node.key b, rfl, ?_, ?_, grown.trans (.insert unknown b)⟩
    · rw [Memo.find?_insert, if_pos rfl]
    · exact (sound.mono (lasting t b u acted).1).insert coherent inside again

theorem valueOf_known {b : β} (known : values.find? node.key = some b) :
    valueOf (ε := ε) values node = .ok b := by
  rw [valueOf, known]

/-- The values below a node leave the node's own place free. -/
theorem Grown.unknown {below : Keyed ν} {after : Memo β} (coherent : root.Coherent) (inside : node ∈ root.nodes)
    (grown : Grown below values after) (member : below ∈ root.nodes) (smaller : below.size < node.size)
    (unknown : values.find? node.key = none) : after.find? node.key = none := by
  rw [grown.within node.key fun a deeper => ?_, unknown]
  exact coherent.key_ne inside (Keyed.nodes_subset member deeper)
    (Nat.lt_of_le_of_lt (Keyed.size_le_of_mem deeper) smaller)

theorem follows_not {key : Nat} {f : Keyed ν} (coherent : root.Coherent) (inside : .not key f ∈ root.nodes)
    (known : values.find? key = none) (below : p.Follows root f values s) :
    p.Follows root (.not key f) values s := by
  have child : f ∈ (Keyed.not key f).nodes := List.mem_cons_of_mem _ f.self_mem_nodes
  have member := Keyed.nodes_subset inside child
  intro stack
  rw [run_expand p known rfl]
  simp only [Keyed.children, List.map_cons, List.map_nil, List.cons_append, List.nil_append]
  cases value : f.formula.fold p s with
  | error e =>
    simp only [Keyed.formula, fold, value, Except.bind]
    exact below.failed value _
  | ok result =>
    obtain ⟨a, t⟩ := result
    obtain ⟨after, ran, found, sound, grown⟩ := below.done value (⟨.not key f, true⟩ :: stack)
    have unknown := grown.unknown coherent inside member (Nat.lt_succ_self _) known
    have whole : (Keyed.not key f).formula.fold p s = p.not a t := by
      simp only [Keyed.formula, fold, value, Except.bind]
    have read : p.visit after (.not key f) t = (p.not a t).mapError .failed := by
      simp only [visit, valueOf_known found, Except.bind]
    rw [ran]
    exact run_last coherent inside rfl unknown sound (grown.above child) (p.not_lasting a) whole read stack

theorem follows_binary {key : Nat} {c : Connective} {l r : Keyed ν} (coherent : root.Coherent)
    (inside : .binary key c l r ∈ root.nodes) (known : values.find? key = none) (left : p.Follows root l values s)
    (right : ∀ {more t}, p.Sound root more t → p.Follows root r more t) :
    p.Follows root (.binary key c l r) values s := by
  have first : l ∈ (Keyed.binary key c l r).nodes :=
    List.mem_cons_of_mem _ (List.mem_append_left _ l.self_mem_nodes)
  have second : r ∈ (Keyed.binary key c l r).nodes :=
    List.mem_cons_of_mem _ (List.mem_append_right _ r.self_mem_nodes)
  have smaller : l.size < (Keyed.binary key c l r).size ∧ r.size < (Keyed.binary key c l r).size := by
    simp only [Keyed.size]
    omega
  intro stack
  rw [run_expand p known rfl]
  simp only [Keyed.children, List.map_cons, List.map_nil, List.cons_append, List.nil_append]
  cases leftValue : l.formula.fold p s with
  | error e =>
    simp only [Keyed.formula, fold, leftValue, Except.bind]
    exact left.failed leftValue _
  | ok result =>
    obtain ⟨a, m⟩ := result
    obtain ⟨more, ranLeft, foundLeft, sound, grownLeft⟩ :=
      left.done leftValue (⟨r, false⟩ :: ⟨.binary key c l r, true⟩ :: stack)
    have between := grownLeft.unknown coherent inside (Keyed.nodes_subset inside first) smaller.1 known
    rw [ranLeft]
    cases rightValue : r.formula.fold p m with
    | error e =>
      simp only [Keyed.formula, fold, leftValue, rightValue, Except.bind]
      exact (right sound).failed rightValue _
    | ok result =>
      obtain ⟨b, t⟩ := result
      obtain ⟨after, ranRight, foundRight, sound, grownRight⟩ :=
        (right sound).done rightValue (⟨.binary key c l r, true⟩ :: stack)
      have unknown := grownRight.unknown coherent inside (Keyed.nodes_subset inside second) smaller.2 between
      have whole : (Keyed.binary key c l r).formula.fold p s = p.binary c a b t := by
        simp only [Keyed.formula, fold, leftValue, rightValue, Except.bind]
      have read : p.visit after (.binary key c l r) t = (p.binary c a b t).mapError .failed := by
        -- the value on the left is still there after the walk on the right
        simp only [visit, valueOf_known (grownRight.kept _ _ foundLeft), valueOf_known foundRight, Except.bind]
      rw [ranRight]
      exact run_last coherent inside rfl unknown sound ((grownLeft.above first).trans (grownRight.above second))
        (p.binary_lasting c a b) whole read stack

theorem follows (coherent : root.Coherent) (inside : node ∈ root.nodes) (sound : p.Sound root values s) :
    p.Follows root node values s := by
  induction node generalizing values s with
  | truth key v =>
    cases known : values.find? key with
    | some b => exact follows_known inside sound known
    | none => exact run_last coherent inside rfl known sound (.refl _ values) (p.truth_lasting v) rfl rfl
  | var key i =>
    cases known : values.find? key with
    | some b => exact follows_known inside sound known
    | none => exact run_last coherent inside rfl known sound (.refl _ values) (p.var_lasting i) rfl rfl
  | not key f ih =>
    have below : f ∈ root.nodes := Keyed.nodes_subset inside (List.mem_cons_of_mem _ f.self_mem_nodes)
    cases known : values.find? key with
    | some b => exact follows_known inside sound known
    | none => exact follows_not coherent inside known (ih below sound)
  | binary key c l r hl hr =>
    have first : l ∈ root.nodes :=
      Keyed.nodes_subset inside (List.mem_cons_of_mem _ (List.mem_append_left _ l.self_mem_nodes))
    have second : r ∈ root.nodes :=
      Keyed.nodes_subset inside (List.mem_cons_of_mem _ (List.mem_append_right _ r.self_mem_nodes))
    cases known : values.find? key with
    | some b => exact follows_known inside sound known
    | none => exact follows_binary coherent inside known (hl first sound) fun sound => hr second sound

end Pass

theorem Keyed.walk_eq_fold (p : Pass σ ε ν β) {t : Keyed ν} (coherent : t.Coherent) (s : σ) :
    t.walk p s = (t.formula.fold p s).mapError .failed := by
  have empty : p.Sound t {} s := fun a _ b found => by
    rw [Memo.find?_empty] at found
    cases found
  have follows := Pass.follows coherent t.self_mem_nodes empty
  unfold walk Walk.start
  cases value : t.formula.fold p s with
  | error e =>
    rw [follows.failed value]
    rfl
  | ok result =>
    obtain ⟨after, ran, found, _⟩ := follows.done value []
    rw [ran, Pass.run_nil]
    simp only [Except.bind, Pass.valueOf_known found]
    rfl

/-- What a walk comes to that asks for no value too early. -/
def settled {α : Type} : (x : Except (Halt ε) α) → x ≠ .error .unread → Except ε α
  | .ok a, _ => .ok a
  | .error (.failed e), _ => .error e
  | .error .unread, ordered => absurd rfl ordered

theorem settled_mapError {α : Type} {x : Except ε α} (ordered : x.mapError Halt.failed ≠ .error .unread) :
    settled (x.mapError Halt.failed) ordered = x := by
  cases x <;> rfl

/-- Walks over a formula that is laid out for the purpose. -/
def walk (p : Pass σ ε ν β) (f : Formula ν) (s : σ) : Except ε (β × σ) :=
  settled (f.laid.walk p s) (by
    rw [Keyed.walk_eq_fold p f.laid_coherent]
    cases f.laid.formula.fold p s <;> exact nofun)

theorem walk_eq_fold (p : Pass σ ε ν β) (f : Formula ν) (s : σ) : f.walk p s = f.fold p s := by
  have same := Keyed.walk_eq_fold p f.laid_coherent s
  rw [laid_formula] at same
  unfold walk
  simp only [same]
  exact settled_mapError _

/-- The value of a computation that cannot fail. -/
def sure {α : Type} : Except Empty α → α
  | .ok a => a

theorem sure_bind {α γ : Type} (x : Except Empty α) (next : α → Except Empty γ) :
    sure (x.bind next) = sure (next (sure x)) := by
  cases x with
  | error e => nomatch e
  | ok a => rfl

end Propositional.Formula
