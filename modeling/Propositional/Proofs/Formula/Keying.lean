import Mathlib.Logic.Relation
import Propositional.Proofs.Formula.Key
import Propositional.Proofs.Formula.Walk

/-!
# Keys across walks

One table of shapes may serve any number of walks, over one formula after another. `Keying.Step` is what
happens to such a table: a turn of the walk under way, or the start of the next one. `keys_decide` says that
at every point the table numbers its shapes without a gap, that no number ever changes, and that nodes from
any of the walks have the same key exactly when they are the same formula.
-/

namespace Propositional.Formula

variable {ν : Type}

/-- A table of shapes at work: the formula that is walked over, as it is laid out in memory, and the walk,
whose state is the table. -/
structure Keying (ν : Type) where
  tree : Keyed ν
  walk : Walk (List (Shape ν)) ν (Keyed ν)

namespace Keying

def start (t : Keyed ν) (table : List (Shape ν)) : Keying ν :=
  ⟨t, .start t table⟩

def table (k : Keying ν) : List (Shape ν) :=
  k.walk.state

/-- The key that the walk under way has given to a node. -/
def key? (k : Keying ν) (node : Keyed ν) : Option Nat :=
  (k.walk.values.find? node.key).map Keyed.key

end Keying

theorem Keyed.mem_nodes_iff {a t : Keyed ν} : a ∈ t.nodes ↔ a = t ∨ ∃ child ∈ t.children, a ∈ child.nodes := by
  cases t with
  | truth | var => simp [nodes, children]
  | not => simp [nodes, children]
  | binary => simp [nodes, children]

theorem Keyed.mem_nodes_of_child {child t : Keyed ν} (member : child ∈ t.children) : child ∈ t.nodes :=
  mem_nodes_iff.mpr (Or.inr ⟨child, member, child.self_mem_nodes⟩)

/-! ### Turns -/

section

variable {σ ε β : Type} {p : Pass σ ε ν β} {entry : Entry ν} {stack : List (Entry ν)} {values : Memo β} {s : σ}
  {next : Walk σ ν β}

/-- What a turn does: the topmost node has a value already, or gets one, or waits for those below it. -/
theorem Pass.turn_cases (turned : p.turn ⟨entry :: stack, values, s⟩ = .ok next) :
    ((values.find? entry.node.key).isSome ∧ next = ⟨stack, values, s⟩) ∨
    (∃ b t, p.visit values entry.node s = .ok (b, t) ∧ next = ⟨stack, values.insert entry.node.key b, t⟩) ∨
    next = ⟨entry.node.children.map (⟨·, false⟩) ++ ⟨entry.node, true⟩ :: stack, values, s⟩ := by
  simp only [turn] at turned
  split at turned
  · rename_i known
    exact Or.inl ⟨known, (Except.ok.inj turned).symm⟩
  · split at turned
    · cases visited : p.visit values entry.node s with
      | error h => rw [visited] at turned; cases turned
      | ok result =>
        rw [visited] at turned
        exact Or.inr (Or.inl ⟨result.1, result.2, rfl, (Except.ok.inj turned).symm⟩)
    · exact Or.inr (Or.inr (Except.ok.inj turned).symm)

theorem Pass.run_turn {w final : Walk σ ν β} (turned : p.turn w = .ok next)
    (ran : p.run w = .ok final) : p.run next = .ok final := by
  obtain ⟨_ | ⟨entry, stack⟩, values, s⟩ := w
  · obtain rfl := Except.ok.inj turned
    exact ran
  · rw [run_cons, turned] at ran
    exact ran

theorem valueOf_ok {node : Keyed ν} {b : β} (read : valueOf (ε := ε) values node = .ok b) :
    values.find? node.key = some b := by
  unfold valueOf at read
  split at read
  · rename_i known
    rw [known, Except.ok.inj read]
  · cases read

end

/-! ### Points of a walk -/

/-- The value of a node is that node with keys that the table gives. -/
structure KeyedBy (table : List (Shape ν)) (node b : Keyed ν) : Prop where
  formula_eq : b.formula = node.formula
  sound : b.Sound table

/-- What holds of a walk over a formula between any two turns: values are kept for nodes together with all the
nodes below them, and the formula itself has a value or waits for one. -/
structure Valid (t : Keyed ν) (stack : List (Entry ν)) (values : Memo (Keyed ν)) (table : List (Shape ν)) : Prop where
  coherent : t.Coherent
  distinct : table.Nodup
  pending : ∀ entry ∈ stack, entry.node ∈ t.nodes
  keyed : ∀ a ∈ t.nodes, ∀ b, values.find? a.key = some b → KeyedBy table a b
  closed : ∀ a ∈ t.nodes, (values.find? a.key).isSome → ∀ c ∈ a.nodes, (values.find? c.key).isSome
  root : (values.find? t.key).isSome ∨ ∃ entry ∈ stack, entry.node = t

variable {table larger : List (Shape ν)} {t b : Keyed ν} {entry : Entry ν} {stack : List (Entry ν)}
  {values : Memo (Keyed ν)} {shape other : Shape ν} {key : Nat}

theorem KeyedBy.mono {node : Keyed ν} (value : KeyedBy table node b) (kept : table <:+ larger) :
    KeyedBy larger node b :=
  ⟨value.formula_eq, value.sound.mono kept⟩

theorem valid_start (coherent : t.Coherent) (distinct : table.Nodup) : Valid t [⟨t, false⟩] {} table where
  coherent := coherent
  distinct := distinct
  pending := List.forall_mem_singleton.mpr t.self_mem_nodes
  keyed _ _ _ found := nomatch found
  closed _ _ known := nomatch known
  root := Or.inr ⟨⟨t, false⟩, List.mem_singleton.mpr rfl, rfl⟩

theorem Valid.known (valid : Valid t (entry :: stack) values table)
    (known : (values.find? entry.node.key).isSome) : Valid t stack values table where
  coherent := valid.coherent
  distinct := valid.distinct
  pending other member := valid.pending other (List.mem_cons_of_mem entry member)
  keyed := valid.keyed
  closed := valid.closed
  root := by
    obtain found | ⟨other, member, same⟩ := valid.root
    · exact Or.inl found
    · rcases List.mem_cons.mp member with rfl | below
      · rw [same] at known
        exact Or.inl known
      · exact Or.inr ⟨other, below, same⟩

theorem Valid.expanded (valid : Valid t (entry :: stack) values table) :
    Valid t (entry.node.children.map (⟨·, false⟩) ++ ⟨entry.node, true⟩ :: stack) values table where
  coherent := valid.coherent
  distinct := valid.distinct
  pending := by
    obtain ⟨top, rest⟩ := List.forall_mem_cons.mp valid.pending
    refine List.forall_mem_append.mpr ⟨List.forall_mem_map.mpr fun child member => ?_, ?_⟩
    · exact Keyed.nodes_subset top (Keyed.mem_nodes_of_child member)
    · exact List.forall_mem_cons.mpr ⟨top, rest⟩
  keyed := valid.keyed
  closed := valid.closed
  root := by
    obtain found | ⟨other, member, same⟩ := valid.root
    · exact Or.inl found
    · rcases List.mem_cons.mp member with rfl | below
      · exact Or.inr ⟨⟨other.node, true⟩, List.mem_append_right _ List.mem_cons_self, same⟩
      · exact Or.inr ⟨other, List.mem_append_right _ (List.mem_cons_of_mem _ below), same⟩

theorem find?_insert_isSome {place : Nat} (known : (values.find? place).isSome) :
    ((values.insert key b).find? place).isSome := by
  rw [Memo.find?_insert]
  split
  · rfl
  · exact known

/-- When a walk has ended, every node of its formula has a value. -/
theorem Valid.ended (valid : Valid t [] values table) : ∀ a ∈ t.nodes, (values.find? a.key).isSome := by
  obtain known | ⟨_, none, _⟩ := valid.root
  · exact valid.closed t t.self_mem_nodes known
  · exact absurd none List.not_mem_nil

variable [DecidableEq ν]

/-! ### Exact tables -/

/-- Different shapes have different numbers, and these are the numbers below the size of the table. -/
structure Exact (table : List (Shape ν)) : Prop where
  injective : ∀ shape other key, Shape.key? shape table = some key → Shape.key? other table = some key → shape = other
  range : ∀ key, (∃ shape, Shape.key? shape table = some key) ↔ key < table.length

theorem Shape.key?_eq_some_iff (distinct : table.Nodup) : shape.key? table = some key ↔ Numbered table key shape := by
  refine ⟨numbered_of_key?, fun numbered => ?_⟩
  cases known : shape.key? table with
  | some place => rw [(numbered_of_key? known).injective distinct numbered]
  | none => exact absurd (List.mem_reverse.mp (List.mem_of_getElem? numbered)) (not_mem_of_key? known)

theorem exact_of_nodup (distinct : table.Nodup) : Exact table := by
  refine ⟨fun shape other key left right => ?_, fun key => ?_⟩
  · exact (Shape.numbered_of_key? left).unique (Shape.numbered_of_key? right)
  · simp only [Shape.key?_eq_some_iff distinct, Numbered, List.getElem?_eq_some_iff, List.length_reverse]
    constructor
    · rintro ⟨_, inside, _⟩
      exact inside
    · exact fun inside => ⟨_, inside, rfl⟩

theorem key?_mono (kept : table <:+ larger) (distinct : larger.Nodup) (found : shape.key? table = some key) :
    shape.key? larger = some key :=
  (Shape.key?_eq_some_iff distinct).mpr ((Shape.numbered_of_key? found).mono kept)

/-! ### Visits -/

/-- A visit that gives a node the key of its shape: the table grows by that shape, unless it is there already. -/
theorem enterNode_ok (shape : Shape ν) (node : Nat → Keyed ν)
    (entered : (shape.enterNode node table).mapError Halt.failed = .ok (b, larger)) :
    b = node (shape.enter table).1 ∧ larger = (shape.enter table).2 := by
  obtain ⟨rfl, rfl⟩ := Prod.mk.inj (Except.ok.inj entered)
  exact ⟨rfl, rfl⟩

theorem visit_key {node : Keyed ν}
    (below : ∀ child ∈ node.children, ∀ c, values.find? child.key = some c → KeyedBy table child c)
    (visited : Pass.key.visit values node table = .ok (b, larger)) :
    KeyedBy larger node b ∧ table <:+ larger ∧ (table.Nodup → larger.Nodup) ∧
      ∀ child ∈ node.children, (values.find? child.key).isSome := by
  cases node with
  | truth key v =>
    obtain ⟨rfl, rfl⟩ := enterNode_ok (.truth v) (.truth · v) visited
    refine ⟨⟨rfl, ?_⟩, Shape.enter_kept _ table, Shape.enter_nodup _, fun _ none => absurd none List.not_mem_nil⟩
    exact Shape.enter_numbered _ table
  | var key i =>
    obtain ⟨rfl, rfl⟩ := enterNode_ok (.var i) (.var · i) visited
    refine ⟨⟨rfl, ?_⟩, Shape.enter_kept _ table, Shape.enter_nodup _, fun _ none => absurd none List.not_mem_nil⟩
    exact Shape.enter_numbered _ table
  | not key f =>
    obtain ⟨c, read, visited⟩ := bind_ok visited
    have known := valueOf_ok read
    have value := below f List.mem_cons_self c known
    obtain ⟨rfl, rfl⟩ := enterNode_ok (.not c.key) (.not · c) visited
    refine ⟨⟨congrArg Formula.not value.formula_eq, ?_⟩, Shape.enter_kept _ table, Shape.enter_nodup _, ?_⟩
    · exact ⟨Shape.enter_numbered _ table, value.sound.mono (Shape.enter_kept _ table)⟩
    · exact List.forall_mem_singleton.mpr (by rw [known]; rfl)
  | binary key c l r =>
    obtain ⟨a, readLeft, visited⟩ := bind_ok visited
    obtain ⟨d, readRight, visited⟩ := bind_ok visited
    have knownLeft := valueOf_ok readLeft
    have knownRight := valueOf_ok readRight
    have left := below l List.mem_cons_self a knownLeft
    have right := below r (List.mem_cons_of_mem _ List.mem_cons_self) d knownRight
    obtain ⟨rfl, rfl⟩ := enterNode_ok (.binary c a.key d.key) (.binary · c a d) visited
    have kept := Shape.enter_kept (Shape.binary c a.key d.key) table
    refine ⟨⟨congrArg₂ (Formula.binary c) left.formula_eq right.formula_eq, ?_⟩, kept, Shape.enter_nodup _, ?_⟩
    · exact ⟨Shape.enter_numbered _ table, left.sound.mono kept, right.sound.mono kept⟩
    · refine List.forall_mem_cons.mpr ⟨by rw [knownLeft]; rfl, List.forall_mem_singleton.mpr ?_⟩
      rw [knownRight]
      rfl

theorem Valid.visited (valid : Valid t (entry :: stack) values table)
    (visited : Pass.key.visit values entry.node table = .ok (b, larger)) :
    Valid t stack (values.insert entry.node.key b) larger ∧ table <:+ larger := by
  obtain ⟨top, rest⟩ := List.forall_mem_cons.mp valid.pending
  have inside : ∀ child ∈ entry.node.children, child ∈ t.nodes :=
    fun child member => Keyed.nodes_subset top (Keyed.mem_nodes_of_child member)
  obtain ⟨keyed, kept, distinct, below⟩ := visit_key (fun child member => valid.keyed child (inside child member)) visited
  have found : ((values.insert entry.node.key b).find? entry.node.key).isSome := by
    rw [Memo.find?_insert, if_pos rfl]
    rfl
  refine ⟨⟨valid.coherent, distinct valid.distinct, rest, fun a member c known => ?_, fun a member known c deeper => ?_,
    ?_⟩, kept⟩
  · rw [Memo.find?_insert] at known
    split at known
    · rename_i same
      obtain rfl := Option.some.inj known
      rw [valid.coherent a member entry.node top same]
      exact keyed
    · exact (valid.keyed a member c known).mono kept
  · rw [Memo.find?_insert] at known
    split at known
    · -- the nodes below have got their values before
      rename_i same
      rw [valid.coherent a member entry.node top same] at deeper
      obtain rfl | ⟨child, direct, within⟩ := Keyed.mem_nodes_iff.mp deeper
      · exact found
      · exact find?_insert_isSome (valid.closed child (inside child direct) (below child direct) c within)
    · exact find?_insert_isSome (valid.closed a member known c deeper)
  · obtain known | ⟨other, member, same⟩ := valid.root
    · exact Or.inl (find?_insert_isSome known)
    · rcases List.mem_cons.mp member with rfl | later
      · rw [same] at found
        exact Or.inl (same ▸ found)
      · exact Or.inr ⟨other, later, same⟩

/-- One turn keeps all this, and only adds shapes to the table. -/
theorem Valid.turn {next : Walk (List (Shape ν)) ν (Keyed ν)} (valid : Valid t stack values table)
    (turned : Pass.key.turn ⟨stack, values, table⟩ = .ok next) :
    Valid t next.stack next.values next.state ∧ table <:+ next.state := by
  cases stack with
  | nil =>
    obtain rfl := Except.ok.inj turned
    exact ⟨valid, List.suffix_refl table⟩
  | cons entry stack =>
    obtain ⟨known, rfl⟩ | ⟨b, larger, visited, rfl⟩ | rfl := Pass.turn_cases turned
    · exact ⟨valid.known known, List.suffix_refl table⟩
    · exact valid.visited visited
    · exact ⟨valid.expanded, List.suffix_refl table⟩

/-- A walk ends from its start, and so from any point that it comes to. -/
theorem run_start (coherent : t.Coherent) (table : List (Shape ν)) :
    ∃ final, Pass.key.run (.start t table) = .ok final := by
  have walked := Keyed.walk_eq_fold Pass.key coherent table
  cases ran : Pass.key.run (Walk.start t table) with
  | ok final => exact ⟨final, rfl⟩
  | error h =>
    rw [Keyed.walk, ran] at walked
    cases folded : t.formula.fold Pass.key table with
    | ok result => rw [folded] at walked; cases walked
    | error e => nomatch e

/-! ### Walk after walk -/

namespace Keying

variable {k later : Keying ν}

/-- What happens next: a turn of the walk or, when that has ended, the start of a walk over another formula. -/
inductive Step : Keying ν → Keying ν → Prop where
  | turn {t : Keyed ν} {w next : Walk (List (Shape ν)) ν (Keyed ν)} (turned : Pass.key.turn w = .ok next) :
      Step ⟨t, w⟩ ⟨t, next⟩
  | again {k : Keying ν} (u : Keyed ν) (ended : k.walk.stack = []) (coherent : u.Coherent) :
      Step k (start u k.table)

/-- The points that a table may come to, from an empty one on. -/
def Reached (k : Keying ν) : Prop :=
  ∃ t : Keyed ν, t.Coherent ∧ Relation.ReflTransGen Step (start t []) k

/-- What holds at every point. -/
structure Sound (k : Keying ν) : Prop where
  valid : Valid k.tree k.walk.stack k.walk.values k.table
  ends : ∃ final, Pass.key.run k.walk = .ok final

theorem sound_start {t : Keyed ν} (coherent : t.Coherent) (distinct : table.Nodup) : (start t table).Sound :=
  ⟨valid_start coherent distinct, run_start coherent table⟩

theorem Sound.step (sound : k.Sound) (step : Step k later) : later.Sound ∧ k.table <:+ later.table := by
  cases step with
  | @turn t w next turned =>
    obtain ⟨valid, kept⟩ := sound.valid.turn turned
    obtain ⟨final, ran⟩ := sound.ends
    exact ⟨⟨valid, final, Pass.run_turn turned ran⟩, kept⟩
  | again u _ coherent => exact ⟨sound_start coherent sound.valid.distinct, List.suffix_refl _⟩

theorem Sound.steps (sound : k.Sound) (steps : Relation.ReflTransGen Step k later) :
    later.Sound ∧ k.table <:+ later.table := by
  induction steps with
  | refl => exact ⟨sound, List.suffix_refl _⟩
  | tail _ step ih =>
    obtain ⟨next, kept⟩ := ih.1.step step
    exact ⟨next, ih.2.trans kept⟩

theorem Reached.sound (reached : k.Reached) : k.Sound := by
  obtain ⟨t, coherent, steps⟩ := reached
  exact ((sound_start coherent List.nodup_nil).steps steps).1

theorem Sound.keyedBy (sound : k.Sound) {a : Keyed ν} (inside : a ∈ k.tree.nodes) (found : k.key? a = some key) :
    ∃ b, KeyedBy k.table a b ∧ b.key = key := by
  obtain ⟨b, known, rfl⟩ := Option.map_eq_some_iff.mp found
  exact ⟨b, sound.valid.keyed a inside b known, rfl⟩

/-- From any point on numbers are kept, and two nodes have the same key exactly when they are the same formula. -/
theorem keys_decide (reached : k.Reached) :
    Exact k.table ∧
    (k.walk.stack ≠ [] → ∃ next, Pass.key.turn k.walk = .ok next ∧ next.work < k.walk.work) ∧
    (k.walk.stack = [] → ∀ a ∈ k.tree.nodes, ∃ key, k.key? a = some key) ∧
    ∀ later, Relation.ReflTransGen Step k later →
      (∀ shape key, Shape.key? shape k.table = some key → Shape.key? shape later.table = some key) ∧
      ∀ a ∈ k.tree.nodes, ∀ b ∈ later.tree.nodes, ∀ i j, k.key? a = some i → later.key? b = some j →
        (i = j ↔ a.formula = b.formula) := by
  have sound := reached.sound
  refine ⟨exact_of_nodup sound.valid.distinct, fun busy => ?_, fun done a inside => ?_, fun later steps => ⟨?_, ?_⟩⟩
  · obtain ⟨final, ran⟩ := sound.ends
    obtain ⟨tree, _ | ⟨entry, stack⟩, values, table⟩ := k
    · exact absurd rfl busy
    · rw [Pass.run_cons] at ran
      obtain ⟨next, turned, _⟩ := bind_ok ran
      exact ⟨next, turned, Pass.turn_work _ turned⟩
  · have valid := sound.valid
    rw [done] at valid
    obtain ⟨b, known⟩ := Option.isSome_iff_exists.mp (valid.ended a inside)
    exact ⟨b.key, by rw [key?, known]; rfl⟩
  · intro shape key found
    obtain ⟨next, kept⟩ := sound.steps steps
    exact key?_mono kept next.valid.distinct found
  · intro a inside b other i j left right
    obtain ⟨next, kept⟩ := sound.steps steps
    obtain ⟨x, first, rfl⟩ := sound.keyedBy inside left
    obtain ⟨y, second, rfl⟩ := next.keyedBy other right
    rw [← first.formula_eq, ← second.formula_eq]
    exact (first.sound.mono kept).key_eq_iff next.valid.distinct second.sound

theorem steps_of_turns {t : Keyed ν} {w next : Walk (List (Shape ν)) ν (Keyed ν)} {n : Nat}
    (turned : Pass.key.turns n w = .ok next) : Relation.ReflTransGen Step ⟨t, w⟩ ⟨t, next⟩ := by
  induction n generalizing w with
  | zero =>
    obtain rfl := Except.ok.inj turned
    exact .refl
  | succ n ih =>
    obtain ⟨between, first, rest⟩ := bind_ok turned
    exact .head (.turn first) (ih rest)

def negated : Keyed Int :=
  .not 0 (.var 1 7)

/-- The same negation elsewhere in memory, beside its operand, which is one node in two places. -/
def repeated : Keyed Int :=
  .binary 0 .and (.var 1 7) (.not 2 (.var 1 7))

def once : Keying Int :=
  ⟨negated, [], ⟨#[some (.not 1 (.var 0 7)), some (.var 0 7)]⟩, [.not 0, .var 7]⟩

def twice : Keying Int :=
  ⟨repeated, [], ⟨#[some (.binary 2 .and (.var 0 7) (.not 1 (.var 0 7))), some (.var 0 7), some (.not 1 (.var 0 7))]⟩,
    [.binary .and 0 1, .not 0, .var 7]⟩

theorem keys_decide_twice : once.Reached ∧ Relation.ReflTransGen Step once twice ∧ Exact twice.table ∧
    once.key? negated = some 1 ∧ twice.key? (.not 2 (.var 1 7)) = some 1 ∧
    negated.formula = (Keyed.not 2 (.var 1 7) : Keyed Int).formula := by
  have first : once.Reached := by
    refine ⟨negated, by unfold Keyed.Coherent; decide, steps_of_turns (?_ : Pass.key.turns 3 _ = _)⟩
    rfl
  have second : Relation.ReflTransGen Step once twice := by
    refine .head (.again repeated rfl (by unfold Keyed.Coherent; decide)) ?_
    refine steps_of_turns (?_ : Pass.key.turns 6 _ = _)
    rfl
  have both : twice.Reached := by
    obtain ⟨t, coherent, steps⟩ := first
    exact ⟨t, coherent, steps.trans second⟩
  obtain ⟨_, _, _, later⟩ := keys_decide first
  have same := (later twice second).2 negated (by decide) (.not 2 (.var 1 7)) (by decide) 1 1 rfl rfl
  exact ⟨first, second, (keys_decide both).1, rfl, rfl, same.mp rfl⟩

end Keying

end Propositional.Formula
