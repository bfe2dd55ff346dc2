import Propositional.Formula.Keyed
import Propositional.Formula.Pass
import Propositional.Memo

/-!
# Stack-driven walks

Formulas may be arbitrarily deep, so walks over them keep their own stack in place of the call stack.
A node is taken from the stack twice: first the nodes below it are put above it, and when it comes up
again its value is computed from theirs. Values are kept by key, so a node that stands in several
places is visited once. `Pass.turn_work` says why a walk ends.
-/

namespace Propositional.Formula

variable {σ ε ν β : Type}

/-! ### Walks -/

/-- What ends a walk early: a value that is asked for before it is there, or a failure of the pass. -/
inductive Halt (ε : Type) where
  | unread
  | failed (e : ε)
  deriving DecidableEq

/-- A node on the stack, and whether the nodes below it were put above it already. -/
structure Entry (ν : Type) where
  node : Keyed ν
  expanded : Bool

/-- A walk under way: what is left to do, the values computed so far and the state. -/
structure Walk (σ ν β : Type) where
  stack : List (Entry ν)
  values : Memo β
  state : σ

def Walk.start (t : Keyed ν) (s : σ) : Walk σ ν β :=
  ⟨[⟨t, false⟩], {}, s⟩

def valueOf (values : Memo β) (node : Keyed ν) : Except (Halt ε) β :=
  match values.find? node.key with
  | some b => .ok b
  | none => .error .unread

namespace Pass

variable (p : Pass σ ε ν β)

def visit (values : Memo β) : Keyed ν → σ → Except (Halt ε) (β × σ)
  | .truth _ v, s => (p.truth v s).mapError .failed
  | .var _ i, s => (p.var i s).mapError .failed
  | .not _ f, s => (valueOf values f).bind fun b => (p.not b s).mapError .failed
  | .binary _ c l r, s =>
    (valueOf values l).bind fun a => (valueOf values r).bind fun b => (p.binary c a b s).mapError .failed

/-- One turn of a walk: takes the topmost node from the stack. -/
def turn : Walk σ ν β → Except (Halt ε) (Walk σ ν β)
  | ⟨[], values, s⟩ => .ok ⟨[], values, s⟩
  | ⟨entry :: stack, values, s⟩ =>
    let node := entry.node
    if (values.find? node.key).isSome then .ok ⟨stack, values, s⟩
    else if entry.expanded || node.children.isEmpty then
      (p.visit values node s).map fun (b, s) => ⟨stack, values.insert node.key b, s⟩
    else .ok ⟨node.children.map (⟨·, false⟩) ++ ⟨node, true⟩ :: stack, values, s⟩

end Pass

/-- An upper bound for the turns that an entry takes. -/
def Entry.work (entry : Entry ν) : Nat :=
  if entry.expanded then 1 else 2 * entry.node.size

def Entry.total : List (Entry ν) → Nat
  | [] => 0
  | entry :: stack => entry.work + total stack

def Walk.work (w : Walk σ ν β) : Nat :=
  Entry.total w.stack

theorem Entry.work_pos (entry : Entry ν) : 0 < entry.work := by
  have := entry.node.size_pos
  unfold work
  split <;> omega

theorem Entry.total_append (front back : List (Entry ν)) : total (front ++ back) = total front + total back := by
  induction front with
  | nil => simp [total]
  | cons entry front ih =>
    simp only [List.cons_append, total, ih]
    omega

theorem Entry.total_children (t : Keyed ν) : total (t.children.map (⟨·, false⟩)) + 2 = 2 * t.size := by
  cases t <;> simp [Keyed.children, Keyed.size, total, work] <;> omega

namespace Pass

variable (p : Pass σ ε ν β) {values : Memo β} {s : σ} {stack : List (Entry ν)} {node : Keyed ν}

theorem turn_work {entry : Entry ν} {next : Walk σ ν β} (turned : p.turn ⟨entry :: stack, values, s⟩ = .ok next) :
    next.work < Walk.work (β := β) ⟨entry :: stack, values, s⟩ := by
  have positive := entry.work_pos
  simp only [turn] at turned
  split at turned
  · obtain rfl := Except.ok.inj turned
    simp only [Walk.work, Entry.total]
    omega
  · split at turned
    · cases visited : p.visit values entry.node s with
      | error h => rw [visited] at turned; cases turned
      | ok result =>
        rw [visited] at turned
        obtain rfl := Except.ok.inj turned
        simp only [Walk.work, Entry.total]
        omega
    · rename_i first
      obtain rfl := Except.ok.inj turned
      have fresh : entry.expanded = false := by
        cases expanded : entry.expanded
        · rfl
        · rw [expanded] at first; exact absurd rfl first
      have below := Entry.total_children entry.node
      simp only [Walk.work, Entry.total_append, Entry.total, Entry.work, fresh, if_true, Bool.false_eq_true,
        if_false]
      omega

/-- Turns until nothing is left on the stack. -/
def run (p : Pass σ ε ν β) : Walk σ ν β → Except (Halt ε) (Walk σ ν β)
  | ⟨[], values, s⟩ => .ok ⟨[], values, s⟩
  | ⟨entry :: stack, values, s⟩ =>
    match _turned : p.turn ⟨entry :: stack, values, s⟩ with
    | .error h => .error h
    | .ok next => p.run next
termination_by w => w.work
decreasing_by exact p.turn_work _turned

theorem run_nil : p.run ⟨[], values, s⟩ = .ok ⟨[], values, s⟩ := by
  rw [run]

theorem run_cons (entry : Entry ν) :
    p.run ⟨entry :: stack, values, s⟩ = (p.turn ⟨entry :: stack, values, s⟩).bind p.run := by
  rw [run]
  split <;> rename_i turned <;> rw [turned] <;> rfl

theorem run_known {b : β} (known : values.find? node.key = some b) (expanded : Bool) :
    p.run ⟨⟨node, expanded⟩ :: stack, values, s⟩ = p.run ⟨stack, values, s⟩ := by
  simp only [run_cons, turn, known, Option.isSome_some, if_true]
  rfl

theorem run_visit {expanded : Bool} (unknown : values.find? node.key = none)
    (ready : (expanded || node.children.isEmpty) = true) : p.run ⟨⟨node, expanded⟩ :: stack, values, s⟩ =
      (p.visit values node s).bind fun (b, s) => p.run ⟨stack, values.insert node.key b, s⟩ := by
  simp only [run_cons, turn, unknown, Option.isSome_none, Bool.false_eq_true, if_false, ready, if_true]
  cases p.visit values node s <;> rfl

theorem run_expand (unknown : values.find? node.key = none) (compound : node.children.isEmpty = false) :
    p.run ⟨⟨node, false⟩ :: stack, values, s⟩ =
      p.run ⟨node.children.map (⟨·, false⟩) ++ ⟨node, true⟩ :: stack, values, s⟩ := by
  simp only [run_cons, turn, unknown, Option.isSome_none, Bool.false_eq_true, if_false, compound, Bool.or_false]
  rfl

end Pass

def Keyed.walk (p : Pass σ ε ν β) (t : Keyed ν) (s : σ) : Except (Halt ε) (β × σ) :=
  (p.run (.start t s)).bind fun w => (valueOf w.values t).map (·, w.state)

end Propositional.Formula
