/-!
# Memos

Values kept under numbers. `find?_insert` says that a value is found under its own number, and that
nothing else changes when it is put there.
-/

namespace Propositional

structure Memo (β : Type) where
  slots : Array (Option β) := #[]

namespace Memo

variable {β : Type}

def find? (m : Memo β) (key : Nat) : Option β :=
  m.slots[key]?.join

def insert (m : Memo β) (key : Nat) (b : β) : Memo β :=
  ⟨(m.slots.rightpad (key + 1) none).setIfInBounds key (some b)⟩

theorem find?_empty (key : Nat) : ({} : Memo β).find? key = none := rfl

theorem find?_insert (m : Memo β) (key : Nat) (b : β) (place : Nat) :
    (m.insert key b).find? place = if place = key then some b else m.find? place := by
  have inside : key < (m.slots.rightpad (key + 1) none).size := by
    simp only [Array.rightpad, Array.size_append, Array.size_replicate]
    omega
  unfold find? insert
  split
  · rename_i same
    rw [same, Array.getElem?_setIfInBounds_self_of_lt inside]
    rfl
  · rename_i other
    rw [Array.getElem?_setIfInBounds_ne (Ne.symm other), Array.rightpad, Array.getElem?_append]
    split
    · rfl
    · rename_i beyond
      -- what was padded is as empty as what lies beyond the slots
      rw [Array.getElem?_eq_none (Nat.le_of_not_lt beyond), Array.getElem?_replicate]
      split <;> rfl

end Memo

end Propositional
