import IFreeChat.Basis.Machine
import Mathlib.Logic.Function.Basic

/-!
# Bounded first-in first-out queues

`fifo capacity` is the machine whose state is the list of the items held, oldest first.
`ringItems entry size head tail` is the list held by a circular array of `size` slots, read
from `head` up to `tail`; with one slot kept empty it holds at most `size - 1` items.
Writing at `tail` and advancing it appends an item, advancing `head` removes the oldest
one.
-/

namespace Basis

/-! ### The abstract queue -/

/-- A request to a queue: to append an item, or to take the oldest one into a variable
that now holds `old`. -/
inductive QueueOp (α : Type*) where
  | push (item : α)
  | pop (old : α)

/-- The answer to a request: its return code and, for `pop`, what the variable then
holds. -/
inductive QueueAnswer (α : Type*) where
  | pushed (code : Int)
  | popped (code : Int) (value : α)
  deriving DecidableEq

/-- The queue holding at most `capacity` items: the state is the items held, oldest first.
A refused request answers `-1` and changes nothing. -/
def fifo {α : Type*} (capacity : Nat) : Machine (List α) (QueueOp α) (QueueAnswer α) where
  step items
    | .push item =>
        if items.length = capacity then some (.pushed (-1), items)
        else some (.pushed 0, items ++ [item])
    | .pop old =>
        match items with
        | [] => some (.popped (-1) old, [])
        | item :: rest => some (.popped 0 item, rest)

/-- The queue answers every request. -/
theorem fifo_step_returns {α : Type*} (capacity : Nat) (items : List α) (op : QueueOp α) :
  ∃ answer items', (fifo capacity).step items op = some (answer, items')
  := by
  cases op with
  | push item =>
    by_cases h : items.length = capacity
    · use .pushed (-1), items
      simp [fifo, h]
    · use .pushed 0, items ++ [item]
      simp [fifo, h]
  | pop old =>
    cases items with
    | nil => exact ⟨.popped (-1) old, [], rfl⟩
    | cons item rest => exact ⟨.popped 0 item, rest, rfl⟩

theorem fifo_run_returns {α : Type*} (capacity : Nat) (items : List α) (ops : List (QueueOp α)) :
  ∃ answers items', (fifo capacity).run items ops = some (answers, items')
  := by
  induction ops generalizing items with
  | nil => exact ⟨[], items, rfl⟩
  | cons op ops ih =>
    obtain ⟨answer, items₁, hstep⟩ := fifo_step_returns capacity items op
    obtain ⟨answers, items', hrun⟩ := ih items₁
    use answer :: answers, items',
      (fifo capacity).run_cons_of_step hstep hrun

/-! ### Circular arrays -/

variable {α : Type*}

/-- The items of the circular array `entry` of `size` slots from `head` up to `tail`. -/
def ringItems (entry : Nat → α) (size head tail : Nat) : List α :=
  (List.range ((tail + size - head) % size)).map fun i => entry ((head + i) % size)

@[simp]
theorem ringItems_length (entry : Nat → α) (size head tail : Nat) :
  (ringItems entry size head tail).length = (tail + size - head) % size
  := by
  simp [ringItems]

theorem ringItems_self (entry : Nat → α) (size head : Nat) :
  ringItems entry size head head = []
  := by
  simp [ringItems]

/-- The distance from `head` to `tail`, as long as they differ. -/
theorem ring_distance {size head tail : Nat} (hhead : head < size) (htail : tail < size) :
  (tail + size - head) % size = if head ≤ tail then tail - head else tail + size - head
  := by
  split
  · rename_i h
    rw [show tail + size - head = tail - head + size by omega, Nat.add_mod_right]
    apply Nat.mod_eq_of_lt
    omega
  · apply Nat.mod_eq_of_lt
    omega

/-- The next slot. -/
theorem ring_next {size i : Nat} (hi : i < size) :
  (i + 1) % size = if i + 1 = size then 0 else i + 1
  := by
  split
  · rename_i h
    rw [h, Nat.mod_self]
  · apply Nat.mod_eq_of_lt
    omega

/-- The slot `i` places after `head`. -/
theorem ring_index {size head i : Nat} (hhead : head < size) (hi : i < size) :
  (head + i) % size = if head + i < size then head + i else head + i - size
  := by
  split
  · rename_i h
    apply Nat.mod_eq_of_lt h
  · rw [Nat.mod_eq_sub_mod (by omega)]
    apply Nat.mod_eq_of_lt
    omega

/-- The array is empty exactly when `head` and `tail` agree. -/
theorem ringItems_eq_nil_iff {entry : Nat → α} {size head tail : Nat}
    (hhead : head < size) (htail : tail < size) :
  ringItems entry size head tail = [] ↔ head = tail
  := by
  rw [← List.length_eq_zero_iff, ringItems_length, ring_distance hhead htail]
  split <;> omega

/-- `tail` has caught up with `head` exactly when `size - 1` items are held. -/
theorem ring_full_iff {entry : Nat → α} {size head tail : Nat}
    (hhead : head < size) (htail : tail < size) :
  (tail + 1) % size = head ↔ (ringItems entry size head tail).length = size - 1
  := by
  rw [ringItems_length, ring_distance hhead htail, ring_next htail]
  split <;> split <;> omega

/-- Writing at `tail` and advancing it appends the item. -/
theorem ringItems_push {entry : Nat → α} {size head tail : Nat} {item : α}
    (hhead : head < size) (htail : tail < size) (hroom : (tail + 1) % size ≠ head) :
  ringItems (Function.update entry tail item) size head ((tail + 1) % size)
    = ringItems entry size head tail ++ [item]
  := by
  have hnext : (tail + 1) % size < size := Nat.mod_lt _ (by omega)
  have hdistance : ((tail + 1) % size + size - head) % size
      = (tail + size - head) % size + 1 := by
    have htail' := ring_next htail
    rw [ring_distance hhead hnext, ring_distance hhead htail]
    split at htail' <;> split <;> split <;> omega
  have hbound : (tail + size - head) % size < size := Nat.mod_lt _ (by omega)
  rw [ringItems, hdistance, List.range_succ, List.map_append, List.map_singleton]
  congr 1
  · apply List.map_congr_left
    intro i hi
    rw [List.mem_range] at hi
    apply Function.update_of_ne
    rw [ring_index hhead (by omega)]
    rw [ring_distance hhead htail] at hi
    split at hi <;> split <;> omega
  · have hlast : (head + (tail + size - head) % size) % size = tail := by
      rw [ring_index hhead hbound, ring_distance hhead htail]
      split <;> split <;> omega
    rw [hlast, Function.update_self]

/-- A nonempty array starts with the item at `head`; advancing `head` removes it. -/
theorem ringItems_pop {entry : Nat → α} {size head tail : Nat}
    (hhead : head < size) (htail : tail < size) (hne : head ≠ tail) :
  ringItems entry size head tail
    = entry head :: ringItems entry size ((head + 1) % size) tail
  := by
  have hnext : (head + 1) % size < size := Nat.mod_lt _ (by omega)
  have hdistance : (tail + size - head) % size
      = (tail + size - (head + 1) % size) % size + 1 := by
    have hhead' := ring_next hhead
    rw [ring_distance hhead htail, ring_distance hnext htail]
    split at hhead' <;> split <;> split <;> omega
  rw [ringItems, hdistance, List.range_succ_eq_map, List.map_cons, List.map_map, ringItems]
  congr 1
  · rw [Nat.add_zero, Nat.mod_eq_of_lt hhead]
  · apply List.map_congr_left
    intro i _
    rw [Function.comp_apply, Nat.mod_add_mod]
    congr 2
    omega

end Basis
