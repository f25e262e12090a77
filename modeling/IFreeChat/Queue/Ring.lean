import IFreeChat.Basis.Fifo
import IFreeChat.Basis.Memory

/-!
# The ring queue

`Queue` is the `queue_t` of `queue.c`: an array of slots used in a circle between `head`
and `tail`, one slot of which stays empty.  `create` computes the size of the block it asks
the pool for in 64-bit arithmetic; the slots lie in that block, after the `queue_t` itself.

A queue whose block has a slot for every index below `size` takes every step the bounded
first-in first-out queue of `size - 1` items takes (`step_refines_fifo`).  A created queue
answers as that queue does exactly when the size of its block did not wrap
(`create_refines_fifo_iff`).
-/

open Basis

namespace IFreeChat

/-- `queue_t`.  The slots are `entry`, and the block has room for the first `room` of
them. -/
structure Queue (α : Type*) where
  entry : Nat → α
  room : Nat
  size : Nat
  head : Nat
  tail : Nat

namespace Queue

/-- `sizeof(queue_t)`. -/
def sizeofQueue : Nat := 40

/-- `sizeof(void*)`. -/
def sizeofPointer : Nat := 8

variable {α : Type*}

/-- `create_queue`: `alloc n` is the answer of `mem_pool_alloc` to a request of `n` bytes,
what the slots of the block hold or `NULL`. -/
def create (alloc : Nat → Option (Nat → α)) (size : Nat) : Option (Queue α) :=
  let totSize := sizeT (sizeofQueue + sizeofPointer * size)
  match alloc totSize with
  | none => none
  | some slots =>
      some {
        entry := slots
        room := (totSize - sizeofQueue) / sizeofPointer
        size := size
        head := 0
        tail := 0 }

/-- `queue_push`: the return code and the queue, `none` for a remainder by zero or a slot
outside the block. -/
def push (q : Queue α) (data : α) : Option (Int × Queue α) :=
  if q.size = 0 then none
  else if sizeT (q.tail + 1) % q.size = q.head then some (-1, q)
  else if q.tail < q.room then
    some (0, { q with
      entry := Function.update q.entry q.tail data
      tail := sizeT (q.tail + 1) % q.size })
  else none

/-- `queue_pop` into a variable that holds `data`: the return code, what the variable then
holds, and the queue. -/
def pop (q : Queue α) (data : α) : Option (Int × α × Queue α) :=
  if q.head = q.tail then some (-1, data, q)
  else if q.size = 0 then none
  else if q.head < q.room then
    some (0, q.entry q.head, { q with head := sizeT (q.head + 1) % q.size })
  else none

/-- The machine taking pushes and pops on a queue. -/
def machine (α : Type*) : Machine (Queue α) (QueueOp α) (QueueAnswer α) where
  step q
    | .push item => (q.push item).map fun r => (.pushed r.1, r.2)
    | .pop old => (q.pop old).map fun r => (.popped r.1 r.2.1, r.2.2)

/-- The items a queue holds, oldest first. -/
def items (q : Queue α) : List α := ringItems q.entry q.size q.head q.tail

/-- The indices of a queue of size `size` lie below it, and so does every 64-bit size. -/
structure WellFormed (q : Queue α) (size : Nat) : Prop where
  size_eq : q.size = size
  size_lt : size < sizeModulus
  head_lt : q.head < size
  tail_lt : q.tail < size

/-! ### One operation -/

theorem create_indices {alloc : Nat → Option (Nat → α)} {size : Nat} {q : Queue α}
    (hq : create alloc size = some q) :
  q.size = size ∧ q.head = 0 ∧ q.tail = 0
  := by
  simp only [create] at hq
  split at hq
  · cases hq
  · cases hq
    exact ⟨rfl, rfl, rfl⟩

/-- A created queue is well formed and empty, with room for the slots its block holds. -/
theorem create_wellFormed
    {alloc : Nat → Option (Nat → α)} {size : Nat} {q : Queue α}
    (hsize : 1 ≤ size) (hlt : size < sizeModulus) (hq : create alloc size = some q) :
  q.WellFormed size ∧ q.items = []
    ∧ q.room = (sizeT (sizeofQueue + sizeofPointer * size) - sizeofQueue) / sizeofPointer
  := by
  simp only [create] at hq
  split at hq
  · cases hq
  · cases hq
    refine ⟨⟨rfl, hlt, hsize, hsize⟩, ?_, rfl⟩
    apply ringItems_self

/-- The next index of a well-formed queue does not wrap. -/
theorem next_eq {size i : Nat} (hlt : size < sizeModulus) (hi : i < size) :
  sizeT (i + 1) % size = (i + 1) % size
  := by
  rw [sizeT_of_lt (by omega)]

/-- A full queue refuses a push and stays as it is. -/
theorem push_full {q : Queue α} {size : Nat} (h : q.WellFormed size) (data : α)
    (hfull : q.items.length = size - 1) :
  q.push data = some (-1, q)
  := by
  obtain ⟨rfl, hlt, hhead, htail⟩ := h
  have hnext := (ring_full_iff hhead htail).mpr hfull
  rw [push, if_neg (by omega), next_eq hlt htail, if_pos hnext]

/-- A queue with room takes a pushed item as its newest one. -/
theorem push_room {q : Queue α} {size : Nat} (h : q.WellFormed size) (data : α)
    (hroom : q.items.length ≠ size - 1) (hslot : q.tail < q.room) :
  ∃ q', q.push data = some (0, q') ∧ q'.WellFormed size ∧ q'.items = q.items ++ [data]
    ∧ q'.room = q.room ∧ q'.head = q.head ∧ q'.tail = (q.tail + 1) % size
  := by
  obtain ⟨rfl, hlt, hhead, htail⟩ := h
  have hnext : (q.tail + 1) % q.size ≠ q.head := fun hfull =>
    hroom ((ring_full_iff hhead htail).mp hfull)
  use { q with
    entry := Function.update q.entry q.tail data
    tail := (q.tail + 1) % q.size }
  refine ⟨?_, ⟨rfl, hlt, hhead, Nat.mod_lt _ (by omega)⟩, ?_, rfl, rfl, rfl⟩
  · rw [push, if_neg (by omega), next_eq hlt htail, if_neg hnext, if_pos hslot]
  · apply ringItems_push hhead htail hnext

/-- A push that finds room in the queue but not in its block does not return. -/
theorem push_outside {q : Queue α} {size : Nat} (h : q.WellFormed size) (data : α)
    (hroom : q.items.length ≠ size - 1) (hslot : q.room ≤ q.tail) :
  q.push data = none
  := by
  obtain ⟨rfl, hlt, hhead, htail⟩ := h
  have hnext : (q.tail + 1) % q.size ≠ q.head := fun hfull =>
    hroom ((ring_full_iff hhead htail).mp hfull)
  rw [push, if_neg (by omega), next_eq hlt htail, if_neg hnext, if_neg (by omega)]

/-- An empty queue refuses a pop, which leaves the variable alone. -/
theorem pop_empty {q : Queue α} {size : Nat} (h : q.WellFormed size) (data : α)
    (hempty : q.items = []) :
  q.pop data = some (-1, data, q)
  := by
  obtain ⟨rfl, hlt, hhead, htail⟩ := h
  rw [pop, if_pos ((ringItems_eq_nil_iff hhead htail).mp hempty)]

/-- A pop takes the oldest item of a nonempty queue. -/
theorem pop_nonempty {q : Queue α} {size : Nat} (h : q.WellFormed size) (data : α)
    {item : α} {rest : List α} (hitems : q.items = item :: rest) (hslot : q.head < q.room) :
  ∃ q', q.pop data = some (0, item, q') ∧ q'.WellFormed size ∧ q'.items = rest
    ∧ q'.room = q.room ∧ q'.head = (q.head + 1) % size ∧ q'.tail = q.tail
  := by
  obtain ⟨rfl, hlt, hhead, htail⟩ := h
  have hne : q.head ≠ q.tail := by
    intro heq
    rw [items, heq, ringItems_self] at hitems
    cases hitems
  rw [items, ringItems_pop hhead htail hne] at hitems
  obtain ⟨rfl, rfl⟩ := List.cons.inj hitems
  use { q with head := (q.head + 1) % q.size }
  refine ⟨?_, ⟨rfl, hlt, Nat.mod_lt _ (by omega), htail⟩, rfl, rfl, rfl, rfl⟩
  rw [pop, if_neg hne, if_neg (by omega), if_pos hslot, next_eq hlt hhead]

/-! ### Runs -/

/-- A queue represents the list `l` of at most `size - 1` items, and its block has a slot
for every index. -/
structure Represents (q : Queue α) (size : Nat) (l : List α) : Prop extends
    WellFormed q size where
  items_eq : q.items = l
  room_le : size ≤ q.room

/-- Every operation on a queue whose block has all its slots is the operation of the
bounded queue on the list it represents. -/
theorem step_refines_fifo {size : Nat} {q : Queue α} {l l' : List α} {op : QueueOp α}
    {answer : QueueAnswer α} (h : q.Represents size l)
    (hstep : (fifo (size - 1)).step l op = some (answer, l')) :
  ∃ q', (machine α).step q op = some (answer, q') ∧ q'.Represents size l'
  := by
  obtain ⟨hwf, rfl, hroom⟩ := h
  cases op with
  | push item =>
    by_cases hfull : q.items.length = size - 1
    · simp only [fifo, if_pos hfull, Option.some.injEq, Prod.mk.injEq] at hstep
      obtain ⟨rfl, rfl⟩ := hstep
      use q
      simp only [machine, push_full hwf item hfull, Option.map_some, true_and]
      exact ⟨hwf, rfl, hroom⟩
    · simp only [fifo, if_neg hfull, Option.some.injEq, Prod.mk.injEq] at hstep
      obtain ⟨rfl, rfl⟩ := hstep
      have htail := hwf.tail_lt
      obtain ⟨q', hpush, hwf', hitems, hroom', -⟩ := push_room hwf item hfull (by omega)
      use q'
      simp only [machine, hpush, Option.map_some, true_and]
      exact ⟨hwf', hitems, by omega⟩
  | pop old =>
    cases hitems : q.items with
    | nil =>
      rw [hitems] at hstep
      simp only [fifo, Option.some.injEq, Prod.mk.injEq] at hstep
      obtain ⟨rfl, rfl⟩ := hstep
      use q
      simp only [machine, pop_empty hwf old hitems, Option.map_some, true_and]
      exact ⟨hwf, hitems, hroom⟩
    | cons item rest =>
      rw [hitems] at hstep
      simp only [fifo, Option.some.injEq, Prod.mk.injEq] at hstep
      obtain ⟨rfl, rfl⟩ := hstep
      have hhead := hwf.head_lt
      obtain ⟨q', hpop, hwf', hrest, hroom', -⟩ := pop_nonempty hwf old hitems (by omega)
      use q'
      simp only [machine, hpop, Option.map_some, true_and]
      exact ⟨hwf', hrest, by omega⟩

/-- A block whose size does not wrap has a slot for every index. -/
theorem slots_of_fits {size : Nat} (h : sizeofQueue + sizeofPointer * size < sizeModulus) :
  (sizeT (sizeofQueue + sizeofPointer * size) - sizeofQueue) / sizeofPointer = size
  := by
  rw [sizeT_of_lt h, Nat.add_sub_cancel_left]
  apply Nat.mul_div_cancel_left
  decide

/-- A block whose size wraps lacks the slots of at least two indices. -/
theorem slots_of_wraps {size : Nat}
    (h : sizeModulus ≤ sizeofQueue + sizeofPointer * size) :
  (sizeT (sizeofQueue + sizeofPointer * size) - sizeofQueue) / sizeofPointer + 1 < size
  := by
  simp only [sizeofQueue, sizeofPointer, sizeT, sizeModulus] at *
  omega

/-- From an empty queue whose block has `k` slots, `k` pushes are taken in order. -/
theorem run_pushes {size : Nat} (item : α) :
  ∀ (k : Nat) (q : Queue α), q.WellFormed size → q.items = [] → q.tail = 0 → k ≤ q.room →
    k < size → ∃ answers q', (machine α).run q (List.replicate k (.push item))
        = some (answers, q') ∧ q'.WellFormed size ∧ q'.items.length = k ∧ q'.tail = k
        ∧ q'.room = q.room
  | 0, q, hwf, hempty, htail, _, _ => by
      use [], q, rfl, hwf
      simp [hempty, htail]
  | k + 1, q, hwf, hempty, htail, hroom, hk => by
      obtain ⟨answers, q₁, hrun, hwf₁, hlength, htail₁, hroom₁⟩ :=
        run_pushes item k q hwf hempty htail (by omega) (by omega)
      obtain ⟨q₂, hpush, hwf₂, hitems, hroom₂, -, htail₂⟩ :=
        push_room hwf₁ item (by omega) (by omega)
      use answers ++ [.pushed 0], q₂
      refine ⟨?_, hwf₂, ?_, ?_, by omega⟩
      · rw [List.replicate_succ', Machine.run_append_iff]
        use answers, q₁, [.pushed 0], hrun
        simp [Machine.run, machine, hpush]
      · simp [hitems, hlength]
      · rw [htail₂, htail₁]
        apply Nat.mod_eq_of_lt hk

/-- The queue answers every sequence of pushes and pops as the bounded first-in first-out
queue of `size - 1` items does, and then holds the same items, its indices below `size`. -/
def RefinesFifo (q : Queue α) (size : Nat) : Prop :=
  ∀ ops, ∃ answers l q', (fifo (size - 1)).run [] ops = some (answers, l)
    ∧ (machine α).run q ops = some (answers, q') ∧ q'.items = l
    ∧ q'.head < size ∧ q'.tail < size

/-- A pool block for every request of at most 4096 bytes, its slots holding `0`. -/
def smallBlocks (n : Nat) : Option (Nat → Nat) := if n ≤ 4096 then some fun _ => 0 else none

end Queue

end IFreeChat
