import IFreeChat.Queue.Ring

/-!
# The message queue between the threads

`put` and `poll` are `msg_queue_put` and one turn of the loop of `msg_queue_get` on the
ring queue inside a `msg_queue_t`.  The machine `threads` takes them in any order, from
any number of producers and one consumer, and keeps the values passed to `msg_queue_put`
and the values the consumer has obtained.

`msg_queue_put` ignores the answer of `queue_push`.  The values obtained followed by the
values still held are the values passed exactly when every put found room
(`run_lossless_iff`).
-/

open Basis

namespace IFreeChat

namespace MsgQueue

open Queue

variable {α : Type*}

/-- `msg_queue_put`. -/
def put (que : Queue α) (data : α) : Option (Queue α) :=
  (que.push data).map fun r => r.2

/-- One turn of the loop of `msg_queue_get` on a variable that holds `data`: what the call
returns with, if `queue_pop` succeeds, and the queue. -/
def poll (que : Queue α) (data : α) : Option (Option α × Queue α) :=
  (que.pop data).map fun r => (if r.1 < 0 then none else some r.2.1, r.2.2)

/-- What the threads do to the queue: a producer puts a value, the consumer polls with a
variable that holds `old`. -/
inductive Event (α : Type*) where
  | put (producer : Nat) (data : α)
  | poll (old : α)

/-- The queue between the threads, with the values passed to `msg_queue_put` and those
obtained from `msg_queue_get` so far. -/
structure State (α : Type*) where
  que : Queue α
  passed : List α
  obtained : List α

/-- The threads using the queue, each push and each pop one step. -/
def threads (α : Type*) : Machine (State α) (Event α) Unit where
  step s
    | .put _ data =>
        (put s.que data).map fun que =>
          ((), { s with que := que, passed := s.passed ++ [data] })
    | .poll old =>
        (poll s.que old).map fun r =>
          ((), { s with que := r.2, obtained := s.obtained ++ r.1.toList })

/-- The queue before any thread has used it. -/
def start (que : Queue α) : State α where
  que := que
  passed := []
  obtained := []

/-- The values obtained are an initial part of the values passed, and the queue holds the
rest. -/
def Lossless (s : State α) : Prop := s.passed = s.obtained ++ s.que.items

/-- A put finds fewer than `size - 1` items held and a slot of the block at `tail`. -/
def FindsRoom (s : State α) : Event α → Prop
  | .put _ _ => s.que.items.length + 1 < s.que.size ∧ s.que.tail < s.que.room
  | .poll _ => True

instance (s : State α) : ∀ e, Decidable (FindsRoom s e)
  | .put _ _ => inferInstanceAs (Decidable (_ ∧ _))
  | .poll _ => .isTrue trivial

/-- The indices of the queue lie below its size, and the slots between them in its block.
A queue of size `0` is never written. -/
structure Inv (s : State α) : Prop where
  indices : s.que.size = 0 ∧ s.que.head = s.que.tail ∨ s.que.WellFormed s.que.size
  slots : s.que.size ≤ s.que.room ∨ s.que.head ≤ s.que.tail ∧ s.que.tail ≤ s.que.room

/-- How many of the values passed are neither obtained nor held. -/
def lost (s : State α) : Int :=
  s.passed.length - s.obtained.length - s.que.items.length

theorem Lossless.lost_eq {s : State α} (h : Lossless s) :
  lost s = 0
  := by
  have hlength := congrArg List.length h
  rw [List.length_append] at hlength
  rw [lost, hlength]
  omega

/-! ### One step -/

/-- A put that finds room appends the value to what is passed and to what is held. -/
theorem put_room {s : State α} (producer : Nat) {data : α}
    (hinv : Inv s) (hroom : FindsRoom s (.put producer data)) :
  ∃ s', (threads α).step s (.put producer data) = some ((), s') ∧ Inv s'
    ∧ s'.passed = s.passed ++ [data] ∧ s'.obtained = s.obtained
    ∧ s'.que.items = s.que.items ++ [data]
  := by
  obtain ⟨hlength, hslot⟩ := hroom
  have hwf : s.que.WellFormed s.que.size := by
    rcases hinv.indices with ⟨hzero, -⟩ | h
    · omega
    · exact h
  obtain ⟨q', hpush, hwf', hitems, hroom', hhead', htail'⟩ :=
    push_room hwf data (by omega) hslot
  use { s with que := q', passed := s.passed ++ [data] }
  refine ⟨by simp [threads, put, hpush], ⟨Or.inr ?_, ?_⟩, rfl, rfl, hitems⟩
  · rw [hwf'.size_eq]
    exact hwf'
  · have hsize := hwf'.size_eq
    have hnext := ring_next hwf.tail_lt
    change q'.size ≤ q'.room ∨ q'.head ≤ q'.tail ∧ q'.tail ≤ q'.room
    rcases hinv.slots with h | h
    · left
      omega
    · split at hnext <;> omega

/-- A put that finds no room is lost. -/
theorem put_lost {s s' : State α} {producer : Nat} {data : α} {o : Unit}
    (hinv : Inv s) (hroom : ¬ FindsRoom s (.put producer data))
    (hstep : (threads α).step s (.put producer data) = some (o, s')) :
  Inv s' ∧ lost s' = lost s + 1
  := by
  rcases hinv.indices with ⟨hzero, -⟩ | hwf
  · simp [threads, put, push, hzero] at hstep
  · by_cases hfull : s.que.items.length = s.que.size - 1
    · simp only [threads, put, push_full hwf data hfull, Option.map_some, Option.some.injEq,
        Prod.mk.injEq, true_and] at hstep
      subst hstep
      refine ⟨⟨hinv.indices, hinv.slots⟩, ?_⟩
      simp only [lost, List.length_append, List.length_singleton]
      omega
    · have hbound : s.que.items.length ≤ s.que.size - 1 := by
        rw [items, ringItems_length]
        have h := Nat.mod_lt (s.que.tail + s.que.size - s.que.head)
          (Nat.lt_of_le_of_lt (Nat.zero_le _) hwf.head_lt)
        omega
      have hslot : s.que.room ≤ s.que.tail := by
        by_contra h
        exact hroom ⟨by omega, by omega⟩
      simp [threads, put, push_outside hwf data hfull hslot] at hstep

/-- A poll moves the oldest item held, if there is one, to what is obtained. -/
theorem poll_moves {s : State α} (old : α) (hinv : Inv s) :
  ∃ s', (threads α).step s (.poll old) = some ((), s') ∧ Inv s' ∧ s'.passed = s.passed
    ∧ s'.obtained ++ s'.que.items = s.obtained ++ s.que.items
  := by
  rcases hinv.indices with ⟨hzero, heq⟩ | hwf
  · use { s with obtained := s.obtained ++ [] }
    refine ⟨?_, ⟨hinv.indices, hinv.slots⟩, rfl, by simp⟩
    simp [threads, poll, pop, heq]
  · cases hitems : s.que.items with
    | nil =>
      use { s with obtained := s.obtained ++ [] }
      refine ⟨?_, ⟨hinv.indices, hinv.slots⟩, rfl, by simp [hitems]⟩
      simp [threads, poll, pop_empty hwf old hitems]
    | cons item rest =>
      have hhead := hwf.head_lt
      have hne : s.que.head ≠ s.que.tail := by
        intro heq
        rw [items, heq, ringItems_self] at hitems
        cases hitems
      have hslot : s.que.head < s.que.room := by
        rcases hinv.slots with h | h <;> omega
      obtain ⟨q', hpop, hwf', hrest, hroom', hhead', htail'⟩ :=
        pop_nonempty hwf old hitems hslot
      use { s with que := q', obtained := s.obtained ++ [item] }
      refine ⟨?_, ⟨Or.inr ?_, ?_⟩, rfl, by simp [hrest]⟩
      · simp [threads, poll, hpop]
      · rw [hwf'.size_eq]
        exact hwf'
      · have hsize := hwf'.size_eq
        have hnext := ring_next hhead
        have htail := hwf.tail_lt
        change q'.size ≤ q'.room ∨ q'.head ≤ q'.tail ∧ q'.tail ≤ q'.room
        rcases hinv.slots with h | h
        · left
          omega
        · split at hnext <;> omega

/-- A put into a queue with all its slots appends the value to the items or drops it. -/
theorem put_represents {size : Nat} {que : Queue α} {l : List α} (h : que.Represents size l)
    (data : α) :
  ∃ que' l', put que data = some que' ∧ que'.Represents size l'
    ∧ (l' = l ∨ l' = l ++ [data])
  := by
  obtain ⟨hwf, rfl, hroom⟩ := h
  by_cases hfull : que.items.length = size - 1
  · use que, que.items
    exact ⟨by simp [put, push_full hwf data hfull], ⟨hwf, rfl, hroom⟩, Or.inl rfl⟩
  · have htail := hwf.tail_lt
    obtain ⟨que', hpush, hwf', hitems, hroom', -⟩ := push_room hwf data hfull (by omega)
    use que', que.items ++ [data]
    exact ⟨by simp [put, hpush], ⟨hwf', hitems, by omega⟩, Or.inr rfl⟩

/-- A poll of a queue with all its slots takes its oldest item, if there is one. -/
theorem poll_represents {size : Nat} {que : Queue α} {l : List α} (h : que.Represents size l)
    (old : α) :
  ∃ got que' l', poll que old = some (got, que') ∧ que'.Represents size l'
    ∧ got.toList ++ l' = l
  := by
  obtain ⟨hwf, rfl, hroom⟩ := h
  cases hitems : que.items with
  | nil =>
    use none, que, []
    exact ⟨by simp [poll, pop_empty hwf old hitems], ⟨hwf, hitems, hroom⟩, rfl⟩
  | cons item rest =>
    have hhead := hwf.head_lt
    obtain ⟨que', hpop, hwf', hrest, hroom', -⟩ := pop_nonempty hwf old hitems (by omega)
    use some item, que', rest
    exact ⟨by simp [poll, hpop], ⟨hwf', hrest, by omega⟩, rfl⟩

/-! ### Runs -/

/-- A run that has lost nothing in the end lost nothing in the beginning, and each of its
puts found room. -/
theorem meets_of_lost_eq {s t : State α} {es : List (Event α)} {os : List Unit}
    (hinv : Inv s) (hlost : 0 ≤ lost s) (hrun : (threads α).run s es = some (os, t))
    (ht : lost t = 0) :
  lost s = 0 ∧ (threads α).Meets FindsRoom s es
  := by
  induction es generalizing s os with
  | nil =>
    cases hrun
    exact ⟨ht, trivial⟩
  | cons e es ih =>
    obtain ⟨o, s', os', hstep, hrun', rfl⟩ := (threads α).run_cons_iff.mp hrun
    have hrest : Inv s' → 0 ≤ lost s' → lost s' = lost s → FindsRoom s e →
        lost s = 0 ∧ (threads α).Meets FindsRoom s (e :: es) := by
      intro hinv' hlost' heq hroom
      obtain ⟨hzero, hmeets⟩ := ih hinv' hlost' hrun'
      refine ⟨by omega, hroom, ?_⟩
      intro o' s'' hstep'
      cases hstep.symm.trans hstep'
      exact hmeets
    cases e with
    | put producer data =>
      by_cases hroom : FindsRoom s (.put producer data)
      · obtain ⟨s'', hstep', hinv', hpassed, hobtained, hitems⟩ :=
          put_room producer hinv hroom
        cases hstep.symm.trans hstep'
        have heq : lost s' = lost s := by
          rw [lost, hpassed, hobtained, hitems, lost]
          simp only [List.length_append, List.length_singleton]
          omega
        exact hrest hinv' (by omega) heq hroom
      · obtain ⟨hinv', heq⟩ := put_lost hinv hroom hstep
        obtain ⟨hzero, -⟩ := ih hinv' (by omega) hrun'
        omega
    | poll old =>
      obtain ⟨s'', hstep', hinv', hpassed, hmoved⟩ := poll_moves old hinv
      cases hstep.symm.trans hstep'
      have heq : lost s' = lost s := by
        have hlength := congrArg List.length hmoved
        simp only [List.length_append] at hlength
        rw [lost, hpassed, lost]
        omega
      exact hrest hinv' (by omega) heq trivial

theorem start_inv
    {alloc : Nat → Option (Nat → α)} {size : Nat} {que : Queue α}
    (hlt : size < sizeModulus) (hque : create alloc size = some que) :
  Inv (start que) ∧ Lossless (start que)
  := by
  obtain ⟨hsize, hhead, htail⟩ := create_indices hque
  have hempty : que.items = [] := by
    rw [items, hhead, htail, ringItems_self]
  refine ⟨⟨?_, Or.inr ?_⟩, ?_⟩
  · change que.size = 0 ∧ que.head = que.tail ∨ que.WellFormed que.size
    by_cases hzero : que.size = 0
    · left
      omega
    · right
      exact ⟨rfl, by omega, by omega, by omega⟩
  · change que.head ≤ que.tail ∧ que.tail ≤ que.room
    omega
  · change [] = [] ++ que.items
    rw [hempty, List.append_nil]

end MsgQueue

end IFreeChat
