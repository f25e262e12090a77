import Mathlib.Data.List.TakeWhile
import IFreeChat.MemPool.Safety

/-!
# Failure paths of the memory pool, and its chunks

Every way out of `mem_pool_alloc` without a block, and `mem_pool_free` of an address in no
chunk, leave the mutex locked, and a region that `malloc` refuses is used all the same.  A
call is handled as it should be exactly when it takes none of these ways
(`calls_handled_iff`).

A chunk that `mem_pool_alloc` adds takes the place of the chunk list.  The list reaches
every chunk obtained and not given back as long as no call takes a second chunk
(`run_complete_iff`).
-/

open Basis

namespace IFreeChat

namespace MemPool

theorem takenSize_lt (pool : MemPool) (size : Nat) :
  pool.takenSize size < sizeModulus
  := sizeT_lt _

/-- `addr` is a block with `size` bytes from the first chunk of the pool, and its region
was given by `malloc`. -/
def IsBlock (pool : MemPool) (heap : Heap) (size addr : Nat) : Prop :=
  ∃ cur ∈ pool.chunk.head?, cur.start ∈ heap.regions ∧ cur.start ≠ 0
    ∧ addr = cur.start + cur.free + sizeofSize
    ∧ size + sizeofSize ≤ heap.mem.loadSize (addr - sizeofSize)

theorem isBlock_iff {pool : MemPool} {heap : Heap} {start free bound size : Nat}
    {next : List Chunk} (hchunk : pool.chunk = ⟨start, free, bound⟩ :: next) :
  pool.IsBlock heap size (start + free + sizeofSize)
    ↔ start ∈ heap.regions ∧ start ≠ 0
        ∧ size + sizeofSize ≤ heap.mem.loadSize (start + free)
  := by
  rw [IsBlock, hchunk, Nat.add_sub_cancel]
  constructor
  · rintro ⟨cur', hcur', hregion, hne, -, hle⟩
    cases hcur'
    use hregion, hne
  · rintro ⟨hregion, hne, hle⟩
    use ⟨start, free, bound⟩, rfl, hregion, hne

/-- `mem_pool_free` returns with the mutex free exactly when it finds it free, and the
address in a chunk. -/
theorem free_unlocks_iff {pool : MemPool} {heap : Heap} {start : Nat} :
  (∃ heap' pool', pool.free heap start = some (heap', pool') ∧ pool'.locked = false)
    ↔ pool.locked = false
        ∧ ∃ cur ∈ pool.chunk, pool.holds cur (start - sizeofSize) = true
  := by
  obtain ⟨size, quantum, chunk, locked⟩ := pool
  cases locked with
  | true => simp [free]
  | false =>
    simp only [free, List.span_eq_takeWhile_dropWhile, Bool.false_eq_true, if_false, true_and]
    cases hdrop : chunk.dropWhile fun cur =>
        !holds ⟨size, quantum, chunk, false⟩ cur (start - sizeofSize) with
    | nil =>
      rw [List.dropWhile_eq_nil_iff] at hdrop
      constructor
      · rintro ⟨heap', pool', h, hfree⟩
        cases h
        cases hfree
      · rintro ⟨cur, hcur, hholds⟩
        have := hdrop cur hcur
        simp [hholds] at this
    | cons cur next =>
      have hmem : cur ∈ chunk := by
        apply (List.dropWhile_sublist _).subset
        rw [hdrop]
        apply List.mem_cons_self
      have hhead := List.head?_dropWhile_not
        (fun cur => !holds ⟨size, quantum, chunk, false⟩ cur (start - sizeofSize)) chunk
      simp only [hdrop, List.head?_cons] at hhead
      constructor
      · intro _
        use cur, hmem
        simpa using hhead
      · intro _
        cases chunk.takeWhile fun cur =>
            !holds ⟨size, quantum, chunk, false⟩ cur (start - sizeofSize) with
        | nil => exact ⟨_, _, rfl, rfl⟩
        | cons first between =>
          simp only
          split
          · exact ⟨_, _, rfl, rfl⟩
          · exact ⟨_, _, rfl, rfl⟩

theorem destroyLoop_length (chunks : List Chunk) (regions : List Nat) :
  (destroyLoop chunks regions).1.length = chunks.length
  := by
  induction chunks generalizing regions with
  | nil => rfl
  | cons cur next ih => rw [destroyLoop, List.length_cons, List.length_cons, ih]

/-- `mem_pool_destroy` calls `free` once for each chunk of the list. -/
theorem destroy_length {pool : MemPool} {heap heap' : Heap} {freed : List Nat}
    (h : pool.destroy heap = some (freed, heap')) :
  freed.length = pool.chunk.length
  := by
  rw [destroy] at h
  split at h
  · cases h
  · cases h
    apply destroyLoop_length

end MemPool

namespace PoolState

open MemPool

/-! ### Failure paths -/

/-- A call returns with the mutex free; an allocation gives a block, or none and leaves the
chunks as they were. -/
def Handled (s : PoolState) : PoolEvent → Prop
  | .alloc size mallocs =>
      ∃ block heap pool, s.pool.alloc s.heap size mallocs = some (block, heap, pool)
        ∧ pool.locked = false
        ∧ match block with
          | none => pool.chunk = s.pool.chunk
          | some addr => pool.IsBlock heap size addr
  | .free addr =>
      ∃ heap pool, s.pool.free s.heap addr = some (heap, pool) ∧ pool.locked = false
  | .write _ _ => True

/-- The calls that find the mutex free and take no failure path.  The size of an allocation
does not wrap and is one the pool allows, and it is there in the first chunk, or both
answers of `malloc` are there.  An address given back lies in a chunk. -/
def Served (s : PoolState) : PoolEvent → Prop
  | .alloc size mallocs =>
      s.pool.locked = false ∧ s.pool.takenSize size ≤ s.pool.size
        ∧ size + sizeofSize ≤ s.pool.takenSize size
        ∧ ((∃ cur ∈ s.pool.chunk.head?, s.pool.takenSize size ≤ cur.free
              ∧ cur.start ∈ s.heap.regions ∧ cur.start ≠ 0)
          ∨ ((∀ cur ∈ s.pool.chunk.head?, cur.free < s.pool.takenSize size)
              ∧ mallocs.chunk = true ∧ ∃ r ∈ mallocs.start, r ≠ 0))
  | .free addr =>
      s.pool.locked = false
        ∧ ∃ cur ∈ s.pool.chunk, s.pool.holds cur (addr - sizeofSize) = true
  | .write _ _ => True

instance (s : PoolState) : ∀ e, Decidable (s.Served e)
  | .alloc _ _ => inferInstanceAs (Decidable (_ ∧ _ ∧ _ ∧ _))
  | .free _ => inferInstanceAs (Decidable (_ ∧ ∃ cur ∈ s.pool.chunk, _))
  | .write _ _ => .isTrue trivial

theorem alloc_handled_iff {s : PoolState} {size : Nat} {mallocs : Mallocs} :
  s.Handled (.alloc size mallocs) ↔ s.Served (.alloc size mallocs)
  := by
  constructor
  · rintro ⟨block, heap, pool, halloc, hfree, hblock⟩
    obtain ⟨-, -, rfl⟩ | ⟨cur, next, heap₁, hsize, htake, rfl, hregions, hmem, rfl⟩ :=
      alloc_cases halloc
    · cases hfree
    · change IsBlock _ _ _ _ at hblock
      rw [isBlock_iff rfl] at hblock
      obtain ⟨hregion, hne, hle⟩ := hblock
      rw [hmem, Memory.loadSize_storeSize (takenSize_lt _ _)] at hle
      refine ⟨hfree, hsize, hle, ?_⟩
      rw [hregions] at hregion
      obtain ⟨hchunk, hroom, rfl⟩ | ⟨hnew, hfirst, rfl, rfl, rfl⟩ := takeFrom_cases htake
      · left
        use cur, by simp [hchunk], hroom, hregion, hne
      · right
        use hfirst, hnew
        cases hstart : mallocs.start with
        | none => simp [hstart] at hne
        | some r =>
          use r, rfl
          simpa [hstart] using hne
  · rintro ⟨hlocked, hsize, hle, hroom⟩
    have hgrants : s.pool.Grants size mallocs := by
      use hlocked, hsize
      obtain ⟨cur, hcur, hfree, -⟩ | ⟨-, hnew, r, hr, -⟩ := hroom
      · left
        use cur, hcur, hfree
      · right
        use hnew, by simp [Option.mem_def.mp hr]
    obtain ⟨cur, next, heap, htake⟩ := hgrants.takeFrom s.heap
    refine ⟨_, _, _, alloc_of_takeFrom hlocked hsize htake, hlocked, ?_⟩
    change IsBlock _ _ _ _
    rw [isBlock_iff rfl]
    simp only [Memory.loadSize_storeSize (takenSize_lt _ _)]
    obtain ⟨hchunk, hfree, rfl⟩ | ⟨hnew, hfirst, rfl, rfl, rfl⟩ := takeFrom_cases htake
    · obtain ⟨cur', hcur', -, hregion, hne⟩ | ⟨hfirst, -⟩ := hroom
      · rw [hchunk] at hcur'
        cases hcur'
        exact ⟨hregion, hne, hle⟩
      · have := hfirst cur (by simp [hchunk])
        omega
    · obtain ⟨cur', hcur', hfree, -⟩ | ⟨-, -, r, hr, hne⟩ := hroom
      · have := hfirst cur' hcur'
        omega
      · rw [Option.mem_def.mp hr]
        exact ⟨by simp, hne, hle⟩

/-- A call is handled exactly when it takes no failure path. -/
theorem handled_iff (s : PoolState) (e : PoolEvent) :
  s.Handled e ↔ s.Served e
  := by
  cases e with
  | alloc size mallocs => apply alloc_handled_iff
  | free addr => apply free_unlocks_iff
  | write addr bytes => exact Iff.rfl

/-- A call that takes no failure path returns with the mutex free. -/
theorem step_served {s : PoolState} {e : PoolEvent} (h : s.pool.locked = false)
    (hserved : s.Served e) :
  ∃ answer s', machine.step s e = some (answer, s') ∧ s'.pool.locked = false
  := by
  rw [← handled_iff] at hserved
  cases e with
  | alloc size mallocs =>
    obtain ⟨block, heap, pool, halloc, hfree, -⟩ := hserved
    simp only [machine, halloc]
    cases block with
    | none => exact ⟨_, _, rfl, hfree⟩
    | some addr => exact ⟨_, _, rfl, hfree⟩
  | free addr =>
    obtain ⟨heap, pool, hcall, hfree⟩ := hserved
    simp only [machine, hcall]
    exact ⟨_, _, rfl, hfree⟩
  | write addr bytes => exact ⟨_, _, rfl, h⟩

/-- The calls of a sequence are all handled exactly when none takes a failure path; no call
of such a sequence finds the mutex locked. -/
theorem calls_handled_iff (s : PoolState) (es : List PoolEvent) :
  (machine.Meets Handled s es ↔ machine.Meets Served s es)
    ∧ (s.pool.locked = false → machine.Meets Served s es →
        ∃ answers t, machine.run s es = some (answers, t) ∧ t.pool.locked = false)
  := by
  constructor
  · have hall : machine.Meets (fun _ _ => True) s es :=
      machine.meets_of_forall (fun _ _ => trivial) s es
    have hiff : ∀ (s : PoolState) (e : PoolEvent), True → True → (Handled s e ↔ Served s e) :=
      fun s e _ _ => handled_iff s e
    apply machine.meets_iff hiff _ trivial hall
    intros
    trivial
  · intro h hserved
    apply machine.run_returns (fun _ _ h hserved => step_served h hserved) h hserved

theorem calls_handled_twoBlocks :
  machine.Meets Handled (start 64 8 fun _ => 0) (twoBlocks 16)
    ∧ ∃ answers t, machine.run (start 64 8 fun _ => 0) (twoBlocks 16) = some (answers, t)
        ∧ t.pool.locked = false
  := by
  have hserved : machine.Meets Served (start 64 8 fun _ => 0) (twoBlocks 16) := by decide
  obtain ⟨hiff, hrun⟩ := calls_handled_iff (start 64 8 fun _ => 0) (twoBlocks 16)
  use hiff.mpr hserved
  apply hrun rfl hserved

/-- None of the failure paths is handled, and after a request larger than the pool allows
the next call does not return. -/
theorem failures_not_handled :
  ¬ (start 64 8 fun _ => 0).Handled (.alloc 100 ⟨true, some 4096⟩)
    ∧ ¬ (start 64 8 fun _ => 0).Handled (.alloc 8 ⟨false, some 4096⟩)
    ∧ ¬ (start 64 8 fun _ => 0).Handled (.alloc 8 ⟨true, none⟩)
    ∧ ¬ (start 64 8 fun _ => 0).Handled (.free 4096)
    ∧ machine.run (start 64 8 fun _ => 0)
        [.alloc 100 ⟨true, some 4096⟩, .alloc 8 ⟨true, some 4096⟩] = none
  := by
  simp only [handled_iff]
  decide

/-! ### The chunk list -/

/-- The chunk list reaches every region given by `malloc` and not given back: every live
block can be freed, and `mem_pool_destroy` frees each of these regions once. -/
structure Complete (s : PoolState) : Prop where
  reachable : ∀ r ∈ s.heap.regions, ∃ cur ∈ s.pool.chunk, cur.start = r
  found : ∀ b ∈ s.live,
    ∃ heap pool, s.pool.free s.heap b.addr = some (heap, pool) ∧ pool.locked = false
  destroyed : ∃ freed heap, s.pool.destroy s.heap = some (freed, heap)
    ∧ freed.Perm s.heap.regions ∧ heap.regions = []

/-- The call returns, and the chunk list is complete after it. -/
def KeepsComplete (s : PoolState) (e : PoolEvent) : Prop :=
  ∃ answer s', machine.step s e = some (answer, s') ∧ s'.Complete

/-- What `malloc` promises: a region it gives is not `NULL`, and is given to no one else. -/
def FreshRegion (s : PoolState) : PoolEvent → Prop
  | .alloc _ mallocs => ∀ r ∈ mallocs.start, r ≠ 0 ∧ r ∉ s.heap.regions
  | .free _ => True
  | .write _ _ => True

instance (s : PoolState) : ∀ e, Decidable (s.FreshRegion e)
  | .alloc _ mallocs => inferInstanceAs (Decidable (∀ r ∈ mallocs.start, _))
  | .free _ => .isTrue trivial
  | .write _ _ => .isTrue trivial

/-- The calls that need no second chunk: an allocation takes its bytes from the first chunk,
with its header inside it, or it is the first one and both answers of `malloc` are there.
An address given back is that of a live block, or lies in a chunk. -/
def OneChunk (s : PoolState) : PoolEvent → Prop
  | .alloc size mallocs =>
      s.pool.takenSize size ≤ s.pool.size
        ∧ ((∃ cur ∈ s.pool.chunk.head?, s.pool.takenSize size ≤ cur.free
              ∧ cur.free < s.pool.size + s.pool.takenSize size)
          ∨ (s.pool.chunk = [] ∧ 0 < s.pool.takenSize size ∧ mallocs.chunk = true
              ∧ mallocs.start.isSome))
  | .free addr =>
      (∃ b ∈ s.live, b.addr = addr)
        ∨ ∃ cur ∈ s.pool.chunk, s.pool.holds cur (addr - sizeofSize) = true
  | .write _ _ => True

instance (s : PoolState) : ∀ e, Decidable (s.OneChunk e)
  | .alloc _ _ => inferInstanceAs (Decidable (_ ∧ _))
  | .free _ => inferInstanceAs (Decidable ((∃ b ∈ s.live, _) ∨ ∃ cur ∈ s.pool.chunk, _))
  | .write _ _ => .isTrue trivial

/-- A pool that has obtained one chunk at most, which holds all live blocks. -/
structure Single (s : PoolState) : Prop where
  unlocked : s.pool.locked = false
  chunk : (s.pool.chunk = [] ∧ s.heap.regions = [] ∧ s.live = [])
    ∨ ∃ cur, s.pool.chunk = [cur] ∧ s.heap.regions = [cur.start] ∧ cur.start ≠ 0
        ∧ ∀ b ∈ s.live, s.pool.holds cur b.base = true

theorem addr_sub (b : Block) :
  b.addr - sizeofSize = b.base
  := Nat.add_sub_cancel b.base sizeofSize

theorem Complete.unlocked {s : PoolState} (h : s.Complete) :
  s.pool.locked = false
  := by
  obtain ⟨freed, heap, hdestroy, -⟩ := h.destroyed
  by_contra hlocked
  simp [destroy, hlocked] at hdestroy

/-- A live block of a complete pool lies in one of its chunks. -/
theorem Complete.holds {s : PoolState} (h : s.Complete) {b : Block} (hb : b ∈ s.live) :
  ∃ cur ∈ s.pool.chunk, s.pool.holds cur b.base = true
  := by
  obtain ⟨-, hholds⟩ := free_unlocks_iff.mp (h.found b hb)
  rw [addr_sub] at hholds
  apply hholds

theorem Single.complete {s : PoolState} (h : s.Single) :
  s.Complete
  := by
  obtain ⟨hunlocked, ⟨hchunk, hregions, hlive⟩ | ⟨cur, hchunk, hregions, -, hholds⟩⟩ := h
  · constructor
    · simp [hregions]
    · simp [hlive]
    · simp [destroy, hunlocked, hchunk, hregions, destroyLoop]
  · constructor
    · simp [hchunk, hregions]
    · intro b hb
      apply free_unlocks_iff.mpr
      use hunlocked, cur, by simp [hchunk]
      rw [addr_sub]
      apply hholds b hb
    · simp [destroy, hunlocked, hchunk, hregions, destroyLoop]

theorem start_single (size quantum : Nat) (mem : Memory) :
  (start size quantum mem).Single
  where
  unlocked := rfl
  chunk := Or.inl ⟨rfl, rfl, rfl⟩

theorem alloc_single {s : PoolState} {size : Nat} {mallocs : Mallocs} (h : s.Single)
    (hfresh : s.FreshRegion (.alloc size mallocs)) (hone : s.OneChunk (.alloc size mallocs)) :
  ∃ answer s', machine.step s (.alloc size mallocs) = some (answer, s') ∧ s'.Single
  := by
  obtain ⟨hunlocked, hchunk⟩ := h
  obtain ⟨hsize, hroom⟩ := hone
  have hgrants : s.pool.Grants size mallocs := by
    use hunlocked, hsize
    obtain ⟨cur, hcur, hle, -⟩ | ⟨-, -, hnew⟩ := hroom
    · left
      use cur, hcur
    · right
      apply hnew
  obtain ⟨cur, next, heap, htake⟩ := hgrants.takeFrom s.heap
  refine ⟨_, _, step_alloc (alloc_of_takeFrom hunlocked hsize htake), hunlocked, Or.inr ?_⟩
  rw [Nat.add_sub_cancel]
  obtain ⟨hcur, hfree, rfl⟩ | ⟨hnew, hfirst, rfl, rfl, rfl⟩ := takeFrom_cases htake
  · obtain ⟨hnil, -⟩ | ⟨cur', hcur', hregions, hne, hlive⟩ := hchunk
    · rw [hnil] at hcur
      cases hcur
    · rw [hcur'] at hcur
      cases hcur
      refine ⟨_, rfl, hregions, hne, ?_⟩
      intro b hb
      rcases List.mem_cons.mp hb with rfl | hb
      · obtain ⟨_, hhead, -, hlt⟩ | ⟨hnil, -⟩ := hroom
        · rw [hcur'] at hhead
          cases hhead
          rw [holds_iff]
          simp only
          omega
        · rw [hnil] at hcur'
          cases hcur'
      · apply hlive b hb
  · obtain ⟨first, hhead, hle, -⟩ | ⟨hnil, hpos, -, hsome⟩ := hroom
    · have := hfirst first hhead
      omega
    · obtain ⟨r, hr⟩ := Option.isSome_iff_exists.mp hsome
      obtain ⟨-, hregions, hlive⟩ | ⟨cur', hcur', -⟩ := hchunk
      · refine ⟨_, rfl, ?_, ?_, ?_⟩
        · simp [hr, hregions]
        · simpa [hr] using (hfresh r hr).1
        · intro b hb
          rw [hlive, List.mem_singleton] at hb
          subst hb
          rw [holds_iff]
          simp only
          omega
      · rw [hnil] at hcur'
        cases hcur'

theorem free_single {s : PoolState} {addr : Nat} (h : s.Single)
    (hone : s.OneChunk (.free addr)) :
  ∃ answer s', machine.step s (.free addr) = some (answer, s') ∧ s'.Single
  := by
  obtain ⟨hunlocked, ⟨hnil, -, hlive⟩ | ⟨cur, hcur, hregions, hne, hlive⟩⟩ := h
  · obtain ⟨b, hb, -⟩ | ⟨cur, hcur, -⟩ := hone
    · simp [hlive] at hb
    · simp [hnil] at hcur
  · have hholds : s.pool.holds cur (addr - sizeofSize) = true := by
      obtain ⟨b, hb, rfl⟩ | ⟨cur', hcur', hholds⟩ := hone
      · rw [addr_sub]
        apply hlive b hb
      · rw [hcur, List.mem_singleton] at hcur'
        rw [← hcur']
        apply hholds
    obtain ⟨pool', cur', hfree, hchunk, hstart, hsize, hfree'⟩ :=
      free_of_holds s.heap hcur hunlocked hholds
    simp only [machine, hfree]
    refine ⟨_, _, rfl, hfree', Or.inr ⟨cur', hchunk, ?_, ?_, ?_⟩⟩
    · rw [hstart]
      apply hregions
    · rw [hstart]
      apply hne
    · intro b hb
      have := hlive b (List.eraseP_subset hb)
      rw [holds_iff] at this ⊢
      rw [hstart, hsize]
      apply this

/-- A call that needs no second chunk returns and leaves one chunk at most. -/
theorem step_single {s : PoolState} {e : PoolEvent} (h : s.Single)
    (hfresh : s.FreshRegion e) (hone : s.OneChunk e) :
  ∃ answer s', machine.step s e = some (answer, s') ∧ s'.Single
  := by
  cases e with
  | alloc size mallocs => apply alloc_single h hfresh hone
  | free addr => apply free_single h hone
  | write addr bytes => exact ⟨_, _, rfl, h.unlocked, h.chunk⟩

/-- An allocation that leaves the chunk list complete took no second chunk. -/
theorem oneChunk_of_alloc {s s' : PoolState} {size : Nat} {mallocs : Mallocs}
    {answer : Option Nat} (h : s.Single) (hfresh : s.FreshRegion (.alloc size mallocs))
    (hstep : machine.step s (.alloc size mallocs) = some (answer, s'))
    (hcomplete : s'.Complete) :
  s.OneChunk (.alloc size mallocs)
  := by
  have hunlocked := hcomplete.unlocked
  obtain rfl | ⟨cur, next, heap, mem, hsize, htake, rfl⟩ := step_alloc_cases hstep
  · cases hunlocked
  use hsize
  -- the new block lies in a chunk of the list, which had the room for it
  obtain ⟨cur', hcur', hholds⟩ := hcomplete.holds List.mem_cons_self
  rw [holds_iff] at hholds
  simp only at hcur' hholds
  obtain ⟨hchunk, hfree, rfl⟩ | ⟨hnew, hfirst, rfl, rfl, rfl⟩ := takeFrom_cases htake
  · left
    use cur, by simp [hchunk], hfree
    obtain ⟨hnil, -⟩ | ⟨_, hone, -⟩ := h.chunk
    · rw [hnil] at hchunk
      cases hchunk
    · rw [hone] at hchunk
      cases hchunk
      rw [List.mem_singleton] at hcur'
      subst hcur'
      simp only at hholds
      omega
  · right
    rw [List.mem_singleton] at hcur'
    subst hcur'
    simp only at hholds
    obtain ⟨hnil, hempty, -⟩ | ⟨old, -, hold, hne, -⟩ := h.chunk
    · use hnil, by omega, hnew
      cases hstart : mallocs.start with
      | some r => rfl
      | none =>
        obtain ⟨freed, left, hdestroy, hperm, -⟩ := hcomplete.destroyed
        have hlength := hperm.length_eq
        rw [destroy_length hdestroy] at hlength
        simp [hstart, hempty] at hlength
    · -- the chunk there was is not reachable any more
      obtain ⟨cur', hcur', hstart⟩ := hcomplete.reachable old.start (by simp [hold])
      rw [List.mem_singleton] at hcur'
      subst hcur'
      cases hr : mallocs.start with
      | none =>
        rw [hr] at hstart
        cases hne hstart.symm
      | some r =>
        rw [hr] at hstart
        cases (hfresh r hr).2 (by simp [hold, ← hstart])

/-- A call that leaves the chunk list complete needed no second chunk. -/
theorem oneChunk_of_keeps {s : PoolState} {e : PoolEvent} (h : s.Single)
    (hfresh : s.FreshRegion e) (hkeeps : s.KeepsComplete e) :
  s.OneChunk e
  := by
  obtain ⟨answer, s', hstep, hcomplete⟩ := hkeeps
  cases e with
  | alloc size mallocs => apply oneChunk_of_alloc h hfresh hstep hcomplete
  | free addr =>
    obtain ⟨heap, pool, hfree, rfl⟩ := step_free hstep
    right
    apply (free_unlocks_iff.mp ⟨heap, pool, hfree, hcomplete.unlocked⟩).2
  | write addr bytes => trivial

/-- In a run of a pool whose regions are fresh, every call returns and leaves the chunk
list complete exactly when no call takes a second chunk. -/
theorem run_complete_iff {size quantum : Nat} {mem : Memory} {es : List PoolEvent}
    (hfresh : machine.Meets FreshRegion (start size quantum mem) es) :
  machine.Meets KeepsComplete (start size quantum mem) es
    ↔ machine.Meets OneChunk (start size quantum mem) es
  := by
  apply machine.meets_iff _ _ (start_single size quantum mem) hfresh
  · intro s e h hfresh
    constructor
    · apply oneChunk_of_keeps h hfresh
    · intro hone
      obtain ⟨answer, s', hstep, hsingle⟩ := step_single h hfresh hone
      exact ⟨answer, s', hstep, hsingle.complete⟩
  · intro s e answer s' h hfresh hone hstep
    obtain ⟨answer', s'', hstep', hsingle⟩ := step_single h hfresh hone
    rw [hstep] at hstep'
    cases hstep'
    apply hsingle

theorem run_complete_two :
  machine.Meets KeepsComplete (start 64 8 fun _ => 0)
    [.alloc 8 ⟨true, some 4096⟩, .alloc 16 ⟨true, none⟩, .free 4152, .free 4128]
  := by
  apply (run_complete_iff (by decide)).mpr
  decide

/-- The second block of 40 bytes does not fit in the first chunk: the chunk list forgets
the first chunk, whose block no call of `mem_pool_free` finds any more. -/
theorem secondChunk_incomplete :
  machine.Meets FreshRegion (start 64 8 fun _ => 0)
      [.alloc 40 ⟨true, some 4096⟩, .alloc 40 ⟨true, some 8192⟩]
    ∧ ∃ answers s, machine.run (start 64 8 fun _ => 0)
          [.alloc 40 ⟨true, some 4096⟩, .alloc 40 ⟨true, some 8192⟩] = some (answers, s)
        ∧ ¬ s.Complete
  := by
  refine ⟨by decide, _, _, rfl, ?_⟩
  intro h
  obtain ⟨cur, hcur, hstart⟩ := h.reachable 4096 (by decide)
  revert hstart
  revert cur
  decide

end PoolState

end IFreeChat
