import IFreeChat.MemPool.Pool

/-!
# Safety of the memory pool

The accounts of a chunk bound what `free`, `bound` and the live blocks in it come to by the
size of the chunk, and `free` by the offsets of these blocks.  Every careful step of the
users keeps the accounts (`step_inv`), and with them every live block safe
(`run_safe_of_careful`).  A step is careful when no size wraps, no chunk is used whose
region `malloc` refused, and a block given back is credited with at most what it took.
-/

open Basis

namespace IFreeChat

namespace MemPool

/-- The bytes taken for the live blocks that lie in the chunk `cur`. -/
def takenIn (pool : MemPool) (cur : Chunk) (live : List Block) : Nat :=
  ((live.filter fun b => pool.holds cur b.base).map Block.taken).sum

/-- The accounts of the chunk `cur`. -/
structure Accounts (pool : MemPool) (cur : Chunk) (live : List Block) : Prop where
  sum_le : cur.free + cur.bound + pool.takenIn cur live ≤ pool.size
  free_le : ∀ b ∈ live, pool.holds cur b.base → cur.start + cur.free ≤ b.base

theorem holds_iff {pool : MemPool} {cur : Chunk} {addr : Nat} :
  pool.holds cur addr = true ↔ cur.start ≤ addr ∧ addr < cur.start + pool.size
  := by
  simp [holds]

theorem init_size_lt (size quantum : Nat) :
  (init size quantum).size < sizeModulus
  := by
  simp only [init]
  split
  · decide
  · have := sizeT_lt (size + minAlign - 1)
    omega

/-! ### The live blocks of a chunk -/

theorem takenIn_cons_of_holds {pool : MemPool} {cur : Chunk} {b : Block} {live : List Block}
    (h : pool.holds cur b.base = true) :
  pool.takenIn cur (b :: live) = b.taken + pool.takenIn cur live
  := by
  simp [takenIn, h]

theorem takenIn_append (pool : MemPool) (cur : Chunk) (live live' : List Block) :
  pool.takenIn cur (live ++ live') = pool.takenIn cur live + pool.takenIn cur live'
  := by
  simp [takenIn]

theorem taken_le_takenIn {pool : MemPool} {cur : Chunk} {b : Block} {live : List Block}
    (hb : b ∈ live) (h : pool.holds cur b.base = true) :
  b.taken ≤ pool.takenIn cur live
  := by
  obtain ⟨live₁, live₂, rfl⟩ := List.append_of_mem hb
  rw [takenIn_append, takenIn_cons_of_holds h]
  omega

theorem takenIn_eq_zero {pool : MemPool} {cur : Chunk} {live : List Block}
    (h : ∀ b ∈ live, ¬ pool.holds cur b.base = true) :
  pool.takenIn cur live = 0
  := by
  rw [takenIn, List.filter_eq_nil_iff.mpr h]
  rfl

/-! ### One call -/

/-- A call of `mem_pool_alloc` that returns gives no block, or takes one from the top of
the chunk `takeFrom` chose. -/
theorem alloc_cases {pool pool' : MemPool} {heap heap' : Heap} {size : Nat}
    {mallocs : Mallocs} {block : Option Nat}
    (h : pool.alloc heap size mallocs = some (block, heap', pool')) :
  (block = none ∧ heap' = heap ∧ pool' = { pool with locked := true })
    ∨ ∃ cur next heap₁, pool.takenSize size ≤ pool.size
        ∧ pool.takeFrom heap (pool.takenSize size) mallocs = some (cur, next, heap₁)
        ∧ block = some (cur.start + (cur.free - pool.takenSize size) + sizeofSize)
        ∧ heap'.regions = heap₁.regions
        ∧ heap'.mem = heap₁.mem.storeSize (cur.start + (cur.free - pool.takenSize size))
            (pool.takenSize size)
        ∧ pool' = { pool with
            chunk := { cur with free := cur.free - pool.takenSize size } :: next }
  := by
  simp only [alloc] at h
  split at h
  · cases h
  · split at h
    · cases h
      left
      simp
    · split at h
      · cases h
        left
        simp
      · rename_i hsize cur next heap₁ htake
        cases h
        right
        use cur, next, heap₁, by omega, htake

theorem alloc_of_takeFrom {pool : MemPool} {heap heap' : Heap} {size : Nat}
    {mallocs : Mallocs} {cur : Chunk} {next : List Chunk}
    (hlocked : pool.locked = false) (hsize : pool.takenSize size ≤ pool.size)
    (htake : pool.takeFrom heap (pool.takenSize size) mallocs = some (cur, next, heap')) :
  pool.alloc heap size mallocs =
    let start := cur.start + (cur.free - pool.takenSize size)
    some (some (start + sizeofSize),
      { heap' with mem := heap'.mem.storeSize start (pool.takenSize size) },
      { pool with chunk := { cur with free := cur.free - pool.takenSize size } :: next })
  := by
  simp [alloc, hlocked, Nat.not_lt.mpr hsize, htake]

/-- The chunk a call takes from is the first one of the pool, which has the bytes, or a new
one. -/
theorem takeFrom_cases {pool : MemPool} {heap heap' : Heap} {size : Nat} {mallocs : Mallocs}
    {cur : Chunk} {next : List Chunk}
    (h : pool.takeFrom heap size mallocs = some (cur, next, heap')) :
  (pool.chunk = cur :: next ∧ size ≤ cur.free ∧ heap' = heap)
    ∨ (mallocs.chunk = true ∧ (∀ first ∈ pool.chunk.head?, first.free < size)
        ∧ cur = { start := mallocs.start.getD 0, free := pool.size, bound := 0 }
        ∧ next = []
        ∧ heap' = { heap with regions := mallocs.start.toList ++ heap.regions })
  := by
  simp only [takeFrom] at h
  split at h
  · rename_i hchunk
    split at h
    · cases h
      right
      simp_all
    · cases h
  · rename_i first rest hchunk
    split at h
    · split at h
      · cases h
        right
        simp_all
      · cases h
    · cases h
      left
      simp_all

/-- A call that is granted takes its block from some chunk. -/
theorem Grants.takeFrom {pool : MemPool} {size : Nat} {mallocs : Mallocs}
    (h : pool.Grants size mallocs) (heap : Heap) :
  ∃ cur next heap', pool.takeFrom heap (pool.takenSize size) mallocs = some (cur, next, heap')
  := by
  obtain ⟨-, -, hroom⟩ := h
  cases hchunk : pool.chunk with
  | nil =>
    have hnew : mallocs.chunk = true := by
      rcases hroom with ⟨cur, hcur, -⟩ | ⟨hnew, -⟩
      · simp [hchunk] at hcur
      · apply hnew
    simp [MemPool.takeFrom, hchunk, hnew]
  | cons cur next =>
    by_cases hfree : cur.free < pool.takenSize size
    · have hnew : mallocs.chunk = true := by
        rcases hroom with ⟨cur', hcur', hle⟩ | ⟨hnew, -⟩
        · simp only [hchunk, List.head?_cons, Option.mem_def, Option.some.injEq] at hcur'
          subst hcur'
          omega
        · apply hnew
      simp [MemPool.takeFrom, hchunk, hfree, hnew]
    · simp [MemPool.takeFrom, hchunk, hfree]

@[simp]
theorem creditFirst_start (pool : MemPool) (cur : Chunk) (addr size : Nat) :
  (pool.creditFirst cur addr size).start = cur.start
  := by
  rw [creditFirst]
  split
  · rfl
  · split <;> rfl

/-- A block given back to the only chunk of a pool is credited to it, when it lies
there; otherwise the pool stays locked. -/
theorem free_singleton {pool : MemPool} {heap : Heap} {start : Nat} {cur : Chunk}
    (hchunk : pool.chunk = [cur]) (hlocked : pool.locked = false) :
  pool.free heap start = some (heap,
    if pool.holds cur (start - sizeofSize) then
      { pool with chunk := [pool.creditFirst cur (start - sizeofSize)
          (pool.creditedSize (heap.mem.loadSize start))] }
    else { pool with locked := true })
  := by
  by_cases h : pool.holds cur (start - sizeofSize) = true
  · simp [free, hchunk, hlocked, h, List.span_eq_takeWhile_dropWhile]
  · simp [free, hchunk, hlocked, h, List.span_eq_takeWhile_dropWhile]

/-- A block given back that lies in the only chunk leaves the mutex free and the chunk
where it is. -/
theorem free_of_holds {pool : MemPool} {start : Nat} {cur : Chunk} (heap : Heap)
    (hchunk : pool.chunk = [cur]) (hlocked : pool.locked = false)
    (hholds : pool.holds cur (start - sizeofSize) = true) :
  ∃ pool' cur', pool.free heap start = some (heap, pool') ∧ pool'.chunk = [cur']
    ∧ cur'.start = cur.start ∧ pool'.size = pool.size ∧ pool'.locked = false
  := by
  have hfree := @free_singleton pool heap start cur hchunk hlocked
  rw [if_pos hholds] at hfree
  exact ⟨_, _, hfree, rfl, creditFirst_start _ _ _ _, rfl, hlocked⟩

/-- A block given back that lies outside the only chunk leaves the mutex locked. -/
theorem free_of_not_holds {pool : MemPool} {start : Nat} {cur : Chunk} (heap : Heap)
    (hchunk : pool.chunk = [cur]) (hlocked : pool.locked = false)
    (hholds : ¬ pool.holds cur (start - sizeofSize) = true) :
  pool.free heap start = some (heap, { pool with locked := true })
  := by
  rw [free_singleton hchunk hlocked, if_neg hholds]

/-- A call that finds the mutex locked does not return. -/
theorem free_of_locked {pool : MemPool} (heap : Heap) (start : Nat) (hlocked : pool.locked = true) :
  pool.free heap start = none
  := by
  simp [free, hlocked]

/-- A call that finds the mutex free returns. -/
theorem free_isSome {pool : MemPool} (heap : Heap) (start : Nat) (hlocked : pool.locked = false) :
  (pool.free heap start).isSome = true
  := by
  simp only [free, hlocked, Bool.false_eq_true, if_false]
  split
  · rfl
  · rfl
  · split <;> rfl

theorem free_nil {pool : MemPool} {heap : Heap} {start : Nat}
    (hchunk : pool.chunk = []) (hlocked : pool.locked = false) :
  pool.free heap start = some (heap, { pool with locked := true })
  := by
  simp [free, hchunk, hlocked, List.span_eq_takeWhile_dropWhile]

/-- Crediting a chunk with at most what a block of it took keeps its accounts without
the block. -/
theorem Accounts.credit {pool : MemPool} {cur : Chunk} {b : Block} {live₁ live₂ : List Block}
    {size : Nat} (h : pool.Accounts cur (live₁ ++ b :: live₂)) (hpool : pool.size < sizeModulus)
    (hholds : pool.holds cur b.base = true) (hsize : size ≤ b.taken)
    (hpositive : ∀ b' ∈ live₁ ++ live₂, 0 < b'.taken)
    (hapart : ∀ b' ∈ live₁ ++ live₂, Apart b.base b.taken b'.base b'.taken) :
  pool.Accounts (pool.creditFirst cur b.base size) (live₁ ++ live₂)
  := by
  obtain ⟨hsum, hfree⟩ := h
  have hrest : ∀ b' ∈ live₁ ++ live₂, b' ∈ live₁ ++ b :: live₂ := by
    intro b' hb'
    rw [List.mem_append] at hb' ⊢
    apply hb'.imp id (List.mem_cons_of_mem b)
  rw [takenIn_append, takenIn_cons_of_holds hholds] at hsum
  have hwrap : sizeT (cur.free + cur.bound + size) = cur.free + cur.bound + size :=
    sizeT_of_lt (by omega)
  rw [creditFirst, hwrap, sizeT_of_lt (by omega), sizeT_of_lt (by omega)]
  split
  · -- all bytes of the chunk are accounted for, so no other live block lies in it
    have hnone : ∀ b' ∈ live₁ ++ live₂, ¬ pool.holds cur b'.base = true := by
      intro b' hb' hb'holds
      have hle := taken_le_takenIn hb' hb'holds
      rw [takenIn_append] at hle
      have := hpositive b' hb'
      omega
    constructor
    · have hzero : pool.takenIn { cur with free := pool.size, bound := 0 } _ = 0 :=
        takenIn_eq_zero hnone
      simp only
      omega
    · intro b' hb' hb'holds
      apply absurd hb'holds (hnone b' hb')
  · split
    · rename_i hadd
      constructor
      · change cur.free + size + cur.bound + pool.takenIn cur _ ≤ _
        rw [takenIn_append]
        omega
      · intro b' hb' hb'holds
        have hfree' := hfree b' (hrest b' hb') hb'holds
        have := hpositive b' hb'
        rcases hapart b' hb' with h | h
        · change cur.start + (cur.free + size) ≤ _
          omega
        · omega
    · constructor
      · change cur.free + (cur.bound + size) + pool.takenIn cur _ ≤ _
        rw [takenIn_append]
        omega
      · intro b' hb' hb'holds
        apply hfree b' (hrest b' hb') hb'holds

end MemPool

/-! ### Steps and runs -/

namespace PoolState

open MemPool

/-- What the users do where the pool keeps its blocks safe: no size wraps, no chunk is used
whose region `malloc` refused, and the word at the start of a block given back credits at
most what the block took. -/
def Careful (s : PoolState) : PoolEvent → Prop
  | .alloc size mallocs =>
      (if size = 0 then s.pool.quantum else size) + sizeofSize < sizeModulus
        ∧ (s.pool.takenSize size ≤ s.pool.size → mallocs.chunk = true → mallocs.start = none →
          ∃ cur ∈ s.pool.chunk.head?, s.pool.takenSize size ≤ cur.free)
  | .free addr =>
      ∀ b ∈ s.live, b.addr = addr →
        s.pool.creditedSize (s.heap.mem.loadSize addr) ≤ b.taken
  | .write _ _ => True

instance (s : PoolState) : ∀ e, Decidable (s.Careful e)
  | .alloc _ _ => inferInstanceAs (Decidable (_ ∧ (_ → _)))
  | .free _ => inferInstanceAs (Decidable (∀ b ∈ s.live, _))
  | .write _ _ => .isTrue trivial

/-- A safe state with the accounts of its chunk. -/
structure Inv (s : PoolState) : Prop extends s.Safe where
  size_lt : s.pool.size < sizeModulus
  region_le : ∀ r ∈ s.heap.regions, r + s.pool.size ≤ sizeModulus
  apart : s.heap.regions.Pairwise fun r r' => Apart r s.pool.size r' s.pool.size
  chunk : s.pool.chunk = [] ∨ ∃ cur, s.pool.chunk = [cur] ∧ cur.start ∈ s.heap.regions
    ∧ s.pool.Accounts cur s.live

theorem start_inv (size quantum : Nat) (mem : Memory) :
  (start size quantum mem).Inv
  where
  usable := by simp [start]
  inside := by simp [start]
  disjoint := List.Pairwise.nil
  size_lt := init_size_lt size quantum
  region_le := by simp [start]
  apart := List.Pairwise.nil
  chunk := Or.inl rfl

theorem Safe.taken_pos {s : PoolState} (h : s.Safe) {b : Block} (hb : b ∈ s.live) :
  0 < b.taken
  := by
  have := h.usable b hb
  simp only [sizeofSize] at this
  omega

/-- A live block that a region does not hold lies apart from it. -/
theorem Inv.apart_of_not_holds {s : PoolState} (h : s.Inv) {b : Block} (hb : b ∈ s.live)
    {cur : Chunk} (hcur : cur.start ∈ s.heap.regions)
    (hholds : ¬ s.pool.holds cur b.base = true) :
  Apart cur.start s.pool.size b.base b.taken
  := by
  obtain ⟨r, hr, hle, hge⟩ := h.inside b hb
  have hpos := h.taken_pos hb
  have hne : cur.start ≠ r := by
    rintro rfl
    apply hholds
    rw [holds_iff]
    omega
  have : Std.Symm fun r r' => Apart r s.pool.size r' s.pool.size := ⟨fun _ _ => Apart.symm⟩
  have hregions := h.apart.forall hcur hr hne
  apply hregions.mono <;> omega

/-- A chunk that an allocation takes from is the only one of the pool, with the accounts
kept. -/
theorem Inv.takeFrom {s : PoolState} (h : s.Inv) {size : Nat} {mallocs : Mallocs}
    {cur : Chunk} {next : List Chunk} {heap : Heap}
    (hadmissible : s.Admissible (.alloc size mallocs))
    (hcareful : s.Careful (.alloc size mallocs))
    (hsize : s.pool.takenSize size ≤ s.pool.size)
    (htake : s.pool.takeFrom s.heap (s.pool.takenSize size) mallocs
      = some (cur, next, heap)) :
  next = [] ∧ s.pool.takenSize size ≤ cur.free ∧ cur.start ∈ heap.regions
    ∧ PoolState.Inv { s with pool := { s.pool with chunk := [cur] }, heap }
  := by
  rcases takeFrom_cases htake with ⟨hchunk, hfree, rfl⟩ | ⟨hroom, hfirst, rfl, rfl, rfl⟩
  · rcases h.chunk with hnil | ⟨cur', hcur', hstart, haccounts⟩
    · rw [hnil] at hchunk
      cases hchunk
    · rw [hcur'] at hchunk
      cases hchunk
      use rfl, hfree, hstart
      obtain ⟨hsafe, hlt, hle, hapart, -⟩ := h
      refine ⟨⟨hsafe.usable, hsafe.inside, hsafe.disjoint⟩, hlt, hle, hapart, ?_⟩
      right
      use cur, rfl, hstart
      exact ⟨haccounts.sum_le, haccounts.free_le⟩
  · obtain ⟨-, hregion⟩ := hadmissible
    obtain ⟨-, hcareful⟩ := hcareful
    cases hstart : mallocs.start with
    | none =>
      obtain ⟨first, hmem, hle⟩ := hcareful hsize hroom hstart
      have := hfirst first hmem
      omega
    | some r =>
      obtain ⟨hbound, hnew⟩ := hregion r (by simp [hstart])
      have hnone : ∀ b ∈ s.live, ¬ s.pool.holds
          { start := r, free := s.pool.size, bound := 0 } b.base = true := by
        intro b hb hholds
        rw [holds_iff] at hholds
        obtain ⟨r', hr', hle, hge⟩ := h.inside b hb
        have hpos := h.taken_pos hb
        simp only at hholds
        rcases hnew r' hr' with hnew | hnew <;> omega
      simp only [Option.getD_some, Option.toList_some, List.cons_append, List.nil_append]
      refine ⟨trivial, hsize, by simp, ⟨h.usable, ?_, h.disjoint⟩, h.size_lt, ?_, ?_, ?_⟩
      · intro b hb
        obtain ⟨r', hr', hbounds⟩ := h.inside b hb
        exact ⟨r', List.mem_cons_of_mem r hr', hbounds⟩
      · intro r' hr'
        rcases List.mem_cons.mp hr' with rfl | hr'
        · apply hbound
        · apply h.region_le r' hr'
      · apply List.Pairwise.cons hnew h.apart
      · right
        refine ⟨_, rfl, by simp, ?_, ?_⟩
        · change s.pool.size + 0 + s.pool.takenIn _ s.live ≤ s.pool.size
          rw [takenIn_eq_zero hnone]
          simp
        · intro b hb hholds
          apply absurd hholds (hnone b hb)

/-- Taking a block from the top of the chunk keeps the accounts. -/
theorem Inv.take {s : PoolState} {cur : Chunk} (h : s.Inv) (hchunk : s.pool.chunk = [cur])
    (hstart : cur.start ∈ s.heap.regions) {request taken : Nat} (hle : taken ≤ cur.free)
    (husable : request + sizeofSize ≤ taken) (mem : Memory) :
  PoolState.Inv {
    pool := { s.pool with chunk := [{ cur with free := cur.free - taken }] }
    heap := { s.heap with mem }
    live := ⟨cur.start + (cur.free - taken), request, taken⟩ :: s.live }
  := by
  have haccounts : s.pool.Accounts cur s.live := by
    rcases h.chunk with hnil | ⟨cur', hcur', -, haccounts⟩
    · rw [hnil] at hchunk
      cases hchunk
    · rw [hcur'] at hchunk
      cases hchunk
      apply haccounts
  obtain ⟨hsum, hfree⟩ := haccounts
  have hpos : 0 < taken := by
    simp only [sizeofSize] at husable
    omega
  have hapart : ∀ b ∈ s.live,
      Apart (cur.start + (cur.free - taken)) taken b.base b.taken := by
    intro b hb
    by_cases hholds : s.pool.holds cur b.base = true
    · left
      have := hfree b hb hholds
      omega
    · apply (h.apart_of_not_holds hb hstart hholds).mono <;> omega
  refine ⟨⟨?_, ?_, ?_⟩, h.size_lt, h.region_le, h.apart, ?_⟩
  · intro b hb
    rcases List.mem_cons.mp hb with rfl | hb
    · apply husable
    · apply h.usable b hb
  · intro b hb
    rcases List.mem_cons.mp hb with rfl | hb
    · use cur.start, hstart
      simp only
      omega
    · apply h.inside b hb
  · apply List.Pairwise.cons hapart h.disjoint
  · right
    refine ⟨_, rfl, hstart, ?_, ?_⟩
    · have hholds : s.pool.holds { cur with free := cur.free - taken }
          (cur.start + (cur.free - taken)) = true := by
        rw [holds_iff]
        simp only
        omega
      change cur.free - taken + cur.bound + takenIn s.pool _ _ ≤ s.pool.size
      rw [takenIn_cons_of_holds hholds]
      change cur.free - taken + cur.bound + (taken + s.pool.takenIn cur s.live) ≤ _
      omega
    · intro b hb hholds
      rcases List.mem_cons.mp hb with rfl | hb
      · apply le_rfl
      · have := hfree b hb hholds
        simp only
        omega

/-- Giving a block back that is credited as one that took at most as much keeps the
accounts. -/
theorem Inv.release {s : PoolState} (h : s.Inv) {b : Block} {live₁ live₂ : List Block}
    (hlive : s.live = live₁ ++ b :: live₂) {heap : Heap} {pool : MemPool}
    (hcredit : ∀ cur ∈ s.pool.chunk, ∃ size ≤ b.taken,
      s.pool.creditFirst cur b.base (s.pool.creditedSize (s.heap.mem.loadSize b.addr))
        = s.pool.creditFirst cur b.base size)
    (hfree : s.pool.free s.heap b.addr = some (heap, pool)) :
  PoolState.Inv { pool, heap, live := live₁ ++ live₂ }
  := by
  have hsub : (live₁ ++ live₂).Sublist s.live := by
    rw [hlive]
    apply (List.Sublist.refl live₁).append (List.sublist_cons_self b live₂)
  have hlocked : s.pool.locked = false := by
    by_contra hlocked
    simp [MemPool.free, hlocked] at hfree
  have haddr : b.addr - sizeofSize = b.base := by
    simp [Block.addr]
  have hsafe : ∀ pool : MemPool, pool.size = s.pool.size →
      PoolState.Safe { pool, heap := s.heap, live := live₁ ++ live₂ } := by
    intro pool hsize
    refine ⟨?_, ?_, h.disjoint.sublist hsub⟩
    · intro b' hb'
      apply h.usable b' (hsub.subset hb')
    · intro b' hb'
      rw [hsize]
      apply h.inside b' (hsub.subset hb')
  rcases h.chunk with hnil | ⟨cur, hcur, hstart, haccounts⟩
  · rw [free_nil hnil hlocked] at hfree
    cases hfree
    exact ⟨hsafe _ rfl, h.size_lt, h.region_le, h.apart, Or.inl hnil⟩
  · rw [free_singleton hcur hlocked, haddr] at hfree
    split at hfree
    · rename_i hholds
      cases hfree
      refine ⟨hsafe _ rfl, h.size_lt, h.region_le, h.apart, Or.inr ⟨_, rfl, ?_, ?_⟩⟩
      · rw [creditFirst_start]
        apply hstart
      · have hpair := h.disjoint
        rw [hlive, List.pairwise_middle Apart.symm] at hpair
        rw [hlive] at haccounts
        obtain ⟨size, hsize, hsame⟩ := hcredit cur (by simp [hcur])
        have hcredited := haccounts.credit h.size_lt hholds hsize
          (fun b' hb' => h.taken_pos (hsub.subset hb')) (List.pairwise_cons.mp hpair).1
        rw [hsame]
        exact ⟨hcredited.sum_le, hcredited.free_le⟩
    · cases hfree
      refine ⟨hsafe _ rfl, h.size_lt, h.region_le, h.apart, Or.inr ⟨cur, hcur, hstart, ?_, ?_⟩⟩
      · have hsum := haccounts.sum_le
        rw [hlive, takenIn_append] at hsum
        change cur.free + cur.bound + s.pool.takenIn cur (live₁ ++ live₂) ≤ s.pool.size
        rw [takenIn_append]
        have hle : s.pool.takenIn cur live₂ ≤ s.pool.takenIn cur (b :: live₂) := by
          change s.pool.takenIn cur live₂ ≤ s.pool.takenIn cur ([b] ++ live₂)
          rw [takenIn_append]
          omega
        omega
      · intro b' hb' hholds
        apply haccounts.free_le b' (hsub.subset hb') hholds

/-- An allocation leaves the mutex locked and gives no block, or makes a live block of the
bytes it takes from the top of the chunk `takeFrom` chose. -/
theorem step_alloc_cases {s s' : PoolState} {size : Nat} {mallocs : Mallocs}
    {answer : Option Nat} (hstep : machine.step s (.alloc size mallocs) = some (answer, s')) :
  s' = { s with pool := { s.pool with locked := true } }
    ∨ ∃ cur next heap mem, s.pool.takenSize size ≤ s.pool.size
        ∧ s.pool.takeFrom s.heap (s.pool.takenSize size) mallocs = some (cur, next, heap)
        ∧ s' = {
            pool := { s.pool with
              chunk := { cur with free := cur.free - s.pool.takenSize size } :: next }
            heap := { heap with mem }
            live := ⟨cur.start + (cur.free - s.pool.takenSize size), size,
              s.pool.takenSize size⟩ :: s.live }
  := by
  simp only [machine] at hstep
  split at hstep
  · cases hstep
  · rename_i heap pool halloc
    cases hstep
    obtain ⟨-, rfl, rfl⟩ | ⟨_, _, _, _, _, hblock, _⟩ := alloc_cases halloc
    · exact Or.inl rfl
    · cases hblock
  · rename_i addr heap pool halloc
    cases hstep
    obtain ⟨hblock, -⟩ | ⟨cur, next, heap₁, hsize, htake, hblock, hregions, -, rfl⟩ :=
      alloc_cases halloc
    · cases hblock
    · cases hblock
      right
      use cur, next, heap₁, heap.mem, hsize, htake
      rw [Nat.add_sub_cancel, ← hregions]

theorem step_free {s s' : PoolState} {addr : Nat} {answer : Option Nat}
    (hstep : machine.step s (.free addr) = some (answer, s')) :
  ∃ heap pool, s.pool.free s.heap addr = some (heap, pool)
    ∧ s' = { pool, heap, live := s.live.eraseP fun b => b.addr = addr }
  := by
  simp only [machine] at hstep
  split at hstep
  · cases hstep
  · rename_i heap pool hfree
    cases hstep
    use heap, pool, hfree

/-- A live block that is given back is no longer live, and the others are. -/
theorem step_free_live {s s' : PoolState} {addr : Nat} {answer : Option Nat}
    (hadmissible : s.Admissible (.free addr))
    (hstep : machine.step s (.free addr) = some (answer, s')) :
  ∃ heap pool b live₁ live₂, b.addr = addr ∧ s.live = live₁ ++ b :: live₂
    ∧ s.pool.free s.heap b.addr = some (heap, pool) ∧ s' = ⟨pool, heap, live₁ ++ live₂⟩
  := by
  obtain ⟨heap, pool, hfree, rfl⟩ := step_free hstep
  obtain ⟨b, hb, hbaddr⟩ := hadmissible
  obtain ⟨b', live₁, live₂, -, hb', hlive, herase⟩ :=
    List.exists_of_eraseP (p := fun b => b.addr = addr) hb (by simp [hbaddr])
  rw [herase]
  simp only [decide_eq_true_eq] at hb'
  subst hb'
  exact ⟨heap, pool, b', live₁, live₂, rfl, hlive, hfree, rfl⟩

/-- Every careful step of the users keeps the blocks safe and the accounts. -/
theorem step_inv {s s' : PoolState} {e : PoolEvent} {answer : Option Nat} (h : s.Inv)
    (hadmissible : s.Admissible e) (hcareful : s.Careful e)
    (hstep : machine.step s e = some (answer, s')) :
  s'.Inv
  := by
  cases e with
  | alloc size mallocs =>
    obtain rfl | ⟨cur, next, heap, mem, hsize, htake, rfl⟩ := step_alloc_cases hstep
    · exact ⟨⟨h.usable, h.inside, h.disjoint⟩, h.size_lt, h.region_le, h.apart, h.chunk.imp id
        fun ⟨cur, hcur, hstart, haccounts⟩ =>
          ⟨cur, hcur, hstart, haccounts.sum_le, haccounts.free_le⟩⟩
    · obtain ⟨rfl, hle, hstart, hinv⟩ := h.takeFrom hadmissible hcareful hsize htake
      have husable : size + sizeofSize ≤ s.pool.takenSize size := by
        rw [takenSize, sizeT_of_lt hcareful.1]
        split
        · omega
        · omega
      apply hinv.take rfl hstart hle husable mem
  | free addr =>
    obtain ⟨heap, pool, b, live₁, live₂, rfl, hlive, hfree, rfl⟩ :=
      step_free_live hadmissible hstep
    have hcredit := hcareful b (by simp [hlive]) rfl
    apply h.release hlive (fun cur _ => ⟨_, hcredit, rfl⟩) hfree
  | write addr bytes =>
    cases hstep
    exact ⟨⟨h.usable, h.inside, h.disjoint⟩, h.size_lt, h.region_le, h.apart, h.chunk⟩

theorem step_alloc {s : PoolState} {size addr : Nat} {mallocs : Mallocs} {heap : Heap}
    {pool : MemPool} (h : s.pool.alloc s.heap size mallocs = some (some addr, heap, pool)) :
  machine.step s (.alloc size mallocs) = some (some addr, {
    pool, heap
    live := ⟨addr - sizeofSize, size, s.pool.takenSize size⟩ :: s.live })
  := by
  simp only [machine, h]

/-- The invariant does not depend on what the memory holds. -/
theorem Inv.of_mem {pool : MemPool} {mem mem' : Memory} {regions : List Nat}
    {live : List Block} (h : PoolState.Inv ⟨pool, ⟨mem, regions⟩, live⟩) :
  PoolState.Inv ⟨pool, ⟨mem', regions⟩, live⟩
  := ⟨⟨h.usable, h.inside, h.disjoint⟩, h.size_lt, h.region_le, h.apart, h.chunk⟩

/-- A call that is granted returns a new live block, whose header is all it writes. -/
theorem Inv.alloc_granted {s : PoolState} (h : s.Inv) {size : Nat} {mallocs : Mallocs}
    (hadmissible : s.Admissible (.alloc size mallocs)) (hgrants : s.pool.Grants size mallocs)
    (hwrap : (if size = 0 then s.pool.quantum else size) + sizeofSize < sizeModulus) :
  ∃ b heap pool, b.request = size
    ∧ s.pool.alloc s.heap size mallocs = some (some b.addr, heap, pool)
    ∧ heap.mem = s.heap.mem.storeSize b.base b.taken ∧ pool.size = s.pool.size
    ∧ (∀ r ∈ heap.regions, r ∈ s.heap.regions ∨ r ∈ mallocs.start)
    ∧ PoolState.Inv { pool, heap, live := b :: s.live }
  := by
  obtain ⟨cur, next, heap, htake⟩ := hgrants.takeFrom s.heap
  have hcareful : s.Careful (.alloc size mallocs) := by
    use hwrap
    intro _ _ hnone
    rcases hgrants.2.2 with hcur | ⟨-, hsome⟩
    · apply hcur
    · simp [hnone] at hsome
  have halloc := alloc_of_takeFrom hgrants.1 hgrants.2.1 htake
  have hinv := step_inv h hadmissible hcareful (step_alloc halloc)
  rw [Nat.add_sub_cancel] at hinv
  refine ⟨⟨_, _, _⟩, _, _, rfl, halloc, ?_, rfl, ?_, hinv⟩
  · obtain ⟨-, -, rfl⟩ | ⟨-, -, -, -, rfl⟩ := takeFrom_cases htake
    · rfl
    · rfl
  · obtain ⟨-, -, rfl⟩ | ⟨-, -, -, -, rfl⟩ := takeFrom_cases htake
    · intro r hr
      left
      apply hr
    · intro r hr
      simp only [List.mem_append, Option.mem_toList] at hr
      apply hr.symm

/-- In every run of the users whose steps are all careful, every live block has the bytes
asked for, lies inside one region, and is disjoint from every other one. -/
theorem run_safe_of_careful {size quantum : Nat} {mem : Memory} {es : List PoolEvent}
    {answers : List (Option Nat)} {s : PoolState}
    (hadmissible : machine.Meets Admissible (start size quantum mem) es)
    (hcareful : machine.Meets Careful (start size quantum mem) es)
    (hrun : machine.run (start size quantum mem) es = some (answers, s)) :
  s.Safe
  := by
  have hinv : s.Inv := machine.run_invariant
    (fun _ _ _ _ hs he hstep => step_inv hs he.1 he.2 hstep)
    (start_inv size quantum mem) (machine.meets_and hadmissible hcareful) hrun
  apply hinv.toSafe

/-- Two blocks of a pool of 64 bytes; the user writes `first` into the first one and gives
it back, and a block of 40 bytes is asked for. -/
def twoBlocks (first : Nat) : List PoolEvent :=
  [.alloc 8 ⟨true, some 4096⟩, .alloc 8 ⟨true, none⟩, .write 4152 (Memory.sizeBytes first),
    .free 4152, .alloc 40 ⟨true, some 8192⟩]

theorem twoBlocks_safe :
  ∃ answers s, machine.run (start 64 8 fun _ => 0) (twoBlocks 16) = some (answers, s)
    ∧ s.Safe
  := by
  refine ⟨_, _, rfl, ?_⟩
  have hcareful : machine.Meets Careful (start 64 8 fun _ => 0) (twoBlocks 16) := by decide
  apply run_safe_of_careful _ hcareful rfl
  decide

/-- The word at the start of the block given back credits the whole chunk, and the next
block overlaps the one still live. -/
theorem twoBlocks_overlap :
  ∃ answers s, machine.Meets Admissible (start 64 8 fun _ => 0) (twoBlocks 64)
    ∧ machine.run (start 64 8 fun _ => 0) (twoBlocks 64) = some (answers, s) ∧ ¬ s.Safe
  := by
  refine ⟨_, _, by decide, rfl, ?_⟩
  intro h
  have := h.disjoint
  revert this
  decide

end PoolState

end IFreeChat
