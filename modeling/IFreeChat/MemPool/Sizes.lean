import IFreeChat.MemPool.Safety

/-!
# What a block takes and what it gives back

`mem_pool_alloc` takes the bytes asked for and a header from a chunk, and stores their number
in the header.  `mem_pool_free` reads the word where the user's bytes start, rounds it up to the
quantum, and credits the chunk with it.

The two agree exactly where no request leaves a rest of the quantum, and every block given back
lies in the first chunk and has the number of its bytes, rounded, in its first word, or is the
last one of its chunk to be given back and has a word that is large enough
(`run_sizes_agree_iff`).
-/

open Basis

namespace IFreeChat

namespace MemPool

/-- What is left of the chunks, and given back to them. -/
def total (pool : MemPool) : Nat := (pool.chunk.map fun cur => cur.free + cur.bound).sum

/-- The size that is rounded up to a multiple of the quantum, and is the quantum for zero. -/
def roundUp (quantum size : Nat) : Nat :=
  if size = 0 then quantum else sizeT ((size + quantum - 1) / quantum * quantum)

/-- The multiple of the quantum that a size is rounded up to. -/
theorem roundUp_mul {quantum : Nat} (hquantum : 0 < quantum) (size : Nat) :
  (size + quantum - 1) / quantum * quantum
    = if size % quantum = 0 then size else size + (quantum - size % quantum)
  := by
  have hsplit := Nat.div_add_mod size quantum
  have hlt := Nat.mod_lt size hquantum
  have hsum : size + quantum - 1 = quantum * (size / quantum) + (size % quantum + quantum - 1) := by
    omega
  have hcomm := Nat.mul_comm quantum (size / quantum)
  rw [hsum, Nat.mul_add_div hquantum, Nat.add_mul]
  split
  · have hzero : (size % quantum + quantum - 1) / quantum = 0 := Nat.div_eq_of_lt (by omega)
    rw [hzero]
    omega
  · have hone : (size % quantum + quantum - 1) / quantum = 1 :=
      Nat.div_eq_of_lt_le (by omega) (by omega)
    rw [hone]
    omega

/-- The size that is credited is that of the word, rounded. -/
theorem creditedSize_eq {pool : MemPool} (hquantum : 0 < pool.quantum) {size : Nat}
    (hsize : size < sizeModulus) :
  pool.creditedSize size = roundUp pool.quantum size
  := by
  rw [creditedSize, roundUp]
  split
  · rfl
  · rw [roundUp_mul hquantum]
    have hlt := Nat.mod_lt size hquantum
    by_cases hrest : size % pool.quantum = 0
    · rw [if_neg (by omega), if_pos hrest, sizeT_of_lt hsize]
    · rw [if_pos ⟨by omega, hrest⟩, if_neg hrest]

theorem roundUp_lt {quantum : Nat} (hquantum : quantum < sizeModulus) (size : Nat) :
  roundUp quantum size < sizeModulus
  := by
  rw [roundUp]
  split
  · apply hquantum
  · apply sizeT_lt

end MemPool

namespace PoolState

open MemPool

/-! ### Agreement -/

/-- A block that is handed out takes a multiple of the quantum; the chunks are credited with
what the block given back took. -/
def SizesAgree (s : PoolState) : PoolEvent → Prop
  | .alloc size mallocs =>
      ∀ addr s', machine.step s (.alloc size mallocs) = some (some addr, s') →
        s.pool.quantum ∣ s.pool.takenSize size
  | .free addr =>
      ∀ b ∈ s.live, b.addr = addr →
        ∃ heap pool, s.pool.free s.heap addr = some (heap, pool)
          ∧ pool.total = s.pool.total + b.taken
  | .write _ _ => True

/-- A size asked for does not wrap with its header, and `malloc` does not refuse a region. -/
def Fits (s : PoolState) : PoolEvent → Prop
  | .alloc size mallocs => s.Careful (.alloc size mallocs)
  | _ => True

/-- The block lies in the first chunk, and its first word, rounded, is what it took; or no
bytes of the chunk are left out but those of the block, and the word is large enough. -/
def ReturnsTaken (s : PoolState) (b : Block) : Prop :=
  s.pool.locked = false ∧ ∃ cur ∈ s.pool.chunk.head?, s.pool.holds cur b.base = true
    ∧ (roundUp s.pool.quantum (s.heap.mem.loadSize b.addr) = b.taken
      ∨ cur.free + cur.bound + b.taken = s.pool.size
        ∧ s.pool.size ≤ sizeT (cur.free + cur.bound
            + roundUp s.pool.quantum (s.heap.mem.loadSize b.addr)))

instance (s : PoolState) (b : Block) : Decidable (s.ReturnsTaken b) :=
  inferInstanceAs (Decidable (_ ∧ ∃ cur ∈ s.pool.chunk.head?, _))

/-- Where the sizes agree: a request that is granted leaves no rest of the quantum with its
header, and a block given back has its size in its first word. -/
def KeepsSizes (s : PoolState) : PoolEvent → Prop
  | .alloc size mallocs => s.pool.Grants size mallocs →
      s.pool.quantum ∣ (if size = 0 then s.pool.quantum else size) + sizeofSize
  | .free addr => ∀ b ∈ s.live, b.addr = addr → s.ReturnsTaken b
  | .write _ _ => True

instance (s : PoolState) : ∀ e, Decidable (s.KeepsSizes e)
  | .alloc _ _ => inferInstanceAs (Decidable (_ → _))
  | .free _ => inferInstanceAs (Decidable (∀ b ∈ s.live, _))
  | .write _ _ => .isTrue trivial

instance (s : PoolState) : ∀ e, Decidable (s.Fits e)
  | .alloc size mallocs => inferInstanceAs (Decidable (s.Careful (.alloc size mallocs)))
  | .free _ => .isTrue trivial
  | .write _ _ => .isTrue trivial

/-- The accounts, with a quantum that is a size. -/
structure SizesInv (s : PoolState) : Prop extends s.Inv where
  quantum_pos : 0 < s.pool.quantum
  quantum_lt : s.pool.quantum < sizeModulus

/-- Crediting a chunk that has room for the block adds what the block took exactly where the
size is that, or fills the chunk up. -/
theorem credit_agrees_iff {pool : MemPool} {cur : Chunk} (addr : Nat) {size taken : Nat}
    (hpool : pool.size < sizeModulus) (hsize : size < sizeModulus)
    (hroom : cur.free + cur.bound + taken ≤ pool.size) :
  (pool.creditFirst cur addr size).free + (pool.creditFirst cur addr size).bound
      = cur.free + cur.bound + taken
    ↔ size = taken ∨ cur.free + cur.bound + taken = pool.size
        ∧ pool.size ≤ sizeT (cur.free + cur.bound + size)
  := by
  simp only [sizeT, sizeModulus] at hpool hsize ⊢
  by_cases hfull : pool.size ≤ sizeT (cur.free + cur.bound + size)
  · rw [creditFirst, if_pos hfull]
    simp only [sizeT, sizeModulus] at hfull ⊢
    omega
  · rw [creditFirst, if_neg hfull]
    simp only [sizeT, sizeModulus] at hfull
    split
    · simp only [sizeT, sizeModulus]
      omega
    · simp only [sizeT, sizeModulus]
      omega

/-- A block given back is credited with what it took exactly where it returns that. -/
theorem free_agrees_iff {s : PoolState} (h : s.SizesInv) {b : Block} (hb : b ∈ s.live) :
  (∃ heap pool, s.pool.free s.heap b.addr = some (heap, pool)
      ∧ pool.total = s.pool.total + b.taken)
    ↔ s.ReturnsTaken b
  := by
  have hpos := h.taken_pos hb
  have haddr : b.addr - sizeofSize = b.base := Nat.add_sub_cancel ..
  have hcredited : s.pool.creditedSize (s.heap.mem.loadSize b.addr)
      = roundUp s.pool.quantum (s.heap.mem.loadSize b.addr) :=
    creditedSize_eq h.quantum_pos (Memory.loadSize_lt _ _)
  cases hlocked : s.pool.locked with
  | true => simp [free, ReturnsTaken, hlocked]
  | false =>
    rcases h.chunk with hnil | ⟨cur, hcur, -, haccounts⟩
    · simp [free_nil hnil hlocked, ReturnsTaken, total, hnil]
      omega
    · rw [free_singleton hcur hlocked, haddr, hcredited]
      have htotal : s.pool.total = cur.free + cur.bound := by simp [total, hcur]
      by_cases hholds : s.pool.holds cur b.base = true
      · have hroom : cur.free + cur.bound + b.taken ≤ s.pool.size := by
          have := haccounts.sum_le
          have := taken_le_takenIn hb hholds
          omega
        have hiff := credit_agrees_iff b.base h.size_lt
          (roundUp_lt h.quantum_lt (s.heap.mem.loadSize b.addr)) hroom
        rw [if_pos hholds, htotal]
        constructor
        · rintro ⟨heap, pool, hfree, hsum⟩
          cases hfree
          rw [total, List.map_singleton, List.sum_singleton] at hsum
          exact ⟨hlocked, cur, by simp [hcur], hholds, hiff.mp hsum⟩
        · rintro ⟨-, cur', hcur', -, hword⟩
          obtain rfl : cur = cur' := by simpa [hcur] using hcur'
          refine ⟨_, _, rfl, ?_⟩
          rw [total, List.map_singleton, List.sum_singleton]
          apply hiff.mpr hword
      · rw [if_neg hholds, htotal]
        constructor
        · rintro ⟨heap, pool, hfree, hsum⟩
          cases hfree
          change s.pool.total = _ at hsum
          omega
        · rintro ⟨-, cur', hcur', hholds', -⟩
          obtain rfl : cur = cur' := by simpa [hcur] using hcur'
          apply absurd hholds' hholds

/-- A request that fits gets a block exactly where it is granted. -/
theorem alloc_returns_iff {s : PoolState} {size : Nat} {mallocs : Mallocs}
    (hfits : s.Fits (.alloc size mallocs)) :
  (∃ addr s', machine.step s (.alloc size mallocs) = some (some addr, s'))
    ↔ s.pool.Grants size mallocs
  := by
  constructor
  · rintro ⟨addr, s', hstep⟩
    have hlocked : s.pool.locked = false := by
      by_contra hlocked
      rw [Bool.not_eq_false] at hlocked
      simp [machine, alloc, hlocked] at hstep
    simp only [machine] at hstep
    split at hstep
    · cases hstep
    · cases hstep
    · rename_i block heap pool halloc
      obtain ⟨hnone, -⟩ | ⟨cur, next, heap₁, hsize, htake, -⟩ := alloc_cases halloc
      · cases hnone
      · refine ⟨hlocked, hsize, ?_⟩
        obtain ⟨hchunk, hle, -⟩ | ⟨hnew, hfirst, -⟩ := takeFrom_cases htake
        · left
          use cur, by simp [hchunk]
        · right
          refine ⟨hnew, ?_⟩
          by_contra hnone
          obtain ⟨first, hmem, hle⟩ := hfits.2 hsize hnew (by simpa using hnone)
          have := hfirst first hmem
          omega
  · intro h
    obtain ⟨cur, next, heap, htake⟩ := h.takeFrom s.heap
    exact ⟨_, _, step_alloc (alloc_of_takeFrom h.1 h.2.1 htake)⟩

/-- The sizes of a call agree exactly where it keeps them. -/
theorem sizesAgree_iff {s : PoolState} (h : s.SizesInv) {e : PoolEvent} (hfits : s.Fits e) :
  s.SizesAgree e ↔ s.KeepsSizes e
  := by
  cases e with
  | alloc size mallocs =>
    have htaken : s.pool.takenSize size
        = (if size = 0 then s.pool.quantum else size) + sizeofSize := sizeT_of_lt hfits.1
    rw [SizesAgree, KeepsSizes, ← alloc_returns_iff hfits, htaken]
    constructor
    · rintro h ⟨addr, s', hstep⟩
      apply h addr s' hstep
    · intro h addr s' hstep
      apply h ⟨addr, s', hstep⟩
  | free addr =>
    apply forall₂_congr
    intro b hb
    apply imp_congr_right
    rintro rfl
    apply free_agrees_iff h hb
  | write addr bytes => exact Iff.rfl

/-! ### Runs -/

theorem free_quantum {pool pool' : MemPool} {heap heap' : Heap} {start : Nat}
    (h : pool.free heap start = some (heap', pool')) :
  pool'.quantum = pool.quantum
  := by
  simp only [free] at h
  split at h
  · cases h
  · split at h
    · cases h
      rfl
    · cases h
      rfl
    · split at h
      · cases h
        rfl
      · cases h
        rfl

theorem step_quantum {s s' : PoolState} {e : PoolEvent} {answer : Option Nat}
    (hstep : machine.step s e = some (answer, s')) :
  s'.pool.quantum = s.pool.quantum
  := by
  cases e with
  | alloc size mallocs =>
    obtain rfl | ⟨cur, next, heap, mem, -, -, rfl⟩ := step_alloc_cases hstep
    · rfl
    · rfl
  | free addr =>
    obtain ⟨heap, pool, hfree, rfl⟩ := step_free hstep
    apply free_quantum hfree
  | write addr bytes =>
    cases hstep
    rfl

/-- A call that keeps the sizes keeps the accounts. -/
theorem step_sizesInv {s s' : PoolState} {e : PoolEvent} {answer : Option Nat} (h : s.SizesInv)
    (hadmissible : s.Admissible e) (hfits : s.Fits e) (hkeeps : s.KeepsSizes e)
    (hstep : machine.step s e = some (answer, s')) :
  s'.SizesInv
  := by
  have hquantum := step_quantum hstep
  have hinv : s'.Inv := by
    cases e with
    | alloc size mallocs => apply step_inv h.toInv hadmissible hfits hstep
    | free addr =>
      obtain ⟨heap, pool, b, live₁, live₂, rfl, hlive, hfree, rfl⟩ :=
        step_free_live hadmissible hstep
      have hmem : b ∈ s.live := by simp [hlive]
      obtain ⟨-, cur, hcur, -, hword⟩ := hkeeps b hmem rfl
      apply h.release hlive _ hfree
      intro cur' hcur'
      obtain rfl : cur' = cur := by
        obtain hnil | ⟨first, hchunk, -, -⟩ := h.chunk
        · simp [hnil] at hcur
        · simp only [hchunk, List.head?_cons, Option.mem_some_iff] at hcur
          simp only [hchunk, List.mem_singleton] at hcur'
          rw [hcur', hcur]
      rw [creditedSize_eq h.quantum_pos (Memory.loadSize_lt _ _)]
      use b.taken, le_rfl
      obtain hword | ⟨hall, hlarge⟩ := hword
      · rw [hword]
      · have hsize := sizeT_of_lt h.size_lt
        rw [creditFirst, if_pos hlarge, creditFirst, hall, hsize, if_pos le_rfl]
    | write addr bytes => apply step_inv h.toInv hadmissible trivial hstep
  exact ⟨hinv, hquantum ▸ h.quantum_pos, hquantum ▸ h.quantum_lt⟩

theorem start_sizesInv {quantum : Nat} (hquantum : quantum < sizeModulus) (size : Nat)
    (mem : Memory) :
  (start size quantum mem).SizesInv
  := by
  refine ⟨start_inv size quantum mem, ?_, ?_⟩
  · simp only [start, init]
    split
    · decide
    · omega
  · simp only [start, init]
    split
    · decide
    · exact hquantum

/-- Along a run whose requests fit, every block takes a multiple of the quantum and is credited
with what it took, exactly where every call keeps the sizes. -/
theorem run_sizes_agree_iff {size quantum : Nat} {mem : Memory} {es : List PoolEvent}
    (hquantum : quantum < sizeModulus)
    (hadmissible : machine.Meets Admissible (start size quantum mem) es)
    (hfits : machine.Meets Fits (start size quantum mem) es) :
  machine.Meets SizesAgree (start size quantum mem) es
    ↔ machine.Meets KeepsSizes (start size quantum mem) es
  := machine.meets_iff (fun _ _ hs he => sizesAgree_iff hs he.2)
    (fun _ _ _ _ hs he hq hstep => step_sizesInv hs he.1 he.2 hq hstep)
    (start_sizesInv hquantum size mem) (machine.meets_and hadmissible hfits)

theorem sizes_agree_twoBlocks :
  machine.Meets SizesAgree (start 64 8 fun _ => 0) (twoBlocks 16)
  := by
  apply (run_sizes_agree_iff (by decide) _ _).mpr
  · decide
  · decide
  · decide

/-- A block that is given back as it was handed out is credited with the quantum. -/
theorem unwritten_block_credits_less :
  ∃ es, machine.Meets Admissible (start 64 8 fun _ => 0) es
    ∧ machine.Meets Fits (start 64 8 fun _ => 0) es
    ∧ ¬ machine.Meets SizesAgree (start 64 8 fun _ => 0) es
  := by
  refine ⟨[.alloc 8 ⟨true, some 4096⟩, .free 4152], by decide, by decide, ?_⟩
  rintro ⟨-, h⟩
  obtain ⟨hcredit, -⟩ := h _ _ rfl
  obtain ⟨heap, pool, hfree, htotal⟩ := hcredit ⟨4144, 8, 16⟩ (by decide) rfl
  cases hfree
  revert htotal
  decide

end PoolState

end IFreeChat
