import IFreeChat.Basis.Machine
import IFreeChat.Basis.Memory

/-!
# The memory pool

`MemPool` is the `mem_pool_t` of `mem_pool.c`.  A pool hands out blocks from the top of its
first chunk downwards, each after a header word that holds the size taken for it.

`alloc` and `free` answer `none` when `pthread_mutex_lock` does not return, because an
earlier call left the mutex locked.  The regions that `malloc` has given for chunks and
`free` has not taken back are part of the heap.
-/

open Basis

namespace IFreeChat

/-- `mem_chunk_t`: `bound` bytes were given back of those above `free`. -/
structure Chunk where
  start : Nat
  free : Nat
  bound : Nat
deriving DecidableEq

/-- `mem_pool_t`, and whether its mutex is locked between two calls. -/
structure MemPool where
  size : Nat
  quantum : Nat
  chunk : List Chunk
  locked : Bool
deriving DecidableEq

/-- The memory, and the starts of the regions `malloc` has given for chunks that `free`
has not taken back. -/
structure Heap where
  mem : Memory
  regions : List Nat

/-- The answers of `malloc` to a call: whether there is room for a `mem_chunk_t`, and the
start of the region for a chunk. -/
structure Mallocs where
  chunk : Bool
  start : Option Nat

namespace MemPool

/-- `sizeof(size_t)`. -/
def sizeofSize : Nat := 8

/-- `MINALIGN`. -/
def minAlign : Nat := 8

/-- `CHUNK_DEFAULT_SIZE`. -/
def chunkDefaultSize : Nat := 32 * 1024

/-- `mem_pool_init`. -/
def init (size quantum : Nat) : MemPool where
  size :=
    if size = 0 then chunkDefaultSize
    else sizeT (size + minAlign - 1) - sizeT (size + minAlign - 1) % minAlign
  quantum := if quantum = 0 then minAlign else quantum
  chunk := []
  locked := false

/-- The bytes a call asking for `size` takes, its header included. -/
def takenSize (pool : MemPool) (size : Nat) : Nat :=
  sizeT ((if size = 0 then pool.quantum else size) + sizeofSize)

/-- The chunk a call taking `size` bytes takes them from and the chunks after it: the first
one, or a new one where `malloc` has room for its `mem_chunk_t`. -/
def takeFrom (pool : MemPool) (heap : Heap) (size : Nat) (mallocs : Mallocs) :
    Option (Chunk × List Chunk × Heap) :=
  let new : Option (Chunk × List Chunk × Heap) :=
    if mallocs.chunk then
      -- the region is not checked for `NULL`
      some ({ start := mallocs.start.getD 0, free := pool.size, bound := 0 }, [],
        { heap with regions := mallocs.start.toList ++ heap.regions })
    else none
  match pool.chunk with
  | [] => new
  | cur :: next => if cur.free < size then new else some (cur, next, heap)

/-- `mem_pool_alloc`: the block, and the heap and the pool after the call. -/
def alloc (pool : MemPool) (heap : Heap) (size : Nat) (mallocs : Mallocs) :
    Option (Option Nat × Heap × MemPool) :=
  let size := pool.takenSize size
  if pool.locked then none
  else if pool.size < size then some (none, heap, { pool with locked := true })
  else
    match pool.takeFrom heap size mallocs with
    | none => some (none, heap, { pool with locked := true })
    | some (cur, next, heap) =>
        let start := cur.start + (cur.free - size)
        some (some (start + sizeofSize),
          { heap with mem := heap.mem.storeSize start size },
          { pool with chunk := { cur with free := cur.free - size } :: next })

/-- A call asking for `size` bytes gets them: the mutex is free, and the bytes are there in
the first chunk or in a new one. -/
def Grants (pool : MemPool) (size : Nat) (mallocs : Mallocs) : Prop :=
  pool.locked = false ∧ pool.takenSize size ≤ pool.size
    ∧ ((∃ cur ∈ pool.chunk.head?, pool.takenSize size ≤ cur.free)
      ∨ (mallocs.chunk = true ∧ mallocs.start.isSome))

instance (pool : MemPool) (size : Nat) (mallocs : Mallocs) :
    Decidable (pool.Grants size mallocs) :=
  inferInstanceAs (Decidable (_ ∧ _))

/-- Whether the address lies in the chunk `cur`. -/
def holds (pool : MemPool) (cur : Chunk) (addr : Nat) : Bool :=
  decide (cur.start ≤ addr) && decide (addr < cur.start + pool.size)

/-- The bytes a call that finds the size word `size` gives back. -/
def creditedSize (pool : MemPool) (size : Nat) : Nat :=
  if size = 0 then pool.quantum
  else if 1 < pool.quantum ∧ size % pool.quantum ≠ 0 then
    sizeT (size + (pool.quantum - size % pool.quantum))
  else size

/-- The chunk `cur` after `size` bytes at `addr` were given back to it, as the first one
of the pool. -/
def creditFirst (pool : MemPool) (cur : Chunk) (addr size : Nat) : Chunk :=
  if pool.size ≤ sizeT (cur.free + cur.bound + size) then
    { cur with free := pool.size, bound := 0 }
  else if addr = cur.start + cur.free then { cur with free := sizeT (cur.free + size) }
  else { cur with bound := sizeT (cur.bound + size) }

/-- `mem_pool_free`: the heap and the pool after the call.  The size word is read at the
start of the block, not at its header. -/
def free (pool : MemPool) (heap : Heap) (start : Nat) : Option (Heap × MemPool) :=
  let addr := start - sizeofSize
  let size := pool.creditedSize (heap.mem.loadSize start)
  if pool.locked then none
  else
    match pool.chunk.span fun cur => !pool.holds cur addr with
    | (_, []) => some (heap, { pool with locked := true })
    | ([], cur :: next) =>
        some (heap, { pool with chunk := pool.creditFirst cur addr size :: next })
    | (first :: between, cur :: next) =>
        let cur := { cur with bound := sizeT (cur.bound + size) }
        if pool.size ≤ sizeT (cur.free + cur.bound) then
          some ({ heap with regions := heap.regions.erase cur.start },
            { pool with chunk := first :: between ++ next })
        else
          -- the chunk moves behind the first one, where it is when `between` is empty
          some (heap, { pool with chunk := first :: cur :: between ++ next })

/-- The loop of `mem_pool_destroy` over the chunks: the starts it calls `free` with, in
order, and the regions that are left.  `free(NULL)` does nothing. -/
def destroyLoop : List Chunk → List Nat → List Nat × List Nat
  | [], regions => ([], regions)
  | cur :: next, regions =>
      let (freed, left) := destroyLoop next (regions.erase cur.start)
      (cur.start :: freed, left)

/-- `mem_pool_destroy`. -/
def destroy (pool : MemPool) (heap : Heap) : Option (List Nat × Heap) :=
  if pool.locked then none
  else
    let (freed, left) := destroyLoop pool.chunk heap.regions
    some (freed, { heap with regions := left })

end MemPool

/-! ### Blocks and their users -/

/-- A block the pool has handed out for a request of `request` bytes: `taken` bytes from
`base` on, its header included. -/
structure Block where
  base : Nat
  request : Nat
  taken : Nat
deriving DecidableEq

/-- The address the user has of a block. -/
def Block.addr (b : Block) : Nat := b.base + MemPool.sizeofSize

/-- A pool, the heap, and the blocks handed out and not given back. -/
structure PoolState where
  pool : MemPool
  heap : Heap
  live : List Block

/-- What the users of a pool do: ask for `size` bytes, give a block back, or write into
one. -/
inductive PoolEvent where
  | alloc (size : Nat) (mallocs : Mallocs)
  | free (addr : Nat)
  | write (addr : Nat) (bytes : List UInt8)

namespace PoolState

/-- A pool after `mem_pool_init` on the memory `mem`. -/
def start (size quantum : Nat) (mem : Memory) : PoolState where
  pool := MemPool.init size quantum
  heap := { mem := mem, regions := [] }
  live := []

/-- The machine of a pool and its users; an allocation answers with its block. -/
def machine : Machine PoolState PoolEvent (Option Nat) where
  step s
    | .alloc size mallocs =>
        match s.pool.alloc s.heap size mallocs with
        | none => none
        | some (none, heap, pool) => some (none, { s with pool, heap })
        | some (some addr, heap, pool) =>
            some (some addr, {
              pool, heap
              live := ⟨addr - MemPool.sizeofSize, size, s.pool.takenSize size⟩ :: s.live })
    | .free addr =>
        match s.pool.free s.heap addr with
        | none => none
        | some (heap, pool) =>
            some (none, { pool, heap, live := s.live.eraseP fun b => b.addr = addr })
    | .write addr bytes =>
        some (none, { s with heap := { s.heap with mem := s.heap.mem.write addr bytes } })

/-- What the users may do and `malloc` may answer: a size is one of `size_t`, a region
given for a chunk is new, only a live block is given back, and a write stays within the
bytes asked for or outside all chunks. -/
def Admissible (s : PoolState) : PoolEvent → Prop
  | .alloc size mallocs => size < sizeModulus ∧ ∀ start ∈ mallocs.start,
      start + s.pool.size ≤ sizeModulus
        ∧ ∀ r ∈ s.heap.regions, Apart start s.pool.size r s.pool.size
  | .free addr => ∃ b ∈ s.live, b.addr = addr
  | .write addr bytes =>
      (∃ b ∈ s.live, b.addr ≤ addr ∧ addr + bytes.length ≤ b.addr + b.request)
        ∨ ∀ r ∈ s.heap.regions, Apart addr bytes.length r s.pool.size

instance (s : PoolState) : ∀ e, Decidable (s.Admissible e)
  | .alloc size mallocs =>
      inferInstanceAs (Decidable (size < sizeModulus ∧ ∀ start ∈ mallocs.start, _))
  | .free addr => inferInstanceAs (Decidable (∃ b ∈ s.live, b.addr = addr))
  | .write _ _ => inferInstanceAs (Decidable (_ ∨ ∀ r ∈ s.heap.regions, _))

/-- Every live block has the bytes asked for, lies inside one region, and is disjoint from
every other one, their headers included. -/
structure Safe (s : PoolState) : Prop where
  usable : ∀ b ∈ s.live, b.request + MemPool.sizeofSize ≤ b.taken
  inside : ∀ b ∈ s.live, ∃ r ∈ s.heap.regions,
    r ≤ b.base ∧ b.base + b.taken ≤ r + s.pool.size
  disjoint : s.live.Pairwise fun b b' => Apart b.base b.taken b'.base b'.taken

end PoolState

end IFreeChat
