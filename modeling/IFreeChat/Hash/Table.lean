import IFreeChat.Basis.FiniteMap
import IFreeChat.MemPool.Pool

/-!
# The hash table

`Hash` is the `hash_t` of `hash.c`: an array of `1 + hash_size` buckets in a block of the
pool, each the address of an entry or `NULL`.  An entry is a block of `malloc` that holds
the address of its key, its value and a node of a doubly linked ring; the key is a copy in
a block of the pool.  All of them are bytes of the one memory.

An operation is `none` when it does not return: on a locked mutex, through a `NULL`
pointer, or in a ring that does not come back to its head.
-/

open Basis

namespace IFreeChat

/-! ### Doubly linked rings -/

namespace Dlist

/-- The offset of `prev` in a `dlist_t`. -/
def offsetPrev : Nat := 0

/-- The offset of `next` in a `dlist_t`. -/
def offsetNext : Nat := 8

/-- `init_dlist_node`. -/
def initNode (mem : Memory) (node : Nat) : Memory :=
  (mem.storeSize (node + offsetNext) node).storeSize (node + offsetPrev) node

/-- `__dlist_add`. -/
def addBetween (mem : Memory) (node prev next : Nat) : Memory :=
  let mem := mem.storeSize (next + offsetPrev) node
  let mem := mem.storeSize (node + offsetNext) next
  let mem := mem.storeSize (node + offsetPrev) prev
  mem.storeSize (prev + offsetNext) node

/-- `dlist_add_tail`. -/
def addTail (mem : Memory) (node head : Nat) : Memory :=
  addBetween mem node (mem.loadSize (head + offsetPrev)) head

/-- `__dlist_del`. -/
def delBetween (mem : Memory) (prev next : Nat) : Memory :=
  (mem.storeSize (next + offsetPrev) prev).storeSize (prev + offsetNext) next

/-- `dlist_del`. -/
def del (mem : Memory) (node : Nat) : Memory :=
  let mem := delBetween mem (mem.loadSize (node + offsetPrev))
    (mem.loadSize (node + offsetNext))
  initNode mem node

/-- The first node from `pos` on that `test` accepts, in the loop of `dlist_foreach` up to
`head`; `none` when the loop takes more than `fuel` steps. -/
def foreachFind (mem : Memory) (head : Nat) (test : Nat → Bool) :
    (fuel pos : Nat) → Option (Option Nat)
  | 0, _ => none
  | fuel + 1, pos =>
      if pos = head then some none
      else if test pos then some (some pos)
      else foreachFind mem head test fuel (mem.loadSize (pos + offsetNext))

end Dlist

/-! ### Keys -/

/-- `KEY_INT` and `KEY_STR`. -/
inductive KeyType where
  | int
  | str
deriving DecidableEq

/-- The strings: no byte is `NUL`, and the length is an `int`. -/
def CString : Type := { s : List UInt8 // 0 ∉ s ∧ s.length < 2 ^ 31 }

instance : DecidableEq CString := inferInstanceAs (DecidableEq (Subtype _))

/-- What a key of a type points to. -/
def Key : KeyType → Type
  | .int => UInt32
  | .str => CString

instance : (ktype : KeyType) → DecidableEq (Key ktype)
  | .int => inferInstanceAs (DecidableEq UInt32)
  | .str => inferInstanceAs (DecidableEq CString)

/-- The bytes `hash_entry_set_key` copies. -/
def Key.bytes : {ktype : KeyType} → Key ktype → List UInt8
  | .int, key => Memory.bytesOf 4 (UInt32.toNat key)
  | .str, key => Subtype.val key ++ [0]

/-- `strcmp` of the string at `a` with `s` answers `0`. -/
def stringEqual (mem : Memory) (a : Nat) : List UInt8 → Bool
  | [] => mem a = 0
  | c :: s => mem a = c && stringEqual mem (a + 1) s

/-- `hash_key_equal`. -/
def hashKeyEqual (mem : Memory) (k1 : Nat) : {ktype : KeyType} → Key ktype → Bool
  | .int, key => mem.read k1 4 = @Key.bytes .int key
  | .str, key => stringEqual mem k1 (Subtype.val key)

/-- `hash_integer`. -/
def hashInteger (key : UInt32) : UInt32 :=
  let key := key + ~~~(key <<< 15)
  let key := key ^^^ (key >>> 10)
  let key := key + (key <<< 3)
  let key := key ^^^ (key >>> 6)
  let key := key + ~~~(key <<< 11)
  key ^^^ (key >>> 16)

/-- `hash_string`. -/
def hashString (buf : List UInt8) : UInt32 :=
  buf.foldl (fun hash c => (hash <<< 5) + hash + c.toUInt32) 5381

/-! ### The table -/

/-- `hash_t`. -/
structure Hash where
  hashEntry : Nat
  hashSize : Nat
  ktype : KeyType

/-- The pool and the heap, and the blocks `malloc` has given for entries. -/
structure HashState where
  pool : MemPool
  heap : Heap
  entries : List Nat

/-- The answers of `malloc` to an insertion: the entry, and those to the pool. -/
structure HashMallocs where
  entry : Option Nat
  pool : Mallocs

namespace Hash

/-- `sizeof(hash_t)`. -/
def sizeofHash : Nat := 24

/-- `sizeof(hash_entry_t)`. -/
def sizeofEntry : Nat := 32

/-- The offset of `key` in a `hash_entry_t`. -/
def offsetKey : Nat := 0

/-- The offset of `val` in a `hash_entry_t`. -/
def offsetVal : Nat := 8

/-- The offset of `node` in a `hash_entry_t`. -/
def offsetNode : Nat := 16

/-- The size of the block `create_hash` asks for. -/
def createSize (hsize : Nat) : Nat := sizeT (sizeofHash + 8 * (1 + hsize))

/-- `create_hash`. -/
def create (pool : MemPool) (heap : Heap) (hsize : Nat) (ktype : KeyType)
    (mallocs : Mallocs) : Option (Hash × HashState) :=
  match pool.alloc heap (createSize hsize) mallocs with
  | some (some base, heap, pool) =>
      let mem := heap.mem.write base (List.replicate (createSize hsize) 0)
      some ({ hashEntry := base + sizeofHash, hashSize := hsize, ktype },
        { pool, heap := { heap with mem }, entries := [] })
  | _ => none

/-- The memory once `hash_entry_set_key`, with a block at `addr`, and `hash_entry_set_val`
have filled the entry. -/
def setEntry (mem : Memory) (entry addr : Nat) {ktype : KeyType} (key : Key ktype)
    (val : Nat) : Memory :=
  let mem := mem.storeSize (entry + offsetKey) addr
  let mem := mem.write addr key.bytes
  mem.storeSize (entry + offsetVal) val

/-- The memory once the entry was stored in its bucket and, the bucket not being empty
then, added to the ring of the bucket. -/
def putEntry (mem : Memory) (slot entry : Nat) : Memory :=
  let mem := mem.storeSize slot entry
  if mem.loadSize slot = 0 then mem.storeSize slot entry
  else Dlist.addTail mem (entry + offsetNode) (mem.loadSize slot + offsetNode)

variable (h : Hash)

/-- `hash_index`. -/
def hashIndex (key : Key h.ktype) : Nat :=
  let idx : UInt32 :=
    match h.ktype, key with
    | .int, key => hashInteger key
    | .str, key => hashInteger (hashString (Subtype.val key))
  idx.toNat &&& h.hashSize

/-- The address of `h->hash_entry[idx]`. -/
def slot (idx : Nat) : Nat := h.hashEntry + 8 * idx

/-- `hash_insert`: the return code and the state after it. -/
def insert (s : HashState) (key : Key h.ktype) (val : Nat) (mallocs : HashMallocs) :
    Option (Int × HashState) :=
  match mallocs.entry with
  | none => none
  | some entry =>
      let heap := { s.heap with mem := Dlist.initNode s.heap.mem (entry + offsetNode) }
      match s.pool.alloc heap key.bytes.length mallocs.pool with
      | some (some addr, heap, pool) =>
          let mem := setEntry heap.mem entry addr key val
          let mem := putEntry mem (h.slot (h.hashIndex key)) entry
          some (0, { pool, heap := { heap with mem }, entries := entry :: s.entries })
      | _ => none

/-- `hash_entry_free`. -/
def entryFree (s : HashState) (entry : Nat) : Option HashState :=
  let key := s.heap.mem.loadSize (entry + offsetKey)
  let freed := if key = 0 then some (s.heap, s.pool) else s.pool.free s.heap key
  match freed with
  | none => none
  | some (heap, pool) =>
      match pool.free heap entry with
      | none => none
      | some (heap, pool) => some { s with heap, pool }

/-- The entry of `key` in the ring of `entry`, past `entry` itself. -/
def searchRing (s : HashState) (entry : Nat) (key : Key h.ktype) : Option (Option Nat) :=
  let mem := s.heap.mem
  Dlist.foreachFind mem (entry + offsetNode)
    (fun p => hashKeyEqual mem (mem.loadSize (p - offsetNode + offsetKey)) key)
    (s.entries.length + 1) (mem.loadSize (entry + offsetNode + Dlist.offsetNext))

/-- `hash_del`: the return code, what `*val` is set to, and the state after it. -/
def del (s : HashState) (key : Key h.ktype) : Option ((Int × Option Nat) × HashState) :=
  let mem := s.heap.mem
  let slot := h.slot (h.hashIndex key)
  let entry := mem.loadSize slot
  if entry = 0 then some ((-1, none), s)
  else if hashKeyEqual mem (mem.loadSize (entry + offsetKey)) key then
    match entryFree s entry with
    | none => none
    | some s =>
        some ((0, some (mem.loadSize (entry + offsetVal))),
          { s with heap := { s.heap with mem := s.heap.mem.storeSize slot 0 } })
  else
    match h.searchRing s entry key with
    | none => none
    | some none => some ((-1, none), s)
    | some (some p) =>
        let next := p - offsetNode
        let s' := { s with heap := { s.heap with mem := Dlist.del mem p } }
        match entryFree s' next with
        | none => none
        | some s => some ((0, some (mem.loadSize (next + offsetVal))), s)

/-- `hash_find`: the return code and what `*val` is set to. -/
def find (s : HashState) (key : Key h.ktype) : Option (Int × Option Nat) :=
  let mem := s.heap.mem
  let entry := mem.loadSize (h.slot (h.hashIndex key))
  if entry = 0 then some (-1, none)
  else if hashKeyEqual mem (mem.loadSize (entry + offsetKey)) key then
    some (0, some (mem.loadSize (entry + offsetVal)))
  else
    match h.searchRing s entry key with
    | none => none
    | some none => some (-1, none)
    | some (some p) => some (0, some (mem.loadSize (p - offsetNode + offsetVal)))

/-- The machine of the operations on a table. -/
def machine :
    Machine HashState (MapOp (Key h.ktype) Nat HashMallocs) (Int × Option Nat) where
  step s
    | .insert key val mallocs =>
        (h.insert s key val mallocs).map fun r => ((r.1, none), r.2)
    | .del key => h.del s key
    | .find key => (h.find s key).map fun answer => (answer, s)

end Hash

end IFreeChat
