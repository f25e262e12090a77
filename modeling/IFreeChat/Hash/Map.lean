import IFreeChat.Hash.Table
import IFreeChat.MemPool.Safety

/-!
# The hash table as a finite map

A bucket of the table is empty, or holds one entry alone in its ring.  As long as a new key
meets an empty bucket, the pool grants the memory for it, and the mutex of the pool is free
when it is needed, the table answers as a finite map does (`run_finite_map`).

An insertion into a bucket that holds an entry loses that entry, and a deletion leaves the
mutex of the pool locked, since the entry it gives back is no block of the pool.
-/

open Basis

namespace IFreeChat

/-! ### Keys in memory -/

theorem read_succ (mem : Memory) (a n : Nat) :
  mem.read a (n + 1) = mem a :: mem.read (a + 1) n
  := by
  rw [Memory.read, List.range_succ_eq_map, List.map_cons, List.map_map, Nat.add_zero]
  congr 1
  apply List.map_congr_left
  intro i _
  simp only [Function.comp, Nat.succ_eq_add_one]
  congr 1
  omega

/-- Two strings of which one is stored at `a` compare equal when they are. -/
theorem stringEqual_iff :
  ∀ {mem : Memory} {a : Nat} (s s' : List UInt8), 0 ∉ s → 0 ∉ s' →
    mem.read a (s.length + 1) = s ++ [0] → (stringEqual mem a s' = true ↔ s = s')
  | mem, a, [], [], _, _, hread => by
      rw [read_succ] at hread
      simp [stringEqual, (List.cons.inj hread).1]
  | mem, a, [], c' :: s', _, hs', hread => by
      rw [read_succ] at hread
      have hne : (0 : UInt8) ≠ c' := fun h => hs' (h ▸ List.mem_cons_self)
      simp [stringEqual, (List.cons.inj hread).1, hne]
  | mem, a, c :: s, [], hs, _, hread => by
      rw [List.length_cons, read_succ] at hread
      have hne : c ≠ 0 := fun h => hs (h ▸ List.mem_cons_self)
      simp [stringEqual, (List.cons.inj hread).1, hne]
  | mem, a, c :: s, c' :: s', hs, hs', hread => by
      rw [List.length_cons, read_succ, List.cons_append] at hread
      obtain ⟨hhead, htail⟩ := List.cons.inj hread
      have ih := stringEqual_iff s s' (fun h => hs (List.mem_cons_of_mem c h))
        (fun h => hs' (List.mem_cons_of_mem c' h)) htail
      rw [stringEqual, Bool.and_eq_true, ih, hhead, decide_eq_true_eq, List.cons.injEq]

/-- A key compares equal to the one stored at `a` when it is that one. -/
theorem hashKeyEqual_iff {mem : Memory} {a : Nat} :
  ∀ {ktype : KeyType} {key : Key ktype} (key' : Key ktype),
    mem.read a key.bytes.length = key.bytes → (hashKeyEqual mem a key' = true ↔ key = key')
  | .int, key, key', hread => by
      have hbytes : mem.read a 4 = Memory.bytesOf 4 (UInt32.toNat key) := by
        have hlength : (@Key.bytes .int key).length = 4 := Memory.bytesOf_length 4 _
        rw [hlength] at hread
        apply hread
      rw [hashKeyEqual, hbytes, decide_eq_true_eq]
      constructor
      · intro h
        have hof := congrArg Memory.ofBytes h
        simp only [Key.bytes, Memory.ofBytes_bytesOf] at hof
        have hlt := UInt32.toNat_lt key
        have hlt' := UInt32.toNat_lt key'
        apply UInt32.toNat_inj.mp
        omega
      · rintro rfl
        rfl
  | .str, key, key', hread => by
      have hread' : mem.read a (key.val.length + 1) = key.val ++ [0] := by
        have hlength : (@Key.bytes .str key).length = key.val.length + 1 := by
          simp [Key.bytes]
        rw [hlength] at hread
        apply hread
      rw [hashKeyEqual, stringEqual_iff key.val key'.val key.property.1 key'.property.1 hread']
      apply Subtype.val_inj

theorem bytes_length_pos :
  ∀ {ktype : KeyType} (key : Key ktype), 0 < key.bytes.length
  | .int, _ => by
      simp [Key.bytes]
  | .str, _ => by
      simp [Key.bytes]

theorem bytes_length_le :
  ∀ {ktype : KeyType} (key : Key ktype), key.bytes.length ≤ 2 ^ 31
  | .int, _ => by
      simp [Key.bytes]
  | .str, key => by
      have := key.property.2
      simp only [Key.bytes, List.length_append, List.length_singleton]
      omega

namespace Hash

variable {h : Hash}

theorem hashIndex_le (key : Key h.ktype) :
  h.hashIndex key ≤ h.hashSize
  := Nat.and_le_right

/-! ### Buckets -/

/-- The entry at `entry` holds `key` and `val`, alone in its ring. -/
structure EntryAt (mem : Memory) (entry : Nat) {ktype : KeyType} (key : Key ktype)
    (val : Nat) : Prop where
  read_key : mem.read (mem.loadSize (entry + offsetKey)) key.bytes.length = key.bytes
  load_val : mem.loadSize (entry + offsetVal) = val
  load_next : mem.loadSize (entry + offsetNode + Dlist.offsetNext) = entry + offsetNode

/-- The bucket `idx` holds what `m` has under the keys of that index: nothing, or one key,
whose entry satisfies `guard`. -/
def Bucket (h : Hash) (guard : Nat → Key h.ktype → Prop) (mem : Memory)
    (m : Key h.ktype → Option Nat) (idx : Nat) : Prop :=
  (mem.loadSize (h.slot idx) = 0 ∧ ∀ key, h.hashIndex key = idx → m key = none)
    ∨ ∃ key val, mem.loadSize (h.slot idx) ≠ 0 ∧ h.hashIndex key = idx ∧ m key = some val
        ∧ (∀ key', h.hashIndex key' = idx → key' ≠ key → m key' = none)
        ∧ EntryAt mem (mem.loadSize (h.slot idx)) key val
        ∧ guard (mem.loadSize (h.slot idx)) key

theorem Bucket.imp {guard guard' : Nat → Key h.ktype → Prop} {mem : Memory}
    {m : Key h.ktype → Option Nat} {idx : Nat} (hb : h.Bucket guard mem m idx)
    (himp : ∀ entry key, guard entry key → guard' entry key) :
  h.Bucket guard' mem m idx
  := by
  rcases hb with hempty | ⟨key, val, hne, hindex, hkey, hothers, hentry, hguard⟩
  · left
    apply hempty
  · right
    exact ⟨key, val, hne, hindex, hkey, hothers, hentry, himp _ _ hguard⟩

/-- The bucket of a key that is not at its head has the key nowhere else. -/
theorem searchRing_of_entryAt {s : HashState} {entry : Nat} {key : Key h.ktype} {val : Nat}
    (hentry : EntryAt s.heap.mem entry key val) (key' : Key h.ktype) :
  h.searchRing s entry key' = some none
  := by
  rw [searchRing, hentry.load_next, Dlist.foreachFind, if_pos rfl]

/-- A search in a bucket answers with what the map has. -/
theorem find_of_bucket {guard : Nat → Key h.ktype → Prop} {s : HashState}
    {m : Key h.ktype → Option Nat} {key : Key h.ktype}
    (hb : h.Bucket guard s.heap.mem m (h.hashIndex key)) :
  h.find s key = some (mapAnswer (m key))
  := by
  rcases hb with ⟨hslot, hnone⟩ | ⟨key', val, hne, -, hkey', hothers, hentry, -⟩
  · rw [find, if_pos hslot, hnone key rfl]
    rfl
  · have hequal := hashKeyEqual_iff key hentry.read_key
    rw [find, if_neg hne]
    by_cases heq : key' = key
    · subst heq
      rw [if_pos (hequal.mpr rfl), hentry.load_val, hkey']
      rfl
    · rw [if_neg (fun h => heq (hequal.mp h)), searchRing_of_entryAt hentry,
        hothers key rfl (fun h => heq h.symm)]
      rfl

/-- A deletion of an absent key changes nothing. -/
theorem del_of_absent {guard : Nat → Key h.ktype → Prop} {s : HashState}
    {m : Key h.ktype → Option Nat} {key : Key h.ktype}
    (hb : h.Bucket guard s.heap.mem m (h.hashIndex key)) (habsent : m key = none) :
  h.del s key = some ((-1, none), s)
  := by
  rcases hb with ⟨hslot, hnone⟩ | ⟨key', val, hne, -, hkey', hothers, hentry, -⟩
  · rw [del, if_pos hslot]
  · have hequal := hashKeyEqual_iff key hentry.read_key
    have hneq : key' ≠ key := by
      rintro rfl
      rw [habsent] at hkey'
      cases hkey'
    rw [del, if_neg hne, if_neg (fun h => hneq (hequal.mp h)), searchRing_of_entryAt hentry]

/-! ### The memory of an insertion -/

theorem initNode_apply_of_not_mem {mem : Memory} {node x : Nat}
    (hx : x < node ∨ node + 16 ≤ x) :
  Dlist.initNode mem node x = mem x
  := by
  simp only [Dlist.initNode, Dlist.offsetNext, Dlist.offsetPrev]
  rw [Memory.storeSize_apply_of_not_mem (by omega),
    Memory.storeSize_apply_of_not_mem (by omega)]

theorem initNode_prev {mem : Memory} {node : Nat} (hnode : node < sizeModulus) :
  (Dlist.initNode mem node).loadSize node = node
  := by
  simp only [Dlist.initNode, Dlist.offsetPrev, Nat.add_zero]
  rw [Memory.loadSize_storeSize hnode]

theorem setEntry_apply_of_not_mem {mem : Memory} {entry addr val x : Nat} {ktype : KeyType}
    {key : Key ktype} (hentry : x < entry ∨ entry + 16 ≤ x)
    (haddr : x < addr ∨ addr + key.bytes.length ≤ x) :
  setEntry mem entry addr key val x = mem x
  := by
  simp only [setEntry, offsetKey, offsetVal]
  rw [Memory.storeSize_apply_of_not_mem (by omega), Memory.write_apply_of_not_mem haddr,
    Memory.storeSize_apply_of_not_mem (by omega)]

/-- An entry just filled holds the address of its key and its value. -/
theorem setEntry_reads (mem : Memory) {entry addr val : Nat} {ktype : KeyType}
    {key : Key ktype} (haddr : addr < sizeModulus) (hval : val < sizeModulus)
    (hapart : Apart entry 16 addr key.bytes.length) :
  (setEntry mem entry addr key val).loadSize entry = addr
    ∧ (setEntry mem entry addr key val).loadSize (entry + offsetVal) = val
    ∧ (setEntry mem entry addr key val).read addr key.bytes.length = key.bytes
  := by
  simp only [setEntry, offsetKey, offsetVal, Nat.add_zero]
  refine ⟨?_, Memory.loadSize_storeSize hval, ?_⟩
  · rw [Memory.loadSize_storeSize_of_apart, Memory.loadSize_write_of_apart,
      Memory.loadSize_storeSize haddr]
    · apply hapart.symm.mono <;> omega
    · right
      omega
  · rw [Memory.storeSize, Memory.read_write_of_apart, Memory.read_write_self]
    rw [Memory.sizeBytes_length]
    apply hapart.mono <;> omega

/-- Putting an entry into a bucket adds it to its own ring. -/
theorem putEntry_eq {mem : Memory} {slot entry : Nat}
    (hentry : entry < sizeModulus) (hne : entry ≠ 0)
    (hprev : mem.loadSize (entry + offsetNode) = entry + offsetNode)
    (hapart : Apart slot 8 entry sizeofEntry) :
  putEntry mem slot entry
    = Dlist.addBetween (mem.storeSize slot entry) (entry + offsetNode) (entry + offsetNode)
        (entry + offsetNode)
  := by
  simp only [putEntry, Memory.loadSize_storeSize hentry, if_neg hne, Dlist.addTail,
    Dlist.offsetPrev, Nat.add_zero]
  rw [Memory.loadSize_storeSize_of_apart, hprev]
  simp only [Apart, offsetNode, sizeofEntry] at hapart ⊢
  omega

theorem addBetween_self_apply_of_not_mem {mem : Memory} {node x : Nat}
    (hx : x < node ∨ node + 16 ≤ x) :
  Dlist.addBetween mem node node node x = mem x
  := by
  simp only [Dlist.addBetween, Dlist.offsetPrev, Dlist.offsetNext]
  rw [Memory.storeSize_apply_of_not_mem (by omega),
    Memory.storeSize_apply_of_not_mem (by omega),
    Memory.storeSize_apply_of_not_mem (by omega),
    Memory.storeSize_apply_of_not_mem (by omega)]

theorem putEntry_apply_of_not_mem {mem : Memory} {slot entry x : Nat}
    (hentry : entry < sizeModulus) (hne : entry ≠ 0)
    (hprev : mem.loadSize (entry + offsetNode) = entry + offsetNode)
    (hapart : Apart slot 8 entry sizeofEntry)
    (hslot : x < slot ∨ slot + 8 ≤ x) (hx : x < entry + 16 ∨ entry + 32 ≤ x) :
  putEntry mem slot entry x = mem x
  := by
  rw [putEntry_eq hentry hne hprev hapart, addBetween_self_apply_of_not_mem,
    Memory.storeSize_apply_of_not_mem hslot]
  simp only [offsetNode]
  omega

/-- An entry put into a bucket is there, alone in its ring. -/
theorem putEntry_reads {mem : Memory} {slot entry : Nat}
    (hentry : entry < sizeModulus) (hne : entry ≠ 0) (hnode : entry + offsetNode < sizeModulus)
    (hprev : mem.loadSize (entry + offsetNode) = entry + offsetNode)
    (hapart : Apart slot 8 entry sizeofEntry) :
  (putEntry mem slot entry).loadSize slot = entry
    ∧ (putEntry mem slot entry).loadSize (entry + offsetNode + Dlist.offsetNext)
      = entry + offsetNode
  := by
  rw [putEntry_eq hentry hne hprev hapart]
  constructor
  · have hframe : ∀ x, slot ≤ x → x < slot + 8 →
        Dlist.addBetween (mem.storeSize slot entry) (entry + offsetNode) (entry + offsetNode)
          (entry + offsetNode) x = mem.storeSize slot entry x := by
      intro x hx hx'
      apply addBetween_self_apply_of_not_mem
      simp only [Apart, offsetNode, sizeofEntry] at hapart ⊢
      omega
    rw [Memory.loadSize_congr hframe, Memory.loadSize_storeSize hentry]
  · apply Memory.loadSize_storeSize hnode

/-- The memory after an insertion of a key whose block is `b`. -/
def insertedMem (mem : Memory) (entry : Nat) (b : Block) {ktype : KeyType} (key : Key ktype)
    (val slot : Nat) : Memory :=
  putEntry (setEntry ((Dlist.initNode mem (entry + offsetNode)).storeSize b.base b.taken)
    entry b.addr key val) slot entry

section

variable (mem : Memory) {entry : Nat} (val : Nat) {slot : Nat} {b : Block} {ktype : KeyType}
  {key : Key ktype}

theorem setEntry_prev (hentry : entry + sizeofEntry ≤ sizeModulus)
    (hb : Apart entry sizeofEntry b.base b.taken)
    (hkey : key.bytes.length + MemPool.sizeofSize ≤ b.taken) :
  (setEntry ((Dlist.initNode mem (entry + offsetNode)).storeSize b.base b.taken) entry b.addr
    key val).loadSize (entry + offsetNode) = entry + offsetNode
  := by
  simp only [Apart, sizeofEntry, MemPool.sizeofSize] at hentry hb hkey
  have hframe : ∀ x, entry + offsetNode ≤ x → x < entry + offsetNode + 8 →
      setEntry ((Dlist.initNode mem (entry + offsetNode)).storeSize b.base b.taken) entry b.addr
        key val x = Dlist.initNode mem (entry + offsetNode) x := by
    intro x hx hx'
    simp only [offsetNode] at hx hx'
    rw [setEntry_apply_of_not_mem (by omega)
        (by simp only [Block.addr, MemPool.sizeofSize]; omega),
      Memory.storeSize_apply_of_not_mem (by omega)]
  rw [Memory.loadSize_congr hframe, initNode_prev]
  simp only [offsetNode]
  omega

theorem insertedMem_apply_of_not_mem (hne : entry ≠ 0)
    (hentry : entry + sizeofEntry ≤ sizeModulus)
    (hslot : Apart slot 8 entry sizeofEntry) (hb : Apart entry sizeofEntry b.base b.taken)
    (hkey : key.bytes.length + MemPool.sizeofSize ≤ b.taken) {x : Nat}
    (hx : x < entry ∨ entry + sizeofEntry ≤ x) (hxb : x < b.base ∨ b.base + b.taken ≤ x)
    (hxslot : x < slot ∨ slot + 8 ≤ x) :
  insertedMem mem entry b key val slot x = mem x
  := by
  have hprev := setEntry_prev mem val hentry hb hkey
  simp only [sizeofEntry, MemPool.sizeofSize] at hentry hkey hx
  have hb' := bytes_length_pos key
  rw [insertedMem, putEntry_apply_of_not_mem (by omega) hne hprev hslot hxslot (by omega),
    setEntry_apply_of_not_mem (by omega)
      (by simp only [Block.addr, MemPool.sizeofSize]; omega),
    Memory.storeSize_apply_of_not_mem (by omega), initNode_apply_of_not_mem]
  simp only [offsetNode]
  omega

/-- The bucket holds the entry after an insertion, and the entry its key and value. -/
theorem insertedMem_reads (hne : entry ≠ 0)
    (hentry : entry + sizeofEntry ≤ sizeModulus) (haddr : b.addr < sizeModulus)
    (hval : val < sizeModulus)
    (hslot : Apart slot 8 entry sizeofEntry) (hb : Apart entry sizeofEntry b.base b.taken)
    (hslotb : Apart slot 8 b.base b.taken)
    (hkey : key.bytes.length + MemPool.sizeofSize ≤ b.taken) :
  (insertedMem mem entry b key val slot).loadSize slot = entry
    ∧ (insertedMem mem entry b key val slot).loadSize (entry + offsetKey) = b.addr
    ∧ EntryAt (insertedMem mem entry b key val slot) entry key val
  := by
  have hprev := setEntry_prev mem val hentry hb hkey
  have haddr' : b.base + 8 = b.addr := rfl
  simp only [sizeofEntry, MemPool.sizeofSize] at hentry hkey hb hslot
  have hnode : entry + offsetNode < sizeModulus := by
    simp only [offsetNode]
    omega
  obtain ⟨hslot', hnext⟩ := putEntry_reads (by omega) hne hnode hprev hslot
  have hkeyb : Apart entry 16 b.addr key.bytes.length := by
    apply hb.mono <;> omega
  obtain ⟨hk, hv, hread⟩ := setEntry_reads
    ((Dlist.initNode mem (entry + offsetNode)).storeSize b.base b.taken) haddr hval hkeyb
  have hframe : ∀ x, (entry ≤ x ∧ x < entry + 16) ∨ (b.addr ≤ x ∧ x < b.base + b.taken) →
      insertedMem mem entry b key val slot x
        = setEntry ((Dlist.initNode mem (entry + offsetNode)).storeSize b.base b.taken) entry
            b.addr key val x := by
    intro x hx
    simp only [Apart] at hb hslot hslotb
    apply putEntry_apply_of_not_mem (by omega) hne hprev hslot
    · omega
    · omega
  have hk' : (insertedMem mem entry b key val slot).loadSize (entry + offsetKey) = b.addr := by
    apply (Memory.loadSize_congr fun x hx hx' => hframe x (Or.inl ?_)).trans hk
    omega
  have hv' : (insertedMem mem entry b key val slot).loadSize (entry + offsetVal) = val := by
    apply (Memory.loadSize_congr fun x hx hx' => hframe x (Or.inl ?_)).trans hv
    simp only [offsetVal] at hx hx'
    omega
  refine ⟨hslot', hk', ?_, hv', hnext⟩
  rw [hk']
  apply (Memory.read_congr fun x hx hx' => hframe x (Or.inr ?_)).trans hread
  omega

end

/-! ### Who owns what -/

/-- The pool keeps its accounts, the array of buckets is the live block `table`, and no
entry lies in a region of the pool or in another entry. -/
structure Owns (h : Hash) (s : HashState) (live : List Block) (table : Block) : Prop where
  inv : PoolState.Inv ⟨s.pool, s.heap, live⟩
  table_mem : table ∈ live
  array_eq : h.hashEntry = table.addr + sizeofHash
  array_le : sizeofHash + 8 * (1 + h.hashSize) ≤ table.request
  entries_apart : ∀ entry ∈ s.entries, 8 ≤ entry
    ∧ ∀ r ∈ s.heap.regions, Apart (entry - 8) (8 + sizeofEntry) r s.pool.size
  entries_disjoint : s.entries.Pairwise fun e e' => Apart e sizeofEntry e' sizeofEntry

/-- An entry of the table, whose key has a live block of its own. -/
def Guard {ktype : KeyType} (s : HashState) (live : List Block) (table : Block)
    (entry : Nat) (key : Key ktype) : Prop :=
  entry ∈ s.entries ∧ ∃ b ∈ live, b ≠ table
    ∧ b.addr = s.heap.mem.loadSize (entry + offsetKey) ∧ key.bytes.length ≤ b.request

section

variable {s : HashState} {live : List Block} {table : Block}

theorem Owns.slot_within (howns : h.Owns s live table) {idx : Nat} (hidx : idx ≤ h.hashSize) :
  table.base + 8 ≤ h.slot idx ∧ h.slot idx + 8 ≤ table.base + table.taken
  := by
  have husable := howns.inv.usable table howns.table_mem
  have harray := howns.array_eq
  have hle := howns.array_le
  simp only [slot, Block.addr, MemPool.sizeofSize, sizeofHash] at *
  omega

theorem Owns.entry_apart_block (howns : h.Owns s live table) {entry : Nat} {b : Block}
    (hentry : entry ∈ s.entries) (hb : b ∈ live) :
  Apart entry sizeofEntry b.base b.taken
  := by
  obtain ⟨r, hr, hle, hge⟩ := howns.inv.inside b hb
  obtain ⟨hpos, hapart⟩ := howns.entries_apart entry hentry
  apply (hapart r hr).mono <;> omega

theorem Owns.block_apart_block (howns : h.Owns s live table) {b b' : Block}
    (hb : b ∈ live) (hb' : b' ∈ live) (hne : b ≠ b') :
  Apart b.base b.taken b'.base b'.taken
  := by
  have : Std.Symm fun b b' : Block => Apart b.base b.taken b'.base b'.taken :=
    ⟨fun _ _ => Apart.symm⟩
  apply howns.inv.disjoint.forall hb hb' hne

/-- An entry is what it was in a memory that agrees on it and on its key. -/
theorem EntryAt.congr {mem mem' : Memory} {entry val : Nat} {ktype : KeyType}
    {key : Key ktype} (hat : EntryAt mem entry key val)
    (hentry : ∀ x, entry ≤ x → x < entry + sizeofEntry → mem' x = mem x)
    (hkey : ∀ x, mem.loadSize (entry + offsetKey) ≤ x →
      x < mem.loadSize (entry + offsetKey) + key.bytes.length → mem' x = mem x) :
  mem'.loadSize (entry + offsetKey) = mem.loadSize (entry + offsetKey)
    ∧ EntryAt mem' entry key val
  := by
  have hload : ∀ offset, offset + 8 ≤ sizeofEntry →
      mem'.loadSize (entry + offset) = mem.loadSize (entry + offset) := by
    intro offset hoffset
    apply Memory.loadSize_congr
    intro x hx hx'
    apply hentry <;> omega
  have hk := hload offsetKey (by decide)
  use hk
  constructor
  · rw [hk, Memory.read_congr hkey, hat.read_key]
  · rw [hload offsetVal (by decide), hat.load_val]
  · rw [Nat.add_assoc, hload (offsetNode + Dlist.offsetNext) (by decide), ← Nat.add_assoc,
      hat.load_next]

/-- A guarded entry keeps what it holds in a memory that agrees outside the array of
buckets, a new block and a new entry. -/
theorem Bucket.congr {guard' : Nat → Key h.ktype → Prop} {mem' : Memory}
    {m m' : Key h.ktype → Option Nat} {idx : Nat}
    (hb : h.Bucket (Guard s live table) s.heap.mem m idx)
    (hslot : mem'.loadSize (h.slot idx) = s.heap.mem.loadSize (h.slot idx))
    (hm : ∀ key, h.hashIndex key = idx → m' key = m key)
    (hentry : ∀ entry ∈ s.entries, ∀ x, entry ≤ x → x < entry + sizeofEntry →
      mem' x = s.heap.mem x)
    (hkey : ∀ b ∈ live, b ≠ table → ∀ x, b.addr ≤ x → x < b.addr + b.request →
      mem' x = s.heap.mem x)
    (hguard : ∀ entry key, Guard s live table entry key →
      mem'.loadSize (entry + offsetKey) = s.heap.mem.loadSize (entry + offsetKey) →
      guard' entry key) :
  h.Bucket guard' mem' m' idx
  := by
  rcases hb with ⟨hempty, hnone⟩ | ⟨key, val, hne, hindex, hkey', hothers, hat, hguarded⟩
  · left
    rw [hslot]
    use hempty
    intro key hindex
    rw [hm key hindex, hnone key hindex]
  · right
    obtain ⟨hmem, b, hb, hbne, hbaddr, hble⟩ := hguarded
    obtain ⟨hk, hat'⟩ := hat.congr (hentry _ hmem) (by
      intro x hx hx'
      apply hkey b hb hbne <;> omega)
    rw [hslot]
    refine ⟨key, val, hne, hindex, ?_, ?_, hat', ?_⟩
    · rw [hm key hindex, hkey']
    · intro key₁ hindex₁ hne₁
      rw [hm key₁ hindex₁, hothers key₁ hindex₁ hne₁]
    · apply hguard _ _ ⟨hmem, b, hb, hbne, hbaddr, hble⟩ hk

/-! ### What an operation may assume -/

/-- What `malloc` may answer to an insertion, of a 64-bit value: a region of the pool and an
entry are new, and a word before an entry is `malloc`'s own. -/
def Admissible (h : Hash) (s : HashState) : MapOp (Key h.ktype) Nat HashMallocs → Prop
  | .insert _ val mallocs => val < sizeModulus
      ∧ (∀ start ∈ mallocs.pool.start, start + s.pool.size ≤ sizeModulus
        ∧ (∀ r ∈ s.heap.regions, Apart start s.pool.size r s.pool.size)
        ∧ ∀ e ∈ s.entries, Apart (e - 8) (8 + sizeofEntry) start s.pool.size)
      ∧ ∀ entry ∈ mallocs.entry, 8 ≤ entry ∧ entry + sizeofEntry ≤ sizeModulus
        ∧ (∀ e ∈ s.entries, Apart entry sizeofEntry e sizeofEntry)
        ∧ (∀ start ∈ mallocs.pool.start, Apart (entry - 8) (8 + sizeofEntry) start s.pool.size)
        ∧ ∀ r ∈ s.heap.regions, Apart (entry - 8) (8 + sizeofEntry) r s.pool.size
  | .del _ => True
  | .find _ => True

instance (h : Hash) (s : HashState) : ∀ op, Decidable (h.Admissible s op)
  | .insert _ _ _ => inferInstanceAs (Decidable (_ ∧ _ ∧ _))
  | .del _ => .isTrue trivial
  | .find _ => .isTrue trivial

/-- Whether the entry at the head of the bucket of `key` holds it. -/
def AtHead (h : Hash) (s : HashState) (key : Key h.ktype) : Prop :=
  let entry := s.heap.mem.loadSize (h.slot (h.hashIndex key))
  entry ≠ 0 ∧ hashKeyEqual s.heap.mem (s.heap.mem.loadSize (entry + offsetKey)) key = true

instance (h : Hash) (s : HashState) (key : Key h.ktype) : Decidable (h.AtHead s key) :=
  inferInstanceAs (Decidable (_ ∧ _))

/-- Where the table is a finite map: a new key has memory and an empty bucket, and a key is
deleted while the mutex is free and its block lies in the first chunk of the pool. -/
def Careful (h : Hash) (s : HashState) : MapOp (Key h.ktype) Nat HashMallocs → Prop
  | .insert key _ mallocs => mallocs.entry.isSome
      ∧ s.pool.Grants key.bytes.length mallocs.pool
      ∧ s.heap.mem.loadSize (h.slot (h.hashIndex key)) = 0
  | .del key => h.AtHead s key → s.pool.locked = false
      ∧ ∃ cur ∈ s.pool.chunk.head?, s.pool.holds cur (s.heap.mem.loadSize
        (s.heap.mem.loadSize (h.slot (h.hashIndex key)) + offsetKey) - MemPool.sizeofSize)
  | .find _ => True

instance (h : Hash) (s : HashState) : ∀ op, Decidable (h.Careful s op)
  | .insert _ _ _ => inferInstanceAs (Decidable (_ ∧ _ ∧ _))
  | .del _ => inferInstanceAs (Decidable (_ → _))
  | .find _ => .isTrue trivial

/-! ### Insertion -/

/-- A new entry and a block for its key are owned by the table as well. -/
theorem Owns.insert (howns : h.Owns s live table) {key : Key h.ktype} {val entry : Nat}
    {mallocs : HashMallocs} (hadmissible : h.Admissible s (.insert key val mallocs))
    (hentry : mallocs.entry = some entry) {b : Block} {heap : Heap} {pool : MemPool}
    (hsize : pool.size = s.pool.size)
    (hregions : ∀ r ∈ heap.regions, r ∈ s.heap.regions ∨ r ∈ mallocs.pool.start)
    (hinv : PoolState.Inv ⟨pool, heap, b :: live⟩) (mem : Memory) :
  h.Owns ⟨pool, { heap with mem }, entry :: s.entries⟩ (b :: live) table
  := by
  obtain ⟨-, hstart, hnew⟩ := hadmissible
  obtain ⟨hpos, -, hdisjoint, hstart', hregion⟩ := hnew entry hentry
  refine ⟨hinv.of_mem, List.mem_cons_of_mem b howns.table_mem, howns.array_eq,
    howns.array_le, ?_, List.Pairwise.cons hdisjoint howns.entries_disjoint⟩
  intro e he
  rcases List.mem_cons.mp he with rfl | he
  · use hpos
    intro r hr
    rw [hsize]
    rcases hregions r hr with hr | hr
    · apply hregion r hr
    · apply hstart' r hr
  · obtain ⟨hpos', hapart⟩ := howns.entries_apart e he
    use hpos'
    intro r hr
    rw [hsize]
    rcases hregions r hr with hr | hr
    · apply hapart r hr
    · apply (hstart r hr).2.2 e he

/-- What an insertion that is granted its memory does: `b` is the block of the key, and all
that is written lies in the bucket, in `b` and in the new entry. -/
structure Inserted (h : Hash) (s s' : HashState) (live : List Block) (table : Block)
    (key : Key h.ktype) (val entry : Nat) (b : Block) : Prop where
  entry_ne : entry ≠ 0
  entries_eq : s'.entries = entry :: s.entries
  owns : h.Owns s' (b :: live) table
  request_eq : b.request = key.bytes.length
  load_slot : s'.heap.mem.loadSize (h.slot (h.hashIndex key)) = entry
  load_key : s'.heap.mem.loadSize (entry + offsetKey) = b.addr
  entryAt : EntryAt s'.heap.mem entry key val
  frame : ∀ x, (x < entry ∨ entry + sizeofEntry ≤ x) → (x < b.base ∨ b.base + b.taken ≤ x) →
    (x < h.slot (h.hashIndex key) ∨ h.slot (h.hashIndex key) + 8 ≤ x) →
    s'.heap.mem x = s.heap.mem x

theorem insert_spec {key : Key h.ktype} {val : Nat} {mallocs : HashMallocs}
    (howns : h.Owns s live table)
    (hadmissible : h.Admissible s (.insert key val mallocs))
    (hsome : mallocs.entry.isSome) (hgrants : s.pool.Grants key.bytes.length mallocs.pool) :
  ∃ s' entry b, h.insert s key val mallocs = some (0, s')
    ∧ h.Inserted s s' live table key val entry b
  := by
  obtain ⟨entry, hentry⟩ := Option.isSome_iff_exists.mp hsome
  have hpositive := bytes_length_pos key
  have hlength := bytes_length_le key
  obtain ⟨hval, hstart, hnew⟩ := id hadmissible
  obtain ⟨hpos, hbound, -, -, -⟩ := hnew entry hentry
  have hinit : PoolState.Inv ⟨s.pool, ⟨Dlist.initNode s.heap.mem (entry + offsetNode),
      s.heap.regions⟩, live⟩ := howns.inv.of_mem
  have hpool : PoolState.Admissible ⟨s.pool, ⟨Dlist.initNode s.heap.mem (entry + offsetNode),
      s.heap.regions⟩, live⟩ (.alloc key.bytes.length mallocs.pool) := by
    constructor
    · simp only [sizeModulus]
      omega
    · intro start hs
      use (hstart start hs).1, (hstart start hs).2.1
  obtain ⟨b, heap, pool, hrequest, halloc, hmem, hsize, hregions, hinv⟩ :=
    hinit.alloc_granted hpool hgrants (by
      rw [if_neg (by omega)]
      simp only [sizeModulus, MemPool.sizeofSize]
      omega)
  have howns' := howns.insert hadmissible hentry hsize hregions hinv
    (insertedMem s.heap.mem entry b key val (h.slot (h.hashIndex key)))
  have husable := hinv.usable b List.mem_cons_self
  have hkey : key.bytes.length + MemPool.sizeofSize ≤ b.taken := hrequest ▸ husable
  have haddr : b.addr < sizeModulus := by
    obtain ⟨r, hr, hle, hge⟩ := hinv.inside b List.mem_cons_self
    have := hinv.region_le r hr
    simp only [Block.addr, MemPool.sizeofSize] at hkey hle hge this ⊢
    omega
  have hentryb := howns'.entry_apart_block List.mem_cons_self List.mem_cons_self
  obtain ⟨hle, hge⟩ := howns.slot_within (hashIndex_le key)
  have hslotentry : Apart (h.slot (h.hashIndex key)) 8 entry sizeofEntry := by
    apply (howns'.entry_apart_block List.mem_cons_self howns'.table_mem).symm.mono <;> omega
  have hslotb : Apart (h.slot (h.hashIndex key)) 8 b.base b.taken := by
    have := (List.pairwise_cons.mp hinv.disjoint).1 table howns.table_mem
    apply this.symm.mono <;> omega
  obtain ⟨hslot, hk, hat⟩ := insertedMem_reads s.heap.mem val
    (by omega) hbound haddr hval hslotentry hentryb hslotb hkey
  have hinsert : h.insert s key val mallocs = some (0, ⟨pool, { heap with
      mem := insertedMem s.heap.mem entry b key val (h.slot (h.hashIndex key)) },
      entry :: s.entries⟩) := by
    simp only [insert, hentry, halloc, hmem]
    rfl
  have hframe : ∀ x, _ → _ → _ → insertedMem s.heap.mem entry b key val _ x = s.heap.mem x :=
    fun x => insertedMem_apply_of_not_mem s.heap.mem val (by omega) hbound hslotentry hentryb
      hkey
  generalize insertedMem s.heap.mem entry b key val (h.slot (h.hashIndex key)) = mem at *
  exact ⟨_, entry, b, hinsert, by omega, rfl, howns', hrequest, hslot, hk, hat, hframe⟩

section

variable {s' : HashState} {m : Key h.ktype → Option Nat} {key : Key h.ktype} {val entry : Nat}
  {b : Block}

theorem Inserted.mem_entries (hins : h.Inserted s s' live table key val entry b) :
  entry ∈ s'.entries
  := by
  rw [hins.entries_eq]
  apply List.mem_cons_self

/-- The bucket of the inserted key holds it alone. -/
theorem Inserted.bucket (hins : h.Inserted s s' live table key val entry b)
    (howns : h.Owns s live table)
    (hnone : ∀ key', h.hashIndex key' = h.hashIndex key → m key' = none) :
  h.Bucket (Guard s' (b :: live) table) s'.heap.mem (Function.update m key (some val))
    (h.hashIndex key)
  := by
  have hfresh := (List.pairwise_cons.mp hins.owns.inv.disjoint).1
  right
  rw [hins.load_slot]
  refine ⟨key, val, hins.entry_ne, rfl, Function.update_self .., ?_, hins.entryAt,
    hins.mem_entries, b, List.mem_cons_self, ?_, hins.load_key.symm, ?_⟩
  · intro key' hindex hne'
    rw [Function.update_of_ne hne', hnone key' hindex]
  · rintro rfl
    have := hins.owns.inv.taken_pos List.mem_cons_self
    rcases hfresh b howns.table_mem with h | h <;> omega
  · rw [hins.request_eq]

/-- The other buckets hold what they held. -/
theorem Inserted.bucket_of_ne (hins : h.Inserted s s' live table key val entry b)
    (howns : h.Owns s live table) {idx : Nat} (hidx : idx ≤ h.hashSize)
    (hne : h.hashIndex key ≠ idx) (hbucket : h.Bucket (Guard s live table) s.heap.mem m idx) :
  h.Bucket (Guard s' (b :: live) table) s'.heap.mem (Function.update m key (some val)) idx
  := by
  have hfresh := (List.pairwise_cons.mp hins.owns.inv.disjoint).1
  have hentry := hins.mem_entries
  have hwithin := howns.slot_within (hashIndex_le key)
  apply hbucket.congr
  · apply Memory.loadSize_congr
    intro x hx hx'
    obtain ⟨hle, hge⟩ := howns.slot_within hidx
    have h₁ := hins.owns.entry_apart_block hentry hins.owns.table_mem
    have h₂ := hfresh table howns.table_mem
    simp only [Apart] at h₁ h₂
    apply hins.frame
    · omega
    · omega
    · simp only [slot] at hx hx' ⊢
      omega
  · intro key' hindex
    apply Function.update_of_ne
    rintro rfl
    apply hne hindex
  · intro e he x hx hx'
    have hpair := hins.owns.entries_disjoint
    rw [hins.entries_eq] at hpair
    have he' : e ∈ s'.entries := by
      rw [hins.entries_eq]
      apply List.mem_cons_of_mem entry he
    have h₁ := (List.pairwise_cons.mp hpair).1 e he
    have h₂ := hins.owns.entry_apart_block he' List.mem_cons_self
    have h₃ := howns.entry_apart_block he howns.table_mem
    simp only [Apart] at h₁ h₂ h₃
    apply hins.frame <;> omega
  · intro b' hb' hne' x hx hx'
    have h₁ := hins.owns.entry_apart_block hentry (List.mem_cons_of_mem b hb')
    have h₂ := hfresh b' hb'
    have h₃ := howns.block_apart_block howns.table_mem hb' (Ne.symm hne')
    have husable' := howns.inv.usable b' hb'
    simp only [Apart, Block.addr, MemPool.sizeofSize] at h₁ h₂ h₃ husable' hx hx'
    apply hins.frame <;> omega
  · rintro e key' ⟨he, b', hb', hne', hk', hle⟩ hload
    refine ⟨?_, b', List.mem_cons_of_mem b hb', hne', hk'.trans hload.symm, hle⟩
    rw [hins.entries_eq]
    apply List.mem_cons_of_mem entry he

end

/-- An insertion of a key whose bucket is empty, granted its memory, adds the key. -/
theorem insert_returns {m : Key h.ktype → Option Nat} {key : Key h.ktype} {val : Nat}
    {mallocs : HashMallocs} (howns : h.Owns s live table)
    (hbuckets : ∀ idx ≤ h.hashSize, h.Bucket (Guard s live table) s.heap.mem m idx)
    (hadmissible : h.Admissible s (.insert key val mallocs))
    (hcareful : h.Careful s (.insert key val mallocs)) :
  ∃ s' live', h.insert s key val mallocs = some (0, s') ∧ h.Owns s' live' table
    ∧ ∀ idx ≤ h.hashSize, h.Bucket (Guard s' live' table) s'.heap.mem
        (Function.update m key (some val)) idx
  := by
  obtain ⟨s', entry, b, hinsert, hins⟩ :=
    insert_spec howns hadmissible hcareful.1 hcareful.2.1
  use s', b :: live, hinsert, hins.owns
  intro idx hidx
  by_cases hsame : h.hashIndex key = idx
  · subst hsame
    apply hins.bucket howns
    rcases hbuckets _ hidx with ⟨-, hnone⟩ | ⟨_, _, hslotne, -⟩
    · apply hnone
    · apply absurd hcareful.2.2 hslotne
  · apply hins.bucket_of_ne howns hidx hsame (hbuckets idx hidx)

/-! ### Deletion -/

/-- Giving an entry back whose key lies in the only chunk of the pool leaves the mutex
locked, for the entry itself lies in no chunk. -/
theorem entryFree_locks {entry : Nat} {cur : Chunk} (hchunk : s.pool.chunk = [cur])
    (hlocked : s.pool.locked = false) (hkey : s.heap.mem.loadSize (entry + offsetKey) ≠ 0)
    (hholds : s.pool.holds cur
      (s.heap.mem.loadSize (entry + offsetKey) - MemPool.sizeofSize) = true)
    (hentry : ¬ s.pool.holds cur (entry - MemPool.sizeofSize) = true) :
  ∃ pool, entryFree s entry = some { s with pool } ∧ pool.locked = true
  := by
  obtain ⟨pool, cur', hfree, hchunk', hstart, hsize, hlocked'⟩ :=
    MemPool.free_of_holds s.heap hchunk hlocked hholds
  have hentry' : ¬ pool.holds cur' (entry - MemPool.sizeofSize) = true := by
    rw [MemPool.holds_iff, hstart, hsize, ← MemPool.holds_iff]
    apply hentry
  use { pool with locked := true }
  simp [entryFree, hkey, hfree, MemPool.free_of_not_holds s.heap hchunk' hlocked' hentry']

/-- Emptying the bucket of a key removes the key, where the bucket has no other one. -/
theorem bucket_clear {m : Key h.ktype → Option Nat} {key : Key h.ktype}
    (howns : h.Owns s live table)
    (hbuckets : ∀ idx ≤ h.hashSize, h.Bucket (Guard s live table) s.heap.mem m idx)
    (hothers : ∀ key', h.hashIndex key' = h.hashIndex key → key' ≠ key → m key' = none)
    {idx : Nat} (hidx : idx ≤ h.hashSize) :
  h.Bucket (fun _ _ => True) (s.heap.mem.storeSize (h.slot (h.hashIndex key)) 0)
    (Function.update m key none) idx
  := by
  obtain ⟨hle, hge⟩ := howns.slot_within (hashIndex_le key)
  by_cases hsame : h.hashIndex key = idx
  · subst hsame
    left
    use Memory.loadSize_storeSize (by decide)
    intro key' hindex
    by_cases hne : key' = key
    · subst hne
      apply Function.update_self
    · rw [Function.update_of_ne hne, hothers key' hindex hne]
  · apply (hbuckets idx hidx).congr
    · apply Memory.loadSize_storeSize_of_apart
      simp only [Apart, slot]
      omega
    · intro key' hindex
      apply Function.update_of_ne
      rintro rfl
      apply hsame hindex
    · intro e he x hx hx'
      have := howns.entry_apart_block he howns.table_mem
      simp only [Apart] at this
      apply Memory.storeSize_apply_of_not_mem
      omega
    · intro b' hb' hne x hx hx'
      have := howns.block_apart_block howns.table_mem hb' (Ne.symm hne)
      have husable := howns.inv.usable b' hb'
      simp only [Apart, Block.addr, MemPool.sizeofSize] at this husable hx hx'
      apply Memory.storeSize_apply_of_not_mem
      omega
    · intro _ _ _ _
      trivial

/-- A deletion of a present key, its block in the first chunk of the pool, removes the key,
and leaves the mutex locked. -/
theorem del_returns {m : Key h.ktype → Option Nat} {key : Key h.ktype} {val : Nat}
    (howns : h.Owns s live table)
    (hbuckets : ∀ idx ≤ h.hashSize, h.Bucket (Guard s live table) s.heap.mem m idx)
    (hcareful : h.Careful s (.del key)) (hpresent : m key = some val) :
  ∃ s', h.del s key = some ((0, some val), s') ∧ s'.pool.locked = true
    ∧ ∀ idx ≤ h.hashSize, h.Bucket (fun _ _ => True) s'.heap.mem
        (Function.update m key none) idx
  := by
  have hidx := hashIndex_le key
  rcases hbuckets _ hidx with
    ⟨-, hnone⟩ | ⟨key', val', hslot, -, hkey', hothers, hat, hmem, b, hb, hbne, hbaddr, -⟩
  · rw [hnone key rfl] at hpresent
    cases hpresent
  · have heq : key = key' := by
      by_contra hne
      rw [hothers key rfl hne] at hpresent
      cases hpresent
    subst heq
    rw [hkey'] at hpresent
    cases hpresent
    have hequal := (hashKeyEqual_iff _ hat.read_key).mpr rfl
    obtain ⟨hlocked, cur, hcur, hholds⟩ := hcareful ⟨hslot, hequal⟩
    rcases howns.inv.chunk with hnil | ⟨cur', hchunk, hregion, -⟩
    · change s.pool.chunk = [] at hnil
      simp [hnil] at hcur
    · change s.pool.chunk = [cur'] at hchunk
      simp only [hchunk, List.head?_cons, Option.mem_def, Option.some.injEq] at hcur
      subst hcur
      obtain ⟨hpos, hapart⟩ := howns.entries_apart _ hmem
      obtain ⟨pool, hentryFree, hpool⟩ := entryFree_locks hchunk hlocked
        (by rw [← hbaddr]; simp [Block.addr, MemPool.sizeofSize]) hholds (by
          have := hapart cur'.start hregion
          simp only [MemPool.holds_iff, MemPool.sizeofSize, Apart, sizeofEntry] at this ⊢
          omega)
      refine ⟨⟨pool, { s.heap with mem := s.heap.mem.storeSize (h.slot (h.hashIndex key)) 0 },
        s.entries⟩, ?_, hpool, ?_⟩
      · rw [del, if_neg hslot, if_pos hequal, hentryFree, hat.load_val]
      · intro idx hidx'
        apply bucket_clear howns hbuckets hothers hidx'

end

/-! ### Creation and runs -/

/-- The table holds what the map has, and owns its memory as long as the mutex of the pool
is free. -/
def Represents (h : Hash) (s : HashState) (m : Key h.ktype → Option Nat) : Prop :=
  (∃ live table, h.Owns s live table
      ∧ ∀ idx ≤ h.hashSize, h.Bucket (Guard s live table) s.heap.mem m idx)
    ∨ (s.pool.locked = true ∧ ∀ idx ≤ h.hashSize, h.Bucket (fun _ _ => True) s.heap.mem m idx)

theorem Represents.bucket {s : HashState} {m : Key h.ktype → Option Nat}
    (hs : h.Represents s m) {idx : Nat} (hidx : idx ≤ h.hashSize) :
  h.Bucket (fun _ _ => True) s.heap.mem m idx
  := by
  rcases hs with ⟨live, table, -, hbuckets⟩ | ⟨-, hbuckets⟩
  · apply (hbuckets idx hidx).imp
    intro _ _ _
    trivial
  · apply hbuckets idx hidx

theorem step_insert (s : HashState) (key : Key h.ktype) (val : Nat) (mallocs : HashMallocs) :
  h.machine.step s (.insert key val mallocs)
    = (h.insert s key val mallocs).map fun r => ((r.1, none), r.2)
  := by
  simp only [machine]

theorem step_del (s : HashState) (key : Key h.ktype) :
  h.machine.step s (.del key) = h.del s key
  := by
  simp only [machine]

theorem step_find (s : HashState) (key : Key h.ktype) :
  h.machine.step s (.find key) = (h.find s key).map fun answer => (answer, s)
  := by
  simp only [machine]

/-- A careful operation on the table is the operation on the map it holds. -/
theorem step_lockstep {s : HashState} {m : Key h.ktype → Option Nat}
    {op : MapOp (Key h.ktype) Nat HashMallocs} (hs : h.Represents s m)
    (hadmissible : h.Admissible s op) (hcareful : h.Careful s op) :
  ∃ answer s' m', h.machine.step s op = some (answer, s')
    ∧ finiteMap.step m op = some (answer, m') ∧ h.Represents s' m'
  := by
  cases op with
  | insert key val mallocs =>
    rw [step_insert]
    rcases hs with ⟨live, table, howns, hbuckets⟩ | ⟨hlocked, -⟩
    · obtain ⟨s', live', hinsert, howns', hbuckets'⟩ :=
        insert_returns howns hbuckets hadmissible hcareful
      refine ⟨(0, none), s', _, ?_, rfl, Or.inl ⟨live', table, howns', hbuckets'⟩⟩
      rw [hinsert]
      rfl
    · have := hcareful.2.1.1
      rw [hlocked] at this
      cases this
  | del key =>
    rw [step_del]
    cases hpresent : m key with
    | none =>
      use (-1, none), s, m, del_of_absent (hs.bucket (hashIndex_le key)) hpresent
      have hupdate : Function.update m key none = m := by
        rw [Function.update_eq_self_iff, hpresent]
      simp only [finiteMap, hpresent, mapAnswer, hupdate, true_and]
      apply hs
    | some val =>
      rcases hs with ⟨live, table, howns, hbuckets⟩ | ⟨hlocked, hbuckets⟩
      · obtain ⟨s', hdel, hlocked, hbuckets'⟩ := del_returns howns hbuckets hcareful hpresent
        use (0, some val), s', Function.update m key none, hdel
        simp only [finiteMap, hpresent, mapAnswer, true_and]
        exact Or.inr ⟨hlocked, hbuckets'⟩
      · rcases hbuckets _ (hashIndex_le key) with
          ⟨-, hnone⟩ | ⟨key', val', hslot, -, hkey', hothers, hat, -⟩
        · rw [hnone key rfl] at hpresent
          cases hpresent
        · have heq : key' = key := by
            by_contra hne
            rw [hothers key rfl (Ne.symm hne)] at hpresent
            cases hpresent
          subst heq
          have := (hcareful ⟨hslot, (hashKeyEqual_iff _ hat.read_key).mpr rfl⟩).1
          rw [hlocked] at this
          cases this
  | find key =>
    rw [step_find, find_of_bucket (hs.bucket (hashIndex_le key))]
    use mapAnswer (m key), s, m, rfl, rfl, hs

/-- A new table owns its memory, and holds the empty map. -/
theorem create_owns {pool : MemPool} {heap : Heap} {live : List Block} {hsize : Nat}
    {ktype : KeyType} {mallocs : Mallocs} {s : HashState}
    (hpool : PoolState.Inv ⟨pool, heap, live⟩)
    (hadmissible : PoolState.Admissible ⟨pool, heap, live⟩ (.alloc (createSize hsize) mallocs))
    (hcareful : PoolState.Careful ⟨pool, heap, live⟩ (.alloc (createSize hsize) mallocs))
    (hsize_fits : sizeofHash + 8 * (1 + hsize) < sizeModulus)
    (hcreate : create pool heap hsize ktype mallocs = some (h, s)) :
  ∃ live table, h.Owns s live table
    ∧ ∀ idx ≤ h.hashSize, h.Bucket (Guard s live table) s.heap.mem (fun _ => none) idx
  := by
  simp only [create] at hcreate
  split at hcreate
  · rename_i base heap₁ pool₁ halloc
    have hinv := PoolState.step_inv hpool hadmissible hcareful (PoolState.step_alloc halloc)
    obtain ⟨hblock, -⟩ | ⟨cur, next, heap₂, -, -, hblock, -⟩ := MemPool.alloc_cases halloc
    · cases hblock
    · simp only [Option.some.injEq] at hblock
      have hbase : base - MemPool.sizeofSize + MemPool.sizeofSize = base := by omega
      have hfits : createSize hsize = sizeofHash + 8 * (1 + hsize) := sizeT_of_lt hsize_fits
      cases hcreate
      refine ⟨_, _, ⟨hinv.of_mem, List.mem_cons_self, ?_, hfits.symm.le, ?_, ?_⟩, ?_⟩
      · simp only [Block.addr, hbase]
      · simp
      · apply List.Pairwise.nil
      · intro idx hidx
        left
        refine ⟨Memory.loadSize_write_zeros ?_ ?_, fun _ _ => rfl⟩
        · simp only [slot]
          omega
        · simp only [slot, sizeofHash, hfits] at hidx ⊢
          omega
  · cases hcreate

/-- A table made by `create_hash`, on a pool that keeps its blocks safe, answers every
sequence of careful operations as a finite map does. -/
theorem run_finite_map {pool : MemPool} {heap : Heap} {live : List Block} {hsize : Nat}
    {ktype : KeyType} {mallocs : Mallocs} {s : HashState}
    {ops : List (MapOp (Key h.ktype) Nat HashMallocs)}
    (hpool : PoolState.Inv ⟨pool, heap, live⟩)
    (hcreate_admissible :
      PoolState.Admissible ⟨pool, heap, live⟩ (.alloc (createSize hsize) mallocs))
    (hcreate_careful :
      PoolState.Careful ⟨pool, heap, live⟩ (.alloc (createSize hsize) mallocs))
    (hsize_fits : sizeofHash + 8 * (1 + hsize) < sizeModulus)
    (hcreate : create pool heap hsize ktype mallocs = some (h, s))
    (hadmissible : h.machine.Meets h.Admissible s ops)
    (hcareful : h.machine.Meets h.Careful s ops) :
  ∃ answers s' m, h.machine.run s ops = some (answers, s')
    ∧ finiteMap.run (fun _ => none) ops = some (answers, m)
  := by
  have hs : h.Represents s fun _ => none :=
    Or.inl (create_owns hpool hcreate_admissible hcreate_careful hsize_fits hcreate)
  obtain ⟨answers, s', m, hrun, hmap, -⟩ := h.machine.run_lockstep
    (fun _ _ _ hs he => step_lockstep hs he.1 he.2) hs
    (h.machine.meets_and hadmissible hcareful)
  use answers, s', m, hrun, hmap

/-- The table of integer keys that `create_hash` makes in a new pool of 4096 bytes. -/
def smallTable (hsize : Nat) : Hash where
  hashEntry := 8192 - 8 * (1 + hsize)
  hashSize := hsize
  ktype := .int

/-- Two insertions, two searches, a deletion and a search in that table. -/
def twoKeys (hsize : Nat) (k₁ k₂ : UInt32) :
    List (MapOp (Key (smallTable hsize).ktype) Nat HashMallocs) :=
  let key (n : UInt32) : Key (smallTable hsize).ktype := n
  [.insert (key k₁) 11 ⟨some 65536, ⟨true, none⟩⟩,
    .insert (key k₂) 22 ⟨some 65600, ⟨true, none⟩⟩, .find (key k₁), .find (key k₂),
    .del (key k₁), .find (key k₁)]

theorem twoKeys_found :
  ∃ s answers s' m, create (MemPool.init 4096 8) ⟨fun _ => 0, []⟩ 3 .int ⟨true, some 4096⟩
      = some (smallTable 3, s)
    ∧ (smallTable 3).machine.run s (twoKeys 3 1 3) = some (answers, s')
    ∧ finiteMap.run (fun _ => none) (twoKeys 3 1 3) = some (answers, m)
  := by
  have hcreate : create (MemPool.init 4096 8) ⟨fun _ => 0, []⟩ 3 .int ⟨true, some 4096⟩
      = some (smallTable 3, _) := rfl
  obtain ⟨answers, s', m, hrun, hmap⟩ := @run_finite_map (smallTable 3) _ _ _ _ _ _ _
    (twoKeys 3 1 3) (PoolState.start_inv 4096 8 fun _ => 0) (by decide) (by decide) (by decide)
    hcreate (by decide) (by decide)
  exact ⟨_, answers, s', m, hcreate, hrun, hmap⟩

/-- With a single bucket the second insertion loses the first key. -/
theorem twoKeys_lost :
  ∃ s answers s' answers' m,
    create (MemPool.init 4096 8) ⟨fun _ => 0, []⟩ 0 .int ⟨true, some 4096⟩
      = some (smallTable 0, s)
    ∧ (smallTable 0).machine.Meets (smallTable 0).Admissible s (twoKeys 0 1 3)
    ∧ (smallTable 0).machine.run s (twoKeys 0 1 3) = some (answers, s')
    ∧ finiteMap.run (fun _ => none) (twoKeys 0 1 3) = some (answers', m) ∧ answers ≠ answers'
  := by
  refine ⟨_, _, _, _, _, rfl, by decide, rfl, rfl, by decide⟩

end Hash

end IFreeChat
