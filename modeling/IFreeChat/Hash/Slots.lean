import IFreeChat.Hash.Map

/-!
# The hash table as a map with slots

As long as the pool grants the memory for every key that is inserted and no key is deleted,
the table answers as a map with one slot for each bucket does (`run_slots`): an insertion
always takes the bucket for its own entry, and loses the entry that was there.
-/

open Basis

namespace IFreeChat

namespace Hash

variable {h : Hash}

/-- The buckets of the table hold what the slots do. -/
def HoldsSlots (h : Hash) (s : HashState) (m : Nat → Option (Key h.ktype × Nat)) : Prop :=
  ∃ live table, h.Owns s live table
    ∧ ∀ idx ≤ h.hashSize,
        h.Bucket (Guard s live table) s.heap.mem (slotFind h.hashIndex m) idx

/-- Where the table is a map with slots: a new key has memory, and no key is deleted. -/
def Granted (s : HashState) {ktype : KeyType} : MapOp (Key ktype) Nat HashMallocs → Prop
  | .insert key _ mallocs => mallocs.entry.isSome
      ∧ s.pool.Grants key.bytes.length mallocs.pool
  | .del _ => False
  | .find _ => True

instance (s : HashState) {ktype : KeyType} :
    ∀ op : MapOp (Key ktype) Nat HashMallocs, Decidable (Granted s op)
  | .insert _ _ _ => inferInstanceAs (Decidable (_ ∧ _))
  | .del _ => .isFalse not_false
  | .find _ => .isTrue trivial

/-- A bucket is about the keys of its index. -/
theorem Bucket.of_agree {guard : Nat → Key h.ktype → Prop} {mem : Memory}
    {m m' : Key h.ktype → Option Nat} {idx : Nat} (hb : h.Bucket guard mem m idx)
    (hm : ∀ key, h.hashIndex key = idx → m' key = m key) :
  h.Bucket guard mem m' idx
  := by
  rcases hb with ⟨hempty, hnone⟩ | ⟨key, val, hne, hindex, hkey, hothers, hrest⟩
  · left
    use hempty
    intro key hindex
    rw [hm key hindex, hnone key hindex]
  · right
    refine ⟨key, val, hne, hindex, ?_, ?_, hrest⟩
    · rw [hm key hindex, hkey]
    · intro key' hindex' hne'
      rw [hm key' hindex', hothers key' hindex' hne']

/-- The slot of an inserted key has that key, and no other slot changes. -/
theorem slotFind_insert (m : Nat → Option (Key h.ktype × Nat)) (key : Key h.ktype) (val : Nat)
    (key' : Key h.ktype) :
  slotFind h.hashIndex (Function.update m (h.hashIndex key) (some (key, val))) key'
    = if h.hashIndex key' = h.hashIndex key then if key = key' then some val else none
      else slotFind h.hashIndex m key'
  := by
  by_cases hindex : h.hashIndex key' = h.hashIndex key
  · simp [slotFind, hindex]
  · rw [if_neg hindex, slotFind, Function.update_of_ne hindex, slotFind]

/-- A search answers with what the slots have. -/
theorem HoldsSlots.find {s : HashState} {m : Nat → Option (Key h.ktype × Nat)}
    (hs : h.HoldsSlots s m) (key : Key h.ktype) :
  h.find s key = some (mapAnswer (slotFind h.hashIndex m key))
  := by
  obtain ⟨live, table, -, hbuckets⟩ := hs
  apply find_of_bucket (hbuckets _ (hashIndex_le key))

/-- The same with the blocks, to which that of the key is added. -/
theorem Owns.insert_slots {s : HashState} {live : List Block} {table : Block}
    {m : Nat → Option (Key h.ktype × Nat)} {key : Key h.ktype} {val : Nat} {mallocs : HashMallocs}
    (howns : h.Owns s live table)
    (hbuckets : ∀ idx ≤ h.hashSize,
      h.Bucket (Guard s live table) s.heap.mem (slotFind h.hashIndex m) idx)
    (hadmissible : h.Admissible s (.insert key val mallocs))
    (hgranted : Granted s (.insert key val mallocs)) :
  ∃ s' b, h.insert s key val mallocs = some (0, s') ∧ h.Owns s' (b :: live) table
    ∧ ∀ idx ≤ h.hashSize, h.Bucket (Guard s' (b :: live) table) s'.heap.mem
        (slotFind h.hashIndex (Function.update m (h.hashIndex key) (some (key, val)))) idx
  := by
  obtain ⟨s', entry, b, hinsert, hins⟩ :=
    insert_spec howns hadmissible hgranted.1 hgranted.2
  use s', b, hinsert, hins.owns
  intro idx hidx
  by_cases hsame : h.hashIndex key = idx
  · subst hsame
    have hb := hins.bucket (m := fun _ => none) howns fun _ _ => rfl
    apply hb.of_agree
    intro key' hindex
    rw [slotFind_insert, if_pos hindex, Function.update_apply]
    simp only [eq_comm]
  · apply (hins.bucket_of_ne howns hidx hsame (hbuckets idx hidx)).of_agree
    intro key' hindex
    have hne : ¬ h.hashIndex key' = h.hashIndex key := by
      rw [hindex]
      apply Ne.symm hsame
    have hkey : key' ≠ key := by
      rintro rfl
      apply hsame hindex
    rw [slotFind_insert, if_neg hne, Function.update_of_ne hkey]

/-- An insertion that is granted its memory takes the slot of its key. -/
theorem HoldsSlots.insert {s : HashState} {m : Nat → Option (Key h.ktype × Nat)}
    {key : Key h.ktype} {val : Nat} {mallocs : HashMallocs} (hs : h.HoldsSlots s m)
    (hadmissible : h.Admissible s (.insert key val mallocs))
    (hgranted : Granted s (.insert key val mallocs)) :
  ∃ s', h.insert s key val mallocs = some (0, s')
    ∧ h.HoldsSlots s' (Function.update m (h.hashIndex key) (some (key, val)))
  := by
  obtain ⟨live, table, howns, hbuckets⟩ := hs
  obtain ⟨s', b, hinsert, hslots⟩ := howns.insert_slots hbuckets hadmissible hgranted
  exact ⟨s', hinsert, b :: live, table, hslots⟩

/-- An operation that is granted its memory is the operation on the slots. -/
theorem step_slots {s : HashState} {m : Nat → Option (Key h.ktype × Nat)}
    {op : MapOp (Key h.ktype) Nat HashMallocs} (hs : h.HoldsSlots s m)
    (hadmissible : h.Admissible s op) (hgranted : Granted s op) :
  ∃ answer s' m', h.machine.step s op = some (answer, s')
    ∧ (slotMap h.hashIndex).step m op = some (answer, m') ∧ h.HoldsSlots s' m'
  := by
  cases op with
  | insert key val mallocs =>
    obtain ⟨s', hinsert, hs'⟩ := hs.insert hadmissible hgranted
    refine ⟨(0, none), s', _, ?_, rfl, hs'⟩
    rw [step_insert, hinsert]
    rfl
  | del key => exact hgranted.elim
  | find key =>
    refine ⟨mapAnswer (slotFind h.hashIndex m key), s, m, ?_, rfl, hs⟩
    rw [step_find, hs.find key]
    rfl

/-! ### Other users of the pool -/

/-- What `malloc` may answer to a call of the pool from elsewhere: a region for it is new. -/
def AdmissibleAlloc (s : HashState) (size : Nat) (mallocs : Mallocs) : Prop :=
  size + MemPool.sizeofSize < sizeModulus ∧ ∀ start ∈ mallocs.start,
    start + s.pool.size ≤ sizeModulus
      ∧ (∀ r ∈ s.heap.regions, Apart start s.pool.size r s.pool.size)
      ∧ ∀ e ∈ s.entries, Apart (e - 8) (8 + sizeofEntry) start s.pool.size

instance (s : HashState) (size : Nat) (mallocs : Mallocs) :
    Decidable (AdmissibleAlloc s size mallocs) :=
  inferInstanceAs (Decidable (_ ∧ _))

/-- A block that the pool hands out to others is a new one, and the table keeps what it holds
whatever is written into the block. -/
theorem Owns.alloc {s : HashState} {live : List Block} {table : Block}
    {m : Key h.ktype → Option Nat} {size : Nat} {mallocs : Mallocs}
    (howns : h.Owns s live table)
    (hbuckets : ∀ idx ≤ h.hashSize, h.Bucket (Guard s live table) s.heap.mem m idx)
    (hpos : 0 < size) (hadmissible : AdmissibleAlloc s size mallocs)
    (hgrants : s.pool.Grants size mallocs) :
  ∃ b heap pool, b.request = size
    ∧ s.pool.alloc s.heap size mallocs = some (some b.addr, heap, pool)
    ∧ (∀ b' ∈ live, b'.addr ≠ b.addr)
    ∧ ∀ mem : Memory, (∀ x, (x < b.addr ∨ b.addr + b.request ≤ x) → mem x = heap.mem x) →
      h.Owns ⟨pool, { heap with mem }, s.entries⟩ (b :: live) table
        ∧ ∀ idx ≤ h.hashSize,
          h.Bucket (Guard ⟨pool, { heap with mem }, s.entries⟩ (b :: live) table) mem m idx
  := by
  obtain ⟨hsize, hstart⟩ := hadmissible
  have hpool : PoolState.Admissible ⟨s.pool, s.heap, live⟩ (.alloc size mallocs) := by
    refine ⟨by omega, ?_⟩
    intro start hs
    use (hstart start hs).1, (hstart start hs).2.1
  obtain ⟨b, heap, pool, hrequest, halloc, hmem, hpoolsize, hregions, hinv⟩ :=
    howns.inv.alloc_granted hpool hgrants (by rwa [if_neg (by omega)])
  have hfresh := (List.pairwise_cons.mp hinv.disjoint).1
  have htaken := hinv.taken_pos List.mem_cons_self
  have husable := hinv.usable b List.mem_cons_self
  refine ⟨b, heap, pool, hrequest, halloc, ?_, ?_⟩
  · intro b' hb' haddr
    have hapart := hfresh b' hb'
    have htaken' := howns.inv.taken_pos hb'
    simp only [Apart, Block.addr] at hapart haddr
    omega
  intro mem hwrite
  have howns' : h.Owns ⟨pool, { heap with mem }, s.entries⟩ (b :: live) table := by
    refine ⟨hinv.of_mem, List.mem_cons_of_mem b howns.table_mem, howns.array_eq, howns.array_le,
      ?_, howns.entries_disjoint⟩
    intro e he
    obtain ⟨hle, hapart⟩ := howns.entries_apart e he
    use hle
    intro r hr
    dsimp only at hr ⊢
    rw [hpoolsize]
    rcases hregions r hr with hr | hr
    · apply hapart r hr
    · apply (hstart r hr).2.2 e he
  -- all that is written, the header included, lies in the new block
  have hframe : ∀ x, (x < b.base ∨ b.base + b.taken ≤ x) → mem x = s.heap.mem x := by
    intro x hx
    simp only [Block.addr, MemPool.sizeofSize] at hwrite husable
    rw [hwrite x (by omega), hmem]
    apply Memory.storeSize_apply_of_not_mem
    omega
  refine ⟨howns', ?_⟩
  intro idx hidx
  apply (hbuckets idx hidx).congr
  · apply Memory.loadSize_congr
    intro x hx hx'
    obtain ⟨hle, hge⟩ := howns.slot_within hidx
    have hapart := hfresh table howns.table_mem
    simp only [Apart] at hapart
    apply hframe
    omega
  · intro _ _
    rfl
  · intro e he x hx hx'
    have hapart := howns'.entry_apart_block he List.mem_cons_self
    simp only [Apart] at hapart
    apply hframe
    omega
  · intro b' hb' _ x hx hx'
    have hapart := hfresh b' hb'
    have husable' := howns.inv.usable b' hb'
    simp only [Apart, Block.addr, MemPool.sizeofSize] at hapart husable' hx hx'
    apply hframe
    omega
  · rintro e key ⟨he, b', hb', hne, haddr, hle⟩ hload
    exact ⟨he, b', List.mem_cons_of_mem b hb', hne, haddr.trans hload.symm, hle⟩

/-- How a table comes to be: `create_hash` makes it in a pool that keeps its blocks safe and
grants its memory. -/
def Created (h : Hash) (s : HashState) : Prop :=
  ∃ pool heap live mallocs, PoolState.Inv ⟨pool, heap, live⟩
    ∧ PoolState.Admissible ⟨pool, heap, live⟩ (.alloc (createSize h.hashSize) mallocs)
    ∧ PoolState.Careful ⟨pool, heap, live⟩ (.alloc (createSize h.hashSize) mallocs)
    ∧ sizeofHash + 8 * (1 + h.hashSize) < sizeModulus
    ∧ create pool heap h.hashSize h.ktype mallocs = some (h, s)

/-- A new table holds empty slots. -/
theorem Created.slots {s : HashState} (hs : h.Created s) :
  h.HoldsSlots s fun _ => none
  := by
  obtain ⟨pool, heap, live, mallocs, hpool, hadmissible, hcareful, hfits, hcreate⟩ := hs
  obtain ⟨live', table, howns, hbuckets⟩ :=
    create_owns hpool hadmissible hcareful hfits hcreate
  use live', table, howns
  intro idx hidx
  apply (hbuckets idx hidx).of_agree
  intro key _
  rfl

/-- A new table answers every sequence of operations that are granted their memory as the
map with slots does. -/
theorem run_slots {s : HashState} {ops : List (MapOp (Key h.ktype) Nat HashMallocs)}
    (hs : h.Created s) (hadmissible : h.machine.Meets h.Admissible s ops)
    (hgranted : h.machine.Meets (fun s op => Granted s op) s ops) :
  ∃ answers s' m, h.machine.run s ops = some (answers, s')
    ∧ (slotMap h.hashIndex).run (fun _ => none) ops = some (answers, m) ∧ h.HoldsSlots s' m
  := by
  have hmeets := h.machine.meets_and hadmissible hgranted
  exact h.machine.run_lockstep (fun _ _ _ hs he => step_slots hs he.1 he.2) hs.slots hmeets

end Hash

end IFreeChat
