import Mathlib.Data.List.Perm.Basic
import IFreeChat.Hash.Slots

/-!
# The end of a hash table

`destroy_hash` walks the ring of every bucket and gives what it meets back.  A `Ledger` is
kept beside the state of a table: the blocks its operations have obtained, and those they have
released, each with the allocator it was asked of.

A table takes its own block from the pool and gives it back with `free`, so that the ledger is
balanced after no run (`destroy_not_balanced`).  That block is all that `destroy_hash` gives
back: an insertion makes its entry the head of the bucket, alone in its ring, and the loop
starts behind the head (`destroy_of_created`).
-/

open Basis

namespace IFreeChat

/-- What a block is obtained from and released through: `malloc` and `free`, or
`mem_pool_alloc` and `mem_pool_free`. -/
inductive Allocator where
  | malloc
  | pool
deriving DecidableEq

/-- The blocks that were obtained and those that were released. -/
structure Ledger where
  obtained : List (Nat × Allocator)
  released : List (Nat × Allocator)

namespace Hash

/-! ### What is obtained and released -/

/-- The blocks `hash_insert` obtains: the entry, and the one for the key. -/
def insertBlocks (s : HashState) {ktype : KeyType} (key : Key ktype) (mallocs : HashMallocs) :
    List (Nat × Allocator) :=
  match mallocs.entry with
  | none => []
  | some entry =>
      let heap := { s.heap with mem := Dlist.initNode s.heap.mem (entry + offsetNode) }
      match s.pool.alloc heap key.bytes.length mallocs.pool with
      | some (some addr, _, _) => [(entry, .malloc), (addr, .pool)]
      | _ => [(entry, .malloc)]

/-- The blocks `hash_entry_free` releases. -/
def entryFreeBlocks (s : HashState) (entry : Nat) : List (Nat × Allocator) :=
  let key := s.heap.mem.loadSize (entry + offsetKey)
  if key = 0 then [(entry, .pool)] else [(key, .pool), (entry, .pool)]

variable (h : Hash)

/-- The blocks `hash_del` releases. -/
def delBlocks (s : HashState) (key : Key h.ktype) : List (Nat × Allocator) :=
  let mem := s.heap.mem
  let entry := mem.loadSize (h.slot (h.hashIndex key))
  if entry = 0 then []
  else if hashKeyEqual mem (mem.loadSize (entry + offsetKey)) key then entryFreeBlocks s entry
  else
    match h.searchRing s entry key with
    | some (some p) =>
        entryFreeBlocks { s with heap := { s.heap with mem := Dlist.del mem p } } (p - offsetNode)
    | _ => []

/-- The block of the table, of which the array of buckets is the rest. -/
def tableBlock : Nat := h.hashEntry - sizeofHash

/-- The ledger once `create_hash` has obtained the block of the table. -/
def opening : Ledger where
  obtained := [(h.tableBlock, .pool)]
  released := []

/-- The ledger after an operation. -/
def record (l : Ledger) (s : HashState) : MapOp (Key h.ktype) Nat HashMallocs → Ledger
  | .insert key _ mallocs => { l with obtained := l.obtained ++ insertBlocks s key mallocs }
  | .del key => { l with released := l.released ++ h.delBlocks s key }
  | .find _ => l

/-! ### `destroy_hash` -/

/-- The loop of `dlist_foreach_safe` over the ring of `head`, from `p` on with `q` behind it:
the blocks that are released and the state after it; `none` when a call does not return or
the loop takes more than `fuel` steps. -/
def destroyRing (head : Nat) : (fuel : Nat) → (s : HashState) → (p q : Nat) →
    Option (List (Nat × Allocator) × HashState)
  | 0, _, _, _ => none
  | fuel + 1, s, p, q =>
      if p = head then some ([], s)
      else
        let next := p - offsetNode
        let s := { s with heap := { s.heap with mem := Dlist.del s.heap.mem p } }
        match entryFree s next with
        | none => none
        | some s' =>
            match destroyRing head fuel s' q
              (s'.heap.mem.loadSize (q + Dlist.offsetNext)) with
            | none => none
            | some (freed, t) => some (entryFreeBlocks s next ++ freed, t)

/-- What `destroy_hash` does with the bucket `idx`. -/
def destroyBucket (s : HashState) (idx : Nat) : Option (List (Nat × Allocator) × HashState) :=
  let entry := s.heap.mem.loadSize (h.slot idx)
  if entry = 0 then some ([], s)
  else
    let head := entry + offsetNode
    let p := s.heap.mem.loadSize (head + Dlist.offsetNext)
    destroyRing head (s.entries.length + 1) s p (s.heap.mem.loadSize (p + Dlist.offsetNext))

/-- The loop of `destroy_hash` over the last `n` of the `hash_size` buckets; the counter is an
`int`, which must not overflow. -/
def destroyBuckets : (n : Nat) → HashState → Option (List (Nat × Allocator) × HashState)
  | 0, s => some ([], s)
  | n + 1, s =>
      match h.destroyBucket s (h.hashSize - (n + 1)) with
      | none => none
      | some (freed, s) =>
          if 2 ^ 31 ≤ h.hashSize - n then none
          else
            match destroyBuckets n s with
            | none => none
            | some (freed', t) => some (freed ++ freed', t)

/-- `destroy_hash`: the blocks it releases, the one of the table by `free`. -/
def destroy (s : HashState) : Option (List (Nat × Allocator) × HashState) :=
  match h.destroyBuckets h.hashSize s with
  | none => none
  | some (freed, t) => some (freed ++ [(h.tableBlock, .malloc)], t)

/-- `destroy_hash` ends the table with every block released that was obtained, once and
through the allocator it came from. -/
def Balanced (s : HashState) (l : Ledger) : Prop :=
  ∃ freed t, h.destroy s = some (freed, t) ∧ (l.released ++ freed).Perm l.obtained

/-- `malloc` never gives an entry the block of the table, which is in use. -/
def NewEntry : MapOp (Key h.ktype) Nat HashMallocs → Prop
  | .insert _ _ mallocs => mallocs.entry ≠ some h.tableBlock
  | .del _ => True
  | .find _ => True

instance : ∀ op, Decidable (h.NewEntry op)
  | .insert _ _ _ => inferInstanceAs (Decidable (_ ≠ _))
  | .del _ => .isTrue trivial
  | .find _ => .isTrue trivial

variable {h}

/-! ### What is left behind -/

/-- An insertion gets the memory it asks for. -/
def Supplied (s : HashState) {ktype : KeyType} : MapOp (Key ktype) Nat HashMallocs → Prop
  | .insert key _ mallocs => mallocs.entry.isSome
      ∧ s.pool.Grants key.bytes.length mallocs.pool
  | .del _ => True
  | .find _ => True

/-- Every bucket is empty or has one entry, alone in its ring. -/
def Lone (h : Hash) (mem : Memory) : Prop :=
  ∃ m, ∀ idx ≤ h.hashSize, h.Bucket (fun _ _ => True) mem m idx

/-- The table has lone entries; once one of them was given back the mutex stays locked. -/
def Stays (h : Hash) (s : HashState) : Prop :=
  (∃ m, h.HoldsSlots s m) ∨ (s.pool.locked = true ∧ h.Lone s.heap.mem)

theorem Stays.lone {s : HashState} (hs : h.Stays s) :
  h.Lone s.heap.mem
  := by
  rcases hs with ⟨m, live, table, -, hbuckets⟩ | ⟨-, hlone⟩
  · use slotFind h.hashIndex m
    intro idx hidx
    apply (hbuckets idx hidx).imp
    intro _ _ _
    trivial
  · exact hlone

theorem entryFree_of_locked {s : HashState} (hlocked : s.pool.locked = true) (entry : Nat) :
  entryFree s entry = none
  := by
  by_cases hkey : s.heap.mem.loadSize (entry + offsetKey) = 0 <;>
    simp [entryFree, hkey, MemPool.free_of_locked, hlocked]

/-- Giving back an entry leaves the mutex locked, for it lies in no chunk. -/
theorem entryFree_stays_locked {s t : HashState} {live : List Block} {table : Block}
    {entry : Nat} (howns : h.Owns s live table) (hentry : entry ∈ s.entries)
    (hfree : entryFree s entry = some t) :
  t.heap.mem = s.heap.mem ∧ t.pool.locked = true
  := by
  have hlocked : s.pool.locked = false := by
    by_contra hlocked
    rw [Bool.not_eq_false] at hlocked
    rw [entryFree_of_locked hlocked] at hfree
    cases hfree
  obtain ⟨hpos, hapart⟩ := howns.entries_apart entry hentry
  rcases howns.inv.chunk with hnil | ⟨cur, hchunk, hregion, -⟩
  · change s.pool.chunk = [] at hnil
    by_cases hkey : s.heap.mem.loadSize (entry + offsetKey) = 0
    · simp only [entryFree, hkey, if_true, MemPool.free_nil hnil hlocked] at hfree
      cases hfree
      exact ⟨rfl, rfl⟩
    · simp [entryFree, hkey, MemPool.free_nil hnil hlocked, MemPool.free_of_locked] at hfree
  · change s.pool.chunk = [cur] at hchunk
    have houtside : ¬ s.pool.holds cur (entry - MemPool.sizeofSize) = true := by
      have := hapart cur.start hregion
      simp only [MemPool.holds_iff, MemPool.sizeofSize, Apart, sizeofEntry] at this ⊢
      omega
    by_cases hkey : s.heap.mem.loadSize (entry + offsetKey) = 0
    · simp only [entryFree, hkey, if_true,
        MemPool.free_of_not_holds s.heap hchunk hlocked houtside] at hfree
      cases hfree
      exact ⟨rfl, rfl⟩
    · by_cases hholds : s.pool.holds cur
          (s.heap.mem.loadSize (entry + offsetKey) - MemPool.sizeofSize) = true
      · obtain ⟨pool, hfree', hpool⟩ :=
          entryFree_locks hchunk hlocked hkey hholds houtside
        rw [hfree'] at hfree
        cases hfree
        exact ⟨rfl, hpool⟩
      · have hkeyFree := MemPool.free_of_not_holds s.heap hchunk hlocked hholds
        simp [entryFree, hkey, hkeyFree, MemPool.free_of_locked] at hfree

/-- A deletion changes nothing, or gives the entry of its bucket back. -/
theorem del_cases {s t : HashState} {guard : Nat → Key h.ktype → Prop}
    {m : Key h.ktype → Option Nat} {key : Key h.ktype} {answer : Int × Option Nat}
    (hb : h.Bucket guard s.heap.mem m (h.hashIndex key))
    (hdel : h.del s key = some (answer, t)) :
  t = s
    ∨ ∃ u, guard (s.heap.mem.loadSize (h.slot (h.hashIndex key))) key
        ∧ (∀ key', h.hashIndex key' = h.hashIndex key → key' ≠ key → m key' = none)
        ∧ entryFree s (s.heap.mem.loadSize (h.slot (h.hashIndex key))) = some u
        ∧ t = { u with heap := { u.heap with
            mem := u.heap.mem.storeSize (h.slot (h.hashIndex key)) 0 } }
  := by
  cases hkey : m key with
  | none =>
    rw [del_of_absent hb hkey] at hdel
    cases hdel
    left
    rfl
  | some val =>
    right
    rcases hb with ⟨-, hnone⟩ | ⟨key', val', hslot, -, -, hothers, hat, hguard⟩
    · rw [hnone key rfl] at hkey
      cases hkey
    · obtain rfl : key = key' := by
        by_contra hne
        rw [hothers key rfl hne] at hkey
        cases hkey
      have hequal := (hashKeyEqual_iff _ hat.read_key).mpr rfl
      rw [del, if_neg hslot, if_pos hequal] at hdel
      split at hdel
      · cases hdel
      · rename_i u hfree
        cases hdel
        exact ⟨u, hguard, hothers, hfree, rfl⟩

/-- A deletion of a present key that returns leaves the mutex locked. -/
theorem del_locks {s t : HashState} {live : List Block} {table : Block}
    {m : Key h.ktype → Option Nat} {key : Key h.ktype} {val : Nat} {answer : Int × Option Nat}
    (howns : h.Owns s live table)
    (hb : h.Bucket (Guard s live table) s.heap.mem m (h.hashIndex key)) (hkey : m key = some val)
    (hdel : h.del s key = some (answer, t)) :
  answer.1 = 0 ∧ t.pool.locked = true
  := by
  rcases hb with ⟨-, hnone⟩ | ⟨key', val', hslot, -, -, hothers, hat, hguard⟩
  · rw [hnone key rfl] at hkey
    cases hkey
  · obtain rfl : key = key' := by
      by_contra hne
      rw [hothers key rfl hne] at hkey
      cases hkey
    have hequal := (hashKeyEqual_iff _ hat.read_key).mpr rfl
    rw [del, if_neg hslot, if_pos hequal] at hdel
    split at hdel
    · cases hdel
    · rename_i u hfree
      cases hdel
      exact ⟨rfl, (entryFree_stays_locked howns hguard.1 hfree).2⟩

/-- An operation that returns keeps the entries lone. -/
theorem Stays.step {s t : HashState} {op : MapOp (Key h.ktype) Nat HashMallocs}
    {answer : Int × Option Nat} (hs : h.Stays s) (hadmissible : h.Admissible s op)
    (hsupplied : Supplied s op) (hstep : h.machine.step s op = some (answer, t)) :
  h.Stays t
  := by
  cases op with
  | insert key val mallocs =>
    rcases hs with ⟨m, hslots⟩ | ⟨hlocked, -⟩
    · obtain ⟨s', hinsert, hslots'⟩ := hslots.insert hadmissible hsupplied
      rw [step_insert, hinsert] at hstep
      cases hstep
      left
      exact ⟨_, hslots'⟩
    · have := hsupplied.2.1
      rw [hlocked] at this
      cases this
  | del key =>
    rw [step_del] at hstep
    have hidx := hashIndex_le key
    rcases hs with ⟨m, live, table, howns, hbuckets⟩ | ⟨hlocked, m, hbuckets⟩
    · rcases del_cases (hbuckets _ hidx) hstep with
        rfl | ⟨u, ⟨hentry, -⟩, hothers, hfree, rfl⟩
      · left
        exact ⟨m, live, table, howns, hbuckets⟩
      · obtain ⟨hmem, hlocked⟩ := entryFree_stays_locked howns hentry hfree
        right
        refine ⟨hlocked, Function.update (slotFind h.hashIndex m) key none, ?_⟩
        intro idx hidx'
        dsimp only
        rw [hmem]
        apply bucket_clear howns hbuckets hothers hidx'
    · rcases del_cases (hbuckets _ hidx) hstep with rfl | ⟨u, -, -, hfree, -⟩
      · right
        exact ⟨hlocked, m, hbuckets⟩
      · rw [entryFree_of_locked hlocked] at hfree
        cases hfree
  | find key =>
    rw [step_find] at hstep
    obtain ⟨_, -, heq⟩ := Option.map_eq_some_iff.mp hstep
    cases heq
    exact hs

/-- There is nothing behind the head of a bucket for `destroy_hash` to give back. -/
theorem destroyBucket_of_lone {s : HashState} (hlone : h.Lone s.heap.mem) {idx : Nat}
    (hidx : idx ≤ h.hashSize) :
  h.destroyBucket s idx = some ([], s)
  := by
  obtain ⟨m, hbuckets⟩ := hlone
  rcases hbuckets idx hidx with ⟨hslot, -⟩ | ⟨key, val, hslot, -, -, -, hat, -⟩
  · rw [destroyBucket, if_pos hslot]
  · rw [destroyBucket, if_neg hslot]
    dsimp only
    rw [hat.load_next, destroyRing, if_pos rfl]

theorem destroyBuckets_of_lone {s : HashState} (hlone : h.Lone s.heap.mem)
    (hsize : h.hashSize < 2 ^ 31) (n : Nat) :
  h.destroyBuckets n s = some ([], s)
  := by
  induction n with
  | zero => rfl
  | succ n ih =>
    have hbucket := destroyBucket_of_lone hlone (Nat.sub_le h.hashSize (n + 1))
    have hcounter : ¬ 2 ^ 31 ≤ h.hashSize - n := by omega
    rw [destroyBuckets, hbucket]
    dsimp only
    rw [if_neg hcounter, ih]
    rfl

/-- After every run on a table that `create_hash` has made, with a counter's worth of
buckets, `destroy_hash` gives back the block of the table and nothing else. -/
theorem destroy_of_created {s s' : HashState} {ops : List (MapOp (Key h.ktype) Nat HashMallocs)}
    {answers : List (Int × Option Nat)} (hs : h.Created s) (hsize : h.hashSize < 2 ^ 31)
    (hadmissible : h.machine.Meets h.Admissible s ops)
    (hsupplied : h.machine.Meets (fun s op => Supplied s op) s ops)
    (hrun : h.machine.run s ops = some (answers, s')) :
  h.destroy s' = some ([(h.tableBlock, .malloc)], s')
  := by
  have hstays : h.Stays s' := by
    apply h.machine.run_invariant
      (fun _ _ _ _ hs hcond hstep => Stays.step hs hcond.1 hcond.2 hstep)
      (Or.inl ⟨_, hs.slots⟩) (h.machine.meets_and hadmissible hsupplied) hrun
  rw [destroy, destroyBuckets_of_lone hstays.lone hsize]
  rfl

/-! ### The block of the table -/

/-- What an insertion obtains from `malloc` is its entry. -/
theorem mem_insertBlocks {s : HashState} {ktype : KeyType} {key : Key ktype}
    {mallocs : HashMallocs} {a : Nat} (hmem : (a, .malloc) ∈ insertBlocks s key mallocs) :
  mallocs.entry = some a
  := by
  rw [insertBlocks] at hmem
  split at hmem
  · cases hmem
  · rename_i entry hentry
    rw [hentry]
    dsimp only at hmem
    split at hmem
    · simpa [eq_comm] using hmem
    · simpa [eq_comm] using hmem

/-- The block of the table never comes from `malloc`. -/
theorem record_tableBlock {l : Ledger} {s : HashState} {op : MapOp (Key h.ktype) Nat HashMallocs}
    (hl : (h.tableBlock, .malloc) ∉ l.obtained) (hnew : h.NewEntry op) :
  (h.tableBlock, .malloc) ∉ (h.record l s op).obtained
  := by
  cases op with
  | insert key val mallocs =>
    intro hmem
    rcases List.mem_append.mp hmem with hmem | hmem
    · apply hl hmem
    · apply hnew (mem_insertBlocks hmem)
  | del key => exact hl
  | find key => exact hl

theorem run_tableBlock {s s' : HashState} {ops : List (MapOp (Key h.ktype) Nat HashMallocs)}
    {answers : List (Int × Option Nat)} {l l' : Ledger}
    (hl : (h.tableBlock, .malloc) ∉ l.obtained) (hnew : ∀ op ∈ ops, h.NewEntry op)
    (hrun : (h.machine.withHistory h.record).run (s, l) ops = some (answers, s', l')) :
  (h.tableBlock, .malloc) ∉ l'.obtained
  := by
  have hstep : ∀ p op o p', (h.tableBlock, Allocator.malloc) ∉ p.2.obtained → h.NewEntry op →
      (h.machine.withHistory h.record).step p op = some (o, p') →
      (h.tableBlock, Allocator.malloc) ∉ p'.2.obtained := by
    intro p op o p' hp hop hstep
    obtain ⟨r, -, heq⟩ := Option.map_eq_some_iff.mp hstep
    cases heq
    exact record_tableBlock hp hop
  have hmeets := (h.machine.withHistory h.record).meets_of_forall_mem
    (fun _ op hmem => hnew op hmem) (s, l)
  exact (h.machine.withHistory h.record).run_invariant hstep hl hmeets hrun

/-- `destroy_hash` gives the block of the table to `free`. -/
theorem tableBlock_mem_destroy {s t : HashState} {freed : List (Nat × Allocator)}
    (hdestroy : h.destroy s = some (freed, t)) :
  (h.tableBlock, .malloc) ∈ freed
  := by
  rw [destroy] at hdestroy
  split at hdestroy
  · cases hdestroy
  · cases hdestroy
    simp

/-- After no run of insertions, deletions and searches does `destroy_hash` release every
block once and through its allocator. -/
theorem destroy_not_balanced {s s' : HashState}
    {ops : List (MapOp (Key h.ktype) Nat HashMallocs)} {answers : List (Int × Option Nat)}
    {l : Ledger} (hnew : ∀ op ∈ ops, h.NewEntry op)
    (hrun : (h.machine.withHistory h.record).run (s, h.opening) ops = some (answers, s', l)) :
  ¬ h.Balanced s' l
  := by
  rintro ⟨freed, t, hdestroy, hperm⟩
  have hobtained : (h.tableBlock, .malloc) ∉ l.obtained :=
    run_tableBlock (by simp [opening]) hnew hrun
  apply hobtained
  rw [← hperm.mem_iff]
  apply List.mem_append_right _ (tableBlock_mem_destroy hdestroy)

/-- The state in which `create_hash` makes a table of four buckets in a new pool of 4096
bytes. -/
def smallState : HashState where
  pool := { MemPool.init 4096 8 with chunk := [{ start := 4096, free := 4032, bound := 0 }] }
  heap := {
    mem := (Memory.storeSize (fun _ => 0) 8128 64).write 8136 (List.replicate 56 0)
    regions := [4096] }
  entries := []

theorem destroy_not_balanced_twoKeys :
  create (MemPool.init 4096 8) ⟨fun _ => 0, []⟩ 3 .int ⟨true, some 4096⟩
      = some (smallTable 3, smallState)
    ∧ ∃ answers s' l, ((smallTable 3).machine.withHistory (smallTable 3).record).run
        (smallState, (smallTable 3).opening) (twoKeys 3 1 3) = some (answers, s', l)
      ∧ ¬ (smallTable 3).Balanced s' l
  := by
  use rfl
  have hsome : (((smallTable 3).machine.withHistory (smallTable 3).record).run
      (smallState, (smallTable 3).opening) (twoKeys 3 1 3)).isSome = true := rfl
  obtain ⟨⟨answers, s', l⟩, hrun⟩ := Option.isSome_iff_exists.mp hsome
  exact ⟨answers, s', l, hrun, destroy_not_balanced (by decide) hrun⟩

/-- With one key, its entry, its block and the block of the table are obtained, and
`destroy_hash` releases that of the table alone, by `free`. -/
theorem oneKey_not_balanced :
  create (MemPool.init 4096 8) ⟨fun _ => 0, []⟩ 3 .int ⟨true, some 4096⟩
      = some (smallTable 3, smallState)
    ∧ ∃ answers s' l t, ((smallTable 3).machine.withHistory (smallTable 3).record).run
        (smallState, (smallTable 3).opening) [.insert (1 : UInt32) 11 ⟨some 65536, ⟨true, none⟩⟩]
          = some (answers, s', l)
      ∧ l.obtained = [(8136, .pool), (65536, .malloc), (8124, .pool)] ∧ l.released = []
      ∧ (smallTable 3).destroy s' = some ([(8136, .malloc)], t)
      ∧ ¬ (smallTable 3).Balanced s' l
  := by
  use rfl
  refine ⟨_, _, _, _, rfl, rfl, rfl, rfl, ?_⟩
  rintro ⟨freed, t, hdestroy, hperm⟩
  cases hdestroy
  exact absurd hperm.length_eq (by decide)

end Hash

end IFreeChat
