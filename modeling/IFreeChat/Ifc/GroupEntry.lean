import IFreeChat.Basis.Text
import IFreeChat.Ifc.Chatboxes

/-!
# The layout of a group entry

`new_group_entry` asks for a block that holds a `group_entry_t` and its two strings, and places
the strings `sizeof(group_t)` bytes into it, where the fields `chatbox`, `gnode` and `ulist` of
the entry are.  So the strings are never outside the entry (`newGroupEntry_not_laid`).  The
nodes are initialised after the strings are copied: an entry reads back as it was made only if
its strings end before `gnode` (`newGroupEntry_reads`).
-/

open Basis

namespace IFreeChat

open Chatboxes (sizeofGroup offsetGroupId offsetGnode offsetUlist NewGroup)

namespace GroupEntry

/-! ### Making an entry -/

/-- `sizeof(group_entry_t)`. -/
def sizeofGroupEntry : Nat := 72

/-- The size `new_group_entry` asks for. -/
def entrySize (gpname gpinfo : List UInt8) : Nat :=
  sizeT (1 + gpname.length + (1 + gpinfo.length) + sizeofGroupEntry)

/-- The memory once `new_group_entry` has filled its block at `base`. -/
def fillEntry (mem : Memory) (base : Nat) (gpname gpinfo : List UInt8) (gpid : UInt32) :
    Memory :=
  let groupName := base + sizeofGroup
  let groupInfo := groupName + (1 + gpname.length)
  let mem := mem.storeSize base groupName
  let mem := mem.storeSize (base + 8) groupInfo
  let mem := mem.write groupName (gpname ++ [0])
  let mem := mem.write groupInfo (gpinfo ++ [0])
  let mem := mem.write (base + offsetGroupId) (Memory.bytesOf 4 gpid.toNat)
  let mem := Dlist.initNode mem (base + offsetGnode)
  Dlist.initNode mem (base + offsetUlist)

/-- `new_group_entry`: the entry, and the heap and the pool after the call. -/
def newGroupEntry (pool : MemPool) (heap : Heap) (gpname gpinfo : List UInt8) (gpid : UInt32)
    (mallocs : Mallocs) : Option (Option Nat × Heap × MemPool) :=
  match pool.alloc heap (entrySize gpname gpinfo) mallocs with
  | none => none
  | some (none, heap, pool) => some (none, heap, pool)
  | some (some base, heap, pool) =>
      some (some base, { heap with mem := fillEntry heap.mem base gpname gpinfo gpid }, pool)

/-- The entries of the chatboxes are made so. -/
theorem newGroupEntry_eq (n : NewGroup) :
  n.newGroupEntry = fillEntry n.mem n.base n.gpname.val n.gpinfo.val n.gpid
  := rfl

/-! ### What an entry should be -/

/-- The string `s` is at the address `a`. -/
def StringAt (mem : Memory) (a : Nat) (s : List UInt8) : Prop :=
  mem.read a (s.length + 1) = s ++ [0]

instance (mem : Memory) (a : Nat) (s : List UInt8) : Decidable (StringAt mem a s) :=
  inferInstanceAs (Decidable (_ = _))

/-- The node is a ring of its own. -/
def SelfLinked (mem : Memory) (node : Nat) : Prop :=
  mem.loadSize (node + Dlist.offsetPrev) = node ∧ mem.loadSize (node + Dlist.offsetNext) = node

instance (mem : Memory) (node : Nat) : Decidable (SelfLinked mem node) :=
  inferInstanceAs (Decidable (_ ∧ _))

/-- The fields of the entry at `base` have what it was made from. -/
structure ReadsBack (mem : Memory) (base : Nat) (gpname gpinfo : List UInt8) (gpid : UInt32) :
    Prop where
  name : StringAt mem (mem.loadSize base) gpname
  info : StringAt mem (mem.loadSize (base + 8)) gpinfo
  id : mem.read (base + offsetGroupId) 4 = Memory.bytesOf 4 gpid.toNat
  gnode : SelfLinked mem (base + offsetGnode)
  ulist : SelfLinked mem (base + offsetUlist)

/-- The entry at `base` reads back, and it and its strings lie apart from each other in a block
of `size` bytes. -/
structure Laid (mem : Memory) (base size : Nat) (gpname gpinfo : List UInt8) (gpid : UInt32) :
    Prop extends ReadsBack mem base gpname gpinfo gpid where
  strings_apart : Apart (mem.loadSize base) (gpname.length + 1) (mem.loadSize (base + 8))
    (gpinfo.length + 1)
  name_apart : Apart base sizeofGroupEntry (mem.loadSize base) (gpname.length + 1)
  info_apart : Apart base sizeofGroupEntry (mem.loadSize (base + 8)) (gpinfo.length + 1)
  inside : sizeofGroupEntry ≤ size
  name_inside : base ≤ mem.loadSize base ∧ mem.loadSize base + (gpname.length + 1) ≤ base + size
  info_inside : base ≤ mem.loadSize (base + 8)
    ∧ mem.loadSize (base + 8) + (gpinfo.length + 1) ≤ base + size

/-! ### What an entry is -/

section

variable {mem : Memory} {base : Nat} {gpname gpinfo : List UInt8} {gpid : UInt32}

theorem selfLinked_initNode (mem : Memory) {node : Nat} (hnode : node + 16 ≤ sizeModulus) :
  SelfLinked (Dlist.initNode mem node) node
  := by
  constructor
  · apply Hash.initNode_prev (by omega)
  · simp only [Dlist.initNode, Dlist.offsetPrev, Dlist.offsetNext]
    rw [Memory.loadSize_storeSize_of_apart (Or.inl (by omega)),
      Memory.loadSize_storeSize (by omega)]

theorem SelfLinked.congr {mem' : Memory} {node : Nat} (hnode : SelfLinked mem node)
    (h : ∀ x, node ≤ x → x < node + 16 → mem' x = mem x) :
  SelfLinked mem' node
  := by
  obtain ⟨hprev, hnext⟩ := hnode
  simp only [Dlist.offsetPrev, Dlist.offsetNext] at hprev hnext
  constructor
  · rw [Dlist.offsetPrev, Memory.loadSize_congr fun x hx hx' => h x (by omega) (by omega), hprev]
  · rw [Dlist.offsetNext, Memory.loadSize_congr fun x hx hx' => h x (by omega) (by omega), hnext]

/-- An entry is filled inside its fields and its strings. -/
theorem fillEntry_apply_of_not_mem {x : Nat}
    (h : x < base ∨ base + sizeofGroupEntry ≤ x
      ∧ base + sizeofGroup + (1 + gpname.length) + (1 + gpinfo.length) ≤ x) :
  fillEntry mem base gpname gpinfo gpid x = mem x
  := by
  simp only [sizeofGroupEntry, sizeofGroup] at h
  simp only [fillEntry, sizeofGroup, offsetGroupId, offsetGnode, offsetUlist]
  rw [Hash.initNode_apply_of_not_mem (by omega), Hash.initNode_apply_of_not_mem (by omega),
    Memory.write_apply_of_not_mem (by rw [Memory.bytesOf_length]; omega),
    Memory.write_apply_of_not_mem (by rw [List.length_append, List.length_singleton]; omega),
    Memory.write_apply_of_not_mem (by rw [List.length_append, List.length_singleton]; omega),
    Memory.storeSize_apply_of_not_mem (by omega), Memory.storeSize_apply_of_not_mem (by omega)]

/-- The pointers to the strings lie below them. -/
theorem fillEntry_apply_pointers {x : Nat} (hx : x < base + 16) :
  fillEntry mem base gpname gpinfo gpid x
    = ((mem.storeSize base (base + sizeofGroup)).storeSize (base + 8)
        (base + sizeofGroup + (1 + gpname.length))) x
  := by
  simp only [fillEntry, sizeofGroup, offsetGroupId, offsetGnode, offsetUlist]
  rw [Hash.initNode_apply_of_not_mem (by omega), Hash.initNode_apply_of_not_mem (by omega),
    Memory.write_apply_of_not_mem (by omega), Memory.write_apply_of_not_mem (by omega),
    Memory.write_apply_of_not_mem (by omega)]

theorem fillEntry_name (hfits : base + sizeofGroup < sizeModulus) :
  (fillEntry mem base gpname gpinfo gpid).loadSize base = base + sizeofGroup
  := by
  rw [Memory.loadSize_congr fun x _ hx => fillEntry_apply_pointers (by omega),
    Memory.loadSize_storeSize_of_apart (Or.inr (Nat.le_refl _)), Memory.loadSize_storeSize hfits]

theorem fillEntry_info (hfits : base + sizeofGroup + (1 + gpname.length) < sizeModulus) :
  (fillEntry mem base gpname gpinfo gpid).loadSize (base + 8)
    = base + sizeofGroup + (1 + gpname.length)
  := by
  rw [Memory.loadSize_congr fun x _ hx => fillEntry_apply_pointers (by omega),
    Memory.loadSize_storeSize hfits]

/-- The number of the group is stored in front of the strings. -/
theorem fillEntry_id :
  (fillEntry mem base gpname gpinfo gpid).read (base + offsetGroupId) 4
    = Memory.bytesOf 4 gpid.toNat
  := by
  have hlength := Memory.bytesOf_length 4 gpid.toNat
  have hread := fun mem' => Memory.read_write_self mem' (base + offsetGroupId)
    (Memory.bytesOf 4 gpid.toNat)
  simp only [hlength] at hread
  rw [← hread]
  apply Memory.read_congr
  intro x _ hx
  simp only [offsetGroupId] at hx
  simp only [fillEntry, offsetGnode, offsetUlist]
  rw [Hash.initNode_apply_of_not_mem (by omega), Hash.initNode_apply_of_not_mem (by omega)]

/-- The nodes are initialised last. -/
theorem fillEntry_nodes (hfits : base + sizeofGroupEntry ≤ sizeModulus) :
  SelfLinked (fillEntry mem base gpname gpinfo gpid) (base + offsetGnode)
    ∧ SelfLinked (fillEntry mem base gpname gpinfo gpid) (base + offsetUlist)
  := by
  simp only [sizeofGroupEntry] at hfits
  simp only [fillEntry, offsetGnode, offsetUlist]
  constructor
  · have happly : ∀ (mem' : Memory) x, x < base + 56 →
        Dlist.initNode mem' (base + 56) x = mem' x := by
      intro mem' x hx
      apply Hash.initNode_apply_of_not_mem
      omega
    apply (selfLinked_initNode _ (by omega)).congr
    intro x _ hx
    apply happly _ x (by omega)
  · apply selfLinked_initNode _ (by omega)

/-- Up to `gnode` the block has the strings. -/
theorem fillEntry_apply_strings {x : Nat} (hx : base + sizeofGroup ≤ x)
    (hx' : x < base + offsetGnode) :
  fillEntry mem base gpname gpinfo gpid x
    = mem.write (base + sizeofGroup) (gpname ++ 0 :: (gpinfo ++ [0])) x
  := by
  simp only [sizeofGroup, offsetGnode] at hx hx'
  have hlength : 1 + gpname.length = (gpname ++ [0]).length := by
    rw [List.length_append, List.length_singleton, Nat.add_comm]
  simp only [fillEntry, sizeofGroup, offsetGroupId, offsetGnode, offsetUlist]
  rw [Hash.initNode_apply_of_not_mem (by omega), Hash.initNode_apply_of_not_mem (by omega),
    Memory.write_apply_of_not_mem (by rw [Memory.bytesOf_length]; omega), hlength,
    Memory.write_write_append, List.append_assoc]
  apply Memory.write_congr
  rw [Memory.storeSize_apply_of_not_mem (by omega), Memory.storeSize_apply_of_not_mem (by omega)]

/-- An entry reads back as it was made if its strings end before `gnode`. -/
theorem newGroupEntry_reads (hshort : gpname.length + gpinfo.length ≤ 6)
    (hfits : base + sizeofGroupEntry ≤ sizeModulus) :
  ReadsBack (fillEntry mem base gpname gpinfo gpid) base gpname gpinfo gpid
  := by
  have hlength : (gpname ++ 0 :: (gpinfo ++ [0])).length = gpname.length + gpinfo.length + 2 := by
    simp only [List.length_append, List.length_cons, List.length_nil]
    omega
  have hread : ∀ k n, k + n ≤ gpname.length + gpinfo.length + 2 →
      (fillEntry mem base gpname gpinfo gpid).read (base + sizeofGroup + k) n
        = ((gpname ++ 0 :: (gpinfo ++ [0])).drop k).take n := by
    intro k n hle
    have hpart : (mem.write (base + sizeofGroup) (gpname ++ 0 :: (gpinfo ++ [0]))).read
        (base + sizeofGroup + k) n = ((gpname ++ 0 :: (gpinfo ++ [0])).drop k).take n :=
      Memory.read_write_part (hlength ▸ hle)
    rw [← hpart]
    apply Memory.read_congr
    intro x hx hx'
    apply fillEntry_apply_strings
    · omega
    · simp only [sizeofGroup, offsetGnode] at hx hx' ⊢
      omega
  simp only [sizeofGroupEntry] at hfits
  have hname : (fillEntry mem base gpname gpinfo gpid).loadSize base = base + sizeofGroup :=
    fillEntry_name (by rw [sizeofGroup]; omega)
  have hinfo : (fillEntry mem base gpname gpinfo gpid).loadSize (base + 8)
      = base + sizeofGroup + (1 + gpname.length) :=
    fillEntry_info (by rw [sizeofGroup]; omega)
  refine ⟨?_, ?_, fillEntry_id, (fillEntry_nodes hfits).1, (fillEntry_nodes hfits).2⟩
  · have hstring := hread 0 (gpname.length + 1) (by omega)
    rw [Nat.add_zero, List.drop_zero, List.append_cons, List.take_left' (by simp)] at hstring
    rw [StringAt, hname, hstring]
  · have hstring := hread (1 + gpname.length) (gpinfo.length + 1) (by omega)
    rw [List.append_cons, List.drop_left' (by simp [Nat.add_comm]),
      List.take_of_length_le (by simp)] at hstring
    rw [StringAt, hinfo, hstring]

/-- An entry that is made fills the block the pool gave. -/
theorem newGroupEntry_cases {pool pool' : MemPool} {heap heap' : Heap} {mallocs : Mallocs}
    (h : newGroupEntry pool heap gpname gpinfo gpid mallocs = some (some base, heap', pool')) :
  ∃ heap₁, pool.alloc heap (entrySize gpname gpinfo) mallocs = some (some base, heap₁, pool')
    ∧ heap' = { heap₁ with mem := fillEntry heap₁.mem base gpname gpinfo gpid }
  := by
  rw [newGroupEntry] at h
  split at h
  · cases h
  · cases h
  · rename_i base' heap₁ pool₁ halloc
    cases h
    exact ⟨heap₁, halloc, rfl⟩

/-- The strings of an entry are never outside it. -/
theorem newGroupEntry_not_laid {pool pool' : MemPool} {heap heap' : Heap} {mallocs : Mallocs}
    (hnew : newGroupEntry pool heap gpname gpinfo gpid mallocs = some (some base, heap', pool'))
    (hfits : base + sizeofGroupEntry ≤ sizeModulus) :
  ¬ Laid heap'.mem base (entrySize gpname gpinfo) gpname gpinfo gpid
  := by
  obtain ⟨heap₁, -, rfl⟩ := newGroupEntry_cases hnew
  simp only [sizeofGroupEntry] at hfits
  have hname : (fillEntry heap₁.mem base gpname gpinfo gpid).loadSize base = base + sizeofGroup :=
    fillEntry_name (by rw [sizeofGroup]; omega)
  intro h
  have hapart := h.name_apart
  simp only [hname, Apart, sizeofGroup, sizeofGroupEntry] at hapart
  omega

end

theorem newGroupEntry_not_laid_pals :
  ∃ base heap pool, newGroupEntry (MemPool.init 4096 8) ⟨fun _ => 0, []⟩ (ascii "pals") [] 1
      ⟨true, some 4096⟩ = some (some base, heap, pool)
    ∧ ¬ Laid heap.mem base (entrySize (ascii "pals") []) (ascii "pals") [] 1
  := by
  have hnew : newGroupEntry (MemPool.init 4096 8) ⟨fun _ => 0, []⟩ (ascii "pals") [] 1
      ⟨true, some 4096⟩ = some (some _, _, _) := rfl
  exact ⟨_, _, _, hnew, newGroupEntry_not_laid hnew (by decide)⟩

/-- A longer name does not read back either. -/
theorem friends_overwritten :
  ∃ base heap pool, newGroupEntry (MemPool.init 4096 8) ⟨fun _ => 0, []⟩ (ascii "friends!") [] 1
      ⟨true, some 4096⟩ = some (some base, heap, pool)
    ∧ ¬ Laid heap.mem base (entrySize (ascii "friends!") []) (ascii "friends!") [] 1
    ∧ ¬ StringAt heap.mem (heap.mem.loadSize base) (ascii "friends!")
  := by
  refine ⟨_, _, _, rfl, ?_, ?_⟩
  · intro h
    have hapart := h.name_apart
    revert hapart
    decide +kernel
  · decide +kernel

end GroupEntry

end IFreeChat
