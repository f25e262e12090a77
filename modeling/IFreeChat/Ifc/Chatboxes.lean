import Mathlib.Data.List.Nodup
import IFreeChat.Hash.Map
import IFreeChat.Ifc.PoolBlocks

/-!
# Chatboxes

A chatbox of a user is a block of the pool, to which the entry of the user points while the
chatbox is open.  A chatbox of a group is a block of `malloc`, and the entry of the group
never points to it.  Both are closed by `close_chatbox`, which clears the pointer of the entry
and gives the block to the pool.

So, where no block that is given meets one in use, every chatbox is the only one of its entry,
which points to it, and its block goes back where it came from, exactly when the entries of the
groups start with no pointer, no group row is double-clicked, and the pool has the blocks of the
chatboxes that are closed in its chunks (`run_unique_iff`).
-/

open Basis

namespace IFreeChat

namespace Chatboxes

/-! ### Group entries -/

/-- `sizeof(group_t)`. -/
def sizeofGroup : Nat := 32

/-- The offset of `group_id` in a `group_entry_t`. -/
def offsetGroupId : Nat := 16

/-- The offset of `chatbox` in a `group_entry_t`. -/
def offsetChatbox : Nat := 32

/-- The offset of `gnode` in a `group_entry_t`. -/
def offsetGnode : Nat := 40

/-- The offset of `ulist` in a `group_entry_t`. -/
def offsetUlist : Nat := 56

/-- What a `group_entry_t` is made from: the memory, the block the pool gives, and the name,
the info and the number of the group. -/
structure NewGroup where
  mem : Memory
  base : Nat
  gpname : CString
  gpinfo : CString
  gpid : UInt32

/-- `new_group_entry`: the memory with the entry.  The strings start after `sizeof(group_t)`
bytes, within the entry. -/
def NewGroup.newGroupEntry (n : NewGroup) : Memory :=
  let groupName := n.base + sizeofGroup
  let groupInfo := groupName + (1 + n.gpname.val.length)
  let mem := n.mem.storeSize n.base groupName
  let mem := mem.storeSize (n.base + 8) groupInfo
  let mem := mem.write groupName (n.gpname.val ++ [0])
  let mem := mem.write groupInfo (n.gpinfo.val ++ [0])
  let mem := mem.write (n.base + offsetGroupId) (Memory.bytesOf 4 n.gpid.toNat)
  let mem := Dlist.initNode mem (n.base + offsetGnode)
  Dlist.initNode mem (n.base + offsetUlist)

/-- The field `chatbox` of a new entry. -/
def NewGroup.chatbox (n : NewGroup) : Nat := n.newGroupEntry.loadSize (n.base + offsetChatbox)

/-- The group has no name and no info, and the bytes of its block after their terminators are
zero up to the next field. -/
def NewGroup.Blank (n : NewGroup) : Prop :=
  n.gpname.val = [] ∧ n.gpinfo.val = [] ∧ ∀ i < 6, n.mem (n.base + 34 + i) = 0

instance (n : NewGroup) : Decidable n.Blank :=
  inferInstanceAs (Decidable (_ ∧ _ ∧ ∀ i < 6, _))

/-! ### Chatboxes -/

/-- Where a block comes from. -/
inductive Allocator where
  | pool
  | malloc
deriving DecidableEq

/-- `chatbox_t`: its block, the entry it is for, and the allocator of the block.  Its number
tells it from those whose block was at the same address. -/
structure Chatbox (User Group : Type) where
  id : Nat
  addr : Nat
  data : User ⊕ Group
  allocator : Allocator
deriving DecidableEq

/-- A queued `msg_t` of a user, in this block. -/
structure Msg (User : Type) where
  addr : Nat
  gpid : Nat
  user : User

/-- The fields `chatbox` of the entries, `0` for `NULL`, the chatboxes that are open and those
that were closed, the blocks given back, the messages queued, whether the mutex of the pool is
locked, and the blocks that the rest of the program has. -/
structure State (User Group : Type) where
  userChatbox : User → Nat
  groupChatbox : Group → Nat
  opened : List (Chatbox User Group)
  closed : List (Chatbox User Group)
  released : List (Chatbox User Group × Allocator)
  created : Nat
  mlist : List (Msg User)
  locked : Bool
  others : List Extent

variable {User Group : Type} [DecidableEq User] [DecidableEq Group]

/-- A block is given at these addresses: of the chatboxes and the messages that it meets nothing
is left. -/
def overwrite (s : State User Group) (r : Extent) : State User Group :=
  { s with
    opened := r.spared (fun c => chatboxExtent c.addr) s.opened
    mlist := r.spared (fun m => msgExtent m.addr) s.mlist }

/-- `mem_pool_alloc` of these addresses. -/
def memPoolAlloc (s : State User Group) (r : Extent) : Option (State User Group) :=
  if s.locked then none else some (overwrite s r)

/-- `mem_pool_free` of a block that is no chatbox.  Where no chunk of the pool has the block, the
mutex stays locked. -/
def memPoolFree (s : State User Group) (found : Bool) : Option (State User Group) :=
  if s.locked then none else some { s with locked := !found }

/-- `mem_pool_free` of the block of a chatbox, which is in a chunk of the pool if the pool gave
it and `found` holds.  Otherwise it stays where it is, and the mutex of the pool stays locked. -/
def memPoolFreeChatbox (s : State User Group) (chatbox : Chatbox User Group) (found : Bool) :
    Option (State User Group) :=
  if s.locked then none
  else if chatbox.allocator = .pool ∧ found = true then
    some { s with released := s.released ++ [(chatbox, .pool)] }
  else some { s with locked := true }

/-- `gtk_window_present` of a chatbox: its window is there while it is open. -/
def present (s : State User Group) (addr : Nat) : Option (State User Group) :=
  if ∃ c ∈ s.opened, c.addr = addr then some s else none

/-- `new_pchatbox`, with the block the pool gives.  It writes to the block. -/
def newPchatbox (s : State User Group) (user : User) (block : Nat) :
    Option (State User Group) := do
  let s ← memPoolAlloc s (chatboxExtent block)
  if block = 0 then none
  else some { s with
    userChatbox := Function.update s.userChatbox user block
    opened := s.opened ++ [⟨s.created, block, .inl user, .pool⟩]
    created := s.created + 1 }

/-- `new_gchatbox`, with the block `malloc` gives.  It writes to the block. -/
def newGchatbox (s : State User Group) (group : Group) (block : Nat) :
    Option (State User Group) :=
  let s := overwrite s (chatboxExtent block)
  if block = 0 then none
  else some { s with
    opened := s.opened ++ [⟨s.created, block, .inr group, .malloc⟩]
    created := s.created + 1 }

/-- `close_chatbox`. -/
def closeChatbox (s : State User Group) (chatbox : Chatbox User Group) (found : Bool) :
    Option (State User Group) :=
  let s := { s with
    opened := s.opened.erase chatbox
    closed := s.closed ++ [chatbox] }
  let s :=
    match chatbox.data with
    | .inl user => { s with userChatbox := Function.update s.userChatbox user 0 }
    | .inr group => { s with groupChatbox := Function.update s.groupChatbox group 0 }
  memPoolFreeChatbox s chatbox found

/-- `contact_treeview_ondoubleclicked` on the row of `user`. -/
def contactTreeviewOndoubleclicked (s : State User Group) (user : User) (block : Nat) :
    Option (State User Group) :=
  if s.userChatbox user ≠ 0 then present s (s.userChatbox user)
  else newPchatbox s user block

/-- `group_treeview_ondoubleclicked` on the row of `group`. -/
def groupTreeviewOndoubleclicked (s : State User Group) (group : Group) (block : Nat) :
    Option (State User Group) :=
  if s.groupChatbox group ≠ 0 then present s (s.groupChatbox group)
  else newGchatbox s group block

/-- `insert_chat_msg` of a message, which is queued unless the chatbox of its user is open, and
given back to the pool then. -/
def insertChatMsg (s : State User Group) (msg : Msg User) (found : Bool) :
    Option (State User Group) :=
  if s.userChatbox msg.user ≠ 0 then do
    let s ← present s (s.userChatbox msg.user)
    memPoolFree s found
  else some { s with mlist := s.mlist ++ [msg] }

/-- `tray_icon_activated`. -/
def trayIconActivated (s : State User Group) (block : Nat) (found : Bool) :
    Option (State User Group) :=
  match s.mlist with
  | [] => some s
  | msg :: mlist => do
      let s := { s with mlist }
      let s ← (if msg.gpid = 0 then
          if s.userChatbox msg.user ≠ 0 then present s (s.userChatbox msg.user)
          else newPchatbox s msg.user block
        else some s)
      memPoolFree s found

/-- What happens to the program: a row is double-clicked, a message comes in, the tray icon is
clicked, or a chatbox is closed; the rest of the program takes a block or gives one back.  A block
is what the allocator gives if it is asked, and `found` is whether a chunk of the pool has the one
that is given back. -/
inductive Event (User Group : Type) where
  | doubleClickUser (user : User) (block : Nat)
  | doubleClickGroup (group : Group) (block : Nat)
  | arrive (msg : Msg User) (found : Bool)
  | tray (block : Nat) (found : Bool)
  | close (chatbox : Chatbox User Group) (found : Bool)
  | alloc (r : Extent)
  | free (r : Extent) (found : Bool)

/-- One step of the program.  A chatbox that is not open is not closed. -/
def step (s : State User Group) : Event User Group → Option (State User Group)
  | .doubleClickUser user block => contactTreeviewOndoubleclicked s user block
  | .doubleClickGroup group block => groupTreeviewOndoubleclicked s group block
  | .arrive msg found => do
      -- the block is taken by `process_message_loop`
      let s ← memPoolAlloc s (msgExtent msg.addr)
      insertChatMsg s msg found
  | .tray block found => trayIconActivated s block found
  | .close chatbox found => if chatbox ∈ s.opened then closeChatbox s chatbox found else none
  | .alloc r => (memPoolAlloc s r).map fun s => { s with others := r :: s.others }
  | .free r found => (memPoolFree s found).map fun s => { s with others := s.others.erase r }

/-- The machine of the program. -/
def machine (User Group : Type) [DecidableEq User] [DecidableEq Group] :
    Machine (State User Group) (Event User Group) Unit where
  step s e := (step s e).map fun s' => ((), s')

/-- The program with these groups, messages queued and blocks of its own, before any chatbox is
opened. -/
def start (groups : Group → NewGroup) (mlist : List (Msg User)) (others : List Extent) :
    State User Group where
  userChatbox := fun _ => 0
  groupChatbox := fun group => (groups group).chatbox
  opened := []
  closed := []
  released := []
  created := 0
  mlist := mlist
  locked := false
  others := others

/-- The addresses that are taken meet no open chatbox, no queued message, and no block of the rest
of the program. -/
structure Unused (s : State User Group) (r : Extent) : Prop where
  opened : r.Unused (s.opened.map fun c => chatboxExtent c.addr)
  mlist : r.Unused (s.mlist.map fun m => msgExtent m.addr)
  others : r.Unused s.others

instance (s : State User Group) (r : Extent) : Decidable (Unused s r) :=
  decidable_of_iff (_ ∧ _ ∧ _)
    ⟨fun ⟨opened, mlist, others⟩ => { opened, mlist, others },
      fun ⟨opened, mlist, others⟩ => ⟨opened, mlist, others⟩⟩

/-- A block that is given meets none in use. -/
def Fresh (s : State User Group) : Event User Group → Prop
  | .doubleClickUser user block => s.userChatbox user = 0 → Unused s (chatboxExtent block)
  | .doubleClickGroup group block => s.groupChatbox group = 0 → Unused s (chatboxExtent block)
  | .arrive msg _ => Unused s (msgExtent msg.addr)
  | .tray block _ => ∀ msg ∈ s.mlist.head?, msg.gpid = 0 → s.userChatbox msg.user = 0 →
      Unused s (chatboxExtent block)
  | .alloc r => Unused s r
  | .close _ _ | .free _ _ => True

instance (s : State User Group) : ∀ e, Decidable (Fresh s e)
  | .doubleClickUser _ _ => inferInstanceAs (Decidable (_ = 0 → _))
  | .doubleClickGroup _ _ => inferInstanceAs (Decidable (_ = 0 → _))
  | .arrive msg _ => inferInstanceAs (Decidable (Unused s (msgExtent msg.addr)))
  | .tray _ _ => inferInstanceAs (Decidable (∀ msg ∈ s.mlist.head?, _ → _ → _))
  | .alloc r => inferInstanceAs (Decidable (Unused s r))
  | .close _ _ | .free _ _ => .isTrue trivial

/-- What happens where chatboxes are unique: no row of a group is double-clicked, and the block of
a chatbox that is closed is in a chunk of the pool. -/
def Event.Kept : Event User Group → Prop
  | .doubleClickGroup _ _ => False
  | .close _ found => found = true
  | _ => True

instance : ∀ e : Event User Group, Decidable e.Kept
  | .doubleClickGroup _ _ => inferInstanceAs (Decidable False)
  | .close _ found => inferInstanceAs (Decidable (found = true))
  | .doubleClickUser _ _ | .arrive _ _ | .tray _ _ | .alloc _ | .free _ _ => .isTrue trivial

/-- Every chatbox that is open is the only one of its entry, and the entries point to the
chatboxes that are open; every one that was closed was given back once, to its allocator. -/
structure Unique (s : State User Group) : Prop where
  one : (s.opened.map Chatbox.data).Nodup
  user_open : ∀ c ∈ s.opened, ∀ user, c.data = .inl user →
    s.userChatbox user ≠ 0 ∧ s.userChatbox user = c.addr
  user_field : ∀ user, s.userChatbox user ≠ 0 → ∃ c ∈ s.opened, c.data = .inl user
  group_open : ∀ c ∈ s.opened, ∀ group, c.data = .inr group →
    s.groupChatbox group ≠ 0 ∧ s.groupChatbox group = c.addr
  group_field : ∀ group, s.groupChatbox group ≠ 0 → ∃ c ∈ s.opened, c.data = .inr group
  released : ∀ c ∈ s.closed,
    (s.released.filter fun r => r.1.id = c.id) = [(c, c.allocator)]

/-! ### The field of a new group -/

/-- The field has the bytes of the strings, or what the block had there. -/
theorem NewGroup.newGroupEntry_apply (n : NewGroup) {i : Nat} (hi : i < 8) :
  n.newGroupEntry (n.base + offsetChatbox + i)
    = (n.mem.write (n.base + sizeofGroup) (n.gpname.val ++ [0])).write
        (n.base + sizeofGroup + (1 + n.gpname.val.length)) (n.gpinfo.val ++ [0])
        (n.base + offsetChatbox + i)
  := by
  simp only [newGroupEntry, offsetChatbox, offsetGnode, offsetUlist, offsetGroupId]
  rw [Hash.initNode_apply_of_not_mem (by omega), Hash.initNode_apply_of_not_mem (by omega),
    Memory.write_apply_of_not_mem (by rw [Memory.bytesOf_length]; omega)]
  apply Memory.write_congr
  apply Memory.write_congr
  rw [Memory.storeSize_apply_of_not_mem (by omega), Memory.storeSize_apply_of_not_mem (by omega)]

/-- A string written where the first byte is zero is empty. -/
theorem eq_nil_of_write {mem : Memory} {a : Nat} {s : CString}
    (h : (mem.write a (s.val ++ [0])) a = 0) :
  s.val = []
  := by
  cases heq : s.val with
  | nil => rfl
  | cons c rest =>
    have hfirst := @Memory.write_apply_of_mem mem a 0 (s.val ++ [0]) (by simp)
    rw [Nat.add_zero, h] at hfirst
    simp only [heq, List.cons_append, List.getElem_cons_zero] at hfirst
    have hnul := s.property.1
    rw [heq, ← hfirst] at hnul
    exact absurd List.mem_cons_self hnul

/-- The bytes of two empty strings in a row, and those after them. -/
theorem write_nil_nil_apply (mem : Memory) (a i : Nat) :
  (mem.write a ([] ++ [0])).write (a + (1 + ([] : List UInt8).length)) ([] ++ [0]) (a + i)
    = if i < 2 then 0 else mem (a + i)
  := by
  simp only [List.nil_append, List.length_nil, Nat.add_zero]
  obtain rfl | rfl | hi : i = 0 ∨ i = 1 ∨ 2 ≤ i := by omega
  · rw [Memory.write_apply_of_not_mem (by omega), Memory.write_apply_of_mem (by simp)]
    rfl
  · rw [← Nat.add_zero (a + 1), Memory.write_apply_of_mem (by simp)]
    rfl
  · rw [Memory.write_apply_of_not_mem (by rw [List.length_singleton]; omega),
      Memory.write_apply_of_not_mem (by rw [List.length_singleton]; omega),
      if_neg (by omega)]

/-- A new group has no pointer to a chatbox exactly when it is blank. -/
theorem NewGroup.chatbox_eq_zero_iff (n : NewGroup) :
  n.chatbox = 0 ↔ n.Blank
  := by
  rw [chatbox, Memory.loadSize_eq_zero_iff]
  have happly : (∀ i < 8, n.newGroupEntry (n.base + offsetChatbox + i) = 0) ↔ ∀ i < 8,
      (n.mem.write (n.base + sizeofGroup) (n.gpname.val ++ [0])).write
        (n.base + sizeofGroup + (1 + n.gpname.val.length)) (n.gpinfo.val ++ [0])
        (n.base + offsetChatbox + i) = 0 := by
    apply forall₂_congr
    intro i hi
    rw [n.newGroupEntry_apply hi]
  rw [happly, Blank]
  simp only [offsetChatbox, sizeofGroup]
  constructor
  · intro h
    have hname : n.gpname.val = [] := by
      have hfirst := h 0 (by decide)
      rw [Nat.add_zero, Memory.write_apply_of_not_mem (by omega)] at hfirst
      apply eq_nil_of_write hfirst
    rw [hname] at h
    have hinfo : n.gpinfo.val = [] := by
      have hsecond := h 1 (by decide)
      apply eq_nil_of_write hsecond
    refine ⟨hname, hinfo, ?_⟩
    intro i hi
    have hrest := h (2 + i) (by omega)
    rw [hinfo, write_nil_nil_apply, if_neg (by omega), ← Nat.add_assoc] at hrest
    exact hrest
  · rintro ⟨hname, hinfo, hrest⟩ i hi
    rw [hname, hinfo, write_nil_nil_apply]
    split
    · rfl
    · rename_i hlarge
      have hbyte := hrest (i - 2) (by omega)
      rw [show n.base + 34 + (i - 2) = n.base + 32 + i from by omega] at hbyte
      exact hbyte

/-! ### Steps -/

section

variable {s s' : State User Group}

omit [DecidableEq User] [DecidableEq Group] in
theorem present_eq_some {addr : Nat} (h : present s addr = some s') :
  s' = s
  := by
  rw [present, Option.ite_none_right_eq_some] at h
  cases h.2
  rfl

theorem machine_step {e : Event User Group} {o : Unit}
    (h : (machine User Group).step s e = some (o, s')) :
  step s e = some s'
  := by
  obtain ⟨t, ht, heq⟩ := Option.map_eq_some_iff.mp h
  cases heq
  exact ht

/-- A new chatbox of a group. -/
def openedGroup (s : State User Group) (group : Group) (block : Nat) : State User Group :=
  { s with
    opened := s.opened ++ [⟨s.created, block, .inr group, .malloc⟩]
    created := s.created + 1 }

/-- A new chatbox of a user, with these messages queued. -/
def openedUser (s : State User Group) (user : User) (block : Nat) (mlist : List (Msg User))
    (locked : Bool) : State User Group :=
  { s with
    userChatbox := Function.update s.userChatbox user block
    opened := s.opened ++ [⟨s.created, block, .inl user, .pool⟩]
    created := s.created + 1
    mlist
    locked }

omit [DecidableEq User] [DecidableEq Group] in
/-- A block that meets none in use overwrites nothing. -/
theorem overwrite_eq_self {r : Extent} (h : Unused s r) :
  overwrite s r = s
  := by
  rw [overwrite, Extent.spared_eq_self h.opened, Extent.spared_eq_self h.mlist]

omit [DecidableEq User] [DecidableEq Group] in
/-- A queue without its first message takes no more addresses. -/
theorem Unused.tail {r : Extent} (h : Unused s r) {msg : Msg User} {mlist : List (Msg User)}
    (hmlist : s.mlist = msg :: mlist) :
  Unused { s with mlist } r
  where
  opened := h.opened
  mlist := by
    apply h.mlist.mono
    rw [hmlist]
    apply List.subset_cons_self
  others := h.others

omit [DecidableEq User] [DecidableEq Group] in
theorem memPoolAlloc_eq_some {r : Extent} (hunused : Unused s r)
    (h : memPoolAlloc s r = some s') :
  s' = s ∧ s.locked = false
  := by
  rw [memPoolAlloc, overwrite_eq_self hunused, Option.ite_none_left_eq_some] at h
  obtain ⟨hlocked, h⟩ := h
  cases h
  exact ⟨rfl, Bool.eq_false_of_not_eq_true hlocked⟩

omit [DecidableEq User] [DecidableEq Group] in
theorem memPoolFree_eq_some {found : Bool} (h : memPoolFree s found = some s') :
  s' = { s with locked := !found } ∧ s.locked = false
  := by
  rw [memPoolFree, Option.ite_none_left_eq_some] at h
  obtain ⟨hlocked, h⟩ := h
  cases h
  exact ⟨rfl, Bool.eq_false_of_not_eq_true hlocked⟩

omit [DecidableEq Group] in
theorem contactTreeviewOndoubleclicked_cases {user : User} {block : Nat}
    (hfresh : s.userChatbox user = 0 → Unused s (chatboxExtent block))
    (h : contactTreeviewOndoubleclicked s user block = some s') :
  s' = s ∨ (block ≠ 0 ∧ s.userChatbox user = 0 ∧ s.locked = false
    ∧ s' = openedUser s user block s.mlist s.locked)
  := by
  rw [contactTreeviewOndoubleclicked] at h
  split at h
  · left
    apply present_eq_some h
  · rename_i hfield
    right
    have hfield := not_not.mp hfield
    simp only [newPchatbox, Option.bind_eq_bind, Option.bind_eq_some_iff] at h
    obtain ⟨t, halloc, h⟩ := h
    obtain ⟨rfl, hlocked⟩ := memPoolAlloc_eq_some (hfresh hfield) halloc
    rw [Option.ite_none_left_eq_some] at h
    cases h.2
    exact ⟨h.1, hfield, hlocked, rfl⟩

omit [DecidableEq Group] in
/-- The tray icon takes the first message, and opens the chatbox of its user if that is not
open. -/
theorem trayIconActivated_cases {block : Nat} {found : Bool}
    (hfresh : Fresh s (.tray block found)) (h : trayIconActivated s block found = some s') :
  s' = s
    ∨ (s.locked = false ∧ (s' = { s with mlist := s'.mlist, locked := s'.locked }
      ∨ ∃ user, block ≠ 0 ∧ s.userChatbox user = 0
        ∧ s' = openedUser s user block s'.mlist s'.locked))
  := by
  rw [trayIconActivated] at h
  split at h
  · left
    cases h
    rfl
  · rename_i msg mlist hmlist
    right
    simp only [Option.bind_eq_bind, Option.bind_eq_some_iff] at h
    obtain ⟨t, ht, h⟩ := h
    obtain ⟨rfl, hlocked⟩ := memPoolFree_eq_some h
    split at ht
    · rename_i hgpid
      have hunused : s.userChatbox msg.user = 0 →
          Unused { s with mlist } (chatboxExtent block) := by
        intro hfield
        apply Unused.tail _ hmlist
        apply hfresh msg (by simp [hmlist]) hgpid hfield
      have hopen : contactTreeviewOndoubleclicked { s with mlist } msg.user block = some t := ht
      obtain rfl | ⟨hblock, hfield, hlocked', rfl⟩ :=
        contactTreeviewOndoubleclicked_cases hunused hopen
      · exact ⟨hlocked, Or.inl rfl⟩
      · exact ⟨hlocked', Or.inr ⟨msg.user, hblock, hfield, rfl⟩⟩
    · cases ht
      exact ⟨hlocked, Or.inl rfl⟩

/-- What a step does to the chatboxes where the blocks that are given meet none in use: nothing,
or a chatbox of a user or of a group is opened, or one is closed.  Most calls do not return once
the mutex of the pool is locked. -/
theorem step_cases {e : Event User Group} (hfresh : Fresh s e) (h : step s e = some s') :
  s' = s
    ∨ (s.locked = false
      ∧ s' = { s with mlist := s'.mlist, locked := s'.locked, others := s'.others })
    ∨ (s.locked = false ∧ ∃ user block, block ≠ 0 ∧ s.userChatbox user = 0
        ∧ s' = openedUser s user block s'.mlist s'.locked)
    ∨ (∃ group block, e = .doubleClickGroup group block ∧ s.groupChatbox group = 0
        ∧ s' = openedGroup s group block)
    ∨ ∃ chatbox ∈ s.opened, ∃ found, e = .close chatbox found
        ∧ closeChatbox s chatbox found = some s'
  := by
  cases e with
  | doubleClickUser user block =>
    obtain rfl | ⟨hblock, hfield, hlocked, rfl⟩ := contactTreeviewOndoubleclicked_cases hfresh h
    · left
      rfl
    · right
      right
      left
      exact ⟨hlocked, user, block, hblock, hfield, rfl⟩
  | doubleClickGroup group block =>
    rw [step, groupTreeviewOndoubleclicked] at h
    split at h
    · left
      rw [present_eq_some h]
    · rename_i hfield
      have hfield := not_not.mp hfield
      right
      right
      right
      left
      rw [newGchatbox, overwrite_eq_self (hfresh hfield), Option.ite_none_left_eq_some] at h
      cases h.2
      exact ⟨group, block, rfl, hfield, rfl⟩
  | arrive msg found =>
    right
    left
    simp only [step, Option.bind_eq_bind, Option.bind_eq_some_iff] at h
    obtain ⟨t, halloc, h⟩ := h
    obtain ⟨rfl, hlocked⟩ := memPoolAlloc_eq_some hfresh halloc
    use hlocked
    rw [insertChatMsg] at h
    split at h
    · simp only [Option.bind_eq_bind, Option.bind_eq_some_iff] at h
      obtain ⟨u, hpresent, h⟩ := h
      cases present_eq_some hpresent
      obtain ⟨rfl, -⟩ := memPoolFree_eq_some h
      rfl
    · cases h
      rfl
  | tray block found =>
    obtain rfl | ⟨hlocked, hmlist | ⟨user, hblock, hfield, hs'⟩⟩ := trayIconActivated_cases hfresh h
    · left
      rfl
    · right
      left
      rw [hmlist]
      exact ⟨hlocked, rfl⟩
    · right
      right
      left
      exact ⟨hlocked, user, block, hblock, hfield, hs'⟩
  | close chatbox found =>
    right
    right
    right
    right
    rw [step, Option.ite_none_right_eq_some] at h
    exact ⟨chatbox, h.1, found, rfl, h.2⟩
  | alloc r =>
    right
    left
    obtain ⟨t, halloc, rfl⟩ := Option.map_eq_some_iff.mp h
    obtain ⟨rfl, hlocked⟩ := memPoolAlloc_eq_some hfresh halloc
    exact ⟨hlocked, rfl⟩
  | free r found =>
    right
    left
    obtain ⟨t, hfree, rfl⟩ := Option.map_eq_some_iff.mp h
    obtain ⟨rfl, hlocked⟩ := memPoolFree_eq_some hfree
    exact ⟨hlocked, rfl⟩

/-- What closing a chatbox does. -/
theorem closeChatbox_cases {chatbox : Chatbox User Group} {found : Bool}
    (h : closeChatbox s chatbox found = some s') :
  s.locked = false
    ∧ s'.opened = s.opened.erase chatbox ∧ s'.closed = s.closed ++ [chatbox]
    ∧ s'.created = s.created
    ∧ (match chatbox.data with
      | .inl user => s'.userChatbox = Function.update s.userChatbox user 0
          ∧ s'.groupChatbox = s.groupChatbox
      | .inr group => s'.userChatbox = s.userChatbox
          ∧ s'.groupChatbox = Function.update s.groupChatbox group 0)
    ∧ if chatbox.allocator = .pool ∧ found = true then
        s'.released = s.released ++ [(chatbox, .pool)]
      else s'.released = s.released ∧ s'.locked = true
  := by
  obtain ⟨id, addr, data, allocator⟩ := chatbox
  rw [closeChatbox, memPoolFreeChatbox, Option.ite_none_left_eq_some] at h
  obtain ⟨hlocked, h⟩ := h
  split at h
  · rename_i hfound
    rw [if_pos hfound]
    cases data <;> cases h <;> exact ⟨Bool.eq_false_of_not_eq_true hlocked, by simp⟩
  · rename_i hfound
    rw [if_neg hfound]
    cases data <;> cases h <;> exact ⟨Bool.eq_false_of_not_eq_true hlocked, by simp⟩

/-! ### Chatboxes of users only -/

/-- The chatboxes of a run without chatboxes of groups: all of them are of users, and their
blocks are of the pool. -/
structure Private (s : State User Group) : Prop where
  ids : ((s.opened ++ s.closed).map Chatbox.id).Nodup
  lt : ∀ c ∈ s.opened ++ s.closed, c.id < s.created
  user : ∀ c ∈ s.opened ++ s.closed, (∃ user, c.data = .inl user) ∧ c.allocator = .pool
  one : (s.opened.map Chatbox.data).Nodup
  user_open : ∀ c ∈ s.opened, ∀ user, c.data = .inl user →
    s.userChatbox user ≠ 0 ∧ s.userChatbox user = c.addr
  user_field : ∀ user, s.userChatbox user ≠ 0 → ∃ c ∈ s.opened, c.data = .inl user
  group_field : ∀ group, s.groupChatbox group = 0
  released : s.released = s.closed.map fun c => (c, .pool)

omit [DecidableEq User] [DecidableEq Group] in
/-- What was given back with the number of a closed chatbox is that chatbox. -/
theorem filter_released {closed : List (Chatbox User Group)}
    (hids : (closed.map Chatbox.id).Nodup) {c : Chatbox User Group} (hc : c ∈ closed) :
  ((closed.map fun c => (c, Allocator.pool)).filter fun r => r.1.id = c.id) = [(c, .pool)]
  := by
  obtain ⟨before, after, rfl⟩ := List.append_of_mem hc
  rw [List.map_append, List.map_cons, List.nodup_middle, List.nodup_cons] at hids
  have hother : ∀ rest : List (Chatbox User Group), (∀ d ∈ rest, d.id ≠ c.id) →
      (rest.map fun c => (c, Allocator.pool)).filter (fun r => r.1.id = c.id) = [] := by
    intro rest hrest
    rw [List.filter_eq_nil_iff]
    intro r hr
    obtain ⟨d, hd, rfl⟩ := List.mem_map.mp hr
    simpa using hrest d hd
  have hne : ∀ d ∈ before ++ after, d.id ≠ c.id := by
    intro d hd heq
    apply hids.1
    rw [← List.map_append, ← heq]
    apply List.mem_map_of_mem hd
  rw [List.map_append, List.map_cons, List.filter_append,
    List.filter_cons_of_pos (by simp),
    hother before fun d hd => hne d (List.mem_append_left _ hd),
    hother after fun d hd => hne d (List.mem_append_right _ hd), List.nil_append]

omit [DecidableEq User] [DecidableEq Group] in
/-- Chatboxes of users only are unique. -/
theorem Private.unique (h : Private s) :
  Unique s
  where
  one := h.one
  user_open := h.user_open
  user_field := h.user_field
  group_open := by
    intro c hc group hdata
    obtain ⟨⟨user, huser⟩, -⟩ := h.user c (List.mem_append_left _ hc)
    rw [huser] at hdata
    cases hdata
  group_field := by
    intro group hfield
    exact absurd (h.group_field group) hfield
  released := by
    intro c hc
    have hids := h.ids
    rw [List.map_append] at hids
    rw [h.released, filter_released hids.of_append_right hc,
      (h.user c (List.mem_append_right _ hc)).2]

omit [DecidableEq Group] in
/-- A new chatbox of a user. -/
theorem Private.openedUser (h : Private s) {user : User} {block : Nat} (mlist : List (Msg User))
    (locked : Bool) (hblock : block ≠ 0) (hfield : s.userChatbox user = 0) :
  Private (openedUser s user block mlist locked)
  := by
  have hopened : (Chatboxes.openedUser s user block mlist locked).opened
      = s.opened ++ [⟨s.created, block, .inl user, .pool⟩] := rfl
  have hperm : List.Perm ((Chatboxes.openedUser s user block mlist locked).opened ++ s.closed)
      (⟨s.created, block, .inl user, .pool⟩ :: (s.opened ++ s.closed)) := by
    rw [hopened, List.append_assoc, List.singleton_append]
    apply List.perm_middle
  have hold : ∀ c ∈ s.opened, c.data ≠ .inl user := by
    intro c hc hdata
    exact (h.user_open c hc user hdata).1 hfield
  constructor
  · apply (hperm.map Chatbox.id).nodup_iff.mpr
    rw [List.map_cons, List.nodup_cons]
    constructor
    · intro hmem
      obtain ⟨c, hc, hid⟩ := List.mem_map.mp hmem
      exact absurd hid (Nat.ne_of_lt (h.lt c hc))
    · exact h.ids
  · intro c hc
    obtain rfl | hc := List.mem_cons.mp (hperm.mem_iff.mp hc)
    · apply Nat.lt_succ_self
    · apply Nat.lt_succ_of_lt (h.lt c hc)
  · intro c hc
    obtain rfl | hc := List.mem_cons.mp (hperm.mem_iff.mp hc)
    · exact ⟨⟨user, rfl⟩, rfl⟩
    · apply h.user c hc
  · rw [hopened, ((List.perm_append_singleton _ _).map _).nodup_iff, List.map_cons,
      List.nodup_cons]
    constructor
    · intro hmem
      obtain ⟨c, hc, hdata⟩ := List.mem_map.mp hmem
      exact hold c hc hdata
    · exact h.one
  · intro c hc other hdata
    rw [hopened, List.mem_append, List.mem_singleton] at hc
    obtain hc | rfl := hc
    · have hne : other ≠ user := by
        rintro rfl
        exact hold c hc hdata
      simp only [Chatboxes.openedUser, Function.update_of_ne hne]
      apply h.user_open c hc other hdata
    · cases hdata
      have hself : (Chatboxes.openedUser s user block mlist locked).userChatbox user = block := by
        simp only [Chatboxes.openedUser, Function.update_self]
      rw [hself]
      exact ⟨hblock, rfl⟩
  · intro other hother
    by_cases heq : other = user
    · subst heq
      use ⟨s.created, block, .inl other, .pool⟩, List.mem_append_right _ (List.mem_singleton_self _)
    · simp only [Chatboxes.openedUser, Function.update_of_ne heq] at hother
      obtain ⟨c, hc, hdata⟩ := h.user_field other hother
      use c, List.mem_append_left _ hc
  · apply h.group_field
  · apply h.released

/-- A chatbox of a user is closed. -/
theorem Private.closeChatbox (h : Private s) {chatbox : Chatbox User Group}
    (hmem : chatbox ∈ s.opened) (hclose : closeChatbox s chatbox true = some s') :
  Private s'
  := by
  obtain ⟨⟨user, huser⟩, hpool⟩ := h.user chatbox (List.mem_append_left _ hmem)
  obtain ⟨-, hopened, hclosed, hcreated, hfield, hreleased⟩ := closeChatbox_cases hclose
  rw [huser] at hfield
  rw [if_pos ⟨hpool, rfl⟩] at hreleased
  obtain ⟨huserField, hgroupField⟩ := hfield
  have hperm : (s'.opened ++ s'.closed).Perm (s.opened ++ s.closed) := by
    rw [hopened, hclosed]
    apply List.Perm.trans _ ((List.perm_cons_erase hmem).symm.append_right s.closed)
    rw [← List.append_assoc, List.cons_append]
    apply List.perm_append_singleton
  have hone := h.one
  rw [((List.perm_cons_erase hmem).map _).nodup_iff, List.map_cons, List.nodup_cons] at hone
  have hrest : ∀ c ∈ s.opened.erase chatbox, c.data ≠ .inl user := by
    intro c hc hdata
    apply hone.1
    rw [huser, ← hdata]
    apply List.mem_map_of_mem hc
  constructor
  · rw [(hperm.map _).nodup_iff]
    exact h.ids
  · intro c hc
    rw [hcreated]
    apply h.lt c (hperm.mem_iff.mp hc)
  · intro c hc
    apply h.user c (hperm.mem_iff.mp hc)
  · rw [hopened]
    exact hone.2
  · intro c hc other hdata
    rw [hopened] at hc
    have hne : other ≠ user := by
      rintro rfl
      exact hrest c hc hdata
    rw [huserField, Function.update_of_ne hne]
    apply h.user_open c (List.mem_of_mem_erase hc) other hdata
  · intro other hother
    have hne : other ≠ user := by
      rintro rfl
      rw [huserField, Function.update_self] at hother
      exact hother rfl
    rw [huserField, Function.update_of_ne hne] at hother
    obtain ⟨c, hc, hdata⟩ := h.user_field other hother
    use c
    rw [hopened, List.mem_erase_of_ne]
    · exact ⟨hc, hdata⟩
    · rintro rfl
      rw [huser] at hdata
      cases hdata
      exact hne rfl
  · rw [hgroupField]
    exact h.group_field
  · rw [hreleased, hclosed, h.released, List.map_append]
    rfl

/-- A step that opens no chatbox of a group, and gives back what the pool has. -/
theorem Private.step (h : Private s) {e : Event User Group} (hfresh : Fresh s e) (hkept : e.Kept)
    (hstep : step s e = some s') :
  Private s'
  := by
  obtain rfl | ⟨-, hs'⟩ | ⟨-, user, block, hblock, hfield, hs'⟩ | ⟨group, block, rfl, -⟩
    | ⟨chatbox, hmem, found, rfl, hclose⟩ := step_cases hfresh hstep
  · exact h
  · rw [hs']
    exact ⟨h.ids, h.lt, h.user, h.one, h.user_open, h.user_field, h.group_field, h.released⟩
  · rw [hs']
    apply h.openedUser _ _ hblock hfield
  · exact absurd hkept id
  · apply h.closeChatbox hmem
    rw [← hclose]
    exact congrArg _ (Eq.symm hkept)

/-! ### Chatboxes of groups -/

/-- What holds of every run: the fields of the groups are those of the start, a chatbox of a
group is a block of `malloc`, and nothing but blocks of the pool is given back. -/
structure Traces (fields : Group → Nat) (s : State User Group) : Prop where
  field : s.groupChatbox = fields
  group : ∀ c ∈ s.opened ++ s.closed, ∀ group, c.data = .inr group →
    fields group = 0 ∧ c.allocator = .malloc
  released : ∀ r ∈ s.released, r.2 = .pool

/-- Every step keeps the fields of the groups. -/
theorem Traces.step {fields : Group → Nat} (h : Traces fields s) {e : Event User Group}
    (hfresh : Fresh s e) (hstep : step s e = some s') :
  Traces fields s'
  := by
  obtain rfl | ⟨-, hs'⟩ | ⟨-, user, block, -, -, hs'⟩ | ⟨group, block, -, hfield, hs'⟩
    | ⟨chatbox, hmem, found, -, hclose⟩ := step_cases hfresh hstep
  · exact h
  · rw [hs']
    exact ⟨h.field, h.group, h.released⟩
  · rw [hs']
    refine ⟨h.field, ?_, h.released⟩
    intro c hc other hdata
    simp only [openedUser, List.mem_append, List.mem_singleton] at hc
    obtain (hc | rfl) | hc := hc
    · apply h.group c (List.mem_append_left _ hc) other hdata
    · cases hdata
    · apply h.group c (List.mem_append_right _ hc) other hdata
  · rw [hs']
    refine ⟨h.field, ?_, h.released⟩
    intro c hc other hdata
    simp only [openedGroup, List.mem_append, List.mem_singleton] at hc
    obtain (hc | rfl) | hc := hc
    · apply h.group c (List.mem_append_left _ hc) other hdata
    · cases hdata
      rw [← h.field]
      exact ⟨hfield, rfl⟩
    · apply h.group c (List.mem_append_right _ hc) other hdata
  · obtain ⟨-, hopened, hclosed, -, hfield, hreleased⟩ := closeChatbox_cases hclose
    constructor
    · cases hdata : chatbox.data with
      | inl user =>
        rw [hdata] at hfield
        rw [hfield.2, h.field]
      | inr group =>
        rw [hdata] at hfield
        rw [hfield.2, h.field, Function.update_eq_self_iff]
        apply (h.group chatbox (List.mem_append_left _ hmem) group hdata).1.symm
    · intro c hc
      rw [hopened, hclosed, List.mem_append, List.mem_append, List.mem_singleton] at hc
      obtain hc | hc | rfl := hc
      · apply h.group c (List.mem_append_left _ (List.mem_of_mem_erase hc))
      · apply h.group c (List.mem_append_right _ hc)
      · apply h.group c (List.mem_append_left _ hmem)
    · split at hreleased
      · intro r hr
        rw [hreleased, List.mem_append, List.mem_singleton] at hr
        obtain hr | rfl := hr
        · apply h.released r hr
        · rfl
      · rw [hreleased.1]
        exact h.released

/-- A chatbox that was opened is open or was closed. -/
theorem mem_of_step {e : Event User Group} (hfresh : Fresh s e) (hstep : step s e = some s')
    {c : Chatbox User Group} (hc : c ∈ s.opened ++ s.closed) :
  c ∈ s'.opened ++ s'.closed
  := by
  rw [List.mem_append] at hc ⊢
  obtain rfl | ⟨-, hs'⟩ | ⟨-, user, block, -, -, hs'⟩ | ⟨group, block, -, -, hs'⟩
    | ⟨chatbox, -, found, -, hclose⟩ := step_cases hfresh hstep
  · exact hc
  · rw [hs']
    exact hc
  · rw [hs']
    apply Or.imp_left (List.mem_append_left _) hc
  · rw [hs']
    apply Or.imp_left (List.mem_append_left _) hc
  · obtain ⟨-, hopened, hclosed, -⟩ := closeChatbox_cases hclose
    rw [hopened, hclosed, List.mem_append, List.mem_singleton]
    obtain hc | hc := hc
    · by_cases heq : c = chatbox
      · right
        right
        exact heq
      · left
        apply (List.mem_erase_of_ne heq).mpr hc
    · right
      left
      exact hc

omit [DecidableEq User] [DecidableEq Group] in
/-- Where a chatbox of a group was opened, chatboxes are not unique. -/
theorem Traces.not_unique {fields : Group → Nat} (h : Traces fields s) {c : Chatbox User Group}
    (hc : c ∈ s.opened ++ s.closed) {group : Group} (hdata : c.data = .inr group) :
  ¬ Unique s
  := by
  intro hunique
  obtain ⟨hzero, hmalloc⟩ := h.group c hc group hdata
  obtain hc | hc := List.mem_append.mp hc
  · apply (hunique.group_open c hc group hdata).1
    rw [h.field, hzero]
  · have hmem : (c, c.allocator) ∈ s.released.filter fun r => r.1.id = c.id := by
      rw [hunique.released c hc]
      apply List.mem_singleton_self
    have hpool := h.released _ (List.mem_of_mem_filter hmem)
    rw [hmalloc] at hpool
    cases hpool

/-! ### Chatboxes that are not given back -/

/-- A chatbox was closed while no chunk of the pool had its block, which left the mutex locked. -/
structure Stuck (s : State User Group) : Prop where
  locked : s.locked = true
  kept : ∃ c ∈ s.closed, ∀ r ∈ s.released, r.1 ≠ c

/-- No step gives the block of the chatbox back any more. -/
theorem Stuck.step (h : Stuck s) {e : Event User Group} (hfresh : Fresh s e)
    (hstep : step s e = some s') :
  Stuck s'
  := by
  obtain rfl | ⟨hlocked, -⟩ | ⟨hlocked, -⟩ | ⟨group, block, -, -, hs'⟩
    | ⟨chatbox, -, found, -, hclose⟩ := step_cases hfresh hstep
  · exact h
  · rw [h.locked] at hlocked
    cases hlocked
  · rw [h.locked] at hlocked
    cases hlocked
  · rw [hs']
    exact ⟨h.locked, h.kept⟩
  · have hlocked := (closeChatbox_cases hclose).1
    rw [h.locked] at hlocked
    cases hlocked

omit [DecidableEq User] [DecidableEq Group] in
theorem Stuck.not_unique (h : Stuck s) :
  ¬ Unique s
  := by
  intro hunique
  obtain ⟨c, hc, hkept⟩ := h.kept
  have hmem : (c, c.allocator) ∈ s.released.filter fun r => r.1.id = c.id := by
    rw [hunique.released c hc]
    apply List.mem_singleton_self
  apply hkept _ (List.mem_of_mem_filter hmem) rfl

/-- A chatbox of a group was opened, or one of a user was closed and not given back. -/
def Spoilt (fields : Group → Nat) (s : State User Group) : Prop :=
  Traces fields s ∧ (Stuck s ∨ ∃ c ∈ s.opened ++ s.closed, ∃ group, c.data = .inr group)

theorem Spoilt.step {fields : Group → Nat} (h : Spoilt fields s) {e : Event User Group}
    (hfresh : Fresh s e) (hstep : step s e = some s') :
  Spoilt fields s'
  := by
  obtain ⟨htraces, hstuck | ⟨c, hc, group, hdata⟩⟩ := h
  · exact ⟨htraces.step hfresh hstep, Or.inl (hstuck.step hfresh hstep)⟩
  · exact ⟨htraces.step hfresh hstep, Or.inr ⟨c, mem_of_step hfresh hstep hc, group, hdata⟩⟩

omit [DecidableEq User] [DecidableEq Group] in
theorem Spoilt.not_unique {fields : Group → Nat} (h : Spoilt fields s) :
  ¬ Unique s
  := by
  obtain ⟨htraces, hstuck | ⟨c, hc, group, hdata⟩⟩ := h
  · exact hstuck.not_unique
  · exact htraces.not_unique hc hdata

/-- The chatboxes are of users only, and the fields of the groups those of the start. -/
def State.Good (fields : Group → Nat) (s : State User Group) : Prop :=
  Private s ∧ Traces fields s

/-- A double click on the row of a group opens a chatbox of the group, and a chatbox of a user that
is closed where no chunk of the pool has its block is not given back. -/
theorem Private.spoilt {fields : Group → Nat} (h : Private s) (htraces : Traces fields s)
    {e : Event User Group} (hfresh : Fresh s e) (hkept : ¬ e.Kept)
    (hstep : Chatboxes.step s e = some s') :
  Spoilt fields s'
  := by
  use htraces.step hfresh hstep
  cases e with
  | doubleClickGroup group block =>
    right
    have hfield := h.group_field group
    rw [Chatboxes.step, groupTreeviewOndoubleclicked, if_neg (not_not.mpr hfield), newGchatbox,
      overwrite_eq_self (hfresh hfield), Option.ite_none_left_eq_some] at hstep
    cases hstep.2
    use ⟨s.created, block, .inr group, .malloc⟩, by simp, group
  | close chatbox found =>
    left
    have hfound : ¬ (chatbox.allocator = .pool ∧ found = true) := fun h => hkept h.2
    rw [Chatboxes.step, Option.ite_none_right_eq_some] at hstep
    obtain ⟨hmem, hclose⟩ := hstep
    obtain ⟨-, -, hclosed, -, -, hreleased⟩ := closeChatbox_cases hclose
    rw [if_neg hfound] at hreleased
    use hreleased.2
    rw [hclosed, hreleased.1, h.released]
    use chatbox, List.mem_append_right _ (List.mem_singleton_self _)
    intro r hr heq
    obtain ⟨c, hc, rfl⟩ := List.mem_map.mp hr
    have hids := h.ids
    rw [List.map_append, List.nodup_append] at hids
    apply hids.2.2 _ (List.mem_map_of_mem hmem) _ (List.mem_map_of_mem hc)
    rw [← heq]
  | doubleClickUser user block => exact absurd trivial hkept
  | arrive msg found => exact absurd trivial hkept
  | tray block found => exact absurd trivial hkept
  | alloc r => exact absurd trivial hkept
  | free r found => exact absurd trivial hkept

/-! ### Runs -/

omit [DecidableEq User] [DecidableEq Group] in
/-- The fields of the groups have no pointer at the start. -/
theorem start_private {groups : Group → NewGroup} {mlist : List (Msg User)} {others : List Extent}
    (hblank : ∀ group, (groups group).Blank) :
  Private (start groups mlist others)
  where
  ids := List.nodup_nil
  lt := by simp [start]
  user := by simp [start]
  one := List.nodup_nil
  user_open := by simp [start]
  user_field := by simp [start]
  group_field := by
    intro group
    apply (groups group).chatbox_eq_zero_iff.mpr (hblank group)
  released := rfl

omit [DecidableEq User] [DecidableEq Group] in
theorem start_traces (groups : Group → NewGroup) (mlist : List (Msg User))
    (others : List Extent) :
  Traces (fun group => (groups group).chatbox) (start groups mlist others)
  where
  field := rfl
  group := by simp [start]
  released := by simp [start]

/-- Every run keeps the fields of the groups. -/
theorem Traces.run {fields : Group → Nat} (h : Traces fields s) {es : List (Event User Group)}
    {rets : List Unit} (hfresh : (machine User Group).Meets Fresh s es)
    (hrun : (machine User Group).run s es = some (rets, s')) :
  Traces fields s'
  := by
  apply (machine User Group).run_invariant _ h hfresh hrun
  intro s e o s' hs he hstep
  apply hs.step he (machine_step hstep)

/-- Where no block that is given meets one in use, chatboxes are unique after a run exactly when
the entries of the groups were blank, no row of a group was double-clicked, and the pool had the
blocks of the chatboxes that were closed in its chunks. -/
theorem run_unique_iff {groups : Group → NewGroup} {mlist : List (Msg User)} {others : List Extent}
    {es : List (Event User Group)} {rets : List Unit} {s : State User Group}
    (hfresh : (machine User Group).Meets Fresh (start groups mlist others) es)
    (hrun : (machine User Group).run (start groups mlist others) es = some (rets, s)) :
  Unique s ↔ (∀ group, (groups group).Blank) ∧ ∀ e ∈ es, e.Kept
  := by
  by_cases hblank : ∀ group, (groups group).Blank
  · have hgood : ∀ s e o s', s.Good (fun group => (groups group).chatbox) → Fresh s e → e.Kept →
        (machine User Group).step s e = some (o, s') →
        s'.Good fun group => (groups group).chatbox := by
      intro s e o s' hs he hkept hstep
      exact ⟨hs.1.step he hkept (machine_step hstep), hs.2.step he (machine_step hstep)⟩
    have hspoils : ∀ s e o s', s.Good (fun group => (groups group).chatbox) → Fresh s e →
        ¬ e.Kept → (machine User Group).step s e = some (o, s') →
        Spoilt (fun group => (groups group).chatbox) s' := by
      intro s e o s' hs he hkept hstep
      apply hs.1.spoilt hs.2 he hkept (machine_step hstep)
    rcases (machine User Group).run_good_or_bad hgood hspoils
        (fun s e o s' hs he hstep => hs.step he (machine_step hstep))
        ⟨start_private hblank, start_traces groups mlist others⟩ hfresh hrun
      with ⟨hmeets, hprivate, -⟩ | ⟨hnot, hspoilt⟩
    · apply iff_of_true hprivate.unique
      exact ⟨hblank, ((machine User Group).meets_iff_forall_mem hrun).mp hmeets⟩
    · apply iff_of_false hspoilt.not_unique
      intro h
      apply hnot (((machine User Group).meets_iff_forall_mem hrun).mpr h.2)
  · apply iff_of_false _ fun h => hblank h.1
    intro hunique
    apply hblank
    intro group
    rw [← NewGroup.chatbox_eq_zero_iff]
    by_contra hne
    have htraces := (start_traces groups mlist others).run hfresh hrun
    have hfield : s.groupChatbox group ≠ 0 := by
      rw [htraces.field]
      exact hne
    obtain ⟨c, hc, hdata⟩ := hunique.group_field group hfield
    exact htraces.not_unique (List.mem_append_left _ hc) hdata hunique

end

/-- A group without a name, in a block of zeros. -/
def blankGroup : NewGroup where
  mem := fun _ => 0
  base := 64
  gpname := ⟨[], by decide⟩
  gpinfo := ⟨[], by decide⟩
  gpid := 1

/-- A user whose chatbox is opened and closed, and opened again from the tray, while another one
has a chatbox. -/
theorem run_unique_again :
  ∃ rets s, (machine Bool Unit).run
      (start (fun _ => blankGroup) [⟨10000, 0, false⟩] [⟨56, 80⟩])
      [.doubleClickUser false 20000, .doubleClickUser true 30000, .alloc ⟨40000, 500⟩,
        .close ⟨0, 20000, .inl false, .pool⟩ true, .arrive ⟨50000, 0, true⟩ true,
        .tray 20000 true, .free ⟨40000, 500⟩ true] = some (rets, s)
    ∧ Unique s
  := by
  have hsome : ((machine Bool Unit).run
      (start (fun _ => blankGroup) [⟨10000, 0, false⟩] [⟨56, 80⟩])
      [.doubleClickUser false 20000, .doubleClickUser true 30000, .alloc ⟨40000, 500⟩,
        .close ⟨0, 20000, .inl false, .pool⟩ true, .arrive ⟨50000, 0, true⟩ true,
        .tray 20000 true, .free ⟨40000, 500⟩ true]).isSome := by decide
  obtain ⟨⟨rets, s⟩, hrun⟩ := Option.isSome_iff_exists.mp hsome
  use rets, s, hrun
  apply (run_unique_iff _ hrun).mpr
  · exact ⟨fun _ => by decide, by decide⟩
  · decide

/-- A group of the name `a`, in a block of zeros. -/
def namedGroup : NewGroup where
  mem := fun _ => 0
  base := 64
  gpname := ⟨[97], by decide⟩
  gpinfo := ⟨[], by decide⟩
  gpid := 1

/-- The entry of a group with a name points to a chatbox that was never opened, and the block
of a chatbox of a group without one is not given back. -/
theorem group_not_unique :
  (∃ rets s, (machine Unit Unit).run (start (fun _ => namedGroup) [] []) [] = some (rets, s)
    ∧ ¬ Unique s)
  ∧ ∃ rets s, (machine Unit Unit).run (start (fun _ => blankGroup) [] [])
      [.doubleClickGroup () 4096, .close ⟨0, 4096, .inr (), .malloc⟩ false] = some (rets, s)
    ∧ ¬ Unique s
  := by
  constructor
  · refine ⟨_, _, rfl, ?_⟩
    intro h
    obtain ⟨c, hc, -⟩ := h.group_field () (by decide)
    cases hc
  · refine ⟨_, _, rfl, ?_⟩
    intro h
    have hreleased := h.released _ (List.mem_singleton_self _)
    cases hreleased

end Chatboxes

end IFreeChat
