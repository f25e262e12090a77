import IFreeChat.Basis.Links
import IFreeChat.Ifc.PoolBlocks
import IFreeChat.MemPool.Calls

/-!
# The members of a group

A group of `ifc` has its members in a ring of blocks of the pool, from its `ulist` through the
`node` of every `gpmember_t`.  A member has a block of its own for every group it is in, so that
rings share no block.

The calls answer as those on a family of lists do, in which a user is found by the IP address,
as long as no member is removed while the mutex of the pool is locked (`run_members_iff`).
`mem_pool_free` leaves it locked behind a member whose block is in no chunk that the pool still
has (`delUser_locked_iff`).
-/

open Basis

namespace IFreeChat

namespace Members

variable {γ υ : Type*}

/-- The links of the `ulist` of every group and the `node` of every block, the `user` of every
block that the pool has handed out, and how many blocks it has handed out so far. -/
structure State (γ υ : Type*) where
  links : Links (γ ⊕ Nat)
  user : Nat → Option υ
  allocs : Nat

/-- The members with the pool of their blocks and the memory.  Besides, the blocks of the members,
and those that the rest of the program has, such as the entries of the groups. -/
structure Program (γ υ : Type*) where
  members : State γ υ
  pool : MemPool
  heap : Heap
  blocks : List Nat
  others : List Extent

/-- What a call answers. -/
inductive Answer (υ : Type*) where
  | code (code : Int)
  | user (user : Option υ)

/-- `sizeof(gpmember_t)`. -/
def sizeofGpmember : Nat := 24

section Source

variable (ipaddr : υ → List UInt8) (pointer : υ → Nat)

/-- The body of the loops, which take every node for that of a block and compare the user of the
block with an IP address. -/
def memberBody (s : State γ υ) (ip : List UInt8) : γ ⊕ Nat → Option (Option Nat)
  | .inl _ => none
  | .inr gpmemb =>
      match s.user gpmemb with
      | none => none
      | some u => some (if ipaddr u = ip then some gpmemb else none)

variable [DecidableEq γ]

/-- The block at which the loop of `dlist_foreach` stops. -/
def foreachMember (s : State γ υ) (gpEntry : γ) (ip : List UInt8) : Option (Option Nat) :=
  s.links.foreach (.inl gpEntry) (memberBody ipaddr s ip) (s.allocs + 1)
    (s.links.next (.inl gpEntry))

/-- The block at which the loop of `dlist_foreach_safe` stops. -/
def foreachMemberSafe (s : State γ υ) (gpEntry : γ) (ip : List UInt8) : Option (Option Nat) :=
  let p := s.links.next (.inl gpEntry)
  s.links.foreachSafe (.inl gpEntry) (memberBody ipaddr s ip) (s.allocs + 1) p (s.links.next p)

/-- A user is given a block at the end of the ring. -/
def appendMember (s : State γ υ) (gpEntry : γ) (userEntry : υ) (gpmemb : Nat) : State γ υ where
  links := (s.links.init (.inr gpmemb)).addTail (.inr gpmemb) (.inl gpEntry)
  user := Function.update s.user gpmemb (some userEntry)
  allocs := s.allocs + 1

/-- A member is taken out of its ring and given back. -/
def dropMember (s : State γ υ) (gpmemb : Nat) : State γ υ where
  links := s.links.del (.inr gpmemb)
  user := Function.update s.user gpmemb none
  allocs := s.allocs

/-- `group_entry_add_user`, which does not ask whether there was a block, and stores the pointer to
the user at its start. -/
def groupEntryAddUser (s : Program γ υ) (gpEntry : γ) (userEntry : υ) (mallocs : Mallocs) :
    Option (Int × Program γ υ) :=
  match foreachMember ipaddr s.members gpEntry (ipaddr userEntry) with
  | none => none
  | some (some _) => some (-1, s)
  | some none =>
      match s.pool.alloc s.heap sizeofGpmember mallocs with
      | some (some gpmemb, heap, pool) =>
          some (0, {
            members := appendMember s.members gpEntry userEntry gpmemb
            pool
            heap := { heap with mem := heap.mem.storeSize gpmemb (pointer userEntry) }
            blocks := gpmemb :: s.blocks
            others := s.others })
      | _ => none

/-- `group_entry_del_user`. -/
def groupEntryDelUser (s : Program γ υ) (gpEntry : γ) (userEntry : υ) :
    Option (Int × Program γ υ) :=
  match foreachMemberSafe ipaddr s.members gpEntry (ipaddr userEntry) with
  | none => none
  | some (some gpmemb) =>
      (s.pool.free s.heap gpmemb).map fun (heap, pool) =>
        (0, {
          members := dropMember s.members gpmemb
          pool
          heap
          blocks := s.blocks.erase gpmemb
          others := s.others })
  | some none => some (-1, s)

/-- `group_entry_find_user`. -/
def groupEntryFindUser (s : State γ υ) (gpEntry : γ) (ip : List UInt8) : Option (Option υ) :=
  (foreachMember ipaddr s gpEntry ip).map fun found => found.bind s.user

/-- The calls, with the answers of `malloc` to `mem_pool_alloc`. -/
inductive MemberEvent (γ υ : Type*) where
  | add (gpEntry : γ) (userEntry : υ) (mallocs : Mallocs)
  | del (gpEntry : γ) (userEntry : υ)
  | find (gpEntry : γ) (ip : List UInt8)

/-- The machine of the calls. -/
def machine : Machine (Program γ υ) (MemberEvent γ υ) (Answer υ) where
  step s
    | .add gpEntry userEntry mallocs =>
        (groupEntryAddUser ipaddr pointer s gpEntry userEntry mallocs).map fun r => (.code r.1, r.2)
    | .del gpEntry userEntry =>
        (groupEntryDelUser ipaddr s gpEntry userEntry).map fun r => (.code r.1, r.2)
    | .find gpEntry ip =>
        (groupEntryFindUser ipaddr s.members gpEntry ip).map fun user => (.user user, s)

/-- The groups as `new_group_entry` leaves them, with no member. -/
def start (prev next : Nat → γ ⊕ Nat) : State γ υ where
  links := Links.heads prev next
  user := fun _ => none
  allocs := 0

/-- The program with its groups, before any call. -/
def startProgram (prev next : Nat → γ ⊕ Nat) (pool : MemPool) (heap : Heap)
    (others : List Extent) : Program γ υ where
  members := start prev next
  pool := pool
  heap := heap
  blocks := []
  others := others

/-- The addresses taken for a `gpmember_t`. -/
def gpmemberExtent (addr : Nat) : Extent := MemPool.extent addr sizeofGpmember

/-- An allocation succeeds, and gives a block that meets none in use. -/
def Fresh (s : Program γ υ) : MemberEvent γ υ → Prop
  | .add gpEntry userEntry mallocs =>
      foreachMember ipaddr s.members gpEntry (ipaddr userEntry) = some none →
        ∃ r ∈ s.pool.alloc s.heap sizeofGpmember mallocs, ∃ gpmemb ∈ r.1,
          (gpmemberExtent gpmemb).Unused (s.blocks.map gpmemberExtent ++ s.others)
  | _ => True

instance (s : Program γ υ) : ∀ e, Decidable (Fresh ipaddr s e)
  | .add _ _ mallocs => inferInstanceAs (Decidable
      (_ → ∃ r ∈ s.pool.alloc s.heap sizeofGpmember mallocs, ∃ gpmemb ∈ r.1, _))
  | .del _ _ => .isTrue trivial
  | .find _ _ => .isTrue trivial

/-- The mutex of the pool is not locked where a member is removed. -/
def Unlocked (s : Program γ υ) : MemberEvent γ υ → Prop
  | .del gpEntry userEntry =>
      (foreachMemberSafe ipaddr s.members gpEntry (ipaddr userEntry)).join ≠ none →
        s.pool.locked = false
  | _ => True

instance (s : Program γ υ) : ∀ e, Decidable (Unlocked ipaddr s e)
  | .add _ _ _ => .isTrue trivial
  | .del _ _ => inferInstanceAs (Decidable (_ → _))
  | .find _ _ => .isTrue trivial

/-! ### Lists of members -/

/-- A user with the address is in the list. -/
def Has (users : List υ) (ip : List UInt8) : Prop := ∃ u ∈ users, ipaddr u = ip

instance (users : List υ) (ip : List UInt8) : Decidable (Has ipaddr users ip) :=
  inferInstanceAs (Decidable (∃ u ∈ users, _))

/-- The family of lists: a user is added at the end of one that has not the address, and removed
from one that has it. -/
def listMachine : Machine (γ → List υ) (MemberEvent γ υ) (Answer υ) where
  step lists
    | .add gpEntry userEntry _ =>
        if Has ipaddr (lists gpEntry) (ipaddr userEntry) then some (.code (-1), lists)
        else some (.code 0, Function.update lists gpEntry (lists gpEntry ++ [userEntry]))
    | .del gpEntry userEntry =>
        if Has ipaddr (lists gpEntry) (ipaddr userEntry) then
          some (.code 0, Function.update lists gpEntry
            ((lists gpEntry).filter fun u => ipaddr u ≠ ipaddr userEntry))
        else some (.code (-1), lists)
    | .find gpEntry ip => some (.user ((lists gpEntry).find? fun u => ipaddr u = ip), lists)

/-- The walk along the group visits blocks that have these users. -/
def HasMembers (s : State γ υ) (gpEntry : γ) (users : List υ) : Prop :=
  ∃ (fuel : Nat) (blocks : List Nat), s.links.walk (.inl gpEntry) fuel (s.links.next (.inl gpEntry))
      = some (blocks.map .inr)
    ∧ blocks.map s.user = users.map some

/-- The members of every group are those of its list, and their addresses differ. -/
def Agrees (s : State γ υ) (lists : γ → List υ) : Prop :=
  ∀ gp, HasMembers s gp (lists gp) ∧ ((lists gp).map ipaddr).Nodup

/-- The blocks are in the rings of the groups, and have the users of the lists, whose addresses
differ. -/
structure Holds (s : State γ υ) (lists : γ → List υ) (blocks : γ → List Nat) : Prop where
  rings : s.links.Rings blocks
  users : ∀ gp, (blocks gp).map s.user = (lists gp).map some
  fuel : ∀ gp, (blocks gp).length ≤ s.allocs
  nodup : ∀ gp, ((lists gp).map ipaddr).Nodup

end Source

variable {ipaddr : υ → List UInt8} {s : State γ υ} {lists : γ → List υ} {blocks : γ → List Nat}

/-- A block whose user has the address. -/
def matchBlock (ipaddr : υ → List UInt8) (user : Nat → Option υ) (ip : List UInt8) (b : Nat) :
    Option Nat :=
  if (user b).map ipaddr = some ip then some b else none

/-- The loops stop at the first block whose user has the address, if one of the users has
it. -/
theorem findSome_cases {user : Nat → Option υ} {blocks : List Nat} {users : List υ}
    (h : blocks.map user = users.map some) (ip : List UInt8) :
  blocks.findSome? (matchBlock ipaddr user ip) = none ∧ ¬ Has ipaddr users ip
    ∨ ∃ b before after u us₁ us₂, blocks.findSome? (matchBlock ipaddr user ip) = some b
        ∧ blocks = before ++ b :: after ∧ users = us₁ ++ u :: us₂
        ∧ before.map user = us₁.map some ∧ user b = some u ∧ after.map user = us₂.map some
        ∧ ipaddr u = ip
  := by
  cases hfind : blocks.findSome? (matchBlock ipaddr user ip) with
  | none =>
    left
    refine ⟨rfl, ?_⟩
    rintro ⟨u, hu, hip⟩
    have hmem : some u ∈ users.map some := List.mem_map_of_mem hu
    rw [← h, List.mem_map] at hmem
    obtain ⟨b, hb, hbu⟩ := hmem
    have hnone := List.findSome?_eq_none_iff.mp hfind b hb
    simp [matchBlock, hbu, hip] at hnone
  | some b =>
    right
    obtain ⟨before, b', after, hblocks, hmatch, -⟩ := List.findSome?_eq_some_iff.mp hfind
    rw [matchBlock] at hmatch
    split at hmatch
    · rename_i hip
      cases hmatch
      rw [hblocks, List.map_append, List.map_cons] at h
      obtain ⟨us₁, us₂, rfl, hus₁, hus₂⟩ := List.map_eq_append_iff.mp h.symm
      obtain ⟨u, us₂, rfl, hu, hus₂⟩ := List.map_eq_cons_iff.mp hus₂
      rw [← hu, Option.map_some, Option.some_inj] at hip
      use b, before, after, u, us₁, us₂
      exact ⟨rfl, hblocks, rfl, hus₁.symm, hu.symm, hus₂.symm, hip⟩
    · cases hmatch

/-- A user before or after another one in a list has another address. -/
theorem address_ne {us₁ us₂ : List υ} {u u' : υ}
    (hnodup : ((us₁ ++ u :: us₂).map ipaddr).Nodup) (hu' : u' ∈ us₁ ++ us₂) :
  ipaddr u' ≠ ipaddr u
  := by
  rw [List.map_append, List.map_cons, List.nodup_middle, List.nodup_cons,
    ← List.map_append] at hnodup
  intro heq
  apply hnodup.1
  rw [← heq]
  apply List.mem_map_of_mem hu'

/-- A block that is in no list has no part in the users of its blocks. -/
theorem map_update {user : Nat → Option υ} {b : Nat} {bs : List Nat} (hb : b ∉ bs)
    (u : Option υ) :
  bs.map (Function.update user b u) = bs.map user
  := by
  apply List.map_congr_left
  intro b' hb'
  apply Function.update_of_ne (ne_of_mem_of_not_mem hb' hb)

/-- The block of a member has its user. -/
theorem Holds.user_of_mem (h : Holds ipaddr s lists blocks) {gp : γ} {b : Nat}
    (hb : b ∈ blocks gp) :
  ∃ u, s.user b = some u
  := by
  have hmem : s.user b ∈ (blocks gp).map s.user := List.mem_map_of_mem hb
  rw [h.users gp, List.mem_map] at hmem
  obtain ⟨u, -, hu⟩ := hmem
  exact ⟨u, hu.symm⟩

/-- A block that is handed out has no user, and is in no ring. -/
theorem Holds.not_mem (h : Holds ipaddr s lists blocks) {b : Nat} (hb : s.user b = none)
    (gp : γ) :
  b ∉ blocks gp
  := by
  intro hmem
  obtain ⟨u, hu⟩ := h.user_of_mem hmem
  rw [hb] at hu
  cases hu

variable [DecidableEq γ]

/-- The loop over a group is over its blocks. -/
theorem Holds.foreachMember (h : Holds ipaddr s lists blocks) (gp : γ) (ip : List UInt8) :
  foreachMember ipaddr s gp ip = some ((blocks gp).findSome? (matchBlock ipaddr s.user ip))
  := by
  apply h.rings.foreach
  · intro b hb
    obtain ⟨u, hu⟩ := h.user_of_mem hb
    simp only [memberBody, matchBlock, hu, Option.map_some, Option.some_inj]
  · apply Nat.lt_succ_of_le (h.fuel gp)

theorem foreachMemberSafe_eq (s : State γ υ) (gp : γ) (ip : List UInt8) :
  foreachMemberSafe ipaddr s gp ip = Members.foreachMember ipaddr s gp ip
  := Links.foreachSafe_eq ..

/-- A change of one group, whose members are what they should be then. -/
theorem Holds.change (h : Holds ipaddr s lists blocks) {s' : State γ υ} {gp : γ} {us : List υ}
    {bs : List Nat} (hrings : s'.links.Rings (Function.update blocks gp bs))
    (hothers : ∀ gp', gp' ≠ gp → (blocks gp').map s'.user = (blocks gp').map s.user)
    (husers : bs.map s'.user = us.map some) (hallocs : s.allocs ≤ s'.allocs)
    (hfuel : bs.length ≤ s'.allocs) (hnodup : (us.map ipaddr).Nodup) :
  Holds ipaddr s' (Function.update lists gp us) (Function.update blocks gp bs)
  := by
  refine ⟨hrings, ?_, ?_, ?_⟩
  · intro gp'
    by_cases hgp : gp' = gp
    · subst hgp
      rw [Function.update_self, Function.update_self, husers]
    · rw [Function.update_of_ne hgp, Function.update_of_ne hgp, hothers gp' hgp, h.users gp']
  · apply (Function.forall_update_iff blocks fun _ bs => bs.length ≤ s'.allocs).mpr
    exact ⟨hfuel, fun gp' _ => (h.fuel gp').trans hallocs⟩
  · apply (Function.forall_update_iff lists fun _ us => (us.map ipaddr).Nodup).mpr
    exact ⟨hnodup, fun gp' _ => h.nodup gp'⟩

/-- A user whose address no member has is added at the end. -/
theorem Holds.add (h : Holds ipaddr s lists blocks) {gp : γ} {u : υ} {b : Nat}
    (hb : s.user b = none) (hu : ¬ Has ipaddr (lists gp) (ipaddr u)) :
  Holds ipaddr (appendMember s gp u b)
    (Function.update lists gp (lists gp ++ [u])) (Function.update blocks gp (blocks gp ++ [b]))
  := by
  have hfresh := h.not_mem hb
  apply h.change ((h.rings.init hfresh).addTail hfresh)
  · intro gp' _
    apply map_update (hfresh gp')
  · simp only [appendMember]
    rw [List.map_append, map_update (hfresh gp), h.users gp]
    simp
  · apply Nat.le_succ
  · rw [List.length_append, List.length_singleton]
    apply Nat.succ_le_succ (h.fuel gp)
  · rw [List.map_append, List.map_singleton]
    apply List.Nodup.append (h.nodup gp) (List.nodup_singleton _)
    rw [List.disjoint_singleton, List.mem_map]
    apply hu

/-- The block of the member with the address is taken out. -/
theorem Holds.del (h : Holds ipaddr s lists blocks) {gp : γ} {b : Nat} {before after : List Nat}
    {u : υ} {us₁ us₂ : List υ} (hblocks : blocks gp = before ++ b :: after)
    (hlist : lists gp = us₁ ++ u :: us₂) (hbefore : before.map s.user = us₁.map some)
    (hafter : after.map s.user = us₂.map some) :
  Holds ipaddr (dropMember s b)
    (Function.update lists gp ((lists gp).filter fun u' => ipaddr u' ≠ ipaddr u))
    (Function.update blocks gp ((blocks gp).erase b))
  := by
  have hb : b ∈ blocks gp := by simp [hblocks]
  have hnodup := h.rings.nodup gp
  rw [hblocks, List.nodup_middle, List.nodup_cons, List.mem_append, not_or] at hnodup
  have herase : (blocks gp).erase b = before ++ after := by
    rw [hblocks, List.erase_append_right _ hnodup.1.1, List.erase_cons_head]
  have haddresses := h.nodup gp
  rw [hlist] at haddresses
  have hfilter : (lists gp).filter (fun u' => ipaddr u' ≠ ipaddr u) = us₁ ++ us₂ := by
    rw [hlist, List.filter_append, List.filter_cons_of_neg (by simp), ← List.filter_append]
    apply List.filter_eq_self.mpr
    intro u' hu'
    exact decide_eq_true (address_ne haddresses hu')
  apply h.change (h.rings.del hb)
  · intro gp' hgp
    apply map_update (h.rings.disjoint gp gp' (Ne.symm hgp) hb)
  · simp only [dropMember]
    rw [herase, hfilter, map_update (by simpa using hnodup.1), List.map_append, List.map_append,
      hbefore, hafter]
  · apply Nat.le_refl
  · apply List.length_erase_le.trans (h.fuel gp)
  · rw [hfilter]
    apply List.Nodup.sublist _ haddresses
    apply ((List.sublist_cons_self u us₂).append_left us₁).map

/-- The members are in the groups, in blocks that are in use. -/
structure Inv (ipaddr : υ → List UInt8) (s : Program γ υ) (lists : γ → List υ) : Prop where
  holds : ∃ blocks, Holds ipaddr s.members lists blocks
  used : ∀ b, s.members.user b ≠ none → b ∈ s.blocks

omit [DecidableEq γ] in
/-- A block that meets none in use is that of no member. -/
theorem Inv.unused {p : Program γ υ} (h : Inv ipaddr p lists) {b : Nat} {used : List Extent}
    (hb : (gpmemberExtent b).Unused (p.blocks.map gpmemberExtent ++ used)) :
  p.members.user b = none
  := by
  by_contra huser
  have hmem : gpmemberExtent b ∈ p.blocks.map gpmemberExtent :=
    List.mem_map_of_mem (h.used b huser)
  have happart := hb _ (List.mem_append_left used hmem)
  simp only [Extent.Apart, Apart, gpmemberExtent, MemPool.extent, sizeofGpmember,
    MemPool.sizeofSize] at happart
  omega

/-- A call answers as the lists do, and keeps the members of the groups. -/
theorem step_inv {p : Program γ υ} {e : MemberEvent γ υ} (h : Inv ipaddr p lists)
    (hfresh : Fresh ipaddr p e) (hunlocked : Unlocked ipaddr p e) :
  ∃ o p' lists', (machine ipaddr pointer).step p e = some (o, p')
    ∧ (listMachine ipaddr).step lists e = some (o, lists')
    ∧ Inv ipaddr p' lists'
  := by
  obtain ⟨blocks, hholds⟩ := h.holds
  cases e with
  | add gp u mallocs =>
    simp only [machine, groupEntryAddUser, hholds.foreachMember, listMachine]
    obtain ⟨hnone, hhas⟩ | ⟨b', before, after, u', us₁, us₂, hsome, -, hlist, -, -, -, hip⟩ :=
      findSome_cases (hholds.users gp) (ipaddr u)
    · have hloop : foreachMember ipaddr p.members gp (ipaddr u) = some none := by
        rw [hholds.foreachMember, hnone]
      obtain ⟨⟨block, heap, pool⟩, halloc, b, rfl, hb⟩ := hfresh hloop
      rw [hnone]
      simp only [if_neg hhas, Option.mem_def.mp halloc]
      refine ⟨_, _, _, rfl, rfl, ⟨_, hholds.add (h.unused hb) hhas⟩, ?_⟩
      intro b' hb'
      by_cases heq : b' = b
      · rw [heq]
        apply List.mem_cons_self
      · simp only [appendMember, Function.update_of_ne heq] at hb'
        apply List.mem_cons_of_mem _ (h.used b' hb')
    · have hhas : Has ipaddr (lists gp) (ipaddr u) := ⟨u', by simp [hlist], hip⟩
      simp only [hsome, if_pos hhas]
      exact ⟨_, _, _, rfl, rfl, h⟩
  | del gp u =>
    simp only [machine, groupEntryDelUser, foreachMemberSafe_eq, hholds.foreachMember,
      listMachine]
    obtain ⟨hnone, hhas⟩ | ⟨b, before, after, u', us₁, us₂, hsome, hblocks, hlist, hbefore, -,
      hafter, hip⟩ := findSome_cases (hholds.users gp) (ipaddr u)
    · rw [hnone]
      simp only [if_neg hhas]
      exact ⟨_, _, _, rfl, rfl, h⟩
    · have hhas : Has ipaddr (lists gp) (ipaddr u) := ⟨u', by simp [hlist], hip⟩
      have hlocked : p.pool.locked = false := by
        apply hunlocked
        rw [foreachMemberSafe_eq, hholds.foreachMember, hsome]
        simp
      obtain ⟨⟨heap, pool⟩, hfree⟩ := Option.isSome_iff_exists.mp
        (MemPool.free_isSome p.heap b hlocked)
      simp only [hsome, if_pos hhas, hfree]
      have hdel := hholds.del hblocks hlist hbefore hafter
      rw [hip] at hdel
      refine ⟨_, _, _, rfl, rfl, ⟨_, hdel⟩, ?_⟩
      intro b' hb'
      have hne : b' ≠ b := by
        rintro rfl
        simp [dropMember] at hb'
      simp only [dropMember, Function.update_of_ne hne] at hb'
      apply (List.mem_erase_of_ne hne).mpr (h.used b' hb')
  | find gp ip =>
    simp only [machine, groupEntryFindUser, hholds.foreachMember, listMachine]
    obtain ⟨hnone, hhas⟩ | ⟨b, before, after, u, us₁, us₂, hsome, -, hlist, -, hu, -, hip⟩ :=
      @findSome_cases _ ipaddr _ _ _ (hholds.users gp) ip
    · have hfind : (lists gp).find? (fun u => ipaddr u = ip) = none := by
        rw [List.find?_eq_none]
        intro u hu hip
        apply hhas ⟨u, hu, of_decide_eq_true hip⟩
      rw [hnone, hfind]
      exact ⟨_, _, _, rfl, rfl, h⟩
    · have hfind : (lists gp).find? (fun u => ipaddr u = ip) = some u := by
        rw [List.find?_eq_some_iff_append]
        refine ⟨decide_eq_true hip, us₁, us₂, hlist, ?_⟩
        intro u' hu'
        rw [← hip, Bool.not_eq_true', decide_eq_false_iff_not]
        apply address_ne (hlist ▸ hholds.nodup gp) (List.mem_append_left us₂ hu')
      rw [hsome, hfind, Option.map_some, Option.bind_some, hu]
      exact ⟨_, _, _, rfl, rfl, h⟩

/-- A call that returns did not find the mutex locked where it removes a member. -/
theorem unlocked_of_step {p p' : Program γ υ} {e : MemberEvent γ υ} {o : Answer υ}
    (hstep : (machine ipaddr pointer).step p e = some (o, p')) :
  Unlocked ipaddr p e
  := by
  cases e with
  | add gp u mallocs => trivial
  | find gp ip => trivial
  | del gp u =>
    intro hfound
    simp only [machine, groupEntryDelUser] at hstep
    obtain hnone | hnone | ⟨b, hb⟩ : foreachMemberSafe ipaddr p.members gp (ipaddr u) = none
        ∨ foreachMemberSafe ipaddr p.members gp (ipaddr u) = some none
        ∨ ∃ b, foreachMemberSafe ipaddr p.members gp (ipaddr u) = some (some b) := by
      rcases foreachMemberSafe ipaddr p.members gp (ipaddr u) with _ | _ | b <;> simp
    · simp [hnone] at hfound
    · simp [hnone] at hfound
    · by_contra hlocked
      have hfree := MemPool.free_of_locked p.heap b (Bool.eq_true_of_not_eq_false hlocked)
      simp only [hb, hfree] at hstep
      cases hstep

theorem Inv.agrees {p : Program γ υ} (h : Inv ipaddr p lists) :
  Agrees ipaddr p.members lists
  := by
  obtain ⟨blocks, hholds⟩ := h.holds
  intro gp
  refine ⟨⟨p.members.allocs + 1, blocks gp, ?_, hholds.users gp⟩, hholds.nodup gp⟩
  apply hholds.rings.walk gp (Nat.lt_succ_of_le (hholds.fuel gp))

/-- A call that finds the mutex free leaves it locked exactly when it removes a member whose block
is in no chunk of the pool. -/
theorem delUser_locked_iff {p p' : Program γ υ} {gp : γ} {u : υ} {code : Int}
    (hlocked : p.pool.locked = false)
    (hdel : groupEntryDelUser ipaddr p gp u = some (code, p')) :
  p'.pool.locked = true ↔ ∃ b, foreachMemberSafe ipaddr p.members gp (ipaddr u) = some (some b)
    ∧ ∀ cur ∈ p.pool.chunk, ¬ p.pool.holds cur (b - MemPool.sizeofSize) = true
  := by
  rw [groupEntryDelUser] at hdel
  split at hdel
  · cases hdel
  · rename_i b hfound
    obtain ⟨⟨heap, pool⟩, hfree, hp'⟩ := Option.map_eq_some_iff.mp hdel
    cases hp'
    have hunlocks : pool.locked = false
        ↔ ∃ cur ∈ p.pool.chunk, p.pool.holds cur (b - MemPool.sizeofSize) = true := by
      have hiff := @MemPool.free_unlocks_iff p.pool p.heap b
      constructor
      · intro hpool
        apply (hiff.mp ⟨heap, pool, hfree, hpool⟩).2
      · intro hcur
        obtain ⟨heap', pool', hfree', hpool'⟩ := hiff.mpr ⟨hlocked, hcur⟩
        rw [hfree] at hfree'
        cases hfree'
        apply hpool'
    rw [← Bool.not_eq_false, hunlocks]
    simp [hfound]
  · rename_i hfound
    cases hdel
    simp [hlocked, hfound]

/-- From groups without members on, where allocations succeed and give fresh blocks, a run returns,
answers as the family of lists does, and leaves the groups with the members of their lists, whose
addresses differ, exactly when it finds the mutex of the pool free where it removes a member. -/
theorem run_members_iff (ipaddr : υ → List UInt8) (pointer : υ → Nat) (prev next : Nat → γ ⊕ Nat)
    (pool : MemPool) (heap : Heap) (others : List Extent) {es : List (MemberEvent γ υ)}
    (hfresh : (machine ipaddr pointer).Meets (Fresh ipaddr)
      (startProgram prev next pool heap others) es) :
  (∃ os s lists,
      (machine ipaddr pointer).run (startProgram prev next pool heap others) es = some (os, s)
      ∧ (listMachine ipaddr).run (fun _ => []) es = some (os, lists)
      ∧ Agrees ipaddr s.members lists)
    ↔ (machine ipaddr pointer).Meets (Unlocked ipaddr)
        (startProgram prev next pool heap others) es
  := by
  constructor
  · rintro ⟨os, s, lists, hrun, -⟩
    apply (machine ipaddr pointer).meets_imp _ ((machine ipaddr pointer).meets_of_run hrun)
    intro s e hstep
    obtain ⟨⟨o, s'⟩, hstep⟩ := Option.isSome_iff_exists.mp hstep
    apply unlocked_of_step hstep
  · intro hunlocked
    have hstart : Inv ipaddr (startProgram prev next pool heap others) (fun _ : γ => []) := by
      refine ⟨⟨fun _ => [], Links.heads_rings prev next, fun _ => rfl, fun _ => Nat.zero_le _,
        fun _ => List.nodup_nil⟩, ?_⟩
      intro b hb
      apply absurd rfl hb
    obtain ⟨os, s, lists, hrun, hrun', h⟩ := (machine ipaddr pointer).run_lockstep
      (fun _ _ _ hs he => step_inv hs he.1 he.2) hstart
      ((machine ipaddr pointer).meets_and hfresh hunlocked)
    exact ⟨os, s, lists, hrun, hrun', h.agrees⟩

/-- The address of a user, and where its entry is. -/
def ipaddrOf (u : Nat) : List UInt8 := [48 + UInt8.ofNat u]

/-- Where the entry of a user is. -/
def pointerOf (u : Nat) : Nat := 0x100000 + 0x1000 * u

/-- A pool of `size` bytes for two groups, whose entries it does not give. -/
def twoGroups (size : Nat) : Program Bool Nat :=
  startProgram .inr .inr (MemPool.init size 1) ⟨fun _ => 0, []⟩ [⟨0x80000, 512⟩]

/-- The block of a user who is removed is given again for another group. -/
theorem run_members_reused :
  ∃ os s lists,
    (machine ipaddrOf pointerOf).run (twoGroups 4096)
        [.add false 0 ⟨true, some 8192⟩, .add false 1 ⟨true, none⟩, .add false 0 ⟨true, none⟩,
          .del false 0, .add true 0 ⟨true, none⟩, .find false [48]]
      = some (os, s)
    ∧ (listMachine ipaddrOf).run (fun _ => [])
        [.add false 0 ⟨true, some 8192⟩, .add false 1 ⟨true, none⟩, .add false 0 ⟨true, none⟩,
          .del false 0, .add true 0 ⟨true, none⟩, .find false [48]]
      = some (os, lists)
    ∧ Agrees ipaddrOf s.members lists
  := (run_members_iff _ _ _ _ _ _ _ (by decide)).mpr (by decide)

/-- The third member takes a second chunk.  The call that removes the first one leaves the mutex
locked, and the next one does not return. -/
theorem secondChunk_stuck :
  (machine ipaddrOf pointerOf).Meets (Fresh ipaddrOf) (twoGroups 64)
      [.add false 0 ⟨true, some 8192⟩, .add false 1 ⟨true, none⟩, .add false 2 ⟨true, some 12288⟩,
        .del false 0, .del false 1]
    ∧ ¬ ∃ os s lists,
      (machine ipaddrOf pointerOf).run (twoGroups 64)
          [.add false 0 ⟨true, some 8192⟩, .add false 1 ⟨true, none⟩,
            .add false 2 ⟨true, some 12288⟩, .del false 0, .del false 1] = some (os, s)
      ∧ (listMachine ipaddrOf).run (fun _ => [])
          [.add false 0 ⟨true, some 8192⟩, .add false 1 ⟨true, none⟩,
            .add false 2 ⟨true, some 12288⟩, .del false 0, .del false 1] = some (os, lists)
      ∧ Agrees ipaddrOf s.members lists
  := by
  refine ⟨by decide, ?_⟩
  rintro ⟨os, s, lists, hrun, -⟩
  cases hrun

end Members

end IFreeChat
