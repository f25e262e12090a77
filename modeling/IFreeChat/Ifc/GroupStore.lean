import IFreeChat.Ifc.EntryStore
import IFreeChat.Ifc.GroupEntry
import IFreeChat.Ifc.Members

/-!
# The store of the groups

`group_t` keeps the entries of the groups as `user_t` keeps those of the users: in a ring, from its
`glist` through the `gnode` of every entry, and in a hash table under their numbers.  Every entry
has the members of its group in a ring of its own, in blocks of the same pool, and
`free_group_entry` gives these back before the entry.

Where the memory answers, no call touches a block that was given back or gives one back twice, and
every member is in the ring of one entry.  `destroy_group` gives back the entries of the ring, each
one behind its members, and nothing else (`destroyGroup_releases`).
-/

open Basis

namespace IFreeChat

namespace GroupStore

open EntryStore (Memory Store newUserEntry freeUserEntry userAddEntry userFindEntry Held)
open GroupEntry (sizeofGroupEntry)
open Members (sizeofGpmember appendMember dropMember)

/-- The entries of the groups, and their members. -/
structure State (κ υ σ : Type) where
  store : Store κ σ
  members : Members.State Nat υ

section Source

variable {κ υ σ R : Type} (memory : Memory κ R σ) (ipaddr : υ → List UInt8)

/-- `new_group_entry`, where the entry and its texts take `size` bytes. -/
def newGroupEntry (s : State κ υ σ) (size : Nat) (gpid : κ) (resources : R) :
    Option (Option Nat × State κ υ σ) := do
  let (base, store) ← newUserEntry memory s.store size gpid resources
  match base with
  | none => some (none, { s with store })
  | some b =>
      some (some b, { store, members := { s.members with links := s.members.links.init (.inl b) } })

/-- The body of the loop of `free_group_entry`. -/
def freeMember (x : Nat ⊕ Nat) (s : State κ υ σ) : Option (State κ υ σ) :=
  match x with
  | .inl _ => none
  | .inr gpmemb =>
      if (s.members.user gpmemb).isSome then
        (memory.free s.store.mem gpmemb).map fun t =>
          { store := { s.store with mem := t }, members := dropMember s.members gpmemb }
      else none

/-- The loop of `free_group_entry`. -/
def freeMembers (s : State κ υ σ) (b : Nat) : Option (State κ υ σ) :=
  let p := s.members.links.next (.inl b)
  Links.drain (fun s => s.members.links) (freeMember memory) (.inl b) (s.members.allocs + 1) p
    (s.members.links.next p) s

/-- `free_group_entry`. -/
def freeGroupEntry (s : State κ υ σ) (b : Nat) : Option (State κ υ σ) :=
  if s.store.Live (.inr b) then do
    let s ← freeMembers memory s b
    let store ← freeUserEntry memory s.store b
    some { s with store }
  else none

/-- The body of the loop of `destroy_group`. -/
def destroyBody (x : Unit ⊕ Nat) (s : State κ υ σ) : Option (State κ υ σ) :=
  match x with
  | .inl _ => none
  | .inr b => freeGroupEntry memory s b

/-- `destroy_group`, up to the release of the table. -/
def destroyGroup (s : State κ υ σ) : Option (State κ υ σ) :=
  let p := s.store.links.next (.inl ())
  Links.drain (fun s => s.store.links) (destroyBody memory) (.inl ()) (s.store.adds + 1) p
    (s.store.links.next p) s

/-- `group_add_entry`, which does what `user_add_entry` does. -/
def groupAddEntry (s : State κ υ σ) (b : Nat) (resources : R) : Option (Int × State κ υ σ) :=
  (userAddEntry memory s.store b resources).map fun r => (r.1, { s with store := r.2 })

/-- `group_del_entry`. -/
def groupDelEntry (s : State κ υ σ) (b : Nat) : Option (Int × State κ υ σ) := do
  let gpid ← s.store.entries b
  let ((code, _), t) ← memory.table.step s.store.mem (.del gpid)
  let s := { s with store := { s.store with mem := t } }
  if code < 0 then some (-1, s) else (freeGroupEntry memory s b).map fun s => (0, s)

/-- `group_find_entry`, which does what `user_find_entry` does. -/
def groupFindEntry (s : State κ υ σ) (gpid : κ) : Option (Option Nat × State κ υ σ) :=
  (userFindEntry memory s.store gpid).map fun r => (r.1, { s with store := r.2 })

/-- `group_entry_add_user`, which takes a block from the pool when its loop has found no member, and
does not ask whether there was one. -/
def groupEntryAddUser (s : State κ υ σ) (b : Nat) (user : υ) (resources : R) :
    Option (Int × State κ υ σ) := do
  match ← Members.foreachMember ipaddr s.members b (ipaddr user) with
  | some _ => some (-1, s)
  | none =>
      let (gpmemb, t) ← memory.alloc s.store.mem sizeofGpmember resources
      let gpmemb ← gpmemb
      some (0, {
        store := { s.store with mem := t }
        members := appendMember s.members b user gpmemb })

/-- `group_entry_del_user`, which gives the block of the member back. -/
def groupEntryDelUser (s : State κ υ σ) (b : Nat) (user : υ) : Option (Int × State κ υ σ) := do
  match ← Members.foreachMemberSafe ipaddr s.members b (ipaddr user) with
  | none => some (-1, s)
  | some gpmemb =>
      let t ← memory.free s.store.mem gpmemb
      some (0, {
        store := { s.store with mem := t }
        members := dropMember s.members gpmemb })

/-- The calls; the texts of a new entry take `texts` bytes. -/
inductive Call (κ υ R : Type) where
  | new (texts : Nat) (gpid : κ) (resources : R)
  | add (b : Nat) (resources : R)
  | del (b : Nat)
  | find (gpid : κ)
  | addUser (b : Nat) (user : υ) (resources : R)
  | delUser (b : Nat) (user : υ)
  | findUser (b : Nat) (ip : List UInt8)

/-- What a call answers. -/
inductive Answer (υ : Type) where
  | code (code : Int)
  | entry (entry : Option Nat)
  | user (user : Option υ)

/-- The machine of the calls, of which those on a group are on its entry. -/
def machine : Machine (State κ υ σ) (Call κ υ R) (Answer υ) where
  step s
    | .new texts gpid resources =>
        (newGroupEntry memory s (sizeofGroupEntry + texts) gpid resources).map fun r =>
          (.entry r.1, r.2)
    | .add b resources => (groupAddEntry memory s b resources).map fun r => (.code r.1, r.2)
    | .del b => (groupDelEntry memory s b).map fun r => (.code r.1, r.2)
    | .find gpid => (groupFindEntry memory s gpid).map fun r => (.entry r.1, r.2)
    | .addUser b user resources =>
        if s.store.Live (.inr b) then
          (groupEntryAddUser memory ipaddr s b user resources).map fun r => (.code r.1, r.2)
        else none
    | .delUser b user =>
        if s.store.Live (.inr b) then
          (groupEntryDelUser memory ipaddr s b user).map fun r => (.code r.1, r.2)
        else none
    | .findUser b ip =>
        if s.store.Live (.inr b) then
          (Members.groupEntryFindUser ipaddr s.members b ip).map fun user => (.user user, s)
        else none

/-- `create_group`, on a new table. -/
def createGroup (prev next : Nat → Unit ⊕ Nat) (prev' next' : Nat → Nat ⊕ Nat) (t : σ) :
    State κ υ σ where
  store := EntryStore.createUser prev next t
  members := Members.start prev' next'

/-- The members that the walk along the ring of an entry visits. -/
def State.memberBlocks (s : State κ υ σ) (b : Nat) : List Nat :=
  ((s.members.links.walk (.inl b) (s.members.allocs + 1) (s.members.links.next (.inl b))).getD
    []).filterMap Sum.getRight?

/-- An entry behind its members. -/
def State.entryBlocks (s : State κ υ σ) (b : Nat) : List Nat := s.memberBlocks b ++ [b]

/-- The entries that the walk along the ring visits, each one behind its members. -/
def State.blocks (s : State κ υ σ) : List Nat := s.store.blocks.flatMap s.entryBlocks

/-- The block is neither an entry nor a member. -/
def State.Fresh (s : State κ υ σ) (b : Nat) : Prop :=
  s.store.entries b = none ∧ s.members.user b = none

instance (s : State κ υ σ) (b : Nat) : Decidable (s.Fresh b) :=
  inferInstanceAs (Decidable (_ ∧ _))

/-- The memory answers; what the pool hands out is neither an entry nor a member, and there is a
block for every member; an entry that is added is not linked yet; and a group that is changed or
searched is there. -/
def Careful (s : State κ υ σ) : Call κ υ R → Prop
  | .new texts _ resources =>
      ∃ r ∈ memory.alloc s.store.mem (sizeofGroupEntry + texts) resources, ∀ b ∈ r.1, s.Fresh b
  | .add b resources => EntryStore.Careful memory s.store (.add b resources)
  | .del b => ∃ gpid ∈ s.store.entries b, ∃ r ∈ memory.table.step s.store.mem (.del gpid),
      0 ≤ r.1.1 → ((s.entryBlocks b).foldlM memory.free r.2).isSome = true
  | .find gpid => EntryStore.Careful memory s.store (.find gpid)
  | .addUser b user resources => (s.store.entries b).isSome = true
      ∧ (Members.foreachMember ipaddr s.members b (ipaddr user) = some none →
        ∃ r ∈ memory.alloc s.store.mem sizeofGpmember resources, ∃ gpmemb ∈ r.1, s.Fresh gpmemb)
  | .delUser b user => (s.store.entries b).isSome = true
      ∧ ∀ found ∈ Members.foreachMemberSafe ipaddr s.members b (ipaddr user), ∀ gpmemb ∈ found,
        (memory.free s.store.mem gpmemb).isSome = true
  | .findUser b _ => (s.store.entries b).isSome = true

instance (s : State κ υ σ) : ∀ e, Decidable (Careful memory ipaddr s e)
  | .new texts _ resources => inferInstanceAs (Decidable
      (∃ r ∈ memory.alloc s.store.mem (sizeofGroupEntry + texts) resources, _))
  | .add b resources =>
      inferInstanceAs (Decidable (EntryStore.Careful memory s.store (.add b resources)))
  | .del b => inferInstanceAs (Decidable (∃ gpid ∈ s.store.entries b, ∃ r ∈ _, _))
  | .find gpid => inferInstanceAs (Decidable (EntryStore.Careful memory s.store (.find gpid)))
  | .addUser _ _ _ => inferInstanceAs (Decidable (_ ∧ (_ → ∃ r ∈ _, ∃ gpmemb ∈ _, _)))
  | .delUser b user => inferInstanceAs (Decidable (_ ∧ ∀ found ∈
      Members.foreachMemberSafe ipaddr s.members b (ipaddr user), ∀ gpmemb ∈ found, _))
  | .findUser _ _ => inferInstanceAs (Decidable (_ = true))

end Source

/-! ### The members of an entry -/

section

variable {υ : Type} {ipaddr : υ → List UInt8} {m : Members.State Nat υ} {blocks : Nat → List Nat}
  {b k : Nat} {ks : List Nat}

/-- The members are in the rings of the groups, and nothing else is a member. -/
structure Owned (ipaddr : υ → List UInt8) (m : Members.State Nat υ) (blocks : Nat → List Nat) :
    Prop where
  holds : ∃ lists, Members.Holds ipaddr m lists blocks
  owned : ∀ k, (m.user k).isSome = true ↔ ∃ b, k ∈ blocks b

/-- The ring of a group has its members. -/
theorem Owned.ring (h : Owned ipaddr m blocks) (b : Nat) :
  m.links.Ring (.inl b) ((blocks b).map .inr)
  := by
  obtain ⟨lists, hholds⟩ := h.holds
  apply hholds.rings.ring b

theorem Owned.nodup (h : Owned ipaddr m blocks) (b : Nat) :
  (blocks b).Nodup
  := by
  obtain ⟨lists, hholds⟩ := h.holds
  apply hholds.rings.nodup b

/-- A member is in one group only. -/
theorem Owned.group_unique (h : Owned ipaddr m blocks) {c : Nat} (hb : k ∈ blocks b)
    (hc : k ∈ blocks c) :
  c = b
  := by
  obtain ⟨lists, hholds⟩ := h.holds
  by_contra hne
  apply hholds.rings.disjoint b c (Ne.symm hne) hb hc

/-- The fuel of the loops is enough. -/
theorem Owned.fuel (h : Owned ipaddr m blocks) (b : Nat) :
  ((blocks b).map (Sum.inr : Nat → Nat ⊕ Nat)).length < m.allocs + 1
  := by
  obtain ⟨lists, hholds⟩ := h.holds
  rw [List.length_map]
  apply Nat.lt_succ_of_le (hholds.fuel b)

/-- The members of a group that has none are linked to itself again. -/
theorem Owned.init (h : Owned ipaddr m blocks) (hb : blocks b = []) :
  Owned ipaddr { m with links := m.links.init (.inl b) } blocks
  := by
  obtain ⟨⟨lists, hholds⟩, howned⟩ := h
  refine ⟨⟨lists, ⟨?_, hholds.rings.disjoint⟩, hholds.users, hholds.fuel, hholds.nodup⟩, howned⟩
  intro c
  by_cases hc : c = b
  · subst hc
    rw [hb]
    apply Links.Ring.init
  · apply (hholds.rings.ring c).congr
    intro x hx
    have hne : x ≠ .inl b := by
      rintro rfl
      simp only [List.mem_cons, Sum.inl.injEq, List.mem_map, reduceCtorEq, and_false,
        exists_false, or_false] at hx
      apply hc hx.symm
    simp only [Links.init, Function.update_of_ne hne, and_self]

/-- Where a member is taken out of its group, the others are in theirs. -/
theorem Owned.erase (h : Owned ipaddr m blocks) (hk : k ∈ blocks b)
    (hholds : ∃ lists, Members.Holds ipaddr (dropMember m k) lists
      (Function.update blocks b ((blocks b).erase k))) :
  Owned ipaddr (dropMember m k) (Function.update blocks b ((blocks b).erase k))
  := by
  refine ⟨hholds, ?_⟩
  intro j
  rw [dropMember]
  by_cases hj : j = k
  · subst hj
    simp only [Function.update_self, Option.isSome_none, Bool.false_eq_true, false_iff, not_exists]
    intro c
    by_cases hc : c = b
    · subst hc
      rw [Function.update_self]
      apply (h.nodup c).not_mem_erase
    · rw [Function.update_of_ne hc]
      intro hmem
      apply hc (h.group_unique hk hmem)
  · simp only [Function.update_of_ne hj]
    rw [h.owned j]
    apply exists_congr
    intro c
    by_cases hc : c = b
    · subst hc
      rw [Function.update_self, List.mem_erase_of_ne hj]
    · rw [Function.update_of_ne hc]

/-- The first member of a group is taken out of it. -/
theorem Owned.drop (h : Owned ipaddr m (Function.update blocks b (k :: ks))) :
  (m.user k).isSome = true ∧ Owned ipaddr (dropMember m k) (Function.update blocks b ks)
  := by
  have hself : Function.update blocks b (k :: ks) b = k :: ks := Function.update_self ..
  have hk : k ∈ Function.update blocks b (k :: ks) b := by
    rw [hself]
    apply List.mem_cons_self
  refine ⟨(h.owned k).mpr ⟨b, hk⟩, ?_⟩
  obtain ⟨lists, hholds⟩ := h.holds
  have husers := hholds.users b
  rw [hself, List.map_cons] at husers
  obtain ⟨u, us, hlist, hu, hus⟩ := List.map_eq_cons_iff.mp husers.symm
  have hblocks : Function.update blocks b (k :: ks) b = [] ++ k :: ks := hself
  have husers : lists b = [] ++ u :: us := hlist
  have hdel := hholds.del hblocks husers (List.map_nil.trans List.map_nil.symm) hus.symm
  have herase := h.erase hk ⟨_, hdel⟩
  rwa [hself, List.erase_cons_head, Function.update_idem] at herase

/-- Where no member of a group has the address, a user is added in a new block. -/
theorem Owned.addUser (h : Owned ipaddr m blocks) {user : υ} (hk : m.user k = none)
    (hnone : Members.foreachMember ipaddr m b (ipaddr user) = some none) :
  Owned ipaddr (appendMember m b user k) (Function.update blocks b (blocks b ++ [k]))
  := by
  obtain ⟨⟨lists, hholds⟩, howned⟩ := h
  rw [hholds.foreachMember, Option.some_inj] at hnone
  obtain ⟨-, hhas⟩ | ⟨k', before, after, u', us₁, us₂, hsome, -⟩ :=
    Members.findSome_cases (hholds.users b) (ipaddr user)
  · refine ⟨⟨_, hholds.add hk hhas⟩, ?_⟩
    intro j
    by_cases hj : j = k
    · subst hj
      simp only [appendMember, Function.update_self, Option.isSome_some, true_iff]
      exact ⟨b, by simp⟩
    · simp only [appendMember, Function.update_of_ne hj]
      rw [howned j]
      apply exists_congr
      intro c
      by_cases hc : c = b
      · subst hc
        rw [Function.update_self, List.mem_append, List.mem_singleton, or_iff_left hj]
      · rw [Function.update_of_ne hc]
  · rw [hnone] at hsome
    cases hsome

/-- The loop of `group_entry_del_user` ends, and the member that it finds is taken out. -/
theorem Owned.delUser (h : Owned ipaddr m blocks) (b : Nat) (user : υ) :
  ∃ found, Members.foreachMemberSafe ipaddr m b (ipaddr user) = some found
    ∧ ∀ k ∈ found, k ∈ blocks b
      ∧ Owned ipaddr (dropMember m k) (Function.update blocks b ((blocks b).erase k))
  := by
  obtain ⟨lists, hholds⟩ := h.holds
  rw [Members.foreachMemberSafe_eq, hholds.foreachMember]
  refine ⟨_, rfl, ?_⟩
  intro k hk
  rw [Option.mem_def] at hk
  obtain ⟨hnone, -⟩ | ⟨k', before, after, u, us₁, us₂, hsome, hblocks, hlist, hbefore, -, hafter,
    -⟩ := Members.findSome_cases (hholds.users b) (ipaddr user)
  · rw [hk] at hnone
    cases hnone
  · rw [hk, Option.some_inj] at hsome
    subst hsome
    have hmem : k ∈ blocks b := by simp [hblocks]
    exact ⟨hmem, h.erase hmem ⟨_, hholds.del hblocks hlist hbefore hafter⟩⟩

end

/-! ### The store -/

section

variable {κ υ σ R : Type} {memory : Memory κ R σ} {ipaddr : υ → List UInt8} {s : State κ υ σ}
  {list : List Nat} {blocks : Nat → List Nat} {b : Nat}

/-- The entries are in the ring, the members in those of the entries, what is no entry has no
members, and no entry is a member. -/
structure Kept (ipaddr : υ → List UInt8) (s : State κ υ σ) (list : List Nat)
    (blocks : Nat → List Nat) : Prop where
  held : Held s.store list
  owned : Owned ipaddr s.members blocks
  empty : ∀ b, s.store.entries b = none → blocks b = []
  apart : ∀ b, (s.store.entries b).isSome = true → s.members.user b = none

theorem Kept.setMem (h : Kept ipaddr s list blocks) (t : σ) :
  Kept ipaddr { s with store := { s.store with mem := t } } list blocks
  := ⟨h.held.setMem t, h.owned, h.empty, h.apart⟩

/-- The walk along the ring of an entry visits its members. -/
theorem Kept.memberBlocks_eq (h : Kept ipaddr s list blocks) (b : Nat) :
  s.memberBlocks b = blocks b
  := by
  rw [State.memberBlocks, (h.owned.ring b).walk (h.owned.fuel b), Option.getD_some,
    List.filterMap_map]
  apply List.filterMap_some

theorem Kept.entryBlocks_eq (h : Kept ipaddr s list blocks) (b : Nat) :
  s.entryBlocks b = blocks b ++ [b]
  := by
  rw [State.entryBlocks, h.memberBlocks_eq]

theorem Kept.blocks_eq (h : Kept ipaddr s list blocks) :
  s.blocks = list.flatMap fun b => blocks b ++ [b]
  := by
  rw [State.blocks, h.held.blocks_eq]
  congr 1
  funext b
  apply h.entryBlocks_eq

/-- The loop of `free_group_entry` gives the members of the entry back. -/
theorem Kept.freeMembers (h : Kept ipaddr s list blocks) (b : Nat) {t : σ}
    (hfrees : (blocks b).foldlM memory.free s.store.mem = some t) :
  ∃ s', GroupStore.freeMembers memory s b = some s' ∧ s'.store = { s.store with mem := t }
    ∧ Owned ipaddr s'.members (Function.update blocks b [])
    ∧ ∀ k, s'.members.user k = if k ∈ blocks b then none else s.members.user k
  := by
  -- the members `ks` are left, and the pool takes them back
  obtain ⟨I, hI⟩ : ∃ I : List (Nat ⊕ Nat) → State κ υ σ → Prop, I = fun xs s' =>
      ∃ before ks, blocks b = before ++ ks ∧ xs = ks.map .inr
        ∧ s'.store = { s.store with mem := s'.store.mem }
        ∧ ks.foldlM memory.free s'.store.mem = some t
        ∧ Owned ipaddr s'.members (Function.update blocks b ks)
        ∧ ∀ k, s'.members.user k = if k ∈ before then none else s.members.user k := ⟨_, rfl⟩
  have hstart : I ((blocks b).map .inr) s := by
    rw [hI]
    refine ⟨[], blocks b, rfl, rfl, rfl, hfrees, ?_, fun k => rfl⟩
    rw [Function.update_eq_self]
    exact h.owned
  have hbody : ∀ x xs (s' : State κ υ σ), s'.members.links.Ring (.inl b) (x :: xs) →
      I (x :: xs) s' →
      ∃ s'', freeMember memory x s' = some s'' ∧ s''.members.links.Ring (.inl b) xs ∧ I xs s'' := by
    rw [hI]
    rintro x xs s' - ⟨before, ks, hblocks, hks, hstore, hfrees, howned, husers⟩
    obtain ⟨k, ks, rfl, rfl, rfl⟩ := List.map_eq_cons_iff.mp hks.symm
    obtain ⟨t', hfree, hfrees⟩ := Option.bind_eq_some_iff.mp hfrees
    obtain ⟨hk, hdrop⟩ := howned.drop
    have hring := hdrop.ring b
    rw [Function.update_self] at hring
    refine ⟨_, by rw [freeMember, if_pos hk, hfree, Option.map_some], hring, before ++ [k], ks, ?_,
      rfl, ?_, hfrees, hdrop, ?_⟩
    · rw [hblocks, List.append_assoc, List.singleton_append]
    · rw [hstore]
    · intro j
      by_cases hj : j = k
      · subst hj
        simp [dropMember]
      · simp only [dropMember, Function.update_of_ne hj]
        rw [husers j]
        simp [hj]
  obtain ⟨s', hdrain, -, hend⟩ := @Links.Ring.drain _ _ _ (fun s : State κ υ σ => s.members.links)
    (freeMember memory) (.inl b) I _ s (h.owned.ring b) hstart hbody _ (h.owned.fuel b)
  rw [hI] at hend
  obtain ⟨before, ks, hblocks, hks, hstore, hfrees, howned, husers⟩ := hend
  rw [List.map_eq_nil_iff.mp hks.symm] at hblocks hfrees howned
  rw [List.append_nil] at hblocks
  rw [Option.some_inj.mp hfrees] at hstore
  rw [← hblocks] at husers
  exact ⟨s', hdrain, hstore, howned, husers⟩

/-- An entry is given back behind its members. -/
theorem Kept.free (h : Kept ipaddr s list blocks) (hb : (s.store.entries b).isSome = true) {t : σ}
    (hfrees : (blocks b ++ [b]).foldlM memory.free s.store.mem = some t) :
  ∃ s', freeGroupEntry memory s b = some s'
    ∧ Kept ipaddr s' (list.erase b) (Function.update blocks b [])
    ∧ s'.store.entries = Function.update s.store.entries b none ∧ s'.store.mem = t
    ∧ ∀ k, s'.members.user k = if k ∈ blocks b then none else s.members.user k
  := by
  rw [List.foldlM_append] at hfrees
  obtain ⟨t₁, hmembers, hentry⟩ := Option.bind_eq_some_iff.mp hfrees
  simp only [List.foldlM_cons, List.foldlM_nil, bind_pure] at hentry
  obtain ⟨s₁, hfree, hstore, howned, husers⟩ := h.freeMembers b hmembers
  have hheld : Held s₁.store list := by
    rw [hstore]
    apply h.held.setMem
  have hentries : s₁.store.entries = s.store.entries := by rw [hstore]
  have hmem : s₁.store.mem = t₁ := by rw [hstore]
  rw [← hmem] at hentry
  obtain ⟨store, hfree', hheld', hentries', hmem'⟩ := hheld.free (hentries ▸ hb) hentry
  rw [hentries] at hentries'
  refine ⟨{ s₁ with store }, ?_, ⟨hheld', howned, ?_, ?_⟩, hentries', hmem', husers⟩
  · have hlive : s.store.Live (.inr b) := hb
    simp only [freeGroupEntry, if_pos hlive, hfree, hfree', Option.bind_eq_bind, Option.bind_some]
  · intro c hc
    by_cases hcb : c = b
    · subst hcb
      apply Function.update_self
    · simp only [hentries', Function.update_of_ne hcb] at hc
      rw [Function.update_of_ne hcb, h.empty c hc]
  · intro c hc
    by_cases hcb : c = b
    · subst hcb
      simp [hentries'] at hc
    · simp only [hentries', Function.update_of_ne hcb] at hc
      rw [husers c, h.apart c hc, ite_self]

/-- A block that is handed out becomes an entry without members. -/
theorem Kept.new (h : Kept ipaddr s list blocks) {size : Nat} {resources : R}
    (hnew : ∃ r ∈ memory.alloc s.store.mem size resources, ∀ b ∈ r.1, s.Fresh b) (gpid : κ) :
  ∃ base s', newGroupEntry memory s size gpid resources = some (base, s')
    ∧ Kept ipaddr s' list blocks
  := by
  obtain ⟨⟨base, t⟩, halloc, hfresh⟩ := hnew
  rw [Option.mem_def] at halloc
  cases base with
  | none =>
    refine ⟨none, { s with store := { s.store with mem := t } }, ?_, h.setMem t⟩
    simp only [newGroupEntry, newUserEntry, halloc, Option.bind_eq_bind, Option.bind_some]
  | some b =>
    obtain ⟨hnone, huser⟩ := hfresh b rfl
    refine ⟨some b, { store := EntryStore.initEntry memory { s.store with mem := t } b gpid
                      members := { s.members with links := s.members.links.init (.inl b) } }, ?_,
      (h.held.setMem t).init hnone memory gpid, h.owned.init (h.empty b hnone), ?_, ?_⟩
    · simp only [newGroupEntry, newUserEntry, halloc, Option.bind_eq_bind, Option.bind_some]
    · intro c hc
      by_cases hcb : c = b
      · rw [hcb]
        apply h.empty b hnone
      · simp only [EntryStore.initEntry, Function.update_of_ne hcb] at hc
        apply h.empty c hc
    · intro c hc
      by_cases hcb : c = b
      · rw [hcb]
        exact huser
      · simp only [EntryStore.initEntry, Function.update_of_ne hcb] at hc
        apply h.apart c hc

/-- What is not the entry has no members if it had none. -/
theorem Kept.empty_update (h : Kept ipaddr s list blocks) (hb : (s.store.entries b).isSome = true)
    (ks : List Nat) {c : Nat} (hc : s.store.entries c = none) :
  Function.update blocks b ks c = []
  := by
  have hne : c ≠ b := by
    rintro rfl
    rw [hc] at hb
    cases hb
  rw [Function.update_of_ne hne, h.empty c hc]

/-- Where the memory answers, a careful call returns and keeps the rings. -/
theorem step_kept {e : Call κ υ R} (h : ∃ list blocks, Kept ipaddr s list blocks)
    (he : Careful memory ipaddr s e) :
  ∃ o s', (machine memory ipaddr).step s e = some (o, s')
    ∧ ∃ list blocks, Kept ipaddr s' list blocks
  := by
  obtain ⟨list, blocks, h⟩ := h
  cases e with
  | new texts gpid resources =>
    obtain ⟨base, s', hnew, hs'⟩ := h.new he gpid
    simp only [machine, hnew]
    exact ⟨_, _, rfl, list, blocks, hs'⟩
  | add b resources =>
    obtain ⟨hlinked, gpid, hb, htable⟩ := he
    rw [Option.mem_def] at hb
    obtain ⟨⟨⟨code, val⟩, t⟩, htable⟩ := Option.isSome_iff_exists.mp htable
    simp only [machine, groupAddEntry, userAddEntry, hb, htable, Option.bind_eq_bind,
      Option.bind_some]
    by_cases hcode : code < 0
    · rw [if_pos hcode]
      exact ⟨_, _, rfl, list, blocks, h.setMem t⟩
    · obtain ⟨store, hadd, hheld, hentries, -⟩ :=
        (h.held.setMem t).addTail (b := b) (by rw [hb]; rfl) hlinked
      rw [if_neg hcode, hadd]
      refine ⟨_, _, rfl, list ++ [b], blocks, hheld, h.owned, ?_, ?_⟩
      · intro c hc
        rw [hentries] at hc
        apply h.empty c hc
      · intro c hc
        rw [hentries] at hc
        apply h.apart c hc
  | del b =>
    obtain ⟨gpid, hb, ⟨⟨code, val⟩, t⟩, htable, hfrees⟩ := he
    rw [Option.mem_def] at hb htable
    simp only [machine, groupDelEntry, hb, htable, Option.bind_eq_bind, Option.bind_some]
    by_cases hcode : code < 0
    · rw [if_pos hcode]
      exact ⟨_, _, rfl, list, blocks, h.setMem t⟩
    · obtain ⟨t', hfrees⟩ := Option.isSome_iff_exists.mp (hfrees (Int.not_lt.mp hcode))
      rw [h.entryBlocks_eq] at hfrees
      obtain ⟨s', hfree, hkept, -⟩ := (h.setMem t).free (b := b) (by rw [hb]; rfl) hfrees
      rw [if_neg hcode, hfree]
      exact ⟨_, _, rfl, _, _, hkept⟩
  | find gpid =>
    obtain ⟨⟨⟨code, val⟩, t⟩, htable⟩ := Option.isSome_iff_exists.mp he
    simp only [machine, groupFindEntry, userFindEntry, htable, Option.bind_eq_bind,
      Option.bind_some]
    exact ⟨_, _, rfl, list, blocks, h.setMem t⟩
  | addUser b user resources =>
    obtain ⟨hb, hblock⟩ := he
    have hlive : s.store.Live (.inr b) := hb
    have hloop : ∃ found, Members.foreachMember ipaddr s.members b (ipaddr user) = some found := by
      obtain ⟨lists, hholds⟩ := h.owned.holds
      exact ⟨_, hholds.foreachMember b (ipaddr user)⟩
    obtain ⟨found, hloop⟩ := hloop
    simp only [machine, if_pos hlive, groupEntryAddUser, hloop, Option.bind_eq_bind,
      Option.bind_some]
    cases found with
    | some k => exact ⟨_, _, rfl, list, blocks, h⟩
    | none =>
      obtain ⟨⟨base, t⟩, halloc, k, hk, hnone, huser⟩ := hblock hloop
      rw [Option.mem_def] at halloc hk
      dsimp only at hk
      subst hk
      have howned := h.owned.addUser huser hloop
      simp only [halloc, Option.bind_some, Option.map_some]
      refine ⟨_, _, rfl, list, _, h.held.setMem t, howned, fun c hc => h.empty_update hb _ hc, ?_⟩
      intro c hc
      have hne : c ≠ k := by
        rintro rfl
        dsimp only at hc
        rw [hnone] at hc
        cases hc
      simp only [appendMember, Function.update_of_ne hne]
      apply h.apart c hc
  | delUser b user =>
    obtain ⟨hb, hfree⟩ := he
    have hlive : s.store.Live (.inr b) := hb
    obtain ⟨found, hloop, hdel⟩ := h.owned.delUser b user
    simp only [machine, if_pos hlive, groupEntryDelUser, hloop, Option.bind_eq_bind,
      Option.bind_some]
    cases found with
    | none => exact ⟨_, _, rfl, list, blocks, h⟩
    | some k =>
      obtain ⟨t, hfree⟩ := Option.isSome_iff_exists.mp (hfree _ hloop k rfl)
      obtain ⟨hk, howned⟩ := hdel k rfl
      simp only [hfree, Option.bind_some, Option.map_some]
      refine ⟨_, _, rfl, list, _, h.held.setMem t, howned, fun c hc => h.empty_update hb _ hc, ?_⟩
      intro c hc
      simp only [dropMember]
      by_cases hck : c = k
      · rw [hck, Function.update_self]
      · rw [Function.update_of_ne hck]
        apply h.apart c hc
  | findUser b ip =>
    have hlive : s.store.Live (.inr b) := he
    obtain ⟨lists, hholds⟩ := h.owned.holds
    simp only [machine, if_pos hlive, Members.groupEntryFindUser, hholds.foreachMember]
    exact ⟨_, _, rfl, list, blocks, h⟩

/-! ### The loop that destroys the store -/

/-- The entries `l` of the ring are left with their members, the others are given back with theirs,
and the pool takes those that are left back as well. -/
structure Left (memory : Memory κ R σ) (ipaddr : υ → List UInt8) (s : State κ υ σ)
    (list : List Nat) (blocks : Nat → List Nat) (t' : σ) (l : List Nat) (t : State κ υ σ) :
    Prop where
  kept : Kept ipaddr t l fun c => if c ∈ list ∧ c ∉ l then [] else blocks c
  sub : l ⊆ list
  entries : ∀ b, t.store.entries b = if b ∈ list ∧ b ∉ l then none else s.store.entries b
  users : ∀ k, t.members.user k
    = if ∃ b ∈ list, b ∉ l ∧ k ∈ blocks b then none else s.members.user k
  frees : (l.flatMap fun b => blocks b ++ [b]).foldlM memory.free t.store.mem = some t'

/-- The body of the loop of `destroy_group` gives the first one of them back. -/
theorem Left.body {t' : σ} {l : List Nat} {t : State κ υ σ}
    (h : Left memory ipaddr s list blocks t' (b :: l) t) :
  ∃ u, freeGroupEntry memory t b = some u ∧ Left memory ipaddr s list blocks t' l u
  := by
  have hb : b ∈ list := h.sub List.mem_cons_self
  have hnot : b ∉ l := (List.nodup_cons.mp h.kept.held.nodup).1
  have hself : (if b ∈ list ∧ b ∉ b :: l then [] else blocks b) = blocks b := by
    rw [if_neg fun h => h.2 List.mem_cons_self]
  have hgone : ∀ c, c ≠ b → (c ∈ list ∧ c ∉ b :: l ↔ c ∈ list ∧ c ∉ l) := by
    intro c hc
    rw [List.mem_cons, not_or, and_iff_right hc]
  have hfrees := h.frees
  rw [List.flatMap_cons, List.foldlM_append] at hfrees
  obtain ⟨t₁, hfirst, hfrees⟩ := Option.bind_eq_some_iff.mp hfrees
  rw [← hself] at hfirst
  obtain ⟨u, hfree, hkept, hentries, hmem, husers⟩ :=
    h.kept.free (h.kept.held.live b List.mem_cons_self) hfirst
  rw [List.erase_cons_head] at hkept
  rw [hself] at husers
  refine ⟨u, hfree, ?_, List.subset_of_cons_subset h.sub, ?_, ?_, hmem ▸ hfrees⟩
  · have hblocks : Function.update (fun c => if c ∈ list ∧ c ∉ b :: l then [] else blocks c) b []
        = fun c => if c ∈ list ∧ c ∉ l then [] else blocks c := by
      funext c
      by_cases hc : c = b
      · subst hc
        rw [Function.update_self, if_pos ⟨hb, hnot⟩]
      · rw [Function.update_of_ne hc]
        simp only [hgone c hc]
    rw [hblocks] at hkept
    exact hkept
  · intro c
    rw [hentries]
    by_cases hc : c = b
    · subst hc
      rw [Function.update_self, if_pos ⟨hb, hnot⟩]
    · rw [Function.update_of_ne hc, h.entries c]
      simp only [hgone c hc]
  · intro k
    rw [husers k]
    by_cases hk : k ∈ blocks b
    · rw [if_pos hk, if_pos ⟨b, hb, hnot, hk⟩]
    · have hothers :
          (∃ c ∈ list, c ∉ b :: l ∧ k ∈ blocks c) ↔ ∃ c ∈ list, c ∉ l ∧ k ∈ blocks c := by
        apply exists_congr
        intro c
        by_cases hc : c = b
        · subst hc
          simp [hk]
        · simp [hc]
      rw [if_neg hk, h.users k]
      simp only [hothers]

/-- The loop of `destroy_group` gives back the entries of the ring and their members. -/
theorem Kept.destroyGroup (h : Kept ipaddr s list blocks) {t' : σ}
    (hfrees : (list.flatMap fun b => blocks b ++ [b]).foldlM memory.free s.store.mem = some t') :
  ∃ t, GroupStore.destroyGroup memory s = some t ∧ t.store.mem = t'
    ∧ (∀ b, t.store.entries b = if b ∈ list then none else s.store.entries b)
    ∧ ∀ k, t.members.user k = if ∃ b ∈ list, k ∈ blocks b then none else s.members.user k
  := by
  have hstart : ∃ l, list.map (Sum.inr : Nat → Unit ⊕ Nat) = l.map .inr
      ∧ Left memory ipaddr s list blocks t' l s := by
    refine ⟨list, rfl, ?_, List.Subset.refl _, ?_, ?_, hfrees⟩
    · have hblocks : (fun c => if c ∈ list ∧ c ∉ list then [] else blocks c) = blocks := by
        funext c
        rw [if_neg fun hc => hc.2 hc.1]
      rw [hblocks]
      exact h
    · intro b
      rw [if_neg fun hb => hb.2 hb.1]
    · intro k
      rw [if_neg]
      rintro ⟨b, hb, hnot, -⟩
      apply hnot hb
  have hbody : ∀ x xs (t : State κ υ σ), t.store.links.Ring (.inl ()) (x :: xs) →
      (∃ l, x :: xs = l.map .inr ∧ Left memory ipaddr s list blocks t' l t) →
      ∃ u, destroyBody memory x t = some u ∧ u.store.links.Ring (.inl ()) xs
        ∧ ∃ l, xs = l.map .inr ∧ Left memory ipaddr s list blocks t' l u := by
    rintro x xs t - ⟨l, hl, ht⟩
    obtain ⟨b, l, rfl, rfl, rfl⟩ := List.map_eq_cons_iff.mp hl.symm
    obtain ⟨u, hfree, hu⟩ := ht.body
    exact ⟨u, hfree, hu.kept.held.ring, l, rfl, hu⟩
  have hfuel : (list.map (Sum.inr : Nat → Unit ⊕ Nat)).length < s.store.adds + 1 := by
    rw [List.length_map]
    exact Nat.lt_succ_of_le h.held.adds
  have hring : ((fun s : State κ υ σ => s.store.links) s).Ring (.inl ()) (list.map .inr) :=
    h.held.ring
  obtain ⟨t, hdrain, -, l, hl, ht⟩ := hring.drain
    (I := fun xs t => ∃ l, xs = l.map .inr ∧ Left memory ipaddr s list blocks t' l t) hstart hbody
    hfuel
  rw [List.map_eq_nil_iff.mp hl.symm] at ht
  refine ⟨t, hdrain, Option.some_inj.mp ht.frees, ?_, ?_⟩
  · intro b
    rw [ht.entries b]
    simp
  · intro k
    rw [ht.users k]
    simp

/-- The blocks of the entries and of their members differ. -/
theorem Kept.blocks_nodup (h : Kept ipaddr s list blocks) :
  (list.flatMap fun b => blocks b ++ [b]).Nodup
  := by
  -- a member is a block that no entry has
  have hmember : ∀ {b c}, b ∈ list → b ∉ blocks c := by
    intro b c hb hmem
    have hnone := h.apart b (h.held.live b hb)
    have hsome := (h.owned.owned b).mpr ⟨c, hmem⟩
    rw [hnone] at hsome
    cases hsome
  rw [List.nodup_flatMap]
  constructor
  · intro b hb
    apply List.Nodup.append (h.owned.nodup b) (List.nodup_singleton b)
    rw [List.disjoint_singleton]
    apply hmember hb
  · apply h.held.nodup.pairwise_of_forall_ne
    intro b hb c hc hne k hkb hkc
    rw [List.mem_append, List.mem_singleton] at hkb hkc
    rcases hkb with hkb | rfl
    · rcases hkc with hkc | rfl
      · apply hne (h.owned.group_unique hkc hkb)
      · apply hmember hc hkb
    · rcases hkc with hkc | rfl
      · apply hmember hb hkc
      · apply hne rfl

/-- Where the memory answers, every call returns: none touches a block that was given back, or gives
one back twice, and every member is in the ring of exactly one entry.  After them `destroy_group`
gives back the entries of the ring and their members, each block once and every entry behind its
members, and returns if the pool takes them back; it leaves the other entries with theirs. -/
theorem destroyGroup_releases (memory : Memory κ R σ) (ipaddr : υ → List UInt8)
    (prev next : Nat → Unit ⊕ Nat) (prev' next' : Nat → Nat ⊕ Nat) (t : σ)
    {es : List (Call κ υ R)}
    (hcareful : (machine memory ipaddr).Meets (Careful memory ipaddr)
      (createGroup prev next prev' next' t) es) :
  ∃ os s, (machine memory ipaddr).run (createGroup prev next prev' next' t) es = some (os, s)
    ∧ s.blocks.Nodup
    ∧ (∀ b, (s.store.entries b).isSome = true →
      (b ∈ s.blocks ↔ ¬ s.store.links.Linked (.inr b) (.inr b)))
    ∧ (∀ k, (s.members.user k).isSome = true →
      ∃! b, (s.store.entries b).isSome = true ∧ k ∈ s.memberBlocks b)
    ∧ ∀ t', s.blocks.foldlM memory.free s.store.mem = some t' →
      ∃ s', destroyGroup memory s = some s' ∧ s'.store.mem = t'
        ∧ (∀ b, s'.store.entries b = if b ∈ s.blocks then none else s.store.entries b)
        ∧ ∀ k, s'.members.user k = if k ∈ s.blocks then none else s.members.user k
  := by
  have hstart : Kept ipaddr (createGroup prev next prev' next' t : State κ υ σ) [] fun _ => [] := by
    refine ⟨EntryStore.held_createUser prev next t, ⟨⟨fun _ => [], ?_⟩, ?_⟩, fun _ _ => rfl,
      fun _ _ => rfl⟩
    · exact ⟨Links.heads_rings prev' next', fun _ => rfl, fun _ => Nat.zero_le _,
        fun _ => List.nodup_nil⟩
    · intro k
      simp [createGroup, Members.start]
  obtain ⟨os, s, hrun, list, blocks, h⟩ := (machine memory ipaddr).run_returns
    (fun s e (hs : ∃ list blocks, Kept ipaddr s list blocks) he => step_kept hs he)
    ⟨_, _, hstart⟩ hcareful
  have hentry : ∀ b, (s.store.entries b).isSome = true → (b ∈ s.blocks ↔ b ∈ list) := by
    intro b hb
    have hnone := h.apart b hb
    have hnot : ∀ c, b ∉ blocks c := by
      intro c hmem
      have hsome := (h.owned.owned b).mpr ⟨c, hmem⟩
      rw [hnone] at hsome
      cases hsome
    rw [h.blocks_eq]
    simp [hnot]
  have hmember : ∀ k, (s.members.user k).isSome = true →
      (k ∈ s.blocks ↔ ∃ b ∈ list, k ∈ blocks b) := by
    intro k hk
    have hnot : k ∉ list := by
      intro hmem
      rw [h.apart k (h.held.live k hmem)] at hk
      cases hk
    rw [h.blocks_eq, List.mem_flatMap]
    apply exists_congr
    intro b
    apply and_congr_right
    intro hb
    have hne : k ≠ b := by
      rintro rfl
      apply hnot hb
    rw [List.mem_append, List.mem_singleton, or_iff_left hne]
  refine ⟨os, s, hrun, ?_, ?_, ?_, ?_⟩
  · rw [h.blocks_eq]
    apply h.blocks_nodup
  · intro b hb
    rw [hentry b hb]
    apply h.held.mem_iff hb
  · intro k hk
    obtain ⟨b, hb⟩ := (h.owned.owned k).mp hk
    refine ⟨b, ⟨?_, h.memberBlocks_eq b ▸ hb⟩, ?_⟩
    · by_contra hnone
      rw [Option.not_isSome_iff_eq_none] at hnone
      rw [h.empty b hnone] at hb
      cases hb
    · rintro c ⟨-, hc⟩
      rw [h.memberBlocks_eq] at hc
      apply h.owned.group_unique hb hc
  · intro t' hfrees
    rw [h.blocks_eq] at hfrees
    obtain ⟨s', hdestroy, hmem, hentries, husers⟩ := h.destroyGroup hfrees
    refine ⟨s', hdestroy, hmem, ?_, ?_⟩
    · intro b
      rw [hentries b]
      by_cases hb : (s.store.entries b).isSome = true
      · simp only [hentry b hb]
      · rw [Option.not_isSome_iff_eq_none.mp hb, ite_self, ite_self]
    · intro k
      rw [husers k]
      by_cases hk : (s.members.user k).isSome = true
      · simp only [hmember k hk]
      · rw [Option.not_isSome_iff_eq_none.mp hk, ite_self, ite_self]

end

section

open Hash

/-- The same memory for groups of numbers, whose entries have a pointer to their `group_name`
first. -/
def groupMemory : Memory (Key (smallTable 3).ktype) HashMallocs HashState :=
  { EntryStore.poolMemory (smallTable 3) with
    init t start _ := { t with heap := { t.heap with
      mem := t.heap.mem.storeSize start (start + Chatboxes.sizeofGroup) } } }

/-- The memory of a new table of numbers. -/
def smallState : HashState :=
  ((create (MemPool.init 4096 8) ⟨fun _ => 0, []⟩ 3 .int ⟨true, some 4096⟩).map Prod.snd).getD
    ⟨MemPool.init 4096 8, ⟨fun _ => 0, []⟩, []⟩

/-- The number of a group. -/
def smallNumber (n : UInt32) : Key (smallTable 3).ktype := n

/-- The address of one of two users. -/
def smallAddress (user : Bool) : List UInt8 := [if user then 49 else 48]

/-- Two groups with both users each, of which the second one is never added, and loses a user. -/
def smallCalls : List (Call (Key (smallTable 3).ktype) Bool HashMallocs) :=
  [.new 20 (smallNumber 1) ⟨none, ⟨true, none⟩⟩, .new 20 (smallNumber 3) ⟨none, ⟨true, none⟩⟩,
    .add 8036 ⟨some 65536, ⟨true, none⟩⟩, .addUser 8036 false ⟨none, ⟨true, none⟩⟩,
    .addUser 8036 true ⟨none, ⟨true, none⟩⟩, .addUser 7936 false ⟨none, ⟨true, none⟩⟩,
    .addUser 7936 true ⟨none, ⟨true, none⟩⟩, .addUser 7936 true ⟨none, ⟨true, none⟩⟩,
    .delUser 7936 false, .findUser 7936 (smallAddress true), .find (smallNumber 1)]

/-- The first group is given back behind its members, and the second one is left with the other. -/
theorem destroyGroup_releases_two :
  ∃ os s, (machine groupMemory smallAddress).run (createGroup .inr .inr .inr .inr smallState)
      smallCalls = some (os, s)
    ∧ s.blocks.Nodup
    ∧ (∀ b, (s.store.entries b).isSome = true →
      (b ∈ s.blocks ↔ ¬ s.store.links.Linked (.inr b) (.inr b)))
    ∧ (∀ k, (s.members.user k).isSome = true →
      ∃! b, (s.store.entries b).isSome = true ∧ k ∈ s.memberBlocks b)
    ∧ ∀ t', s.blocks.foldlM groupMemory.free s.store.mem = some t' →
      ∃ s', destroyGroup groupMemory s = some s' ∧ s'.store.mem = t'
        ∧ (∀ b, s'.store.entries b = if b ∈ s.blocks then none else s.store.entries b)
        ∧ ∀ k, s'.members.user k = if k ∈ s.blocks then none else s.members.user k
  := by
  have hcareful : (machine groupMemory smallAddress).Meets (Careful groupMemory smallAddress)
      (createGroup .inr .inr .inr .inr smallState) smallCalls := by
    decide +kernel
  exact destroyGroup_releases groupMemory smallAddress .inr .inr .inr .inr smallState hcareful

end

end GroupStore

end IFreeChat
