import IFreeChat.Basis.Drain
import IFreeChat.Basis.FiniteMap
import IFreeChat.Basis.Lists
import IFreeChat.Hash.Destroy
import Mathlib.Data.List.Find

/-!
# The stores of the users and of the categories

`user_t` keeps the entries of the users in a ring, from its `ulist` through the `unode` of every
entry, and in a hash table under their addresses.  An entry is a block that the pool has handed
out, and `user_del_entry` and `destroy_user` give it back.  `category_t` keeps its entries in the
same way, but `category_del_entry` does not give an entry back, and `destroy_category` leaves the
links of the entries it gives back as they are.

A call does not return, `none`, when the memory does not answer, when it touches an entry that has
been given back, or gives one back twice.  Where the memory answers, every call returns, and
`destroy_user` gives back the entries of the ring (`destroyUser_releases`,
`destroyCategory_releases`).  In a pool with a table of its own `user_find_entry` loses the users
whose index a later one has, and no entry that it finds can ever be deleted (`run_lookup`).
-/

open Basis

namespace IFreeChat

namespace EntryStore

/-- The calls on the memory: those of the pool, what is written into a new block, and the calls on
the table that lies in the pool. -/
structure Memory (κ R σ : Type) where
  alloc : σ → (size : Nat) → R → Option (Option Nat × σ)
  init : σ → (start : Nat) → κ → σ
  free : σ → (start : Nat) → Option σ
  table : Machine σ (MapOp κ Nat R) (Int × Option Nat)

/-- The links of `ulist` and of the `unode` of every entry, the addresses of the entries that the
pool has handed out, the memory, and how many entries were linked so far. -/
structure Store (κ σ : Type) where
  links : Links (Unit ⊕ Nat)
  entries : Nat → Option κ
  mem : σ
  adds : Nat

section Source

variable {κ σ R : Type} (memory : Memory κ R σ)

/-- The memory of a node is that of the store, or that of an entry that is not given back. -/
def Store.Live (s : Store κ σ) : Unit ⊕ Nat → Prop
  | .inl _ => True
  | .inr b => (s.entries b).isSome = true

instance (s : Store κ σ) : ∀ x, Decidable (s.Live x)
  | .inl _ => .isTrue trivial
  | .inr b => inferInstanceAs (Decidable ((s.entries b).isSome = true))

/-- What is written into the block `b` of a new entry. -/
def initEntry (s : Store κ σ) (b : Nat) (ipaddr : κ) : Store κ σ where
  links := s.links.init (.inr b)
  entries := Function.update s.entries b (some ipaddr)
  mem := memory.init s.mem b ipaddr
  adds := s.adds

/-- `sizeof(user_entry_t)`. -/
def sizeofUserEntry : Nat := 112

/-- `sizeof(category_entry_t)`. -/
def sizeofCategoryEntry : Nat := 176

/-- `new_user_entry`, where the entry and its texts take `size` bytes. -/
def newUserEntry (s : Store κ σ) (size : Nat) (ipaddr : κ) (resources : R) :
    Option (Option Nat × Store κ σ) := do
  let (base, t) ← memory.alloc s.mem size resources
  let s := { s with mem := t }
  match base with
  | none => some (none, s)
  | some b => some (some b, initEntry memory s b ipaddr)

/-- `dlist_add_tail` of the node of an entry. -/
def dlistAddTail (s : Store κ σ) (b : Nat) : Option (Store κ σ) :=
  if s.Live (.inr b) ∧ s.Live (s.links.prev (.inl ())) then
    some { s with links := s.links.addTail (.inr b) (.inl ()), adds := s.adds + 1 }
  else none

/-- `dlist_del` of the node of an entry. -/
def dlistDel (s : Store κ σ) (b : Nat) : Option (Store κ σ) :=
  if s.Live (.inr b) ∧ s.Live (s.links.prev (.inr b)) ∧ s.Live (s.links.next (.inr b)) then
    some { s with links := s.links.del (.inr b) }
  else none

/-- `mem_pool_free` of an entry. -/
def memPoolFree (s : Store κ σ) (b : Nat) : Option (Store κ σ) :=
  if s.Live (.inr b) then
    (memory.free s.mem b).map fun t =>
      { s with mem := t, entries := Function.update s.entries b none }
  else none

/-- `free_user_entry`. -/
def freeUserEntry (s : Store κ σ) (b : Nat) : Option (Store κ σ) :=
  (dlistDel s b).bind fun s => memPoolFree memory s b

/-- The body of the loop of `destroy_user`. -/
def destroyBody (x : Unit ⊕ Nat) (s : Store κ σ) : Option (Store κ σ) :=
  match x with
  | .inl _ => none
  | .inr b => freeUserEntry memory s b

/-- `destroy_user`, up to the release of the table. -/
def destroyUser (s : Store κ σ) : Option (Store κ σ) :=
  let p := s.links.next (.inl ())
  Links.drain Store.links (destroyBody memory) (.inl ()) (s.adds + 1) p (s.links.next p) s

/-- The body of the loop of `destroy_category`, which leaves the links as they are. -/
def destroyCategoryBody (x : Unit ⊕ Nat) (s : Store κ σ) : Option (Store κ σ) :=
  match x with
  | .inl _ => none
  | .inr b => memPoolFree memory s b

/-- `destroy_category`, up to the release of the table. -/
def destroyCategory (s : Store κ σ) : Option (Store κ σ) :=
  let p := s.links.next (.inl ())
  Links.drain Store.links (destroyCategoryBody memory) (.inl ()) (s.adds + 1) p (s.links.next p) s

/-- `user_add_entry`. -/
def userAddEntry (s : Store κ σ) (b : Nat) (resources : R) : Option (Int × Store κ σ) := do
  let ipaddr ← s.entries b
  let ((code, _), t) ← memory.table.step s.mem (.insert ipaddr b resources)
  let s := { s with mem := t }
  if code < 0 then some (-1, s) else (dlistAddTail s b).map fun s => (0, s)

/-- `user_del_entry`. -/
def userDelEntry (s : Store κ σ) (b : Nat) : Option (Int × Store κ σ) := do
  let ipaddr ← s.entries b
  let ((code, _), t) ← memory.table.step s.mem (.del ipaddr)
  let s := { s with mem := t }
  if code < 0 then some (-1, s) else (freeUserEntry memory s b).map fun s => (0, s)

/-- `user_find_entry`. -/
def userFindEntry (s : Store κ σ) (ipaddr : κ) : Option (Option Nat × Store κ σ) := do
  let ((code, entry), t) ← memory.table.step s.mem (.find ipaddr)
  some (if code < 0 then none else entry, { s with mem := t })

/-- `category_insert_entry`, which goes on whatever the table answers. -/
def categoryInsertEntry (s : Store κ σ) (key : κ) (b : Nat) (resources : R) :
    Option (Int × Store κ σ) := do
  let (_, t) ← memory.table.step s.mem (.insert key b resources)
  (dlistAddTail { s with mem := t } b).map fun s => (0, s)

/-- `category_del_entry`, which does not give the entry back. -/
def categoryDelEntry (s : Store κ σ) (key : κ) (b : Nat) : Option (Int × Store κ σ) := do
  let (_, t) ← memory.table.step s.mem (.del key)
  (dlistDel { s with mem := t } b).map fun s => (0, s)

/-- The calls; the texts of a new entry take `texts` bytes. -/
inductive Call (κ R : Type) where
  | new (texts : Nat) (ipaddr : κ) (resources : R)
  | add (b : Nat) (resources : R)
  | del (b : Nat)
  | find (ipaddr : κ)

/-- What a call answers. -/
inductive Answer where
  | none
  | code (code : Int)
  | entry (entry : Option Nat)
deriving DecidableEq

/-- The machine of the calls. -/
def machine : Machine (Store κ σ) (Call κ R) Answer where
  step s
    | .new texts ipaddr resources =>
        (newUserEntry memory s (sizeofUserEntry + texts) ipaddr resources).map fun r =>
          (.entry r.1, r.2)
    | .add b resources => (userAddEntry memory s b resources).map fun r => (.code r.1, r.2)
    | .del b => (userDelEntry memory s b).map fun r => (.code r.1, r.2)
    | .find ipaddr => (userFindEntry memory s ipaddr).map fun r => (.entry r.1, r.2)

/-- The calls on categories. -/
inductive CategoryCall (κ R : Type) where
  | new (name : κ) (resources : R)
  | insert (key : κ) (b : Nat) (resources : R)
  | del (key : κ) (b : Nat)
  | free (b : Nat)
  | find (key : κ)

/-- The machine of the calls on categories: `new_category_entry` and `category_find_entry` do what
those on users do. -/
def categoryMachine : Machine (Store κ σ) (CategoryCall κ R) Answer where
  step s
    | .new name resources =>
        (newUserEntry memory s sizeofCategoryEntry name resources).map fun r => (.entry r.1, r.2)
    | .insert key b resources =>
        (categoryInsertEntry memory s key b resources).map fun r => (.code r.1, r.2)
    | .del key b => (categoryDelEntry memory s key b).map fun r => (.code r.1, r.2)
    | .free b => (memPoolFree memory s b).map fun s => (.none, s)
    | .find key => (userFindEntry memory s key).map fun r => (.entry r.1, r.2)

/-- `create_user`, on a new table. -/
def createUser (prev next : Nat → Unit ⊕ Nat) (t : σ) : Store κ σ where
  links := Links.heads prev next
  entries := fun _ => none
  mem := t
  adds := 0

/-- The pool answers, and what it hands out is no entry. -/
def CarefulNew (s : Store κ σ) (size : Nat) (resources : R) : Prop :=
  ∃ r ∈ memory.alloc s.mem size resources, ∀ b ∈ r.1, s.entries b = none

instance (s : Store κ σ) (size : Nat) (resources : R) :
    Decidable (CarefulNew memory s size resources) :=
  inferInstanceAs (Decidable (∃ r ∈ memory.alloc s.mem size resources, _))

/-- The memory answers; what the pool hands out is no entry; and an entry that is added is not
linked yet. -/
def Careful (s : Store κ σ) : Call κ R → Prop
  | .new texts _ resources => CarefulNew memory s (sizeofUserEntry + texts) resources
  | .add b resources =>
      s.links.Linked (.inr b) (.inr b) ∧ ∃ ipaddr ∈ s.entries b,
        (memory.table.step s.mem (.insert ipaddr b resources)).isSome = true
  | .del b => ∃ ipaddr ∈ s.entries b, ∃ r ∈ memory.table.step s.mem (.del ipaddr),
      0 ≤ r.1.1 → (memory.free r.2 b).isSome = true
  | .find ipaddr => (memory.table.step s.mem (.find ipaddr)).isSome = true

instance (s : Store κ σ) : ∀ e, Decidable (Careful memory s e)
  | .new texts _ resources =>
      inferInstanceAs (Decidable (CarefulNew memory s (sizeofUserEntry + texts) resources))
  | .add _ _ => inferInstanceAs (Decidable (_ ∧ _))
  | .del b => inferInstanceAs (Decidable (∃ ipaddr ∈ s.entries b, ∃ r ∈ _, _))
  | .find _ => inferInstanceAs (Decidable (_ = true))

/-- The same for categories, where an entry that is given back is not linked. -/
def CategoryCareful (s : Store κ σ) : CategoryCall κ R → Prop
  | .new _ resources => CarefulNew memory s sizeofCategoryEntry resources
  | .insert key b resources =>
      (s.entries b).isSome = true ∧ s.links.Linked (.inr b) (.inr b)
        ∧ (memory.table.step s.mem (.insert key b resources)).isSome = true
  | .del key b =>
      (s.entries b).isSome = true ∧ (memory.table.step s.mem (.del key)).isSome = true
  | .free b => (s.entries b).isSome = true ∧ s.links.Linked (.inr b) (.inr b)
      ∧ (memory.free s.mem b).isSome = true
  | .find key => (memory.table.step s.mem (.find key)).isSome = true

instance (s : Store κ σ) : ∀ e, Decidable (CategoryCareful memory s e)
  | .new _ resources =>
      inferInstanceAs (Decidable (CarefulNew memory s sizeofCategoryEntry resources))
  | .insert _ _ _ => inferInstanceAs (Decidable (_ ∧ _ ∧ _))
  | .del _ _ => inferInstanceAs (Decidable (_ ∧ _))
  | .free _ => inferInstanceAs (Decidable (_ ∧ _ ∧ _))
  | .find _ => inferInstanceAs (Decidable (_ = true))

/-- The entries that the walk along the ring visits. -/
def Store.blocks (s : Store κ σ) : List Nat :=
  ((s.links.walk (.inl ()) (s.adds + 1) (s.links.next (.inl ()))).getD []).filterMap
    Sum.getRight?

end Source

/-! ### The ring of the entries -/

section

variable {κ σ R : Type} {s : Store κ σ} {list : List Nat} {b : Nat}

/-- The ring has these entries, none of which is given back, and every other entry is linked to
itself. -/
structure Held (s : Store κ σ) (list : List Nat) : Prop where
  ring : s.links.Ring (.inl ()) (list.map .inr)
  live : ∀ b ∈ list, (s.entries b).isSome = true
  alone : ∀ b, (s.entries b).isSome = true → b ∉ list → s.links.Linked (.inr b) (.inr b)
  adds : list.length ≤ s.adds

/-- An entry is in the ring if it is not linked to itself. -/
theorem Held.mem_iff (h : Held s list) (hb : (s.entries b).isSome = true) :
  b ∈ list ↔ ¬ s.links.Linked (.inr b) (.inr b)
  := by
  constructor
  · intro hmem hlinked
    apply h.ring.not_mem_of_linked hlinked
    apply List.mem_map_of_mem hmem
  · intro hnot
    by_contra hmem
    apply hnot (h.alone b hb hmem)

/-- The nodes of the ring are not given back. -/
theorem Held.live_of_mem (h : Held s list) {x : Unit ⊕ Nat}
    (hx : x ∈ .inl () :: list.map .inr) :
  s.Live x
  := by
  rcases List.mem_cons.mp hx with rfl | hx
  · trivial
  · obtain ⟨b, hb, rfl⟩ := List.mem_map.mp hx
    apply h.live b hb

/-- A block that is handed out becomes an entry that is not in the ring. -/
theorem Held.init (h : Held s list) (hb : s.entries b = none)
    (memory : Memory κ R σ) (ipaddr : κ) :
  Held (initEntry memory s b ipaddr) list
  := by
  have hmem : b ∉ list := by
    intro hmem
    have hlive := h.live b hmem
    rw [hb] at hlive
    cases hlive
  constructor
  · apply h.ring.congr
    intro x hx
    have hne : x ≠ .inr b := by
      rintro rfl
      apply hmem (Links.inr_mem_iff.mp hx)
    simp only [initEntry, Links.init, Function.update_of_ne hne, and_self]
  · intro c hc
    have hne : c ≠ b := ne_of_mem_of_not_mem hc hmem
    simp only [initEntry, Function.update_of_ne hne]
    apply h.live c hc
  · intro c hc hnot
    by_cases hcb : c = b
    · subst hcb
      exact Links.ring_nil_iff.mp (Links.Ring.init s.links (.inr c))
    · simp only [initEntry, Function.update_of_ne hcb] at hc
      have hne : (.inr c : Unit ⊕ Nat) ≠ .inr b := fun heq => hcb (Sum.inr.inj heq)
      simp only [initEntry, Links.Linked, Links.init, Function.update_of_ne hne]
      apply h.alone c hc hnot
  · exact h.adds

/-- An entry that is linked to itself is put at the end of the ring. -/
theorem Held.addTail (h : Held s list) (hb : (s.entries b).isSome = true)
    (hlinked : s.links.Linked (.inr b) (.inr b)) :
  ∃ t, dlistAddTail s b = some t ∧ Held t (list ++ [b]) ∧ t.entries = s.entries
    ∧ t.mem = s.mem
  := by
  have hprev := h.live_of_mem h.ring.prev_head_mem
  have hmem : b ∉ list := by
    rw [h.mem_iff hb]
    exact not_not_intro hlinked
  refine ⟨_, if_pos ⟨hb, hprev⟩, ?_, rfl, rfl⟩
  have hnode : (.inr b : Unit ⊕ Nat) ∉ .inl () :: list.map .inr := by
    rw [Links.inr_mem_iff]
    exact hmem
  constructor
  · rw [List.map_append]
    apply h.ring.addTail hnode
  · intro c hc
    rcases List.mem_append.mp hc with hc | hc
    · apply h.live c hc
    · rw [List.mem_singleton.mp hc]
      exact hb
  · intro c hc hnot
    rw [List.mem_append, List.mem_singleton, not_or] at hnot
    have hlinks : (.inr c : Unit ⊕ Nat) ∉ .inr b :: .inl () :: list.map .inr := by
      simp only [List.mem_cons, List.mem_map, Sum.inr.injEq, exists_eq_right, reduceCtorEq,
        false_or, not_or]
      exact ⟨hnot.2, hnot.1⟩
    obtain ⟨hnext, hprev⟩ := h.ring.addTail_links hlinks
    obtain ⟨hc₁, hc₂⟩ := h.alone c hc hnot.1
    exact ⟨hnext.trans hc₁, hprev.trans hc₂⟩
  · rw [List.length_append, List.length_singleton]
    exact Nat.succ_le_succ h.adds

/-- An entry is taken out of the ring, if it is there. -/
theorem Held.unlink (h : Held s list) (hb : (s.entries b).isSome = true) :
  ∃ t, dlistDel s b = some t ∧ Held t (list.erase b) ∧ t.entries = s.entries
    ∧ t.mem = s.mem
  := by
  by_cases hmem : b ∈ list
  · obtain ⟨before, after, -, hlist, herase⟩ := List.exists_erase_eq hmem
    have hring := h.ring
    rw [hlist, List.map_append, List.map_cons] at hring
    obtain ⟨hprev, hnext⟩ := hring.neighbours_mem
    rw [← List.map_cons, ← List.map_append, ← hlist] at hprev hnext
    refine ⟨_, if_pos ⟨hb, h.live_of_mem hprev, h.live_of_mem hnext⟩, ?_, rfl, rfl⟩
    constructor
    · rw [herase, List.map_append]
      apply hring.del
    · intro c hc
      apply h.live c (List.mem_of_mem_erase hc)
    · intro c hc hnot
      by_cases hcb : c = b
      · subst hcb
        apply Links.ring_nil_iff.mp (Links.Ring.init _ _)
      · rw [List.mem_erase_of_ne hcb] at hnot
        have hlinks : (.inr c : Unit ⊕ Nat) ∉ .inl () :: (before.map .inr ++ .inr b
            :: after.map .inr) := by
          rw [← List.map_cons, ← List.map_append, ← hlist, Links.inr_mem_iff]
          exact hnot
        obtain ⟨hnext, hprev⟩ := hring.del_links hlinks
        obtain ⟨hc₁, hc₂⟩ := h.alone c hc hnot
        exact ⟨hnext.trans hc₁, hprev.trans hc₂⟩
    · exact List.length_erase_le.trans h.adds
  · -- the node is linked to itself, and stays so
    obtain ⟨hnext, hprev⟩ := h.alone b hb hmem
    have hlive : s.Live (.inr b) := hb
    have hothers : ∀ x ≠ .inr b, (s.links.del (.inr b)).next x = s.links.next x
        ∧ (s.links.del (.inr b)).prev x = s.links.prev x := by
      intro x hx
      exact ⟨Links.del_next hx (by rw [hprev]; exact hx),
        Links.del_prev hx (by rw [hnext]; exact hx)⟩
    rw [List.erase_of_not_mem hmem]
    refine ⟨_, if_pos ⟨hlive, by rw [hprev]; exact hlive, by rw [hnext]; exact hlive⟩, ?_, rfl,
      rfl⟩
    constructor
    · apply h.ring.congr
      intro x hx
      apply hothers
      rintro rfl
      apply hmem (Links.inr_mem_iff.mp hx)
    · exact h.live
    · intro c hc hnot
      by_cases hcb : c = b
      · subst hcb
        apply Links.ring_nil_iff.mp (Links.Ring.init _ _)
      · obtain ⟨hnext', hprev'⟩ := hothers (.inr c) fun heq => hcb (Sum.inr.inj heq)
        obtain ⟨hc₁, hc₂⟩ := h.alone c hc hnot
        exact ⟨hnext'.trans hc₁, hprev'.trans hc₂⟩
    · exact h.adds

theorem Held.setMem (h : Held s list) (t : σ) :
  Held { s with mem := t } list
  := ⟨h.ring, h.live, h.alone, h.adds⟩

/-- The walk along the ring visits its entries. -/
theorem Held.blocks_eq (h : Held s list) :
  s.blocks = list
  := by
  have hfuel : (list.map (Sum.inr : Nat → Unit ⊕ Nat)).length < s.adds + 1 := by
    rw [List.length_map]
    exact Nat.lt_succ_of_le h.adds
  rw [Store.blocks, h.ring.walk hfuel, Option.getD_some, List.filterMap_map]
  apply List.filterMap_some

theorem Held.nodup (h : Held s list) :
  list.Nodup
  := h.ring.nodup.of_cons.of_map

variable {memory : Memory κ R σ}

/-- An entry that is not in the ring is given back. -/
theorem Held.giveBack (h : Held s list) (hb : (s.entries b).isSome = true) (hmem : b ∉ list) {t : σ}
    (hfree : memory.free s.mem b = some t) :
  ∃ s', memPoolFree memory s b = some s' ∧ Held s' list
    ∧ s'.entries = Function.update s.entries b none ∧ s'.mem = t
  := by
  have hlive : s.Live (.inr b) := hb
  refine ⟨_, by rw [memPoolFree, if_pos hlive, hfree, Option.map_some], ?_, rfl, rfl⟩
  refine ⟨h.ring, ?_, ?_, h.adds⟩
  · intro c hc
    have hne : c ≠ b := ne_of_mem_of_not_mem hc hmem
    simp only [Function.update_of_ne hne]
    apply h.live c hc
  · intro c hc hnot
    have hne : c ≠ b := by
      rintro rfl
      simp at hc
    simp only [Function.update_of_ne hne] at hc
    apply h.alone c hc hnot

/-- An entry is taken out of the ring, if it is there, and given back. -/
theorem Held.free (h : Held s list) (hb : (s.entries b).isSome = true) {t : σ}
    (hfree : memory.free s.mem b = some t) :
  ∃ s', freeUserEntry memory s b = some s' ∧ Held s' (list.erase b)
    ∧ s'.entries = Function.update s.entries b none ∧ s'.mem = t
  := by
  obtain ⟨s₁, hdel, h₁, hentries, hmem⟩ := h.unlink hb
  rw [← hentries] at hb
  rw [← hmem] at hfree
  obtain ⟨s', hgive, h', hentries', hmem'⟩ := h₁.giveBack hb h.nodup.not_mem_erase hfree
  refine ⟨s', ?_, h', ?_, hmem'⟩
  · rw [freeUserEntry, hdel, Option.bind_some, hgive]
  · rw [hentries', hentries]

/-! ### A run of calls -/

/-- A block that the pool hands out becomes an entry that is not in the ring. -/
theorem Held.new (h : Held s list) {size : Nat} {resources : R}
    (hnew : CarefulNew memory s size resources) (ipaddr : κ) :
  ∃ base s', newUserEntry memory s size ipaddr resources = some (base, s') ∧ Held s' list
  := by
  obtain ⟨⟨base, t⟩, halloc, hfresh⟩ := hnew
  rw [Option.mem_def] at halloc
  rw [newUserEntry, halloc]
  cases base with
  | none => exact ⟨none, _, rfl, h.setMem t⟩
  | some b => exact ⟨some b, _, rfl, (h.setMem t).init (hfresh b rfl) memory ipaddr⟩

/-- Whatever the memory answers, a careful call returns and keeps the ring. -/
theorem step_held {e : Call κ R} (h : ∃ list, Held s list) (he : Careful memory s e) :
  ∃ o s', (machine memory).step s e = some (o, s') ∧ ∃ list, Held s' list
  := by
  obtain ⟨list, h⟩ := h
  cases e with
  | new texts ipaddr resources =>
    obtain ⟨base, s', hnew, hs'⟩ := h.new he ipaddr
    simp only [machine, hnew]
    exact ⟨_, _, rfl, list, hs'⟩
  | add b resources =>
    obtain ⟨hlinked, ipaddr, hb, htable⟩ := he
    rw [Option.mem_def] at hb
    obtain ⟨⟨⟨code, val⟩, t⟩, htable⟩ := Option.isSome_iff_exists.mp htable
    simp only [machine, userAddEntry, hb, htable, Option.bind_eq_bind, Option.bind_some]
    by_cases hcode : code < 0
    · rw [if_pos hcode]
      exact ⟨_, _, rfl, list, h.setMem t⟩
    · obtain ⟨s', hadd, hs', -⟩ := (h.setMem t).addTail (b := b) (by rw [hb]; rfl) hlinked
      rw [if_neg hcode, hadd]
      exact ⟨_, _, rfl, list ++ [b], hs'⟩
  | del b =>
    obtain ⟨ipaddr, hb, ⟨⟨code, val⟩, t⟩, htable, hfree⟩ := he
    rw [Option.mem_def] at hb htable
    simp only [machine, userDelEntry, hb, htable, Option.bind_eq_bind, Option.bind_some]
    by_cases hcode : code < 0
    · rw [if_pos hcode]
      exact ⟨_, _, rfl, list, h.setMem t⟩
    · obtain ⟨t', hfree⟩ := Option.isSome_iff_exists.mp (hfree (Int.not_lt.mp hcode))
      obtain ⟨s', hdel, hs', -⟩ := (h.setMem t).free (b := b) (by rw [hb]; rfl) hfree
      rw [if_neg hcode, hdel]
      exact ⟨_, _, rfl, list.erase b, hs'⟩
  | find ipaddr =>
    obtain ⟨⟨⟨code, val⟩, t⟩, htable⟩ := Option.isSome_iff_exists.mp he
    simp only [machine, userFindEntry, htable, Option.bind_eq_bind, Option.bind_some]
    exact ⟨_, _, rfl, list, h.setMem t⟩

/-- So does a careful call on categories. -/
theorem categoryStep_held {e : CategoryCall κ R} (h : ∃ list, Held s list)
    (he : CategoryCareful memory s e) :
  ∃ o s', (categoryMachine memory).step s e = some (o, s') ∧ ∃ list, Held s' list
  := by
  obtain ⟨list, h⟩ := h
  cases e with
  | new name resources =>
    obtain ⟨base, s', hnew, hs'⟩ := h.new he name
    simp only [categoryMachine, hnew]
    exact ⟨_, _, rfl, list, hs'⟩
  | insert key b resources =>
    obtain ⟨hb, hlinked, htable⟩ := he
    obtain ⟨⟨answer, t⟩, htable⟩ := Option.isSome_iff_exists.mp htable
    obtain ⟨s', hadd, hs', -⟩ := (h.setMem t).addTail hb hlinked
    simp only [categoryMachine, categoryInsertEntry, htable, Option.bind_eq_bind, Option.bind_some,
      hadd]
    exact ⟨_, _, rfl, list ++ [b], hs'⟩
  | del key b =>
    obtain ⟨hb, htable⟩ := he
    obtain ⟨⟨answer, t⟩, htable⟩ := Option.isSome_iff_exists.mp htable
    obtain ⟨s', hdel, hs', -⟩ := (h.setMem t).unlink hb
    simp only [categoryMachine, categoryDelEntry, htable, Option.bind_eq_bind, Option.bind_some,
      hdel]
    exact ⟨_, _, rfl, list.erase b, hs'⟩
  | free b =>
    obtain ⟨hb, hlinked, hfree⟩ := he
    obtain ⟨t, hfree⟩ := Option.isSome_iff_exists.mp hfree
    have hmem : b ∉ list := by
      rw [h.mem_iff hb]
      exact not_not_intro hlinked
    obtain ⟨s', hgive, hs', -⟩ := h.giveBack hb hmem hfree
    simp only [categoryMachine, hgive]
    exact ⟨_, _, rfl, list, hs'⟩
  | find key =>
    obtain ⟨⟨⟨code, val⟩, t⟩, htable⟩ := Option.isSome_iff_exists.mp he
    simp only [categoryMachine, userFindEntry, htable, Option.bind_eq_bind, Option.bind_some]
    exact ⟨_, _, rfl, list, h.setMem t⟩

theorem held_createUser (prev next : Nat → Unit ⊕ Nat) (t : σ) :
  Held (createUser prev next t : Store κ σ) []
  := by
  refine ⟨(Links.heads_rings prev next).ring (), ?_, ?_, Nat.zero_le _⟩
  · intro b hb
    cases hb
  · intro b hb
    cases hb

/-! ### The loops that destroy a store -/

/-- The entries `l` of the ring are left, the others are given back, and the pool takes those that
are left back as well. -/
structure Left (memory : Memory κ R σ) (s : Store κ σ) (list : List Nat) (t' : σ) (l : List Nat)
    (t : Store κ σ) : Prop where
  held : Held t l
  sub : l ⊆ list
  entries : ∀ b, t.entries b = if b ∈ list ∧ b ∉ l then none else s.entries b
  frees : l.foldlM memory.free t.mem = some t'

/-- The body of the loop gives the first one of them back. -/
theorem Left.body {t' : σ} {l : List Nat} {t : Store κ σ} (h : Left memory s list t' (b :: l) t) :
  ∃ u, freeUserEntry memory t b = some u ∧ Left memory s list t' l u
  := by
  obtain ⟨t₁, hfree, hfrees⟩ := Option.bind_eq_some_iff.mp h.frees
  obtain ⟨u, hu, hheld, hentries, hmem⟩ := h.held.free (h.held.live b List.mem_cons_self) hfree
  rw [List.erase_cons_head] at hheld
  refine ⟨u, hu, hheld, List.subset_of_cons_subset h.sub, ?_, hmem ▸ hfrees⟩
  intro c
  rw [hentries]
  by_cases hc : c = b
  · subst hc
    rw [Function.update_self, if_pos ⟨h.sub List.mem_cons_self,
      (List.nodup_cons.mp h.held.nodup).1⟩]
  · rw [Function.update_of_ne hc, h.entries c]
    simp [hc]

/-- The loop of `destroy_user` gives back the entries of the ring. -/
theorem Held.destroyUser (h : Held s list) {t' : σ}
    (hfrees : list.foldlM memory.free s.mem = some t') :
  ∃ t, EntryStore.destroyUser memory s = some t ∧ t.mem = t'
    ∧ ∀ b, t.entries b = if b ∈ list then none else s.entries b
  := by
  have hstart : ∃ l, list.map (Sum.inr : Nat → Unit ⊕ Nat) = l.map .inr
      ∧ Left memory s list t' l s :=
    ⟨list, rfl, h, List.Subset.refl _, fun b => by rw [if_neg fun hb => hb.2 hb.1], hfrees⟩
  have hbody : ∀ x xs (t : Store κ σ), t.links.Ring (.inl ()) (x :: xs) →
      (∃ l, x :: xs = l.map .inr ∧ Left memory s list t' l t) →
      ∃ u, destroyBody memory x t = some u ∧ u.links.Ring (.inl ()) xs
        ∧ ∃ l, xs = l.map .inr ∧ Left memory s list t' l u := by
    rintro x xs t - ⟨l, hl, ht⟩
    obtain ⟨b, l, rfl, rfl, rfl⟩ := List.map_eq_cons_iff.mp hl.symm
    obtain ⟨u, hfree, hu⟩ := ht.body
    exact ⟨u, hfree, hu.held.ring, l, rfl, hu⟩
  obtain ⟨t, hdrain, -, l, hl, ht⟩ := h.ring.drain
    (I := fun xs t => ∃ l, xs = l.map .inr ∧ Left memory s list t' l t) hstart hbody
    (by rw [List.length_map]; exact Nat.lt_succ_of_le h.adds)
  rw [List.map_eq_nil_iff.mp hl.symm] at ht
  refine ⟨t, hdrain, Option.some_inj.mp ht.frees, ?_⟩
  intro b
  rw [ht.entries b]
  simp

/-- The loop of `destroy_category` gives back the entries of the ring, whose links it follows while
their memory is there. -/
theorem Held.destroyCategory (h : Held s list) {t' : σ}
    (hfrees : list.foldlM memory.free s.mem = some t') :
  ∃ t, EntryStore.destroyCategory memory s = some t ∧ t.mem = t'
    ∧ ∀ b, t.entries b = if b ∈ list then none else s.entries b
  := by
  obtain ⟨I, hI⟩ : ∃ I : List (Unit ⊕ Nat) → Store κ σ → Prop, I = fun xs t =>
      ∃ before l, list = before ++ l ∧ xs = l.map .inr ∧ t.links = s.links
        ∧ (∀ b, t.entries b = if b ∈ before then none else s.entries b)
        ∧ l.foldlM memory.free t.mem = some t' := ⟨_, rfl⟩
  have hstart : I (list.map .inr) s := by
    rw [hI]
    exact ⟨[], list, rfl, rfl, rfl, fun b => rfl, hfrees⟩
  have hnext : ∀ x xs t, I (x :: xs) t →
      x ≠ .inl () ∧ ∃ ys, xs ++ [.inl ()] = t.links.next x :: ys := by
    rw [hI]
    rintro x xs t ⟨before, l, hlist, hl, hlinks, -⟩
    obtain ⟨b, l, rfl, rfl, rfl⟩ := List.map_eq_cons_iff.mp hl.symm
    have hring := h.ring
    rw [hlist, List.map_append, List.map_cons] at hring
    obtain ⟨-, ys, -, hys, -⟩ := hring.parts
    rw [hlinks]
    exact ⟨Sum.inr_ne_inl, ys, hys⟩
  have hbody : ∀ x xs t, I (x :: xs) t →
      ∃ u, destroyCategoryBody memory x t = some u ∧ I xs u := by
    rw [hI]
    rintro x xs t ⟨before, l, hlist, hl, hlinks, hentries, hfrees⟩
    obtain ⟨b, l, rfl, rfl, rfl⟩ := List.map_eq_cons_iff.mp hl.symm
    obtain ⟨t₁, hfree, hfrees⟩ := Option.bind_eq_some_iff.mp hfrees
    have hnodup := h.nodup
    rw [hlist] at hnodup
    have hnot : b ∉ before := by
      intro hb
      apply (List.nodup_append'.mp hnodup).2.2 hb List.mem_cons_self
    have hlive : t.Live (.inr b) := by
      rw [Store.Live, hentries b, if_neg hnot]
      apply h.live b
      rw [hlist]
      apply List.mem_append_right before List.mem_cons_self
    have hgive : destroyCategoryBody memory (.inr b) t
        = some { t with mem := t₁, entries := Function.update t.entries b none } := by
      rw [destroyCategoryBody, memPoolFree, if_pos hlive, hfree, Option.map_some]
    refine ⟨_, hgive, before ++ [b], l, ?_, rfl, hlinks, ?_, hfrees⟩
    · rw [hlist, List.append_assoc, List.singleton_append]
    · intro c
      by_cases hc : c = b
      · subst hc
        simp
      · simp only [Function.update_of_ne hc]
        rw [hentries c]
        simp [hc]
  have hfuel : (list.map (Sum.inr : Nat → Unit ⊕ Nat)).length < s.adds + 1 := by
    rw [List.length_map]
    exact Nat.lt_succ_of_le h.adds
  obtain ⟨pos, ys, hpos, t, hdrain, ht⟩ := Links.drain_of_chain hstart hnext hbody hfuel
  have hfirst : s.links.next (.inl ()) = pos := by
    have hchain := h.ring.chain
    rw [hpos, List.isChain_cons_cons] at hchain
    exact hchain.1.1
  rw [← hfirst] at hdrain
  rw [hI] at ht
  obtain ⟨before, l, hlist, hl, -, hentries, hfrees⟩ := ht
  rw [List.map_eq_nil_iff.mp hl.symm] at hlist hfrees
  rw [List.append_nil] at hlist
  exact ⟨t, hdrain, Option.some_inj.mp hfrees, hlist ▸ hentries⟩

end

section

variable {κ σ R : Type} (memory : Memory κ R σ)

/-- Where the memory answers, every call returns: none touches an entry that was given back, or
gives one back twice.  After them `destroy_user` gives back the entries of the ring, each one once
and in their order, and returns if the pool takes them back; it leaves the other entries. -/
theorem destroyUser_releases (prev next : Nat → Unit ⊕ Nat) (t : σ) {es : List (Call κ R)}
    (hcareful : (machine memory).Meets (Careful memory) (createUser prev next t) es) :
  ∃ os s, (machine memory).run (createUser prev next t) es = some (os, s) ∧ s.blocks.Nodup
    ∧ (∀ b, (s.entries b).isSome = true →
      (b ∈ s.blocks ↔ ¬ s.links.Linked (.inr b) (.inr b)))
    ∧ ∀ t', s.blocks.foldlM memory.free s.mem = some t' →
      ∃ s', destroyUser memory s = some s' ∧ s'.mem = t'
        ∧ ∀ b, s'.entries b = if b ∈ s.blocks then none else s.entries b
  := by
  obtain ⟨os, s, hrun, list, h⟩ := (machine memory).run_returns
    (fun s e (hs : ∃ list, Held s list) he => step_held hs he)
    ⟨[], held_createUser prev next t⟩ hcareful
  refine ⟨os, s, hrun, ?_⟩
  rw [h.blocks_eq]
  exact ⟨h.nodup, fun b hb => h.mem_iff hb, fun t' hfrees => h.destroyUser hfrees⟩

/-- The same for categories, whose entries `category_del_entry` takes out without giving them
back. -/
theorem destroyCategory_releases (prev next : Nat → Unit ⊕ Nat) (t : σ)
    {es : List (CategoryCall κ R)}
    (hcareful : (categoryMachine memory).Meets (CategoryCareful memory) (createUser prev next t)
      es) :
  ∃ os s, (categoryMachine memory).run (createUser prev next t) es = some (os, s)
    ∧ s.blocks.Nodup
    ∧ (∀ b, (s.entries b).isSome = true →
      (b ∈ s.blocks ↔ ¬ s.links.Linked (.inr b) (.inr b)))
    ∧ ∀ t', s.blocks.foldlM memory.free s.mem = some t' →
      ∃ s', destroyCategory memory s = some s' ∧ s'.mem = t'
        ∧ ∀ b, s'.entries b = if b ∈ s.blocks then none else s.entries b
  := by
  obtain ⟨os, s, hrun, list, h⟩ := (categoryMachine memory).run_returns
    (fun s e (hs : ∃ list, Held s list) he => categoryStep_held hs he)
    ⟨[], held_createUser prev next t⟩ hcareful
  refine ⟨os, s, hrun, ?_⟩
  rw [h.blocks_eq]
  exact ⟨h.nodup, fun b hb => h.mem_iff hb, fun t' hfrees => h.destroyCategory hfrees⟩

end

/-! ### The store in a pool with a table of its own -/

section

open Hash

/-- The pool, and the table in it; the first word of a new entry is its `nickname`, which points
behind the entry. -/
def poolMemory (h : Hash) : Memory (Key h.ktype) HashMallocs HashState where
  alloc t size mallocs :=
    (t.pool.alloc t.heap size mallocs.pool).map fun r =>
      (r.1, { t with heap := r.2.1, pool := r.2.2 })
  init t start _ :=
    { t with heap := { t.heap with mem := t.heap.mem.storeSize start (start + sizeofUserEntry) } }
  free t start := (t.pool.free t.heap start).map fun r => { t with heap := r.1, pool := r.2 }
  table := h.machine

variable {h : Hash} {s : Store (Key h.ktype) HashState} {list : List Nat} {live : List Block}
  {table : Block}

/-- The last one of the entries whose address has the index. -/
def lastAt (s : Store (Key h.ktype) HashState) (list : List Nat) (idx : Nat) : Option Nat :=
  list.reverse.find? fun b => (s.entries b).map h.hashIndex = some idx

/-- The last one of the entries of the ring whose address has the index of this one, if it has this
very address. -/
def lookup (s : Store (Key h.ktype) HashState) (ipaddr : Key h.ktype) : Option Nat :=
  (lastAt s s.blocks (h.hashIndex ipaddr)).filter fun b => s.entries b = some ipaddr

/-- The pool has the memory for a new entry, and a key and an entry of the table; an entry that is
added is not linked yet; and an entry is not deleted whose address is found. -/
def Supplied (s : Store (Key h.ktype) HashState) : Call (Key h.ktype) HashMallocs → Prop
  | .new texts _ mallocs =>
      AdmissibleAlloc s.mem (sizeofUserEntry + texts) mallocs.pool
        ∧ s.mem.pool.Grants (sizeofUserEntry + texts) mallocs.pool
  | .add b mallocs => s.links.Linked (.inr b) (.inr b) ∧ ∃ ipaddr ∈ s.entries b,
      h.Admissible s.mem (.insert ipaddr b mallocs) ∧ Granted s.mem (.insert ipaddr b mallocs)
  | .del b => ∃ ipaddr ∈ s.entries b, lookup s ipaddr = none
  | .find _ => True

instance (s : Store (Key h.ktype) HashState) : ∀ e, Decidable (Supplied s e)
  | .new _ _ _ => inferInstanceAs (Decidable (_ ∧ _))
  | .add _ _ => inferInstanceAs (Decidable (_ ∧ _))
  | .del b => inferInstanceAs (Decidable (∃ ipaddr ∈ s.entries b, _))
  | .find _ => .isTrue trivial

/-- What the slots of the table have. -/
def slots (s : Store (Key h.ktype) HashState) (list : List Nat) (idx : Nat) :
    Option (Key h.ktype × Nat) :=
  (lastAt s list idx).bind fun b => (s.entries b).map fun key => (key, b)

theorem slotFind_slots (s : Store (Key h.ktype) HashState) (list : List Nat)
    (ipaddr : Key h.ktype) :
  slotFind h.hashIndex (slots s list) ipaddr
    = (lastAt s list (h.hashIndex ipaddr)).filter fun b => s.entries b = some ipaddr
  := by
  rw [slotFind, slots]
  cases lastAt s list (h.hashIndex ipaddr) with
  | none => rfl
  | some b => cases hb : s.entries b <;> simp [hb, Option.filter]

/-- The slots have what the entries of the list are. -/
theorem slots_congr {t : Store (Key h.ktype) HashState}
    (ht : ∀ b ∈ list, t.entries b = s.entries b) :
  slots t list = slots s list
  := by
  funext idx
  have hlast : lastAt t list idx = lastAt s list idx := by
    apply List.find?_congr
    intro b hb
    rw [ht b (List.mem_reverse.mp hb)]
  rw [slots, slots, hlast]
  cases hfound : lastAt s list idx with
  | none => rfl
  | some b =>
    have hb := List.mem_of_find?_eq_some hfound
    rw [Option.bind_some, Option.bind_some, ht b (List.mem_reverse.mp hb)]

/-- An entry that is added takes the slot of its address. -/
theorem slots_add {b : Nat} {ipaddr : Key h.ktype} (hb : s.entries b = some ipaddr) :
  slots s (list ++ [b]) = Function.update (slots s list) (h.hashIndex ipaddr) (some (ipaddr, b))
  := by
  funext idx
  rw [slots, lastAt, List.reverse_append, List.reverse_singleton, List.singleton_append,
    List.find?_cons, hb]
  by_cases hidx : idx = h.hashIndex ipaddr
  · subst hidx
    simp [hb]
  · have hne : ¬ h.hashIndex ipaddr = idx := Ne.symm hidx
    rw [Function.update_of_ne hidx]
    simp [hne, slots, lastAt]

/-- The table has the entries of the ring in its slots, and every entry is a block of its own. -/
structure Serves (s : Store (Key h.ktype) HashState) (list : List Nat) (live : List Block)
    (table : Block) : Prop where
  held : Held s list
  owns : h.Owns s.mem live table
  buckets : ∀ idx ≤ h.hashSize, h.Bucket (Guard s.mem live table) s.mem.heap.mem
    (slotFind h.hashIndex (slots s list)) idx
  blocks : ∀ b, (s.entries b).isSome = true → ∃ block ∈ live, block.addr = b

theorem Serves.lookup_eq (hs : Serves s list live table) (ipaddr : Key h.ktype) :
  lookup s ipaddr = slotFind h.hashIndex (slots s list) ipaddr
  := by
  rw [slotFind_slots, lookup, hs.held.blocks_eq]

/-- A search answers with the last entry of the index, if it has the address. -/
theorem Serves.find (hs : Serves s list live table) (ipaddr : Key h.ktype) :
  userFindEntry (poolMemory h) s ipaddr = some (lookup s ipaddr, s)
  := by
  have hfind := find_of_bucket (hs.buckets _ (hashIndex_le ipaddr))
  rw [hs.lookup_eq ipaddr]
  simp only [userFindEntry, poolMemory, step_find, hfind, Option.map_some, Option.bind_eq_bind,
    Option.bind_some]
  cases slotFind h.hashIndex (slots s list) ipaddr <;> rfl

/-- A deletion finds nothing, or never returns: the table leaves the mutex locked. -/
theorem Serves.del (hs : Serves s list live table) {b : Nat} {ipaddr : Key h.ktype}
    (hb : s.entries b = some ipaddr) :
  userDelEntry (poolMemory h) s b = if (lookup s ipaddr).isSome then none else some (-1, s)
  := by
  have hbucket := hs.buckets _ (hashIndex_le ipaddr)
  rw [hs.lookup_eq ipaddr]
  simp only [userDelEntry, poolMemory, step_del, hb, Option.bind_eq_bind, Option.bind_some]
  cases hfound : slotFind h.hashIndex (slots s list) ipaddr with
  | none =>
    rw [del_of_absent hbucket hfound]
    rfl
  | some val =>
    rw [if_pos (show (some val).isSome = true from rfl), Option.bind_eq_none_iff]
    rintro ⟨⟨code, res⟩, t⟩ hdel
    obtain ⟨hcode, hlocked⟩ := del_locks hs.owns hbucket hfound hdel
    dsimp only at hcode
    subst hcode
    have hfree : ∀ u : Store (Key h.ktype) HashState, u.mem = t →
        memPoolFree (poolMemory h) u b = none := by
      rintro u rfl
      have hnone : (poolMemory h).free u.mem b = none := by
        simp only [poolMemory, MemPool.free_of_locked _ _ hlocked, Option.map_none]
      rw [memPoolFree, hnone, Option.map_none, ite_self]
    have hentry : freeUserEntry (poolMemory h) { s with mem := t } b = none := by
      rw [freeUserEntry, Option.bind_eq_none_iff]
      intro u hdel
      apply hfree u
      rw [dlistDel] at hdel
      split at hdel
      · cases hdel
        rfl
      · cases hdel
    exact congrArg (Option.map fun s => ((0 : Int), s)) hentry

/-- A supplied call returns, and the table has the entries of the ring then. -/
theorem step_serves {e : Call (Key h.ktype) HashMallocs}
    (hs : ∃ list live table, Serves s list live table) (he : Supplied s e) :
  ∃ o s', (machine (poolMemory h)).step s e = some (o, s')
    ∧ ∃ list live table, Serves s' list live table
  := by
  obtain ⟨list, live, table, hs⟩ := hs
  cases e with
  | new texts ipaddr mallocs =>
    obtain ⟨hadmissible, hgrants⟩ := he
    obtain ⟨block, heap, pool, hrequest, halloc, hfresh, hkeeps⟩ :=
      hs.owns.alloc hs.buckets (Nat.add_pos_left (by decide) texts) hadmissible hgrants
    have hnone : s.entries block.addr = none := by
      by_contra hsome
      obtain ⟨block', hblock', haddr⟩ :=
        hs.blocks block.addr (Option.isSome_iff_ne_none.mpr hsome)
      apply hfresh block' hblock' haddr
    obtain ⟨howns, hbuckets⟩ :=
      hkeeps (heap.mem.storeSize block.addr (block.addr + sizeofUserEntry)) (by
        intro x hx
        apply Memory.storeSize_apply_of_not_mem
        rw [hrequest, sizeofUserEntry] at hx
        omega)
    have hheld := (hs.held.setMem ⟨pool, heap, s.mem.entries⟩).init hnone (poolMemory h) ipaddr
    simp only [machine, newUserEntry, poolMemory, halloc, Option.map_some, Option.bind_eq_bind,
      Option.bind_some]
    refine ⟨_, _, rfl, list, block :: live, table, hheld, howns, ?_, ?_⟩
    · have hslots : slots (initEntry (poolMemory h)
          { s with mem := ⟨pool, heap, s.mem.entries⟩ } block.addr ipaddr) list = slots s list := by
        apply slots_congr
        intro c hc
        have hne : c ≠ block.addr := by
          rintro rfl
          have hlive := hs.held.live _ hc
          rw [hnone] at hlive
          cases hlive
        simp only [initEntry, Function.update_of_ne hne]
      intro idx hidx
      have hbucket := hbuckets idx hidx
      rw [← hslots] at hbucket
      exact hbucket
    · intro c hc
      by_cases hcb : c = block.addr
      · exact ⟨block, List.mem_cons_self, hcb.symm⟩
      · simp only [initEntry, Function.update_of_ne hcb] at hc
        obtain ⟨block', hblock', haddr⟩ := hs.blocks c hc
        exact ⟨block', List.mem_cons_of_mem block hblock', haddr⟩
  | add b mallocs =>
    obtain ⟨hlinked, ipaddr, hb, hadmissible, hgranted⟩ := he
    rw [Option.mem_def] at hb
    obtain ⟨t, block, hinsert, howns, hbuckets⟩ :=
      hs.owns.insert_slots hs.buckets hadmissible hgranted
    obtain ⟨s', hadd, hheld, hentries, hmem⟩ :=
      (hs.held.setMem t).addTail (b := b) (by rw [hb]; rfl) hlinked
    simp only [machine, userAddEntry, poolMemory, step_insert, hb, hinsert, Option.map_some,
      Option.bind_eq_bind, Option.bind_some, Int.lt_irrefl, if_false, hadd]
    refine ⟨_, s', rfl, list ++ [b], block :: live, table, hheld, ?_, ?_, ?_⟩
    · rw [hmem]
      exact howns
    · have hslots : slots s' (list ++ [b])
          = Function.update (slots s list) (h.hashIndex ipaddr) (some (ipaddr, b)) := by
        rw [← slots_add hb]
        apply slots_congr
        intro c _
        rw [hentries]
      rw [hslots, hmem]
      exact hbuckets
    · intro c hc
      rw [hentries] at hc
      obtain ⟨block', hblock', haddr⟩ := hs.blocks c hc
      exact ⟨block', List.mem_cons_of_mem block hblock', haddr⟩
  | del b =>
    obtain ⟨ipaddr, hb, hnone⟩ := he
    have hdel := hs.del hb
    rw [hnone] at hdel
    simp only [machine, hdel]
    exact ⟨_, _, rfl, list, live, table, hs⟩
  | find ipaddr =>
    simp only [machine, hs.find]
    exact ⟨_, _, rfl, list, live, table, hs⟩

/-- On a new table of `create_hash`, and as long as the pool has the memory, every call returns that
does not delete an entry whose address is found.  Then `user_find_entry` finds the entry of the ring
that was added last among those of one index, if it has the address, and nothing else; and
`user_del_entry` finds nothing, or it never returns, for `hash_del` leaves the mutex of the pool
locked. -/
theorem run_lookup {t : HashState} (ht : h.Created t) (prev next : Nat → Unit ⊕ Nat)
    {es : List (Call (Key h.ktype) HashMallocs)}
    (hsupplied : (machine (poolMemory h)).Meets Supplied (createUser prev next t) es) :
  ∃ os s, (machine (poolMemory h)).run (createUser prev next t) es = some (os, s)
    ∧ ∀ ipaddr, userFindEntry (poolMemory h) s ipaddr = some (lookup s ipaddr, s)
      ∧ ∀ b, s.entries b = some ipaddr → userDelEntry (poolMemory h) s b
        = if (lookup s ipaddr).isSome then none else some (-1, s)
  := by
  obtain ⟨live, table, howns, hbuckets⟩ := ht.slots
  have hstart : Serves (createUser prev next t) [] live table :=
    ⟨held_createUser prev next t, howns, hbuckets, fun b hb => by cases hb⟩
  obtain ⟨os, s, hrun, list, live, table, hs⟩ := (machine (poolMemory h)).run_returns
    (fun s e (hs : ∃ list live table, Serves s list live table) he => step_serves hs he)
    ⟨[], live, table, hstart⟩ hsupplied
  exact ⟨os, s, hrun, fun ipaddr => ⟨hs.find ipaddr, fun b hb => hs.del hb⟩⟩

/-- The table of addresses that `create_hash` makes in a new pool of 4096 bytes. -/
def smallUsers : Hash := { smallTable 3 with ktype := .str }

/-- The address of one digit. -/
def smallAddress (digit : Fin 10) : Key smallUsers.ktype :=
  ⟨[48 + UInt8.ofNat digit], by revert digit; decide⟩

/-- The memory then. -/
def smallState : HashState :=
  ((create (MemPool.init 4096 8) ⟨fun _ => 0, []⟩ 3 .str ⟨true, some 4096⟩).map Prod.snd).getD
    ⟨MemPool.init 4096 8, ⟨fun _ => 0, []⟩, []⟩

theorem smallUsers_created :
  smallUsers.Created smallState
  := ⟨_, _, _, ⟨true, some 4096⟩, PoolState.start_inv 4096 8 fun _ => 0, by decide, by decide,
    by decide, rfl⟩

/-- Two users whose addresses have one index are added, and a third one is not. -/
def smallCalls : List (Call (Key smallUsers.ktype) HashMallocs) :=
  [.new 20 (smallAddress 1) ⟨none, ⟨true, none⟩⟩, .new 20 (smallAddress 0) ⟨none, ⟨true, none⟩⟩,
    .new 20 (smallAddress 4) ⟨none, ⟨true, none⟩⟩, .add 7996 ⟨some 65536, ⟨true, none⟩⟩,
    .find (smallAddress 1), .add 7856 ⟨some 65600, ⟨true, none⟩⟩, .find (smallAddress 1),
    .del 7716]

theorem run_lookup_two :
  ∃ os s, (machine (poolMemory smallUsers)).run (createUser .inr .inr smallState) smallCalls
      = some (os, s)
    ∧ ∀ ipaddr, userFindEntry (poolMemory smallUsers) s ipaddr = some (lookup s ipaddr, s)
      ∧ ∀ b, s.entries b = some ipaddr → userDelEntry (poolMemory smallUsers) s b
        = if (lookup s ipaddr).isSome then none else some (-1, s)
  := by
  have hsupplied : (machine (poolMemory smallUsers)).Meets Supplied
      (createUser .inr .inr smallState) smallCalls := by
    decide +kernel
  exact run_lookup smallUsers_created .inr .inr hsupplied

/-- Two entries are given back by `destroy_user`, and the third one is left. -/
theorem destroyUser_releases_two :
  ∃ os s, (machine (poolMemory smallUsers)).run (createUser .inr .inr smallState) smallCalls
      = some (os, s) ∧ s.blocks.Nodup
    ∧ (∀ b, (s.entries b).isSome = true →
      (b ∈ s.blocks ↔ ¬ s.links.Linked (.inr b) (.inr b)))
    ∧ ∀ t', s.blocks.foldlM (poolMemory smallUsers).free s.mem = some t' →
      ∃ s', destroyUser (poolMemory smallUsers) s = some s' ∧ s'.mem = t'
        ∧ ∀ b, s'.entries b = if b ∈ s.blocks then none else s.entries b
  := by
  have hcareful : (machine (poolMemory smallUsers)).Meets (Careful (poolMemory smallUsers))
      (createUser .inr .inr smallState) smallCalls := by
    decide +kernel
  exact destroyUser_releases (poolMemory smallUsers) .inr .inr smallState hcareful

/-- The same memory for categories, whose entries have their `name` at the start. -/
def categoryMemory : Memory (Key smallUsers.ktype) HashMallocs HashState :=
  { poolMemory smallUsers with
    init t start name :=
      { t with heap := { t.heap with mem := t.heap.mem.write start name.bytes } } }

/-- Two categories are inserted, and the first one is deleted, where its name is not found any
more. -/
def smallCategoryCalls : List (CategoryCall (Key smallUsers.ktype) HashMallocs) :=
  [.new (smallAddress 1) ⟨none, ⟨true, none⟩⟩, .new (smallAddress 0) ⟨none, ⟨true, none⟩⟩,
    .insert (smallAddress 1) 7952 ⟨some 65536, ⟨true, none⟩⟩,
    .insert (smallAddress 0) 7768 ⟨some 65600, ⟨true, none⟩⟩, .find (smallAddress 1),
    .del (smallAddress 1) 7952]

theorem destroyCategory_releases_two :
  ∃ os s, (categoryMachine categoryMemory).run (createUser .inr .inr smallState)
      smallCategoryCalls = some (os, s) ∧ s.blocks.Nodup
    ∧ (∀ b, (s.entries b).isSome = true →
      (b ∈ s.blocks ↔ ¬ s.links.Linked (.inr b) (.inr b)))
    ∧ ∀ t', s.blocks.foldlM categoryMemory.free s.mem = some t' →
      ∃ s', destroyCategory categoryMemory s = some s' ∧ s'.mem = t'
        ∧ ∀ b, s'.entries b = if b ∈ s.blocks then none else s.entries b
  := by
  have hcareful : (categoryMachine categoryMemory).Meets (CategoryCareful categoryMemory)
      (createUser .inr .inr smallState) smallCategoryCalls := by
    decide +kernel
  exact destroyCategory_releases categoryMemory .inr .inr smallState hcareful

end

end EntryStore

end IFreeChat
