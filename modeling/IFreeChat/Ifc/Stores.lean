import IFreeChat.Hash.Slots
import IFreeChat.Ifc.Book

/-!
# The stores

The users and the categories are each kept in a list and in a hash table.  With the tables of
`create_hash`, the callback does what it does with maps that have one slot for each bucket
(`run_slots`), since no entry is ever deleted.

So the lists have one entry for every address and every category seen, and the tables find
exactly these, as long as no two addresses and no two categories share a bucket, and not
otherwise (`run_agrees_iff`).
-/

open Basis

namespace IFreeChat

namespace Contacts

/-! ### The tables -/

/-- `hash_t` with string keys and `1 + hsize` buckets. -/
def strHash (base hsize : Nat) : Hash := ⟨base, hsize, .str⟩

/-- The hash of `create_user`, with its buckets at `base`. -/
def userHash (base : Nat) : Hash := strHash base 0xffff

/-- The hash of `create_category`, with its buckets at `base`. -/
def categoryHash (base : Nat) : Hash := strHash base 0xff

/-- A table, and what `malloc` will answer to its insertions. -/
structure Table where
  state : HashState
  mallocs : List HashMallocs

/-- The hash tables with string keys.  An insertion takes the next answers of `malloc`, and
does not return where they do not grant its memory. -/
def hashTable (base hsize : Nat) : Index Table where
  step t
    | .insert key val _ =>
        match t.mallocs with
        | [] => none
        | mallocs :: rest =>
            let op : MapOp (Key (strHash base hsize).ktype) Nat HashMallocs :=
              .insert key val mallocs
            if (strHash base hsize).Admissible t.state op ∧ Hash.Granted t.state op then
              ((strHash base hsize).insert t.state key val mallocs).map fun r =>
                ((r.1, none), ⟨r.2, rest⟩)
            else none
    | .del key => ((strHash base hsize).del t.state key).map fun r => (r.1, { t with state := r.2 })
    | .find key => ((strHash base hsize).find t.state key).map fun answer => (answer, t)

/-! ### Seen and found -/

/-- The addresses of the messages. -/
def ips (msgs : List EntryMsg) : List CString := msgs.map fun msg => str32 msg.ip

/-- The categories of the messages. -/
def categoryNames (msgs : List EntryMsg) : List CString := msgs.map fun msg => str32 msg.category

/-- The table finds the place of every key in the list, and no other key. -/
def Finds {σ : Type} (table : Index σ) (t : σ) (l : List CString) : Prop :=
  ∀ key, ∃ answer, table.step t (.find key) = some (answer, t)
    ∧ ∀ i, found answer = some i ↔ l[i]? = some key

/-- The lists have one entry for each address and each category of the messages, and the
tables find exactly these. -/
structure Agrees {σ τ : Type} (users : Index σ) (categories : Index τ) (s : State σ τ)
    (msgs : List EntryMsg) : Prop where
  ips_nodup : (s.contacts.ulist.map UserEntry.ipaddr).Nodup
  ips_seen : ∀ ip, ip ∈ s.contacts.ulist.map UserEntry.ipaddr ↔ ip ∈ ips msgs
  names_nodup : (s.contacts.clist.map CategoryEntry.name).Nodup
  names_seen : ∀ name, name ∈ s.contacts.clist.map CategoryEntry.name ↔ name ∈ categoryNames msgs
  users_found : Finds users s.users (s.contacts.ulist.map UserEntry.ipaddr)
  categories_found : Finds categories s.categories (s.contacts.clist.map CategoryEntry.name)

/-! ### Tables that answer alike -/

/-- What one table answers to searches and insertions, the other one answers as well. -/
structure Refines {σ σ' : Type} (table : Index σ) (table' : Index σ') (R : σ → σ' → Prop) :
    Prop where
  find : ∀ {t t' key answer u}, R t t' → table.step t (.find key) = some (answer, u) →
    ∃ u', table'.step t' (.find key) = some (answer, u') ∧ R u u'
  insert : ∀ {t t' key val answer u}, R t t' →
    table.step t (.insert key val ()) = some (answer, u) →
    ∃ u', table'.step t' (.insert key val ()) = some (answer, u') ∧ R u u'

/-- The contacts are the same, and the tables are related. -/
structure Related {σ σ' τ τ' : Type} (R : σ → σ' → Prop) (Q : τ → τ' → Prop) (s : State σ τ)
    (s' : State σ' τ') : Prop where
  contacts : s.contacts = s'.contacts
  users : R s.users s'.users
  categories : Q s.categories s'.categories

section

variable {σ σ' τ τ' : Type} {users : Index σ} {users' : Index σ'} {categories : Index τ}
  {categories' : Index τ'} {R : σ → σ' → Prop} {Q : τ → τ' → Prop}

theorem findOrNewCategory_refines (hQ : Refines categories categories' Q) {s t : State σ τ}
    {s' : State σ' τ'} {category : CString} {newCat : Nat} (hs : Related R Q s s')
    (h : findOrNewCategory categories s category = some (newCat, t)) :
  ∃ t', findOrNewCategory categories' s' category = some (newCat, t') ∧ Related R Q t t'
  := by
  obtain ⟨hcontacts, husers, hcategories⟩ := hs
  simp only [findOrNewCategory, Option.bind_eq_bind, Option.bind_eq_some_iff] at h
  obtain ⟨⟨answer, table⟩, hfind, h⟩ := h
  obtain ⟨table', hfind', htable⟩ := hQ.find hcategories hfind
  simp only [findOrNewCategory, hfind', Option.bind_eq_bind, Option.bind_some, ← hcontacts]
  split at h
  · rename_i hneg
    simp only [Option.bind_eq_some_iff] at h
    obtain ⟨⟨answer', table₁⟩, hinsert, contacts, htree, h⟩ := h
    cases h
    obtain ⟨table₁', hinsert', htable₁⟩ := hQ.insert htable hinsert
    simp only [if_pos hneg, hinsert', htree, Option.bind_some]
    exact ⟨_, rfl, rfl, husers, htable₁⟩
  · rename_i hneg
    simp only [Option.bind_eq_some_iff] at h
    obtain ⟨entry, hentry, h⟩ := h
    cases h
    simp only [if_neg hneg, hentry, Option.bind_some]
    exact ⟨_, rfl, rfl, husers, htable⟩

/-- With tables that answer alike, the callback does the same to the contacts. -/
theorem callback_refines (hR : Refines users users' R) (hQ : Refines categories categories' Q)
    {s t : State σ τ} {s' : State σ' τ'} {msg : EntryMsg} {ret : Int} (hs : Related R Q s s')
    (h : onEntryCallback users categories s msg = some (ret, t)) :
  ∃ t', onEntryCallback users' categories' s' msg = some (ret, t') ∧ Related R Q t t'
  := by
  simp only [onEntryCallback, Option.bind_eq_bind, Option.bind_eq_some_iff] at h
  obtain ⟨⟨newCat, s₁⟩, hcategory, ⟨answer, table⟩, hfind, h⟩ := h
  obtain ⟨s₁', hcategory', hcontacts, husers, hcategories⟩ :=
    findOrNewCategory_refines hQ hs hcategory
  obtain ⟨table', hfind', htable⟩ := hR.find husers hfind
  simp only [onEntryCallback, hcategory', hfind', Option.bind_eq_bind, Option.bind_some]
  split at h
  · rename_i hnone
    simp only [newUser, userAddEntry, Option.bind_eq_bind, Option.bind_eq_some_iff] at h
    obtain ⟨_, ⟨contacts, hcount, _, ⟨⟨answer', table₁⟩, hinsert, hadd⟩, _, htree, hs⟩, h⟩ := h
    cases h
    cases hs
    cases hadd
    obtain ⟨table₁', hinsert', htable₁⟩ := hR.insert htable hinsert
    simp only [hnone, newUser, userAddEntry, ← hcontacts, hcount, hinsert', htree,
      Option.bind_eq_bind, Option.bind_some]
    exact ⟨_, rfl, rfl, htable₁, hcategories⟩
  · rename_i user huser
    simp only [knownUser, Option.bind_eq_bind, Option.bind_eq_some_iff] at h
    obtain ⟨_, ⟨userEntry, hentry, contacts, hmove, _, htree, hs⟩, h⟩ := h
    cases h
    cases hs
    simp only [huser, knownUser, ← hcontacts, hentry, hmove, htree, Option.bind_eq_bind,
      Option.bind_some]
    exact ⟨_, rfl, rfl, htable, hcategories⟩

/-- With tables that answer alike, runs of messages do the same to the contacts. -/
theorem run_refines (hR : Refines users users' R) (hQ : Refines categories categories' Q)
    {s t : State σ τ} {s' : State σ' τ'} {msgs : List EntryMsg} {rets : List Int}
    (hs : Related R Q s s') (hrun : (machine users categories).run s msgs = some (rets, t)) :
  ∃ t', (machine users' categories').run s' msgs = some (rets, t') ∧ Related R Q t t'
  := by
  have hall : (machine users categories).Meets (fun _ _ => True) s msgs :=
    (machine users categories).meets_of_forall (fun _ _ => trivial) s msgs
  have hstep : ∀ (s' : State σ' τ') (s : State σ τ) (msg : EntryMsg) (ret : Int) (t : State σ τ),
      Related R Q s s' → True → (machine users categories).step s msg = some (ret, t) →
        ∃ t', (machine users' categories').step s' msg = some (ret, t') ∧ Related R Q t t' := by
    intro s' s msg ret t hs _ hstep
    apply callback_refines hR hQ hs hstep
  apply (machine users' categories').run_refines hstep hs hall hrun

end

/-! ### Slots -/

/-- What a table with string keys has in its buckets. -/
abbrev Slots := Nat → Option (CString × Nat)

/-- A table holds the slots. -/
def Holds (base hsize : Nat) (t : Table) (m : Slots) : Prop :=
  (strHash base hsize).HoldsSlots t.state m

/-- As long as nothing is deleted, a table is a map with slots. -/
theorem hashTable_refines (base hsize : Nat) :
  Refines (hashTable base hsize) (slotMap (strHash base hsize).hashIndex) (Holds base hsize)
  where
  find := by
    intro t m key answer u hholds h
    have hfind := Hash.HoldsSlots.find hholds key
    simp only [hashTable, hfind, Option.map_some, Option.some.injEq, Prod.mk.injEq] at h
    obtain ⟨rfl, rfl⟩ := h
    exact ⟨m, rfl, hholds⟩
  insert := by
    intro t m key val answer u hholds h
    simp only [hashTable] at h
    split at h
    · cases h
    · rename_i mallocs rest hmallocs
      rw [Option.ite_none_right_eq_some] at h
      obtain ⟨⟨hadmissible, hgranted⟩, h⟩ := h
      obtain ⟨state, hinsert, hholds'⟩ := Hash.HoldsSlots.insert hholds hadmissible hgranted
      rw [hinsert] at h
      cases h
      exact ⟨_, rfl, hholds'⟩

/-- The bucket of an address. -/
def userIndex (ip : CString) : Nat := (userHash 0).hashIndex ip

/-- The bucket of a category. -/
def categoryIndex (name : CString) : Nat := (categoryHash 0).hashIndex name

/-- The machine that handles entry messages with slots. -/
def slotMachine : Machine (State Slots Slots) EntryMsg Int :=
  machine (slotMap userIndex) (slotMap categoryIndex)

/-- No two of the keys share a bucket. -/
def Scattered (index : CString → Nat) (keys : List CString) : Prop :=
  ∀ key ∈ keys, ∀ key' ∈ keys, index key = index key' → key = key'

instance (index : CString → Nat) (keys : List CString) : Decidable (Scattered index keys) :=
  inferInstanceAs (Decidable (∀ key ∈ keys, ∀ key' ∈ keys, index key = index key' → key = key'))

section

variable {index : CString → Nat} {m : Slots} {l seen : List CString}

theorem Scattered.init {more : List CString} (h : Scattered index (seen ++ more)) :
  Scattered index seen
  := by
  intro key hkey key' hkey'
  apply h key (List.mem_append_left more hkey) key' (List.mem_append_left more hkey')

/-- A new key in a bucket of its own is inserted like into a map. -/
theorem Scattered.insert {key : CString} (h : Scattered index (seen ++ [key]))
    (hindexes : Indexes (slotFind index m) l) (hseen : ∀ key, key ∈ l ↔ key ∈ seen) (val : Nat) :
  slotFind index (Function.update m (index key) (some (key, val)))
    = Function.update (slotFind index m) key (some val)
  := by
  apply slotFind_update
  intro key' hindex hne
  rw [hindexes.eq_none_iff]
  intro hmem
  apply hne
  apply h key' _ key _ hindex
  · apply List.mem_append_left _ ((hseen key').mp hmem)
  · apply List.mem_append_right _ List.mem_cons_self

/-- Keys that are all found do not share a bucket. -/
theorem scattered_of_indexes (hindexes : Indexes (slotFind index m) l)
    (hseen : ∀ key, key ∈ l ↔ key ∈ seen) :
  Scattered index seen
  := by
  intro key hkey key' hkey' hindex
  obtain ⟨i, hi⟩ := List.getElem?_of_mem ((hseen key).mpr hkey)
  obtain ⟨j, hj⟩ := List.getElem?_of_mem ((hseen key').mpr hkey')
  apply eq_of_slotFind ((hindexes key i).mpr hi) ((hindexes key' j).mpr hj) hindex

/-- A list that has the keys seen has one more with the next key, unless it has it. -/
theorem seen_append {l' : List CString} {key : CString} (hseen : ∀ key, key ∈ l ↔ key ∈ seen)
    (h : l' = l ++ [key] ∨ (l' = l ∧ key ∈ l)) (key' : CString) :
  key' ∈ l' ↔ key' ∈ seen ++ [key]
  := by
  rw [List.mem_append, List.mem_singleton, ← hseen]
  obtain rfl | ⟨rfl, hmem⟩ := h
  · rw [List.mem_append, List.mem_singleton]
  · constructor
    · intro hkey'
      left
      apply hkey'
    · rintro (hkey' | rfl)
      · apply hkey'
      · apply hmem

end

/-- The slots find the lists, which have what the messages had. -/
structure Filed (msgs : List EntryMsg) (s : State Slots Slots) : Prop where
  indexed : Indexed (slotFind userIndex) (slotFind categoryIndex) s
  ips_seen : ∀ ip, ip ∈ s.contacts.book.members.map Member.ipaddr ↔ ip ∈ ips msgs
  names_seen : ∀ name, name ∈ s.contacts.book.names ↔ name ∈ categoryNames msgs

theorem start_filed :
  Filed [] (start (fun _ => none) fun _ => none)
  where
  indexed := ⟨indexes_nil, indexes_nil⟩
  ips_seen := by simp [start, Lists.book, ips]
  names_seen := by simp [start, Lists.book, Book.names, categoryNames]

/-- A message whose address and category share no bucket with others is filed. -/
theorem Filed.step {msgs : List EntryMsg} {s s' : State Slots Slots} {msg : EntryMsg} {ret : Int}
    (h : Filed msgs s) (husers : Scattered userIndex (ips (msgs ++ [msg])))
    (hcategories : Scattered categoryIndex (categoryNames (msgs ++ [msg])))
    (hstep : slotMachine.step s msg = some (ret, s')) :
  Filed (msgs ++ [msg]) s'
  := by
  have hips : ips (msgs ++ [msg]) = ips msgs ++ [str32 msg.ip] := by
    simp [ips]
  have hnames : categoryNames (msgs ++ [msg]) = categoryNames msgs ++ [str32 msg.category] := by
    simp [categoryNames]
  rw [hips] at husers
  rw [hnames] at hcategories
  obtain ⟨henter, hindexed⟩ := h.indexed.step (fun _ _ => rfl) (fun _ _ => rfl) hstep
  obtain ⟨hnames', hmembers'⟩ := Book.enter_cases henter
  refine ⟨?_, ?_, ?_⟩
  · apply hindexed
    · intro _ val o t hinsert
      cases hinsert
      apply husers.insert h.indexed.users h.ips_seen
    · intro _ val o t hinsert
      cases hinsert
      apply hcategories.insert h.indexed.categories h.names_seen
  · rw [hips]
    apply seen_append h.ips_seen
    obtain ⟨-, hmembers'⟩ | ⟨user, member, huser, hmember, hmembers'⟩ := hmembers'
    · left
      rw [hmembers', List.map_append]
      rfl
    · right
      constructor
      · rw [hmembers']
        split
        · rfl
        · apply Book.map_ipaddr_set hmember
      · apply List.mem_of_getElem? ((h.indexed.users _ user).mp huser)
  · rw [hnames]
    apply seen_append h.names_seen
    cases hlook : slotFind categoryIndex s.categories (str32 msg.category) with
    | none =>
      left
      rw [hnames', if_pos hlook]
    | some newCat =>
      right
      constructor
      · rw [hnames', hlook, if_neg (by simp), List.append_nil]
      · apply List.mem_of_getElem? ((h.indexed.categories _ newCat).mp hlook)

/-- Messages whose addresses and categories share no buckets are filed. -/
theorem run_filed {msgs : List EntryMsg} {rets : List Int} {s : State Slots Slots}
    (husers : Scattered userIndex (ips msgs))
    (hcategories : Scattered categoryIndex (categoryNames msgs))
    (hrun : slotMachine.run (start (fun _ => none) fun _ => none) msgs = some (rets, s)) :
  Filed msgs s
  := by
  have hinit : ∀ h : List EntryMsg, ∀ e, ips (h ++ [e]) = ips h ++ ips [e] := by
    simp [ips]
  have hinit' : ∀ h : List EntryMsg, ∀ e,
      categoryNames (h ++ [e]) = categoryNames h ++ categoryNames [e] := by
    simp [categoryNames]
  have hstep : ∀ (h : List EntryMsg) (s : State Slots Slots) (e : EntryMsg) (o : Int)
      (s' : State Slots Slots),
      (Scattered userIndex (ips h) → Scattered categoryIndex (categoryNames h) → Filed h s) →
      slotMachine.step s e = some (o, s') →
      Scattered userIndex (ips (h ++ [e])) →
      Scattered categoryIndex (categoryNames (h ++ [e])) → Filed (h ++ [e]) s' := by
    intro h s e o s' hfiled hs' husers hcategories
    apply Filed.step _ husers hcategories hs'
    rw [hinit] at husers
    rw [hinit'] at hcategories
    apply hfiled husers.init hcategories.init
  have hfiled := @Machine.run_history _ _ _ slotMachine
    (fun h s => Scattered userIndex (ips h) → Scattered categoryIndex (categoryNames h) →
      Filed h s) hstep [] _ _ _ _ (fun _ _ => start_filed) hrun
  apply hfiled husers hcategories

/-! ### Runs -/

/-- A table finds a list when its slots do. -/
theorem finds_iff {base hsize : Nat} {t : Table} {m : Slots} (h : Holds base hsize t m)
    (l : List CString) :
  Finds (hashTable base hsize) t l ↔ Indexes (slotFind (strHash base hsize).hashIndex m) l
  := by
  apply forall_congr'
  intro key
  have hfind : (hashTable base hsize).step t (.find key)
      = some (mapAnswer (slotFind (strHash base hsize).hashIndex m key), t) := by
    simp only [hashTable, Hash.HoldsSlots.find h key, Option.map_some]
  rw [hfind]
  simp only [Option.some.injEq, Prod.mk.injEq, and_true, exists_eq_left', found_mapAnswer]
  exact Iff.rfl

/-- With new tables, the lists have one entry for every address and category seen and the
tables find exactly these, if and only if no two addresses and no two categories share a
bucket. -/
theorem run_agrees_iff {base base' : Nat} {u t : HashState} {umallocs tmallocs : List HashMallocs}
    {msgs : List EntryMsg} {rets : List Int} {s : State Table Table}
    (hu : (userHash base).Created u) (ht : (categoryHash base').Created t)
    (hrun : (machine (hashTable base 0xffff) (hashTable base' 0xff)).run
      (start ⟨u, umallocs⟩ ⟨t, tmallocs⟩) msgs = some (rets, s)) :
  Agrees (hashTable base 0xffff) (hashTable base' 0xff) s msgs
    ↔ Scattered userIndex (ips msgs) ∧ Scattered categoryIndex (categoryNames msgs)
  := by
  have hstart : Related (Holds base 0xffff) (Holds base' 0xff) (start ⟨u, umallocs⟩ ⟨t, tmallocs⟩)
      (start (fun _ => none) fun _ => none) := ⟨rfl, hu.slots, ht.slots⟩
  obtain ⟨s', hrun', hcontacts, husers, hcategories⟩ :=
    run_refines (hashTable_refines base 0xffff) (hashTable_refines base' 0xff) hstart hrun
  have husers_iff := finds_iff husers (s.contacts.ulist.map UserEntry.ipaddr)
  have hcategories_iff := finds_iff hcategories (s.contacts.clist.map CategoryEntry.name)
  constructor
  · intro hagrees
    constructor
    · apply scattered_of_indexes (husers_iff.mp hagrees.users_found) hagrees.ips_seen
    · apply scattered_of_indexes (hcategories_iff.mp hagrees.categories_found) hagrees.names_seen
  · rintro ⟨hips, hnames⟩
    obtain ⟨⟨hindexUsers, hindexCategories⟩, hips_seen, hnames_seen⟩ :=
      run_filed hips hnames hrun'
    have hmembers : s'.contacts.book.members.map Member.ipaddr
        = s.contacts.ulist.map UserEntry.ipaddr := by
      simp [Lists.book, hcontacts]
    have hbook : s'.contacts.book.names = s.contacts.clist.map CategoryEntry.name := by
      simp [Lists.book, Book.names, hcontacts]
    rw [hmembers] at hindexUsers hips_seen
    rw [hbook] at hindexCategories hnames_seen
    exact ⟨hindexUsers.nodup, hips_seen, hindexCategories.nodup, hnames_seen,
      husers_iff.mpr hindexUsers, hcategories_iff.mpr hindexCategories⟩

/-- `"10.0.13.105"`. -/
def firstIp : CArray 32 := ⟨ascii "10.0.13.105", by decide +kernel, by decide +kernel⟩

/-- `"10.0.169.92"`, in the bucket of the first one. -/
def secondIp : CArray 32 := ⟨ascii "10.0.169.92", by decide +kernel, by decide +kernel⟩

/-- `"10.0.80.216"`. -/
def otherIp : CArray 32 := ⟨ascii "10.0.80.216", by decide +kernel, by decide +kernel⟩

/-- `"it"`. -/
def department : CArray 32 := ⟨ascii "it", by decide +kernel, by decide +kernel⟩

/-- The memory of two insertions. -/
def twoGrants : List HashMallocs :=
  [⟨some 0x300000, ⟨true, none⟩⟩, ⟨some 0x300040, ⟨true, none⟩⟩]

/-- A new table of addresses. -/
def userTable : Table where
  state := ((Hash.create (MemPool.init 0x100000 8) ⟨fun _ => 0, []⟩ 0xffff .str
    ⟨true, some 0x100000⟩).get rfl).2
  mallocs := twoGrants

/-- A new table of categories. -/
def categoryTable : Table where
  state := ((Hash.create (MemPool.init 0x2000 8) ⟨fun _ => 0, []⟩ 0xff .str
    ⟨true, some 0x2000⟩).get rfl).2
  mallocs := twoGrants

theorem userTable_created :
  (userHash 0x180000).Created userTable.state
  := ⟨MemPool.init 0x100000 8, ⟨fun _ => 0, []⟩, [],
    ⟨true, some 0x100000⟩, PoolState.start_inv .., by decide, by decide, by decide, rfl⟩

theorem categoryTable_created :
  (categoryHash 0x3800).Created categoryTable.state
  := ⟨MemPool.init 0x2000 8, ⟨fun _ => 0, []⟩, [], ⟨true, some 0x2000⟩,
    PoolState.start_inv .., by decide, by decide, by decide, rfl⟩

/-- The machine with these tables. -/
abbrev sampleMachine : Machine (State Table Table) EntryMsg Int :=
  machine (hashTable 0x180000 0xffff) (hashTable 0x3800 0xff)

theorem run_agrees_twoUsers :
  ∃ rets s, sampleMachine.run (start userTable categoryTable)
      [sample firstIp department, sample otherIp department] = some (rets, s)
    ∧ Agrees (hashTable 0x180000 0xffff) (hashTable 0x3800 0xff) s
        [sample firstIp department, sample otherIp department]
  := by
  have hreturns : (sampleMachine.run (start userTable categoryTable)
      [sample firstIp department, sample otherIp department]).isSome = true := by
    decide +kernel
  obtain ⟨⟨rets, s⟩, hrun⟩ := Option.isSome_iff_exists.mp hreturns
  use rets, s, hrun
  apply (run_agrees_iff userTable_created categoryTable_created hrun).mpr
  decide +kernel

/-- Of two users in one bucket the first is no longer found. -/
theorem sameBucket_lost :
  ∃ rets s, sampleMachine.run (start userTable categoryTable)
      [sample firstIp department, sample secondIp department] = some (rets, s)
    ∧ ¬ Agrees (hashTable 0x180000 0xffff) (hashTable 0x3800 0xff) s
        [sample firstIp department, sample secondIp department]
  := by
  have hlost : (sampleMachine.run (start userTable categoryTable)
      [sample firstIp department, sample secondIp department]).map
        (fun r => ((hashTable 0x180000 0xffff).step r.2.users (.find (str32 firstIp))).map
          fun answer => found answer.1) = some (some none) := by
    decide +kernel
  rw [Option.map_eq_some_iff] at hlost
  obtain ⟨⟨rets, s⟩, hrun, hlost⟩ := hlost
  use rets, s, hrun
  intro hagrees
  obtain ⟨i, hi⟩ := List.getElem?_of_mem
    ((hagrees.ips_seen (str32 firstIp)).mpr List.mem_cons_self)
  obtain ⟨answer, hfind, hanswer⟩ := hagrees.users_found (str32 firstIp)
  have hfound := (hanswer i).mpr hi
  rw [hfind, Option.map_some, hfound] at hlost
  cases hlost

end Contacts

end IFreeChat
