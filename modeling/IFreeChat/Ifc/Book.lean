import IFreeChat.Basis.Update
import IFreeChat.Ifc.Contacts

/-!
# Users and their categories

A `Book` is what the contacts are about: the users with the category each points to, and the
categories with their counts.  `Book.enter` is one entry message, given what the two tables
answer; the callback takes a book to the book after the message (`callback_book`), whatever
it does to the tree.

Every category counts the users that point to it, for any answers of the tables
(`run_counted`).
-/

open Basis

namespace IFreeChat

namespace Contacts

/-! ### The book -/

/-- A user with the category it was created with and the category it points to. -/
structure Member where
  ipaddr : CString
  category : CString
  entry : Option Nat
deriving DecidableEq

/-- The users, and the names and counts of the categories. -/
structure Book where
  members : List Member
  counts : List (CString × Int)
deriving DecidableEq

namespace Book

/-- The count of a category changes by `n`. -/
def add (b : Book) (category : Nat) (n : Int) : Option Book := do
  let (name, count) ← b.counts[category]?
  some { b with counts := b.counts.set category (name, count + n) }

/-- The place of the category of a message, and the book that has it. -/
def addCategory (b : Book) (category : CString) : Option Nat → Nat × Book
  | some newCat => (newCat, b)
  | none => (b.counts.length, { b with counts := b.counts ++ [(category, 0)] })

/-- The user of a message comes to the category `newCat`. -/
def addMember (b : Book) (ip category : CString) (newCat : Nat) : Option Nat → Option Book
  | none => do
      let b ← b.add newCat 1
      some { b with members := b.members ++ [⟨ip, category, some newCat⟩] }
  | some user => do
      let member ← b.members[user]?
      if category ≠ member.category then do
        let oldCat ← member.entry
        let b ← b.add oldCat (-1)
        let b ← b.add newCat 1
        some { b with members := b.members.set user { member with entry := some newCat } }
      else some b

/-- One entry message, where the tables answer `foundCategory` and `foundUser`. -/
def enter (b : Book) (ip category : CString) (foundCategory foundUser : Option Nat) :
    Option Book :=
  let (newCat, b) := b.addCategory category foundCategory
  b.addMember ip category newCat foundUser

theorem add_eq_some_iff {b b' : Book} {category : Nat} {n : Int} :
  b.add category n = some b'
    ↔ ∃ name count, b.counts[category]? = some (name, count)
        ∧ b' = { b with counts := b.counts.set category (name, count + n) }
  := by
  simp only [add, Option.bind_eq_bind, Option.bind_eq_some_iff]
  constructor
  · rintro ⟨⟨name, count⟩, hentry, h⟩
    cases h
    use name, count, hentry
  · rintro ⟨name, count, hentry, rfl⟩
    use (name, count), hentry

/-- The names of the categories. -/
def names (b : Book) : List CString := b.counts.map Prod.fst

theorem add_names {b b' : Book} {category : Nat} {n : Int} (h : b.add category n = some b') :
  b'.names = b.names ∧ b'.members = b.members
  := by
  obtain ⟨name, count, hentry, rfl⟩ := add_eq_some_iff.mp h
  refine ⟨?_, rfl⟩
  apply map_set_of_eq hentry
  rfl

/-- What one entry message does to the names and the members. -/
theorem enter_cases {b b' : Book} {ip category : CString} {foundCategory foundUser : Option Nat}
    (h : b.enter ip category foundCategory foundUser = some b') :
  b'.names = b.names ++ (if foundCategory = none then [category] else [])
    ∧ ((foundUser = none ∧ b'.members
          = b.members ++ [⟨ip, category, some (foundCategory.getD b.counts.length)⟩])
      ∨ ∃ user member, foundUser = some user ∧ b.members[user]? = some member
          ∧ b'.members = if category = member.category then b.members
              else b.members.set user
                { member with entry := some (foundCategory.getD b.counts.length) })
  := by
  obtain ⟨newCat, b₁, hcategory⟩ :
      ∃ newCat b₁, b.addCategory category foundCategory = (newCat, b₁) :=
    ⟨_, _, rfl⟩
  have hb₁ : newCat = foundCategory.getD b.counts.length ∧ b₁.members = b.members
      ∧ b₁.names = b.names ++ (if foundCategory = none then [category] else []) := by
    cases foundCategory with
    | none =>
      cases hcategory
      simp [names]
    | some c =>
      cases hcategory
      simp
  obtain ⟨hnewCat, hmembers, hnames⟩ := hb₁
  rw [enter, hcategory] at h
  rw [← hnewCat, ← hnames, ← hmembers]
  cases foundUser with
  | none =>
    simp only [addMember, Option.bind_eq_bind, Option.bind_eq_some_iff] at h
    obtain ⟨b₂, hadd, h⟩ := h
    cases h
    obtain ⟨hnames₂, hmembers₂⟩ := add_names hadd
    refine ⟨hnames₂, Or.inl ⟨rfl, ?_⟩⟩
    rw [hmembers₂]
  | some user =>
    simp only [addMember, Option.bind_eq_bind, Option.bind_eq_some_iff] at h
    obtain ⟨member, hmember, h⟩ := h
    split at h
    · rename_i hne
      simp only [Option.bind_eq_some_iff] at h
      obtain ⟨old, -, b₂, hminus, b₃, hplus, h⟩ := h
      cases h
      obtain ⟨hnames₂, hmembers₂⟩ := add_names hminus
      obtain ⟨hnames₃, hmembers₃⟩ := add_names hplus
      refine ⟨hnames₃.trans hnames₂, Or.inr ⟨user, member, rfl, hmember, ?_⟩⟩
      rw [if_neg hne, hmembers₃, hmembers₂]
    · rename_i heq
      cases h
      refine ⟨rfl, Or.inr ⟨user, member, rfl, hmember, ?_⟩⟩
      rw [if_pos (not_not.mp heq)]

/-- A member of a known user keeps its address. -/
theorem map_ipaddr_set {members : List Member} {user : Nat} {member : Member}
    (hmember : members[user]? = some member) (entry : Option Nat) :
  (members.set user { member with entry }).map Member.ipaddr = members.map Member.ipaddr
  := by
  apply map_set_of_eq hmember
  rfl

end Book

/-- The book of the contacts. -/
def Lists.book (s : Lists) : Book where
  members := s.ulist.map fun user => ⟨user.ipaddr, user.category, user.categoryEntry⟩
  counts := s.clist.map fun category => (category.name, category.count)

/-! ### The callback and the book -/

theorem found_mapAnswer (o : Option Nat) :
  found (mapAnswer o) = o
  := by
  cases o <;> rfl

theorem newCategoryRow_book (s : Lists) (category : Nat) (entry : CategoryEntry) :
  (newCategoryRow s category entry).2.book = s.book
  := by
  simp only [newCategoryRow, Lists.book]
  rw [map_modify]
  intro entry
  rfl

theorem addCategoryToTreeview_book {s s' : Lists} {category : Nat}
    (h : addCategoryToTreeview s category = some s') :
  s'.book = s.book
  := by
  simp only [addCategoryToTreeview, Option.bind_eq_bind, Option.bind_eq_some_iff] at h
  obtain ⟨entry, -, h⟩ := h
  cases h
  apply newCategoryRow_book

theorem addCategoryToTreeview_ulist {s s' : Lists} {category : Nat}
    (h : addCategoryToTreeview s category = some s') :
  s'.ulist = s.ulist
  := by
  simp only [addCategoryToTreeview, Option.bind_eq_bind, Option.bind_eq_some_iff] at h
  obtain ⟨entry, -, h⟩ := h
  cases h
  rfl

theorem addUserToTreeview_book {s s' : Lists} {user : Nat}
    (h : addUserToTreeview s user = some s') :
  s'.book = s.book
  := by
  obtain ⟨userEntry, category, entry, citer, s₁, -, -, -, hrow, rfl⟩ := addUserToTreeview_cases h
  have hsame : s₁.book = s.book := by
    rcases hrow with ⟨-, hnew⟩ | ⟨-, rfl⟩
    · rw [← newCategoryRow_book s category entry, hnew]
    · rfl
  rw [← hsame]
  simp only [Lists.book]
  rw [map_modify]
  intro entry
  rfl

theorem addCount_book {s s' : Lists} {category : Nat} {n : Int}
    (h : addCount s category n = some s') :
  s.book.add category n = some s'.book ∧ s'.ulist = s.ulist
  := by
  simp only [addCount, Option.bind_eq_bind, Option.bind_eq_some_iff] at h
  obtain ⟨entry, hentry, h⟩ := h
  split at h
  · cases h
    simp [Book.add, Lists.book, hentry, List.map_set]
  · cases h

section

variable {σ τ : Type} {users : Index σ} {categories : Index τ}

/-- The category part of the callback finds the category of the book, or inserts it. -/
theorem findOrNewCategory_book {s s' : State σ τ} {category : CString} {newCat : Nat}
    (h : findOrNewCategory categories s category = some (newCat, s')) :
  ∃ answer table, categories.step s.categories (.find category) = some (answer, table)
    ∧ s.contacts.book.addCategory category (found answer) = (newCat, s'.contacts.book)
    ∧ s'.users = s.users ∧ s'.contacts.ulist = s.contacts.ulist
    ∧ match found answer with
      | none => ∃ o, categories.step table (.insert category s.contacts.clist.length ())
          = some (o, s'.categories)
      | some _ => s'.categories = table
  := by
  simp only [findOrNewCategory, Option.bind_eq_bind, Option.bind_eq_some_iff] at h
  obtain ⟨⟨answer, table⟩, hfind, h⟩ := h
  use answer, table, hfind
  simp only at h
  split at h
  · rename_i hneg
    obtain ⟨⟨o, table'⟩, hinsert, contacts, htree, h⟩ := by
      simpa only [Option.bind_eq_some_iff] using h
    cases h
    have hbook := addCategoryToTreeview_book htree
    have hulist := addCategoryToTreeview_ulist htree
    rw [found, if_pos hneg]
    refine ⟨?_, rfl, hulist, o, hinsert⟩
    rw [hbook]
    simp [Book.addCategory, Lists.book, newCategoryEntry]
  · rename_i hnonneg
    obtain ⟨entry, hentry, h⟩ := by
      simpa only [Option.bind_eq_some_iff] using h
    cases h
    rw [found, if_neg hnonneg, hentry]
    exact ⟨rfl, rfl, rfl, rfl⟩

/-- The branch of a new user adds it to the book and to the table. -/
theorem newUser_book {s s' : State σ τ} {msg : EntryMsg} {newCat : Nat}
    (h : newUser users s msg newCat = some s') :
  s.contacts.book.addMember (str32 msg.ip) (str32 msg.category) newCat none
      = some s'.contacts.book
    ∧ s'.categories = s.categories
    ∧ ∃ o, users.step s.users (.insert (str32 msg.ip) s.contacts.ulist.length ())
        = some (o, s'.users)
  := by
  simp only [newUser, userAddEntry, Option.bind_eq_bind, Option.bind_eq_some_iff] at h
  obtain ⟨contacts, hcount, _, ⟨⟨o, table⟩, hinsert, h⟩, contacts', htree, h'⟩ := h
  cases h
  cases h'
  obtain ⟨hbook, hulist⟩ := addCount_book hcount
  rw [hulist] at hinsert
  refine ⟨?_, rfl, o, hinsert⟩
  rw [addUserToTreeview_book htree]
  simp only [Book.addMember, hbook, Option.bind_eq_bind, Option.bind_some]
  simp [Lists.book, newUserEntry]

/-- The branch of a user in the list moves it in the book. -/
theorem knownUser_book {s s' : State σ τ} {msg : EntryMsg} {newCat user : Nat}
    (h : knownUser s msg newCat user = some s') :
  s.contacts.book.addMember (str32 msg.ip) (str32 msg.category) newCat (some user)
      = some s'.contacts.book
    ∧ s'.categories = s.categories ∧ s'.users = s.users
  := by
  simp only [knownUser, Option.bind_eq_bind, Option.bind_eq_some_iff] at h
  obtain ⟨userEntry, huser, contacts, hmove, contacts', htree, h⟩ := h
  cases h
  refine ⟨?_, rfl, rfl⟩
  rw [addUserToTreeview_book htree]
  have hmember : s.contacts.book.members[user]?
      = some ⟨userEntry.ipaddr, userEntry.category, userEntry.categoryEntry⟩ := by
    simp [Lists.book, huser]
  simp only [Book.addMember, hmember, Option.bind_eq_bind, Option.bind_some]
  split at hmove
  · rename_i hne
    simp only [changeCategory, Option.bind_eq_bind, Option.bind_eq_some_iff] at hmove
    obtain ⟨oldCat, hold, contacts₁, hminus, contacts₂, hplus, hmove⟩ := hmove
    cases hmove
    obtain ⟨hbook₁, hulist₁⟩ := addCount_book hminus
    obtain ⟨hbook₂, hulist₂⟩ := addCount_book hplus
    rw [if_pos hne]
    simp only [hold, hbook₁, hbook₂, Option.bind_some]
    simp [Lists.book, hulist₁, hulist₂, List.map_set]
  · rename_i heq
    cases hmove
    rw [if_neg heq]

/-- The callback takes the book to the book after the message, for what the tables answer,
and inserts a category or a user that a table does not find. -/
theorem callback_book {s s' : State σ τ} {msg : EntryMsg} {ret : Int}
    (h : onEntryCallback users categories s msg = some (ret, s')) :
  ∃ answer table answer' table',
    categories.step s.categories (.find (str32 msg.category)) = some (answer, table)
    ∧ users.step s.users (.find (str32 msg.ip)) = some (answer', table')
    ∧ s.contacts.book.enter (str32 msg.ip) (str32 msg.category) (found answer) (found answer')
        = some s'.contacts.book
    ∧ (match found answer with
      | none => ∃ o, categories.step table
          (.insert (str32 msg.category) s.contacts.clist.length ()) = some (o, s'.categories)
      | some _ => s'.categories = table)
    ∧ match found answer' with
      | none => ∃ o, users.step table' (.insert (str32 msg.ip) s.contacts.ulist.length ())
          = some (o, s'.users)
      | some _ => s'.users = table'
  := by
  simp only [onEntryCallback, Option.bind_eq_bind, Option.bind_eq_some_iff] at h
  obtain ⟨⟨newCat, s₁⟩, hcategory, ⟨answer', table'⟩, hfind, h⟩ := h
  obtain ⟨answer, table, hfindCategory, hbook, husers, hulist, htable⟩ :=
    findOrNewCategory_book hcategory
  simp only at hfind h
  rw [husers] at hfind
  refine ⟨answer, table, answer', table', hfindCategory, hfind, ?_⟩
  rw [Book.enter, hbook]
  split at h
  · rename_i hnone
    simp only [Option.bind_eq_some_iff] at h
    obtain ⟨s₂, hnew, h⟩ := h
    cases h
    obtain ⟨hmember, hcategories, o, hinsert⟩ := newUser_book hnew
    rw [hnone, hcategories, ← hulist]
    exact ⟨hmember, htable, o, hinsert⟩
  · rename_i user huser
    simp only [Option.bind_eq_some_iff] at h
    obtain ⟨s₂, hknown, h⟩ := h
    cases h
    obtain ⟨hmember, hcategories, husers'⟩ := knownUser_book hknown
    rw [huser, hcategories]
    exact ⟨hmember, htable, husers'⟩

/-- The tables have the users and the categories of the book under their addresses and
names, where `lookUser` and `lookCategory` are what they find. -/
structure Indexed (lookUser : σ → CString → Option Nat) (lookCategory : τ → CString → Option Nat)
    (s : State σ τ) : Prop where
  users : Indexes (lookUser s.users) (s.contacts.book.members.map Member.ipaddr)
  categories : Indexes (lookCategory s.categories) s.contacts.book.names

/-- One message where the tables find the book: the book after the message, which the tables
find as well if an insertion adds what it inserts. -/
theorem Indexed.step {lookUser : σ → CString → Option Nat}
    {lookCategory : τ → CString → Option Nat} {s s' : State σ τ} {msg : EntryMsg} {ret : Int}
    (hindexed : Indexed lookUser lookCategory s)
    (hfindUser : ∀ t key, users.step t (.find key) = some (mapAnswer (lookUser t key), t))
    (hfindCategory :
      ∀ t key, categories.step t (.find key) = some (mapAnswer (lookCategory t key), t))
    (h : onEntryCallback users categories s msg = some (ret, s')) :
  s.contacts.book.enter (str32 msg.ip) (str32 msg.category)
        (lookCategory s.categories (str32 msg.category)) (lookUser s.users (str32 msg.ip))
      = some s'.contacts.book
    ∧ ((lookUser s.users (str32 msg.ip) = none → ∀ val o t,
          users.step s.users (.insert (str32 msg.ip) val ()) = some (o, t) →
            lookUser t = Function.update (lookUser s.users) (str32 msg.ip) (some val)) →
        (lookCategory s.categories (str32 msg.category) = none → ∀ val o t,
          categories.step s.categories (.insert (str32 msg.category) val ()) = some (o, t) →
            lookCategory t
              = Function.update (lookCategory s.categories) (str32 msg.category) (some val)) →
        Indexed lookUser lookCategory s')
  := by
  obtain ⟨_, _, _, _, hcategory, huser, henter, htable, htable'⟩ := callback_book h
  rw [hfindCategory, Option.some.injEq, Prod.mk.injEq] at hcategory
  rw [hfindUser, Option.some.injEq, Prod.mk.injEq] at huser
  obtain ⟨rfl, rfl⟩ := hcategory
  obtain ⟨rfl, rfl⟩ := huser
  simp only [found_mapAnswer] at henter htable htable'
  use henter
  intro hinsertUser hinsertCategory
  obtain ⟨hnames, hmembers⟩ := Book.enter_cases henter
  constructor
  · cases hlook : lookUser s.users (str32 msg.ip) with
    | none =>
      rw [hlook] at hmembers htable'
      obtain ⟨-, hmembers⟩ | ⟨user, -, huser, -⟩ := hmembers
      · obtain ⟨o, hinsert⟩ := htable'
        rw [hinsertUser hlook _ _ _ hinsert, hmembers, List.map_append]
        have hlength : s.contacts.ulist.length
            = (s.contacts.book.members.map Member.ipaddr).length := by
          simp [Lists.book]
        rw [hlength]
        apply hindexed.users.append hlook
      · cases huser
    | some user =>
      rw [hlook] at hmembers htable'
      obtain ⟨hnone, -⟩ | ⟨user', member, huser, hmember, hmembers⟩ := hmembers
      · cases hnone
      · rw [htable', hmembers]
        split
        · apply hindexed.users
        · rw [Book.map_ipaddr_set hmember]
          apply hindexed.users
  · rw [hnames]
    cases hlook : lookCategory s.categories (str32 msg.category) with
    | none =>
      rw [hlook] at htable
      obtain ⟨o, hinsert⟩ := htable
      rw [hinsertCategory hlook _ _ _ hinsert, if_pos rfl]
      have hlength : s.contacts.clist.length = s.contacts.book.names.length := by
        simp [Lists.book, Book.names]
      rw [hlength]
      apply hindexed.categories.append hlook
    | some newCat =>
      rw [hlook] at htable
      rw [htable, if_neg (by simp), List.append_nil]
      apply hindexed.categories

end

/-! ### Counts -/

namespace Book

/-- How many members point to a category. -/
def pointing (members : List Member) (i : Nat) : Nat :=
  members.countP fun member => member.entry = some i

/-- Every count is what `f` has for its category, and the counts sum to `k`. -/
structure CountsAre (b : Book) (f : Nat → Int) (k : Int) : Prop where
  count_eq : ∀ i entry, b.counts[i]? = some entry → entry.2 = f i
  sum_eq : (b.counts.map Prod.snd).sum = k

theorem sum_set {l : List (CString × Int)} :
  ∀ {i : Nat} {name : CString} {count : Int} (n : Int), l[i]? = some (name, count) →
    ((l.set i (name, count + n)).map Prod.snd).sum = (l.map Prod.snd).sum + n
  := by
  induction l with
  | nil => simp
  | cons entry l ih =>
    intro i name count n h
    cases i with
    | zero =>
      cases h
      simp only [List.set_cons_zero, List.map_cons, List.sum_cons]
      omega
    | succ i =>
      simp only [List.set_cons_succ, List.map_cons, List.sum_cons, ih n h]
      omega

theorem CountsAre.add {b b' : Book} {f : Nat → Int} {k n : Int} {category : Nat}
    (h : b.CountsAre f k) (hadd : b.add category n = some b') :
  b'.CountsAre (fun i => if i = category then f i + n else f i) (k + n)
  := by
  obtain ⟨name, count, hentry, rfl⟩ := add_eq_some_iff.mp hadd
  constructor
  · intro i entry hi
    simp only [List.getElem?_set] at hi
    split at hi
    · rename_i heq
      subst heq
      split at hi
      · cases hi
        simp only [if_pos trivial, ← h.count_eq category _ hentry]
      · cases hi
    · rename_i hne
      rw [if_neg (Ne.symm hne)]
      apply h.count_eq i entry hi
  · rw [sum_set n hentry, h.sum_eq]

/-- Every category counts the members that point to it, the counts sum to the number of the
members, and every member points to a category. -/
structure Counted (b : Book) : Prop where
  counts : b.CountsAre (fun i => pointing b.members i) b.members.length
  entry_lt : ∀ member ∈ b.members, ∃ i < b.counts.length, member.entry = some i

theorem pointing_append (members : List Member) (member : Member) (i : Nat) :
  pointing (members ++ [member]) i
    = pointing members i + if member.entry = some i then 1 else 0
  := by
  simp [pointing, List.countP_append, List.countP_singleton]

/-- A member that moves is counted by its new category and no longer by its old one. -/
theorem pointing_set {members : List Member} {user old new : Nat} {member : Member}
    (huser : members[user]? = some member) (hentry : member.entry = some old) (i : Nat) :
  (pointing (members.set user { member with entry := some new }) i : Int)
    = pointing members i - (if i = old then 1 else 0) + if i = new then 1 else 0
  := by
  obtain ⟨hlt, hget⟩ := List.getElem?_eq_some_iff.mp huser
  have hpos : i = old → 0 < pointing members i := by
    rintro rfl
    rw [pointing, List.countP_pos_iff]
    use member, List.mem_of_getElem? huser
    simp [hentry]
  rw [pointing, List.countP_set hlt, hget]
  simp only [hentry, decide_eq_true_eq, Option.some.injEq]
  change ((pointing members i - _ + _ : Nat) : Int) = _
  by_cases hold : i = old
  · have := hpos hold
    by_cases hnew : i = new
    · simp only [hold.symm, hnew.symm, if_true]
      omega
    · simp only [hold.symm, hnew, Ne.symm hnew, if_true, if_false]
      omega
  · by_cases hnew : i = new
    · simp only [hold, Ne.symm hold, hnew.symm, if_true, if_false]
      omega
    · simp only [hold, Ne.symm hold, hnew, Ne.symm hnew, if_false]
      omega

theorem add_length {b b' : Book} {category : Nat} {n : Int} (h : b.add category n = some b') :
  b'.counts.length = b.counts.length ∧ b'.members = b.members ∧ category < b.counts.length
  := by
  obtain ⟨name, count, hentry, rfl⟩ := add_eq_some_iff.mp h
  exact ⟨List.length_set, rfl, (List.getElem?_eq_some_iff.mp hentry).1⟩

/-- A new category, which no member points to, has the count zero. -/
theorem Counted.addCategory {b : Book} (h : b.Counted) (category : CString)
    (foundCategory : Option Nat) :
  (b.addCategory category foundCategory).2.Counted
  := by
  cases foundCategory with
  | some newCat => exact h
  | none =>
    obtain ⟨⟨hcount, hsum⟩, hentry⟩ := h
    refine ⟨⟨?_, ?_⟩, ?_⟩
    · intro i entry hi
      rcases Nat.lt_or_ge i b.counts.length with hlt | hge
      · rw [Book.addCategory, List.getElem?_append_left hlt] at hi
        apply hcount i entry hi
      · rw [Book.addCategory, List.getElem?_append_right hge] at hi
        have hzero : pointing b.members i = 0 := by
          rw [pointing, List.countP_eq_zero]
          intro member hmember
          obtain ⟨j, hj, hmemberEntry⟩ := hentry member hmember
          simp only [hmemberEntry, decide_eq_true_eq, Option.some.injEq]
          omega
        change entry.2 = (pointing b.members i : Int)
        rw [hzero]
        obtain rfl : entry = (category, 0) := by
          simpa using (List.mem_of_getElem? hi)
        rfl
    · simp [Book.addCategory, hsum]
    · intro member hmember
      obtain ⟨i, hi, hmemberEntry⟩ := hentry member hmember
      use i, by simp [Book.addCategory]; omega

/-- The branches of the callback keep the counts. -/
theorem Counted.addMember {b b' : Book} (h : b.Counted) {ip category : CString} {newCat : Nat}
    {foundUser : Option Nat} (hb : b.addMember ip category newCat foundUser = some b') :
  b'.Counted
  := by
  obtain ⟨hcounts, hentry⟩ := h
  cases foundUser with
  | none =>
    simp only [Book.addMember, Option.bind_eq_bind, Option.bind_eq_some_iff] at hb
    obtain ⟨b₁, hadd, hb⟩ := hb
    cases hb
    obtain ⟨hlength, hmembers, hlt⟩ := add_length hadd
    obtain ⟨hcount, hsum⟩ := hcounts.add hadd
    refine ⟨⟨?_, ?_⟩, ?_⟩
    · intro i entry hi
      rw [hcount i entry hi, hmembers, pointing_append]
      simp only [Option.some.injEq, eq_comm]
      split <;> simp
    · rw [hsum, hmembers]
      simp
    · intro member hmember
      rw [hmembers, List.mem_append, List.mem_singleton] at hmember
      obtain hmember | rfl := hmember
      · rw [hlength]
        apply hentry member hmember
      · refine ⟨newCat, ?_, rfl⟩
        change newCat < b₁.counts.length
        omega
  | some user =>
    simp only [Book.addMember, Option.bind_eq_bind, Option.bind_eq_some_iff] at hb
    obtain ⟨member, huser, hb⟩ := hb
    split at hb
    · simp only [Option.bind_eq_some_iff] at hb
      obtain ⟨old, hold, b₁, hminus, b₂, hplus, hb⟩ := hb
      cases hb
      obtain ⟨hlength₁, hmembers₁, hlt₁⟩ := add_length hminus
      obtain ⟨hlength₂, hmembers₂, hlt₂⟩ := add_length hplus
      obtain ⟨hcount, hsum⟩ := (hcounts.add hminus).add hplus
      refine ⟨⟨?_, ?_⟩, ?_⟩
      · intro i entry hi
        rw [hcount i entry hi, hmembers₂, hmembers₁, pointing_set huser hold]
        split <;> split <;> omega
      · rw [hsum, hmembers₂, hmembers₁, List.length_set]
        omega
      · intro member' hmember'
        rw [hmembers₂, hmembers₁] at hmember'
        rw [hlength₂, hlength₁]
        obtain hmember' | rfl := List.mem_or_eq_of_mem_set hmember'
        · apply hentry member' hmember'
        · use newCat, by omega
    · cases hb
      exact ⟨hcounts, hentry⟩

/-- A message keeps the counts, whatever the tables answer. -/
theorem Counted.enter {b b' : Book} (h : b.Counted) {ip category : CString}
    {foundCategory foundUser : Option Nat}
    (hb : b.enter ip category foundCategory foundUser = some b') :
  b'.Counted
  := (h.addCategory category foundCategory).addMember hb

end Book

/-- Every category counts the users that point to it, no count is negative, and the counts
sum to the number of the users. -/
structure Counted (s : Lists) : Prop where
  count_eq : ∀ (i : Nat) (entry : CategoryEntry), s.clist[i]? = some entry →
    entry.count = (s.ulist.countP (fun user => user.categoryEntry = some i) : Nat)
  nonneg : ∀ entry ∈ s.clist, 0 ≤ entry.count
  sum_eq : (s.clist.map CategoryEntry.count).sum = s.ulist.length

theorem counted_of_book {s : Lists} (h : s.book.Counted) :
  Counted s
  := by
  have hcount : ∀ (i : Nat) (entry : CategoryEntry), s.clist[i]? = some entry →
      entry.count = (s.ulist.countP (fun user => user.categoryEntry = some i) : Nat) := by
    intro i entry hi
    have := h.counts.count_eq i (entry.name, entry.count) (by simp [Lists.book, hi])
    simp only [Book.pointing, Lists.book, List.countP_map] at this
    exact this
  refine ⟨hcount, ?_, ?_⟩
  · intro entry hentry
    obtain ⟨i, hi⟩ := List.getElem?_of_mem hentry
    rw [hcount i entry hi]
    omega
  · have := h.counts.sum_eq
    simpa [Lists.book, Function.comp_def] using this

/-- After any entry messages, whatever the tables answered, every category counts the users
that point to it. -/
theorem run_counted {σ τ : Type} {users : Index σ} {categories : Index τ} {u : σ} {t : τ}
    {msgs : List EntryMsg} {rets : List Int} {s : State σ τ}
    (hrun : (machine users categories).run (start u t) msgs = some (rets, s)) :
  Counted s.contacts
  := by
  have hstart : (start u t : State σ τ).contacts.book.Counted :=
    ⟨⟨by simp [start, Lists.book], by simp [start, Lists.book]⟩, by simp [start, Lists.book]⟩
  apply counted_of_book
  apply (machine users categories).run_keeps _ hstart hrun
  intro s msg ret s' hs hstep
  obtain ⟨_, _, _, _, -, -, henter, -⟩ := callback_book hstep
  apply hs.enter henter

theorem run_counted_moves :
  ∃ rets s, (machine finiteMap finiteMap).run (start (fun _ => none) fun _ => none)
      [sample charA charA, sample charB charA, sample charA charB] = some (rets, s)
    ∧ Counted s.contacts
  := by
  refine ⟨_, _, rfl, ?_⟩
  exact @run_counted _ _ finiteMap finiteMap (fun _ => none) (fun _ => none)
    [sample charA charA, sample charB charA, sample charA charB] _ _ rfl

end Contacts

end IFreeChat
