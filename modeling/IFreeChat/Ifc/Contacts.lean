import IFreeChat.Basis.Block
import IFreeChat.Basis.Update
import IFreeChat.Hash.Table

/-!
# The contacts

`on_entry_callback` keeps the users and the categories that entry messages announce: each in
a list and in a hash table, and once more as the rows of the contact tree.  Entries and rows
are never removed, so that a pointer to one is its place in the list.

The callback is modelled over any two tables, given by how they answer to `hash_find` and
`hash_insert`.  Whatever they answer, every category counts the users that point to it
(`run_counted`).

A call does not return, `none`, when it follows a pointer that is `NULL` or to no entry, or
lets a count leave the range of an `int`; allocations succeed, and the main window has its
tree.
-/

open Basis

namespace IFreeChat

namespace Contacts

/-! ### Messages and entries -/

/-- What an entry message has in its `msg_t`. -/
structure EntryMsg where
  ip : CArray 32
  macaddr : CArray 32
  username : CArray 32
  hostname : CArray 32
  nickname : CArray 32
  avatar : CArray 64
  category : CArray 32

theorem array_lt {n : Nat} (a : CArray n) (h : n ≤ 64) :
  a.text.length < 2 ^ 31
  := by
  have := a.fits
  omega

/-- The string in an array of 32 characters. -/
def str32 (a : CArray 32) : CString := ⟨a.text, a.nul, array_lt a (Nat.le_add_right 32 32)⟩

/-- The string in an array of 64 characters. -/
def str64 (a : CArray 64) : CString := ⟨a.text, a.nul, array_lt a (Nat.le_refl 64)⟩

/-- `" "`, the signature of a new user. -/
def noSignature : CString := ⟨[32], by simp⟩

/-- `"GBK"`. -/
def gbk : CString := ⟨[71, 66, 75], by simp⟩

/-- `user_entry_t`: its strings, its row in the tree, and its category. -/
structure UserEntry where
  nickname : CString
  username : CString
  hostname : CString
  avatar : CString
  ipaddr : CString
  macaddr : CString
  signature : CString
  category : CString
  encoding : CString
  pos : Option Nat
  categoryEntry : Option Nat
deriving DecidableEq

/-- `category_entry_t`, with its row in the tree. -/
structure CategoryEntry where
  name : CString
  count : Int
  pos : Option Nat
deriving DecidableEq

/-- A row of the contact tree, under its parent row.  A picture is the file it was read
from. -/
structure Row where
  parent : Option Nat
  pixbuf : Option CString
  nickname : Option (List UInt8)
  ip : Option CString
  mac : Option CString
  uri : Option Nat
deriving DecidableEq

/-- The lists of the users and of the categories, and the rows of the tree in the order
they were appended. -/
structure Lists where
  ulist : List UserEntry
  clist : List CategoryEntry
  tree : List Row
deriving DecidableEq

/-- `new_user_entry`, as the callback calls it. -/
def newUserEntry (msg : EntryMsg) : UserEntry where
  nickname := str32 msg.nickname
  username := str32 msg.username
  hostname := str32 msg.hostname
  avatar := str64 msg.avatar
  ipaddr := str32 msg.ip
  macaddr := str32 msg.macaddr
  signature := noSignature
  category := str32 msg.category
  encoding := gbk
  pos := none
  categoryEntry := none

/-- `new_category_entry`. -/
def newCategoryEntry (name : CString) : CategoryEntry where
  name := name
  count := 0
  pos := none

/-! ### The tree -/

/-- `gtk_tree_store_append`: the new row and the tree with it. -/
def gtkTreeStoreAppend (tree : List Row) (parent : Option Nat) : Nat × List Row :=
  (tree.length, tree ++ [⟨parent, none, none, none, none, none⟩])

/-- `gtk_tree_store_set` of the cells that `set` overwrites. -/
def gtkTreeStoreSet (tree : List Row) (iter : Nat) (set : Row → Row) : List Row :=
  tree.modify iter set

/-- The title of a category: `"%s[%d]"`. -/
def title (entry : CategoryEntry) : List UInt8 :=
  entry.name.val ++ ascii "[" ++ decimal entry.count ++ ascii "]"

/-- A row for the category `entry` at the top of the tree. -/
def newCategoryRow (s : Lists) (category : Nat) (entry : CategoryEntry) : Nat × Lists :=
  let (iter, tree) := gtkTreeStoreAppend s.tree none
  (iter, { s with
    tree := gtkTreeStoreSet tree iter fun row =>
      { row with pixbuf := none, nickname := some entry.name.val }
    clist := s.clist.modify category fun entry => { entry with pos := some iter } })

/-- `add_category_to_treeview`. -/
def addCategoryToTreeview (s : Lists) (category : Nat) : Option Lists := do
  let entry ← s.clist[category]?
  let (_, s) := newCategoryRow s category entry
  some s

/-- `add_user_to_treeview`. -/
def addUserToTreeview (s : Lists) (user : Nat) : Option Lists := do
  let userEntry ← s.ulist[user]?
  let category ← userEntry.categoryEntry
  let catEntry ← s.clist[category]?
  let (citer, s) :=
    match catEntry.pos with
    | none => newCategoryRow s category catEntry
    | some citer => (citer, s)
  let tree := gtkTreeStoreSet s.tree citer fun row => { row with nickname := some (title catEntry) }
  let (uiter, tree) := gtkTreeStoreAppend tree (some citer)
  let tree := gtkTreeStoreSet tree uiter fun row => { row with
    pixbuf := some userEntry.avatar
    nickname := some userEntry.nickname.val
    ip := some userEntry.ipaddr
    mac := some userEntry.macaddr
    uri := some user }
  some { s with tree, ulist := s.ulist.modify user fun entry => { entry with pos := some uiter } }

/-! ### The rows -/

/-- A row appended and then set. -/
theorem append_set (tree : List Row) (row : Row) (set : Row → Row) :
  gtkTreeStoreSet (tree ++ [row]) tree.length set = tree ++ [set row]
  := modify_concat set tree row

theorem newCategoryRow_eq (s : Lists) (category : Nat) (entry : CategoryEntry) :
  newCategoryRow s category entry = (s.tree.length, { s with
    tree := s.tree ++ [⟨none, none, some entry.name.val, none, none, none⟩]
    clist := s.clist.modify category fun entry => { entry with pos := some s.tree.length } })
  := by
  simp only [newCategoryRow, gtkTreeStoreAppend, append_set]

/-- The row of a user. -/
def userRow (user : Nat) (userEntry : UserEntry) (citer : Nat) : Row where
  parent := some citer
  pixbuf := some userEntry.avatar
  nickname := some userEntry.nickname.val
  ip := some userEntry.ipaddr
  mac := some userEntry.macaddr
  uri := some user

/-- A user gets a row under that of its category, which gets a row first if it has none. -/
theorem addUserToTreeview_cases {s s' : Lists} {user : Nat}
    (h : addUserToTreeview s user = some s') :
  ∃ (userEntry : UserEntry) (category : Nat) (entry : CategoryEntry) (citer : Nat) (s₁ : Lists),
    s.ulist[user]? = some userEntry ∧ userEntry.categoryEntry = some category
      ∧ s.clist[category]? = some entry
      ∧ (entry.pos = none ∧ newCategoryRow s category entry = (citer, s₁)
        ∨ entry.pos = some citer ∧ s₁ = s)
      ∧ s' = { s₁ with
        tree := gtkTreeStoreSet s₁.tree citer (fun row =>
          { row with nickname := some (title entry) }) ++ [userRow user userEntry citer]
        ulist := s₁.ulist.modify user fun entry => { entry with pos := some s₁.tree.length } }
  := by
  simp only [addUserToTreeview, Option.bind_eq_bind, Option.bind_eq_some_iff] at h
  obtain ⟨userEntry, huser, category, hcategory, entry, hentry, h⟩ := h
  have hrow : ∀ citer s₁, (entry.pos = none ∧ newCategoryRow s category entry = (citer, s₁)
      ∨ entry.pos = some citer ∧ s₁ = s) → s' = { s₁ with
        tree := gtkTreeStoreSet s₁.tree citer (fun row =>
          { row with nickname := some (title entry) }) ++ [userRow user userEntry citer]
        ulist := s₁.ulist.modify user fun entry => { entry with pos := some s₁.tree.length } } := by
    rintro citer s₁ (⟨hpos, hnew⟩ | ⟨hpos, rfl⟩)
    · rw [hpos] at h
      simp only [hnew, gtkTreeStoreAppend, append_set, Option.some.injEq] at h
      rw [← h]
      simp [gtkTreeStoreSet, userRow]
    · rw [hpos] at h
      simp only [gtkTreeStoreAppend, append_set, Option.some.injEq] at h
      rw [← h]
      simp [gtkTreeStoreSet, userRow]
  cases hpos : entry.pos with
  | none =>
    refine ⟨userEntry, category, entry, _, _, huser, hcategory, hentry, .inl ⟨hpos, rfl⟩, ?_⟩
    apply hrow _ _ (.inl ⟨hpos, rfl⟩)
  | some citer =>
    refine ⟨userEntry, category, entry, citer, s, huser, hcategory, hentry, .inr ⟨hpos, rfl⟩, ?_⟩
    apply hrow _ _ (.inr ⟨hpos, rfl⟩)

/-! ### The callback -/

/-- A hash table with string keys: how it answers to the operations. -/
abbrev Index (σ : Type) := Machine σ (MapOp CString Nat Unit) (Int × Option Nat)

/-- The entry a search found, or `none` for a negative return code. -/
def found (answer : Int × Option Nat) : Option Nat := if answer.1 < 0 then none else answer.2

/-- The contacts and the two tables. -/
structure State (σ τ : Type) where
  contacts : Lists
  users : σ
  categories : τ

/-- `entry->count += n`. -/
def addCount (s : Lists) (category : Nat) (n : Int) : Option Lists := do
  let entry ← s.clist[category]?
  if -2 ^ 31 ≤ entry.count + n ∧ entry.count + n < 2 ^ 31 then
    some { s with clist := s.clist.set category { entry with count := entry.count + n } }
  else none

section

variable {σ τ : Type} (users : Index σ) (categories : Index τ)

/-- The category of a message: the entry `category_find_entry` finds, or a new one. -/
def findOrNewCategory (s : State σ τ) (category : CString) : Option (Nat × State σ τ) := do
  let (answer, table) ← categories.step s.categories (.find category)
  if answer.1 < 0 then
    let entry := s.contacts.clist.length
    -- `category_insert_entry`
    let (_, table) ← categories.step table (.insert category entry ())
    let contacts := { s.contacts with
      clist := s.contacts.clist ++ [newCategoryEntry category] }
    let contacts ← addCategoryToTreeview contacts entry
    some (entry, { s with contacts, categories := table })
  else
    let entry ← answer.2
    some (entry, { s with categories := table })

/-- `user_add_entry`.  The return code of `hash_insert` is `0` whenever it returns. -/
def userAddEntry (s : State σ τ) (entry : UserEntry) : Option (State σ τ) := do
  let (_, table) ← users.step s.users (.insert entry.ipaddr s.contacts.ulist.length ())
  some { s with
    contacts := { s.contacts with ulist := s.contacts.ulist ++ [entry] }
    users := table }

/-- The branch of a new user. -/
def newUser (s : State σ τ) (msg : EntryMsg) (newCat : Nat) : Option (State σ τ) := do
  let userEntry := { newUserEntry msg with categoryEntry := some newCat, pos := none }
  let contacts ← addCount s.contacts newCat 1
  let user := contacts.ulist.length
  let s ← userAddEntry users { s with contacts } userEntry
  let contacts ← addUserToTreeview s.contacts user
  some { s with contacts }

/-- The user at `user` leaves its category for `newCat`. -/
def changeCategory (s : Lists) (user : Nat) (userEntry : UserEntry) (newCat : Nat) :
    Option Lists := do
  let oldCat ← userEntry.categoryEntry
  let s ← addCount s oldCat (-1)
  let s ← addCount s newCat 1
  some { s with ulist := s.ulist.set user { userEntry with categoryEntry := some newCat } }

/-- The branch of a user in the list. -/
def knownUser (s : State σ τ) (msg : EntryMsg) (newCat user : Nat) : Option (State σ τ) := do
  let userEntry ← s.contacts.ulist[user]?
  let contacts ← (if str32 msg.category ≠ userEntry.category then
    changeCategory s.contacts user userEntry newCat else some s.contacts)
  let contacts ← addUserToTreeview contacts user
  some { s with contacts }

/-- `on_entry_callback`. -/
def onEntryCallback (s : State σ τ) (msg : EntryMsg) : Option (Int × State σ τ) := do
  let (newCat, s) ← findOrNewCategory categories s (str32 msg.category)
  let (answer, table) ← users.step s.users (.find (str32 msg.ip))
  let s := { s with users := table }
  -- `user_find_entry`
  match found answer with
  | none =>
      let s ← newUser users s msg newCat
      some (0, s)
  | some user =>
      let s ← knownUser s msg newCat user
      some (0, s)

/-- The machine that handles entry messages. -/
def machine : Machine (State σ τ) EntryMsg Int where
  step := onEntryCallback users categories

end

/-- No contacts, and the tables given. -/
def start {σ τ : Type} (users : σ) (categories : τ) : State σ τ where
  contacts := { ulist := [], clist := [], tree := [] }
  users := users
  categories := categories

/-- `"a"`. -/
def charA : CArray 32 := ⟨[97], by simp, by simp⟩

/-- `"b"`. -/
def charB : CArray 32 := ⟨[98], by simp, by simp⟩

/-- An entry message with the address `ip` and the category `category`. -/
def sample (ip category : CArray 32) : EntryMsg where
  ip := ip
  macaddr := charA
  username := charA
  hostname := charA
  nickname := ip
  avatar := ⟨[46], by simp, by simp⟩
  category := category

end Contacts

end IFreeChat
