import IFreeChat.Ifc.Book

/-!
# The contact tree

The tree shows each category under its name and count, and under it its users.  A message of
a user that is not in the list adds its row where it belongs and sets the title of its
category.  A message of a user in the list appends one more row for it, and removes none.

So the tree mirrors the lists exactly when every message came from a user that
`user_find_entry` did not find (`run_mirrors_iff`).
-/

open Basis

namespace IFreeChat

namespace Contacts

/-- The places of `none` in a list. -/
def nonePlaces {α : Type} (l : List (Option α)) : List Nat :=
  (List.range l.length).filter fun i => (l[i]?.join).isNone

theorem nonePlaces_append {α : Type} (l : List (Option α)) (x : Option α) :
  nonePlaces (l ++ [x]) = nonePlaces l ++ if x.isNone then [l.length] else []
  := by
  rw [nonePlaces, List.length_append, List.length_singleton, List.range_succ, List.filter_append,
    nonePlaces]
  congr 1
  · apply List.filter_congr
    intro i hi
    rw [List.getElem?_append_left (List.mem_range.mp hi)]
  · cases x <;> simp

/-- The rows of the categories: those of no user. -/
def categoryRows (tree : List Row) : List Nat := nonePlaces (tree.map Row.uri)

/-- The tree has one row for each user entry, under the row of its category, with its
nickname and address, and one row for each category entry, with its name and count. -/
structure Mirrors (s : Lists) : Prop where
  users : (s.tree.filterMap Row.uri).Perm (List.range s.ulist.length)
  user_row : ∀ (row : Row) (user : Nat), row ∈ s.tree → row.uri = some user →
    ∃ (userEntry : UserEntry) (category : Nat) (entry : CategoryEntry) (pos : Nat),
      s.ulist[user]? = some userEntry ∧ userEntry.categoryEntry = some category
        ∧ s.clist[category]? = some entry ∧ entry.pos = some pos ∧ row.parent = some pos
        ∧ row.nickname = some userEntry.nickname.val ∧ row.ip = some userEntry.ipaddr
  categories : (s.clist.filterMap CategoryEntry.pos).Perm (categoryRows s.tree)
  category_row : ∀ entry ∈ s.clist, ∃ (pos : Nat) (row : Row), entry.pos = some pos
    ∧ s.tree[pos]? = some row ∧ row.parent = none ∧ row.nickname = some (title entry)

section

variable {σ τ : Type} (users : Index σ) (categories : Index τ)

/-- `user_find_entry` does not find the user of the message. -/
def NotListed (s : State σ τ) (msg : EntryMsg) : Prop :=
  ∃ answer t, users.step s.users (.find (str32 msg.ip)) = some (answer, t)
    ∧ found answer = none

end

/-! ### The rows -/

/-- A title that is set changes no user. -/
theorem setTitle_uris (tree : List Row) (iter : Nat) (name : List UInt8) :
  (gtkTreeStoreSet tree iter fun row => { row with nickname := some name }).map Row.uri
    = tree.map Row.uri
  := by
  apply map_modify
  intro row
  rfl

theorem setTitle_users (tree : List Row) (iter : Nat) (name : List UInt8) :
  (gtkTreeStoreSet tree iter fun row => { row with nickname := some name }).filterMap Row.uri
    = tree.filterMap Row.uri
  := by
  have := congrArg (List.filterMap id) (setTitle_uris tree iter name)
  simpa [List.filterMap_map] using this

/-- `add_user_to_treeview` appends one user row, for the user. -/
theorem addUserToTreeview_uris {s s' : Lists} {user : Nat}
    (h : addUserToTreeview s user = some s') :
  s'.tree.filterMap Row.uri = s.tree.filterMap Row.uri ++ [user]
  := by
  obtain ⟨userEntry, category, entry, citer, s₁, -, -, -, hrow, rfl⟩ := addUserToTreeview_cases h
  have hsame : s₁.tree.filterMap Row.uri = s.tree.filterMap Row.uri := by
    rcases hrow with ⟨-, hnew⟩ | ⟨-, rfl⟩
    · rw [newCategoryRow_eq, Prod.mk.injEq] at hnew
      rw [← hnew.2]
      simp
    · rfl
  simp only [List.filterMap_append]
  rw [setTitle_users, hsame]
  rfl

theorem addCategoryToTreeview_uris {s s' : Lists} {category : Nat}
    (h : addCategoryToTreeview s category = some s') :
  s'.tree.filterMap Row.uri = s.tree.filterMap Row.uri
  := by
  simp only [addCategoryToTreeview, newCategoryRow_eq, Option.bind_eq_bind,
    Option.bind_eq_some_iff] at h
  obtain ⟨entry, -, h⟩ := h
  cases h
  simp

theorem addCount_tree {s s' : Lists} {category : Nat} {n : Int}
    (h : addCount s category n = some s') :
  s'.tree = s.tree
  := by
  simp only [addCount, Option.bind_eq_bind, Option.bind_eq_some_iff] at h
  obtain ⟨entry, -, h⟩ := h
  split at h
  · cases h
    rfl
  · cases h

section

variable {σ τ : Type} {users : Index σ} {categories : Index τ}

theorem findOrNewCategory_uris {s s' : State σ τ} {category : CString} {newCat : Nat}
    (h : findOrNewCategory categories s category = some (newCat, s')) :
  s'.contacts.tree.filterMap Row.uri = s.contacts.tree.filterMap Row.uri
  := by
  simp only [findOrNewCategory, Option.bind_eq_bind, Option.bind_eq_some_iff] at h
  obtain ⟨⟨answer, table⟩, -, h⟩ := h
  split at h
  · simp only [Option.bind_eq_some_iff] at h
    obtain ⟨_, -, contacts, htree, h⟩ := h
    cases h
    apply addCategoryToTreeview_uris htree
  · simp only [Option.bind_eq_some_iff] at h
    obtain ⟨entry, -, h⟩ := h
    cases h
    rfl

/-- Every message appends one user row. -/
theorem callback_uris {s s' : State σ τ} {msg : EntryMsg} {ret : Int}
    (h : onEntryCallback users categories s msg = some (ret, s')) :
  (s'.contacts.tree.filterMap Row.uri).length = (s.contacts.tree.filterMap Row.uri).length + 1
  := by
  simp only [onEntryCallback, Option.bind_eq_bind, Option.bind_eq_some_iff] at h
  obtain ⟨⟨newCat, s₁⟩, hcategory, _, -, h⟩ := h
  rw [← findOrNewCategory_uris hcategory]
  split at h
  · simp only [newUser, userAddEntry, Option.bind_eq_bind, Option.bind_eq_some_iff] at h
    obtain ⟨_, ⟨_, hcount, _, ⟨_, -, hadd⟩, _, htree, hs⟩, h⟩ := h
    cases h
    cases hs
    cases hadd
    rw [addUserToTreeview_uris htree, List.length_append, ← addCount_tree hcount]
    rfl
  · simp only [knownUser, Option.bind_eq_bind, Option.bind_eq_some_iff] at h
    obtain ⟨_, ⟨userEntry, -, contacts, hmove, _, htree, hs⟩, h⟩ := h
    cases h
    cases hs
    have hsame : contacts.tree = s₁.contacts.tree := by
      split at hmove
      · simp only [changeCategory, Option.bind_eq_bind, Option.bind_eq_some_iff] at hmove
        obtain ⟨_, -, _, hminus, _, hplus, hmove⟩ := hmove
        cases hmove
        exact (addCount_tree hplus).trans (addCount_tree hminus)
      · cases hmove
        rfl
    rw [addUserToTreeview_uris htree, List.length_append, hsame]
    rfl

/-- A message adds a user entry exactly when its user is not found. -/
theorem callback_ulist {s s' : State σ τ} {msg : EntryMsg} {ret : Int}
    (h : onEntryCallback users categories s msg = some (ret, s')) :
  (NotListed users s msg ∧ s'.contacts.ulist.length = s.contacts.ulist.length + 1)
    ∨ (¬ NotListed users s msg ∧ s'.contacts.ulist.length = s.contacts.ulist.length)
  := by
  obtain ⟨_, _, answer, table, -, hfind, henter, -⟩ := callback_book h
  have hmembers : ∀ s : Lists, s.book.members.length = s.ulist.length := by
    intro s
    simp [Lists.book]
  rw [← hmembers, ← hmembers]
  obtain ⟨-, ⟨hnone, hmembers'⟩ | ⟨user, member, huser, -, hmembers'⟩⟩ := Book.enter_cases henter
  · left
    use ⟨answer, table, hfind, hnone⟩
    rw [hmembers', List.length_append]
    rfl
  · right
    constructor
    · rintro ⟨answer', table', hfind', hnone⟩
      rw [hfind, Option.some.injEq, Prod.mk.injEq] at hfind'
      rw [← hfind'.1, huser] at hnone
      cases hnone
    · rw [hmembers']
      split
      · rfl
      · rw [List.length_set]

end

/-! ### A tree that shows the lists -/

/-- The tree has the rows of the user entries and of the category entries in their order,
and shows the count of every category that is not stale. -/
structure Shows (s : Lists) (stale : Nat → Prop) : Prop where
  users : s.tree.filterMap Row.uri = List.range s.ulist.length
  user_row : ∀ (row : Row) (user : Nat), row ∈ s.tree → row.uri = some user →
    ∃ (userEntry : UserEntry) (category : Nat) (entry : CategoryEntry) (pos : Nat),
      s.ulist[user]? = some userEntry ∧ userEntry.categoryEntry = some category
        ∧ s.clist[category]? = some entry ∧ entry.pos = some pos ∧ row.parent = some pos
        ∧ row.nickname = some userEntry.nickname.val ∧ row.ip = some userEntry.ipaddr
  categories : s.clist.map CategoryEntry.pos = (categoryRows s.tree).map some
  category_row : ∀ (i : Nat) (entry : CategoryEntry), s.clist[i]? = some entry →
    ∃ (pos : Nat) (row : Row), entry.pos = some pos ∧ s.tree[pos]? = some row
      ∧ row.parent = none ∧ row.uri = none ∧ (¬ stale i → row.nickname = some (title entry))

theorem Shows.mirrors {s : Lists} (h : Shows s fun _ => False) :
  Mirrors s
  := by
  refine ⟨h.users ▸ List.Perm.refl _, h.user_row, ?_, ?_⟩
  · have := congrArg (List.filterMap id) h.categories
    simp only [List.filterMap_map, Function.comp_def, id, List.filterMap_some] at this
    rw [← this]
  · intro entry hentry
    obtain ⟨i, hi⟩ := List.getElem?_of_mem hentry
    obtain ⟨pos, row, hpos, hrow, hparent, -, htitle⟩ := h.category_row i entry hi
    exact ⟨pos, row, hpos, hrow, hparent, htitle not_false⟩

/-- Two categories have different rows. -/
theorem Shows.pos_inj {s : Lists} {stale : Nat → Prop} (h : Shows s stale) {i j : Nat}
    {entry entry' : CategoryEntry} (hi : s.clist[i]? = some entry)
    (hj : s.clist[j]? = some entry') (hpos : entry.pos = entry'.pos) :
  i = j
  := by
  have hnodup : (s.clist.map CategoryEntry.pos).Nodup := by
    rw [h.categories]
    apply List.Nodup.map (Option.some_injective Nat)
    apply List.nodup_range.filter
  obtain ⟨hilt, hi⟩ := List.getElem?_eq_some_iff.mp hi
  obtain ⟨hjlt, hj⟩ := List.getElem?_eq_some_iff.mp hj
  have hilt' : i < (s.clist.map CategoryEntry.pos).length := by
    rwa [List.length_map]
  have hjlt' : j < (s.clist.map CategoryEntry.pos).length := by
    rwa [List.length_map]
  apply (@List.Nodup.getElem_inj_iff _ _ hnodup i hilt' j hjlt').mp
  simp [hi, hj, hpos]

theorem categoryRows_append (tree : List Row) (row : Row) :
  categoryRows (tree ++ [row])
    = categoryRows tree ++ if row.uri.isNone then [tree.length] else []
  := by
  rw [categoryRows, List.map_append, List.map_singleton, nonePlaces_append, List.length_map]
  rfl

/-- A new category has a row that does not show its count. -/
theorem Shows.newCategory {s s' : Lists} {name : CString} (h : Shows s fun _ => False)
    (hs' : addCategoryToTreeview { s with clist := s.clist ++ [newCategoryEntry name] }
      s.clist.length = some s') :
  Shows s' fun i => i = s.clist.length
  := by
  obtain ⟨husers, huserRow, hcategories, hcategoryRow⟩ := h
  simp only [addCategoryToTreeview, newCategoryRow_eq, modify_concat, Option.bind_eq_bind,
    Option.bind_eq_some_iff] at hs'
  obtain ⟨entry, hentry, hs'⟩ := hs'
  simp only [List.getElem?_concat_length, Option.some.injEq] at hentry
  subst hentry
  cases hs'
  refine ⟨?_, ?_, ?_, ?_⟩
  · simp [husers]
  · intro row user hrow huri
    rcases List.mem_append.mp hrow with hrow | hrow
    · obtain ⟨userEntry, category, entry, pos, huser, hcategory, hentry, hrest⟩ :=
        huserRow row user hrow huri
      refine ⟨userEntry, category, entry, pos, huser, hcategory, ?_, hrest⟩
      rw [List.getElem?_append_left (List.getElem?_eq_some_iff.mp hentry).1, hentry]
    · rw [List.mem_singleton] at hrow
      subst hrow
      cases huri
  · rw [List.map_append, hcategories, categoryRows_append]
    simp
  · intro i entry hi
    rcases Nat.lt_or_ge i s.clist.length with hlt | hge
    · rw [List.getElem?_append_left hlt] at hi
      obtain ⟨pos, row, hpos, hrow, hparent, huri, htitle⟩ := hcategoryRow i entry hi
      refine ⟨pos, row, hpos, ?_, hparent, huri, fun _ => htitle not_false⟩
      rw [List.getElem?_append_left (List.getElem?_eq_some_iff.mp hrow).1, hrow]
    · rw [List.getElem?_append_right hge] at hi
      obtain ⟨hlt, hget⟩ := List.getElem?_eq_some_iff.mp hi
      rw [List.length_singleton] at hlt
      obtain rfl : entry = { newCategoryEntry name with pos := some s.tree.length } := by
        simpa [show i - s.clist.length = 0 by omega] using hget.symm
      refine ⟨s.tree.length, _, rfl, List.getElem?_concat_length, rfl, rfl, ?_⟩
      intro hne
      cases hne (by omega)

/-- A count that changes is no longer shown. -/
theorem Shows.addCount {s s' : Lists} {stale : Nat → Prop} {category : Nat} {n : Int}
    (h : Shows s stale) (hstale : ∀ i, stale i → i = category)
    (hs' : addCount s category n = some s') :
  Shows s' fun i => i = category
  := by
  obtain ⟨husers, huserRow, hcategories, hcategoryRow⟩ := h
  simp only [Contacts.addCount, Option.bind_eq_bind, Option.bind_eq_some_iff,
    Option.ite_none_right_eq_some] at hs'
  obtain ⟨entry, hentry, -, hs'⟩ := hs'
  cases hs'
  have hlt := (List.getElem?_eq_some_iff.mp hentry).1
  refine ⟨husers, ?_, ?_, ?_⟩
  · intro row user hrow huri
    obtain ⟨userEntry, i, entry', pos, huser, hi, hentry', hpos, hrest⟩ :=
      huserRow row user hrow huri
    by_cases heq : i = category
    · subst heq
      rw [hentry] at hentry'
      cases hentry'
      exact ⟨userEntry, i, { entry with count := entry.count + n }, pos, huser, hi,
        List.getElem?_set_self hlt, hpos, hrest⟩
    · refine ⟨userEntry, i, entry', pos, huser, hi, ?_, hpos, hrest⟩
      rw [List.getElem?_set_ne (Ne.symm heq), hentry']
  · rw [← hcategories]
    apply map_set_of_eq hentry
    rfl
  · intro i entry' hi
    by_cases heq : i = category
    · subst heq
      rw [List.getElem?_set_self hlt, Option.some.injEq] at hi
      subst hi
      obtain ⟨pos, row, hpos, hrow, hparent, huri, -⟩ := hcategoryRow i entry hentry
      refine ⟨pos, row, hpos, hrow, hparent, huri, ?_⟩
      intro hne
      cases hne rfl
    · rw [List.getElem?_set_ne (Ne.symm heq)] at hi
      obtain ⟨pos, row, hpos, hrow, hparent, huri, htitle⟩ := hcategoryRow i entry' hi
      refine ⟨pos, row, hpos, hrow, hparent, huri, ?_⟩
      intro _
      apply htitle
      intro hi
      apply heq (hstale i hi)

/-- A new user has a row under its category, which shows its count. -/
theorem Shows.newUser {s s' : Lists} {category : Nat} {userEntry : UserEntry}
    (h : Shows s fun i => i = category) (hcategory : userEntry.categoryEntry = some category)
    (hs' : addUserToTreeview { s with ulist := s.ulist ++ [userEntry] } s.ulist.length
      = some s') :
  Shows s' fun _ => False
  := by
  obtain ⟨userEntry', category', entry, citer', s₁, huser, hcategory', hentry, hpos, rfl⟩ :=
    addUserToTreeview_cases hs'
  rw [List.getElem?_concat_length, Option.some.injEq] at huser
  subst huser
  rw [hcategory, Option.some.injEq] at hcategory'
  subst hcategory'
  obtain ⟨citer, crow, hciter, hcrow, hcparent, hcuri, -⟩ := h.category_row category entry hentry
  rw [hciter] at hpos
  obtain ⟨rfl, rfl⟩ : citer = citer' ∧ s₁ = { s with ulist := s.ulist ++ [userEntry] } := by
    simpa using hpos
  simp only [modify_concat]
  refine ⟨?_, ?_, ?_, ?_⟩
  · rw [List.filterMap_append, setTitle_users, h.users]
    simp [userRow, List.range_succ]
  · intro row user hrow huri
    rcases List.mem_append.mp hrow with hrow | hrow
    · obtain ⟨i, hi⟩ := List.getElem?_of_mem hrow
      rw [gtkTreeStoreSet, List.getElem?_modify, Option.map_eq_map,
        Option.map_eq_some_iff] at hi
      obtain ⟨row', hrow', rfl⟩ := hi
      by_cases heq : citer = i
      · subst heq
        rw [hcrow] at hrow'
        cases hrow'
        simp [hcuri] at huri
      · simp only [if_neg heq] at huri ⊢
        obtain ⟨userEntry', i, entry', pos, huser, hrest⟩ :=
          h.user_row row' user (List.mem_of_getElem? hrow') huri
        refine ⟨userEntry', i, entry', pos, ?_, hrest⟩
        rw [List.getElem?_append_left (List.getElem?_eq_some_iff.mp huser).1, huser]
    · rw [List.mem_singleton] at hrow
      subst hrow
      cases huri
      exact ⟨_, category, entry, citer, List.getElem?_concat_length, hcategory, hentry, hciter,
        rfl, rfl, rfl⟩
  · rw [h.categories, categoryRows_append, categoryRows, categoryRows,
      setTitle_uris]
    simp [userRow]
  · intro i entry' hi
    obtain ⟨pos, row, hpos, hrow, hparent, huri, htitle⟩ := h.category_row i entry' hi
    have hlt := (List.getElem?_eq_some_iff.mp hrow).1
    by_cases heq : i = category
    · subst heq
      rw [hentry] at hi
      cases hi
      rw [hciter] at hpos
      cases hpos
      refine ⟨citer, { row with nickname := some (title entry) }, hciter, ?_, hparent, huri,
        fun _ => rfl⟩
      rw [List.getElem?_append_left (by simpa [gtkTreeStoreSet] using hlt), gtkTreeStoreSet,
        List.getElem?_modify, hrow]
      simp
    · refine ⟨pos, row, hpos, ?_, hparent, huri, fun _ => htitle heq⟩
      have hne : citer ≠ pos := by
        rintro rfl
        apply heq
        apply h.pos_inj hi hentry
        rw [hpos, hciter]
      rw [List.getElem?_append_left (by simpa [gtkTreeStoreSet] using hlt), gtkTreeStoreSet,
        List.getElem?_modify, hrow]
      simp [hne]

/-! ### Runs -/

section

variable {σ τ : Type} {users : Index σ} {categories : Index τ}

/-- Before a message is entered, its category has a row. -/
theorem Shows.findOrNewCategory {s s' : State σ τ} {category : CString} {newCat : Nat}
    (h : Shows s.contacts fun _ => False)
    (hs' : findOrNewCategory categories s category = some (newCat, s')) :
  s'.users = s.users ∧ Shows s'.contacts fun i => i = newCat
  := by
  simp only [Contacts.findOrNewCategory, Option.bind_eq_bind, Option.bind_eq_some_iff] at hs'
  obtain ⟨⟨answer, table⟩, -, hs'⟩ := hs'
  split at hs'
  · simp only [Option.bind_eq_some_iff] at hs'
    obtain ⟨_, -, contacts, htree, hs'⟩ := hs'
    cases hs'
    use rfl
    apply h.newCategory htree
  · simp only [Option.bind_eq_some_iff] at hs'
    obtain ⟨entry, -, hs'⟩ := hs'
    cases hs'
    use rfl
    obtain ⟨husers, huserRow, hcategories, hcategoryRow⟩ := h
    refine ⟨husers, huserRow, hcategories, ?_⟩
    intro i entry' hi
    obtain ⟨pos, row, hpos, hrow, hparent, huri, htitle⟩ := hcategoryRow i entry' hi
    exact ⟨pos, row, hpos, hrow, hparent, huri, fun _ => htitle not_false⟩

/-- A message of a user that is not found keeps the tree. -/
theorem Shows.step {s s' : State σ τ} {msg : EntryMsg} {ret : Int}
    (h : Shows s.contacts fun _ => False) (hnew : NotListed users s msg)
    (hs' : onEntryCallback users categories s msg = some (ret, s')) :
  Shows s'.contacts fun _ => False
  := by
  obtain ⟨answer, table, hfind, hnone⟩ := hnew
  simp only [onEntryCallback, Option.bind_eq_bind, Option.bind_eq_some_iff] at hs'
  obtain ⟨⟨newCat, s₁⟩, hcategory, ⟨answer', table'⟩, hfind', hs'⟩ := hs'
  obtain ⟨husers, hshows⟩ := h.findOrNewCategory hcategory
  rw [husers, hfind, Option.some.injEq, Prod.mk.injEq] at hfind'
  obtain ⟨rfl, rfl⟩ := hfind'
  simp only [hnone, Contacts.newUser, userAddEntry, Option.bind_eq_bind,
    Option.bind_eq_some_iff] at hs'
  obtain ⟨_, ⟨contacts, hcount, _, ⟨_, -, hadd⟩, _, htree, hs⟩, hs'⟩ := hs'
  cases hs'
  cases hs
  cases hadd
  apply (hshows.addCount (fun _ hi => hi) hcount).newUser _ htree
  rfl

/-- Every message appends one user row. -/
theorem run_uris {s t : State σ τ} {msgs : List EntryMsg} {rets : List Int}
    (hrun : (machine users categories).run s msgs = some (rets, t)) :
  (t.contacts.tree.filterMap Row.uri).length
    = (s.contacts.tree.filterMap Row.uri).length + msgs.length
  := by
  induction msgs generalizing s rets with
  | nil =>
    cases hrun
    rfl
  | cons msg msgs ih =>
    obtain ⟨ret, s', rets', hstep, hrest, -⟩ := (machine users categories).run_cons_iff.mp hrun
    rw [ih hrest, callback_uris hstep, List.length_cons]
    omega

/-- There are as many new users as messages only if no message is of a user found. -/
theorem run_ulist {s t : State σ τ} {msgs : List EntryMsg} {rets : List Int}
    (hrun : (machine users categories).run s msgs = some (rets, t)) :
  t.contacts.ulist.length ≤ s.contacts.ulist.length + msgs.length
    ∧ (t.contacts.ulist.length = s.contacts.ulist.length + msgs.length →
        (machine users categories).Meets (NotListed users) s msgs)
  := by
  induction msgs generalizing s rets with
  | nil =>
    cases hrun
    exact ⟨Nat.le_refl _, fun _ => trivial⟩
  | cons msg msgs ih =>
    obtain ⟨ret, s', rets', hstep, hrest, -⟩ := (machine users categories).run_cons_iff.mp hrun
    obtain ⟨hle, hmeets⟩ := ih hrest
    rw [List.length_cons]
    obtain ⟨hnew, hlength⟩ | ⟨-, hlength⟩ := callback_ulist hstep
    · constructor
      · omega
      · intro heq
        use hnew
        intro ret' s'' hstep'
        rw [hstep, Option.some.injEq, Prod.mk.injEq] at hstep'
        obtain ⟨-, rfl⟩ := hstep'
        apply hmeets
        omega
    · constructor
      · omega
      · intro heq
        omega

theorem start_shows (u : σ) (t : τ) :
  Shows (start u t).contacts fun _ => False
  where
  users := rfl
  user_row := by simp [start]
  categories := rfl
  category_row := by simp [start]

/-- The tree mirrors the lists exactly when every message was of a user that was not
found. -/
theorem run_mirrors_iff {u : σ} {t : τ} {msgs : List EntryMsg} {rets : List Int} {s : State σ τ}
    (hrun : (machine users categories).run (start u t) msgs = some (rets, s)) :
  Mirrors s.contacts ↔ (machine users categories).Meets (NotListed users) (start u t) msgs
  := by
  constructor
  · intro hmirrors
    apply (run_ulist hrun).2
    have hlength := hmirrors.users.length_eq
    rw [run_uris hrun, List.length_range] at hlength
    rw [← hlength]
    rfl
  · intro hmeets
    apply Shows.mirrors
    apply (machine users categories).run_invariant _ (start_shows u t) hmeets hrun
    intro s msg ret s' hs hnew hstep
    apply hs.step hnew hstep

theorem run_mirrors_twoUsers :
  ∃ rets s, (machine finiteMap finiteMap).run (start (fun _ => none) fun _ => none)
      [sample charA charA, sample charB charA] = some (rets, s)
    ∧ Mirrors s.contacts
  := by
  refine ⟨_, _, rfl, ?_⟩
  refine (@run_mirrors_iff _ _ finiteMap finiteMap (fun _ => none) (fun _ => none)
    [sample charA charA, sample charB charA] _ _ rfl).mpr ⟨⟨_, _, rfl, rfl⟩, ?_⟩
  intro ret s hstep
  cases hstep
  exact ⟨⟨_, _, rfl, rfl⟩, fun _ _ _ => trivial⟩

/-- A user that announces itself again has two rows. -/
theorem again_not_mirrored :
  ∃ rets s, (machine finiteMap finiteMap).run (start (fun _ => none) fun _ => none)
      [sample charA charA, sample charA charA] = some (rets, s)
    ∧ ¬ Mirrors s.contacts
  := by
  refine ⟨_, _, rfl, ?_⟩
  intro h
  have := h.users.length_eq
  revert this
  decide

end

end Contacts

end IFreeChat
