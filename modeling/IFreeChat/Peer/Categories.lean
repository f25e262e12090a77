import IFreeChat.Basis.Tally
import IFreeChat.Peer.UserBlock

/-!
# Categories of users

The users of the list are shown in a tree, under their categories.  `add_user_to_treeview` looks
for the category of a new user by its name, makes one if there is none, and shows its count in
its title (`addUserToTreeview_eq_ok`).

An entry of a user that is listed changes the category of the user and nothing of the tree.  So
the titles have the numbers of the users of each category, and each category of a user is there
once, exactly as long as no entry changes the category of its user (`run_totals_iff`).
-/

open Basis

namespace IFreeChat

namespace Peer

/-! ### The tree -/

/-- The row of a user under its category, with the place of the user in the list. -/
structure UserRow where
  text : List UInt8
  ip : List UInt8
  mac : List UInt8
  uri : Nat
deriving DecidableEq

/-- `category_t`, with the text of its row in the tree and the rows under it. -/
structure Category where
  name : List UInt8
  count : Nat
  text : List UInt8
  rows : List UserRow
deriving DecidableEq

/-- `%s[%d]`. -/
def title (name : List UInt8) (count : Nat) : List UInt8 :=
  name ++ ascii "[" ++ numeral 10 count ++ ascii "]"

/-- `new_category`, and its row. -/
def newCategory (name : List UInt8) : Except Fault Category :=
  if 128 ≤ name.length then .error .writeOutside
  else .ok { name, count := 0, text := name, rows := [] }

/-- The category with one user more, whose row is put under its own. -/
def Category.addUser (cat : Category) (user : User) (uri : Nat) : Except Fault Category :=
  let count := cat.count + 1
  let text := title cat.name count
  if 128 ≤ text.length then .error .writeOutside
  else .ok { cat with
    count, text
    rows := cat.rows ++ [{ text := user.nickname, ip := user.ipaddr, mac := user.macaddr, uri }] }

/-- `add_user_to_treeview`, where `uri` is the place of the user: its category is the first one
of its name, or a new one behind all others. -/
def addUserToTreeview (user : User) (uri : Nat) : (clist : List Category) →
    Except Fault (List Category)
  | [] => do
      let cat ← newCategory user.category
      let cat ← cat.addUser user uri
      .ok [cat]
  | cat :: clist =>
      if cat.name = user.category then do
        let cat ← cat.addUser user uri
        .ok (cat :: clist)
      else do
        let clist ← addUserToTreeview user uri clist
        .ok (cat :: clist)

/-! ### Entries -/

/-- The users and the categories of an `ifreechat_t`. -/
structure Roster where
  ulist : List User
  clist : List Category

/-- `on_buddy_entry`, with the tree. -/
def Roster.onBuddyEntry (glib : Glib) (cfg : Config) (time : UInt64) (beyond : List UInt8)
    (s : Roster) (msg : Msg) : Except Fault (Roster × Option (List UInt8)) :=
  if (ascii "1_iptux").isPrefixOf msg.version then .ok (s, none)
  else do
    let user ← entryUser glib beyond msg
    match updateUser s.ulist user with
    | some ulist => .ok ({ s with ulist }, none)
    | none => do
        let clist ← addUserToTreeview user s.ulist.length s.clist
        .ok (⟨s.ulist ++ [user], clist⟩, entryReply cfg time msg)

/-- What `process_message` does to them. -/
def Roster.processEntry (glib : Glib) (cfg : Config) (s : Roster) (e : Blocks.Receipt) :
    Except Fault (Roster × Option (List UInt8)) := do
  let msg ← e.msg
  if isEntryCommand msg.command then s.onBuddyEntry glib cfg e.time e.beyond msg
  else .ok (s, none)

/-- The machine that receives datagrams. -/
def Roster.machine (glib : Glib) (cfg : Config) :
    Machine Roster Blocks.Receipt (Option (List UInt8)) where
  step s e :=
    match s.processEntry glib cfg e with
    | .error _ => none
    | .ok (s, reply) => some (reply, s)

/-- It does to the user list what `onBuddyEntry` does. -/
theorem Roster.processEntry_ulist {glib : Glib} {cfg : Config} {s s' : Roster}
    {e : Blocks.Receipt} {reply : Option (List UInt8)}
    (h : s.processEntry glib cfg e = .ok (s', reply)) :
  Peer.processEntry glib cfg e.time e.beyond s.ulist e.ip.text e.port e.datagram
    = .ok (s'.ulist, reply)
  := by
  obtain ⟨msg, hmsg, h⟩ := bind_eq_ok.mp h
  refine bind_eq_ok.mpr ⟨msg, hmsg, ?_⟩
  split at h
  · rename_i hcommand
    rw [if_pos hcommand, Peer.onBuddyEntry]
    rw [Roster.onBuddyEntry] at h
    split at h
    · rename_i hversion
      cases h
      rw [if_pos hversion]
    · rename_i hversion
      obtain ⟨user, huser, h⟩ := bind_eq_ok.mp h
      rw [if_neg hversion, huser]
      cases hupdate : updateUser s.ulist user with
      | some ulist =>
        rw [hupdate] at h
        cases h
        change (match updateUser s.ulist user with | some _ => _ | none => _) = _
        rw [hupdate]
      | none =>
        rw [hupdate] at h
        obtain ⟨clist, -, h⟩ := bind_eq_ok.mp h
        cases h
        change (match updateUser s.ulist user with | some _ => _ | none => _) = _
        rw [hupdate]
  · rename_i hcommand
    cases h
    rw [if_neg hcommand]

/-- A datagram without an entry changes nothing; an entry brings its user up to date, or puts it
behind all others and under its category. -/
theorem Roster.processEntry_eq_ok {glib : Glib} {cfg : Config} {s s' : Roster}
    {e : Blocks.Receipt} {reply : Option (List UInt8)}
    (h : s.processEntry glib cfg e = .ok (s', reply)) :
  (e.entry glib = none ∧ s' = s)
    ∨ ∃ user, e.entry glib = some user
      ∧ ((∃ ulist, updateUser s.ulist user = some ulist ∧ s' = ⟨ulist, s.clist⟩)
        ∨ (updateUser s.ulist user = none ∧ ∃ clist,
          addUserToTreeview user s.ulist.length s.clist = .ok clist
            ∧ s' = ⟨s.ulist ++ [user], clist⟩))
  := by
  obtain ⟨msg, hmsg, h⟩ := bind_eq_ok.mp h
  rw [Blocks.Receipt.entry, hmsg]
  split at h
  · rename_i hcommand
    rw [Roster.onBuddyEntry] at h
    split at h
    · rename_i hversion
      cases h
      left
      simp [hversion]
    · rename_i hversion
      obtain ⟨user, huser, h⟩ := bind_eq_ok.mp h
      right
      refine ⟨user, ?_, ?_⟩
      · simp [hcommand, hversion, huser, Except.toOption]
      · cases hupdate : updateUser s.ulist user with
        | some ulist =>
          rw [hupdate] at h
          cases h
          left
          exact ⟨ulist, rfl, rfl⟩
        | none =>
          rw [hupdate] at h
          obtain ⟨clist, hclist, h⟩ := bind_eq_ok.mp h
          cases h
          right
          exact ⟨rfl, clist, hclist, rfl⟩
  · rename_i hcommand
    cases h
    left
    simp [hcommand]

/-! ### Titles and totals -/

/-- The name and the count of a category. -/
def Category.key (cat : Category) : List UInt8 × Nat := (cat.name, cat.count)

/-- The title of the category has its count. -/
def Category.Titled (cat : Category) : Prop := cat.text = title cat.name cat.count

theorem title_inj {name : List UInt8} {m n : Nat} :
  title name m = title name n ↔ m = n
  := by
  constructor
  · intro h
    rw [title, title, List.append_left_inj, List.append_right_inj] at h
    have hm := readDigits_numeral (by decide : 2 ≤ 10) (by decide) m
      (by simp : ∀ c ∈ ([] : List UInt8).head?, digitValue 10 c = none)
    rw [h, readDigits_numeral (by decide) (by decide) n (by simp)] at hm
    exact hm.symm
  · rintro rfl
    rfl

theorem Category.addUser_eq_ok {cat cat' : Category} {user : User} {uri : Nat}
    (h : cat.addUser user uri = .ok cat') :
  cat'.key = (cat.name, cat.count + 1) ∧ cat'.Titled
  := by
  rw [Category.addUser] at h
  split at h
  · cases h
  · cases h
    exact ⟨rfl, rfl⟩

/-- A user that is added is counted by its category, and all titles have the counts. -/
theorem addUserToTreeview_eq_ok {user : User} {uri : Nat} {clist clist' : List Category}
    (h : addUserToTreeview user uri clist = .ok clist') :
  clist'.map Category.key = addOne user.category (clist.map Category.key)
    ∧ ((∀ cat ∈ clist, cat.Titled) → ∀ cat ∈ clist', cat.Titled)
  := by
  induction clist generalizing clist' with
  | nil =>
    obtain ⟨cat, hnew, h⟩ := bind_eq_ok.mp h
    obtain ⟨cat', hadd, h⟩ := bind_eq_ok.mp h
    cases h
    obtain ⟨hkey, htitled⟩ := Category.addUser_eq_ok hadd
    rw [newCategory] at hnew
    split at hnew
    · cases hnew
    · cases hnew
      constructor
      · rw [List.map_singleton, hkey]
        rfl
      · intro _
        exact List.forall_mem_singleton.mpr htitled
  | cons cat clist ih =>
    rw [addUserToTreeview] at h
    rw [List.map_cons, Category.key, addOne, List.forall_mem_cons]
    split at h
    · rename_i hname
      obtain ⟨cat', hadd, h⟩ := bind_eq_ok.mp h
      cases h
      obtain ⟨hkey, htitled⟩ := Category.addUser_eq_ok hadd
      rw [if_pos hname, List.map_cons, hkey, List.forall_mem_cons]
      exact ⟨rfl, fun hall => ⟨htitled, hall.2⟩⟩
    · rename_i hname
      obtain ⟨clist₁, hrest, h⟩ := bind_eq_ok.mp h
      cases h
      obtain ⟨hkeys, htitled⟩ := ih hrest
      rw [if_neg hname, List.map_cons, hkeys, List.forall_mem_cons]
      exact ⟨rfl, fun hall => ⟨hall.1, htitled hall.2⟩⟩

/-- No two categories have the same name, and every title has the count of its category. -/
structure Roster.Titled (s : Roster) : Prop where
  nodup : (s.clist.map Category.name).Nodup
  titled : ∀ cat ∈ s.clist, cat.Titled

/-- The title of every category has the number of its users, and the category of every user is
there once. -/
def Roster.Totals (s : Roster) : Prop :=
  (∀ cat ∈ s.clist,
      cat.text = title cat.name (s.ulist.countP fun user => user.category = cat.name))
    ∧ ∀ user ∈ s.ulist, (s.clist.countP fun cat => cat.name = user.category) = 1

instance (s : Roster) : Decidable s.Totals := inferInstanceAs (Decidable (_ ∧ _))

theorem Roster.map_key_fst (s : Roster) :
  (s.clist.map Category.key).map Prod.fst = s.clist.map Category.name
  := by
  rw [List.map_map]
  rfl

/-- The titles have the numbers of the users exactly when the counts tally the categories of the
users. -/
theorem Roster.totals_iff {s : Roster} (h : s.Titled) :
  s.Totals ↔ Tallies (s.clist.map Category.key) (s.ulist.map User.category)
  := by
  constructor
  · rintro ⟨htexts, honce⟩
    constructor
    · intro p hp
      obtain ⟨cat, hcat, rfl⟩ := List.mem_map.mp hp
      have htext := htexts cat hcat
      rw [h.titled cat hcat, title_inj] at htext
      rw [count_map]
      exact htext
    · intro name hmem
      obtain ⟨user, huser, rfl⟩ := List.mem_map.mp hmem
      have hpos : 0 < s.clist.countP fun cat => cat.name = user.category := by
        rw [honce user huser]
        decide
      obtain ⟨cat, hcat, hname⟩ := List.countP_pos_iff.mp hpos
      rw [Roster.map_key_fst]
      exact List.mem_map.mpr ⟨cat, hcat, of_decide_eq_true hname⟩
  · intro htally
    constructor
    · intro cat hcat
      have hcounts := htally.counts cat.key (List.mem_map_of_mem hcat)
      rw [count_map] at hcounts
      rw [h.titled cat hcat, title_inj]
      exact hcounts
    · intro user huser
      have hmem := htally.complete user.category (List.mem_map_of_mem huser)
      rw [Roster.map_key_fst] at hmem
      apply countP_of_nodup h.nodup hmem

/-! ### Steps and runs -/

/-- An entry of a user that is listed has the category that the user has. -/
def CategoryKept (glib : Glib) (s : Roster) (e : Blocks.Receipt) : Prop :=
  ∀ user ∈ e.entry glib, ∀ old ∈ s.ulist.find? (fun u => u.ipaddr = user.ipaddr),
    user.category = old.category

instance (glib : Glib) (s : Roster) (e : Blocks.Receipt) : Decidable (CategoryKept glib s e) :=
  inferInstanceAs (Decidable (∀ user ∈ e.entry glib,
    ∀ old ∈ s.ulist.find? (fun u => u.ipaddr = user.ipaddr), user.category = old.category))

/-- An update replaces the category of the first user of its address. -/
theorem updateUser_category {ulist ulist' : List User} {user : User}
    (h : updateUser ulist user = some ulist') :
  ∃ i old, ulist.find? (fun u => u.ipaddr = user.ipaddr) = some old ∧ ulist[i]? = some old
    ∧ ulist'.map User.category = (ulist.map User.category).set i user.category
  := by
  obtain ⟨i, hi, rfl⟩ := Option.map_eq_some_iff.mp h
  obtain ⟨hlt, hip, hfirst⟩ := List.findIdx?_eq_some_iff_getElem.mp hi
  refine ⟨i, ulist[i], ?_, List.getElem?_eq_getElem hlt, ?_⟩
  · apply List.find?_eq_some_iff_getElem.mpr
    refine ⟨hip, i, hlt, rfl, fun j hj => ?_⟩
    simpa using hfirst j hj
  · apply List.ext_getElem
    · simp
    · intro j _ _
      simp only [List.getElem_map, List.getElem_modify, List.getElem_set]
      split
      · rfl
      · rfl

/-- An event keeps the titles in order, and the totals exactly when it keeps the category of its
user. -/
theorem step_totals {glib : Glib} {cfg : Config} {s s' : Roster} {e : Blocks.Receipt}
    {reply : Option (List UInt8)} (hs : s.Titled)
    (hstep : (Roster.machine glib cfg).step s e = some (reply, s')) :
  s'.Titled ∧ (s.Totals → (s'.Totals ↔ CategoryKept glib s e))
  := by
  have h : s.processEntry glib cfg e = .ok (s', reply) := by
    simp only [Roster.machine] at hstep
    split at hstep
    · cases hstep
    · cases hstep
      assumption
  rcases Roster.processEntry_eq_ok h with ⟨hentry, rfl⟩ | ⟨user, hentry, hupdate | hnew⟩
  · refine ⟨hs, fun htotals => iff_of_true htotals ?_⟩
    rw [CategoryKept, hentry]
    rintro user ⟨⟩
  · obtain ⟨ulist, hupdate, rfl⟩ := hupdate
    have hs' : Roster.Titled ⟨ulist, s.clist⟩ := ⟨hs.nodup, hs.titled⟩
    refine ⟨hs', fun htotals => ?_⟩
    obtain ⟨i, old, hfind, hi, hcategories⟩ := updateUser_category hupdate
    have htally := (Roster.totals_iff hs).mp htotals
    have hold : (s.ulist.map User.category)[i]? = some old.category := by
      rw [List.getElem?_map, hi, Option.map_some]
    rw [Roster.totals_iff hs', hcategories, htally.set_iff hold, CategoryKept, hentry]
    simp only [Option.mem_some_iff, forall_eq', hfind]
  · obtain ⟨hupdate, clist, hadd, rfl⟩ := hnew
    obtain ⟨hkeys, htitled⟩ := addUserToTreeview_eq_ok hadd
    have hnames : (s.clist.map Category.key).map Prod.fst = s.clist.map Category.name :=
      s.map_key_fst
    have hs' : Roster.Titled ⟨s.ulist ++ [user], clist⟩ := by
      constructor
      · rw [← Roster.map_key_fst, hkeys]
        apply nodup_addOne
        rw [hnames]
        exact hs.nodup
      · apply htitled hs.titled
    refine ⟨hs', fun htotals => iff_of_true ?_ ?_⟩
    · rw [Roster.totals_iff hs', hkeys, List.map_append, List.map_singleton]
      apply ((Roster.totals_iff hs).mp htotals).addOne
      rw [hnames]
      exact hs.nodup
    · rw [CategoryKept, hentry]
      rintro _ ⟨⟩ old hold
      exfalso
      apply updateUser_eq_none.mp hupdate
      have hip := List.find?_some hold
      rw [decide_eq_true_eq] at hip
      exact List.mem_map.mpr ⟨old, List.mem_of_find?_eq_some hold, hip⟩

/-- Along any datagrams, the title of every category has the number of its users, and the category
of every user is there once, exactly when no entry changes the category of a user that is
listed. -/
theorem run_totals_iff {glib : Glib} {cfg : Config} {es : List Blocks.Receipt}
    {os : List (Option (List UInt8))} {t : Roster}
    (hrun : (Roster.machine glib cfg).run ⟨[], []⟩ es = some (os, t)) :
  (∀ es' os s, es' <+: es → (Roster.machine glib cfg).run ⟨[], []⟩ es' = some (os, s) → s.Totals)
    ↔ (Roster.machine glib cfg).Meets (CategoryKept glib) ⟨[], []⟩ es
  := by
  have hstart : Roster.Titled ⟨[], []⟩ ∧ Roster.Totals ⟨[], []⟩ := by
    refine ⟨⟨List.nodup_nil, ?_⟩, ?_, ?_⟩
    · rintro cat ⟨⟩
    · rintro cat ⟨⟩
    · rintro user ⟨⟩
  have hiff : ∀ (s : Roster) (e : Blocks.Receipt), s.Titled ∧ s.Totals →
      ((Roster.machine glib cfg).step s e).isSome →
        ((∀ o s', (Roster.machine glib cfg).step s e = some (o, s') → s'.Totals)
          ↔ CategoryKept glib s e) := by
    rintro s e ⟨hs, htotals⟩ hsome
    obtain ⟨⟨o, s'⟩, hstep⟩ := Option.isSome_iff_exists.mp hsome
    rw [← (step_totals hs hstep).2 htotals]
    constructor
    · intro hall
      apply hall o s' hstep
    · intro h o' s'' hstep'
      rw [hstep] at hstep'
      cases hstep'
      exact h
  have hkeeps : ∀ (s : Roster) (e : Blocks.Receipt) o s', s.Titled ∧ s.Totals →
      ((Roster.machine glib cfg).step s e).isSome → CategoryKept glib s e →
        (Roster.machine glib cfg).step s e = some (o, s') → s'.Titled ∧ s'.Totals := by
    rintro s e o s' ⟨hs, htotals⟩ - hkept hstep
    obtain ⟨hs', hiff⟩ := step_totals hs hstep
    exact ⟨hs', (hiff htotals).mpr hkept⟩
  rw [← (Roster.machine glib cfg).meets_iff_reached hstart.2]
  apply (Roster.machine glib cfg).meets_iff hiff hkeeps hstart
    ((Roster.machine glib cfg).meets_of_run hrun)

/-- An entry of a user of this category. -/
def categoryEntry (category : List UInt8) : Blocks.Receipt :=
  { Blocks.sampleEntry [] with
    datagram := ascii "1_lbt4_1#128#m#0#0#0:1:u:h:257:n" ++ 0 :: category }

/-- A user that stays in its category. -/
theorem run_totals_same :
  ∃ os s, (Roster.machine asciiGlib configA).run ⟨[], []⟩
      [categoryEntry (ascii "g"), categoryEntry (ascii "g")] = some (os, s)
    ∧ s.Totals
  := by
  have hsome : ((Roster.machine asciiGlib configA).run ⟨[], []⟩
      [categoryEntry (ascii "g"), categoryEntry (ascii "g")]).isSome = true := by decide +kernel
  have hmeets : (Roster.machine asciiGlib configA).Meets (CategoryKept asciiGlib) ⟨[], []⟩
      [categoryEntry (ascii "g"), categoryEntry (ascii "g")] := by decide +kernel
  obtain ⟨⟨os, s⟩, hrun⟩ := Option.isSome_iff_exists.mp hsome
  use os, s, hrun
  apply (run_totals_iff hrun).mpr hmeets _ os s List.prefix_rfl hrun

/-- A user that goes from one category to another is still counted by the old one, and the new one
is not there. -/
theorem changed_category_miscounted :
  ∃ os s, (Roster.machine asciiGlib configA).run ⟨[], []⟩
      [categoryEntry (ascii "g"), categoryEntry (ascii "k")] = some (os, s)
    ∧ s.ulist.map User.category = [ascii "k"]
    ∧ s.clist.map Category.text = [title (ascii "g") 1] ∧ ¬ s.Totals
  := by
  have hany : ((Roster.machine asciiGlib configA).run ⟨[], []⟩
      [categoryEntry (ascii "g"), categoryEntry (ascii "k")]).any (fun r =>
        decide (r.2.ulist.map User.category = [ascii "k"]
          ∧ r.2.clist.map Category.text = [title (ascii "g") 1] ∧ ¬ r.2.Totals)) = true := by
    decide +kernel
  obtain ⟨⟨os, s⟩, hrun, hs⟩ := (Option.any_eq_true _ _).mp hany
  use os, s, hrun
  apply of_decide_eq_true hs

end Peer

end IFreeChat
