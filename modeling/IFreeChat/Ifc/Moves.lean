import IFreeChat.Ifc.Book

/-!
# The category of a user

A user in the list comes to the category of a message when it differs from the category the
user was created with, which never changes.  So a user points to the category of its latest
message other than that of its first one, or to that of its first one when all its messages
have it (`Inv`).

With tables that are maps, every user points to the category of its latest message exactly
when no user comes back to its first category (`run_latest_iff`).
-/

open Basis

namespace IFreeChat

namespace Contacts

namespace Moves

/-- The tables are maps. -/
abbrev Table := CString → Option Nat

/-- The machine that handles entry messages with two maps. -/
def machine : Machine (State Table Table) EntryMsg Int :=
  Contacts.machine finiteMap finiteMap

/-- The categories of the messages of a user, in order. -/
def heard (ip : CString) (msgs : List EntryMsg) : List CString :=
  (msgs.filter fun msg => str32 msg.ip = ip).map fun msg => str32 msg.category

/-- The user found under an address points to the category of its latest message. -/
def Latest (s : State Table Table) (msgs : List EntryMsg) : Prop :=
  ∀ ip category, (heard ip msgs).getLast? = some category →
    ∃ user userEntry i entry,
      (@finiteMap _ _ Unit _).step s.users (.find ip) = some ((0, some user), s.users)
      ∧ s.contacts.ulist[user]? = some userEntry ∧ userEntry.categoryEntry = some i
      ∧ s.contacts.clist[i]? = some entry ∧ entry.name = category

/-- A user whose latest category is its first one never had another. -/
def NoReturn (msgs : List EntryMsg) : Prop :=
  ∀ ip, (heard ip msgs).getLast? = (heard ip msgs).head? →
    ∀ category ∈ heard ip msgs, (heard ip msgs).head? = some category

/-- The category a user with these categories points to: the latest one other than the
first, or the first one. -/
def settled : List CString → Option CString
  | [] => none
  | first :: rest => some (((rest.filter fun category => category ≠ first).getLast?).getD first)

theorem heard_append (ip : CString) (msgs : List EntryMsg) (msg : EntryMsg) :
  heard ip (msgs ++ [msg])
    = heard ip msgs ++ if str32 msg.ip = ip then [str32 msg.category] else []
  := by
  rw [heard, heard, List.filter_append, List.map_append]
  congr 1
  by_cases h : str32 msg.ip = ip
  · simp [h]
  · simp [h]

/-- One more category is where a user then is, unless it is its first one. -/
theorem settled_append (first : CString) (rest : List CString) (category : CString) :
  settled (first :: rest ++ [category])
    = if category = first then settled (first :: rest) else some category
  := by
  simp only [settled, List.cons_append, List.filter_append]
  by_cases h : category = first
  · simp [h]
  · simp [h]

/-- A user is at its latest category exactly when it did not come back to its first one. -/
theorem settled_eq_getLast_iff (categories : List CString) :
  settled categories = categories.getLast?
    ↔ (categories.getLast? = categories.head? →
        ∀ category ∈ categories, categories.head? = some category)
  := by
  cases categories with
  | nil => simp [settled]
  | cons first rest =>
    rw [settled, List.head?_cons]
    constructor
    · intro h hlast category hmem
      rw [hlast] at h
      by_contra hne
      have hmem' : category ∈ rest.filter fun category => category ≠ first := by
        rcases List.mem_cons.mp hmem with rfl | hmem
        · cases hne rfl
        · rw [List.mem_filter]
          use hmem
          simp only [ne_eq, decide_eq_true_eq]
          rintro rfl
          apply hne rfl
      obtain ⟨last, hlast'⟩ : ∃ last, (rest.filter fun category => category ≠ first).getLast?
          = some last := ⟨_, List.getLast?_eq_some_getLast (List.ne_nil_of_mem hmem')⟩
      rw [hlast', Option.getD_some, Option.some.injEq] at h
      have := List.mem_of_getLast? hlast'
      simp [h] at this
    · intro h
      by_cases hlast : (first :: rest).getLast? = some first
      · have hall := h hlast
        have hnil : (rest.filter fun category => category ≠ first) = [] := by
          rw [List.filter_eq_nil_iff]
          intro category hmem
          have := hall category (List.mem_cons_of_mem first hmem)
          simp only [Option.some.injEq] at this
          simp [this]
        rw [hnil, hlast]
        rfl
      · obtain rfl | ⟨init, last, rfl⟩ := rest.eq_nil_or_concat
        · simp at hlast
        · rw [List.concat_eq_append, ← List.cons_append, List.getLast?_concat] at hlast ⊢
          have hne : last ≠ first := by
            rintro rfl
            apply hlast rfl
          simp [List.filter_append, hne]

/-! ### The book and the messages -/

/-- A user was created with its first category, and points to the one its messages have
settled on. -/
def AtSettled (names : List CString) (msgs : List EntryMsg) (member : Member) : Prop :=
  (heard member.ipaddr msgs).head? = some member.category
    ∧ ∃ (i : Nat) (name : CString), member.entry = some i ∧ names[i]? = some name
        ∧ settled (heard member.ipaddr msgs) = some name

/-- The users of the book are those heard of, and all are at their settled category. -/
structure Inv (msgs : List EntryMsg) (s : State Table Table) : Prop where
  indexed : Indexed id id s
  known : ∀ ip, ip ∈ s.contacts.book.members.map Member.ipaddr ↔ heard ip msgs ≠ []
  members : ∀ member ∈ s.contacts.book.members, AtSettled s.contacts.book.names msgs member

theorem start_inv :
  Inv [] (start (fun _ => none) fun _ => none)
  where
  indexed := ⟨indexes_nil, indexes_nil⟩
  known := by simp [start, Lists.book, heard]
  members := by simp [start, Lists.book]

/-- The category of a message has its name. -/
theorem newCat_name {table : Table} {b b' : Book} {category : CString}
    (h : Indexes table b.names)
    (hnames : b'.names = b.names ++ (if table category = none then [category] else [])) :
  b'.names[(table category).getD b.counts.length]? = some category
  := by
  rw [hnames]
  cases hlook : table category with
  | none =>
    have hlength : b.counts.length = b.names.length := by
      simp [Book.names]
    simp [hlength]
  | some newCat =>
    have hcat := (h category newCat).mp hlook
    rw [if_neg (by simp), List.append_nil, Option.getD_some, hcat]

/-- A message of another user leaves a user at its category. -/
theorem AtSettled.other {names more : List CString} {msgs : List EntryMsg} {member : Member}
    (h : AtSettled names msgs member) {msg : EntryMsg} (hne : str32 msg.ip ≠ member.ipaddr) :
  AtSettled (names ++ more) (msgs ++ [msg]) member
  := by
  obtain ⟨hhead, i, name, hentry, hi, hsettled⟩ := h
  rw [AtSettled, heard_append, if_neg hne, List.append_nil]
  use hhead, i, name, hentry
  rw [List.getElem?_append_left (List.getElem?_eq_some_iff.mp hi).1]
  use hi

/-- A user in the list comes to the category of its message when it is not the one it was
created with. -/
theorem AtSettled.move {names more : List CString} {msgs : List EntryMsg} {member : Member}
    (h : AtSettled names msgs member) {msg : EntryMsg} (hip : str32 msg.ip = member.ipaddr)
    {newCat : Nat} (hname : (names ++ more)[newCat]? = some (str32 msg.category)) :
  AtSettled (names ++ more) (msgs ++ [msg])
    (if str32 msg.category = member.category then member
      else { member with entry := some newCat })
  := by
  obtain ⟨hhead, i, name, hentry, hi, hsettled⟩ := h
  cases hheard : heard member.ipaddr msgs with
  | nil => simp [hheard] at hhead
  | cons first rest =>
    rw [hheard] at hhead hsettled
    cases hhead
    have hlt := (List.getElem?_eq_some_iff.mp hi).1
    have happend : heard member.ipaddr (msgs ++ [msg])
        = member.category :: rest ++ [str32 msg.category] := by
      rw [heard_append, if_pos hip, hheard]
    by_cases hcategory : str32 msg.category = member.category
    · rw [if_pos hcategory, AtSettled, happend, settled_append, if_pos hcategory]
      use rfl, i, name, hentry
      rw [List.getElem?_append_left hlt]
      use hi
    · rw [if_neg hcategory]
      change (heard member.ipaddr _).head? = _ ∧ _
      rw [happend]
      use rfl, newCat, str32 msg.category, rfl, hname
      rw [settled_append, if_neg hcategory]

/-- A message of a new user. -/
theorem new_inv {msgs : List EntryMsg} {s s' : State Table Table} {msg : EntryMsg}
    {newCat : Nat} {more : List CString} (h : Inv msgs s) (hindexed : Indexed id id s')
    (hnone : s.users (str32 msg.ip) = none)
    (hnames : s'.contacts.book.names = s.contacts.book.names ++ more)
    (hname : s'.contacts.book.names[newCat]? = some (str32 msg.category))
    (hmembers : s'.contacts.book.members
      = s.contacts.book.members ++ [⟨str32 msg.ip, str32 msg.category, some newCat⟩]) :
  Inv (msgs ++ [msg]) s'
  := by
  have hnew : str32 msg.ip ∉ s.contacts.book.members.map Member.ipaddr :=
    h.indexed.users.eq_none_iff.mp hnone
  have hheard : heard (str32 msg.ip) msgs = [] := by
    by_contra hne
    apply hnew ((h.known _).mpr hne)
  refine ⟨hindexed, ?_, ?_⟩
  · intro ip
    rw [hmembers, List.map_append, List.mem_append, h.known ip, heard_append]
    by_cases hip : str32 msg.ip = ip
    · simp [hip]
    · simp [hip, Ne.symm hip]
  · intro member hmember
    rw [hmembers, List.mem_append, List.mem_singleton] at hmember
    obtain hmember | rfl := hmember
    · rw [hnames]
      apply (h.members member hmember).other
      intro hip
      apply hnew
      rw [hip]
      apply List.mem_map_of_mem hmember
    · rw [AtSettled, heard_append, hheard, if_pos rfl]
      exact ⟨rfl, newCat, _, rfl, hname, rfl⟩

/-- A message of a user in the list. -/
theorem known_inv {msgs : List EntryMsg} {s s' : State Table Table} {msg : EntryMsg}
    {newCat user : Nat} {more : List CString} {member : Member} (h : Inv msgs s)
    (hindexed : Indexed id id s') (huser : s.users (str32 msg.ip) = some user)
    (hmember : s.contacts.book.members[user]? = some member)
    (hnames : s'.contacts.book.names = s.contacts.book.names ++ more)
    (hname : s'.contacts.book.names[newCat]? = some (str32 msg.category))
    (hmembers : s'.contacts.book.members = if str32 msg.category = member.category
      then s.contacts.book.members
      else s.contacts.book.members.set user { member with entry := some newCat }) :
  Inv (msgs ++ [msg]) s'
  := by
  have hip : str32 msg.ip = member.ipaddr := by
    have := (h.indexed.users (str32 msg.ip) user).mp huser
    rw [List.getElem?_map, hmember, Option.map_some, Option.some.injEq] at this
    apply this.symm
  have hips : s'.contacts.book.members.map Member.ipaddr
      = s.contacts.book.members.map Member.ipaddr := by
    rw [hmembers]
    split
    · rfl
    · apply Book.map_ipaddr_set hmember
  have hat : s'.contacts.book.members[user]? = some (if str32 msg.category = member.category
      then member else { member with entry := some newCat }) := by
    rw [hmembers]
    split
    · apply hmember
    · simp [(List.getElem?_eq_some_iff.mp hmember).1]
  refine ⟨hindexed, ?_, ?_⟩
  · intro ip
    rw [hips, h.known ip, heard_append]
    by_cases heq : str32 msg.ip = ip
    · have hmem : heard ip msgs ≠ [] := by
        rw [← h.known, ← heq, hip]
        apply List.mem_map_of_mem (List.mem_of_getElem? hmember)
      simp [hmem]
    · simp [heq]
  · intro member' hmember'
    rw [hnames] at hname ⊢
    obtain ⟨j, hj⟩ := List.getElem?_of_mem hmember'
    by_cases hjuser : j = user
    · subst hjuser
      rw [hat] at hj
      cases hj
      apply (h.members member (List.mem_of_getElem? hmember)).move hip hname
    · have hold : member' ∈ s.contacts.book.members := by
        rw [hmembers] at hj
        split at hj
        · apply List.mem_of_getElem? hj
        · rw [List.getElem?_set_ne (Ne.symm hjuser)] at hj
          apply List.mem_of_getElem? hj
      apply (h.members member' hold).other
      intro heq
      apply hjuser
      have hj' : (s'.contacts.book.members.map Member.ipaddr)[j]? = some (str32 msg.ip) := by
        rw [List.getElem?_map, hj, heq]
        rfl
      rw [hips] at hj'
      have := (h.indexed.users (str32 msg.ip) j).mpr hj'
      rw [id, huser] at this
      cases this
      rfl

theorem step_inv {msgs : List EntryMsg} {s s' : State Table Table} {msg : EntryMsg} {ret : Int}
    (h : Inv msgs s) (hstep : machine.step s msg = some (ret, s')) :
  Inv (msgs ++ [msg]) s'
  := by
  obtain ⟨henter, hindexed⟩ := h.indexed.step (fun _ _ => rfl) (fun _ _ => rfl) hstep
  have hindexed' : Indexed id id s' := by
    apply hindexed
    · intro _ val o t hinsert
      cases hinsert
      rfl
    · intro _ val o t hinsert
      cases hinsert
      rfl
  simp only [id] at henter
  obtain ⟨hnames, hmembers⟩ := Book.enter_cases henter
  have hname := newCat_name h.indexed.categories hnames
  obtain ⟨hnone, hmembers⟩ | ⟨user, member, huser, hmember, hmembers⟩ := hmembers
  · apply new_inv h hindexed' hnone hnames hname hmembers
  · apply known_inv h hindexed' huser hmember hnames hname hmembers

/-- A user heard of is found, and points to its settled category. -/
theorem Inv.found {msgs : List EntryMsg} {s : State Table Table} (h : Inv msgs s) {ip : CString}
    (hip : heard ip msgs ≠ []) :
  ∃ user userEntry i entry, s.users ip = some user
    ∧ s.contacts.ulist[user]? = some userEntry ∧ userEntry.categoryEntry = some i
    ∧ s.contacts.clist[i]? = some entry ∧ settled (heard ip msgs) = some entry.name
  := by
  obtain ⟨user, hfind⟩ : ∃ user, s.users ip = some user := by
    apply Option.ne_none_iff_exists'.mp
    intro hnone
    apply h.indexed.users.eq_none_iff.mp hnone ((h.known ip).mpr hip)
  have huser := (h.indexed.users ip user).mp hfind
  simp only [Lists.book, List.map_map, List.getElem?_map, Option.map_eq_some_iff,
    Function.comp_apply] at huser
  obtain ⟨userEntry, huserEntry, rfl⟩ := huser
  obtain ⟨-, i, name, hentry, hi, hsettled⟩ := h.members
    ⟨userEntry.ipaddr, userEntry.category, userEntry.categoryEntry⟩
    (List.mem_map_of_mem (List.mem_of_getElem? huserEntry))
  simp only [Lists.book, Book.names, List.map_map, List.getElem?_map, Option.map_eq_some_iff,
    Function.comp_apply] at hi
  obtain ⟨entry, hi, rfl⟩ := hi
  exact ⟨user, userEntry, i, entry, hfind, huserEntry, hentry, hi, hsettled⟩

/-- Every user found points to the category of its latest message exactly when no user came
back to its first category. -/
theorem run_latest_iff {msgs : List EntryMsg} {rets : List Int} {s : State Table Table}
    (hrun : machine.run (start (fun _ => none) fun _ => none) msgs = some (rets, s)) :
  Latest s msgs ↔ NoReturn msgs
  := by
  have hinv : Inv ([] ++ msgs) s := machine.run_history
    (fun _ _ _ _ _ hs hstep => step_inv hs hstep) start_inv hrun
  rw [List.nil_append] at hinv
  apply forall_congr'
  intro ip
  rw [← settled_eq_getLast_iff]
  by_cases hip : heard ip msgs = []
  · simp [hip, settled]
  obtain ⟨user, userEntry, i, entry, hfind, huser, hentry, hi, hsettled⟩ := hinv.found hip
  rw [hsettled]
  constructor
  · intro hlatest
    have hlast := List.getLast?_eq_some_getLast hip
    obtain ⟨user', userEntry', i', entry', hfind', huser', hentry', hi', hname⟩ :=
      hlatest _ hlast
    simp only [finiteMap, hfind, mapAnswer, Option.some.injEq, Prod.mk.injEq, true_and,
      and_true] at hfind'
    subst hfind'
    rw [huser] at huser'
    cases huser'
    rw [hentry] at hentry'
    cases hentry'
    rw [hi] at hi'
    cases hi'
    rw [hlast, hname]
  · intro hlast category hcategory
    refine ⟨user, userEntry, i, entry, ?_, huser, hentry, hi, ?_⟩
    · simp only [finiteMap, hfind, mapAnswer]
    · rw [hcategory, Option.some.injEq] at hlast
      apply hlast

/-- A user that announces itself twice with one category, and then with another. -/
theorem run_latest_aab :
  ∃ rets s, machine.run (start (fun _ => none) fun _ => none)
      [sample charA charA, sample charA charA, sample charA charB] = some (rets, s)
    ∧ Latest s [sample charA charA, sample charA charA, sample charA charB]
  := by
  refine ⟨_, _, rfl, ?_⟩
  apply (run_latest_iff rfl).mpr
  intro ip
  by_cases hip : str32 charA = ip
  · subst hip
    decide
  · simp [heard, sample, hip]

/-- A user that goes from one category to another and back is left in the other. -/
theorem back_not_latest :
  ∃ rets s, machine.run (start (fun _ => none) fun _ => none)
      [sample charA charA, sample charA charB, sample charA charA] = some (rets, s)
    ∧ ¬ Latest s [sample charA charA, sample charA charB, sample charA charA]
  := by
  refine ⟨_, _, rfl, ?_⟩
  intro h
  obtain ⟨user, userEntry, i, entry, hfind, huser, hentry, hi, hname⟩ :=
    h (str32 charA) (str32 charA) rfl
  cases hfind
  cases huser
  cases hentry
  cases hi
  revert hname
  decide

end Moves

end Contacts

end IFreeChat
