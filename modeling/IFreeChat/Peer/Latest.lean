import IFreeChat.Basis.Latest
import IFreeChat.Peer.UserBlock

/-!
# What a user list comes to

As long as the strings of entries fit their blocks, the user list has one user for each address
that an entry came from, with the strings of the last entry from there (`run_latest`).  So it does
not matter how the entries of different senders are interleaved: two peers that got the same last
entries list the same users (`runs_agree`).
-/

open Basis

namespace IFreeChat

namespace Peer

namespace Blocks

variable {glib : Glib}

/-- An update puts the user in the place of the one of its address, where signatures and encodings
are those of entries. -/
theorem updateUser_eq_putItem {users : List User} {user : User}
    (hsignature : ∀ u ∈ users, u.signature = user.signature ∧ u.encoding = user.encoding) :
  (updateUser users user).getD (users ++ [user]) = putItem User.ipaddr users user
  := by
  rw [updateUser, putItem]
  cases hfound : users.findIdx? fun u => u.ipaddr = user.ipaddr with
  | none => rfl
  | some i =>
    obtain ⟨hlt, hip, -⟩ := List.findIdx?_eq_some_iff_getElem.mp hfound
    rw [decide_eq_true_eq] at hip
    obtain ⟨hsig, henc⟩ := hsignature users[i] (List.getElem_mem hlt)
    rw [Option.map_some, Option.getD_some, List.modify_eq_set_getElem?,
      List.getElem?_eq_getElem hlt]
    change users.set i _ = users.set i user
    rw [hip, hsig, henc]

/-- The entries of the datagrams. -/
def entries (glib : Glib) (es : List Receipt) : List User := es.filterMap (Receipt.entry glib)

/-- A datagram puts the user of its entry into the list. -/
theorem step_putItem (hglib : GivesStrings glib) {cfg : Config} {ulist ulist' : List UserBlock}
    {users : List User} {e : Receipt} {reply : Option (List UInt8)} (hholds : Holds ulist users)
    (hfits : EntryFits glib ulist e)
    (hstep : (machine glib cfg).step ulist e = some (reply, ulist')) :
  Holds ulist' ((entries glib [e]).foldl (putItem User.ipaddr) users)
  := by
  obtain ⟨users', hvalues, hholds'⟩ := step_holds hglib hholds hfits hstep
  rw [entries, List.filterMap_cons]
  cases hentry : e.entry glib with
  | none =>
    rw [step_eq_some_iff] at hstep
    obtain ⟨-, hsame⟩ := processEntry_of_none hentry hstep users
    rw [hvalues, Except.ok.injEq, Prod.mk.injEq] at hsame
    rw [hsame.1] at hholds'
    exact hholds'
  | some user =>
    obtain ⟨msg, -, hprocess⟩ := values_of_entry cfg hentry users
    obtain ⟨-, -, hsignature, hencoding⟩ := Receipt.entry_strings hglib hentry
    have hput : users' = putItem User.ipaddr users user := by
      rw [← updateUser_eq_putItem fun u hu => by
        rw [hsignature, hencoding]
        exact hholds.constants u hu]
      rw [hvalues] at hprocess
      cases hupdate : updateUser users user with
      | none =>
        rw [hupdate] at hprocess
        cases hprocess
        rfl
      | some users₁ =>
        rw [hupdate] at hprocess
        cases hprocess
        rfl
    change Holds ulist' (putItem User.ipaddr users user)
    rw [← hput]
    exact hholds'

/-- A run of datagrams puts the users of their entries into the list, one after the other. -/
theorem run_put (hglib : GivesStrings glib) {cfg : Config} {es : List Receipt}
    {ulist ulist' : List UserBlock} {users : List User} {replies : List (Option (List UInt8))}
    (hholds : Holds ulist users) (hfits : (machine glib cfg).Meets (EntryFits glib) ulist es)
    (hrun : (machine glib cfg).run ulist es = some (replies, ulist')) :
  Holds ulist' ((entries glib es).foldl (putItem User.ipaddr) users)
  := by
  induction es generalizing ulist users replies with
  | nil =>
    cases hrun
    exact hholds
  | cons e es ih =>
    obtain ⟨reply, ulist₁, replies', hstep, hrest, rfl⟩ := (machine glib cfg).run_cons_iff.mp hrun
    have hcons : entries glib (e :: es) = entries glib [e] ++ entries glib es := by
      rw [entries, ← List.singleton_append, List.filterMap_append]
      rfl
    rw [hcons, List.foldl_append]
    apply ih (step_putItem hglib hholds hfits.1 hstep) (hfits.2 _ _ hstep) hrest

/-- After any datagrams whose entries fit, the user list has one user for each address, and a user
is in it if it is that of the last entry from its address. -/
theorem run_latest (hglib : GivesStrings glib) {cfg : Config} {es : List Receipt}
    {ulist : List UserBlock} {replies : List (Option (List UInt8))}
    (hfits : (machine glib cfg).Meets (EntryFits glib) [] es)
    (hrun : (machine glib cfg).run [] es = some (replies, ulist)) :
  ∃ users, Holds ulist users ∧ (ipaddrs users).Nodup
    ∧ ∀ user, user ∈ users ↔ latest User.ipaddr (entries glib es) user.ipaddr = some user
  := by
  have hnil : (ipaddrs []).Nodup := List.nodup_nil
  refine ⟨_, run_put hglib nil_holds hfits hrun, puts_nodup hnil _, ?_⟩
  intro user
  rw [mem_puts hnil]
  simp

instance (ulist : List UserBlock) (e : Receipt) : Decidable (EntryFits glib ulist e) :=
  decidable_of_iff (∀ user ∈ e.entry glib, ∀ found ∈ (findUser e.ip.text ulist).toOption,
      ∀ i ∈ found, ∀ b ∈ ulist[i]?, Fits b user) <| by
    constructor
    · rintro h user i b ⟨hentry, hfind, hblock⟩
      exact h user hentry (some i) (by rw [hfind]; rfl) i rfl b hblock
    · intro h user hentry found hfound i hi b hblock
      cases hfind : findUser e.ip.text ulist with
      | error fault =>
        rw [hfind] at hfound
        cases hfound
      | ok found' =>
        rw [hfind] at hfound
        cases hfound
        cases hi
        exact h user i b ⟨hentry, hfind, hblock⟩

/-- An entry of one user, one of another, and a second one of the first. -/
def sampleEntries : List Receipt :=
  [sampleEntry (ascii "ab"), { sampleEntry (ascii "b") with
      ip := ⟨ascii "10.0.0.4", by decide +kernel, by decide +kernel⟩ }, sampleEntry (ascii "a")]

theorem run_latest_two :
  ∃ replies ulist users, (machine asciiGlib configA).run [] sampleEntries = some (replies, ulist)
    ∧ Holds ulist users ∧ (ipaddrs users).Nodup
    ∧ ∀ user, user ∈ users
      ↔ latest User.ipaddr (entries asciiGlib sampleEntries) user.ipaddr = some user
  := by
  have hreturns : ((machine asciiGlib configA).run [] sampleEntries).isSome = true := by
    decide +kernel
  have hfits : (machine asciiGlib configA).Meets (EntryFits asciiGlib) [] sampleEntries := by
    decide +kernel
  obtain ⟨⟨replies, ulist⟩, hrun⟩ := Option.isSome_iff_exists.mp hreturns
  exact ⟨replies, ulist, by simpa [hrun] using run_latest asciiGlib_givesStrings hfits hrun⟩

/-- Two peers that got the same last entry from every address, in whatever order, list the same
users. -/
theorem runs_agree (hglib : GivesStrings glib) {cfg cfg' : Config} {es es' : List Receipt}
    {ulist ulist' : List UserBlock} {replies replies' : List (Option (List UInt8))}
    (hfits : (machine glib cfg).Meets (EntryFits glib) [] es)
    (hfits' : (machine glib cfg').Meets (EntryFits glib) [] es')
    (hrun : (machine glib cfg).run [] es = some (replies, ulist))
    (hrun' : (machine glib cfg').run [] es' = some (replies', ulist'))
    (hsame : ∀ ip, latest User.ipaddr (entries glib es) ip
      = latest User.ipaddr (entries glib es') ip) :
  ∃ users users', Holds ulist users ∧ Holds ulist' users' ∧ users.Perm users'
  := ⟨_, _, run_put hglib nil_holds hfits hrun, run_put hglib nil_holds hfits' hrun',
    puts_perm hsame⟩

/-- One peer misses the first entry. -/
theorem runs_agree_two :
  ∃ replies replies' ulist ulist' users users',
    (machine asciiGlib configA).run [] sampleEntries = some (replies, ulist)
    ∧ (machine asciiGlib configA).run [] sampleEntries.tail = some (replies', ulist')
    ∧ Holds ulist users ∧ Holds ulist' users' ∧ users.Perm users'
  := by
  have hfits : (machine asciiGlib configA).Meets (EntryFits asciiGlib) [] sampleEntries := by
    decide +kernel
  have hfits' : (machine asciiGlib configA).Meets (EntryFits asciiGlib) [] sampleEntries.tail := by
    decide +kernel
  obtain ⟨⟨replies, ulist⟩, hrun⟩ := Option.isSome_iff_exists.mp (by decide +kernel :
    ((machine asciiGlib configA).run [] sampleEntries).isSome = true)
  obtain ⟨⟨replies', ulist'⟩, hrun'⟩ := Option.isSome_iff_exists.mp (by decide +kernel :
    ((machine asciiGlib configA).run [] sampleEntries.tail).isSome = true)
  have hsame : ∀ ip, latest User.ipaddr (entries asciiGlib sampleEntries) ip
      = latest User.ipaddr (entries asciiGlib sampleEntries.tail) ip := by
    intro ip
    obtain ⟨user, huser⟩ := Option.isSome_iff_exists.mp (by decide +kernel :
      ((sampleEntry (ascii "ab")).entry asciiGlib).isSome = true)
    have hcons : entries asciiGlib sampleEntries
        = user :: entries asciiGlib sampleEntries.tail := by
      rw [entries, sampleEntries, List.filterMap_cons, huser]
      rfl
    obtain ⟨-, hip, -⟩ := Receipt.entry_strings asciiGlib_givesStrings huser
    rw [hcons, latest_cons, hip]
    split
    · rename_i heq
      rw [← heq]
      obtain ⟨last, hlast⟩ := Option.isSome_iff_exists.mp (by decide +kernel :
        (latest User.ipaddr (entries asciiGlib sampleEntries.tail)
          (sampleEntry (ascii "ab")).ip.text).isSome = true)
      rw [hlast, Option.some_or]
    · exact Option.or_none
  obtain ⟨users, users', hholds, hholds', hperm⟩ :=
    runs_agree asciiGlib_givesStrings hfits hfits' hrun hrun' hsame
  exact ⟨_, _, _, _, users, users', hrun, hrun', hholds, hholds', hperm⟩

end Blocks

end Peer

end IFreeChat
