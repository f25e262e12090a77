import Mathlib.Data.List.TakeWhile
import IFreeChat.Basis.Packed
import IFreeChat.Basis.Update
import IFreeChat.Peer.Discovery

/-!
# The block of a user

`new_user` packs the strings of a user into one block, each in a slot of its own size, and an
entry of a user in the list is copied over them, whatever its strings are long.

The strings read back are those of the entry, and the address, the signature and the encoding
stay, exactly when each string that is copied fits its slot, or goes on after it as the
string of the next slot (`run_updates_iff`).
-/

open Basis

namespace IFreeChat

namespace Peer

/-- The pointers of a `user_t` into its block, as offsets in the bytes after it. -/
structure UserBlock where
  nickname : Nat
  username : Nat
  hostname : Nat
  avatar : Nat
  ipaddr : Nat
  macaddr : Nat
  signature : Nat
  category : Nat
  encoding : Nat
  bytes : List UInt8
deriving DecidableEq

namespace UserBlock

/-- The strings of a user. -/
def read (b : UserBlock) : Except Fault User := do
  let nickname ← stringAt b.bytes b.nickname
  let username ← stringAt b.bytes b.username
  let hostname ← stringAt b.bytes b.hostname
  let avatar ← stringAt b.bytes b.avatar
  let ipaddr ← stringAt b.bytes b.ipaddr
  let macaddr ← stringAt b.bytes b.macaddr
  let signature ← stringAt b.bytes b.signature
  let category ← stringAt b.bytes b.category
  let encoding ← stringAt b.bytes b.encoding
  .ok { nickname, username, hostname, avatar, ipaddr, macaddr, signature, category, encoding }

/-- The strings of an entry copied over those of the user. -/
def update (b : UserBlock) (user : User) : Except Fault UserBlock := do
  let bytes ← strcpy b.bytes b.nickname user.nickname
  let bytes ← strcpy bytes b.username user.username
  let bytes ← strcpy bytes b.hostname user.hostname
  let bytes ← strcpy bytes b.macaddr user.macaddr
  let bytes ← strcpy bytes b.category user.category
  let bytes ← strcpy bytes b.avatar user.avatar
  .ok { b with bytes }

end UserBlock

/-- `new_user`, in a block that holds `junk` when `malloc` gives it. -/
def newUser (junk : Nat → UInt8) (user : User) : Except Fault UserBlock := do
  let nickname := 0
  let username := nickname + (1 + user.nickname.length)
  let hostname := username + (1 + user.username.length)
  let avatar := hostname + (1 + user.hostname.length)
  let ipaddr := avatar + (1 + user.avatar.length)
  let macaddr := ipaddr + (1 + user.ipaddr.length)
  let signature := macaddr + (1 + user.macaddr.length)
  let category := signature + (1 + user.signature.length)
  let encoding := category + (1 + user.category.length)
  let size := encoding + (1 + user.encoding.length)
  let bytes := (List.range size).map junk
  let bytes ← strcpy bytes nickname user.nickname
  let bytes ← strcpy bytes username user.username
  let bytes ← strcpy bytes hostname user.hostname
  let bytes ← strcpy bytes avatar user.avatar
  let bytes ← strcpy bytes ipaddr user.ipaddr
  let bytes ← strcpy bytes macaddr user.macaddr
  let bytes ← strcpy bytes signature user.signature
  let bytes ← strcpy bytes category user.category
  let bytes ← strcpy bytes encoding user.encoding
  .ok { nickname, username, hostname, avatar, ipaddr, macaddr, signature, category, encoding,
        bytes }

namespace Blocks

/-- The first user of an address. -/
def findUser (ip : List UInt8) : List UserBlock → Except Fault (Option Nat)
  | [] => .ok none
  | b :: ulist => do
      let ipaddr ← stringAt b.bytes b.ipaddr
      if ipaddr = ip then .ok (some 0)
      else do
        let found ← findUser ip ulist
        .ok (found.map fun i => i + 1)

/-- `on_buddy_entry`, with the block `new_user` gets. -/
def onBuddyEntry (glib : Glib) (cfg : Config) (time : UInt64) (beyond : List UInt8)
    (junk : Nat → UInt8) (ulist : List UserBlock) (msg : Msg) :
    Except Fault (List UserBlock × Option (List UInt8)) :=
  if (ascii "1_iptux").isPrefixOf msg.version then .ok (ulist, none)
  else do
    let user ← entryUser glib beyond msg
    match ← findUser msg.ip ulist with
    | some i =>
        match ulist[i]? with
        | none => .error .readOutside
        | some b => do
            let b ← b.update user
            .ok (ulist.set i b, none)
    | none => do
        let b ← newUser junk user
        .ok (ulist ++ [b], entryReply cfg time msg)

/-- A datagram that is received, the time, the bytes after the block of its message, and those
of the block of a new user. -/
structure Receipt where
  ip : CArray 16
  port : UInt16
  datagram : List UInt8
  time : UInt64
  beyond : List UInt8
  junk : Nat → UInt8

/-- The message of a datagram. -/
def Receipt.msg (e : Receipt) : Except Fault Msg :=
  parseMessage e.ip.text e.port (recvBuffer e.datagram) (recvSize e.datagram)

/-- What `process_message` does to the user list, and the entry reply to the sender. -/
def processEntry (glib : Glib) (cfg : Config) (ulist : List UserBlock) (e : Receipt) :
    Except Fault (List UserBlock × Option (List UInt8)) := do
  let msg ← e.msg
  if isEntryCommand msg.command then
    onBuddyEntry glib cfg e.time e.beyond e.junk ulist msg
  else .ok (ulist, none)

/-- The machine that receives datagrams. -/
def machine (glib : Glib) (cfg : Config) :
    Machine (List UserBlock) Receipt (Option (List UInt8)) where
  step ulist e :=
    match processEntry glib cfg ulist e with
    | .error _ => none
    | .ok (ulist, reply) => some (reply, ulist)

/-! ### What is copied -/

/-- The values `on_buddy_entry` takes from a datagram, if it comes to them. -/
def Receipt.entry (glib : Glib) (e : Receipt) : Option User :=
  match e.msg with
  | .error _ => none
  | .ok msg =>
      if isEntryCommand msg.command ∧ ¬ (ascii "1_iptux").isPrefixOf msg.version then
        (entryUser glib e.beyond msg).toOption
      else none

/-- The entry is of the user at `i`, whose block is `b`. -/
structure Concerns (glib : Glib) (ulist : List UserBlock) (e : Receipt) (user : User) (i : Nat)
    (b : UserBlock) : Prop where
  entry_eq : e.entry glib = some user
  find_eq : findUser e.ip.text ulist = .ok (some i)
  block_eq : ulist[i]? = some b

/-- The user of an entry that is in the list has the strings of the entry then, and keeps its
address, signature and encoding; nothing else is written. -/
def Updates (glib : Glib) (cfg : Config) (ulist : List UserBlock) (e : Receipt) : Prop :=
  ∀ user i b, Concerns glib ulist e user i b →
    ∃ b' reply old, (machine glib cfg).step ulist e = some (reply, ulist.set i b')
      ∧ b.read = .ok old
      ∧ b'.read = .ok { user with
          ipaddr := old.ipaddr, signature := old.signature, encoding := old.encoding }

/-- Every string that is copied fits its slot, or goes on after it as the string of the next
slot. -/
structure Fits (b : UserBlock) (user : User) : Prop where
  nickname : user.nickname.length < b.username - b.nickname
    ∨ user.nickname.drop (b.username - b.nickname) = user.username
  username : user.username.length < b.hostname - b.username
    ∨ user.username.drop (b.hostname - b.username) = user.hostname
  hostname : user.hostname.length < b.avatar - b.hostname
    ∨ user.hostname.drop (b.avatar - b.hostname) = user.avatar
  avatar : user.avatar.length < b.ipaddr - b.avatar
    ∨ user.avatar.drop (b.ipaddr - b.avatar) = user.ipaddr
  macaddr : user.macaddr.length < b.signature - b.macaddr
    ∨ user.macaddr.drop (b.signature - b.macaddr) = user.signature
  category : user.category.length < b.encoding - b.category
    ∨ user.category.drop (b.encoding - b.category) = user.encoding

instance (b : UserBlock) (user : User) : Decidable (Fits b user) :=
  decidable_of_iff (_ ∧ _ ∧ _ ∧ _ ∧ _ ∧ _)
    ⟨fun ⟨h₁, h₂, h₃, h₄, h₅, h₆⟩ => ⟨h₁, h₂, h₃, h₄, h₅, h₆⟩,
      fun ⟨h₁, h₂, h₃, h₄, h₅, h₆⟩ => ⟨h₁, h₂, h₃, h₄, h₅, h₆⟩⟩

/-- The strings of an entry fit the block of its user, if it is in the list. -/
def EntryFits (glib : Glib) (ulist : List UserBlock) (e : Receipt) : Prop :=
  ∀ user i b, Concerns glib ulist e user i b → Fits b user

/-- What GLib converts a string to is a string. -/
def GivesStrings (glib : Glib) : Prop :=
  ∀ string cset s, glib.convert string cset = some s → 0 ∉ s

end Blocks

/-! ### Strings and slots -/

/-- No string of the user has a `NUL`. -/
structure User.NulFree (u : User) : Prop where
  nickname : 0 ∉ u.nickname
  username : 0 ∉ u.username
  hostname : 0 ∉ u.hostname
  avatar : 0 ∉ u.avatar
  ipaddr : 0 ∉ u.ipaddr
  macaddr : 0 ∉ u.macaddr
  signature : 0 ∉ u.signature
  category : 0 ∉ u.category
  encoding : 0 ∉ u.encoding

namespace UserBlock

/-- The strings of `u` where the block has the pointers to them. -/
def strings (b : UserBlock) (u : User) : List (Nat × List UInt8) :=
  [(b.nickname, u.nickname), (b.username, u.username), (b.hostname, u.hostname),
    (b.avatar, u.avatar), (b.ipaddr, u.ipaddr), (b.macaddr, u.macaddr),
    (b.signature, u.signature), (b.category, u.category), (b.encoding, u.encoding)]

/-- The strings of `u` with the sizes of the slots of the block. -/
def slots (b : UserBlock) (u : User) : List (Nat × List UInt8) :=
  [(b.username - b.nickname, u.nickname), (b.hostname - b.username, u.username),
    (b.avatar - b.hostname, u.hostname), (b.ipaddr - b.avatar, u.avatar),
    (b.macaddr - b.ipaddr, u.ipaddr), (b.signature - b.macaddr, u.macaddr),
    (b.category - b.signature, u.signature), (b.encoding - b.category, u.category),
    (b.bytes.length - b.encoding, u.encoding)]

/-- The slots follow one another and fill the block. -/
structure Ordered (b : UserBlock) : Prop where
  nickname : b.nickname = 0
  username : b.nickname ≤ b.username
  hostname : b.username ≤ b.hostname
  avatar : b.hostname ≤ b.avatar
  ipaddr : b.avatar ≤ b.ipaddr
  macaddr : b.ipaddr ≤ b.macaddr
  signature : b.macaddr ≤ b.signature
  category : b.signature ≤ b.category
  encoding : b.category ≤ b.encoding
  bytes : b.encoding ≤ b.bytes.length

theorem read_eq_ok_iff {b : UserBlock} {u : User} :
  b.read = .ok u ↔ (∀ p ∈ b.strings u, HasString b.bytes p.1 p.2) ∧ u.NulFree
  := by
  simp only [read, bind_eq_ok, stringAt_eq_ok_iff, strings, List.forall_mem_cons]
  constructor
  · rintro ⟨_, h₁, _, h₂, _, h₃, _, h₄, _, h₅, _, h₆, _, h₇, _, h₈, _, h₉, h⟩
    cases h
    exact ⟨⟨h₁.1, h₂.1, h₃.1, h₄.1, h₅.1, h₆.1, h₇.1, h₈.1, h₉.1, by simp⟩,
      ⟨h₁.2, h₂.2, h₃.2, h₄.2, h₅.2, h₆.2, h₇.2, h₈.2, h₉.2⟩⟩
  · rintro ⟨⟨h₁, h₂, h₃, h₄, h₅, h₆, h₇, h₈, h₉, -⟩, hnul⟩
    exact ⟨_, ⟨h₁, hnul.nickname⟩, _, ⟨h₂, hnul.username⟩, _, ⟨h₃, hnul.hostname⟩,
      _, ⟨h₄, hnul.avatar⟩, _, ⟨h₅, hnul.ipaddr⟩, _, ⟨h₆, hnul.macaddr⟩,
      _, ⟨h₇, hnul.signature⟩, _, ⟨h₈, hnul.category⟩, _, ⟨h₉, hnul.encoding⟩, rfl⟩

/-- The strings at the pointers are those in the slots. -/
theorem Ordered.hasStrings_iff {b : UserBlock} (h : b.Ordered) (u : User) (bytes : List UInt8) :
  HasStrings bytes b.nickname (b.slots u) ↔ ∀ p ∈ b.strings u, HasString bytes p.1 p.2
  := by
  obtain ⟨-, h₂, h₃, h₄, h₅, h₆, h₇, h₈, h₉, -⟩ := h
  simp only [HasStrings, slots, strings, List.forall_mem_cons, Nat.add_sub_of_le, h₂, h₃, h₄, h₅,
    h₆, h₇, h₈, h₉, and_true, List.not_mem_nil, false_implies, implies_true]

theorem Ordered.slots_sum {b : UserBlock} (h : b.Ordered) (u : User) :
  ((b.slots u).map Prod.fst).sum = b.bytes.length
  := by
  obtain ⟨h₁, h₂, h₃, h₄, h₅, h₆, h₇, h₈, h₉, h₁₀⟩ := h
  simp only [slots, List.map_cons, List.map_nil, List.sum_cons, List.sum_nil]
  omega

/-- The slots filled with strings that tile them have the strings at the pointers. -/
theorem Ordered.overlay_strings {b : UserBlock} (h : b.Ordered) {u : User}
    (htiled : Tiled (b.slots u)) :
  (overlay (b.slots u)).length = b.bytes.length
    ∧ ∀ p ∈ b.strings u, HasString (overlay (b.slots u)) p.1 p.2
  := by
  constructor
  · rw [overlay_length, h.slots_sum]
  · rw [← h.hasStrings_iff, h.nickname]
    apply hasStrings_overlay [] htiled

/-- The block has the strings of the user, and its address, its signature and its encoding fit
their slots. -/
structure Represents (b : UserBlock) (u : User) : Prop where
  ordered : b.Ordered
  read : b.read = .ok u
  ipaddr : u.ipaddr.length < b.macaddr - b.ipaddr
  signature : u.signature.length < b.category - b.signature
  encoding : u.encoding.length < b.bytes.length - b.encoding

/-- The strings an update copies, in order. -/
def copies (b : UserBlock) (u : User) : List (Nat × List UInt8) :=
  [(b.nickname, u.nickname), (b.username, u.username), (b.hostname, u.hostname),
    (b.macaddr, u.macaddr), (b.category, u.category), (b.avatar, u.avatar)]

theorem update_eq (b : UserBlock) (u : User) :
  b.update u = strcpyAll b.bytes (b.copies u) >>= fun bytes => .ok { b with bytes }
  := by
  simp only [update, copies, strcpyAll, bind_assoc]
  rfl

end UserBlock

open UserBlock

/-- The address, the signature and the encoding of two users are the same. -/
structure User.Same (u user : User) : Prop where
  ipaddr : user.ipaddr = u.ipaddr
  signature : user.signature = u.signature
  encoding : user.encoding = u.encoding

namespace UserBlock

/-- The strings of an update fit exactly when all strings tile their slots then. -/
theorem Represents.fits_iff {b : UserBlock} {u user : User} (h : b.Represents u)
    (hsame : u.Same user) :
  Blocks.Fits b user ↔ Tiled (b.slots user)
  := by
  have hipaddr := h.ipaddr
  have hsignature := h.signature
  have hencoding := h.encoding
  rw [← hsame.ipaddr] at hipaddr
  rw [← hsame.signature] at hsignature
  rw [← hsame.encoding] at hencoding
  simp only [slots, Tiled, hipaddr, hsignature, hencoding, true_or, true_and, and_true]
  constructor
  · rintro ⟨h₁, h₂, h₃, h₄, h₅, h₆⟩
    exact ⟨h₁, h₂, h₃, h₄, h₅, h₆⟩
  · rintro ⟨h₁, h₂, h₃, h₄, h₅, h₆⟩
    exact ⟨h₁, h₂, h₃, h₄, h₅, h₆⟩

/-- Strings that fit are there after an update, and the address, the signature and the
encoding as before. -/
theorem Represents.update {b : UserBlock} {u user : User} (h : b.Represents u)
    (hsame : u.Same user) (hnul : user.NulFree) (hfits : Blocks.Fits b user) :
  ∃ b', b.update user = .ok b' ∧ b'.Represents user
  := by
  have htiled := (h.fits_iff hsame).mp hfits
  obtain ⟨hlength, hpicture⟩ := h.ordered.overlay_strings htiled
  have hcopies : ∀ copy ∈ b.copies user, copy ∈ b.strings user := by
    simp [copies, strings]
  obtain ⟨bytes', hall, hlength', hholds⟩ := strcpyAll_hasString
    (fun copy hcopy => hpicture copy (hcopies copy hcopy)) hlength.symm
  refine ⟨{ b with bytes := bytes' }, ?_, ?_⟩
  · rw [update_eq, hall]
    rfl
  · obtain ⟨hordered, hread, hipaddr, hsignature, hencoding⟩ := h
    obtain ⟨h₁, h₂, h₃, h₄, h₅, h₆, h₇, h₈, h₉, h₁₀⟩ := hordered
    have hold := (read_eq_ok_iff.mp hread).1
    refine ⟨⟨h₁, h₂, h₃, h₄, h₅, h₆, h₇, h₈, h₉, ?_⟩, ?_, ?_, ?_, ?_⟩
    · change b.encoding ≤ bytes'.length
      rwa [hlength']
    · rw [read_eq_ok_iff]
      refine ⟨?_, hnul⟩
      rintro ⟨a, s⟩ hp
      apply hholds a s (hpicture (a, s) hp)
      -- the strings that are not copied were there before
      have hcases : (a, s) ∈ b.copies user ∨ (a, s) ∈ b.strings u := by
        simp only [strings, copies, List.mem_cons, List.not_mem_nil, or_false, hsame.ipaddr,
          hsame.signature, hsame.encoding] at hp ⊢
        rcases hp with h | h | h | h | h | h | h | h | h <;> simp [h]
      rcases hcases with h | h
      · right
        apply h
      · left
        apply hold (a, s) h
    · rwa [hsame.ipaddr]
    · rwa [hsame.signature]
    · rw [hsame.encoding]
      change _ < bytes'.length - b.encoding
      rwa [hlength']

/-- Strings that are there after an update fit. -/
theorem Represents.fits_of_read {b b' : UserBlock} {u user : User} (h : b.Represents u)
    (hsame : u.Same user) (hupdate : b.update user = .ok b') (hread : b'.read = .ok user) :
  Blocks.Fits b user
  := by
  rw [update_eq] at hupdate
  obtain ⟨bytes', -, hb'⟩ := bind_eq_ok.mp hupdate
  cases hb'
  obtain ⟨hstrings, hnul⟩ := read_eq_ok_iff.mp hread
  rw [h.fits_iff hsame]
  apply tiled_of_hasStrings ((h.ordered.hasStrings_iff user bytes').mpr hstrings)
  · obtain ⟨h₁, h₂, h₃, h₄, h₅, h₆, h₇, h₈, h₉⟩ := hnul
    simp only [slots, List.forall_mem_cons]
    exact ⟨h₁, h₂, h₃, h₄, h₅, h₆, h₇, h₈, h₉, by simp⟩
  · intro slot hslot
    cases hslot
    have hencoding := h.encoding
    rwa [← hsame.encoding] at hencoding

end UserBlock

/-- The block of a new user before its strings are copied. -/
def emptyBlock (junk : Nat → UInt8) (user : User) : UserBlock :=
  let username := 0 + (1 + user.nickname.length)
  let hostname := username + (1 + user.username.length)
  let avatar := hostname + (1 + user.hostname.length)
  let ipaddr := avatar + (1 + user.avatar.length)
  let macaddr := ipaddr + (1 + user.ipaddr.length)
  let signature := macaddr + (1 + user.macaddr.length)
  let category := signature + (1 + user.signature.length)
  let encoding := category + (1 + user.category.length)
  { nickname := 0, username, hostname, avatar, ipaddr, macaddr, signature, category, encoding,
    bytes := (List.range (encoding + (1 + user.encoding.length))).map junk }

theorem newUser_eq (junk : Nat → UInt8) (user : User) :
  newUser junk user
    = strcpyAll (emptyBlock junk user).bytes ((emptyBlock junk user).strings user) >>= fun bytes =>
        .ok { emptyBlock junk user with bytes }
  := by
  simp only [newUser, emptyBlock, UserBlock.strings, strcpyAll, bind_assoc]
  rfl

theorem emptyBlock_ordered (junk : Nat → UInt8) (user : User) :
  (emptyBlock junk user).Ordered
  := by
  constructor <;> simp [emptyBlock]

/-- Every string has a slot of its own size. -/
theorem emptyBlock_tiled (junk : Nat → UInt8) (user : User) :
  Tiled ((emptyBlock junk user).slots user)
  := by
  simp only [UserBlock.slots, emptyBlock, Tiled, List.length_map, List.length_range,
    Nat.add_sub_cancel_left]
  omega

/-- A new user has its strings in slots of their sizes. -/
theorem newUser_represents (junk : Nat → UInt8) {user : User} (hnul : user.NulFree) :
  ∃ b, newUser junk user = .ok b ∧ b.Represents user
  := by
  have hordered := emptyBlock_ordered junk user
  obtain ⟨hlength, hpicture⟩ := hordered.overlay_strings (emptyBlock_tiled junk user)
  obtain ⟨bytes', hall, hlength', hholds⟩ := strcpyAll_hasString hpicture hlength.symm
  rw [newUser_eq, hall]
  refine ⟨{ emptyBlock junk user with bytes := bytes' }, rfl, ?_⟩
  obtain ⟨h₁, h₂, h₃, h₄, h₅, h₆, h₇, h₈, h₉, h₁₀⟩ := hordered
  refine ⟨⟨h₁, h₂, h₃, h₄, h₅, h₆, h₇, h₈, h₉, ?_⟩, ?_, ?_, ?_, ?_⟩
  · change _ ≤ bytes'.length
    rwa [hlength']
  · rw [UserBlock.read_eq_ok_iff]
    refine ⟨?_, hnul⟩
    rintro ⟨a, s⟩ hp
    apply hholds a s (hpicture (a, s) hp)
    right
    apply hp
  · simp [emptyBlock]
  · simp [emptyBlock]
  · change _ < bytes'.length - _
    rw [hlength']
    simp [emptyBlock]

namespace Blocks

/-! ### Entries -/

theorem parseMessage_strings {ip : List UInt8} {port : UInt16} {data : List UInt8} {size : Nat}
    {msg : Msg} (h : parseMessage ip port data size = .ok msg) :
  msg.ip = ip ∧ 0 ∉ msg.username ∧ 0 ∉ msg.hostname
  := by
  obtain ⟨⟨version, p₁⟩, -, h⟩ := bind_eq_ok.mp h
  obtain ⟨⟨packetNo, p₂⟩, -, h⟩ := bind_eq_ok.mp h
  obtain ⟨⟨username, p₃⟩, husername, h⟩ := bind_eq_ok.mp h
  obtain ⟨⟨hostname, p₄⟩, hhostname, h⟩ := bind_eq_ok.mp h
  obtain ⟨⟨cmd, p₅⟩, -, h⟩ := bind_eq_ok.mp h
  dsimp only at h
  split at h
  · cases h
  · cases h
    have hcolon : Feiq.colon ≠ 0 := by decide
    exact ⟨rfl, (search_eq_ok_iff.mp husername).2.2.resolve_left hcolon,
      (search_eq_ok_iff.mp hhostname).2.2.resolve_left hcolon⟩

theorem stringValidate_nul {glib : Glib} (hglib : GivesStrings glib) {s codeset t : List UInt8}
    (h : stringValidate glib s codeset = some t) :
  0 ∉ t
  := by
  rw [stringValidate] at h
  split at h
  · cases h
  · obtain ⟨cset, -, hconvert⟩ := List.exists_of_findSome?_eq_some h
    apply hglib s cset t hconvert

theorem shown_nul {glib : Glib} (hglib : GivesStrings glib) {s : List UInt8} (hs : 0 ∉ s) :
  0 ∉ shown glib s
  := by
  rw [shown]
  cases h : stringValidate glib s (ascii "gbk") with
  | none => exact hs
  | some t => apply stringValidate_nul hglib h

theorem avatarPath_nul (avatarId : Int) :
  0 ∉ avatarPath avatarId
  := by
  rw [avatarPath]
  split
  · decide +kernel
  · simp only [List.mem_append, not_or]
    refine ⟨⟨by decide +kernel, not_mem_decimal _ (by decide) (by decide)⟩, by decide +kernel⟩

/-- The values of an entry are strings; its address is that of the message, its signature and
encoding are those of every entry. -/
theorem entryUser_eq_ok {glib : Glib} (hglib : GivesStrings glib) {beyond : List UInt8}
    {msg : Msg} {user : User} (hip : 0 ∉ msg.ip) (husername : 0 ∉ msg.username)
    (hhostname : 0 ∉ msg.hostname) (h : entryUser glib beyond msg = .ok user) :
  user.NulFree ∧ user.ipaddr = msg.ip ∧ user.signature = ascii "hello"
    ∧ user.encoding = ascii "GBK"
  := by
  obtain ⟨⟨data, p⟩, hdata, h⟩ := bind_eq_ok.mp h
  obtain ⟨⟨category, q⟩, hcategory, h⟩ := bind_eq_ok.mp h
  obtain ⟨avatarId, -, h⟩ := bind_eq_ok.mp h
  obtain ⟨macaddr, -, h⟩ := bind_eq_ok.mp h
  have hdata' := (search_eq_ok_iff.mp hdata).2.1
  have hcategory' := (search_eq_ok_iff.mp hcategory).2.1
  have hsignature : 0 ∉ ascii "hello" := by decide +kernel
  have hencoding : 0 ∉ ascii "GBK" := by decide +kernel
  split at h
  · cases h
  · cases h
    refine ⟨⟨?_, husername, hhostname, avatarPath_nul avatarId, hip, ?_, hsignature, ?_,
      hencoding⟩, rfl, rfl, rfl⟩
    · change 0 ∉ if data = [] then msg.username else shown glib data
      split
      · apply husername
      · apply shown_nul hglib hdata'
    · intro hmem
      have := List.mem_takeWhile_imp hmem
      simp at this
    · change 0 ∉ if category = [] then ascii "no group" else shown glib category
      split
      · decide +kernel
      · apply shown_nul hglib hcategory'

/-- A datagram with an entry. -/
theorem Receipt.entry_eq_some {glib : Glib} {e : Receipt} {user : User}
    (h : e.entry glib = some user) :
  ∃ msg, e.msg = .ok msg ∧ isEntryCommand msg.command
    ∧ (ascii "1_iptux").isPrefixOf msg.version = false ∧ entryUser glib e.beyond msg = .ok user
  := by
  rw [Receipt.entry] at h
  split at h
  · cases h
  · rename_i msg hmsg
    rw [Option.ite_none_right_eq_some] at h
    obtain ⟨⟨hcommand, hversion⟩, huser⟩ := h
    refine ⟨msg, hmsg, hcommand, Bool.eq_false_iff.mpr hversion, ?_⟩
    cases hentry : entryUser glib e.beyond msg with
    | error fault =>
      rw [hentry] at huser
      cases huser
    | ok user' =>
      rw [hentry] at huser
      cases huser
      rfl

theorem Receipt.entry_strings {glib : Glib} (hglib : GivesStrings glib) {e : Receipt} {user : User}
    (h : e.entry glib = some user) :
  user.NulFree ∧ user.ipaddr = e.ip.text ∧ user.signature = ascii "hello"
    ∧ user.encoding = ascii "GBK"
  := by
  obtain ⟨msg, hmsg, -, -, huser⟩ := Receipt.entry_eq_some h
  obtain ⟨hip, husername, hhostname⟩ := parseMessage_strings hmsg
  rw [← hip]
  apply entryUser_eq_ok hglib _ husername hhostname huser
  rw [hip]
  apply e.ip.nul

/-! ### The list -/

/-- The blocks of a list have the users of another one, each with the signature and the
encoding of an entry. -/
structure Holds (ulist : List UserBlock) (users : List User) : Prop where
  represents : List.Forall₂ Represents ulist users
  constants : ∀ u ∈ users, u.signature = ascii "hello" ∧ u.encoding = ascii "GBK"

theorem findUser_eq {ip : List UInt8} {ulist : List UserBlock} {users : List User}
    (h : List.Forall₂ Represents ulist users) :
  findUser ip ulist = .ok (users.findIdx? fun u => u.ipaddr = ip)
  := by
  induction h with
  | nil => rfl
  | @cons b u ulist users hb _ ih =>
    have hip : stringAt b.bytes b.ipaddr = .ok u.ipaddr := by
      obtain ⟨hstrings, hnul⟩ := read_eq_ok_iff.mp hb.read
      rw [stringAt_eq_ok_iff]
      refine ⟨hstrings (b.ipaddr, u.ipaddr) (by simp [UserBlock.strings]), hnul.ipaddr⟩
    rw [findUser, hip, ih, List.findIdx?_cons]
    change (if u.ipaddr = ip then Except.ok (some 0) else Except.ok _) = _
    by_cases heq : u.ipaddr = ip
    · simp [heq]
    · simp [heq]

/-- The user an entry concerns, and the value its block has. -/
theorem Concerns.user {glib : Glib} (hglib : GivesStrings glib) {ulist : List UserBlock}
    {users : List User} {e : Receipt} {user : User} {i : Nat} {b : UserBlock}
    (h : Concerns glib ulist e user i b) (hholds : Holds ulist users) :
  ∃ u, users[i]? = some u ∧ b.Represents u ∧ u.Same user ∧ user.NulFree
  := by
  obtain ⟨hentry, hfind, hblock⟩ := h
  obtain ⟨hnul, hip, hsignature, hencoding⟩ := Receipt.entry_strings hglib hentry
  rw [findUser_eq hholds.represents, Except.ok.injEq, List.findIdx?_eq_some_iff_getElem] at hfind
  obtain ⟨hlt, hipaddr, -⟩ := hfind
  obtain ⟨hlt', rfl⟩ := List.getElem?_eq_some_iff.mp hblock
  have hconstants := hholds.constants users[i] (List.getElem_mem hlt)
  refine ⟨users[i], List.getElem?_eq_getElem hlt, ?_, ?_, hnul⟩
  · apply hholds.represents.get
  · rw [decide_eq_true_eq] at hipaddr
    refine ⟨?_, ?_, ?_⟩
    · rw [hip, hipaddr]
    · rw [hsignature, hconstants.1]
    · rw [hencoding, hconstants.2]

/-! ### Updates -/

/-- A datagram with an entry is searched for its sender first. -/
theorem processEntry_of_entry {glib : Glib} (cfg : Config) {ulist : List UserBlock}
    {e : Receipt} {user : User} {found : Option Nat} (hentry : e.entry glib = some user)
    (hfind : findUser e.ip.text ulist = .ok found) :
  ∃ msg, e.msg = .ok msg
    ∧ processEntry glib cfg ulist e = match found with
        | some i =>
            match ulist[i]? with
            | none => .error .readOutside
            | some b => b.update user >>= fun b => .ok (ulist.set i b, none)
        | none => newUser e.junk user >>= fun b =>
            .ok (ulist ++ [b], entryReply cfg e.time msg)
  := by
  obtain ⟨msg, hmsg, hcommand, hversion, huser⟩ := Receipt.entry_eq_some hentry
  have hip : msg.ip = e.ip.text := (parseMessage_strings hmsg).1
  rw [← hip] at hfind
  use msg, hmsg
  rw [processEntry, hmsg]
  change (if isEntryCommand msg.command then _ else _) = _
  rw [if_pos hcommand, onBuddyEntry, hversion, huser]
  change (findUser msg.ip ulist >>= _) = _
  rw [hfind]
  cases found with
  | none => rfl
  | some i => rfl

theorem processEntry_of_concerns {glib : Glib} (cfg : Config) {ulist : List UserBlock}
    {e : Receipt} {user : User} {i : Nat} {b : UserBlock} (h : Concerns glib ulist e user i b) :
  processEntry glib cfg ulist e = b.update user >>= fun b' => .ok (ulist.set i b', none)
  := by
  obtain ⟨hentry, hfind, hblock⟩ := h
  obtain ⟨msg, -, hprocess⟩ := processEntry_of_entry cfg hentry hfind
  rw [hprocess]
  simp only [hblock]

theorem step_eq_some_iff {glib : Glib} {cfg : Config} {ulist ulist' : List UserBlock}
    {e : Receipt} {reply : Option (List UInt8)} :
  (machine glib cfg).step ulist e = some (reply, ulist')
    ↔ processEntry glib cfg ulist e = .ok (ulist', reply)
  := by
  simp only [machine]
  cases processEntry glib cfg ulist e with
  | error fault => simp
  | ok r => simp [Prod.ext_iff, and_comm]

/-- An entry updates its user exactly when its strings fit. -/
theorem updates_iff {glib : Glib} (hglib : GivesStrings glib) (cfg : Config)
    {ulist : List UserBlock} {users : List User} (hholds : Holds ulist users) (e : Receipt) :
  Updates glib cfg ulist e ↔ EntryFits glib ulist e
  := by
  constructor
  · intro hupdates user i b hconcerns
    obtain ⟨u, -, hrepresents, hsame, -⟩ := hconcerns.user hglib hholds
    obtain ⟨b', reply, old, hstep, hold, hread⟩ := hupdates user i b hconcerns
    rw [hrepresents.read, Except.ok.injEq] at hold
    subst hold
    rw [step_eq_some_iff, processEntry_of_concerns cfg hconcerns] at hstep
    obtain ⟨b'', hupdate, hset⟩ := bind_eq_ok.mp hstep
    rw [Except.ok.injEq, Prod.mk.injEq] at hset
    have hlt := (List.getElem?_eq_some_iff.mp hconcerns.block_eq).1
    have hb' : b'' = b' := by
      have := congrArg (fun l : List UserBlock => l[i]?) hset.1
      simpa [hlt] using this
    subst hb'
    apply hrepresents.fits_of_read hsame hupdate
    rw [hread, ← hsame.ipaddr, ← hsame.signature, ← hsame.encoding]
  · intro hfits user i b hconcerns
    obtain ⟨u, -, hrepresents, hsame, hnul⟩ := hconcerns.user hglib hholds
    obtain ⟨b', hupdate, hrepresents'⟩ :=
      hrepresents.update hsame hnul (hfits user i b hconcerns)
    refine ⟨b', none, u, ?_, hrepresents.read, ?_⟩
    · rw [step_eq_some_iff, processEntry_of_concerns cfg hconcerns, hupdate]
      rfl
    · rw [hrepresents'.read, ← hsame.ipaddr, ← hsame.signature, ← hsame.encoding]

/-- What a datagram with an entry does to the values of the users. -/
theorem values_of_entry {glib : Glib} (cfg : Config) {e : Receipt} {user : User}
    (h : e.entry glib = some user) (users : List User) :
  ∃ msg, e.msg = .ok msg
    ∧ Peer.processEntry glib cfg e.time e.beyond users e.ip.text e.port e.datagram
      = match updateUser users user with
        | some users => .ok (users, none)
        | none => .ok (users ++ [user], entryReply cfg e.time msg)
  := by
  obtain ⟨msg, hmsg, hcommand, hversion, huser⟩ := Receipt.entry_eq_some h
  refine ⟨msg, hmsg, ?_⟩
  have hparse : parseMessage e.ip.text e.port (recvBuffer e.datagram) (recvSize e.datagram)
      = .ok msg := hmsg
  rw [Peer.processEntry, hparse]
  change (if isEntryCommand msg.command then _ else _) = _
  rw [if_pos hcommand, Peer.onBuddyEntry, hversion, huser]
  rfl

/-- What a datagram with an entry of a new user does to the blocks. -/
theorem processEntry_of_new {glib : Glib} (cfg : Config) {ulist : List UserBlock} {e : Receipt}
    {user : User} {msg : Msg} (hentry : e.entry glib = some user)
    (hfind : findUser e.ip.text ulist = .ok none) (hmsg : e.msg = .ok msg) :
  processEntry glib cfg ulist e
    = newUser e.junk user >>= fun b => .ok (ulist ++ [b], entryReply cfg e.time msg)
  := by
  obtain ⟨msg', hmsg', hprocess⟩ := processEntry_of_entry cfg hentry hfind
  rw [hmsg] at hmsg'
  cases hmsg'
  apply hprocess

/-- A datagram that is no entry changes nothing. -/
theorem processEntry_of_none {glib : Glib} {cfg : Config} {ulist ulist' : List UserBlock}
    {e : Receipt} {reply : Option (List UInt8)} (hentry : e.entry glib = none)
    (h : processEntry glib cfg ulist e = .ok (ulist', reply)) (users : List User) :
  ulist' = ulist ∧ Peer.processEntry glib cfg e.time e.beyond users e.ip.text e.port e.datagram
    = .ok (users, reply)
  := by
  obtain ⟨msg, hmsg, h⟩ := bind_eq_ok.mp h
  have hparse : parseMessage e.ip.text e.port (recvBuffer e.datagram) (recvSize e.datagram)
      = .ok msg := hmsg
  rw [Peer.processEntry, hparse]
  change _ ∧ (if isEntryCommand msg.command then
    Peer.onBuddyEntry glib cfg e.time e.beyond users msg else _) = _
  split at h
  · rename_i hcommand
    rw [if_pos hcommand, Peer.onBuddyEntry]
    rw [onBuddyEntry] at h
    split at h
    · rename_i hversion
      rw [if_pos hversion]
      cases h
      exact ⟨rfl, rfl⟩
    · rename_i hversion
      obtain ⟨user, huser, -⟩ := bind_eq_ok.mp h
      simp only [Receipt.entry, hmsg, hcommand, hversion, huser] at hentry
      cases hentry
  · rename_i hcommand
    cases h
    rw [if_neg hcommand]
    exact ⟨rfl, rfl⟩

/-- Where the strings of entries fit, a datagram does to the blocks what it does to the values
they have. -/
theorem step_holds {glib : Glib} (hglib : GivesStrings glib) {cfg : Config}
    {ulist ulist' : List UserBlock} {users : List User} {e : Receipt}
    {reply : Option (List UInt8)} (hholds : Holds ulist users)
    (hfits : EntryFits glib ulist e)
    (hstep : (machine glib cfg).step ulist e = some (reply, ulist')) :
  ∃ users', Peer.processEntry glib cfg e.time e.beyond users e.ip.text e.port e.datagram
      = .ok (users', reply) ∧ Holds ulist' users'
  := by
  rw [step_eq_some_iff] at hstep
  cases hentry : e.entry glib with
  | none =>
    obtain ⟨rfl, hvalues⟩ := processEntry_of_none hentry hstep users
    exact ⟨users, hvalues, hholds⟩
  | some user =>
    obtain ⟨msg, hmsg, hvalues⟩ := values_of_entry cfg hentry users
    obtain ⟨hnul, hip, hsignature, hencoding⟩ := Receipt.entry_strings hglib hentry
    have hfind := @findUser_eq e.ip.text _ _ hholds.represents
    rw [hvalues, updateUser, hip]
    cases hfound : users.findIdx? fun u => u.ipaddr = e.ip.text with
    | none =>
      rw [hfound] at hfind
      rw [processEntry_of_new cfg hentry hfind hmsg] at hstep
      obtain ⟨b, hb, hrepresents⟩ := newUser_represents e.junk hnul
      rw [hb] at hstep
      cases hstep
      refine ⟨users ++ [user], rfl, ?_, ?_⟩
      · apply List.rel_append hholds.represents
        apply List.Forall₂.cons hrepresents .nil
      · intro u hu
        rcases List.mem_append.mp hu with hu | hu
        · apply hholds.constants u hu
        · rw [List.mem_singleton] at hu
          subst hu
          exact ⟨hsignature, hencoding⟩
    | some i =>
      rw [hfound] at hfind
      have hlt : i < ulist.length := by
        rw [hholds.represents.length_eq]
        apply (List.findIdx?_eq_some_iff_getElem.mp hfound).1
      have hconcerns : Concerns glib ulist e user i ulist[i] :=
        ⟨hentry, hfind, List.getElem?_eq_getElem hlt⟩
      obtain ⟨u, hu, hrepresents, hsame, -⟩ := hconcerns.user hglib hholds
      obtain ⟨b', hupdate, hrepresents'⟩ :=
        hrepresents.update hsame hnul (hfits user i _ hconcerns)
      rw [processEntry_of_concerns cfg hconcerns, hupdate] at hstep
      cases hstep
      refine ⟨users.set i user, ?_, ?_, ?_⟩
      · have hmodify : users.modify i (fun u => { user with
            ipaddr := u.ipaddr
            signature := u.signature
            encoding := u.encoding }) = users.set i user := by
          rw [List.modify_eq_set_getElem?, hu]
          change users.set i _ = _
          rw [← hsame.ipaddr, ← hsame.signature, ← hsame.encoding]
        rw [Option.map_some, hmodify]
      · apply forall₂_set hholds.represents hrepresents'
      · intro u' hu'
        rcases List.mem_or_eq_of_mem_set hu' with hu' | rfl
        · apply hholds.constants u' hu'
        · exact ⟨hsignature, hencoding⟩

/-! ### Runs -/

theorem nil_holds :
  Holds [] []
  := ⟨.nil, by simp⟩

/-- The machine that receives datagrams, where the strings of a user are values. -/
def valueMachine (glib : Glib) (cfg : Config) :
    Machine (List User) Receipt (Option (List UInt8)) where
  step users e :=
    match Peer.processEntry glib cfg e.time e.beyond users e.ip.text e.port e.datagram with
    | .error _ => none
    | .ok (users, reply) => some (reply, users)

/-- Along datagrams whose entries fit, the blocks have the values of the users, and the replies
are theirs. -/
theorem run_values {glib : Glib} (hglib : GivesStrings glib) {cfg : Config} {es : List Receipt}
    {ulist : List UserBlock} {replies : List (Option (List UInt8))}
    (hfits : (machine glib cfg).Meets (EntryFits glib) [] es)
    (hrun : (machine glib cfg).run [] es = some (replies, ulist)) :
  ∃ users, (valueMachine glib cfg).run [] es = some (replies, users) ∧ Holds ulist users
  := by
  have hstep : ∀ (users : List User) (ulist : List UserBlock) (e : Receipt)
      (reply : Option (List UInt8)) (ulist' : List UserBlock), Holds ulist users →
      EntryFits glib ulist e → (machine glib cfg).step ulist e = some (reply, ulist') →
      ∃ users', (valueMachine glib cfg).step users e = some (reply, users')
        ∧ Holds ulist' users' := by
    intro users ulist e reply ulist' hholds hfits hstep
    obtain ⟨users', hvalues, hholds'⟩ := step_holds hglib hholds hfits hstep
    refine ⟨users', ?_, hholds'⟩
    simp only [valueMachine, hvalues]
  exact (valueMachine glib cfg).run_refines hstep nil_holds hfits hrun

/-- An entry of a user with this nickname. -/
def sampleEntry (nickname : List UInt8) : Receipt where
  ip := ⟨ascii "10.0.0.1", by decide +kernel, by decide +kernel⟩
  port := 2425
  datagram := ascii "1_lbt4_1#128#m#0#0#0:1:u:h:257:" ++ nickname ++ 0 :: ascii "g"
  time := 0
  beyond := []
  junk := fun _ => 0

/-- The list once such a user is in it. -/
def sampleList (nickname : List UInt8) : List UserBlock :=
  match (machine asciiGlib configA).step [] (sampleEntry nickname) with
  | none => []
  | some (_, ulist) => ulist

theorem asciiGlib_givesStrings :
  GivesStrings asciiGlib
  := by
  intro string cset s h
  cases h

end Blocks

end Peer

end IFreeChat
