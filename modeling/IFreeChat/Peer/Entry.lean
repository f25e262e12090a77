import IFreeChat.Peer.Blowfish
import IFreeChat.Peer.Message

/-!
# Entries

The broadcasts of a peer that comes and goes, and `onBuddyEntry`, which takes an entry or an
entry reply into the user list and answers it where its sender is new
(`onBuddyEntry_eq_ok`).
-/

open Basis

namespace IFreeChat

open Feiq (colon sharp underscore)

namespace Peer

/-! ### Commands -/

/-- `CMD_BR_ENTRY`. -/
def CMD_BR_ENTRY : Nat := 0x01

/-- `CMD_BR_EXIT`. -/
def CMD_BR_EXIT : Nat := 0x02

/-- `CMD_ANSENTRY`. -/
def CMD_ANSENTRY : Nat := 0x03

/-- `CMD_SENDMSG`. -/
def CMD_SENDMSG : Nat := 0x20

/-- `CMD_RECVMSG`. -/
def CMD_RECVMSG : Nat := 0x21

/-- `CMD_GPMSG`. -/
def CMD_GPMSG : Nat := 0x23

/-- `OPT_SENDCHECK`. -/
def OPT_SENDCHECK : Nat := 0x100

/-- `switch(cmd & 0x000000ff)` takes the command to `on_buddy_entry`. -/
def isEntryCommand (cmd : Nat) : Prop := cmd &&& 0xff = CMD_BR_ENTRY ∨ cmd &&& 0xff = CMD_ANSENTRY

instance (cmd : Nat) : Decidable (isEntryCommand cmd) := inferInstanceAs (Decidable (_ ∨ _))

theorem isEntryCommand_answers {cmd : Nat} (h : isEntryCommand cmd) :
  cmd &&& CMD_BR_ENTRY ≠ 0
  := by
  have hlow : cmd &&& 0xff = cmd % 256 := Nat.and_two_pow_sub_one_eq_mod cmd 8
  have hone : cmd &&& CMD_BR_ENTRY = cmd % 2 := Nat.and_two_pow_sub_one_eq_mod cmd 1
  rw [isEntryCommand, hlow, CMD_BR_ENTRY, CMD_ANSENTRY] at h
  rw [hone]
  omega

/-! ### Broadcasts -/

/-- The text of an entry, of an entry reply and of an exit up to the nickname's end. -/
def printEntry (cfg : Config) (time : UInt64) (cmd : Nat) : List UInt8 :=
  printHeader cfg 0 time cmd ++ cfg.nickname.text

/-- The plain text of a group announcement and of a group message. -/
def printPlain (groupId : UInt32) (text : List UInt8) : List UInt8 :=
  ascii "QUNMSGMARK#" ++ numeral 16 groupId.toNat ++ ascii "#" ++ text

/-- A group announcement, with the byte of the array `cipher` after the cipher text. -/
def announceGroup (bf : Blowfish.CBlowFish) (cfg : Config) (time : UInt64)
    (cipher : List UInt8) (groupId : UInt32) : Except Fault (List UInt8) := do
  let plain := printPlain groupId []
  let (cipher, len) ← Blowfish.blowFishEncrypt bf (plain ++ [0]) cipher plain.length
  .ok (printHeader cfg len time 0x2000c9 ++ cipher.take (len + 1))

/-- `online_broadcast`: the datagrams it sends, where the array `cipher` holds these bytes. -/
def onlineBroadcast (cfg : Config) (time : UInt64) (cipher : List UInt8) :
    Except Fault (List (List UInt8)) := do
  let bf ← Blowfish.createBlowFish cfg.macaddr.text
  let groups ← cfg.glist.mapM (announceGroup bf cfg time cipher)
  .ok ((printHeader cfg 0 time 0 ++ [0])
    :: (printEntry cfg time 0x101 ++ 0 :: (cfg.category.text ++ [0])) :: groups)

/-- `offline_broadcast`: the datagram it sends. -/
def offlineBroadcast (cfg : Config) (time : UInt64) : List UInt8 :=
  printEntry cfg time CMD_BR_EXIT ++ 0 :: (cfg.category.text ++ [0])

/-! ### The user list -/

/-- `user_t`: its strings. -/
structure User where
  nickname : List UInt8
  username : List UInt8
  hostname : List UInt8
  avatar : List UInt8
  ipaddr : List UInt8
  macaddr : List UInt8
  signature : List UInt8
  category : List UInt8
  encoding : List UInt8
deriving DecidableEq

/-- The path of an avatar. -/
def avatarPath (avatarId : Int) : List UInt8 :=
  if avatarId = 0 then ascii "pixmaps/avatar/default.png"
  else ascii "pixmaps/avatar/" ++ decimal avatarId ++ ascii ".bmp"

/-- The user an entry describes.  The category is the string after the first one of the data,
and `beyond` are the bytes after the block, where it may lie. -/
def entryUser (glib : Glib) (beyond : List UInt8) (msg : Msg) : Except Fault User := do
  let (data, p) ← cString (msg.data ++ beyond)
  let (category, _) ← cString p
  let avatarId ← getAvatarIdFromVersion msg.version
  let macaddr ← getMacFromVersion (msg.versionBlock beyond)
  if 20 ≤ macaddr.length then .error .writeOutside
  else .ok {
    nickname := if data = [] then msg.username else shown glib data
    username := msg.username
    hostname := msg.hostname
    avatar := avatarPath avatarId
    ipaddr := msg.ip
    macaddr := macaddr.takeWhile fun c => c ≠ 0
    signature := ascii "hello"
    category := if category = [] then ascii "no group" else shown glib category
    encoding := ascii "GBK" }

/-- The list with the first user of the same address brought up to date, if there is one. -/
def updateUser (ulist : List User) (user : User) : Option (List User) :=
  (ulist.findIdx? fun u => u.ipaddr = user.ipaddr).map fun i =>
    ulist.modify i fun u => { user with
      ipaddr := u.ipaddr
      signature := u.signature
      encoding := u.encoding }

/-- The reply to an entry of a new user. -/
def entryReply (cfg : Config) (time : UInt64) (msg : Msg) : Option (List UInt8) :=
  if msg.command &&& CMD_BR_ENTRY ≠ 0 ∧ msg.username ≠ cfg.username.text then
    some (printEntry cfg time 0x103)
  else none

/-- `on_buddy_entry`: the user list and the reply to the sender. -/
def onBuddyEntry (glib : Glib) (cfg : Config) (time : UInt64) (beyond : List UInt8)
    (ulist : List User) (msg : Msg) : Except Fault (List User × Option (List UInt8)) :=
  if (ascii "1_iptux").isPrefixOf msg.version then .ok (ulist, none)
  else do
    let user ← entryUser glib beyond msg
    match updateUser ulist user with
    | some ulist => .ok (ulist, none)
    | none => .ok (ulist ++ [user], entryReply cfg time msg)

/-- The addresses of the users in a list. -/
def ipaddrs (ulist : List User) : List (List UInt8) := ulist.map User.ipaddr

/-! ### What an entry does -/

theorem entryUser_ipaddr {glib : Glib} {beyond : List UInt8} {msg : Msg} {user : User}
    (h : entryUser glib beyond msg = .ok user) :
  user.ipaddr = msg.ip
  := by
  obtain ⟨⟨data, p⟩, -, h⟩ := bind_eq_ok.mp h
  obtain ⟨⟨category, q⟩, -, h⟩ := bind_eq_ok.mp h
  obtain ⟨avatarId, -, h⟩ := bind_eq_ok.mp h
  obtain ⟨macaddr, -, h⟩ := bind_eq_ok.mp h
  split at h
  · cases h
  · cases h
    rfl

/-- A search for an address that is not listed finds nothing. -/
theorem findIdx?_ipaddr_eq_none {ulist : List User} {ip : List UInt8} :
  ulist.findIdx? (fun u => decide (u.ipaddr = ip)) = none ↔ ip ∉ ipaddrs ulist
  := by
  rw [List.findIdx?_eq_none_iff, ipaddrs, List.mem_map]
  constructor
  · rintro h ⟨u, hu, hip⟩
    have hne := h u hu
    rw [decide_eq_false_iff_not] at hne
    apply hne hip
  · intro h u hu
    rw [decide_eq_false_iff_not]
    intro hip
    apply h ⟨u, hu, hip⟩

theorem updateUser_eq_none {ulist : List User} {user : User} :
  updateUser ulist user = none ↔ user.ipaddr ∉ ipaddrs ulist
  := by
  rw [updateUser, Option.map_eq_none_iff, findIdx?_ipaddr_eq_none]

/-- An update keeps the addresses. -/
theorem ipaddrs_updateUser {ulist ulist' : List User} {user : User}
    (h : updateUser ulist user = some ulist') :
  ipaddrs ulist' = ipaddrs ulist
  := by
  obtain ⟨i, -, rfl⟩ := Option.map_eq_some_iff.mp h
  apply List.ext_getElem
  · simp [ipaddrs]
  · intro j _ _
    simp only [ipaddrs, List.getElem_map, List.getElem_modify]
    split <;> rfl

/-- An entry whose sender is listed changes no address and is not answered; a new sender is
put at the end of the list and answered by `entryReply`. -/
theorem onBuddyEntry_eq_ok {glib : Glib} {cfg : Config} {time : UInt64} {beyond : List UInt8}
    {ulist ulist' : List User} {msg : Msg} {reply : Option (List UInt8)}
    (hversion : (ascii "1_iptux").isPrefixOf msg.version = false)
    (h : onBuddyEntry glib cfg time beyond ulist msg = .ok (ulist', reply)) :
  (msg.ip ∈ ipaddrs ulist ∧ ipaddrs ulist' = ipaddrs ulist ∧ reply = none)
    ∨ (msg.ip ∉ ipaddrs ulist ∧ ipaddrs ulist' = ipaddrs ulist ++ [msg.ip]
      ∧ reply = entryReply cfg time msg)
  := by
  rw [onBuddyEntry, hversion] at h
  obtain ⟨user, huser, h⟩ := bind_eq_ok.mp h
  have hip := entryUser_ipaddr huser
  cases hupdate : updateUser ulist user with
  | some ulist₁ =>
    rw [hupdate] at h
    cases h
    left
    refine ⟨?_, ipaddrs_updateUser hupdate, rfl⟩
    by_contra hnot
    rw [← hip, ← updateUser_eq_none, hupdate] at hnot
    cases hnot
  | none =>
    rw [hupdate] at h
    cases h
    right
    rw [updateUser_eq_none, hip] at hupdate
    refine ⟨hupdate, ?_, rfl⟩
    rw [ipaddrs, List.map_append, List.map_singleton, hip, ipaddrs]

end Peer

end IFreeChat
