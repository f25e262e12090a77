import IFreeChat.Basis.Machine
import IFreeChat.Basis.Update
import IFreeChat.Peer.Entry

/-!
# The handlers of a peer

`process_message` and its handlers run on the listening thread, one critical section a step;
the callback of the tray icon, on the other thread, can come between any two steps.  Both
share the blocks of the messages and the list `mlist` of the unread ones.

A block is named by the order of its allocation, and counts how often it has been freed.
The flag `stale` tells that a block has been touched after it was freed.
-/

open Basis

namespace IFreeChat

open Feiq (colon sharp underscore)

namespace Peer

/-! ### The state -/

/-- The block of a message. -/
structure Block where
  msg : Msg
  frees : Nat

/-- Where the listening thread is: idle, or in a handler on the message of a block, with the
variables that live across critical sections. -/
inductive Pc where
  | idle
  | entry (id : Nat)
  | entryAdd (id : Nat) (user : User)
  | entryFree (id : Nat)
  | sendLink (id : Nat)
  | sendConvert (id : Nat)
  | sendFind (id : Nat)
  | sendFree (id : Nat)
  | sendShow (id : Nat)
  | sendReply (id : Nat)
  | gpFind (id : Nat)
  | gpFree (id : Nat)
  | gpDecode (id : Nat) (user : Nat)
  | gpGroup (id : Nat) (user : Nat) (gpid : UInt32) (pmsg : List UInt8)
  | gpLink (id : Nat) (user : Nat) (gpid : UInt32) (pmsg : List UInt8)
  | gpShow
deriving DecidableEq

/-- The lists of an `ifreechat_t`, the blocks, and the listening thread.  A user is named by
its place in `ulist`, which only grows; `pchatbox` are the users and `gchatbox` the groups
whose windows are open. -/
structure Client where
  ulist : List User
  mlist : List Nat
  pchatbox : List Nat
  gchatbox : List UInt32
  heap : List Block
  stale : Bool
  pc : Pc

/-- The block is freed, or none at all. -/
def Client.freed (s : Client) (id : Nat) : Bool :=
  (s.heap[id]?).all fun b => 0 < b.frees

/-- The block is read or written. -/
def Client.touch (s : Client) (id : Nat) : Client :=
  { s with stale := s.stale || s.freed id }

/-- `free(msg)`. -/
def Client.free (s : Client) (id : Nat) : Client :=
  { s with heap := s.heap.modify id fun b => { b with frees := b.frees + 1 } }

/-- The message of a block is changed. -/
def Client.update (s : Client) (id : Nat) (f : Msg → Msg) : Client :=
  { s.touch id with heap := s.heap.modify id fun b => { b with msg := f b.msg } }

/-- `dlist_add_tail(&(msg->node), &(ifc->mlist))`, which writes to the last node too. -/
def Client.link (s : Client) (id : Nat) : Client :=
  let s : Client := s.mlist.getLast?.elim s s.touch
  { s.touch id with mlist := s.mlist ++ [id] }

/-- The place of the first user with an address. -/
def findUser (ulist : List User) (ip : List UInt8) : Option Nat :=
  ulist.findIdx? fun u => u.ipaddr = ip

/-! ### Group messages -/

/-- `get_group_id`, and the string after the second `'#'`. -/
def getGroupId (data : List UInt8) : Except Fault (UInt32 × List UInt8) := do
  let (_, p) ← search sharp (data ++ [0])
  let (id, q) ← search sharp p
  let (pmsg, _) ← cString q
  .ok (strtoul id, pmsg)

/-- What `on_buddy_sendgpmsg` decrypts from a message with the key of its sender: the group
and the text.  The block `malloc` gives for the plain text holds `plain`, and lies elsewhere
when that is not of the right size. -/
def groupText (glib : Glib) (macaddr : List UInt8) (msg : Msg) (beyond plain : List UInt8) :
    Except Fault (UInt32 × List UInt8) := do
  let size ← getGpmsgSize (msg.versionBlock beyond)
  let gpmsgSize := Feiq.toUnsigned 32 size
  let bf ← Blowfish.createBlowFish macaddr
  if plain.length ≠ Feiq.toUnsigned 32 (gpmsgSize + 1) then .error .nullPointer
  else do
    let (plain, _) ← Blowfish.blowFishDecrypt bf (msg.data ++ beyond) plain gpmsgSize
    let (string, _) ← cString plain
    getGroupId (shown glib string)

/-! ### The handlers -/

/-- The text of `send_reply_msg`. -/
def printReply (cfg : Config) (time : UInt64) (msg : Msg) : List UInt8 :=
  printVersion cfg 0 ++ ascii ":" ++ numeral 10 time.toNat ++ ascii ":" ++ msg.username
    ++ ascii ":" ++ msg.hostname ++ ascii ":" ++ numeral 10 CMD_RECVMSG ++ ascii ":"
    ++ msg.packetNo

/-- `strcpy(msg->data, string)`. -/
def Msg.strcpyData (msg : Msg) (string : List UInt8) : Msg :=
  { msg with data := string ++ 0 :: msg.data.drop (string.length + 1) }

/-- The data of a private message once it is converted, where it fits the block. -/
def convertData (glib : Glib) (beyond : List UInt8) (msg : Msg) : Except Fault Msg := do
  let (data, _) ← cString (msg.data ++ beyond)
  match stringValidate glib data (ascii "gbk") with
  | none => .ok msg
  | some string =>
      if msg.data.length ≤ string.length then .error .writeOutside
      else .ok (msg.strcpyData string)

variable (glib : Glib) (cfg : Config)

/-- The next step of the handler that runs: the datagram it sends, and the state.  The bytes
`beyond` are those after the block of the message, and `plain` those of the next block. -/
def Client.handle (s : Client) (time : UInt64) (beyond plain : List UInt8) :
    Option (Option (List UInt8) × Client) :=
  match s.pc with
  | .idle => none
  | .entry id => do
      let b ← s.heap[id]?
      let s := s.touch id
      if (ascii "1_iptux").isPrefixOf b.msg.version then some (none, { s with pc := .entryFree id })
      else
        match entryUser glib beyond b.msg with
        | .error _ => none
        | .ok user =>
            match updateUser s.ulist user with
            | some ulist => some (none, { s with ulist, pc := .entryFree id })
            | none => some (none, { s with pc := .entryAdd id user })
  | .entryAdd id user => do
      let b ← s.heap[id]?
      some (entryReply cfg time b.msg,
        { s.touch id with ulist := s.ulist ++ [user], pc := .entryFree id })
  | .entryFree id => some (none, { s.free id with pc := .idle })
  | .sendLink id =>
      some (none, { (s.update id fun m => { m with gpid := some 0 }).link id with
        pc := .sendConvert id })
  | .sendConvert id => do
      let b ← s.heap[id]?
      match convertData glib beyond b.msg with
      | .error _ => none
      | .ok msg => some (none, { s.update id fun _ => msg with pc := .sendFind id })
  | .sendFind id => do
      let b ← s.heap[id]?
      match findUser s.ulist b.msg.ip with
      | some i =>
          some (none, { s.update id fun m => { m with user := some i } with pc := .sendShow id })
      | none =>
          -- after the loop `user` is the last user, and `NULL` only in an empty list
          if s.ulist = [] then some (none, { s with pc := .sendFree id })
          else some (none, { s.touch id with pc := .sendShow id })
  | .sendFree id => some (none, { s.free id with pc := .idle })
  | .sendShow id => some (none, { s.touch id with pc := .sendReply id })
  | .sendReply id => do
      let b ← s.heap[id]?
      let s := { s.touch id with pc := .idle }
      if b.msg.command &&& OPT_SENDCHECK = 0 then some (none, s)
      else if 1024 ≤ (printReply cfg time b.msg).length then none
      else some (some (printReply cfg time b.msg), s)
  | .gpFind id => do
      let b ← s.heap[id]?
      let s := s.touch id
      if b.msg.username = cfg.username.text then some (none, { s with pc := .idle })
      else
        match findUser s.ulist b.msg.ip with
        | some i => some (none, { s with pc := .gpDecode id i })
        | none => some (none, { s with pc := .gpFree id })
  | .gpFree id => some (none, { s.free id with pc := .idle })
  | .gpDecode id user => do
      let b ← s.heap[id]?
      let u ← s.ulist[user]?
      match groupText glib u.macaddr b.msg beyond plain with
      | .error _ => none
      | .ok (gpid, pmsg) => some (none, { s.touch id with pc := .gpGroup id user gpid pmsg })
  | .gpGroup id user gpid pmsg =>
      if gpid ∈ cfg.glist then some (none, { s with pc := .gpLink id user gpid pmsg })
      else some (none, { s with pc := .idle })
  | .gpLink id user gpid pmsg => do
      let b ← s.heap[id]?
      if b.msg.data.length ≤ pmsg.length then none
      else
        let msg := { b.msg.strcpyData pmsg with user := some user, gpid := some gpid }
        some (none, { (s.update id fun _ => msg).link id with pc := .gpShow })
  | .gpShow => some (none, { s with pc := .idle })

/-- The handler `process_message` takes a message to, by `cmd & 0x000000ff`. -/
def handlerOf (cmd id : Nat) : Pc :=
  if isEntryCommand cmd then .entry id
  else if cmd &&& 0xff = CMD_SENDMSG then .sendLink id
  else if cmd &&& 0xff = CMD_GPMSG then .gpFind id
  else .idle

/-- `process_message` up to its `switch`, on a datagram that has been received. -/
def Client.receive (s : Client) (ip : List UInt8) (port : UInt16) (datagram : List UInt8) :
    Option Client :=
  if s.pc = .idle then
    match parseMessage ip port (recvBuffer datagram) (recvSize datagram) with
    | .error _ => none
    | .ok msg => some { s with
        heap := s.heap ++ [⟨msg, 0⟩]
        pc := handlerOf msg.command s.heap.length }
  else none

/-- `tray_icon_activated`: a new window needs the user of the message, and in a group the
group as well.  An open window of any user keeps a new one from being opened. -/
def Client.tray (s : Client) : Option Client :=
  match s.mlist with
  | [] => some s
  | id :: rest => do
      let b ← s.heap[id]?
      let s : Client := rest.head?.elim (s.touch id) (s.touch id).touch
      let s : Client := { s.free id with mlist := rest }
      if b.msg.gpid.getD 0 = 0 then
        if s.pchatbox = [] then do
          let user ← b.msg.user
          let _ ← s.ulist[user]?
          some { s with pchatbox := s.pchatbox ++ [user] }
        else some s
      else
        if s.gchatbox = [] then do
          let user ← b.msg.user
          let _ ← s.ulist[user]?
          let group ← (cfg.glist.find? fun g => g = b.msg.gpid.getD 0).or cfg.glist.getLast?
          some { s with gchatbox := s.gchatbox ++ [group] }
        else some s

/-- What happens to a peer: a datagram is received, the handler takes its next step, the tray
icon is activated, or windows are opened and closed until these are open. -/
inductive ClientEvent where
  | receive (ip : List UInt8) (port : UInt16) (datagram : List UInt8)
  | handle (time : UInt64) (beyond plain : List UInt8)
  | tray
  | windows (pchatbox : List Nat) (gchatbox : List UInt32)

/-- A peer as a machine that answers with the datagram it sends. -/
def clientMachine : Machine Client ClientEvent (Option (List UInt8)) where
  step s
    | .receive ip port datagram => (s.receive ip port datagram).map fun s' => (none, s')
    | .handle time beyond plain => Client.handle glib cfg s time beyond plain
    | .tray => (Client.tray cfg s).map fun s' => (none, s')
    | .windows pchatbox gchatbox => some (none, { s with pchatbox, gchatbox })

/-- A peer that has just started. -/
def Client.start : Client where
  ulist := []
  mlist := []
  pchatbox := []
  gchatbox := []
  heap := []
  stale := false
  pc := .idle

/-! ### Blocks -/

/-- A block that is there and not freed. -/
def Client.Live (s : Client) (id : Nat) : Prop := ∃ b, s.heap[id]? = some b ∧ b.frees = 0

section

variable {s : Client} {id : Nat}

theorem Client.touch_of_live (h : s.Live id) :
  s.touch id = s
  := by
  obtain ⟨b, hb, hfrees⟩ := h
  have hfreed : s.freed id = false := by
    rw [freed, hb]
    simp [hfrees]
  rw [touch, hfreed, Bool.or_false]

theorem Client.update_of_live (h : s.Live id) (f : Msg → Msg) :
  s.update id f = { s with heap := s.heap.modify id fun b => { b with msg := f b.msg } }
  := by
  rw [update, touch_of_live h]

theorem Client.free_of_ne {id' : Nat} (hne : id' ≠ id) :
  (s.free id).heap[id']? = s.heap[id']?
  := getElem?_modify_of_ne hne

/-- A live block is freed once. -/
theorem Client.free_of_live (h : s.Live id) {b : Block} (hb : (s.free id).heap[id]? = some b) :
  b.frees = 1
  := by
  obtain ⟨b₀, hb₀, hfrees⟩ := h
  rw [free] at hb
  simp only at hb
  rw [getElem?_modify_self hb₀] at hb
  cases hb
  simp only [hfrees]

/-- Linking a live block to a list of live ones. -/
theorem Client.link_of_live (hid : s.Live id) (hlive : ∀ id' ∈ s.mlist, s.Live id') :
  s.link id = { s with mlist := s.mlist ++ [id] }
  := by
  have hlast : s.mlist.getLast?.elim s s.touch = s := by
    cases hl : s.mlist.getLast? with
    | none => rfl
    | some l => apply touch_of_live (hlive l (List.mem_of_getLast? hl))
  rw [link, hlast]
  simp only [touch_of_live hid]

end

theorem findUser_eq_some {ulist : List User} {ip : List UInt8} {i : Nat}
    (h : findUser ulist ip = some i) :
  ∃ u, ulist[i]? = some u ∧ u.ipaddr = ip
  := by
  obtain ⟨hi, hip, -⟩ := List.findIdx?_eq_some_iff_getElem.mp h
  use ulist[i], List.getElem?_eq_getElem hi
  apply of_decide_eq_true hip

theorem findUser_eq_none {ulist : List User} {ip : List UInt8} :
  findUser ulist ip = none ↔ ip ∉ ipaddrs ulist
  := by
  rw [findUser, findIdx?_ipaddr_eq_none]

end Peer

end IFreeChat
