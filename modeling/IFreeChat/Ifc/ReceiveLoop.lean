import IFreeChat.Ifc.FeiqHandlers
import IFreeChat.Ifc.FeiqRoundTrip
import IFreeChat.Ifc.PoolBlocks
import IFreeChat.Ifc.Stores

/-!
# The receive loop

`process_message_loop` takes packets from the receive queue, parses each into a new message,
has the message handled, and gives the packet back, between any two of which the callbacks of
the windows can come.  The state keeps to which pools each packet was given back, and how
often each message.  The pool answers as it likes: it gives a block anywhere, which overwrites
what it meets, and it has the block that is given back in its chunks or not.

After any events, between two packets, where no block that is given meets one in use, every packet
is back in its pool and every message is back or linked in `mlist`, exactly when every packet was a
private message of a user in the list, the loop's variable `pool`, which is never set, was the pool
of the packets, and the pool had what was given back (`run_owned_iff`).  The first packet of a
program never is one (`first_packet_lost`).
-/

open Basis

namespace IFreeChat

open Feiq (Packet Msg feiqParsePacket feiqOnEntry feiqOnPchat ip2str offsetIp)
open Peer (Glib asciiGlib)

namespace ReceiveLoop

/-! ### The code -/

/-- `CMD_BR_ENTRY`. -/
def CMD_BR_ENTRY : Nat := 0x01

/-- `CMD_BR_EXIT`. -/
def CMD_BR_EXIT : Nat := 0x02

/-- `CMD_ANSENTRY`. -/
def CMD_ANSENTRY : Nat := 0x03

/-- `CMD_SENDMSG`. -/
def CMD_SENDMSG : Nat := 0x20

/-- The contacts: the place `user_find_entry` finds for an address, and what
`on_entry_callback` makes of them, where it returns. -/
structure Callbacks (σ : Type) where
  userFindEntry : σ → List UInt8 → Option Nat
  onEntryCallback : σ → Msg → Option σ

/-- The string of a message that lies in an array of `n` characters at an offset. -/
def msgArray (msg : Msg) (offset n : Nat) : Option (CArray n) :=
  match msg.cString offset with
  | .error _ => none
  | .ok s => if h : 0 ∉ s ∧ s.length < n then some ⟨s, h.1, h.2⟩ else none

/-- What `on_entry_callback` reads of a message. -/
def entryMsg (msg : Msg) : Option Contacts.EntryMsg := do
  let ip ← msgArray msg offsetIp 32
  let macaddr ← msgArray msg Feiq.offsetMacaddr 32
  let username ← msgArray msg Feiq.offsetUsername 32
  let hostname ← msgArray msg Feiq.offsetHostname 32
  let nickname ← msgArray msg Feiq.offsetNickname 32
  let avatar ← msgArray msg Feiq.offsetAvatar 64
  let category ← msgArray msg Feiq.offsetCategory 32
  some { ip, macaddr, username, hostname, nickname, avatar, category }

/-- The contacts in two tables.  The callback is left out where a string of the message runs
past its array. -/
def tableCallbacks {σ τ : Type} (users : Contacts.Index σ) (categories : Contacts.Index τ) :
    Callbacks (Contacts.State σ τ) where
  userFindEntry s ip :=
    if h : 0 ∉ ip ∧ ip.length < 32 then
      (users.step s.users (.find (Contacts.str32 ⟨ip, h.1, h.2⟩))).bind fun r => Contacts.found r.1
    else none
  onEntryCallback s msg := do
    let msg ← entryMsg msg
    let (_, s) ← Contacts.onEntryCallback users categories s msg
    some s

/-- A packet that was taken, and the pools it was given back to. -/
structure TakenPacket where
  pkt : Packet
  pools : List Nat

/-- A message, its block, and how often `ifc->pool` took it back. -/
structure Block where
  msg : Msg
  addr : Nat
  frees : Nat

/-- The chatbox of a user, and its block. -/
structure OpenChatbox where
  user : Nat
  addr : Nat

/-- Where the loop is: in `udp_recv`, or with a packet, and with its message until that is
handled.  Both are named by the order they were allocated in. -/
inductive Pc where
  | receiving
  | handling (pkt id : Nat)
  | releasing (pkt : Nat)
deriving DecidableEq

/-- The packet of the iteration that runs. -/
def Pc.pkt : Pc → Option Nat
  | .receiving => none
  | .handling pkt _ => some pkt
  | .releasing pkt => some pkt

/-- The message of the iteration that runs, until it is handled. -/
def Pc.msg : Pc → Option Nat
  | .handling _ id => some id
  | _ => none

/-- The contacts, the chatboxes that are open, the messages in `mlist` with the users their
`user_data` points to, the packets, the messages, the loop, and the blocks of the pool that the rest
of the program has, such as those of packets. -/
structure State (σ : Type) where
  contacts : σ
  chatbox : List OpenChatbox
  mlist : List (Nat × Nat)
  pkts : List TakenPacket
  msgs : List Block
  pc : Pc
  others : List Extent

section

variable {σ : Type}

/-- The message of a block is changed. -/
def State.setMsg (s : State σ) (id : Nat) (msg : Msg) : State σ :=
  { s with msgs := s.msgs.modify id fun b => { b with msg } }

/-- `mem_pool_alloc` of these addresses: of the messages in `mlist` and the chatboxes that it meets
nothing is left. -/
def State.overwrite (s : State σ) (r : Extent) : State σ :=
  { s with
    chatbox := r.spared (fun c => chatboxExtent c.addr) s.chatbox
    mlist := s.mlist.filter fun m => ∀ b ∈ s.msgs[m.1]?, r.Apart (msgExtent b.addr) }

/-- `mem_pool_free(ifc->pool, msg)`, which takes the message back if a chunk of the pool has it. -/
def State.freeMsg (s : State σ) (id : Nat) (found : Bool) : State σ :=
  { s with msgs := s.msgs.modify id fun b => { b with frees := b.frees + found.toNat } }

/-- `mem_pool_free(pool, pkt)`, which does nothing where `pool` is `NULL`, and takes the packet back
if a chunk of `pool` has it. -/
def State.freePkt (s : State σ) (pkt : Nat) (pool : Option Nat) (found : Bool) : State σ :=
  match pool with
  | none => s
  | some pool =>
      if found then
        { s with pkts := s.pkts.modify pkt fun taken =>
            { taken with pools := taken.pools ++ [pool] } }
      else s

/-- The chatbox of the user is open. -/
def State.opened (s : State σ) (user : Nat) : Bool := s.chatbox.any fun c => c.user = user

/-- `new_pchatbox`, with the block the pool gives. -/
def State.newPchatbox (s : State σ) (user block : Nat) : State σ :=
  let s := s.overwrite (chatboxExtent block)
  { s with chatbox := s.chatbox ++ [⟨user, block⟩] }

/-- `insert_chat_msg`. -/
def insertChatMsg (s : State σ) (user id : Nat) (found : Bool) : State σ :=
  if s.opened user then s.freeMsg id found else { s with mlist := s.mlist ++ [(id, user)] }

variable (callbacks : Callbacks σ) (glib : Glib)

/-- `on_pchat_callback`. -/
def onPchatCallback (s : State σ) (id : Nat) (found : Bool) : Option (Int × State σ) := do
  let b ← s.msgs[id]?
  match b.msg.cString offsetIp with
  | .error _ => none
  | .ok ip =>
      match callbacks.userFindEntry s.contacts ip with
      | none => some (-1, s)
      | some user => some (0, insertChatMsg s user id found)

/-- `feiq_handle_msg`. -/
def feiqHandleMsg (s : State σ) (id : Nat) (found : Bool) : Option (Int × State σ) := do
  let b ← s.msgs[id]?
  let command := b.msg.command &&& 0xff
  if command = CMD_BR_ENTRY ∨ command = CMD_ANSENTRY then
    match feiqOnEntry glib Feiq.block b.msg with
    | .error _ => none
    | .ok msg =>
        let contacts ← callbacks.onEntryCallback s.contacts msg
        some (0, { s.setMsg id msg with contacts })
  else if command = CMD_BR_EXIT then
    -- `on_exit_callback`
    some (0, s)
  else if command = CMD_SENDMSG then
    match feiqOnPchat glib Feiq.block b.msg with
    | .error _ => none
    | .ok msg =>
        let (_, s) ← onPchatCallback callbacks (s.setMsg id msg) id found
        some (0, s)
  else some (0, s)

/-- The part of the loop up to its test of `protocol_parse_packet`, on the packet it gets and
the block for the message. -/
def State.receive (s : State σ) (pkt : Packet) (block : Option (Nat × Msg)) :
    Option (State σ) := do
  let (addr, msg) ← block
  let s := s.overwrite (msgExtent addr)
  match feiqParsePacket pkt msg with
  | .error _ => none
  | .ok (code, msg) =>
      some { s with
        pkts := s.pkts ++ [⟨pkt, []⟩]
        msgs := s.msgs ++ [⟨msg, addr, 0⟩]
        pc := if code < 0 then .releasing s.pkts.length
          else .handling s.pkts.length s.msgs.length }

/-- `tray_icon_activated`. -/
def State.tray (s : State σ) (block : Nat) (found : Bool) : Option (State σ) :=
  match s.mlist with
  | [] => some s
  | (id, user) :: mlist => do
      let b ← s.msgs[id]?
      let s := { s with mlist }
      let s := if b.msg.gpid = 0 ∧ s.opened user = false then s.newPchatbox user block else s
      some (s.freeMsg id found)

/-- What happens: the loop gets a packet and a block, has its message handled, and gives the
packet back to what its variable `pool` holds; the tray icon is clicked, the row of a user is
double-clicked, and the chatbox of a user is closed; and the rest of the program takes a block from
the pool or gives one back.  A `block` is what the pool gives if it is asked, and `found` is whether
a chunk of the pool has the block that is given back. -/
inductive Event where
  | receive (pkt : Packet) (block : Option (Nat × Msg))
  | handle (found : Bool)
  | release (pool : Option Nat) (found : Bool)
  | tray (block : Nat) (found : Bool)
  | doubleClick (user block : Nat)
  | close (user : Nat)
  | alloc (r : Extent)
  | free (r : Extent)

/-- The loop and the callbacks. -/
def machine : Machine (State σ) Event Unit where
  step s
    | .receive pkt block =>
        match s.pc with
        | .receiving => (s.receive pkt block).map fun s => ((), s)
        | _ => none
    | .handle found =>
        match s.pc with
        | .handling pkt id => (feiqHandleMsg callbacks glib s id found).map fun r =>
            ((), { r.2 with pc := .releasing pkt })
        | _ => none
    | .release pool found =>
        match s.pc with
        | .releasing pkt => some ((), { s.freePkt pkt pool found with pc := .receiving })
        | _ => none
    | .tray block found => (s.tray block found).map fun s => ((), s)
    | .doubleClick user block =>
        some ((), if s.opened user then s else s.newPchatbox user block)
    | .close user =>
        if s.opened user then
          some ((), { s with chatbox := s.chatbox.eraseP fun c => c.user = user })
        else none
    | .alloc r => some ((), { s.overwrite r with others := r :: s.others })
    | .free r => some ((), { s with others := s.others.erase r })

/-- The loop before its first packet, where the rest of the program has these blocks. -/
def start (contacts : σ) (others : List Extent) : State σ where
  contacts := contacts
  chatbox := []
  mlist := []
  pkts := []
  msgs := []
  pc := .receiving
  others := others

end

/-! ### Owners -/

section

variable {σ : Type}

/-- How often a message is linked in `mlist`. -/
def State.linked (s : State σ) (id : Nat) : Nat := (s.mlist.map Prod.fst).count id

/-- Every packet was given back once, to its pool; every message was given back once, or is
linked once; and nothing else is linked. -/
structure Owned (pool : Nat) (s : State σ) : Prop where
  packets : ∀ (p : Nat) (taken : TakenPacket), s.pkts[p]? = some taken → taken.pools = [pool]
  msgs : ∀ (id : Nat) (b : Block), s.msgs[id]? = some b → b.frees + s.linked id = 1
  linked : ∀ m ∈ s.mlist, m.1 < s.msgs.length

/-- The addresses that are taken meet no message in `mlist` and not the one that is handled, no
chatbox, and no block of the rest of the program. -/
structure Unused (s : State σ) (r : Extent) : Prop where
  mlist : ∀ m ∈ s.mlist, ∀ b ∈ s.msgs[m.1]?, r.Apart (msgExtent b.addr)
  msg : ∀ id ∈ s.pc.msg, ∀ b ∈ s.msgs[id]?, r.Apart (msgExtent b.addr)
  chatbox : r.Unused (s.chatbox.map fun c => chatboxExtent c.addr)
  others : r.Unused s.others

instance (s : State σ) (r : Extent) : Decidable (Unused s r) :=
  decidable_of_iff (_ ∧ _ ∧ _ ∧ _)
    ⟨fun ⟨mlist, msg, chatbox, others⟩ => { mlist, msg, chatbox, others },
      fun ⟨mlist, msg, chatbox, others⟩ => ⟨mlist, msg, chatbox, others⟩⟩

/-- A block that is given meets none in use. -/
def Fresh (s : State σ) : Event → Prop
  | .receive _ block => ∀ b ∈ block, Unused s (msgExtent b.1)
  | .tray block _ => ∀ m ∈ s.mlist.head?, ∀ b ∈ s.msgs[m.1]?, b.msg.gpid = 0 →
      s.opened m.2 = false → Unused s (chatboxExtent block)
  | .doubleClick user block => s.opened user = false → Unused s (chatboxExtent block)
  | .alloc r => Unused s r
  | .handle _ | .release _ _ | .close _ | .free _ => True

instance (s : State σ) : ∀ e, Decidable (Fresh s e)
  | .receive _ block => inferInstanceAs (Decidable (∀ b ∈ block, Unused s (msgExtent b.1)))
  | .tray block _ => inferInstanceAs (Decidable (∀ m ∈ s.mlist.head?, ∀ b ∈ s.msgs[m.1]?,
      b.msg.gpid = 0 → s.opened m.2 = false → Unused s (chatboxExtent block)))
  | .doubleClick _ _ => inferInstanceAs (Decidable (_ → _))
  | .alloc r => inferInstanceAs (Decidable (Unused s r))
  | .handle _ | .release _ _ | .close _ | .free _ => .isTrue trivial

/-- The packet of an iteration and its message, until that is handled. -/
def Pc.handles : Pc → Option (Nat × Nat)
  | .handling pkt id => some (pkt, id)
  | _ => none

/-- The message of this user, if there is one, is linked, or given back to the pool that has it. -/
def State.takes (s : State σ) (found : Bool) (user : Option Nat) : Bool :=
  user.any fun user => found || !s.opened user

/-- An iteration that gives everything back or links it: the packet is of this protocol, its
message is a private one, its sender is in the list, and `pool` is the pool of the packets.  What is
given back is in a chunk of its pool. -/
def Releases (callbacks : Callbacks σ) (pool : Nat) (s : State σ) : Event → Prop
  | .receive pkt _ => (ascii "1_lbt4").isPrefixOf pkt.data = true
  | .handle found => ∀ h ∈ s.pc.handles,
      (∀ b ∈ s.msgs[h.2]?, b.msg.command &&& 0xff = CMD_SENDMSG)
        ∧ ∀ taken ∈ s.pkts[h.1]?,
          s.takes found (callbacks.userFindEntry s.contacts (ip2str taken.pkt.ip)) = true
  | .release pool' found => pool' = some pool ∧ found = true
  | .tray _ found => s.mlist ≠ [] → found = true
  | .doubleClick _ _ | .close _ | .alloc _ | .free _ => True

instance (callbacks : Callbacks σ) (pool : Nat) (s : State σ) :
    ∀ e, Decidable (Releases callbacks pool s e)
  | .receive _ _ => inferInstanceAs (Decidable (_ = true))
  | .handle _ => inferInstanceAs (Decidable (∀ h ∈ s.pc.handles, _ ∧ _))
  | .release _ _ => inferInstanceAs (Decidable (_ ∧ _))
  | .tray _ _ => inferInstanceAs (Decidable (_ → _))
  | .doubleClick _ _ | .close _ | .alloc _ | .free _ => .isTrue trivial

/-! ### One iteration -/

/-- Every packet and every message but those of the iteration that runs are as between two
iterations, and these are still with the loop. -/
structure Held (pool : Nat) (s : State σ) : Prop where
  packets : ∀ (p : Nat) (taken : TakenPacket), s.pkts[p]? = some taken → s.pc.pkt ≠ some p →
    taken.pools = [pool]
  msgs : ∀ (id : Nat) (b : Block), s.msgs[id]? = some b → s.pc.msg ≠ some id →
    b.frees + s.linked id = 1
  linked : ∀ m ∈ s.mlist, m.1 < s.msgs.length
  pkt : ∀ p ∈ s.pc.pkt, ∃ taken, s.pkts[p]? = some taken ∧ taken.pools = []
  msg : ∀ p id, s.pc = .handling p id → ∃ taken b, s.pkts[p]? = some taken
    ∧ s.msgs[id]? = some b ∧ b.frees + s.linked id = 0
    ∧ b.msg.HasString offsetIp (ip2str taken.pkt.ip)

/-- Some packet or some message is with nobody, and was not given back as it should. -/
inductive Lost (pool : Nat) (s : State σ) : Prop where
  | packet (p : Nat) (taken : TakenPacket) (htaken : s.pkts[p]? = some taken)
      (hpc : s.pc.pkt ≠ some p) (hpools : taken.pools ≠ [pool])
  | msg (id : Nat) (b : Block) (hb : s.msgs[id]? = some b) (hpc : s.pc.msg ≠ some id)
      (hfrees : b.frees + s.linked id = 0)

theorem Owned.held {pool : Nat} {s : State σ} (h : Owned pool s) (hpc : s.pc = .receiving) :
  Held pool s
  where
  packets p taken htaken _ := h.packets p taken htaken
  msgs id b hb _ := h.msgs id b hb
  linked := h.linked
  pkt p hp := by
    rw [hpc] at hp
    cases hp
  msg p id hp := by
    rw [hpc] at hp
    cases hp

theorem Held.owned {pool : Nat} {s : State σ} (h : Held pool s) (hpc : s.pc = .receiving) :
  Owned pool s
  where
  packets p taken htaken := by
    apply h.packets p taken htaken
    rw [hpc]
    simp [Pc.pkt]
  msgs id b hb := by
    apply h.msgs id b hb
    rw [hpc]
    simp [Pc.msg]
  linked := h.linked

theorem Lost.not_owned {pool : Nat} {s : State σ} (h : Lost pool s) :
  ¬ Owned pool s
  := by
  intro howned
  cases h with
  | packet p taken htaken _ hpools => apply hpools (howned.packets p taken htaken)
  | msg id b hb _ hfrees =>
    have := howned.msgs id b hb
    omega

/-! ### Handling a message -/

theorem setMsg_eq {s : State σ} {id : Nat} {b : Block} (hb : s.msgs[id]? = some b) (msg : Msg) :
  s.setMsg id msg = { s with msgs := s.msgs.set id { b with msg } }
  := by
  rw [State.setMsg, modify_eq_set hb]

theorem freeMsg_eq {s : State σ} {id : Nat} {b : Block} (hb : s.msgs[id]? = some b)
    (found : Bool) :
  s.freeMsg id found = { s with msgs := s.msgs.set id { b with frees := b.frees + found.toNat } }
  := by
  rw [State.freeMsg, modify_eq_set hb]

theorem freePkt_keeps (s : State σ) (p : Nat) (pool : Option Nat) (found : Bool) :
  (s.freePkt p pool found).msgs = s.msgs ∧ (s.freePkt p pool found).mlist = s.mlist
  := by
  cases pool with
  | none => exact ⟨rfl, rfl⟩
  | some pool => cases found <;> exact ⟨rfl, rfl⟩

theorem freePkt_other (s : State σ) {p p' : Nat} (hp : p ≠ p') (pool : Option Nat)
    (found : Bool) :
  (s.freePkt p pool found).pkts[p']? = s.pkts[p']?
  := by
  cases pool with
  | none => rfl
  | some pool =>
    cases found with
    | false => rfl
    | true => apply List.getElem?_modify_ne _ _ hp

/-- A block that meets none in use overwrites nothing. -/
theorem overwrite_eq_self {s : State σ} {r : Extent} (h : Unused s r) :
  s.overwrite r = s
  := by
  have hmlist : (s.mlist.filter fun m => ∀ b ∈ s.msgs[m.1]?, r.Apart (msgExtent b.addr))
      = s.mlist := by
    apply List.filter_eq_self.mpr
    intro m hm
    exact decide_eq_true (h.mlist m hm)
  rw [State.overwrite, Extent.spared_eq_self h.chatbox, hmlist]

/-- A list without its first message takes no more addresses. -/
theorem Unused.tail {s : State σ} {r : Extent} (h : Unused s r) {m : Nat × Nat}
    {mlist : List (Nat × Nat)} (hmlist : s.mlist = m :: mlist) :
  Unused { s with mlist } r
  where
  mlist m' hm' := by
    apply h.mlist m'
    rw [hmlist]
    apply List.mem_cons_of_mem _ hm'
  msg := h.msg
  chatbox := h.chatbox
  others := h.others

/-- The address of a message stays where its text is converted. -/
theorem onPchat_address {glib : Glib} {msg msg' : Msg} {ip : Nat}
    (hip : msg.HasString offsetIp (ip2str ip))
    (h : feiqOnPchat glib Feiq.block msg = .ok msg') :
  msg'.HasString offsetIp (ip2str ip)
  := by
  obtain ⟨string, -, h⟩ := bind_eq_ok.mp h
  split at h
  · cases h
    exact hip
  · rename_i plain _
    obtain ⟨msg₁, hstore, h⟩ := bind_eq_ok.mp h
    obtain ⟨-, rfl⟩ := Feiq.storeIn_eq_ok_iff.mp hstore
    cases h
    have hlength := Feiq.ip2str_length_le ip
    have hapart : Apart Feiq.offsetData plain.length offsetIp ((ip2str ip).length + 1) := by
      right
      rw [Feiq.offsetIp, Feiq.offsetData]
      omega
    obtain ⟨hnul, hlt, hread⟩ := hip.write hapart
    exact ⟨hnul, hlt, hread⟩

theorem ip2str_nul (ip : Nat) :
  0 ∉ ip2str ip
  := by
  have hdot : 0 ∉ ascii "." := by decide
  have hdigits : ∀ n, 0 ∉ numeral 10 n := fun n => Feiq.not_mem_numeral_ten n rfl
  simp only [ip2str, List.mem_append, not_or]
  exact ⟨⟨⟨⟨⟨⟨hdigits _, hdot⟩, hdigits _⟩, hdot⟩, hdigits _⟩, hdot⟩, hdigits _⟩

/-- A parsed message has the address of its packet. -/
theorem parse_address {pkt : Packet} {msg msg' : Msg}
    (h : feiqParsePacket pkt msg = .ok (0, msg')) :
  msg'.HasString offsetIp (ip2str pkt.ip)
  := by
  rw [← Feiq.feiqParsePacketIn_block] at h
  obtain ⟨version, rest, -, -, -, hfields⟩ := Feiq.fields_of_parseIn h
  rcases hfields with ⟨-, hcode⟩ | ⟨v, avatarId, packetId, username, hostname, command, data, -, -,
    -, -, -, -, -, -, -, -, -, -, -, -, rfl⟩
  · cases hcode
  · have hlength := Feiq.ip2str_length_le pkt.ip
    constructor
    · apply ip2str_nul
    · simp only [Feiq.offsetIp, Feiq.sizeofMsg]
      omega
    · rw [Feiq.parsedMsg]
      simp only
      iterate 4 rw [Memory.read_write_of_apart]
      · apply Feiq.read_write_string
      all_goals
        simp only [Apart, List.length_append, List.length_singleton, List.length_replicate,
          Feiq.offsetIp, Feiq.offsetUsername, Feiq.offsetHostname, Feiq.offsetData, Feiq.sizeofData]
        omega

/-- The user `on_pchat_callback` finds for a message, once its text is converted. -/
def pchatUser (callbacks : Callbacks σ) (glib : Glib) (s : State σ) (msg : Msg) :
    Except Fault (Option Nat) := do
  let msg ← feiqOnPchat glib Feiq.block msg
  let ip ← msg.cString offsetIp
  .ok (callbacks.userFindEntry s.contacts ip)

/-- A message was given back or linked, or left. -/
inductive Settled (s s' : State σ) (id : Nat) (b : Block) : Bool → Prop
  | freed (b' : Block) (hmsgs : s'.msgs = s.msgs.set id b')
      (hfrees : b'.frees = b.frees + 1) (hmlist : s'.mlist = s.mlist) :
      Settled s s' id b true
  | linked (user : Nat) (b' : Block) (hmsgs : s'.msgs = s.msgs.set id b')
      (hfrees : b'.frees = b.frees) (hmlist : s'.mlist = s.mlist ++ [(id, user)]) :
      Settled s s' id b true
  | left (b' : Block) (hmsgs : s'.msgs = s.msgs.set id b') (hfrees : b'.frees = b.frees)
      (hmlist : s'.mlist = s.mlist) : Settled s s' id b false

/-- What `insert_chat_msg` does with a message. -/
theorem insert_cases {s : State σ} {id : Nat} {b : Block} (hb : s.msgs[id]? = some b)
    (user : Nat) (found : Bool) :
  Settled s (insertChatMsg s user id found) id b (s.takes found (some user))
  := by
  rw [insertChatMsg, State.takes, Option.any_some]
  cases hopened : s.opened user with
  | false =>
    rw [Bool.not_false, Bool.or_true]
    exact Settled.linked user b (set_self hb).symm rfl rfl
  | true =>
    rw [if_pos rfl, freeMsg_eq hb, Bool.not_true, Bool.or_false]
    cases found with
    | true => exact Settled.freed _ rfl rfl rfl
    | false => exact Settled.left _ rfl rfl rfl

/-- What `on_pchat_callback` does with the message of a user, or of nobody in the list. -/
theorem pchat_cases {callbacks : Callbacks σ} {s s' : State σ} {id : Nat} {b : Block} {code : Int}
    {found : Bool} (hb : s.msgs[id]? = some b)
    (h : onPchatCallback callbacks s id found = some (code, s')) :
  s'.pkts = s.pkts ∧ ∃ ip, b.msg.cString offsetIp = .ok ip
    ∧ Settled s s' id b (s.takes found (callbacks.userFindEntry s.contacts ip))
  := by
  rw [onPchatCallback, hb, Option.bind_eq_bind, Option.bind_some] at h
  split at h
  · cases h
  · rename_i ip hip
    split at h
    · rename_i hnone
      cases h
      refine ⟨rfl, ip, hip, ?_⟩
      rw [hnone]
      exact Settled.left b (set_self hb).symm rfl rfl
    · rename_i user hsome
      cases h
      refine ⟨?_, ip, hip, ?_⟩
      · rw [insertChatMsg]
        split <;> rfl
      · rw [hsome]
        apply insert_cases hb

/-- The conversion of a message before it is settled does not matter. -/
theorem Settled.of_setMsg {s s' : State σ} {id : Nat} {b : Block} {msg : Msg}
    {taken : Bool} (hb : s.msgs[id]? = some b)
    (h : Settled (s.setMsg id msg) s' id { b with msg } taken) :
  Settled s s' id b taken
  := by
  have hset : ∀ b', (s.setMsg id msg).msgs.set id b' = s.msgs.set id b' := by
    intro b'
    rw [setMsg_eq hb]
    apply List.set_set
  cases h with
  | freed b' hmsgs hfrees hmlist =>
    exact Settled.freed b' (hmsgs.trans (hset b')) hfrees hmlist
  | linked user b' hmsgs hfrees hmlist =>
    exact Settled.linked user b' (hmsgs.trans (hset b')) hfrees hmlist
  | left b' hmsgs hfrees hmlist => exact Settled.left b' (hmsgs.trans (hset b')) hfrees hmlist

/-- What handling a message does: a private message of a user that is found is given back or
linked, and every other is left. -/
theorem handle_cases {callbacks : Callbacks σ} {glib : Glib} {s s' : State σ} {id : Nat}
    {b : Block} {code : Int} {found : Bool} (hb : s.msgs[id]? = some b)
    (h : feiqHandleMsg callbacks glib s id found = some (code, s')) :
  s'.pkts = s.pkts ∧ ∃ taken, Settled s s' id b taken
    ∧ (b.msg.command &&& 0xff = CMD_SENDMSG →
      ∃ user, pchatUser callbacks glib s b.msg = .ok user ∧ taken = s.takes found user)
    ∧ (b.msg.command &&& 0xff ≠ CMD_SENDMSG → taken = false)
  := by
  rw [feiqHandleMsg, hb, Option.bind_eq_bind, Option.bind_some] at h
  dsimp only at h
  split at h
  · rename_i hentry
    have hother : b.msg.command &&& 0xff ≠ CMD_SENDMSG := by
      intro hsend
      rw [hsend] at hentry
      apply absurd hentry (by decide)
    split at h
    · cases h
    · obtain ⟨contacts, -, h⟩ := Option.bind_eq_some_iff.mp h
      rw [setMsg_eq hb] at h
      cases h
      exact ⟨rfl, false, Settled.left _ rfl rfl rfl, fun hsend => absurd hsend hother,
        fun _ => rfl⟩
  · split at h
    · rename_i hexit
      have hother : b.msg.command &&& 0xff ≠ CMD_SENDMSG := by
        rw [hexit]
        decide
      cases h
      exact ⟨rfl, false, Settled.left b (set_self hb).symm rfl rfl,
        fun hsend => absurd hsend hother, fun _ => rfl⟩
    · split at h
      · rename_i hsend
        split at h
        · cases h
        · rename_i msg hpchat
          have hset : (s.setMsg id msg).msgs[id]? = some { b with msg } := by
            rw [setMsg_eq hb, List.getElem?_set_self (List.getElem?_eq_some_iff.mp hb).1]
          obtain ⟨⟨code', s₁⟩, hcallback, h⟩ := Option.bind_eq_some_iff.mp h
          cases h
          obtain ⟨hpkts, ip, hip, hsettled⟩ := pchat_cases hset hcallback
          refine ⟨hpkts, _, hsettled.of_setMsg hb, ?_, fun hother => absurd hsend hother⟩
          intro _
          refine ⟨_, ?_, rfl⟩
          exact bind_eq_ok.mpr ⟨msg, hpchat, bind_eq_ok.mpr ⟨ip, hip, rfl⟩⟩
      · rename_i hother
        cases h
        exact ⟨rfl, false, Settled.left b (set_self hb).symm rfl rfl,
          fun hsend => absurd hsend hother, fun _ => rfl⟩

/-- The user of a message is the one of the address it was parsed with. -/
theorem pchatUser_eq {callbacks : Callbacks σ} {glib : Glib} {s : State σ} {msg : Msg} {ip : Nat}
    (hip : msg.HasString offsetIp (ip2str ip)) {user : Option Nat}
    (h : pchatUser callbacks glib s msg = .ok user) :
  user = callbacks.userFindEntry s.contacts (ip2str ip)
  := by
  obtain ⟨msg', hpchat, h⟩ := bind_eq_ok.mp h
  obtain ⟨ip', hip', h⟩ := bind_eq_ok.mp h
  rw [Feiq.cString_eq_ok_iff.mpr (onPchat_address hip hpchat)] at hip'
  cases hip'
  cases h
  rfl

/-- The return code of the parser says whether the packet is of this protocol. -/
theorem parse_code {pkt : Packet} {msg msg' : Msg} {code : Int}
    (h : feiqParsePacket pkt msg = .ok (code, msg')) :
  code = if (ascii "1_lbt4").isPrefixOf pkt.data then 0 else -1
  := by
  rw [← Feiq.feiqParsePacketIn_block] at h
  obtain ⟨version, rest, hdata, -, -, hfields⟩ := Feiq.fields_of_parseIn h
  rw [hdata, isPrefixOf_append_cons (by decide)]
  rcases hfields with ⟨hlbt4, hcode⟩ | ⟨_, _, _, _, _, _, _, hlbt4, hcode, -⟩
  · rw [hlbt4, hcode]
    rfl
  · rw [hlbt4, hcode]
    rfl

/-! ### One step -/

/-- What a click on the tray icon does. -/
theorem tray_cases {s s' : State σ} {block : Nat} {found : Bool}
    (hfresh : Fresh s (.tray block found)) (h : s.tray block found = some s') :
  (s.mlist = [] ∧ s' = s)
    ∨ ∃ id user mlist b chatbox, s.mlist = (id, user) :: mlist ∧ s.msgs[id]? = some b
      ∧ s' = { s with
          mlist, chatbox, msgs := s.msgs.set id { b with frees := b.frees + found.toNat } }
  := by
  rw [State.tray] at h
  split at h
  · rename_i hnil
    cases h
    left
    exact ⟨hnil, rfl⟩
  · rename_i id user mlist hmlist
    obtain ⟨b, hb, h⟩ := Option.bind_eq_some_iff.mp h
    right
    dsimp only at h
    split at h
    · rename_i hnew
      have hunused := (hfresh (id, user) (by simp [hmlist]) b hb hnew.1 hnew.2).tail hmlist
      rw [State.newPchatbox, overwrite_eq_self hunused] at h
      cases h
      exact ⟨id, user, mlist, b, _, hmlist, hb,
        @freeMsg_eq σ { s with mlist, chatbox := _ } id b hb found⟩
    · cases h
      exact ⟨id, user, mlist, b, s.chatbox, hmlist, hb,
        @freeMsg_eq σ { s with mlist } id b hb found⟩

/-- What getting a packet does. -/
theorem receive_cases {s s' : State σ} {pkt : Packet} {block : Option (Nat × Msg)}
    (hfresh : Fresh s (.receive pkt block)) (h : s.receive pkt block = some s') :
  ∃ msg addr, s' = { s with
      pkts := s.pkts ++ [⟨pkt, []⟩]
      msgs := s.msgs ++ [⟨msg, addr, 0⟩]
      pc := if (ascii "1_lbt4").isPrefixOf pkt.data then .handling s.pkts.length s.msgs.length
        else .releasing s.pkts.length }
    ∧ ((ascii "1_lbt4").isPrefixOf pkt.data = true → msg.HasString offsetIp (ip2str pkt.ip))
  := by
  obtain ⟨⟨addr, junk⟩, hblock, h⟩ := Option.bind_eq_some_iff.mp h
  simp only [overwrite_eq_self (hfresh (addr, junk) hblock)] at h
  split at h
  · cases h
  · rename_i code msg hparse
    have hcode := parse_code hparse
    cases h
    refine ⟨msg, addr, ?_, ?_⟩
    · cases hlbt4 : (ascii "1_lbt4").isPrefixOf pkt.data with
      | true => simp [hcode, hlbt4]
      | false => simp [hcode, hlbt4]
    · intro hlbt4
      rw [hlbt4, if_pos rfl] at hcode
      rw [hcode] at hparse
      apply parse_address hparse

section

variable {pool : Nat} {s s' : State σ}

theorem linked_concat (mlist : List (Nat × Nat)) (id user id' : Nat) :
  ((mlist ++ [(id, user)]).map Prod.fst).count id'
    = (mlist.map Prod.fst).count id' + if id = id' then 1 else 0
  := by
  simp [List.count_append, List.count_singleton]

theorem linked_cons (mlist : List (Nat × Nat)) (id user id' : Nat) :
  (((id, user) :: mlist).map Prod.fst).count id'
    = (mlist.map Prod.fst).count id' + if id = id' then 1 else 0
  := by
  simp [List.count_cons]

/-- What is not a message is not linked. -/
theorem Held.not_linked (h : Held pool s) :
  s.linked s.msgs.length = 0
  := by
  rw [State.linked, List.count_eq_zero]
  intro hmem
  obtain ⟨m, hm, heq⟩ := List.mem_map.mp hmem
  have := h.linked m hm
  omega

/-- A packet of this protocol is taken, and its message is with the loop. -/
theorem Held.receive (h : Held pool s) (hpc : s.pc = .receiving) {pkt : Packet}
    {block : Option (Nat × Msg)} (hfresh : Fresh s (.receive pkt block))
    (hlbt4 : (ascii "1_lbt4").isPrefixOf pkt.data = true)
    (hreceive : s.receive pkt block = some s') :
  Held pool s'
  := by
  obtain ⟨msg, addr, rfl, haddress⟩ := receive_cases hfresh hreceive
  rw [if_pos hlbt4]
  constructor
  · intro p taken htaken hne
    rcases concat_cases htaken with ⟨-, htaken⟩ | ⟨rfl, -⟩
    · apply h.packets p taken htaken
      rw [hpc]
      simp [Pc.pkt]
    · apply absurd rfl hne
  · intro id b hb hne
    rcases concat_cases hb with ⟨-, hb⟩ | ⟨rfl, -⟩
    · apply h.msgs id b hb
      rw [hpc]
      simp [Pc.msg]
    · apply absurd rfl hne
  · intro m hm
    have := h.linked m hm
    rw [List.length_append, List.length_singleton]
    omega
  · intro p hp
    cases hp
    exact ⟨_, List.getElem?_concat_length, rfl⟩
  · intro p id heq
    cases heq
    refine ⟨_, _, List.getElem?_concat_length, List.getElem?_concat_length, ?_,
      haddress hlbt4⟩
    change 0 + s.linked s.msgs.length = 0
    rw [h.not_linked]

/-- A packet of another protocol loses its message. -/
theorem Held.lost_receive (h : Held pool s) {pkt : Packet} {block : Option (Nat × Msg)}
    (hfresh : Fresh s (.receive pkt block))
    (hlbt4 : ¬ (ascii "1_lbt4").isPrefixOf pkt.data = true)
    (hreceive : s.receive pkt block = some s') :
  Lost pool s'
  := by
  obtain ⟨msg, addr, rfl, -⟩ := receive_cases hfresh hreceive
  rw [if_neg hlbt4]
  apply Lost.msg s.msgs.length ⟨msg, addr, 0⟩ List.getElem?_concat_length
  · simp [Pc.msg]
  · change 0 + s.linked s.msgs.length = 0
    rw [h.not_linked]

/-- Handling a message leaves all others as they were. -/
theorem handle_others {callbacks : Callbacks σ} {glib : Glib} {id : Nat} {b : Block} {code : Int}
    {found : Bool} (hb : s.msgs[id]? = some b)
    (h : feiqHandleMsg callbacks glib s id found = some (code, s')) :
  s'.pkts = s.pkts ∧ (∃ b', s'.msgs = s.msgs.set id b')
    ∧ (∀ id', id' ≠ id → s'.linked id' = s.linked id') ∧ ∀ m ∈ s'.mlist, m.1 = id ∨ m ∈ s.mlist
  := by
  obtain ⟨hpkts, taken, hsettled, -, -⟩ := handle_cases hb h
  use hpkts
  simp only [State.linked]
  cases hsettled with
  | freed b' hmsgs _ hmlist =>
    rw [hmlist]
    exact ⟨⟨b', hmsgs⟩, fun _ _ => rfl, fun _ => Or.inr⟩
  | linked user b' hmsgs _ hmlist =>
    rw [hmlist]
    refine ⟨⟨b', hmsgs⟩, ?_, ?_⟩
    · intro id' hne
      rw [linked_concat, if_neg (Ne.symm hne), Nat.add_zero]
    · intro m hm
      rcases List.mem_append.mp hm with hm | hm
      · right
        apply hm
      · left
        rw [List.mem_singleton.mp hm]
  | left b' hmsgs _ hmlist =>
    rw [hmlist]
    exact ⟨⟨b', hmsgs⟩, fun _ _ => rfl, fun _ => Or.inr⟩

/-- A message that was not left was given back or linked once more. -/
theorem Settled.counts {id : Nat} {b : Block} {taken : Bool} (hb : s.msgs[id]? = some b)
    (h : Settled s s' id b taken) :
  ∃ b', s'.msgs[id]? = some b' ∧ b'.frees + s'.linked id
    = b.frees + s.linked id + if taken = true then 1 else 0
  := by
  have hlt := (List.getElem?_eq_some_iff.mp hb).1
  simp only [State.linked]
  cases h with
  | freed b' hmsgs hfrees hmlist =>
    refine ⟨b', by rw [hmsgs, List.getElem?_set_self hlt], ?_⟩
    rw [hfrees, hmlist, if_pos rfl]
    omega
  | linked user b' hmsgs hfrees hmlist =>
    refine ⟨b', by rw [hmsgs, List.getElem?_set_self hlt], ?_⟩
    rw [hfrees, hmlist, linked_concat, if_pos rfl, if_pos rfl, Nat.add_assoc]
  | left b' hmsgs hfrees hmlist =>
    refine ⟨b', by rw [hmsgs, List.getElem?_set_self hlt], ?_⟩
    rw [hfrees, hmlist, if_neg (by simp), Nat.add_zero]

/-- Handling a message gives it back or links it once more exactly where it is a private one of
a user in the list, and the pool has it if it is given back. -/
theorem handle_counts {callbacks : Callbacks σ} {glib : Glib} {id ip : Nat} {b : Block}
    {code : Int} {found : Bool} (hb : s.msgs[id]? = some b)
    (hip : b.msg.HasString offsetIp (ip2str ip))
    (h : feiqHandleMsg callbacks glib s id found = some (code, s')) :
  ∃ b', s'.msgs[id]? = some b' ∧ b'.frees + s'.linked id = b.frees + s.linked id
      + if b.msg.command &&& 0xff = CMD_SENDMSG
          ∧ s.takes found (callbacks.userFindEntry s.contacts (ip2str ip)) = true then 1 else 0
  := by
  obtain ⟨-, taken, hsettled, hsend, hother⟩ := handle_cases hb h
  obtain ⟨b', hb', hcount⟩ := hsettled.counts hb
  refine ⟨b', hb', hcount.trans ?_⟩
  congr 1
  by_cases hcommand : b.msg.command &&& 0xff = CMD_SENDMSG
  · obtain ⟨user, huser, rfl⟩ := hsend hcommand
    rw [pchatUser_eq hip huser]
    simp only [hcommand, true_and]
  · rw [hother hcommand, if_neg (by simp), if_neg (fun hboth => hcommand hboth.1)]

/-- A message that is given back or linked is so once. -/
theorem Held.handle (h : Held pool s) {callbacks : Callbacks σ} {glib : Glib} {p id : Nat}
    {code : Int} {found : Bool} (hpc : s.pc = .handling p id)
    (hcond : Releases callbacks pool s (.handle found))
    (hhandle : feiqHandleMsg callbacks glib s id found = some (code, s')) :
  Held pool { s' with pc := .releasing p }
  := by
  obtain ⟨taken, b, htaken, hb, hheld, hip⟩ := h.msg p id hpc
  obtain ⟨hcommand, hfound⟩ := hcond (p, id) (by rw [hpc]; rfl)
  obtain ⟨hpkts, ⟨b₁, hmsgs⟩, hothers, hmlist⟩ := handle_others hb hhandle
  obtain ⟨b', hb', hcount⟩ := handle_counts hb hip hhandle
  rw [if_pos ⟨hcommand b hb, hfound taken htaken⟩, hheld] at hcount
  constructor
  · intro p' taken' htaken' hne
    rw [hpkts] at htaken'
    apply h.packets p' taken' htaken'
    rw [hpc]
    exact hne
  · intro id' b'' hb'' _
    by_cases hne : id' = id
    · subst hne
      rw [hb'] at hb''
      cases hb''
      apply hcount
    · change b''.frees + s'.linked id' = 1
      rw [hmsgs, List.getElem?_set_ne (Ne.symm hne)] at hb''
      rw [hothers id' hne]
      apply h.msgs id' b'' hb''
      rw [hpc]
      simp only [Pc.msg, ne_eq, Option.some.injEq]
      exact Ne.symm hne
  · intro m hm
    change m.1 < s'.msgs.length
    rw [hmsgs, List.length_set]
    rcases hmlist m hm with rfl | hm
    · apply (List.getElem?_eq_some_iff.mp hb).1
    · apply h.linked m hm
  · intro p' hp'
    change ∃ taken, s'.pkts[p']? = some taken ∧ _
    rw [hpkts]
    apply h.pkt p'
    rw [hpc]
    exact hp'
  · intro p' id' heq
    cases heq

/-- Any other message is lost. -/
theorem Held.lost_handle (h : Held pool s) {callbacks : Callbacks σ} {glib : Glib} {p id : Nat}
    {code : Int} {found : Bool} (hpc : s.pc = .handling p id)
    (hcond : ¬ Releases callbacks pool s (.handle found))
    (hhandle : feiqHandleMsg callbacks glib s id found = some (code, s')) :
  Lost pool { s' with pc := .releasing p }
  := by
  obtain ⟨taken, b, htaken, hb, hheld, hip⟩ := h.msg p id hpc
  obtain ⟨b', hb', hcount⟩ := handle_counts hb hip hhandle
  rw [if_neg, hheld] at hcount
  · refine Lost.msg id b' hb' ?_ hcount
    simp [Pc.msg]
  · rintro ⟨hcommand, hfound⟩
    apply hcond
    rintro ⟨p', id'⟩ hhandles
    rw [hpc] at hhandles
    cases hhandles
    constructor
    · intro b₁ hb₁
      rw [hb] at hb₁
      cases hb₁
      exact hcommand
    · intro taken₁ htaken₁
      rw [htaken] at htaken₁
      cases htaken₁
      exact hfound

/-- A packet that is given back to its pool is so once. -/
theorem Held.release (h : Held pool s) {p : Nat} (hpc : s.pc = .releasing p) :
  Held pool { s.freePkt p (some pool) true with pc := .receiving }
  := by
  obtain ⟨taken, htaken, hpools⟩ := h.pkt p (by rw [hpc]; rfl)
  constructor
  · intro p' taken' htaken' _
    simp only [State.freePkt, if_true, modify_eq_set htaken] at htaken'
    rcases set_cases htaken' with ⟨rfl, rfl⟩ | ⟨hne, htaken'⟩
    · rw [hpools]
      rfl
    · apply h.packets p' taken' htaken'
      rw [hpc]
      simp only [Pc.pkt, ne_eq, Option.some.injEq]
      exact Ne.symm hne
  · intro id b hb _
    apply h.msgs id b hb
    rw [hpc]
    simp [Pc.msg]
  · apply h.linked
  · intro p' hp'
    cases hp'
  · intro p' id' heq
    cases heq

/-- A packet that is given back to nothing, or elsewhere, or where its pool does not have it, is
lost. -/
theorem Held.lost_release (h : Held pool s) {p : Nat} (hpc : s.pc = .releasing p)
    {pool' : Option Nat} {found : Bool} (hne : ¬ (pool' = some pool ∧ found = true)) :
  Lost pool { s.freePkt p pool' found with pc := .receiving }
  := by
  obtain ⟨taken, htaken, hpools⟩ := h.pkt p (by rw [hpc]; rfl)
  cases pool' with
  | none =>
    refine Lost.packet p taken htaken ?_ ?_
    · simp [Pc.pkt]
    · simp [hpools]
  | some a =>
    cases found with
    | false =>
      refine Lost.packet p taken htaken ?_ ?_
      · simp [Pc.pkt]
      · simp [hpools]
    | true =>
      have hlt := (List.getElem?_eq_some_iff.mp htaken).1
      apply Lost.packet p { taken with pools := taken.pools ++ [a] }
      · simp only [State.freePkt, if_true, modify_eq_set htaken]
        rw [List.getElem?_set_self hlt]
      · simp [Pc.pkt]
      · rw [hpools]
        rintro heq
        cases heq
        apply hne ⟨rfl, rfl⟩

/-- What a message that is unlinked leaves in `mlist`. -/
theorem linked_of_mlist {id user : Nat} {mlist : List (Nat × Nat)}
    (hmlist : s.mlist = (id, user) :: mlist) (id' : Nat) :
  s.linked id' = (mlist.map Prod.fst).count id' + if id = id' then 1 else 0
  := by
  rw [State.linked, hmlist, linked_cons]

/-- A click on the tray icon gives back what it unlinks. -/
theorem Held.tray (h : Held pool s) {block : Nat} {found : Bool}
    (hfresh : Fresh s (.tray block found)) (hfound : s.mlist ≠ [] → found = true)
    (htray : s.tray block found = some s') :
  Held pool s'
  := by
  obtain ⟨-, rfl⟩ | ⟨id, user, mlist, b, chatbox, hmlist, hb, rfl⟩ := tray_cases hfresh htray
  · exact h
  obtain rfl := hfound (by simp [hmlist])
  have hlinked := linked_of_mlist hmlist
  have hothers : ∀ m ∈ mlist, m ∈ s.mlist := by
    intro m hm
    rw [hmlist]
    apply List.mem_cons_of_mem _ hm
  have hlt := (List.getElem?_eq_some_iff.mp hb).1
  constructor
  · apply h.packets
  · intro id' b' hb' hne
    change b'.frees + (mlist.map Prod.fst).count id' = 1
    rcases set_cases hb' with ⟨rfl, rfl⟩ | ⟨hid, hb'⟩
    · have hold := h.msgs id' b hb hne
      rw [hlinked, if_pos rfl] at hold
      simp only [Bool.toNat_true]
      omega
    · have hold := h.msgs id' b' hb' hne
      rw [hlinked, if_neg (Ne.symm hid)] at hold
      exact hold
  · intro m hm
    rw [List.length_set]
    apply h.linked m (hothers m hm)
  · apply h.pkt
  · intro p id' hpc
    obtain ⟨taken, b', htaken, hb', hheld, hip⟩ := h.msg p id' hpc
    rw [hlinked] at hheld
    have hid : id ≠ id' := by
      rintro rfl
      rw [if_pos rfl] at hheld
      omega
    rw [if_neg hid] at hheld
    refine ⟨taken, b', htaken, ?_, hheld, hip⟩
    rw [List.getElem?_set_ne hid]
    exact hb'

/-- A message that is unlinked and that the pool does not have is lost. -/
theorem Held.lost_tray (h : Held pool s) {block : Nat} {found : Bool}
    (hfresh : Fresh s (.tray block found)) (hfound : ¬ (s.mlist ≠ [] → found = true))
    (htray : s.tray block found = some s') :
  Lost pool s'
  := by
  obtain ⟨hne, hfound⟩ := Classical.not_imp.mp hfound
  obtain rfl := Bool.eq_false_of_not_eq_true hfound
  obtain ⟨hnil, -⟩ | ⟨id, user, mlist, b, chatbox, hmlist, hb, rfl⟩ := tray_cases hfresh htray
  · apply absurd hnil hne
  have hlinked := linked_of_mlist hmlist id
  rw [if_pos rfl] at hlinked
  have hother : s.pc.msg ≠ some id := by
    intro hpc
    obtain ⟨p, hpc⟩ : ∃ p, s.pc = .handling p id := by
      cases hs : s.pc with
      | handling p id' =>
        rw [hs] at hpc
        cases hpc
        exact ⟨p, rfl⟩
      | receiving =>
        rw [hs] at hpc
        cases hpc
      | releasing p =>
        rw [hs] at hpc
        cases hpc
    obtain ⟨taken, b', -, -, hheld, -⟩ := h.msg p id hpc
    omega
  have hlt := (List.getElem?_eq_some_iff.mp hb).1
  have hone := h.msgs id b hb hother
  refine Lost.msg id _ (List.getElem?_set_self hlt) hother ?_
  change b.frees + (mlist.map Prod.fst).count id = 0
  omega

/-- A packet or a message that nobody has stays where no step is about it. -/
theorem Lost.keep (h : Lost pool s)
    (hpkts : ∀ (p : Nat) (taken : TakenPacket), s.pkts[p]? = some taken → s.pc.pkt ≠ some p →
      s'.pkts[p]? = some taken ∧ s'.pc.pkt ≠ some p)
    (hmsgs : ∀ (id : Nat) (b : Block), s.msgs[id]? = some b → s.pc.msg ≠ some id →
      s.linked id = 0 → s'.msgs[id]? = some b ∧ s'.pc.msg ≠ some id ∧ s'.linked id = 0) :
  Lost pool s'
  := by
  cases h with
  | packet p taken htaken hpc hpools =>
    obtain ⟨htaken', hpc'⟩ := hpkts p taken htaken hpc
    exact Lost.packet p taken htaken' hpc' hpools
  | msg id b hb hpc hfrees =>
    obtain ⟨hb', hpc', hlinked⟩ := hmsgs id b hb hpc (by omega)
    refine Lost.msg id b hb' hpc' ?_
    omega

theorem Lost.receive (h : Lost pool s) {pkt : Packet} {block : Option (Nat × Msg)}
    (hfresh : Fresh s (.receive pkt block)) (hreceive : s.receive pkt block = some s') :
  Lost pool s'
  := by
  obtain ⟨msg, addr, rfl, -⟩ := receive_cases hfresh hreceive
  apply h.keep
  · intro p taken htaken _
    have hlt := (List.getElem?_eq_some_iff.mp htaken).1
    constructor
    · rw [List.getElem?_append_left hlt, htaken]
    · dsimp only
      split <;> simp only [Pc.pkt, ne_eq, Option.some.injEq] <;> omega
  · intro id b hb _ hlinked
    have hlt := (List.getElem?_eq_some_iff.mp hb).1
    refine ⟨?_, ?_, hlinked⟩
    · rw [List.getElem?_append_left hlt, hb]
    · dsimp only
      split
      · simp only [Pc.msg, ne_eq, Option.some.injEq]
        omega
      · simp [Pc.msg]

theorem Lost.handle (h : Lost pool s) {callbacks : Callbacks σ} {glib : Glib} {p id : Nat}
    {code : Int} {found : Bool} (hpc : s.pc = .handling p id)
    (hhandle : feiqHandleMsg callbacks glib s id found = some (code, s')) :
  Lost pool { s' with pc := .releasing p }
  := by
  obtain ⟨b, hb, -⟩ := Option.bind_eq_some_iff.mp hhandle
  obtain ⟨hpkts, ⟨b', hmsgs⟩, hothers, -⟩ := handle_others hb hhandle
  apply h.keep
  · intro p' taken htaken hne
    rw [hpc] at hne
    refine ⟨?_, hne⟩
    rw [hpkts, htaken]
  · intro id' b₁ hb₁ hne hlinked
    have hid : id' ≠ id := by
      rintro rfl
      apply hne
      rw [hpc]
      rfl
    refine ⟨?_, by simp [Pc.msg], ?_⟩
    · rw [hmsgs, List.getElem?_set_ne (Ne.symm hid), hb₁]
    · change s'.linked id' = 0
      rw [hothers id' hid, hlinked]

theorem Lost.release (h : Lost pool s) {p : Nat} (hpc : s.pc = .releasing p)
    (pool' : Option Nat) (found : Bool) :
  Lost pool { s.freePkt p pool' found with pc := .receiving }
  := by
  obtain ⟨hmsgs, hmlist⟩ := freePkt_keeps s p pool' found
  apply h.keep
  · intro p' taken htaken hne
    have hp : p ≠ p' := by
      rintro rfl
      apply hne
      rw [hpc]
      rfl
    refine ⟨?_, by simp [Pc.pkt]⟩
    exact (freePkt_other s hp pool' found).trans htaken
  · intro id b hb _ hlinked
    refine ⟨?_, by simp [Pc.msg], ?_⟩
    · rw [hmsgs]
      exact hb
    · rw [State.linked, hmlist]
      exact hlinked

theorem Lost.tray (h : Lost pool s) {block : Nat} {found : Bool}
    (hfresh : Fresh s (.tray block found)) (htray : s.tray block found = some s') :
  Lost pool s'
  := by
  obtain ⟨-, rfl⟩ | ⟨id, user, mlist, b, chatbox, hmlist, hb, rfl⟩ := tray_cases hfresh htray
  · exact h
  apply h.keep
  · intro p taken htaken hne
    exact ⟨htaken, hne⟩
  · intro id' b' hb' hne hlinked
    rw [linked_of_mlist hmlist] at hlinked
    have hid : id ≠ id' := by
      rintro rfl
      rw [if_pos rfl] at hlinked
      omega
    rw [if_neg hid] at hlinked
    refine ⟨?_, hne, hlinked⟩
    rw [List.getElem?_set_ne hid, hb']

/-! ### Any step -/

/-- What a step does, where a block that is given meets none in use. -/
theorem step_cases {callbacks : Callbacks σ} {glib : Glib} {e : Event} {o : Unit}
    (hfresh : Fresh s e) (h : (machine callbacks glib).step s e = some (o, s')) :
  (∃ pkt block, e = .receive pkt block ∧ s.pc = .receiving ∧ s.receive pkt block = some s')
    ∨ (∃ p id code s₁ found, e = .handle found ∧ s.pc = .handling p id
      ∧ feiqHandleMsg callbacks glib s id found = some (code, s₁)
      ∧ s' = { s₁ with pc := .releasing p })
    ∨ (∃ p pool found, e = .release pool found ∧ s.pc = .releasing p
      ∧ s' = { s.freePkt p pool found with pc := .receiving })
    ∨ (∃ block found, e = .tray block found ∧ s.tray block found = some s')
    ∨ ∃ chatbox others, (∀ callbacks pool, Releases (σ := σ) callbacks pool s e)
      ∧ s' = { s with chatbox, others }
  := by
  cases e with
  | receive pkt block =>
    simp only [machine] at h
    split at h
    · rename_i hpc
      obtain ⟨s₁, hreceive, heq⟩ := Option.map_eq_some_iff.mp h
      cases heq
      exact Or.inl ⟨pkt, block, rfl, hpc, hreceive⟩
    · cases h
  | handle found =>
    simp only [machine] at h
    split at h
    · rename_i p id hpc
      obtain ⟨⟨code, s₁⟩, hhandle, heq⟩ := Option.map_eq_some_iff.mp h
      cases heq
      exact Or.inr (Or.inl ⟨p, id, code, s₁, found, rfl, hpc, hhandle, rfl⟩)
    · cases h
  | release pool found =>
    simp only [machine] at h
    split at h
    · rename_i p hpc
      cases h
      exact Or.inr (Or.inr (Or.inl ⟨p, pool, found, rfl, hpc, rfl⟩))
    · cases h
  | tray block found =>
    obtain ⟨s₁, htray, heq⟩ := Option.map_eq_some_iff.mp h
    cases heq
    exact Or.inr (Or.inr (Or.inr (Or.inl ⟨block, found, rfl, htray⟩)))
  | doubleClick user block =>
    right
    right
    right
    right
    simp only [machine] at h
    split at h
    · cases h
      exact ⟨s.chatbox, s.others, fun _ _ => trivial, rfl⟩
    · rename_i hclosed
      rw [State.newPchatbox, overwrite_eq_self (hfresh (Bool.eq_false_of_not_eq_true hclosed))] at h
      cases h
      exact ⟨_, s.others, fun _ _ => trivial, rfl⟩
  | close user =>
    simp only [machine] at h
    split at h
    · cases h
      exact Or.inr (Or.inr (Or.inr (Or.inr ⟨_, s.others, fun _ _ => trivial, rfl⟩)))
    · cases h
  | alloc r =>
    simp only [machine, overwrite_eq_self hfresh] at h
    cases h
    exact Or.inr (Or.inr (Or.inr (Or.inr ⟨s.chatbox, _, fun _ _ => trivial, rfl⟩)))
  | free r =>
    cases h
    exact Or.inr (Or.inr (Or.inr (Or.inr ⟨s.chatbox, _, fun _ _ => trivial, rfl⟩)))

section

variable {callbacks : Callbacks σ} {glib : Glib} {e : Event} {o : Unit}
  (hfresh : Fresh s e) (hstep : (machine callbacks glib).step s e = some (o, s'))

include hfresh hstep

/-- An iteration that gives everything back or links it loses nothing. -/
theorem Held.step (h : Held pool s) (hcond : Releases callbacks pool s e) :
  Held pool s'
  := by
  obtain ⟨pkt, block, rfl, hpc, hreceive⟩ | ⟨p, id, code, s₁, found, rfl, hpc, hhandle, rfl⟩
    | ⟨p, pool', found, rfl, hpc, rfl⟩ | ⟨block, found, rfl, htray⟩ | ⟨chatbox, others, -, rfl⟩ :=
      step_cases hfresh hstep
  · apply h.receive hpc hfresh hcond hreceive
  · apply h.handle hpc hcond hhandle
  · obtain ⟨rfl, rfl⟩ : pool' = some pool ∧ found = true := hcond
    apply h.release hpc
  · apply h.tray hfresh hcond htray
  · exact ⟨h.packets, h.msgs, h.linked, h.pkt, h.msg⟩

/-- Any other iteration loses something. -/
theorem Held.lost_step (h : Held pool s) (hcond : ¬ Releases callbacks pool s e) :
  Lost pool s'
  := by
  obtain ⟨pkt, block, rfl, hpc, hreceive⟩ | ⟨p, id, code, s₁, found, rfl, hpc, hhandle, rfl⟩
    | ⟨p, pool', found, rfl, hpc, rfl⟩ | ⟨block, found, rfl, htray⟩
    | ⟨chatbox, others, hreleases, -⟩ := step_cases hfresh hstep
  · apply h.lost_receive hfresh hcond hreceive
  · apply h.lost_handle hpc hcond hhandle
  · apply h.lost_release hpc hcond
  · apply h.lost_tray hfresh hcond htray
  · apply absurd (hreleases callbacks pool) hcond

/-- What is lost stays lost. -/
theorem Lost.step (h : Lost pool s) :
  Lost pool s'
  := by
  obtain ⟨pkt, block, rfl, hpc, hreceive⟩ | ⟨p, id, code, s₁, found, rfl, hpc, hhandle, rfl⟩
    | ⟨p, pool', found, rfl, hpc, rfl⟩ | ⟨block, found, rfl, htray⟩ | ⟨chatbox, others, -, rfl⟩ :=
      step_cases hfresh hstep
  · apply h.receive hfresh hreceive
  · apply h.handle hpc hhandle
  · apply h.release hpc
  · apply h.tray hfresh htray
  · apply h.keep
    · intro p taken htaken hpc
      exact ⟨htaken, hpc⟩
    · intro id b hb hpc hlinked
      exact ⟨hb, hpc, hlinked⟩

end

end

/-! ### Runs -/

/-- Between two packets, after any events in which no block that is given meets one in use,
everything is owned exactly when every packet was a private message of a user in the list, and went
back to its pool. -/
theorem run_owned_iff {callbacks : Callbacks σ} {glib : Glib} {pool : Nat} {s t : State σ}
    {es : List Event} {os : List Unit} (hs : Owned pool s) (hstart : s.pc = .receiving)
    (hfresh : (machine callbacks glib).Meets Fresh s es)
    (hrun : (machine callbacks glib).run s es = some (os, t)) (hend : t.pc = .receiving) :
  Owned pool t ↔ (machine callbacks glib).Meets (Releases callbacks pool) s es
  := by
  rcases (machine callbacks glib).run_good_or_bad
    (fun _ _ _ _ h he hcond hstep => h.step he hstep hcond)
    (fun _ _ _ _ h he hcond hstep => h.lost_step he hstep hcond)
    (fun _ _ _ _ h he hstep => h.step he hstep)
    (hs.held hstart) hfresh hrun with ⟨hmeets, ht⟩ | ⟨hnot, ht⟩
  · exact iff_of_true (ht.owned hend) hmeets
  · exact iff_of_false ht.not_owned hnot

theorem start_owned (pool : Nat) (contacts : σ) (others : List Extent) :
  Owned pool (start contacts others)
  where
  packets p taken htaken := by cases htaken
  msgs id b hb := by cases hb
  linked m hm := by cases hm

/-- Nobody is in the list yet, and no packet has gone further than its message. -/
structure Untouched (pool : Nat) (contacts : σ) (s : State σ) : Prop where
  held : Held pool s
  contacts : s.contacts = contacts
  pc : s.pc = .receiving ∧ s.pkts = [] ∨ s.pc.msg.isSome = true

/-- With nobody in the list, no message is given back or linked. -/
theorem Untouched.step {callbacks : Callbacks σ} {glib : Glib} {pool : Nat} {contacts : σ}
    {s s' : State σ} {e : Event} {o : Unit}
    (hempty : ∀ ip, callbacks.userFindEntry contacts ip = none) (h : Untouched pool contacts s)
    (hfresh : Fresh s e) (hcond : Releases callbacks pool s e)
    (hstep : (machine callbacks glib).step s e = some (o, s')) :
  Untouched pool contacts s'
  := by
  obtain ⟨hheld, hcontacts, hpc⟩ := h
  have hheld' := hheld.step hfresh hstep hcond
  obtain ⟨pkt, block, rfl, -, hreceive⟩ | ⟨p, id, code, s₁, found, rfl, hhandling, -, rfl⟩
    | ⟨p, pool', found, rfl, hreleasing, rfl⟩ | ⟨block, found, rfl, htray⟩
    | ⟨chatbox, others, -, rfl⟩ := step_cases hfresh hstep
  · obtain ⟨msg, addr, rfl, -⟩ := receive_cases hfresh hreceive
    have hlbt4 : (ascii "1_lbt4").isPrefixOf pkt.data = true := hcond
    refine ⟨hheld', hcontacts, Or.inr ?_⟩
    rw [if_pos hlbt4]
    rfl
  · exfalso
    obtain ⟨taken, b, htaken, -⟩ := hheld.msg p id hhandling
    have hfound := (hcond (p, id) (by rw [hhandling]; rfl)).2 taken htaken
    rw [hcontacts, hempty] at hfound
    cases hfound
  · exfalso
    rw [hreleasing] at hpc
    rcases hpc with ⟨hpc, -⟩ | hpc
    · cases hpc
    · cases hpc
  · obtain ⟨-, rfl⟩ | ⟨id, user, mlist, b, chatbox, -, -, rfl⟩ := tray_cases hfresh htray
    · exact ⟨hheld, hcontacts, hpc⟩
    · exact ⟨hheld', hcontacts, hpc⟩
  · exact ⟨hheld', hcontacts, hpc⟩

/-- As the list starts empty, the first packet of the program is lost, or its message is. -/
theorem first_packet_lost {callbacks : Callbacks σ} {glib : Glib} {pool : Nat} {contacts : σ}
    {others : List Extent} {t : State σ} {es : List Event} {os : List Unit}
    (hempty : ∀ ip, callbacks.userFindEntry contacts ip = none)
    (hfresh : (machine callbacks glib).Meets Fresh (start contacts others) es)
    (hrun : (machine callbacks glib).run (start contacts others) es = some (os, t))
    (hend : t.pc = .receiving) (htaken : t.pkts ≠ []) :
  ¬ Owned pool t
  := by
  rcases (machine callbacks glib).run_good_or_bad
    (fun _ _ _ _ h he hcond hstep => Untouched.step hempty h he hcond hstep)
    (fun _ _ _ _ h he hcond hstep => h.held.lost_step he hstep hcond)
    (fun _ _ _ _ h he hstep => h.step he hstep)
    ⟨(start_owned pool contacts others).held rfl, rfl, Or.inl ⟨rfl, rfl⟩⟩ hfresh hrun
    with ⟨-, -, -, hpc⟩ | ⟨-, hlost⟩
  · rw [hend] at hpc
    rcases hpc with ⟨-, hnone⟩ | hpc
    · apply absurd hnone htaken
    · cases hpc
  · apply hlost.not_owned

end

/-- The contacts in the tables of a program. -/
abbrev sampleCallbacks : Callbacks (Contacts.State Contacts.Table Contacts.Table) :=
  tableCallbacks (Contacts.hashTable 0x180000 0xffff) (Contacts.hashTable 0x3800 0xff)

/-- The contacts with one user. -/
def sampleContacts : Contacts.State Contacts.Table Contacts.Table :=
  match Contacts.sampleMachine.step (Contacts.start Contacts.userTable Contacts.categoryTable)
      (Contacts.sample Contacts.firstIp Contacts.department) with
  | none => Contacts.start Contacts.userTable Contacts.categoryTable
  | some (_, s) => s

/-- A packet from that user. -/
def samplePacket (data : List UInt8) : Packet where
  mtime := 0
  ip := 10 * 2 ^ 24 + 13 * 2 ^ 8 + 105
  port := 2425
  data := data
  beyond := 0

/-- A packet is taken into a block of the pool, and then a private message into another one, which
is linked.  A click on the tray icon opens the chatbox of its user. -/
def privateMessage (pool : Option Nat) : List Event :=
  [.alloc ⟨0x100000, 200⟩,
    .receive (samplePacket (ascii "1_lbt4_1#128#a#0#0#0:1:u:h:288:hi"))
      (some (0x40000, Feiq.blankMsg)),
    .handle true, .release pool true, .free ⟨0x100000, 200⟩, .tray 0x50000 true]

theorem run_owned_unlinked :
  ∃ os t, (machine sampleCallbacks asciiGlib).run (start sampleContacts [⟨0, 4096⟩])
      (privateMessage (some 7)) = some (os, t) ∧ Owned 7 t
  := by
  have hends : ((machine sampleCallbacks asciiGlib).run (start sampleContacts [⟨0, 4096⟩])
      (privateMessage (some 7))).map (fun r => r.2.pc) = some .receiving := by
    decide +kernel
  obtain ⟨⟨os, t⟩, hrun, hpc⟩ := Option.map_eq_some_iff.mp hends
  refine ⟨os, t, hrun, (run_owned_iff (start_owned 7 _ _) rfl ?_ hrun hpc).mpr ?_⟩
  · decide +kernel
  · decide +kernel

/-- The message of an entry is neither given back nor linked. -/
theorem entry_leaks :
  ∃ os t, (machine sampleCallbacks asciiGlib).run
      (start (Contacts.start Contacts.userTable Contacts.categoryTable) [])
      [.receive (samplePacket (ascii "1_lbt4_1#128#a#0#0#0:1:u:h:257:n" ++ 0 :: ascii "g"))
        (some (0x40000, Feiq.blankMsg)), .handle true, .release (some 7) true] = some (os, t)
    ∧ t.pc = .receiving ∧ ¬ Owned 7 t
  := by
  have hends : ((machine sampleCallbacks asciiGlib).run
      (start (Contacts.start Contacts.userTable Contacts.categoryTable) [])
      [.receive (samplePacket (ascii "1_lbt4_1#128#a#0#0#0:1:u:h:257:n" ++ 0 :: ascii "g"))
        (some (0x40000, Feiq.blankMsg)), .handle true, .release (some 7) true]).map
          (fun r => (r.2.pc, r.2.msgs.map Block.frees, r.2.mlist))
        = some (.receiving, [0], []) := by
    decide +kernel
  obtain ⟨⟨os, t⟩, hrun, hends⟩ := Option.map_eq_some_iff.mp hends
  simp only [Prod.mk.injEq] at hends
  obtain ⟨hpc, hfrees, hmlist⟩ := hends
  refine ⟨os, t, hrun, hpc, ?_⟩
  intro howned
  have hfirst := congrArg (fun l => l[0]?) hfrees
  simp only [List.getElem?_map] at hfirst
  obtain ⟨b, hb, hzero⟩ := Option.map_eq_some_iff.mp hfirst
  have hone := howned.msgs 0 b hb
  rw [State.linked, hmlist, hzero] at hone
  cases hone

end ReceiveLoop

end IFreeChat
