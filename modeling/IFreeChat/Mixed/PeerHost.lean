import IFreeChat.Mixed.Datagrams
import IFreeChat.Peer.Ownership

/-!
# A host that runs the program under `src/`

The listening thread and the user of a `Peer.Client` as a program on a network.  Its user sends
texts from the windows that are open, the thread takes datagrams and answers them, and the
program tells the others that it comes and goes.

The private messages in its blocks keep their senders and their texts, as long as these are
UTF-8 and so are not converted, and it sends texts only that its user enters
(`peerNode_faithful`).
-/

open Basis

namespace IFreeChat

open Feiq (Fields IsField sizeofData)
open Peer (Client Config Glib Msg Pc)

namespace Mixed

/-! ### The program -/

/-- What comes with a datagram: its port, and what a packet has besides. -/
structure Arrival where
  port : UInt16
  mtime : Nat
  ip : Nat
  beyond : UInt8
  block : Option (Nat × Feiq.Msg)

/-- An `ifreechat_t` of the program under `src/`. -/
structure PeerHost where
  cfg : Config
  multicastIp : List UInt8
  client : Client

/-- What the program does by itself. -/
inductive PeerEvent where
  | online (time : UInt64) (cipher : List UInt8)
  | offline (time : UInt64)
  | sendMessage (user : Nat) (time : UInt64) (ctime : CArray 26) (text : List UInt8)
  | sendGpmessage (groupId : UInt32) (time : UInt64) (ctime : CArray 26)
      (cipher : Vector UInt8 Peer.sizeofPlain) (beyond text : List UInt8)
  | handle (time : UInt64) (beyond plain : List UInt8)
  | tray
  | windows (pchatbox : List Nat) (gchatbox : List UInt32)

/-- `BROADCAST_ADDR`. -/
def BROADCAST_ADDR : List UInt8 := ascii "255.255.255.255"

/-- `MULTICAST_ADDR`. -/
def MULTICAST_ADDR : List UInt8 := ascii "226.81.9.8"

variable (glib : Glib)

/-- An event of the program, with the datagrams that it sends. -/
def PeerHost.act (h : PeerHost) :
    PeerEvent → Option (List (List UInt8 × List UInt8) × PeerHost)
  | .online time cipher =>
      match Peer.onlineBroadcast h.cfg time cipher with
      | .error _ => none
      | .ok texts =>
          -- the groups follow the entry, which is the second datagram
          some ((texts.take 2).map (BROADCAST_ADDR, ·) ++ (texts.drop 2).map (MULTICAST_ADDR, ·), h)
  | .offline time => some ([(BROADCAST_ADDR, Peer.offlineBroadcast h.cfg time)], h)
  | .sendMessage user time ctime text =>
      if user ∈ h.client.pchatbox then do
        let u ← h.client.ulist[user]?
        match Peer.onSendMessage h.cfg time ctime text with
        | .error _ => none
        | .ok datagram => some (datagram.toList.map (u.ipaddr, ·), h)
      else none
  | .sendGpmessage groupId time ctime cipher beyond text =>
      if groupId ∈ h.client.gchatbox then
        match Peer.onSendGpmessage h.cfg groupId time ctime cipher beyond text with
        | .error _ => none
        | .ok datagram => some (datagram.toList.map (h.multicastIp, ·), h)
      else none
  | .handle time beyond plain => do
      let (buf, client) ← h.client.handle glib h.cfg time beyond plain
      some ((h.client.sent buf).toList.map fun s => (s.ip, s.buf), { h with client })
  | .tray => (h.client.tray h.cfg).map fun client => ([], { h with client })
  | .windows pchatbox gchatbox =>
      some ([], { h with client := { h.client with pchatbox, gchatbox } })

/-- The program on a network. -/
def peerNode : Node PeerHost PeerEvent Arrival (List UInt8) (List UInt8) where
  act := PeerHost.act glib
  receive h arrival ip datagram :=
    (h.client.receive ip arrival.port datagram).map fun client => { h with client }

/-! ### What is said of it -/

/-- The text of a private chat box, for the address of its user. -/
def PeerHost.asks (h : PeerHost) : PeerEvent → List (List UInt8 × List UInt8)
  | .sendMessage user _ _ text => ((h.client.ulist[user]?).map fun u => (u.ipaddr, text)).toList
  | _ => []

/-- The text of a private chat box is a string in UTF-8 that fits an array of the other
program. -/
def PeerEvent.Valid : PeerEvent → Prop
  | .sendMessage _ _ _ text => 0 ∉ text ∧ IsUtf8 text ∧ text.length < sizeofData
  | _ => True

/-- The message a handler of group messages works on. -/
def groupMsg : Pc → Option Nat
  | .gpFind id | .gpFree id | .gpDecode id _ | .gpGroup id _ _ _ | .gpLink id _ _ _ => some id
  | _ => none

/-- No string that goes into a header has a separator, the private texts are UTF-8, and a
handler of group messages has one. -/
structure PeerHost.Good (h : PeerHost) : Prop where
  cfg : Separable h.cfg
  names : ∀ (id : Nat) (b : Peer.Block), h.client.heap[id]? = some b →
    IsField b.msg.username ∧ IsField b.msg.hostname
  texts : ∀ (id : Nat) (b : Peer.Block), h.client.heap[id]? = some b → IsPrivate b.msg.cmd →
    0 ∈ b.msg.data ∧ IsUtf8 (untilNul b.msg.data)
  group : ∀ id ∈ groupMsg h.client.pc, ∀ b, h.client.heap[id]? = some b → ¬ IsPrivate b.msg.cmd

/-- A private message from an address with a text is in a block. -/
def PeerHost.Holds (h : PeerHost) (ip text : List UInt8) : Prop :=
  ∃ (id : Nat) (b : Peer.Block), h.client.heap[id]? = some b ∧ IsPrivate b.msg.cmd
    ∧ b.msg.ip = ip ∧ untilNul b.msg.data = text

/-- What is said of the program. -/
def peerAccount : Account PeerHost PeerEvent (List UInt8) (List UInt8) where
  asks := PeerHost.asks
  May _ e := e.Valid
  Good := PeerHost.Good
  Holds := PeerHost.Holds

/-! ### Messages that stay -/

/-- A message goes on with its sender, its command and its names, and a private one with its
text. -/
structure Same (m m' : Msg) : Prop where
  ip : m'.ip = m.ip
  cmd : m'.cmd = m.cmd
  username : m'.username = m.username
  hostname : m'.hostname = m.hostname
  data : IsPrivate m.cmd → m'.data = m.data

theorem same_refl (m : Msg) :
  Same m m
  := ⟨rfl, rfl, rfl, rfl, fun _ => rfl⟩

/-- The messages of the blocks stay, and no handler of group messages starts on another one. -/
structure Goes (s s' : Client) : Prop where
  blocks : ∀ (id : Nat) (b' : Peer.Block), s'.heap[id]? = some b' →
    ∃ b, s.heap[id]? = some b ∧ Same b.msg b'.msg
  group : ∀ id ∈ groupMsg s'.pc, id ∈ groupMsg s.pc

section

variable {s s' : Client}

/-- The blocks stay as they are. -/
theorem goes_of_heap (hheap : s'.heap = s.heap)
    (hgroup : groupMsg s'.pc = groupMsg s.pc ∨ groupMsg s'.pc = none) :
  Goes s s'
  where
  blocks id b' hb' := ⟨b', hheap ▸ hb', same_refl _⟩
  group id hid := by
    rcases hgroup with hgroup | hgroup
    · exact hgroup ▸ hid
    · rw [hgroup] at hid
      cases hid

/-- The message of one block is changed into one that goes on. -/
theorem goes_of_modify {id : Nat} {f : Peer.Block → Peer.Block}
    (hheap : s'.heap = s.heap.modify id f)
    (hsame : ∀ b, s.heap[id]? = some b → Same b.msg (f b).msg)
    (hgroup : groupMsg s'.pc = groupMsg s.pc ∨ groupMsg s'.pc = none) :
  Goes s s'
  where
  blocks id' b' hb' := by
    rw [hheap] at hb'
    by_cases hid : id' = id
    · subst hid
      cases hb : s.heap[id']? with
      | none => rw [List.getElem?_modify, hb] at hb'; simp at hb'
      | some b =>
        rw [getElem?_modify_self hb] at hb'
        cases hb'
        exact ⟨b, rfl, hsame b hb⟩
    · rw [getElem?_modify_of_ne hid] at hb'
      exact ⟨b', hb', same_refl _⟩
  group id hid := by
    rcases hgroup with hgroup | hgroup
    · exact hgroup ▸ hid
    · rw [hgroup] at hid
      cases hid

/-- What goes on stays good. -/
theorem PeerHost.Good.goes {h h' : PeerHost} (hgood : h.Good) (hcfg : h'.cfg = h.cfg)
    (hgoes : Goes h.client h'.client) :
  h'.Good
  where
  cfg := hcfg ▸ hgood.cfg
  names id b' hb' := by
    obtain ⟨b, hb, hsame⟩ := hgoes.blocks id b' hb'
    rw [hsame.username, hsame.hostname]
    apply hgood.names id b hb
  texts id b' hb' hprivate := by
    obtain ⟨b, hb, hsame⟩ := hgoes.blocks id b' hb'
    rw [hsame.cmd] at hprivate
    rw [hsame.data hprivate]
    apply hgood.texts id b hb hprivate
  group id hid b' hb' := by
    obtain ⟨b, hb, hsame⟩ := hgoes.blocks id b' hb'
    rw [hsame.cmd]
    apply hgood.group id (hgoes.group id hid) b hb

/-- What goes on holds nothing new. -/
theorem PeerHost.Holds.goes {h h' : PeerHost} (hgoes : Goes h.client h'.client)
    {ip text : List UInt8} (hholds : h'.Holds ip text) :
  h.Holds ip text
  := by
  obtain ⟨id, b', hb', hprivate, rfl, rfl⟩ := hholds
  obtain ⟨b, hb, hsame⟩ := hgoes.blocks id b' hb'
  rw [hsame.cmd] at hprivate
  exact ⟨id, b, hb, hprivate, hsame.ip.symm, by rw [hsame.data hprivate]⟩

end

/-! ### The handlers -/

section

variable {glib : Glib} {cfg : Config} {s s' : Client} {id : Nat} {time : UInt64}
  {beyond plain : List UInt8} {o : Option (List UInt8)}

/-- A conversion changes the data only, and not that of a text in UTF-8. -/
theorem same_convertData (hglib : ∀ s, IsUtf8 s → glib.utf8Validate s = true) {m m' : Msg}
    (hutf8 : IsPrivate m.cmd → 0 ∈ m.data ∧ IsUtf8 (untilNul m.data))
    (h : Peer.convertData glib beyond m = .ok m') :
  Same m m'
  := by
  obtain ⟨⟨data, rest⟩, hdata, h⟩ := bind_eq_ok.mp h
  simp only at h
  cases hvalidate : Peer.stringValidate glib data (ascii "gbk") with
  | none =>
    rw [hvalidate] at h
    cases h
    apply same_refl
  | some string =>
    have hother : ¬ IsPrivate m.cmd := by
      intro hprivate
      obtain ⟨hmem, hvalid⟩ := hutf8 hprivate
      obtain ⟨heq, hnul⟩ := cString_eq_ok_iff.mp hdata
      have huntil : untilNul m.data = data := by
        have happend := untilNul_string hnul rest
        rw [← heq] at happend
        rwa [untilNul_append_of_mem hmem] at happend
      rw [Peer.stringValidate, if_pos (hglib _ (huntil ▸ hvalid))] at hvalidate
      cases hvalidate
    rw [hvalidate] at h
    simp only at h
    split at h
    · cases h
    · cases h
      exact ⟨rfl, rfl, rfl, rfl, fun hprivate => absurd hprivate hother⟩

theorem goes_free (pc : Pc) (hpc : groupMsg pc = none) :
  Goes s { s.free id with pc }
  := goes_of_modify rfl (fun b _ => same_refl b.msg) (Or.inr hpc)

theorem goes_entry (hpc : s.pc = .entry id)
    (hstep : s.handle glib cfg time beyond plain = some (o, s')) :
  Goes s s'
  := by
  simp only [Client.handle, hpc] at hstep
  obtain ⟨b, hb, hstep⟩ := Option.bind_eq_some_iff.mp hstep
  split at hstep
  · cases hstep
    exact goes_of_heap rfl (Or.inr rfl)
  · split at hstep
    · cases hstep
    · split at hstep
      · cases hstep
        exact goes_of_heap rfl (Or.inr rfl)
      · cases hstep
        exact goes_of_heap rfl (Or.inr rfl)

theorem goes_sendLink (hpc : s.pc = .sendLink id)
    (hstep : s.handle glib cfg time beyond plain = some (o, s')) :
  Goes s s'
  := by
  simp only [Client.handle, hpc] at hstep
  cases hstep
  obtain ⟨hheap, -⟩ := (s.update id fun m => { m with gpid := some 0 }).link_frame id
  exact goes_of_modify hheap (fun b _ => ⟨rfl, rfl, rfl, rfl, fun _ => rfl⟩) (Or.inr rfl)

theorem goes_sendConvert (hglib : ∀ s, IsUtf8 s → glib.utf8Validate s = true)
    (htexts : ∀ (id : Nat) (b : Peer.Block), s.heap[id]? = some b → IsPrivate b.msg.cmd →
      0 ∈ b.msg.data ∧ IsUtf8 (untilNul b.msg.data)) (hpc : s.pc = .sendConvert id)
    (hstep : s.handle glib cfg time beyond plain = some (o, s')) :
  Goes s s'
  := by
  simp only [Client.handle, hpc] at hstep
  obtain ⟨b, hb, hstep⟩ := Option.bind_eq_some_iff.mp hstep
  split at hstep
  · cases hstep
  · rename_i msg hconvert
    cases hstep
    refine goes_of_modify rfl ?_ (Or.inr rfl)
    intro b' hb'
    rw [hb] at hb'
    cases hb'
    apply same_convertData hglib (htexts id b hb) hconvert

theorem goes_sendFind (hpc : s.pc = .sendFind id)
    (hstep : s.handle glib cfg time beyond plain = some (o, s')) :
  Goes s s'
  := by
  simp only [Client.handle, hpc] at hstep
  obtain ⟨b, hb, hstep⟩ := Option.bind_eq_some_iff.mp hstep
  split at hstep
  · cases hstep
    exact goes_of_modify rfl (fun b _ => ⟨rfl, rfl, rfl, rfl, fun _ => rfl⟩) (Or.inr rfl)
  · split at hstep
    · cases hstep
      exact goes_of_heap rfl (Or.inr rfl)
    · cases hstep
      exact goes_of_heap rfl (Or.inr rfl)

theorem goes_sendReply (hpc : s.pc = .sendReply id)
    (hstep : s.handle glib cfg time beyond plain = some (o, s')) :
  Goes s s'
  := by
  simp only [Client.handle, hpc] at hstep
  obtain ⟨b, hb, hstep⟩ := Option.bind_eq_some_iff.mp hstep
  split at hstep
  · cases hstep
    exact goes_of_heap rfl (Or.inr rfl)
  · split at hstep
    · cases hstep
    · cases hstep
      exact goes_of_heap rfl (Or.inr rfl)

theorem goes_gpFind (hpc : s.pc = .gpFind id)
    (hstep : s.handle glib cfg time beyond plain = some (o, s')) :
  Goes s s'
  := by
  simp only [Client.handle, hpc] at hstep
  obtain ⟨b, hb, hstep⟩ := Option.bind_eq_some_iff.mp hstep
  split at hstep
  · cases hstep
    exact goes_of_heap rfl (Or.inr rfl)
  · split at hstep
    · cases hstep
      exact goes_of_heap rfl (Or.inl (by rw [hpc]; rfl))
    · cases hstep
      exact goes_of_heap rfl (Or.inl (by rw [hpc]; rfl))

theorem goes_gpDecode {user : Nat} (hpc : s.pc = .gpDecode id user)
    (hstep : s.handle glib cfg time beyond plain = some (o, s')) :
  Goes s s'
  := by
  simp only [Client.handle, hpc] at hstep
  obtain ⟨b, hb, hstep⟩ := Option.bind_eq_some_iff.mp hstep
  obtain ⟨u, hu, hstep⟩ := Option.bind_eq_some_iff.mp hstep
  split at hstep
  · cases hstep
  · cases hstep
    exact goes_of_heap rfl (Or.inl (by rw [hpc]; rfl))

theorem goes_gpGroup {user : Nat} {gpid : UInt32} {pmsg : List UInt8}
    (hpc : s.pc = .gpGroup id user gpid pmsg)
    (hstep : s.handle glib cfg time beyond plain = some (o, s')) :
  Goes s s'
  := by
  simp only [Client.handle, hpc] at hstep
  split at hstep
  · cases hstep
    exact goes_of_heap rfl (Or.inl (by rw [hpc]; rfl))
  · cases hstep
    exact goes_of_heap rfl (Or.inr rfl)

/-- Only the text of a group message is replaced. -/
theorem goes_gpLink {user : Nat} {gpid : UInt32} {pmsg : List UInt8}
    (hgroup : ∀ b, s.heap[id]? = some b → ¬ IsPrivate b.msg.cmd)
    (hpc : s.pc = .gpLink id user gpid pmsg)
    (hstep : s.handle glib cfg time beyond plain = some (o, s')) :
  Goes s s'
  := by
  simp only [Client.handle, hpc] at hstep
  obtain ⟨b, hb, hstep⟩ := Option.bind_eq_some_iff.mp hstep
  split at hstep
  · cases hstep
  · cases hstep
    obtain ⟨hheap, -⟩ := (s.update id fun _ => { b.msg.strcpyData pmsg with
      user := some user, gpid := some gpid }).link_frame id
    refine goes_of_modify hheap ?_ (Or.inr rfl)
    intro b' hb'
    rw [hb] at hb'
    cases hb'
    exact ⟨rfl, rfl, rfl, rfl, fun hprivate => absurd hprivate (hgroup b hb)⟩

/-- A step of any handler. -/
theorem goes_handle (hglib : ∀ s, IsUtf8 s → glib.utf8Validate s = true)
    (htexts : ∀ (id : Nat) (b : Peer.Block), s.heap[id]? = some b → IsPrivate b.msg.cmd →
      0 ∈ b.msg.data ∧ IsUtf8 (untilNul b.msg.data))
    (hgroup : ∀ id ∈ groupMsg s.pc, ∀ b, s.heap[id]? = some b → ¬ IsPrivate b.msg.cmd)
    (hstep : s.handle glib cfg time beyond plain = some (o, s')) :
  Goes s s'
  := by
  cases hpc : s.pc with
  | idle =>
    simp only [Client.handle, hpc] at hstep
    cases hstep
  | entry id => apply goes_entry hpc hstep
  | entryAdd id user =>
    simp only [Client.handle, hpc] at hstep
    obtain ⟨b, hb, hstep⟩ := Option.bind_eq_some_iff.mp hstep
    cases hstep
    exact goes_of_heap rfl (Or.inr rfl)
  | entryFree id | sendFree id | gpFree id =>
    simp only [Client.handle, hpc] at hstep
    cases hstep
    apply goes_free .idle rfl
  | sendLink id => apply goes_sendLink hpc hstep
  | sendConvert id => apply goes_sendConvert hglib htexts hpc hstep
  | sendFind id => apply goes_sendFind hpc hstep
  | sendShow id =>
    simp only [Client.handle, hpc] at hstep
    cases hstep
    exact goes_of_heap rfl (Or.inr rfl)
  | sendReply id => apply goes_sendReply hpc hstep
  | gpFind id => apply goes_gpFind hpc hstep
  | gpDecode id user => apply goes_gpDecode hpc hstep
  | gpGroup id user gpid pmsg => apply goes_gpGroup hpc hstep
  | gpLink id user gpid pmsg => apply goes_gpLink (hgroup id (by rw [hpc]; rfl)) hpc hstep
  | gpShow =>
    simp only [Client.handle, hpc] at hstep
    cases hstep
    exact goes_of_heap rfl (Or.inr rfl)

end

/-! ### What is sent -/

section

variable {glib : Glib} {cfg : Config} {s s' : Client} {time : UInt64} {beyond plain : List UInt8}

/-- A handler sends the reply to an entry and the receipt of a message, and nothing else. -/
theorem handle_sends {d : List UInt8}
    (hstep : s.handle glib cfg time beyond plain = some (some d, s')) :
  ∃ (id : Nat) (b : Peer.Block), s.heap[id]? = some b
    ∧ (Peer.entryReply cfg time b.msg = some d
      ∨ d = Peer.printReply cfg time b.msg ∧ (Peer.printReply cfg time b.msg).length < 1024)
  := by
  cases hpc : s.pc with
  | entryAdd id user =>
    simp only [Client.handle, hpc] at hstep
    obtain ⟨b, hb, hstep⟩ := Option.bind_eq_some_iff.mp hstep
    simp only [Option.some.injEq, Prod.mk.injEq] at hstep
    exact ⟨id, b, hb, Or.inl hstep.1⟩
  | sendReply id =>
    simp only [Client.handle, hpc] at hstep
    obtain ⟨b, hb, hstep⟩ := Option.bind_eq_some_iff.mp hstep
    split at hstep
    · cases hstep
    · split at hstep
      · cases hstep
      · rename_i hlength
        cases hstep
        exact ⟨id, b, hb, Or.inr ⟨rfl, Nat.not_le.mp hlength⟩⟩
  | idle | entryFree id | sendLink id | sendFree id | sendShow id | gpFree id | gpShow =>
    simp only [Client.handle, hpc] at hstep
    cases hstep
  | entry id =>
    simp only [Client.handle, hpc] at hstep
    obtain ⟨b, hb, hstep⟩ := Option.bind_eq_some_iff.mp hstep
    split at hstep
    · cases hstep
    · split at hstep
      · cases hstep
      · split at hstep
        · cases hstep
        · cases hstep
  | sendConvert id =>
    simp only [Client.handle, hpc] at hstep
    obtain ⟨b, hb, hstep⟩ := Option.bind_eq_some_iff.mp hstep
    split at hstep
    · cases hstep
    · cases hstep
  | sendFind id =>
    simp only [Client.handle, hpc] at hstep
    obtain ⟨b, hb, hstep⟩ := Option.bind_eq_some_iff.mp hstep
    split at hstep
    · cases hstep
    · split at hstep
      · cases hstep
      · cases hstep
  | gpFind id =>
    simp only [Client.handle, hpc] at hstep
    obtain ⟨b, hb, hstep⟩ := Option.bind_eq_some_iff.mp hstep
    split at hstep
    · cases hstep
    · split at hstep
      · cases hstep
      · cases hstep
  | gpDecode id user =>
    simp only [Client.handle, hpc] at hstep
    obtain ⟨b, hb, hstep⟩ := Option.bind_eq_some_iff.mp hstep
    obtain ⟨u, hu, hstep⟩ := Option.bind_eq_some_iff.mp hstep
    split at hstep
    · cases hstep
    · cases hstep
  | gpGroup id user gpid pmsg =>
    simp only [Client.handle, hpc] at hstep
    split at hstep
    · cases hstep
    · cases hstep
  | gpLink id user gpid pmsg =>
    simp only [Client.handle, hpc] at hstep
    obtain ⟨b, hb, hstep⟩ := Option.bind_eq_some_iff.mp hstep
    split at hstep
    · cases hstep
    · cases hstep

/-- The tray icon frees a block. -/
theorem goes_tray (hstep : s.tray cfg = some s') :
  Goes s s'
  := by
  rcases Peer.tray_spec hstep with rfl | ⟨id, rest, pchatbox, gchatbox, -, rfl⟩
  · exact goes_of_heap rfl (Or.inl rfl)
  · obtain ⟨stale, htouch⟩ := s.touched_eq id rest
    rw [htouch]
    exact goes_of_modify rfl (fun b _ => same_refl b.msg) (Or.inl rfl)

end

/-- What is sent in an event is sendable, where it is asked for. -/
theorem faithful_sent {h : PeerHost} {e : PeerEvent} {d ip : List UInt8} {asked : List (List UInt8)}
    (hsendable : Sendable d asked) (hasked : ∀ t ∈ asked, (ip, t) ∈ h.asks e) :
  format.Fine d ∧ ∀ t, format.Carries d t → (ip, t) ∈ h.asks e
  := ⟨hsendable.1, fun t hcarries => hasked t (hsendable.2 t hcarries)⟩

section

variable {glib : Glib} (hglib : ∀ s, IsUtf8 s → glib.utf8Validate s = true) {h h' : PeerHost}
  (hgood : h.Good)

include hgood

/-- What a handler sends. -/
theorem handle_sendable {time : UInt64} {beyond plain d : List UInt8} {client : Client}
    (hstep : h.client.handle glib h.cfg time beyond plain = some (some d, client)) :
  Sendable d []
  := by
  obtain ⟨id, b, hb, hreply | ⟨rfl, hlength⟩⟩ := handle_sends hstep
  · apply sendable_entryReply hgood.cfg hreply
  · obtain ⟨husername, hhostname⟩ := hgood.names id b hb
    apply sendable_printReply hgood.cfg time husername hhostname hlength

/-- Every event sends what it is asked to. -/
theorem act_sends {e : PeerEvent} {out : List (List UInt8 × List UInt8)} (hvalid : e.Valid)
    (hact : h.act glib e = some (out, h')) :
  ∀ x ∈ out, format.Fine x.2 ∧ ∀ t, format.Carries x.2 t → (x.1, t) ∈ h.asks e
  := by
  have hnone : ∀ {d ip : List UInt8}, Sendable d [] →
      format.Fine d ∧ ∀ t, format.Carries d t → (ip, t) ∈ h.asks e := by
    intro d ip hsendable
    apply faithful_sent hsendable
    rintro t ⟨⟩
  intro x hx
  cases e with
  | online time cipher =>
    simp only [PeerHost.act] at hact
    split at hact
    · cases hact
    · rename_i texts htexts
      cases hact
      rcases List.mem_append.mp hx with hx | hx
      · obtain ⟨d, hd, rfl⟩ := List.mem_map.mp hx
        apply hnone (sendable_online hgood.cfg htexts (List.mem_of_mem_take hd) [])
      · obtain ⟨d, hd, rfl⟩ := List.mem_map.mp hx
        apply hnone (sendable_online hgood.cfg htexts (List.mem_of_mem_drop hd) [])
  | offline time =>
    cases hact
    rw [List.mem_singleton.mp hx]
    apply hnone (sendable_offline hgood.cfg time [])
  | sendMessage user time ctime text =>
    simp only [PeerHost.act] at hact
    split at hact
    · obtain ⟨u, hu, hact⟩ := Option.bind_eq_some_iff.mp hact
      split at hact
      · cases hact
      · rename_i datagram hsend
        cases hact
        obtain ⟨d, hd, rfl⟩ := List.mem_map.mp hx
        rw [Option.mem_toList] at hd
        rw [hd] at hsend
        obtain ⟨hnul, hutf8, hfits⟩ := hvalid
        apply faithful_sent (sendable_onSendMessage hgood.cfg hnul hutf8 hfits hsend)
        intro t ht
        rw [List.mem_singleton.mp ht, PeerHost.asks, hu]
        apply List.mem_singleton_self
    · cases hact
  | sendGpmessage groupId time ctime cipher beyond text =>
    simp only [PeerHost.act] at hact
    split at hact
    · split at hact
      · cases hact
      · rename_i datagram hsend
        cases hact
        obtain ⟨d, hd, rfl⟩ := List.mem_map.mp hx
        rw [Option.mem_toList] at hd
        rw [hd] at hsend
        apply hnone (sendable_onSendGpmessage hgood.cfg hsend [])
    · cases hact
  | handle time beyond plain =>
    obtain ⟨⟨buf, client⟩, hstep, heq⟩ := Option.bind_eq_some_iff.mp hact
    cases heq
    obtain ⟨sent, hsent, rfl⟩ := List.mem_map.mp hx
    rw [Option.mem_toList, Client.sent] at hsent
    obtain ⟨d, hd, hsent⟩ := Option.bind_eq_some_iff.mp hsent
    obtain ⟨⟨ip, port⟩, -, heq⟩ := Option.bind_eq_some_iff.mp hsent
    cases heq
    rw [hd] at hstep
    apply hnone (handle_sendable hgood hstep)
  | tray =>
    obtain ⟨client, -, heq⟩ := Option.map_eq_some_iff.mp hact
    cases heq
    cases hx
  | windows pchatbox gchatbox =>
    cases hact
    cases hx

include hglib

/-- The messages stay in every event of the program. -/
theorem act_goes {e : PeerEvent} {out : List (List UInt8 × List UInt8)}
    (hact : h.act glib e = some (out, h')) :
  h'.cfg = h.cfg ∧ Goes h.client h'.client
  := by
  cases e with
  | online time cipher =>
    simp only [PeerHost.act] at hact
    split at hact
    · cases hact
    · cases hact
      exact ⟨rfl, goes_of_heap rfl (Or.inl rfl)⟩
  | offline time =>
    cases hact
    exact ⟨rfl, goes_of_heap rfl (Or.inl rfl)⟩
  | sendMessage user time ctime text =>
    simp only [PeerHost.act] at hact
    split at hact
    · obtain ⟨u, hu, hact⟩ := Option.bind_eq_some_iff.mp hact
      split at hact
      · cases hact
      · cases hact
        exact ⟨rfl, goes_of_heap rfl (Or.inl rfl)⟩
    · cases hact
  | sendGpmessage groupId time ctime cipher beyond text =>
    simp only [PeerHost.act] at hact
    split at hact
    · split at hact
      · cases hact
      · cases hact
        exact ⟨rfl, goes_of_heap rfl (Or.inl rfl)⟩
    · cases hact
  | handle time beyond plain =>
    obtain ⟨⟨buf, client⟩, hstep, hact⟩ := Option.bind_eq_some_iff.mp hact
    cases hact
    exact ⟨rfl, goes_handle hglib hgood.texts hgood.group hstep⟩
  | tray =>
    obtain ⟨client, htray, heq⟩ := Option.map_eq_some_iff.mp hact
    cases heq
    exact ⟨rfl, goes_tray htray⟩
  | windows pchatbox gchatbox =>
    cases hact
    exact ⟨rfl, goes_of_heap rfl (Or.inl rfl)⟩

end

/-! ### What is received -/

/-- The pieces the program takes from a datagram are its fields. -/
def pieces (f : Fields) : Peer.Pieces where
  version := f.version.text
  packetNo := f.packetId
  username := f.username
  hostname := f.hostname
  cmd := f.command
  data := f.data

theorem pieces_split {f : Fields} (hf : f.Split) :
  (pieces f).Split
  := ⟨hf.version_isField, hf.packetId, hf.username, hf.hostname, hf.command⟩

/-- A datagram that fits the buffer is taken apart into its fields. -/
theorem parseMessage_fields {f : Fields} (hf : f.Split) (hlength : f.text.length < Peer.sizeofBuf)
    (ip : List UInt8) (port : UInt16) :
  Peer.parseMessage ip port (Peer.recvBuffer f.text) (Peer.recvSize f.text)
    = .ok ((pieces f).msg ip port)
  := by
  obtain ⟨tail, hbuffer, hsize⟩ := Peer.recvBuffer_take f.text
  rw [List.take_of_length_le (Nat.le_of_lt hlength)] at hbuffer hsize
  rw [hbuffer, hsize]
  apply (pieces f).parse_text (pieces_split hf)

/-- A handler of group messages does not start on a private one. -/
theorem groupMsg_handlerOf {command : List UInt8} {id id' : Nat} (hprivate : IsPrivate command)
    (h : groupMsg (Peer.handlerOf (Feiq.toUnsigned 32 (atoi command)) id) = some id') :
  False
  := by
  have hcommand : Feiq.toUnsigned 32 (atoi command) &&& 0xff = Peer.CMD_SENDMSG := hprivate
  by_cases hentry : Peer.isEntryCommand (Feiq.toUnsigned 32 (atoi command))
  · rw [Peer.handlerOf, if_pos hentry] at h
    cases h
  · rw [Peer.handlerOf, if_neg hentry, if_pos hcommand] at h
    cases h

section

variable {h : PeerHost} {client : Client} {f : Fields} {ip : List UInt8} {port : UInt16}

/-- What becomes of the program when a datagram arrives. -/
theorem receive_eq (hproper : Proper f) (hreceive : h.client.receive ip port f.text = some client) :
  client = { h.client with
    heap := h.client.heap ++ [⟨(pieces f).msg ip port, 0⟩]
    pc := Peer.handlerOf ((pieces f).msg ip port).command h.client.heap.length }
  := by
  rw [Client.receive, parseMessage_fields hproper.split hproper.length] at hreceive
  split at hreceive
  · cases hreceive
    rfl
  · cases hreceive

theorem receive_good (hgood : h.Good) (hproper : Proper f)
    (hreceive : h.client.receive ip port f.text = some client) :
  PeerHost.Good { h with client }
  := by
  cases receive_eq hproper hreceive
  constructor
  case cfg => exact hgood.cfg
  case names =>
    intro id b hb
    rcases concat_cases hb with ⟨-, hb⟩ | ⟨-, rfl⟩
    · apply hgood.names id b hb
    · exact ⟨hproper.split.username, hproper.split.hostname⟩
  case texts =>
    intro id b hb hprivate
    rcases concat_cases hb with ⟨-, hb⟩ | ⟨-, rfl⟩
    · apply hgood.texts id b hb hprivate
    · constructor
      · apply List.mem_append_right _ (List.mem_singleton_self 0)
      · simp only [Peer.Pieces.msg, untilNul_append_zero]
        exact (hproper.text hprivate).2
  case group =>
    intro id hid b hb hprivate
    rcases concat_cases hb with ⟨hlt, -⟩ | ⟨-, rfl⟩
    · have hheld : groupMsg (Peer.handlerOf ((pieces f).msg ip port).command
          h.client.heap.length) = some id := hid
      have hlast : id = h.client.heap.length := by
        rw [Peer.handlerOf] at hheld
        split at hheld
        · cases hheld
        · split at hheld
          · cases hheld
          · split at hheld
            · cases hheld
              rfl
            · cases hheld
      omega
    · apply groupMsg_handlerOf hprivate hid

theorem receive_holds (hproper : Proper f)
    (hreceive : h.client.receive ip port f.text = some client) {ip' text : List UInt8}
    (hholds : PeerHost.Holds { h with client } ip' text) :
  h.Holds ip' text ∨ ip' = ip ∧ format.Carries f.text text
  := by
  cases receive_eq hproper hreceive
  obtain ⟨id, b, hb, hprivate, rfl, rfl⟩ := hholds
  rcases concat_cases hb with ⟨-, hb⟩ | ⟨-, rfl⟩
  · left
    exact ⟨id, b, hb, hprivate, rfl, rfl⟩
  · right
    refine ⟨rfl, (carries_iff hproper.split).mpr ⟨hprivate, ?_⟩⟩
    simp only [Peer.Pieces.msg, untilNul_append_zero]
    rfl

end

/-- The program holds the texts of the datagrams it takes, from where these come, and sends
the texts its user enters, where texts in UTF-8 are valid. -/
theorem peerNode_faithful {glib : Glib} (hglib : ∀ s, IsUtf8 s → glib.utf8Validate s = true) :
  (peerNode glib).Faithful peerAccount format
  where
  act := by
    intro h e out h' hgood hvalid hact
    obtain ⟨hcfg, hgoes⟩ := act_goes hglib hgood hact
    exact ⟨hgood.goes hcfg hgoes, fun ip text => PeerHost.Holds.goes hgoes,
      act_sends hgood hvalid hact⟩
  receive := by
    rintro h arrival ip d h' hgood ⟨f, hproper, rfl⟩ hreceive
    obtain ⟨client, hclient, rfl⟩ := Option.map_eq_some_iff.mp hreceive
    exact ⟨receive_good hgood hproper hclient, fun ip' text => receive_holds hproper hclient⟩

end Mixed

end IFreeChat
