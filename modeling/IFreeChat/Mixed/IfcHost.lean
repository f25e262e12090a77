import IFreeChat.Ifc.ReceiveLoop
import IFreeChat.Mixed.PeerHost

/-!
# A host that runs the program under `ifc/`

The receive loop and the user of the program as one on a network.  Its user sends texts from
the private chat boxes, the loop takes packets, and the program tells the others that it comes.

The private messages that are handled or linked keep their senders and their texts, as long as
these are UTF-8 and so are not converted, and the program sends texts only that its user enters
(`ifcNode_faithful`).  The runs are those in which no block that the pool gives meets one in use.
-/

open Basis

namespace IFreeChat

open Feiq (Fields Sender Unset Announcement ip2str offsetIp offsetData sizeofData)
open Peer (Glib)
open ReceiveLoop (Callbacks CMD_SENDMSG)

namespace Mixed

/-! ### The program -/

/-- An `ifreechat_t` of the program under `ifc/`. -/
structure IfcHost (σ : Type) where
  sender : Sender
  nickname : CArray 64
  category : CArray 64
  loop : ReceiveLoop.State σ

/-- What the program does by itself. -/
inductive IfcEvent where
  | online (time : UInt32) (block : Option UInt8) (mtime : Nat)
  | send (unset : Unset) (block : Option UInt8) (time mtime : UInt32) (ipaddr : CArray 32)
      (text : List UInt8)
  | loop (e : ReceiveLoop.Event)

section

variable {σ : Type} (callbacks : Callbacks σ) (glib : Glib)

/-- What `online_broadcast` announces. -/
def IfcHost.announcement (h : IfcHost σ) (time : UInt32) : Announcement where
  avatarId := Feiq.toUnsigned 32 h.sender.avatarId.toInt
  macaddr := h.sender.macaddr.text
  packetId := time.toNat
  username := h.sender.username.text
  hostname := h.sender.hostname.text
  nickname := h.nickname.text
  category := h.category.text

/-- What goes out for a packet of the send queue, if there is one. -/
def outgoingPacket (pkt : Option Feiq.Packet) : List (List UInt8 × List UInt8) :=
  pkt.toList.map fun pkt => (ip2str pkt.ip, pkt.data)

/-- A step of the loop, where no block that the pool gives meets one in use. -/
def IfcHost.stepLoop (h : IfcHost σ) (e : ReceiveLoop.Event) : Option (IfcHost σ) :=
  if ReceiveLoop.Fresh h.loop e then
    ((ReceiveLoop.machine callbacks glib).step h.loop e).map fun r => { h with loop := r.2 }
  else none

/-- An event of the program, with the datagrams that it sends. -/
def IfcHost.act (h : IfcHost σ) :
    IfcEvent → Option (List (List UInt8 × List UInt8) × IfcHost σ)
  | .online time block mtime =>
      match (h.announcement time).broadcast block mtime with
      | .error _ => none
      | .ok (_, pkt) => some (outgoingPacket pkt, h)
  | .send unset block time mtime ipaddr text =>
      match Feiq.onPcahtSendCallback Feiq.dataEnd h.sender unset block time mtime ipaddr text with
      | .error _ => none
      | .ok pkt => some (outgoingPacket pkt, h)
  | .loop (.receive _ _) => none
  | .loop e => (h.stepLoop callbacks glib e).map fun h => ([], h)

/-- The program on a network. -/
def ifcNode : Node (IfcHost σ) IfcEvent Arrival (List UInt8) (List UInt8) where
  act := IfcHost.act callbacks glib
  receive h arrival ip datagram :=
    if ip2str arrival.ip = ip then
      let pkt : Feiq.Packet := {
        mtime := arrival.mtime
        ip := arrival.ip
        port := arrival.port.toNat
        data := datagram
        beyond := arrival.beyond }
      h.stepLoop callbacks glib (.receive pkt arrival.block)
    else none

/-! ### What is said of it -/

/-- The text of a private chat box, for the address of its user. -/
def IfcEvent.asks : IfcEvent → List (List UInt8 × List UInt8)
  | .send unset _ _ _ ipaddr text =>
      [(ip2str (Feiq.str2ip unset.numbers (some ipaddr.text)).toNat, text)]
  | _ => []

/-- What is announced fits its arrays, and the text of a private chat box is a string in
UTF-8. -/
def IfcHost.Valid (h : IfcHost σ) : IfcEvent → Prop
  | .online time _ _ => (h.announcement time).Announceable
  | .send _ _ _ _ _ text => 0 ∉ text ∧ IsUtf8 text
  | .loop _ => True

/-- A message that is handled, or in `mlist`. -/
def HeldMsg (s : ReceiveLoop.State σ) (id : Nat) : Prop :=
  s.pc.msg = some id ∨ id ∈ s.mlist.map Prod.fst

/-- No string of the user has a separator, the messages that are handled or in `mlist` are
there, and the text of a private one that is handled is UTF-8. -/
structure IfcHost.Good (h : IfcHost σ) : Prop where
  sender : SeparableSender h.sender
  held : ∀ id, HeldMsg h.loop id → id < h.loop.msgs.length
  text : ∀ id ∈ h.loop.pc.msg, ∀ b, h.loop.msgs[id]? = some b →
    b.msg.command &&& 0xff = CMD_SENDMSG → ∃ t, b.msg.HasString offsetData t ∧ IsUtf8 t

/-- A private message from an address with a text is handled, or is in `mlist`. -/
def IfcHost.Holds (h : IfcHost σ) (ip text : List UInt8) : Prop :=
  ∃ (id : Nat) (b : ReceiveLoop.Block), h.loop.msgs[id]? = some b ∧ HeldMsg h.loop id
    ∧ b.msg.command &&& 0xff = CMD_SENDMSG ∧ b.msg.HasString offsetIp ip
    ∧ b.msg.HasString offsetData text

/-- What is said of the program. -/
def ifcAccount : Account (IfcHost σ) IfcEvent (List UInt8) (List UInt8) where
  asks _ e := e.asks
  May := IfcHost.Valid
  Good := IfcHost.Good
  Holds := IfcHost.Holds

end

/-! ### Handling a message -/

section

variable {glib : Glib} {limit : Nat → Nat} {msg msg' : Feiq.Msg}

/-- The strings of an entry are copied, and its command stays. -/
theorem onEntry_command (h : Feiq.feiqOnEntry glib limit msg = .ok msg') :
  msg'.command = msg.command
  := by
  have hcopy : ∀ {m m' : Feiq.Msg} {offset : Nat} {s : List UInt8},
      m.strcpyIn limit offset s = .ok m' → m'.command = m.command := by
    intro m m' offset s h
    obtain ⟨-, rfl⟩ := Feiq.strcpyIn_eq_ok_iff.mp h
    rfl
  have hcopyFrom : ∀ {m m' : Feiq.Msg} {dest src : Nat},
      m.strcpyFrom limit dest src = .ok m' → m'.command = m.command := by
    intro m m' dest src h
    obtain ⟨s, -, -, rfl⟩ := Feiq.strcpyFrom_eq_ok h
    rfl
  have hvalidate : ∀ {m m' : Feiq.Msg} {offset : Nat},
      Feiq.onEntryValidate glib limit m offset = .ok m' → m'.command = m.command := by
    intro m m' offset h
    obtain ⟨string, -, h⟩ := bind_eq_ok.mp h
    split at h
    · cases h
      rfl
    · apply hcopy h
  obtain ⟨msg₁, havatar, h⟩ := bind_eq_ok.mp h
  obtain ⟨msg₂, hnames, h⟩ := bind_eq_ok.mp h
  obtain ⟨msg₃, hnickname, hcategory⟩ := bind_eq_ok.mp h
  obtain ⟨version, -, havatar⟩ := bind_eq_ok.mp havatar
  obtain ⟨avatarId, -, havatar⟩ := bind_eq_ok.mp havatar
  obtain ⟨data, -, hnames⟩ := bind_eq_ok.mp hnames
  obtain ⟨msg₄, hdata, hnames⟩ := bind_eq_ok.mp hnames
  obtain ⟨category, -, hnames⟩ := bind_eq_ok.mp hnames
  have hlast : msg₂.command = msg₄.command := by
    split at hnames
    · apply hcopy hnames
    · apply hcopyFrom hnames
  simp only at havatar
  obtain ⟨-, rfl⟩ := Feiq.strcpyIn_eq_ok_iff.mp havatar
  rw [hvalidate hcategory, hvalidate hnickname, hlast, hcopyFrom hdata]

/-- A text in UTF-8 is left as it is. -/
theorem onPchat_utf8 (hglib : ∀ s, IsUtf8 s → glib.utf8Validate s = true) {t : List UInt8}
    (ht : msg.HasString offsetData t) (hutf8 : IsUtf8 t)
    (h : Feiq.feiqOnPchat glib limit msg = .ok msg') :
  msg' = msg
  := by
  obtain ⟨string, hstring, h⟩ := bind_eq_ok.mp h
  rw [Feiq.cString_eq_ok_iff.mpr ht] at hstring
  cases hstring
  have hvalidate : Peer.stringValidate glib t (ascii "GBK") = none := by
    rw [Peer.stringValidate, if_pos (hglib t hutf8)]
  rw [hvalidate] at h
  cases h
  rfl

end

/-! ### Messages that stay -/

section

variable {σ : Type} {s s' : ReceiveLoop.State σ}

/-- The messages keep their commands, private ones stay as they are, and only what was held is
held. -/
structure LoopGoes (s s' : ReceiveLoop.State σ) : Prop where
  length : s'.msgs.length = s.msgs.length
  blocks : ∀ (id : Nat) (b' : ReceiveLoop.Block), s'.msgs[id]? = some b' → ∃ b,
    s.msgs[id]? = some b ∧ b'.msg.command = b.msg.command
      ∧ (b.msg.command &&& 0xff = CMD_SENDMSG → b'.msg = b.msg)
  pc : ∀ id, s'.pc.msg = some id → s.pc.msg = some id
  held : ∀ id, HeldMsg s' id → HeldMsg s id

theorem loopGoes_of_msgs (hmsgs : s'.msgs = s.msgs)
    (hpc : ∀ id, s'.pc.msg = some id → s.pc.msg = some id)
    (hheld : ∀ id, HeldMsg s' id → HeldMsg s id) :
  LoopGoes s s'
  where
  length := by rw [hmsgs]
  blocks id b' hb' := ⟨b', hmsgs ▸ hb', rfl, fun _ => rfl⟩
  pc := hpc
  held := hheld

/-- One message is replaced by one that goes on. -/
theorem loopGoes_of_set {id : Nat} {b c : ReceiveLoop.Block} (hb : s.msgs[id]? = some b)
    (hmsgs : s'.msgs = s.msgs.set id c) (hcommand : c.msg.command = b.msg.command)
    (hmsg : b.msg.command &&& 0xff = CMD_SENDMSG → c.msg = b.msg)
    (hpc : ∀ id, s'.pc.msg = some id → s.pc.msg = some id)
    (hheld : ∀ id, HeldMsg s' id → HeldMsg s id) :
  LoopGoes s s'
  where
  length := by rw [hmsgs, List.length_set]
  blocks id' b' hb' := by
    rw [hmsgs] at hb'
    rcases set_cases hb' with ⟨rfl, rfl⟩ | ⟨-, hb'⟩
    · exact ⟨b, hb, hcommand, hmsg⟩
    · exact ⟨b', hb', rfl, fun _ => rfl⟩
  pc := hpc
  held := hheld

/-- What goes on stays good. -/
theorem IfcHost.Good.goes {h h' : IfcHost σ} (hgood : h.Good) (hsender : h'.sender = h.sender)
    (hgoes : LoopGoes h.loop h'.loop) :
  h'.Good
  where
  sender := hsender ▸ hgood.sender
  held id hid := by
    rw [hgoes.length]
    apply hgood.held id (hgoes.held id hid)
  text id hid b' hb' hprivate := by
    obtain ⟨b, hb, hcommand, hmsg⟩ := hgoes.blocks id b' hb'
    rw [hcommand] at hprivate
    rw [hmsg hprivate]
    apply hgood.text id (hgoes.pc id hid) b hb hprivate

/-- What goes on holds nothing new. -/
theorem IfcHost.Holds.goes {h h' : IfcHost σ} (hgoes : LoopGoes h.loop h'.loop)
    {ip text : List UInt8} (hholds : h'.Holds ip text) :
  h.Holds ip text
  := by
  obtain ⟨id, b', hb', hheld, hprivate, hip, htext⟩ := hholds
  obtain ⟨b, hb, hcommand, hmsg⟩ := hgoes.blocks id b' hb'
  rw [hcommand] at hprivate
  rw [hmsg hprivate] at hip htext
  exact ⟨id, b, hb, hgoes.held id hheld, hprivate, hip, htext⟩

end

/-! ### The loop and its callbacks -/

section

variable {σ : Type} {callbacks : Callbacks σ} {glib : Glib} {s s' : ReceiveLoop.State σ} {id : Nat}
  {b : ReceiveLoop.Block} {code : Int}

/-- `on_pchat_callback` keeps the message, and links no other one. -/
theorem pchat_kept {found : Bool} (hb : s.msgs[id]? = some b)
    (h : ReceiveLoop.onPchatCallback callbacks s id found = some (code, s')) :
  ∃ c, s'.msgs = s.msgs.set id c ∧ c.msg = b.msg
    ∧ (s'.mlist = s.mlist ∨ ∃ user, s'.mlist = s.mlist ++ [(id, user)])
  := by
  rw [ReceiveLoop.onPchatCallback, hb, Option.bind_eq_bind, Option.bind_some] at h
  split at h
  · cases h
  · split at h
    · cases h
      exact ⟨b, (set_self hb).symm, rfl, Or.inl rfl⟩
    · rename_i user _
      cases h
      rw [ReceiveLoop.insertChatMsg]
      split
      · rw [ReceiveLoop.freeMsg_eq hb found]
        exact ⟨_, rfl, rfl, Or.inl rfl⟩
      · exact ⟨b, (set_self hb).symm, rfl, Or.inr ⟨user, rfl⟩⟩

/-- The message that is handled keeps its command, and is kept if it is a private one, whose
text is UTF-8; and only it is linked. -/
theorem handle_kept {found : Bool} (hglib : ∀ s, IsUtf8 s → glib.utf8Validate s = true)
    (hb : s.msgs[id]? = some b)
    (hutf8 : b.msg.command &&& 0xff = CMD_SENDMSG →
      ∃ t, b.msg.HasString offsetData t ∧ IsUtf8 t)
    (h : ReceiveLoop.feiqHandleMsg callbacks glib s id found = some (code, s')) :
  ∃ c, s'.msgs = s.msgs.set id c ∧ c.msg.command = b.msg.command
    ∧ (b.msg.command &&& 0xff = CMD_SENDMSG → c.msg = b.msg)
    ∧ (s'.mlist = s.mlist ∨ ∃ user, s'.mlist = s.mlist ++ [(id, user)])
  := by
  have hsame : ∃ c, s.msgs = s.msgs.set id c ∧ c.msg.command = b.msg.command
      ∧ (b.msg.command &&& 0xff = CMD_SENDMSG → c.msg = b.msg)
      ∧ (s.mlist = s.mlist ∨ ∃ user, s.mlist = s.mlist ++ [(id, user)]) :=
    ⟨b, (set_self hb).symm, rfl, fun _ => rfl, Or.inl rfl⟩
  rw [ReceiveLoop.feiqHandleMsg, hb, Option.bind_eq_bind, Option.bind_some] at h
  dsimp only at h
  split at h
  · rename_i hentry
    split at h
    · cases h
    · rename_i msg honEntry
      obtain ⟨contacts, -, h⟩ := Option.bind_eq_some_iff.mp h
      rw [ReceiveLoop.setMsg_eq hb] at h
      cases h
      refine ⟨_, rfl, onEntry_command honEntry, ?_, Or.inl rfl⟩
      intro hprivate
      rw [hprivate] at hentry
      apply absurd hentry (by decide)
  · split at h
    · cases h
      exact hsame
    · split at h
      · rename_i hprivate
        split at h
        · cases h
        · rename_i msg honPchat
          obtain ⟨t, ht, ht'⟩ := hutf8 hprivate
          cases onPchat_utf8 hglib ht ht' honPchat
          obtain ⟨⟨code', s₁⟩, hcallback, h⟩ := Option.bind_eq_some_iff.mp h
          cases h
          have hset : s.setMsg id b.msg = s := by
            rw [ReceiveLoop.setMsg_eq hb, set_self hb]
          rw [hset] at hcallback
          obtain ⟨c, hmsgs, hmsg, hmlist⟩ := pchat_kept hb hcallback
          exact ⟨c, hmsgs, by rw [hmsg], fun _ => hmsg, hmlist⟩
      · cases h
        exact hsame

/-- Any step of the loop but the reception of a packet. -/
theorem loopGoes_step (hglib : ∀ s, IsUtf8 s → glib.utf8Validate s = true)
    (hutf8 : ∀ id ∈ s.pc.msg, ∀ b, s.msgs[id]? = some b →
      b.msg.command &&& 0xff = CMD_SENDMSG → ∃ t, b.msg.HasString offsetData t ∧ IsUtf8 t)
    {e : ReceiveLoop.Event} {o : Unit} (hother : ∀ pkt block, e ≠ .receive pkt block)
    (hfresh : ReceiveLoop.Fresh s e)
    (hstep : (ReceiveLoop.machine callbacks glib).step s e = some (o, s')) :
  LoopGoes s s'
  := by
  obtain ⟨pkt, block, rfl, -⟩ | ⟨p, id, code, s₁, found, rfl, hpc, hhandle, rfl⟩
    | ⟨p, pool, found, rfl, hpc, rfl⟩ | ⟨block, found, rfl, htray⟩ | ⟨chatbox, others, -, rfl⟩ :=
      ReceiveLoop.step_cases hfresh hstep
  · apply absurd rfl (hother pkt block)
  · have hmsg : s.pc.msg = some id := by rw [hpc]; rfl
    obtain ⟨b, hb, -⟩ := Option.bind_eq_some_iff.mp hhandle
    obtain ⟨c, hmsgs, hcommand, hkept, hmlist⟩ := handle_kept hglib hb (hutf8 id hmsg b hb) hhandle
    refine loopGoes_of_set hb hmsgs hcommand hkept (by rintro id' ⟨⟩) ?_
    rintro id' (hid' | hid')
    · cases hid'
    · rcases hmlist with hmlist | ⟨user, hmlist⟩
      · right
        exact hmlist ▸ hid'
      · simp only [hmlist, List.map_append, List.map_cons, List.map_nil, List.mem_append,
          List.mem_singleton] at hid'
        rcases hid' with hid' | rfl
        · exact Or.inr hid'
        · exact Or.inl hmsg
  · obtain ⟨hmsgs, hmlist⟩ := ReceiveLoop.freePkt_keeps s p pool found
    refine loopGoes_of_msgs hmsgs (by rintro id' ⟨⟩) ?_
    rintro id' (⟨⟨⟩⟩ | hid')
    exact Or.inr (hmlist ▸ hid')
  · obtain ⟨-, rfl⟩ | ⟨id, user, mlist, b, chatbox, hmlist, hb, rfl⟩ :=
      ReceiveLoop.tray_cases hfresh htray
    · exact loopGoes_of_msgs rfl (fun _ h => h) (fun _ h => h)
    · refine loopGoes_of_set hb rfl rfl (fun _ => rfl) (fun _ h => h) ?_
      rintro id' (hid' | hid')
      · exact Or.inl hid'
      · right
        rw [hmlist]
        exact List.mem_cons_of_mem _ hid'
  · exact loopGoes_of_msgs rfl (fun _ h => h) (fun _ h => h)

end

/-! ### What is received -/

section

variable {σ : Type} {s s' : ReceiveLoop.State σ} {pkt : Feiq.Packet}
  {block : Option (Nat × Feiq.Msg)} {f : Fields}

/-- What becomes of the loop when it gets a packet of proper fields: the message that is handled
has the address of the packet and the text of the fields, and no other string there. -/
theorem loop_receive (hproper : Proper f) (hdata : pkt.data = f.text)
    (hfresh : ReceiveLoop.Fresh s (.receive pkt block))
    (hreceive : s.receive pkt block = some s') :
  ∃ msg addr, s' = { s with
      pkts := s.pkts ++ [⟨pkt, []⟩]
      msgs := s.msgs ++ [⟨msg, addr, 0⟩]
      pc := .handling s.pkts.length s.msgs.length }
    ∧ (msg.command &&& 0xff = CMD_SENDMSG → IsPrivate f.command)
    ∧ msg.HasString offsetIp (ip2str pkt.ip)
    ∧ (IsPrivate f.command → msg.HasString offsetData (untilNul f.data))
  := by
  have hlbt4 : (ascii "1_lbt4").isPrefixOf pkt.data = true := by
    rw [hdata]
    apply Feiq.isPrefixOf_append hproper.split.lbt4
  obtain ⟨msg, addr, rfl, hip⟩ := ReceiveLoop.receive_cases hfresh hreceive
  obtain ⟨⟨addr', junk⟩, hblock, hparse⟩ := Option.bind_eq_some_iff.mp hreceive
  simp only [ReceiveLoop.overwrite_eq_self (hfresh (addr', junk) hblock)] at hparse
  split at hparse
  · cases hparse
  · rename_i code msg' hparsed
    have hcode := ReceiveLoop.parse_code hparsed
    rw [if_pos hlbt4] at hcode
    subst hcode
    simp only [Option.some.injEq, ReceiveLoop.State.mk.injEq, List.append_cancel_left_eq,
      List.cons.injEq, ReceiveLoop.Block.mk.injEq, and_true, true_and] at hparse
    obtain ⟨⟨rfl, -⟩, -⟩ := hparse
    obtain ⟨avatarId, -, rfl⟩ := Feiq.parsed_of_accepted hdata hproper.split hparsed
    refine ⟨Feiq.parsedFields pkt junk f avatarId, addr, by rw [if_pos hlbt4], fun h => h,
      hip hlbt4, ?_⟩
    intro hprivate
    have hlt := (hproper.text hprivate).1
    have hstring := (@Feiq.parsedMsg_hasString_data pkt junk f.version avatarId f.packetId
      f.username f.hostname f.command f.data (hproper.data hprivate) 0 (untilNul f.data)
      (by omega)).mpr
    rw [List.drop_zero, Nat.add_zero] at hstring
    apply hstring rfl

end

section

variable {σ : Type} {h : IfcHost σ} {loop : ReceiveLoop.State σ} {pkt : Feiq.Packet}
  {block : Option (Nat × Feiq.Msg)} {f : Fields}

theorem loop_receive_good (hgood : h.Good) (hproper : Proper f) (hdata : pkt.data = f.text)
    (hfresh : ReceiveLoop.Fresh h.loop (.receive pkt block))
    (hreceive : h.loop.receive pkt block = some loop) :
  IfcHost.Good { h with loop }
  := by
  obtain ⟨msg, addr, rfl, hcommand, -, htext⟩ := loop_receive hproper hdata hfresh hreceive
  constructor
  case sender => exact hgood.sender
  case held =>
    intro id hid
    simp only [List.length_append, List.length_singleton]
    rcases hid with hid | hid
    · cases hid
      apply Nat.lt_succ_self
    · apply Nat.lt_succ_of_lt
      apply hgood.held id (Or.inr hid)
  case text =>
    rintro id hid b hb hprivate
    cases hid
    rcases concat_cases hb with ⟨hlt, -⟩ | ⟨-, rfl⟩
    · omega
    · have hprivate' := hcommand hprivate
      exact ⟨_, htext hprivate', (hproper.text hprivate').2⟩

theorem loop_receive_holds (hproper : Proper f) (hdata : pkt.data = f.text)
    (hfresh : ReceiveLoop.Fresh h.loop (.receive pkt block))
    (hreceive : h.loop.receive pkt block = some loop) {ip text : List UInt8}
    (hholds : IfcHost.Holds { h with loop } ip text) :
  h.Holds ip text ∨ ip = ip2str pkt.ip ∧ format.Carries f.text text
  := by
  obtain ⟨msg, addr, rfl, hcommand, hip, htext⟩ := loop_receive hproper hdata hfresh hreceive
  obtain ⟨id, b, hb, hheld, hprivate, hip', htext'⟩ := hholds
  rcases concat_cases hb with ⟨hlt, hb⟩ | ⟨rfl, rfl⟩
  · left
    refine ⟨id, b, hb, ?_, hprivate, hip', htext'⟩
    rcases hheld with hid | hid
    · cases hid
      omega
    · exact Or.inr hid
  · right
    have hprivate' := hcommand hprivate
    refine ⟨hip'.unique hip, (carries_iff hproper.split).mpr ⟨hprivate', ?_⟩⟩
    apply htext'.unique (htext hprivate')

end

/-- The program holds the texts of the datagrams it takes, from where these come, and sends
the texts its user enters, where texts in UTF-8 are valid. -/
theorem ifcNode_faithful {σ : Type} {callbacks : Callbacks σ} {glib : Glib}
    (hglib : ∀ s, IsUtf8 s → glib.utf8Validate s = true) :
  (ifcNode callbacks glib).Faithful ifcAccount format
  where
  act := by
    intro h e out h' hgood hvalid hact
    cases e with
    | online time block mtime =>
      simp only [ifcNode, IfcHost.act] at hact
      split at hact
      · cases hact
      · rename_i code pkt hbroadcast
        cases hact
        refine ⟨hgood, fun _ _ h => h, ?_⟩
        intro x hx
        obtain ⟨pkt, hpkt, rfl⟩ := List.mem_map.mp hx
        rw [Option.mem_toList] at hpkt
        rw [hpkt] at hbroadcast
        obtain ⟨⟨hfine, hcarries⟩, -⟩ := sendable_broadcast hvalid hbroadcast []
        refine ⟨hfine, fun t ht => ?_⟩
        cases hcarries t ht
    | send unset block time mtime ipaddr text =>
      simp only [ifcNode, IfcHost.act] at hact
      split at hact
      · cases hact
      · rename_i pkt hsend
        cases hact
        refine ⟨hgood, fun _ _ h => h, ?_⟩
        intro x hx
        obtain ⟨pkt, hpkt, rfl⟩ := List.mem_map.mp hx
        rw [Option.mem_toList] at hpkt
        rw [hpkt] at hsend
        obtain ⟨hnul, hutf8⟩ := hvalid
        obtain ⟨⟨hfine, hcarries⟩, hip⟩ :=
          sendable_onPcahtSendCallback hgood.sender hnul hutf8 hsend
        refine ⟨hfine, fun t ht => ?_⟩
        rw [List.mem_singleton.mp (hcarries t ht)]
        simp only [ifcAccount, IfcEvent.asks, hip, List.mem_singleton]
    | loop e =>
      have hother : ∀ pkt block, e ≠ .receive pkt block := by
        rintro pkt block rfl
        cases hact
      have hstep : (h.stepLoop callbacks glib e).map
          (fun h' => (([] : List (List UInt8 × List UInt8)), h')) = some (out, h') := by
        cases e with
        | receive pkt block => apply absurd rfl (hother pkt block)
        | _ => exact hact
      obtain ⟨h₁, hguarded, heq⟩ := Option.map_eq_some_iff.mp hstep
      cases heq
      obtain ⟨hfresh, hmap⟩ := Option.ite_none_right_eq_some.mp hguarded
      obtain ⟨⟨o, loop⟩, hloop, rfl⟩ := Option.map_eq_some_iff.mp hmap
      have hgoes := loopGoes_step hglib hgood.text hother hfresh hloop
      refine ⟨hgood.goes rfl hgoes, fun ip text => IfcHost.Holds.goes hgoes, ?_⟩
      rintro x ⟨⟩
  receive := by
    rintro h arrival ip d h' hgood ⟨f, hproper, rfl⟩ hreceive
    simp only [ifcNode] at hreceive
    split at hreceive
    case isFalse => cases hreceive
    rename_i hip
    obtain ⟨hfresh, hmap⟩ := Option.ite_none_right_eq_some.mp hreceive
    obtain ⟨⟨o, loop⟩, hstep, rfl⟩ := Option.map_eq_some_iff.mp hmap
    simp only [ReceiveLoop.machine] at hstep
    split at hstep
    case h_2 => cases hstep
    obtain ⟨loop', hloop, heq⟩ := Option.map_eq_some_iff.mp hstep
    cases heq
    subst hip
    exact ⟨loop_receive_good hgood hproper rfl hfresh hloop,
      fun ip text => loop_receive_holds hproper rfl hfresh hloop⟩

end Mixed

end IFreeChat
