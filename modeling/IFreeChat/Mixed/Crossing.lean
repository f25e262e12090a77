import IFreeChat.Mixed.IfcHost

/-!
# Private messages between the two programs

Either program takes a private message of the other.  The text that a user enters is in the
message the receiver keeps, with the user the receiver lists for the address it came from: it
is put at the end of `mlist`, unless the program under `ifc/` has the chat box of the sender
open (`private_message_to_ifc`, `private_message_from_ifc`).

The program under `src/` answers with a receipt.  The one under `ifc/` takes the receipt
without an effect on its contacts, its chat boxes and its `mlist`, and its message is nobody's
afterwards.
-/

open Basis

namespace IFreeChat

open Feiq (Fields Packet colon offsetIp offsetData sizeofData ip2str str2ip)
open Peer (Glib Client clientMachine)
open ReceiveLoop (Callbacks State)

namespace Mixed

/-! ### The program under `ifc/` -/

/-- A version that is printed is short. -/
theorem versionFields_length_le (cfg : Peer.Config) {size : Nat} (hsize : size < 10 ^ 4) :
  (Peer.versionFields cfg size).text.length ≤ 60
  := by
  have havatar := cfg.avatarId.toInt_lt
  have havatar' := cfg.avatarId.le_toInt
  have hdecimal := decimal_length_le (by omega : cfg.avatarId.toInt.natAbs ≤ 2 ^ 31)
  have hmac := cfg.macaddr.fits
  have hnumeral : (numeral 10 size).length ≤ 4 :=
    numeral_length_le (by decide) (by decide) hsize
  have htexts : (ascii "1_lbt4_").length = 7 ∧ (ascii "128").length = 3
      ∧ (ascii "0").length = 1 := by decide
  obtain ⟨h₁, h₂, h₃⟩ := htexts
  simp only [Peer.versionFields, Feiq.VersionFields.text, List.length_append, List.length_cons,
    h₁, h₂, h₃]
  omega

/-- An iteration of the loop on a packet, into a block for its message; `found` and `found'` are
whether the pool has the message and the packet where these are given back. -/
def iteration (pkt : Packet) (block : Nat × Feiq.Msg) (found : Bool) (pool : Option Nat)
    (found' : Bool) : List ReceiveLoop.Event :=
  [.receive pkt (some block), .handle found, .release pool found']

section

variable {σ : Type} (callbacks : Callbacks σ) (glib : Glib) {s : State σ} {pkt : Packet}
  {f : Fields}

/-- A packet whose fields fit the block of a message is received. -/
theorem loop_accepts (hf : f.Split) (hfits : f.Fits Feiq.block) (hdata : pkt.data = f.text)
    (hpc : s.pc = .receiving) {block : Nat × Feiq.Msg}
    (hunused : ReceiveLoop.Unused s (msgExtent block.1)) :
  ∃ avatarId, (ReceiveLoop.machine callbacks glib).step s (.receive pkt (some block))
      = some ((), { s with
          pkts := s.pkts ++ [⟨pkt, []⟩]
          msgs := s.msgs ++ [⟨Feiq.parsedFields pkt block.2 f avatarId, block.1, 0⟩]
          pc := .handling s.pkts.length s.msgs.length })
    ∧ (Feiq.parsedFields pkt block.2 f avatarId).HasString offsetIp (ip2str pkt.ip)
  := by
  obtain ⟨addr, junk⟩ := block
  obtain ⟨avatarId, havatar, -⟩ := Feiq.getAvatarId_total f.version.text
  have hparse := Feiq.parse_of_fields junk hdata hf.version hf.version_isField hf.lbt4 havatar
    hf.packetId hf.username hf.hostname hf.command hfits.version hfits.username hfits.hostname
    hfits.data
  refine ⟨avatarId, ?_, ReceiveLoop.parse_address hparse⟩
  simp only [ReceiveLoop.machine, hpc, State.receive, Option.bind_eq_bind, Option.bind_some,
    ReceiveLoop.overwrite_eq_self hunused, hparse]
  rfl

/-- The text of the data is in the message. -/
theorem parsedFields_text (hlength : f.data.length ≤ sizeofData)
    (htext : (untilNul f.data).length < sizeofData) (junk : Feiq.Msg) (avatarId : Int) :
  (Feiq.parsedFields pkt junk f avatarId).HasString offsetData (untilNul f.data)
  := by
  have hstring := (@Feiq.parsedMsg_hasString_data pkt junk f.version avatarId f.packetId
    f.username f.hostname f.command f.data hlength 0 (untilNul f.data) (by omega)).mpr
  rw [List.drop_zero, Nat.add_zero] at hstring
  apply hstring rfl

/-- A message whose command is not one of those handled is left, and the loop goes on. -/
theorem loop_ignores {p id : Nat} (hpc : s.pc = .handling p id) {b : ReceiveLoop.Block}
    (hb : s.msgs[id]? = some b)
    (hother : ∀ cmd ∈ [ReceiveLoop.CMD_BR_ENTRY, ReceiveLoop.CMD_ANSENTRY, ReceiveLoop.CMD_BR_EXIT,
      ReceiveLoop.CMD_SENDMSG], b.msg.command &&& 0xff ≠ cmd) (found : Bool) :
  (ReceiveLoop.machine callbacks glib).step s (.handle found)
    = some ((), { s with pc := .releasing p })
  := by
  simp only [List.forall_mem_cons] at hother
  obtain ⟨h₁, h₂, h₃, h₄, -⟩ := hother
  simp only [ReceiveLoop.machine, hpc, ReceiveLoop.feiqHandleMsg, hb, Option.bind_eq_bind,
    Option.bind_some, h₁, h₂, h₃, h₄, or_self, if_false, Option.map_some]

/-- A private message in UTF-8 of a user in the list is inserted as it is. -/
theorem loop_inserts (hglib : ∀ s, IsUtf8 s → glib.utf8Validate s = true) {p id : Nat}
    (hpc : s.pc = .handling p id) {b : ReceiveLoop.Block} (hb : s.msgs[id]? = some b)
    (hprivate : b.msg.command &&& 0xff = ReceiveLoop.CMD_SENDMSG) {ip text : List UInt8}
    (hip : b.msg.HasString offsetIp ip) (htext : b.msg.HasString offsetData text)
    (hutf8 : IsUtf8 text) {user : Nat} (hfind : callbacks.userFindEntry s.contacts ip = some user)
    (found : Bool) :
  (ReceiveLoop.machine callbacks glib).step s (.handle found)
    = some ((), { ReceiveLoop.insertChatMsg s user id found with pc := .releasing p })
  := by
  have hpchat : Feiq.feiqOnPchat glib Feiq.block b.msg = .ok b.msg := by
    have hvalidate : Peer.stringValidate glib text (ascii "GBK") = none := by
      rw [Peer.stringValidate, if_pos (hglib text hutf8)]
    refine bind_eq_ok.mpr ⟨text, Feiq.cString_eq_ok_iff.mpr htext, ?_⟩
    simp only [hvalidate]
  have hset : s.setMsg id b.msg = s := by
    rw [ReceiveLoop.setMsg_eq hb, set_self hb]
  have hcallback : ReceiveLoop.onPchatCallback callbacks s id found
      = some (0, ReceiveLoop.insertChatMsg s user id found) := by
    simp only [ReceiveLoop.onPchatCallback, hb, Option.bind_eq_bind, Option.bind_some,
      Feiq.cString_eq_ok_iff.mpr hip, hfind]
  simp only [ReceiveLoop.machine, hpc, ReceiveLoop.feiqHandleMsg, hb, Option.bind_eq_bind,
    Option.bind_some, hprivate, hpchat, hset, hcallback]
  rfl

/-- An iteration, whatever pool the packet is given back to. -/
theorem loop_iteration {s₁ s₂ : State σ} {block : Nat × Feiq.Msg} {found : Bool} {p : Nat}
    (hreceive : (ReceiveLoop.machine callbacks glib).step s (.receive pkt (some block))
      = some ((), s₁))
    (hhandle : (ReceiveLoop.machine callbacks glib).step s₁ (.handle found)
      = some ((), { s₂ with pc := .releasing p })) (pool : Option Nat) (found' : Bool) :
  ∃ s', (ReceiveLoop.machine callbacks glib).run s (iteration pkt block found pool found')
      = some ([(), (), ()], s')
    ∧ s'.pc = .receiving ∧ s'.contacts = s₂.contacts ∧ s'.chatbox = s₂.chatbox
    ∧ s'.mlist = s₂.mlist ∧ s'.msgs = s₂.msgs
  := by
  refine ⟨{ (({ s₂ with pc := .releasing p } : State σ).freePkt p pool found') with
    pc := .receiving }, ?_, rfl, ?_⟩
  · refine Machine.run_cons_of_step _ hreceive ?_
    refine Machine.run_cons_of_step _ hhandle ?_
    refine Machine.run_cons_of_step _ rfl ?_
    apply Machine.run_nil
  · cases pool <;> cases found' <;> exact ⟨rfl, rfl, rfl, rfl⟩

/-- A private message in UTF-8 of a user in the list is kept with its text and its address: given
back where the chat box of the user is open, and linked where it is not. -/
theorem loop_takes (hglib : ∀ s, IsUtf8 s → glib.utf8Validate s = true) (hf : f.Split)
    (hfits : f.Fits Feiq.block) (hdata : pkt.data = f.text) (hpc : s.pc = .receiving)
    (hprivate : IsPrivate f.command) (hlength : f.data.length ≤ sizeofData)
    (htext : (untilNul f.data).length < sizeofData) (hutf8 : IsUtf8 (untilNul f.data)) {user : Nat}
    (hfind : callbacks.userFindEntry s.contacts (ip2str pkt.ip) = some user)
    {block : Nat × Feiq.Msg} (hunused : ReceiveLoop.Unused s (msgExtent block.1)) (found : Bool)
    (pool : Option Nat) (found' : Bool) :
  ∃ msg s', (ReceiveLoop.machine callbacks glib).run s (iteration pkt block found pool found')
      = some ([(), (), ()], s')
    ∧ msg.HasString offsetIp (ip2str pkt.ip) ∧ msg.HasString offsetData (untilNul f.data)
    ∧ s'.pc = .receiving ∧ s'.contacts = s.contacts ∧ s'.chatbox = s.chatbox
    ∧ (s.opened user = true → s'.mlist = s.mlist
      ∧ s'.msgs = s.msgs ++ [⟨msg, block.1, found.toNat⟩])
    ∧ (s.opened user = false → s'.mlist = s.mlist ++ [(s.msgs.length, user)]
      ∧ s'.msgs = s.msgs ++ [⟨msg, block.1, 0⟩])
  := by
  obtain ⟨avatarId, hreceive, hip⟩ :=
    loop_accepts callbacks glib hf hfits hdata hpc hunused
  have hstring := @parsedFields_text pkt _ hlength htext block.2 avatarId
  obtain ⟨msg, hmsg⟩ : ∃ msg, msg = Feiq.parsedFields pkt block.2 f avatarId := ⟨_, rfl⟩
  have hcommand : msg.command &&& 0xff = ReceiveLoop.CMD_SENDMSG := by
    rw [hmsg]
    exact hprivate
  rw [← hmsg] at hreceive hip hstring
  obtain ⟨s₁, hs₁⟩ : ∃ s₁ : State σ, s₁ = { s with
      pkts := s.pkts ++ [⟨pkt, []⟩]
      msgs := s.msgs ++ [⟨msg, block.1, 0⟩]
      pc := .handling s.pkts.length s.msgs.length } := ⟨_, rfl⟩
  rw [← hs₁] at hreceive
  have hmsgs : s₁.msgs[s.msgs.length]? = some ⟨msg, block.1, 0⟩ := by
    rw [hs₁]
    apply List.getElem?_concat_length
  have hhandle := loop_inserts callbacks glib hglib (by rw [hs₁]) hmsgs hcommand
    hip hstring hutf8 (by rw [hs₁]; exact hfind) found
  obtain ⟨s', hrun, hpc', hcontacts, hchatbox, hmlist, hmsgs'⟩ :=
    loop_iteration callbacks glib hreceive hhandle pool found'
  refine ⟨msg, s', hrun, hip, hstring, hpc', ?_⟩
  rw [hcontacts, hchatbox, hmlist, hmsgs', ReceiveLoop.insertChatMsg]
  have hopen : s₁.opened user = s.opened user := by rw [hs₁]; rfl
  rw [hopen]
  cases huser : s.opened user with
  | true =>
    rw [if_pos rfl, ReceiveLoop.freeMsg_eq hmsgs found, hs₁]
    refine ⟨rfl, rfl, fun _ => ⟨rfl, ?_⟩, by simp⟩
    simp
  | false =>
    rw [if_neg (by simp), hs₁]
    exact ⟨rfl, rfl, by simp, fun _ => ⟨rfl, rfl⟩⟩

/-- A receipt is taken, and its message is left. -/
theorem loop_takes_receipt {cfg : Peer.Config} (hcfg : Separable cfg) {time : UInt64}
    {m : Peer.Msg} (husername : Feiq.IsField m.username) (husername_lt : m.username.length < 64)
    (hhostname : Feiq.IsField m.hostname) (hhostname_lt : m.hostname.length < 64) {n : Nat}
    (hn : n < 2 ^ 64) (hpacketNo : m.packetNo = numeral 10 n)
    (hdata : pkt.data = Peer.printReply cfg time m) (hpc : s.pc = .receiving)
    {block : Nat × Feiq.Msg} (hunused : ReceiveLoop.Unused s (msgExtent block.1)) (found : Bool)
    (pool : Option Nat) (found' : Bool) :
  ∃ r s', (ReceiveLoop.machine callbacks glib).run s (iteration pkt block found pool found')
      = some ([(), (), ()], s')
    ∧ s'.pc = .receiving ∧ s'.contacts = s.contacts ∧ s'.chatbox = s.chatbox
    ∧ s'.mlist = s.mlist ∧ s'.msgs = s.msgs ++ [⟨r, block.1, 0⟩]
    ∧ r.command &&& 0xff = Peer.CMD_RECVMSG ∧ r.HasString offsetData m.packetNo
  := by
  obtain ⟨f, hfields⟩ : ∃ f, f = receiptFields cfg time m := ⟨_, rfl⟩
  have hf : f.Split := hfields ▸ receiptFields_split hcfg husername hhostname
  have hnumber : f.data.length ≤ 20 := by
    rw [hfields, receiptFields, hpacketNo]
    apply numeral_length_le (by decide) (by decide)
    omega
  have hversion : f.version.text.length ≤ 60 := by
    have := @versionFields_length_le cfg 0 (by decide)
    rw [hfields]
    apply this
  have hfits : f.Fits Feiq.block := by
    have hmac := f.version.mac_length_le
    have husername' : f.username.length < 64 := by rw [hfields]; exact husername_lt
    have hhostname' : f.hostname.length < 64 := by rw [hfields]; exact hhostname_lt
    constructor <;>
      simp only [Feiq.block, Feiq.sizeofMsg, Feiq.offsetVersion, Feiq.offsetMacaddr,
        Feiq.offsetUsername, Feiq.offsetHostname, Feiq.offsetData] <;> omega
  have huntil : untilNul f.data = m.packetNo := by
    rw [hfields, receiptFields]
    apply untilNul_of_not_mem
    rw [hpacketNo]
    apply (Peer.isField_numeral n).2
  obtain ⟨avatarId, hreceive, -⟩ := loop_accepts callbacks glib hf hfits
    (by rw [hdata, hfields, receiptFields_text]) hpc hunused
  have hstring := @parsedFields_text pkt f (by rw [sizeofData]; omega)
    (by rw [huntil, ← huntil, sizeofData]; have := untilNul_length_le f.data; omega) block.2
    avatarId
  rw [huntil] at hstring
  obtain ⟨r, hr⟩ : ∃ r, r = Feiq.parsedFields pkt block.2 f avatarId := ⟨_, rfl⟩
  have hcommand : r.command = Peer.CMD_RECVMSG := by
    have hatoi := atoi_numeral (by decide : Peer.CMD_RECVMSG < 2 ^ 31)
      (by simp : ∀ c ∈ ([] : List UInt8).head?, digitValue 10 c = none)
    rw [List.append_nil] at hatoi
    rw [hr, hfields, Feiq.parsedFields, Feiq.parsedMsg, receiptFields]
    simp only [hatoi]
    decide
  rw [← hr] at hreceive hstring
  obtain ⟨s₁, hs₁⟩ : ∃ s₁ : State σ, s₁ = { s with
      pkts := s.pkts ++ [⟨pkt, []⟩]
      msgs := s.msgs ++ [⟨r, block.1, 0⟩]
      pc := .handling s.pkts.length s.msgs.length } := ⟨_, rfl⟩
  rw [← hs₁] at hreceive
  have hmsgs : s₁.msgs[s.msgs.length]? = some ⟨r, block.1, 0⟩ := by
    rw [hs₁]
    apply List.getElem?_concat_length
  have hhandle := loop_ignores callbacks glib (by rw [hs₁])
    hmsgs (by rw [hcommand]; decide) found
  obtain ⟨s', hrun, hpc', hcontacts, hchatbox, hmlist, hmsgs'⟩ :=
    loop_iteration callbacks glib hreceive hhandle pool found'
  rw [hs₁] at hcontacts hchatbox hmlist hmsgs'
  exact ⟨r, s', hrun, hpc', hcontacts, hchatbox, hmlist, hmsgs', by rw [hcommand]; decide, hstring⟩

end

/-- The text of a private chat box of the program under `src/` that is not empty, is UTF-8 and
fits the array `data` is sent, and the program under `ifc/` takes it whole, into a block that meets
none in use, where it lists a user of the address the packet comes from: it is put at the end of
`mlist` with that user, or shown and given back where the user's chat box is open. -/
theorem private_message_to_ifc {σ : Type} {callbacks : Callbacks σ} {glib : Glib}
    (hglib : ∀ s, IsUtf8 s → glib.utf8Validate s = true) {sender : Peer.Config}
    (hsender : Separable sender) {text : List UInt8} (hne : text ≠ []) (hutf8 : IsUtf8 text)
    (hnul : 0 ∉ text) (hlength : text.length < sizeofData) {s : State σ} (hpc : s.pc = .receiving)
    {ip user : Nat} (hfind : callbacks.userFindEntry s.contacts (ip2str ip) = some user)
    (time : UInt64) (ctime : CArray 26) :
  ∃ datagram, Peer.onSendMessage sender time ctime text = .ok (some datagram)
    ∧ ∀ mtime port beyond (block : Nat × Feiq.Msg) found pool found',
      ReceiveLoop.Unused s (msgExtent block.1) → ∃ msg s',
      (ReceiveLoop.machine callbacks glib).run s
          (iteration ⟨mtime, ip, port, datagram, beyond⟩ block found pool found')
        = some ([(), (), ()], s')
      ∧ msg.HasString offsetIp (ip2str ip) ∧ msg.HasString offsetData text
      ∧ s'.pc = .receiving ∧ s'.contacts = s.contacts ∧ s'.chatbox = s.chatbox
      ∧ (s.opened user = true → s'.mlist = s.mlist
        ∧ s'.msgs = s.msgs ++ [⟨msg, block.1, found.toNat⟩])
      ∧ (s.opened user = false → s'.mlist = s.mlist ++ [(s.msgs.length, user)]
        ∧ s'.msgs = s.msgs ++ [⟨msg, block.1, 0⟩])
  := by
  have hheader := @Peer.printHeader_length_le sender 0 0x120 time (by decide) (by decide)
  have hsizeof := hlength
  rw [sizeofData] at hsizeof
  refine ⟨Peer.printHeader sender 0 time 0x120 ++ text, ?_, ?_⟩
  · rw [Peer.onSendMessage_eq hne, if_neg]
    rw [List.length_append, Peer.sizeofSendBuf]
    omega
  intro mtime port beyond block found pool found' hunused
  obtain ⟨f, hfields⟩ : ∃ f, f = printedFields sender 0 time 0x120 text := ⟨_, rfl⟩
  have hfdata : f.data = text := by rw [hfields]; rfl
  have huntil : untilNul f.data = text := by rw [hfdata, untilNul_of_not_mem hnul]
  have hfits : f.Fits Feiq.block := by
    have hversion : f.version.text.length ≤ 60 := by
      rw [hfields]
      apply versionFields_length_le sender (by decide)
    have hmac := f.version.mac_length_le
    have husername : f.username.length < 64 := by rw [hfields]; exact sender.username.fits
    have hhostname : f.hostname.length < 64 := by rw [hfields]; exact sender.hostname.fits
    constructor <;>
      simp only [Feiq.block, Feiq.sizeofMsg, Feiq.offsetVersion, Feiq.offsetMacaddr,
        Feiq.offsetUsername, Feiq.offsetHostname, Feiq.offsetData, hfdata] <;> omega
  have hprivate : IsPrivate f.command := by
    rw [hfields, printedFields, isPrivate_numeral (by decide)]
    decide
  have hdata : (⟨mtime, ip, port, Peer.printHeader sender 0 time 0x120 ++ text, beyond⟩ :
      Packet).data = f.text := by
    rw [hfields, printedFields_text]
  have htaken := loop_takes callbacks glib hglib (hfields ▸ printedFields_split hsender)
    hfits hdata hpc hprivate (by rw [hfdata]; omega)
    (by rw [huntil]; exact hlength) (by rw [huntil]; exact hutf8) hfind hunused found pool found'
  rw [huntil] at htaken
  exact htaken

/-- The greeting comes from the user of the sample contacts. -/
theorem private_message_to_ifc_hi :
  ∃ datagram, Peer.onSendMessage Peer.configA 7 ⟨ascii "now", by decide, by decide⟩ (ascii "hi")
      = .ok (some datagram)
    ∧ ∀ mtime port beyond junk pool, ∃ msg s',
      (ReceiveLoop.machine ReceiveLoop.sampleCallbacks Peer.asciiGlib).run
          (ReceiveLoop.start ReceiveLoop.sampleContacts [⟨0, 4096⟩])
          (iteration ⟨mtime, 10 * 2 ^ 24 + 13 * 2 ^ 8 + 105, port, datagram, beyond⟩ (8192, junk)
            true pool true) = some ([(), (), ()], s')
      ∧ msg.HasString offsetIp (ascii "10.0.13.105") ∧ msg.HasString offsetData (ascii "hi")
      ∧ s'.pc = .receiving ∧ s'.chatbox = [] ∧ s'.mlist = [(0, 0)] ∧ s'.msgs = [⟨msg, 8192, 0⟩]
  := by
  have hutf8 : IsUtf8 (ascii "hi") := isUtf8_of_ascii (by decide +kernel)
  have haddress : ip2str (10 * 2 ^ 24 + 13 * 2 ^ 8 + 105) = ascii "10.0.13.105" := by
    decide +kernel
  have hfind : ReceiveLoop.sampleCallbacks.userFindEntry ReceiveLoop.sampleContacts
      (ip2str (10 * 2 ^ 24 + 13 * 2 ^ 8 + 105)) = some 0 := by
    decide +kernel
  have hsep : Separable Peer.configA := ⟨⟨by decide, by decide, by decide⟩, by decide⟩
  have hglib : ∀ s, IsUtf8 s → Peer.asciiGlib.utf8Validate s = true := fun _ _ => rfl
  have hunused : ReceiveLoop.Unused (ReceiveLoop.start ReceiveLoop.sampleContacts [⟨0, 4096⟩])
      (msgExtent 8192) := by
    decide
  obtain ⟨datagram, hsend, htakes⟩ := private_message_to_ifc
    (s := ReceiveLoop.start ReceiveLoop.sampleContacts [⟨0, 4096⟩]) hglib hsep (by decide) hutf8
    (by decide) (by decide) rfl hfind 7
    ⟨ascii "now", by decide, by decide⟩
  refine ⟨datagram, hsend, fun mtime port beyond junk pool => ?_⟩
  obtain ⟨msg, s', hrun, hip, htext, hpc, -, hchatbox, -, hlinked⟩ :=
    htakes mtime port beyond (8192, junk) true pool true hunused
  obtain ⟨hmlist, hmsgs⟩ := hlinked (by decide)
  exact ⟨msg, s', hrun, haddress ▸ hip, htext, hpc, hchatbox, hmlist, hmsgs⟩

/-! ### The program under `src/` -/

/-- The text of a private chat box of the program under `ifc/` that is UTF-8 and fits the array
`data` is sent to the address of the chat box.  A peer that lists its sender puts it at the end
of `mlist`, with the sender and the whole text, and answers with a receipt; whoever takes that into
a block that meets none in use keeps its contacts, its chat boxes and its `mlist`, and the message
of the receipt is neither given back nor linked. -/
theorem private_message_from_ifc {cfg : Peer.Config} {glib : Glib}
    (hglib : ∀ s, IsUtf8 s → glib.utf8Validate s = true) (hcfg : Separable cfg)
    {ifc : Feiq.Sender} (hifc : SeparableSender ifc) {text : List UInt8} (hutf8 : IsUtf8 text)
    (hnul : 0 ∉ text) (hlength : text.length < sizeofData) {s : Client} (hidle : s.pc = .idle)
    {ip : List UInt8} {i : Nat} (hfind : Peer.findUser s.ulist ip = some i) (port : UInt16)
    (unset : Feiq.Unset) (next : UInt8) (time mtime : UInt32) (ipaddr : CArray 32) :
  ∃ pkt, Feiq.onPcahtSendCallback Feiq.dataEnd ifc unset (some next) time mtime ipaddr text
      = .ok (some pkt)
    ∧ pkt.ip = (str2ip unset.numbers (some ipaddr.text)).toNat
    ∧ ∀ time' beyond plain, ∃ reply s' m,
      (clientMachine glib cfg).run s (Peer.sendmsgEvents ip port pkt.data time' beyond plain)
        = some (List.replicate 5 none ++ [some reply], s')
      ∧ s'.pc = .idle ∧ s'.ulist = s.ulist ∧ s'.mlist = s.mlist ++ [s.heap.length]
      ∧ s'.heap = s.heap ++ [⟨m, 0⟩] ∧ m.ip = ip ∧ m.user = some i ∧ m.gpid = some 0
      ∧ untilNul m.data = text
      ∧ ∀ (σ : Type) (callbacks : Callbacks σ) (glib' : Glib) (t : State σ) (rpkt : Packet)
        (block : Nat × Feiq.Msg) (found : Bool) (pool : Option Nat) (found' : Bool),
        t.pc = .receiving → rpkt.data = reply → ReceiveLoop.Unused t (msgExtent block.1) →
        ∃ r t', (ReceiveLoop.machine callbacks glib').run t
            (iteration rpkt block found pool found') = some ([(), (), ()], t')
          ∧ t'.pc = .receiving ∧ t'.contacts = t.contacts ∧ t'.chatbox = t.chatbox
          ∧ t'.mlist = t.mlist ∧ t'.msgs = t.msgs ++ [⟨r, block.1, 0⟩]
          ∧ r.command &&& 0xff = Peer.CMD_RECVMSG
          ∧ r.HasString offsetData (numeral 10 time.toNat)
  := by
  have hroom := (Feiq.room_dataEnd_iff ifc ipaddr text).mpr hlength
  obtain ⟨⟨pkt, hpkt⟩, hdatagram⟩ : (∃ pkt, Feiq.onPcahtSendCallback Feiq.dataEnd ifc unset
      (some next) time mtime ipaddr text = .ok (some pkt))
      ∧ ∀ pkt, Feiq.onPcahtSendCallback Feiq.dataEnd ifc unset (some next) time mtime ipaddr text
        = .ok (some pkt) → pkt.data = (outgoingFields ifc unset time text).text := by
    constructor
    · exact ⟨_, (Feiq.onPcahtSendCallback_eq_ok_iff (by decide)).mpr ⟨hroom, rfl⟩⟩
    · intro pkt h
      obtain ⟨-, hpkt⟩ := (Feiq.onPcahtSendCallback_eq_ok_iff (by decide)).mp h
      cases hpkt
      exact buildText_outgoing hifc hlength
  obtain ⟨-, hip⟩ := sendable_onPcahtSendCallback hifc hnul hutf8 hpkt
  refine ⟨pkt, hpkt, hip, ?_⟩
  rw [hdatagram pkt hpkt]
  obtain ⟨f, hf⟩ : ∃ f, f = outgoingFields ifc unset time text := ⟨_, rfl⟩
  have hsplit : f.Split := hf ▸ outgoingFields_split hifc
  have hfits : f.text.length < Peer.sizeofBuf := by
    have hheader := @Feiq.outgoing_header_le ifc unset time ipaddr text
    rw [sizeofData] at hlength
    rw [hf, ← @buildText_outgoing ifc unset time ipaddr text hifc (by rw [sizeofData]; omega),
      Feiq.buildText_header, Feiq.outgoing_data (by rw [Feiq.sizeofMsg]; omega),
      List.length_append, List.length_append, List.length_singleton, Peer.sizeofBuf]
    omega
  intro time' beyond plain
  rw [← hf]
  have hparse := parseMessage_fields hsplit hfits ip port
  obtain ⟨m, hm⟩ : ∃ m, m = (pieces f).msg ip port := ⟨_, rfl⟩
  rw [← hm] at hparse
  have hcommand : m.command = 0x120 := by
    have hatoi := atoi_numeral (by decide : 0x120 < 2 ^ 31)
      (by simp : ∀ c ∈ ([] : List UInt8).head?, digitValue 10 c = none)
    rw [List.append_nil] at hatoi
    rw [hm, hf, Peer.Msg.command, Peer.Pieces.msg, pieces, outgoingFields, hatoi]
    decide
  have hdata : m.data = text ++ 0 :: [0] := by
    rw [hm, hf]
    simp only [Peer.Pieces.msg, pieces, outgoingFields, List.append_assoc, List.cons_append,
      List.nil_append]
  have husername : m.username = ifc.username.text := by rw [hm, hf]; rfl
  have hhostname : m.hostname = ifc.hostname.text := by rw [hm, hf]; rfl
  have hpacketNo : m.packetNo = numeral 10 time.toNat := by rw [hm, hf]; rfl
  have hmip : m.ip = ip := by rw [hm]; rfl
  have hn : time.toNat < 2 ^ 64 := Nat.lt_trans time.toNat_lt (by decide)
  have husername_lt : m.username.length < 64 := husername ▸ ifc.username.fits
  have hhostname_lt : m.hostname.length < 64 := hhostname ▸ ifc.hostname.fits
  have hreply := Peer.printReply_length_lt cfg time' husername_lt hhostname_lt hn hpacketNo
  obtain ⟨s', hrun, h⟩ := Peer.message_acknowledged hglib hidle hparse hcommand
    (hmip ▸ hfind) hutf8 hnul hdata hreply beyond plain
  refine ⟨Peer.printReply cfg time' m, s', _, hrun, h.pc, h.ulist, h.mlist, h.heap, hmip, rfl, rfl,
    ?_, ?_⟩
  · simp only [hdata]
    apply untilNul_string hnul
  · intro σ callbacks glib' t rpkt block found pool found' ht hrpkt hunused
    rw [← hpacketNo]
    apply loop_takes_receipt callbacks glib' hcfg (husername ▸ ⟨hifc.username, ifc.username.nul⟩)
      husername_lt (hhostname ▸ ⟨hifc.hostname, ifc.hostname.nul⟩) hhostname_lt hn hpacketNo hrpkt
      ht hunused found pool found'

/-- A private message to a peer that lists its sender. -/
theorem private_message_from_ifc_hi :
  ∃ pkt, Feiq.onPcahtSendCallback Feiq.dataEnd Peer.senderA Peer.zeroStack (some 0) 7 7
      ⟨ascii "10.0.0.2", by decide, by decide⟩ (ascii "hi") = .ok (some pkt)
    ∧ pkt.ip = 10 * 2 ^ 24 + 2
    ∧ ∃ reply s' m, (clientMachine Peer.asciiGlib Peer.configB).run Peer.clientOfA
        (Peer.sendmsgEvents (ascii "10.0.0.1") 2425 pkt.data 7 [] [])
        = some (List.replicate 5 none ++ [some reply], s')
      ∧ s'.mlist = [0] ∧ s'.heap = [⟨m, 0⟩] ∧ m.user = some 0 ∧ untilNul m.data = ascii "hi"
  := by
  have hutf8 : IsUtf8 (ascii "hi") := isUtf8_of_ascii (by decide +kernel)
  have hsep : Separable Peer.configB := ⟨⟨by decide, by decide, by decide⟩, by decide⟩
  have hifc : SeparableSender Peer.senderA :=
    ⟨by decide, by decide, by decide, by decide, by decide +kernel⟩
  have hglib : ∀ s, IsUtf8 s → Peer.asciiGlib.utf8Validate s = true := fun _ _ => rfl
  have hfind : Peer.findUser Peer.clientOfA.ulist (ascii "10.0.0.1") = some 0 := rfl
  obtain ⟨pkt, hpkt, hip, htakes⟩ := private_message_from_ifc hglib hsep hifc hutf8 (by decide)
    (by decide) (s := Peer.clientOfA) rfl hfind 2425 Peer.zeroStack 0 7 7
    ⟨ascii "10.0.0.2", by decide, by decide⟩
  have haddress : (str2ip Peer.zeroStack.numbers (some (ascii "10.0.0.2"))).toNat
      = 10 * 2 ^ 24 + 2 := by
    decide +kernel
  refine ⟨pkt, hpkt, hip.trans haddress, ?_⟩
  obtain ⟨reply, s', m, hrun, -, -, hmlist, hheap, -, huser, -, htext, -⟩ := htakes 7 [] []
  exact ⟨reply, s', m, hrun, hmlist, hheap, huser, htext⟩

end Mixed

end IFreeChat
