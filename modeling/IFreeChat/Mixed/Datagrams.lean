import IFreeChat.Basis.Network
import IFreeChat.Ifc.Outgoing
import IFreeChat.Peer.Discovery
import IFreeChat.Peer.PrivateMessage

/-!
# The datagrams of both programs

The two programs speak one protocol: what either sends are fields the other can take apart.  A
datagram is proper when its fields are, and carries a text when it is a private message; the
fields of a datagram, and so the text, are its own (`carries_iff`).

Each program sends proper datagrams only, and those other than private messages carry nothing.
-/

open Basis

namespace IFreeChat

open Feiq (Fields IsField colon sharp sizeofData)

namespace Mixed

/-! ### Fields -/

/-- `cmd & 0x000000ff` is `CMD_SENDMSG`, which is the same in both programs. -/
def IsPrivate (command : List UInt8) : Prop :=
  Feiq.toUnsigned 32 (atoi command) &&& 0xff = Peer.CMD_SENDMSG

instance (command : List UInt8) : Decidable (IsPrivate command) :=
  inferInstanceAs (Decidable (_ = _))

/-- The fields of a datagram that is sent: they fit the smaller one of the receive buffers, and
the text of a private message is UTF-8 and fits the array `data`. -/
structure Proper (f : Fields) : Prop where
  split : f.Split
  length : f.text.length < Peer.sizeofBuf
  data : IsPrivate f.command → f.data.length ≤ sizeofData
  text : IsPrivate f.command → (untilNul f.data).length < sizeofData ∧ IsUtf8 (untilNul f.data)

/-- The proper datagrams, and the texts of private messages. -/
def format : Format (List UInt8) (List UInt8) where
  Fine d := ∃ f, Proper f ∧ d = f.text
  Carries d t := ∃ f : Fields, f.Split ∧ d = f.text ∧ IsPrivate f.command ∧ t = untilNul f.data

/-- The fields of a datagram but for the parts of its version. -/
structure SameFields (f f' : Fields) : Prop where
  version : f.version.text = f'.version.text
  packetId : f.packetId = f'.packetId
  username : f.username = f'.username
  hostname : f.hostname = f'.hostname
  command : f.command = f'.command
  data : f.data = f'.data

theorem sameFields_of_text {f f' : Fields} (hf : f.Split) (hf' : f'.Split)
    (h : f.text = f'.text) :
  SameFields f f'
  := by
  obtain ⟨hversion, hrest⟩ :=
    Feiq.isField_append_inj hf.version_isField hf'.version_isField h
  obtain ⟨hpacketId, hrest⟩ := Feiq.isField_append_inj hf.packetId hf'.packetId hrest
  obtain ⟨husername, hrest⟩ := Feiq.isField_append_inj hf.username hf'.username hrest
  obtain ⟨hhostname, hrest⟩ := Feiq.isField_append_inj hf.hostname hf'.hostname hrest
  obtain ⟨hcommand, hdata⟩ := Feiq.isField_append_inj hf.command hf'.command hrest
  exact ⟨hversion, hpacketId, husername, hhostname, hcommand, hdata⟩

/-- The text a datagram carries is that of its fields. -/
theorem carries_iff {f : Fields} (hf : f.Split) {t : List UInt8} :
  format.Carries f.text t ↔ IsPrivate f.command ∧ t = untilNul f.data
  := by
  constructor
  · rintro ⟨f', hf', htext, hprivate, rfl⟩
    have hsame := sameFields_of_text hf hf' htext
    rw [hsame.command, hsame.data]
    exact ⟨hprivate, rfl⟩
  · rintro ⟨hprivate, rfl⟩
    exact ⟨f, hf, rfl, hprivate, rfl⟩

theorem isPrivate_numeral {cmd : Nat} (h : cmd < 2 ^ 31) :
  IsPrivate (numeral 10 cmd) ↔ cmd &&& 0xff = Peer.CMD_SENDMSG
  := by
  have hatoi := atoi_numeral h (by simp : ∀ c ∈ ([] : List UInt8).head?, digitValue 10 c = none)
  rw [List.append_nil] at hatoi
  rw [IsPrivate, hatoi, Feiq.toUnsigned_of_lt (by omega)]

/-- What may be sent where these texts are asked for. -/
def Sendable (d : List UInt8) (asked : List (List UInt8)) : Prop :=
  format.Fine d ∧ ∀ t, format.Carries d t → t ∈ asked

/-- Other datagrams than private messages carry nothing. -/
theorem sendable_other {f : Fields} (hf : f.Split) (hlength : f.text.length < Peer.sizeofBuf)
    (hother : ¬ IsPrivate f.command) (asked : List (List UInt8)) :
  Sendable f.text asked
  := by
  constructor
  · exact ⟨f, ⟨hf, hlength, fun h => absurd h hother, fun h => absurd h hother⟩, rfl⟩
  · intro t hcarries
    apply absurd ((carries_iff hf).mp hcarries).1 hother

/-- A private message with a text, or with a terminator after it. -/
theorem sendable_private {f : Fields} (hf : f.Split) (hlength : f.text.length < Peer.sizeofBuf)
    {text : List UInt8} (hdata : f.data = text ∨ f.data = text ++ [0]) (hnul : 0 ∉ text)
    (hutf8 : IsUtf8 text) (hfits : text.length < sizeofData) :
  Sendable f.text [text]
  := by
  have hlt : f.data.length ≤ sizeofData := by
    rcases hdata with hdata | hdata
    · rw [hdata]
      omega
    · rw [hdata, List.length_append, List.length_singleton]
      omega
  have huntil : untilNul f.data = text := by
    rcases hdata with hdata | hdata
    · rw [hdata, untilNul_of_not_mem hnul]
    · rw [hdata, untilNul_string hnul]
  constructor
  · refine ⟨f, ⟨hf, hlength, fun _ => hlt, fun _ => ?_⟩, rfl⟩
    rw [huntil]
    exact ⟨hfits, hutf8⟩
  · intro t hcarries
    rw [((carries_iff hf).mp hcarries).2, huntil]
    apply List.mem_singleton_self

/-! ### The program under `src/` -/

/-- The fields of what `printHeader` prints, with the data after it. -/
def printedFields (cfg : Peer.Config) (size : Nat) (time : UInt64) (cmd : Nat)
    (data : List UInt8) : Fields where
  version := Peer.versionFields cfg size
  packetId := numeral 10 time.toNat
  username := cfg.username.text
  hostname := cfg.hostname.text
  command := numeral 10 cmd
  data := data

/-- No string of the header has a separator. -/
structure Separable (cfg : Peer.Config) : Prop where
  colon : cfg.Separable
  sharp : sharp ∉ cfg.macaddr.text

section

variable {cfg : Peer.Config} {size cmd : Nat} {time : UInt64} {data : List UInt8}

theorem printedFields_text :
  (printedFields cfg size time cmd data).text = Peer.printHeader cfg size time cmd ++ data
  := by
  have hcolon : ascii ":" = [colon] := rfl
  simp only [printedFields, Fields.text, Peer.printHeader, Peer.printVersion_eq, hcolon,
    List.append_assoc, List.cons_append, List.nil_append]

/-- A version that is printed starts with that of the protocol. -/
theorem versionFields_lbt4 (cfg : Peer.Config) (size : Nat) :
  (ascii "1_lbt4").isPrefixOf (Peer.versionFields cfg size).text = true
  := by
  apply Feiq.isPrefixOf_append
  apply Feiq.isPrefixOf_append
  decide

theorem printedFields_split (hcfg : Separable cfg) :
  (printedFields cfg size time cmd data).Split
  where
  version := Peer.versionFields_split hcfg.sharp size
  version_isField := by
    rw [printedFields, ← Peer.printVersion_eq]
    apply Peer.isField_printVersion hcfg.colon size
  lbt4 := versionFields_lbt4 cfg size
  packetId := Peer.isField_numeral time.toNat
  username := ⟨hcfg.colon.username, cfg.username.nul⟩
  hostname := ⟨hcfg.colon.hostname, cfg.hostname.nul⟩
  command := Peer.isField_numeral cmd

/-- What is printed with another command than a private message's can be sent unasked. -/
theorem sendable_printed (hcfg : Separable cfg) (hcmd : cmd < 2 ^ 31)
    (hother : cmd &&& 0xff ≠ Peer.CMD_SENDMSG)
    (hlength : (Peer.printHeader cfg size time cmd ++ data).length < Peer.sizeofBuf)
    (asked : List (List UInt8)) :
  Sendable (Peer.printHeader cfg size time cmd ++ data) asked
  := by
  rw [← printedFields_text] at hlength ⊢
  apply sendable_other (printedFields_split hcfg) hlength
  rw [printedFields, isPrivate_numeral hcmd]
  apply hother

/-- The fields of the receipt of a message. -/
def receiptFields (cfg : Peer.Config) (time : UInt64) (msg : Peer.Msg) : Fields where
  version := Peer.versionFields cfg 0
  packetId := numeral 10 time.toNat
  username := msg.username
  hostname := msg.hostname
  command := numeral 10 Peer.CMD_RECVMSG
  data := msg.packetNo

theorem receiptFields_text {msg : Peer.Msg} :
  (receiptFields cfg time msg).text = Peer.printReply cfg time msg
  := by
  rw [Peer.printReply_eq, Peer.receiptPieces, Peer.Pieces.text, receiptFields, Fields.text,
    Peer.printVersion_eq]

theorem receiptFields_split (hcfg : Separable cfg) {msg : Peer.Msg}
    (husername : IsField msg.username) (hhostname : IsField msg.hostname) :
  (receiptFields cfg time msg).Split
  where
  version := Peer.versionFields_split hcfg.sharp 0
  version_isField := by
    rw [receiptFields, ← Peer.printVersion_eq]
    apply Peer.isField_printVersion hcfg.colon 0
  lbt4 := versionFields_lbt4 cfg 0
  packetId := Peer.isField_numeral time.toNat
  username := husername
  hostname := hhostname
  command := Peer.isField_numeral Peer.CMD_RECVMSG

end

section

variable {cfg : Peer.Config} (hcfg : Separable cfg)

include hcfg

/-- An entry, an exit and an entry reply, with at most a category after them. -/
theorem sendable_entry (time : UInt64) {cmd : Nat} (hcmd : cmd < 2 ^ 31)
    (hother : cmd &&& 0xff ≠ Peer.CMD_SENDMSG) {data : List UInt8} (hdata : data.length ≤ 65)
    (asked : List (List UInt8)) :
  Sendable (Peer.printEntry cfg time cmd ++ data) asked
  := by
  have hlength := @Peer.printEntry_length_le cfg time cmd (by omega)
  rw [Peer.printEntry, List.append_assoc]
  apply sendable_printed hcfg hcmd hother
  rw [← List.append_assoc, ← Peer.printEntry, List.length_append, Peer.sizeofBuf]
  omega

/-- The broadcasts of a peer that comes. -/
theorem sendable_online {time : UInt64} {cipher : List UInt8} {texts : List (List UInt8)}
    (h : Peer.onlineBroadcast cfg time cipher = .ok texts) {d : List UInt8} (hd : d ∈ texts)
    (asked : List (List UInt8)) :
  Sendable d asked
  := by
  obtain ⟨bf, -, h⟩ := bind_eq_ok.mp h
  obtain ⟨groups, hgroups, h⟩ := bind_eq_ok.mp h
  cases h
  rcases List.mem_cons.mp hd with rfl | hd
  · apply sendable_printed hcfg (by decide) (by decide)
    have hheader := @Peer.printHeader_length_le cfg 0 0 time (by decide) (by decide)
    rw [List.length_append, List.length_singleton, Peer.sizeofBuf]
    omega
  rcases List.mem_cons.mp hd with rfl | hd
  · apply sendable_entry hcfg time (by decide) (by decide) (Peer.category_length_le cfg)
  · obtain ⟨groupId, -, hgroup⟩ := Peer.mapM_mem hgroups hd
    obtain ⟨-, -, -, -, -, -, hlength⟩ := Peer.printed_announceGroup hgroup
    obtain ⟨out, -, hout⟩ := bind_eq_ok.mp hgroup
    cases hout
    apply sendable_printed hcfg (by decide) (by decide) hlength

/-- The broadcast of a peer that goes. -/
theorem sendable_offline (time : UInt64) (asked : List (List UInt8)) :
  Sendable (Peer.offlineBroadcast cfg time) asked
  := sendable_entry hcfg time (by decide) (by decide) (Peer.category_length_le cfg) asked

/-- The reply to an entry. -/
theorem sendable_entryReply {time : UInt64} {msg : Peer.Msg} {d : List UInt8}
    (h : Peer.entryReply cfg time msg = some d) (asked : List (List UInt8)) :
  Sendable d asked
  := by
  rw [Peer.entryReply] at h
  split at h
  · cases h
    have hentry := @sendable_entry cfg hcfg time 0x103 (by decide) (by decide) [] (by decide) asked
    rwa [List.append_nil] at hentry
  · cases h

/-- A receipt of a message whose names have no separator. -/
theorem sendable_printReply (time : UInt64) {msg : Peer.Msg}
    (husername : IsField msg.username) (hhostname : IsField msg.hostname)
    (hlength : (Peer.printReply cfg time msg).length < 1024) (asked : List (List UInt8)) :
  Sendable (Peer.printReply cfg time msg) asked
  := by
  rw [← receiptFields_text] at hlength ⊢
  apply sendable_other (receiptFields_split hcfg husername hhostname)
  · rw [Peer.sizeofBuf]
    omega
  · rw [receiptFields, isPrivate_numeral (by decide)]
    decide

/-- The text of a private chat box. -/
theorem sendable_onSendMessage {time : UInt64} {ctime : CArray 26} {text d : List UInt8}
    (hnul : 0 ∉ text) (hutf8 : IsUtf8 text) (hfits : text.length < sizeofData)
    (h : Peer.onSendMessage cfg time ctime text = .ok (some d)) :
  Sendable d [text]
  := by
  obtain ⟨rfl, -⟩ := Peer.onSendMessage_eq_some h
  have hheader := @Peer.printHeader_length_le cfg 0 0x120 time (by decide) (by decide)
  rw [sizeofData] at hfits
  rw [← printedFields_text]
  apply sendable_private (printedFields_split hcfg) _ (Or.inl rfl) hnul hutf8 hfits
  rw [printedFields_text, List.length_append, Peer.sizeofBuf]
  omega

/-- The text of a group chat box. -/
theorem sendable_onSendGpmessage {groupId : UInt32} {time : UInt64} {ctime : CArray 26}
    {cipher : Vector UInt8 Peer.sizeofPlain} {beyond text d : List UInt8}
    (h : Peer.onSendGpmessage cfg groupId time ctime cipher beyond text = .ok (some d))
    (asked : List (List UInt8)) :
  Sendable d asked
  := by
  by_cases hmsg : text = []
  · rw [Peer.onSendGpmessage, if_pos hmsg] at h
    cases h
  · obtain ⟨bf, hbf, hplain⟩ := Peer.plain_of_onSendGpmessage _ _ _ _ _ _ hmsg h
    obtain ⟨out, hlength, hrun, -⟩ :=
      Peer.onSendGpmessage_of_key _ _ time ctime cipher beyond hmsg hbf hplain
    obtain ⟨buf, hfill, hsome⟩ := (hrun _).mp h
    cases hsome
    rw [Peer.sizeofPlain] at hplain
    obtain ⟨-, rfl⟩ := (Peer.fillBuf_eq_ok_iff (by rw [Peer.sizeofPlain]; omega)).mp hfill
    have hheader := @Peer.printHeader_length_le cfg out.length 4194339 time (by omega) (by decide)
    have htake := List.length_take_le (out.length + 1)
      (out ++ cipher.toList.drop out.length ++ beyond)
    apply sendable_printed hcfg (by decide) (by decide)
    rw [List.length_append, Peer.sizeofBuf]
    omega

end

/-! ### The program under `ifc/` -/

/-- No string of the user has a separator, and each fits its array of a message. -/
structure SeparableSender (ifc : Feiq.Sender) : Prop where
  username : colon ∉ ifc.username.text
  username_lt : ifc.username.text.length < 32
  hostname : colon ∉ ifc.hostname.text
  hostname_lt : ifc.hostname.text.length < 32
  macaddr : ∀ c ∈ ifc.macaddr.text, (digitValue 16 c).isSome

section

variable {ifc : Feiq.Sender} {unset : Feiq.Unset} {time mtime : UInt32} {ipaddr : CArray 32}
  {text : List UInt8} {block : Option UInt8}

/-- The strings of a message to be sent are those of the user, and the address is the one it
is sent to. -/
theorem outgoing_strings (hifc : SeparableSender ifc) :
  (Feiq.outgoing ifc unset time ipaddr text).string Feiq.offsetIp = ipaddr.text
    ∧ (Feiq.outgoing ifc unset time ipaddr text).string Feiq.offsetMacaddr = ifc.macaddr.text
    ∧ (Feiq.outgoing ifc unset time ipaddr text).string Feiq.offsetUsername = ifc.username.text
    ∧ (Feiq.outgoing ifc unset time ipaddr text).string Feiq.offsetHostname = ifc.hostname.text
  := by
  have hip := ipaddr.fits
  have hmacaddr := ifc.macaddr.fits
  have husername := hifc.username_lt
  have hhostname := hifc.hostname_lt
  refine ⟨?_, ?_, ?_, ?_⟩
  · apply Feiq.string_of_read ipaddr.nul
    · simp only [Feiq.offsetIp, Feiq.sizeofMsg]
      omega
    · rw [Feiq.outgoing]
      simp only
      iterate 4 rw [Memory.read_write_of_apart]
      · apply Feiq.read_write_string
      all_goals
        simp only [Apart, List.length_append, List.length_singleton, Feiq.offsetIp,
          Feiq.offsetMacaddr, Feiq.offsetUsername, Feiq.offsetHostname, Feiq.offsetData]
        omega
  · apply Feiq.string_of_read ifc.macaddr.nul
    · simp only [Feiq.offsetMacaddr, Feiq.sizeofMsg]
      omega
    · rw [Feiq.outgoing]
      simp only
      iterate 3 rw [Memory.read_write_of_apart]
      · apply Feiq.read_write_string
      all_goals
        simp only [Apart, List.length_append, List.length_singleton, Feiq.offsetMacaddr,
          Feiq.offsetUsername, Feiq.offsetHostname, Feiq.offsetData]
        omega
  · apply Feiq.string_of_read ifc.username.nul
    · simp only [Feiq.offsetUsername, Feiq.sizeofMsg]
      omega
    · rw [Feiq.outgoing]
      simp only
      iterate 2 rw [Memory.read_write_of_apart]
      · apply Feiq.read_write_string
      all_goals
        simp only [Apart, List.length_append, List.length_singleton, Feiq.offsetUsername,
          Feiq.offsetHostname, Feiq.offsetData]
        omega
  · apply Feiq.string_of_read ifc.hostname.nul
    · simp only [Feiq.offsetHostname, Feiq.sizeofMsg]
      omega
    · rw [Feiq.outgoing]
      simp only
      rw [Memory.read_write_of_apart]
      · apply Feiq.read_write_string
      · simp only [Apart, List.length_append, List.length_singleton, Feiq.offsetHostname,
          Feiq.offsetData]
        omega

/-- The fields of a private message. -/
def outgoingFields (ifc : Feiq.Sender) (unset : Feiq.Unset) (time : UInt32) (text : List UInt8) :
    Fields where
  version := Feiq.printedVersion (Feiq.toUnsigned 16 ifc.avatarId.toInt) (ascii "131")
    ifc.macaddr.text unset.msg.gpmsgSize
  packetId := numeral 10 time.toNat
  username := ifc.username.text
  hostname := ifc.hostname.text
  command := numeral 10 0x120
  data := text ++ [0]

theorem buildText_outgoing (hifc : SeparableSender ifc) (hlength : text.length < sizeofData) :
  Feiq.buildText (Feiq.outgoing ifc unset time ipaddr text)
    = (outgoingFields ifc unset time text).text
  := by
  obtain ⟨-, hmacaddr, husername, hhostname⟩ :=
    @outgoing_strings ifc unset time ipaddr text hifc
  rw [sizeofData] at hlength
  rw [Feiq.buildText_eq, Feiq.versionFields_eq, hmacaddr, husername, hhostname,
    Feiq.outgoing_data (by rw [Feiq.sizeofMsg]; omega)]
  rfl

theorem outgoingFields_split (hifc : SeparableSender ifc) :
  (outgoingFields ifc unset time text).Split
  where
  version := Feiq.printedVersion_split Feiq.model_isDigits hifc.macaddr
  version_isField := Feiq.printedVersion_isField Feiq.model_isDigits hifc.macaddr
  lbt4 := Feiq.isPrefixOf_append (Feiq.isPrefixOf_append (by decide))
  packetId := Peer.isField_numeral time.toNat
  username := ⟨hifc.username, ifc.username.nul⟩
  hostname := ⟨hifc.hostname, ifc.hostname.nul⟩
  command := Peer.isField_numeral 0x120

/-- The text of a private chat box, and the address the packet goes to. -/
theorem sendable_onPcahtSendCallback (hifc : SeparableSender ifc) {pkt : Feiq.Packet}
    (hnul : 0 ∉ text) (hutf8 : IsUtf8 text)
    (h : Feiq.onPcahtSendCallback Feiq.dataEnd ifc unset block time mtime ipaddr text
      = .ok (some pkt)) :
  Sendable pkt.data [text]
    ∧ pkt.ip = (Feiq.str2ip unset.numbers (some ipaddr.text)).toNat
  := by
  obtain ⟨hroom, hpkt⟩ := (Feiq.onPcahtSendCallback_eq_ok_iff (by decide)).mp h
  have hfits := (Feiq.room_dataEnd_iff ifc ipaddr text).mp hroom
  obtain ⟨hip, -⟩ := @outgoing_strings ifc unset time ipaddr text hifc
  have hheader := @Feiq.outgoing_header_le ifc unset time ipaddr text
  cases block with
  | none => cases hpkt
  | some beyond =>
    cases hpkt
    constructor
    · have hlength : (outgoingFields ifc unset time text).text.length < Peer.sizeofBuf := by
        rw [sizeofData] at hfits
        rw [← @buildText_outgoing ifc unset time ipaddr text hifc (by rw [sizeofData]; omega),
          Feiq.buildText_header, Feiq.outgoing_data (by rw [Feiq.sizeofMsg]; omega),
          List.length_append, List.length_append, List.length_singleton, Peer.sizeofBuf]
        omega
      simp only
      rw [buildText_outgoing hifc hfits]
      apply sendable_private (outgoingFields_split hifc) hlength (Or.inr rfl) hnul hutf8 hfits
    · simp only [hip]

end

/-- The broadcast of an entry. -/
theorem sendable_broadcast {a : Feiq.Announcement} (ha : a.Announceable) {block : Option UInt8}
    {mtime : Nat} {code : Int} {pkt : Feiq.Packet}
    (h : a.broadcast block mtime = .ok (code, some pkt)) (asked : List (List UInt8)) :
  Sendable pkt.data asked ∧ pkt.ip = 0xffffffff
  := by
  cases block with
  | none =>
    rw [Feiq.Announcement.broadcast, Feiq.feiqEntryBroadcastPkt] at h
    simp only at h
    split at h
    · cases h
    · split at h
      · cases h
      · cases h
  | some beyond =>
    obtain ⟨n, hbroadcast, -⟩ := Feiq.Announcement.broadcast_eq ha beyond mtime
    rw [hbroadcast] at h
    cases h
    refine ⟨?_, rfl⟩
    have hheader := (Feiq.Announcement.header_length ha).2
    have hnickname := ha.nickname.2
    have htake := List.length_take_le ((a.header ++ a.nickname).length + 1)
      (a.category ++ List.replicate n 0)
    have happend := @List.length_append _ a.header a.nickname
    apply sendable_other (Feiq.Announcement.fields_split ha _)
    · rw [Feiq.Announcement.fields_text, List.length_append, List.length_append, List.length_cons,
        Peer.sizeofBuf]
      omega
    · rw [Feiq.Announcement.fields, isPrivate_numeral (by decide)]
      decide

end Mixed

end IFreeChat
