import IFreeChat.Ifc.Address
import IFreeChat.Ifc.FeiqEntries

/-!
# Outgoing private messages

`onPcahtSendCallback` copies the strings of the user and the text into a message on the
stack, prints the message into a packet and puts the packet into the send queue.  A copy to
an offset may go up to `limit offset`, and the buffer of the packet has `sizeofBuf` bytes.
When the pool has no block, a null pointer is put into the queue.

A packet with the whole text is put into the queue exactly when the text fits `data` and the
pool has a block (`text_sent_iff`); that every string stays in its array needs names of at
most 31 bytes as well (`names_sent_iff`).
-/

open Basis

namespace IFreeChat

namespace Feiq

/-! ### The code -/

/-- The fields of `ifreechat_t` that are sent. -/
structure Sender where
  username : CArray 64
  hostname : CArray 64
  macaddr : CArray 20
  avatarId : Int32
  port : UInt16

/-- What the stack holds where the message and the numbers of `str2ip` are before they are
set. -/
structure Unset where
  msg : Msg
  gpmsgSize_lt : msg.gpmsgSize < 2 ^ 16
  numbers : Numbers

/-- The text `feiq_build_packet` prints before the data. -/
def buildHeader (msg : Msg) : List UInt8 :=
  versionText msg ++ ascii ":" ++ numeral 10 msg.packetId ++ ascii ":"
    ++ msg.string offsetUsername ++ ascii ":" ++ msg.string offsetHostname ++ ascii ":"
    ++ numeral 10 msg.command ++ ascii ":"

/-- `feiq_build_packet` with its buffer `buf`, where the data may be read up to
`limit offsetData`. -/
def feiqBuildPacketIn (limit : Nat → Nat) (block : Option UInt8) (mtime : Nat)
    (numbers : Numbers) (msg : Msg) : Except Fault (Int × Option Packet) :=
  let size := (buildHeader msg).length
  if sizeofBuf < size + 1 ∨ sizeofBuf < size + msg.dataSize then .error .writeOutside
  else if limit offsetData < offsetData + msg.dataSize then .error .readOutside
  else .ok (feiqBuildPacket block mtime (str2ip numbers (some (msg.string offsetIp))).toNat msg)

/-- `on_pcaht_send_callback` to the user with the address `ipaddr`, a copy of the `ip` of a
message: what is put into the send queue. -/
def onPcahtSendCallback (limit : Nat → Nat) (ifc : Sender) (unset : Unset)
    (block : Option UInt8) (time mtime : UInt32) (ipaddr : CArray 32) (str : List UInt8) :
    Except Fault (Option Packet) := do
  let msg ← unset.msg.strcpyIn limit offsetIp ipaddr.text
  let msg := { msg with port := ifc.port.toNat }
  let msg ← msg.strcpyIn limit offsetMacaddr ifc.macaddr.text
  let msg ← msg.strcpyIn limit offsetUsername ifc.username.text
  let msg ← msg.strcpyIn limit offsetHostname ifc.hostname.text
  let msg ← msg.strcpyIn limit offsetData str
  let msg := { msg with
    avatarId := toUnsigned 16 ifc.avatarId.toInt
    command := 0x120
    packetId := time.toNat
    dataSize := toUnsigned 32 ((str.length : Int) + 1) }
  let (_, pkt) ← feiqBuildPacketIn limit block mtime.toNat unset.numbers msg
  .ok pkt

/-! ### The header -/

theorem buildText_header (msg : Msg) :
  buildText msg = buildHeader msg ++ msg.data
  := rfl

theorem string_length_le (msg : Msg) (offset : Nat) :
  (msg.string offset).length ≤ sizeofMsg
  := by
  have hle := (List.takeWhile_sublist (l := msg.bytes.read offset (sizeofMsg - offset))
    fun c => decide (c ≠ 0)).length_le
  rw [Memory.read_length] at hle
  rw [Msg.string]
  omega

/-- The header of any message is small beside the buffer. -/
theorem buildHeader_length_le {msg : Msg} (havatarId : msg.avatarId < 2 ^ 16)
    (hgpmsgSize : msg.gpmsgSize < 2 ^ 16) (hpacketId : msg.packetId < 2 ^ 32)
    (hcommand : msg.command < 2 ^ 32) :
  (buildHeader msg).length ≤ 5000
  := by
  have h₁ : (numeral 10 msg.avatarId).length ≤ 5 := by
    apply numeral_length_le (by decide) (by decide)
    omega
  have h₂ : (numeral 10 msg.gpmsgSize).length ≤ 5 := by
    apply numeral_length_le (by decide) (by decide)
    omega
  have h₃ : (numeral 10 msg.packetId).length ≤ 10 := by
    apply numeral_length_le (by decide) (by decide)
    omega
  have h₄ : (numeral 10 msg.command).length ≤ 10 := by
    apply numeral_length_le (by decide) (by decide)
    omega
  have hmacaddr := string_length_le msg offsetMacaddr
  have husername := string_length_le msg offsetUsername
  have hhostname := string_length_le msg offsetHostname
  have htexts : (ascii "1_lbt4_").length = 7 ∧ (ascii "#131#").length = 5
      ∧ (ascii "#0#0#").length = 5 ∧ (ascii ":").length = 1 := by decide +kernel
  obtain ⟨h₅, h₆, h₇, h₈⟩ := htexts
  rw [sizeofMsg] at hmacaddr husername hhostname
  simp only [buildHeader, versionText, List.length_append, h₅, h₆, h₇, h₈]
  omega

/-! ### The run -/

section

variable {limit : Nat → Nat} {ifc : Sender} {unset : Unset} {block : Option UInt8}
  {time mtime : UInt32} {ipaddr : CArray 32} {str : List UInt8}

/-- Every copy stays below its limit. -/
structure Room (limit : Nat → Nat) (ifc : Sender) (ipaddr : CArray 32) (str : List UInt8) :
    Prop where
  ip : offsetIp + ipaddr.text.length < limit offsetIp
  macaddr : offsetMacaddr + ifc.macaddr.text.length < limit offsetMacaddr
  username : offsetUsername + ifc.username.text.length < limit offsetUsername
  hostname : offsetHostname + ifc.hostname.text.length < limit offsetHostname
  data : offsetData + str.length < limit offsetData

/-- The message that is printed. -/
def outgoing (ifc : Sender) (unset : Unset) (time : UInt32) (ipaddr : CArray 32)
    (str : List UInt8) : Msg where
  dataSize := toUnsigned 32 ((str.length : Int) + 1)
  mtime := unset.msg.mtime
  command := 0x120
  packetId := time.toNat
  port := ifc.port.toNat
  avatarId := toUnsigned 16 ifc.avatarId.toInt
  gpmsgSize := unset.msg.gpmsgSize
  gpid := unset.msg.gpid
  bytes := ((((unset.msg.bytes.write offsetIp (ipaddr.text ++ [0])).write
    offsetMacaddr (ifc.macaddr.text ++ [0])).write
    offsetUsername (ifc.username.text ++ [0])).write
    offsetHostname (ifc.hostname.text ++ [0])).write
    offsetData (str ++ [0])

theorem outgoing_header_le :
  (buildHeader (outgoing ifc unset time ipaddr str)).length ≤ 5000
  := buildHeader_length_le (toUnsigned_lt 16 _) unset.gpmsgSize_lt time.toNat_lt
    (by decide : 0x120 < 2 ^ 32)

theorem outgoing_dataSize (hlength : str.length < sizeofMsg) :
  (outgoing ifc unset time ipaddr str).dataSize = str.length + 1
  := by
  rw [sizeofMsg] at hlength
  have h := @toUnsigned_of_lt 32 (str.length + 1) (by omega)
  rw [Nat.cast_add, Nat.cast_one] at h
  apply h

/-- The text is all of the data. -/
theorem outgoing_data (hlength : str.length < sizeofMsg) :
  (outgoing ifc unset time ipaddr str).data = str ++ [0]
  := by
  rw [Msg.data, outgoing_dataSize hlength]
  apply read_write_string

/-- A message that is printed after copies that stay below their limits. -/
theorem feiqBuildPacketIn_outgoing (hlimit : limit offsetData ≤ sizeofMsg)
    (hroom : offsetData + str.length < limit offsetData) :
  feiqBuildPacketIn limit block mtime.toNat unset.numbers (outgoing ifc unset time ipaddr str)
    = .ok (feiqBuildPacket block mtime.toNat (str2ip unset.numbers
      (some ((outgoing ifc unset time ipaddr str).string offsetIp))).toNat
      (outgoing ifc unset time ipaddr str))
  := by
  have hheader := @outgoing_header_le ifc unset time ipaddr str
  have hsize := @outgoing_dataSize ifc unset time ipaddr str (by omega)
  rw [sizeofMsg] at hlimit
  rw [feiqBuildPacketIn, hsize, if_neg (by rw [sizeofBuf]; omega), if_neg (by omega)]

/-- What is put into the send queue: the packet of the message, when every copy stays below
its limit, and else nothing. -/
theorem onPcahtSendCallback_eq_ok_iff (hlimit : limit offsetData ≤ sizeofMsg)
    {pkt : Option Packet} :
  onPcahtSendCallback limit ifc unset block time mtime ipaddr str = .ok pkt
    ↔ Room limit ifc ipaddr str
      ∧ pkt = (feiqBuildPacket block mtime.toNat (str2ip unset.numbers
        (some ((outgoing ifc unset time ipaddr str).string offsetIp))).toNat
        (outgoing ifc unset time ipaddr str)).2
  := by
  constructor
  · intro h
    rw [onPcahtSendCallback] at h
    obtain ⟨msg, hcopy, h⟩ := bind_eq_ok.mp h
    obtain ⟨hip, rfl⟩ := strcpyIn_eq_ok_iff.mp hcopy
    obtain ⟨msg, hcopy, h⟩ := bind_eq_ok.mp h
    obtain ⟨hmacaddr, rfl⟩ := strcpyIn_eq_ok_iff.mp hcopy
    obtain ⟨msg, hcopy, h⟩ := bind_eq_ok.mp h
    obtain ⟨husername, rfl⟩ := strcpyIn_eq_ok_iff.mp hcopy
    obtain ⟨msg, hcopy, h⟩ := bind_eq_ok.mp h
    obtain ⟨hhostname, rfl⟩ := strcpyIn_eq_ok_iff.mp hcopy
    obtain ⟨msg, hcopy, h⟩ := bind_eq_ok.mp h
    obtain ⟨hdata, rfl⟩ := strcpyIn_eq_ok_iff.mp hcopy
    obtain ⟨⟨code, pkt'⟩, hbuild, h⟩ := bind_eq_ok.mp h
    have hrun := @feiqBuildPacketIn_outgoing limit ifc unset block time mtime ipaddr str hlimit
      hdata
    rw [outgoing] at hrun
    rw [hrun] at hbuild
    cases hbuild
    cases h
    exact ⟨⟨hip, hmacaddr, husername, hhostname, hdata⟩, rfl⟩
  · rintro ⟨⟨hip, hmacaddr, husername, hhostname, hdata⟩, rfl⟩
    refine bind_eq_ok.mpr ⟨_, strcpyIn_eq_ok_iff.mpr ⟨hip, rfl⟩, ?_⟩
    refine bind_eq_ok.mpr ⟨_, strcpyIn_eq_ok_iff.mpr ⟨hmacaddr, rfl⟩, ?_⟩
    refine bind_eq_ok.mpr ⟨_, strcpyIn_eq_ok_iff.mpr ⟨husername, rfl⟩, ?_⟩
    refine bind_eq_ok.mpr ⟨_, strcpyIn_eq_ok_iff.mpr ⟨hhostname, rfl⟩, ?_⟩
    refine bind_eq_ok.mpr ⟨_, strcpyIn_eq_ok_iff.mpr ⟨hdata, rfl⟩, ?_⟩
    refine bind_eq_ok.mpr ⟨_, feiqBuildPacketIn_outgoing hlimit hdata, rfl⟩

end

/-! ### Texts that are sent -/

/-- The end of `data` for a copy to it, and the end of the message for any other copy. -/
def dataEnd (offset : Nat) : Nat :=
  if offset = offsetData then offsetData + sizeofData else sizeofMsg

theorem arrays_data :
  arrays offsetData = offsetData + sizeofData
  := rfl

/-- A packet whose datagram ends with the whole text and its terminator is put into the send
queue. -/
def SendsText (limit : Nat → Nat) (ifc : Sender) (unset : Unset) (block : Option UInt8)
    (time mtime : UInt32) (ipaddr : CArray 32) (str : List UInt8) : Prop :=
  ∃ pkt, onPcahtSendCallback limit ifc unset block time mtime ipaddr str = .ok (some pkt)
    ∧ (str ++ [0]) <:+ pkt.data

section

variable {limit : Nat → Nat} (ifc : Sender) (unset : Unset) (block : Option UInt8)
  (time mtime : UInt32) (ipaddr : CArray 32) (str : List UInt8)

/-- The text is sent when there is room for every copy and the pool has a block. -/
theorem sendsText_iff (hlimit : limit offsetData ≤ sizeofMsg) :
  SendsText limit ifc unset block time mtime ipaddr str
    ↔ Room limit ifc ipaddr str ∧ block.isSome
  := by
  constructor
  · rintro ⟨pkt, hsend, -⟩
    obtain ⟨hroom, hpkt⟩ := (onPcahtSendCallback_eq_ok_iff hlimit).mp hsend
    use hroom
    cases block with
    | none => cases hpkt
    | some beyond => rfl
  · rintro ⟨hroom, hblock⟩
    obtain ⟨beyond, rfl⟩ := Option.isSome_iff_exists.mp hblock
    have hdata := hroom.data
    refine ⟨_, (onPcahtSendCallback_eq_ok_iff hlimit).mpr ⟨hroom, rfl⟩, ?_⟩
    rw [buildText_header, outgoing_data (by omega)]
    apply List.suffix_append

/-- With every string of the user in the message, the text decides. -/
theorem room_dataEnd_iff :
  Room dataEnd ifc ipaddr str ↔ str.length < sizeofData
  := by
  have hip := ipaddr.fits
  have hmacaddr := ifc.macaddr.fits
  have husername := ifc.username.fits
  have hhostname := ifc.hostname.fits
  constructor
  · intro h
    have hdata := h.data
    rw [dataEnd, if_pos rfl] at hdata
    omega
  · intro h
    constructor
    · rw [dataEnd, if_neg (by decide), offsetIp, sizeofMsg]
      omega
    · rw [dataEnd, if_neg (by decide), offsetMacaddr, sizeofMsg]
      omega
    · rw [dataEnd, if_neg (by decide), offsetUsername, sizeofMsg]
      omega
    · rw [dataEnd, if_neg (by decide), offsetHostname, sizeofMsg]
      omega
    · rw [dataEnd, if_pos rfl]
      omega

/-- A text that does not fit is copied over the end of `data`. -/
theorem onPcahtSendCallback_overrun (hlength : sizeofData ≤ str.length) :
  onPcahtSendCallback dataEnd ifc unset block time mtime ipaddr str = .error .writeOutside
  := by
  obtain ⟨hip, hmacaddr, husername, hhostname, -⟩ := (room_dataEnd_iff ifc ipaddr []).mpr
    (by decide)
  have hdata (msg : Msg) : msg.strcpyIn dataEnd offsetData str = .error .writeOutside := by
    rw [Msg.strcpyIn, Msg.storeIn, dataEnd, if_pos rfl, List.length_append, List.length_singleton,
      if_neg (by omega)]
  refine bind_eq_error.mpr (.inr ⟨_, strcpyIn_eq_ok_iff.mpr ⟨hip, rfl⟩, ?_⟩)
  refine bind_eq_error.mpr (.inr ⟨_, strcpyIn_eq_ok_iff.mpr ⟨hmacaddr, rfl⟩, ?_⟩)
  refine bind_eq_error.mpr (.inr ⟨_, strcpyIn_eq_ok_iff.mpr ⟨husername, rfl⟩, ?_⟩)
  refine bind_eq_error.mpr (.inr ⟨_, strcpyIn_eq_ok_iff.mpr ⟨hhostname, rfl⟩, ?_⟩)
  exact bind_eq_error.mpr (.inl (hdata _))

/-- In their own arrays the names of the user have less room than in `ifreechat_t`. -/
theorem room_arrays_iff :
  Room arrays ifc ipaddr str
    ↔ ifc.username.text.length < 32 ∧ ifc.hostname.text.length < 32 ∧ str.length < sizeofData
  := by
  have hip := ipaddr.fits
  have hmacaddr := ifc.macaddr.fits
  have hips : arrays offsetIp = offsetIp + 32 := rfl
  have hmacaddrs : arrays offsetMacaddr = offsetMacaddr + 32 := rfl
  have husernames : arrays offsetUsername = offsetUsername + 32 := rfl
  have hhostnames : arrays offsetHostname = offsetHostname + 32 := rfl
  constructor
  · rintro ⟨-, -, husername, hhostname, hdata⟩
    rw [husernames] at husername
    rw [hhostnames] at hhostname
    rw [arrays_data] at hdata
    omega
  · rintro ⟨husername, hhostname, hdata⟩
    constructor
    · omega
    · omega
    · omega
    · omega
    · rw [arrays_data]
      omega

/-- A private text is sent exactly when it fits `data` and the pool has a block. -/
theorem text_sent_iff :
  SendsText dataEnd ifc unset block time mtime ipaddr str
    ↔ str.length < sizeofData ∧ block.isSome
  := by
  rw [sendsText_iff _ _ _ _ _ _ _ (by decide), room_dataEnd_iff]

/-- A private text is sent with every string in its array exactly when the names fit theirs
as well. -/
theorem names_sent_iff :
  SendsText arrays ifc unset block time mtime ipaddr str
    ↔ (ifc.username.text.length < 32 ∧ ifc.hostname.text.length < 32
      ∧ str.length < sizeofData) ∧ block.isSome
  := by
  rw [sendsText_iff _ _ _ _ _ _ _ (by decide), room_arrays_iff]

end

end Feiq

end IFreeChat
