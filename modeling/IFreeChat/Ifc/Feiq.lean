import IFreeChat.Basis.Block
import IFreeChat.Basis.Memory

/-!
# FeiQ packets

`feiqBuildPacket` prints a message into a packet and `feiqParsePacket` takes a packet apart
again.  A packet carries the bytes of its datagram and the one byte its block has after
them.  The arrays of a message lie at their offsets in the `msg_t` of a 64-bit machine, so
that a string too long for its array runs over the arrays after it.

The parser stops with a `Fault` where the code follows a pointer a search did not give,
reads or writes outside a block, or lets the size that remains wrap.
-/

open Basis

namespace IFreeChat

namespace Feiq

/-! ### Packets and messages -/

/-- `packet_t`, with the byte after its data. -/
structure Packet where
  mtime : Nat
  ip : Nat
  port : Nat
  data : List UInt8
  beyond : UInt8

/-- `new_packet`, on the answer of the pool: `NULL`, or a block with some byte after the
data. -/
def newPacket (block : Option UInt8) (mtime ip port : Nat) (data : List UInt8) :
    Option Packet :=
  block.map fun beyond => { mtime, ip, port, data, beyond }

/-- `msg_t`: its integers, and the bytes from `ip` on at their offsets. -/
structure Msg where
  dataSize : Nat
  mtime : Nat
  command : Nat
  packetId : Nat
  port : Nat
  avatarId : Nat
  gpmsgSize : Nat
  gpid : Nat
  bytes : Memory

/-- `offsetof(msg_t, ip)`. -/
def offsetIp : Nat := 28

/-- `offsetof(msg_t, macaddr)`. -/
def offsetMacaddr : Nat := 60

/-- `offsetof(msg_t, version)`. -/
def offsetVersion : Nat := 92

/-- `offsetof(msg_t, username)`. -/
def offsetUsername : Nat := 108

/-- `offsetof(msg_t, hostname)`. -/
def offsetHostname : Nat := 140

/-- `offsetof(msg_t, data)`. -/
def offsetData : Nat := 300

/-- `sizeof(msg->data)`. -/
def sizeofData : Nat := 1024

/-- `sizeof(msg_t)`. -/
def sizeofMsg : Nat := 1352

/-- `':'`. -/
def colon : UInt8 := 58

/-- `'#'`. -/
def sharp : UInt8 := 35

/-- `'_'`. -/
def underscore : UInt8 := 95

/-- The string that starts at an offset of a message. -/
def Msg.string (msg : Msg) (offset : Nat) : List UInt8 :=
  (msg.bytes.read offset (sizeofMsg - offset)).takeWhile fun c => c ≠ 0

/-- The first `data_size` bytes of `data`. -/
def Msg.data (msg : Msg) : List UInt8 := msg.bytes.read offsetData msg.dataSize

/-! ### Building -/

/-- The version text of a message. -/
def versionText (msg : Msg) : List UInt8 :=
  ascii "1_lbt4_" ++ numeral 10 msg.avatarId ++ ascii "#131#" ++ msg.string offsetMacaddr
    ++ ascii "#0#0#" ++ numeral 10 msg.gpmsgSize

/-- The datagram `feiq_build_packet` prints a message into. -/
def buildText (msg : Msg) : List UInt8 :=
  versionText msg ++ ascii ":" ++ numeral 10 msg.packetId ++ ascii ":"
    ++ msg.string offsetUsername ++ ascii ":" ++ msg.string offsetHostname ++ ascii ":"
    ++ numeral 10 msg.command ++ ascii ":" ++ msg.data

/-- `feiq_build_packet`, where `str2ip(msg->ip)` is `ip` and `time(NULL)` is `mtime`: the
return code and the packet. -/
def feiqBuildPacket (block : Option UInt8) (mtime ip : Nat) (msg : Msg) :
    Int × Option Packet :=
  let pkt := newPacket block mtime ip msg.port (buildText msg)
  (if pkt.isNone then -1 else 0, pkt)

/-! ### Parsing -/

/-- The string up to the next colon, what follows, and the size that then remains. -/
def nextField (p : List UInt8) (size : Nat) :
    Except Fault (List UInt8 × List UInt8 × Nat) := do
  let (field, q) ← search colon p
  if size < field.length + 1 then .error .sizeWraps
  else .ok (field, q, size - (field.length + 1))

/-- A message with bytes stored at an offset. -/
def Msg.store (msg : Msg) (offset : Nat) (bytes : List UInt8) : Except Fault Msg :=
  if offset + bytes.length ≤ sizeofMsg then
    .ok { msg with bytes := msg.bytes.write offset bytes }
  else .error .writeOutside

/-- `strcpy` to an offset of a message. -/
def Msg.strcpy (msg : Msg) (offset : Nat) (s : List UInt8) : Except Fault Msg :=
  msg.store offset (s ++ [0])

/-- An `int` as an unsigned integer of `w` bits. -/
def toUnsigned (w : Nat) (n : Int) : Nat := (n % 2 ^ w).toNat

/-- `get_avatar_id_from_version`. -/
def getAvatarIdFromVersion (version : List UInt8) : Except Fault Int :=
  if !(ascii "1_lbt").isPrefixOf version then .ok 0
  else
    match strrchr underscore version with
    | none => .error .nullPointer
    | some p => .ok (atoi p)

/-- `get_mac_from_version`, on the bytes of the block from the version on. -/
def getMacFromVersion (version : List UInt8) : Except Fault (List UInt8) :=
  if !(ascii "1_lbt").isPrefixOf version then .ok (ascii "000000000000")
  else do
    let (_, p) ← search sharp version
    let (_, q) ← search sharp p
    copyUpTo sharp q

/-- `get_gpmsg_size_from_version`, on the bytes of the block from the version on. -/
def getGpmsgSizeFromVersion (version : List UInt8) : Except Fault Int := do
  let (_, p) ← search sharp version
  let (_, p) ← search sharp p
  let (_, p) ← search sharp p
  let (_, p) ← search sharp p
  let (_, p) ← search sharp p
  .ok (atoi p)

/-- `ip2str`. -/
def ip2str (ip : Nat) : List UInt8 :=
  numeral 10 (ip / 2 ^ 24 % 256) ++ ascii "." ++ numeral 10 (ip / 2 ^ 16 % 256) ++ ascii "."
    ++ numeral 10 (ip / 2 ^ 8 % 256) ++ ascii "." ++ numeral 10 (ip % 256)

/-- `feiq_parse_packet`: the return code and the message.  A string cut off at a colon is
followed by the terminator that replaces the colon. -/
def feiqParsePacket (pkt : Packet) (msg : Msg) : Except Fault (Int × Msg) := do
  let (version, q, size) ← nextField (pkt.data ++ [pkt.beyond]) pkt.data.length
  let msg ← { msg with mtime := pkt.mtime }.strcpy offsetVersion version
  if !(ascii "1_lbt4").isPrefixOf version then .ok (-1, msg)
  else do
    let avatarId ← getAvatarIdFromVersion version
    let macaddr ← getMacFromVersion (version ++ 0 :: q)
    let msg ← msg.strcpy offsetMacaddr macaddr
    let gpmsgSize ← getGpmsgSizeFromVersion (version ++ 0 :: q)
    let msg ← msg.strcpy offsetIp (ip2str pkt.ip)
    let (packetId, q, size) ← nextField q size
    let (username, q, size) ← nextField q size
    let msg ← msg.strcpy offsetUsername username
    let (hostname, q, size) ← nextField q size
    let msg ← msg.strcpy offsetHostname hostname
    let (command, q, size) ← nextField q size
    let msg ← msg.store offsetData (List.replicate sizeofData 0)
    let msg ← msg.store offsetData (q.take size)
    .ok (0, { msg with
      avatarId := toUnsigned 16 avatarId
      gpmsgSize := toUnsigned 16 gpmsgSize
      port := pkt.port
      packetId := toUnsigned 32 (atoi packetId)
      command := toUnsigned 32 (atoi command)
      dataSize := size
      gpid := 0 })

/-! ### Room -/

/-- The end of a message, up to which `feiqParsePacket` lets a copy to any offset go. -/
def block (_offset : Nat) : Nat := sizeofMsg

/-- The end of the array an offset lies in: `ip`, `macaddr`, `version`, `username`,
`hostname`, `nickname`, `avatar`, `category` or `data`. -/
def arrays (offset : Nat) : Nat :=
  ([60, 92, 108, 140, 172, 204, 268, 300, 1324].find? fun e => offset < e).getD 0

/-- A message with bytes stored from an offset up to `limit offset` at most. -/
def Msg.storeIn (limit : Nat → Nat) (msg : Msg) (offset : Nat) (bytes : List UInt8) :
    Except Fault Msg :=
  if offset + bytes.length ≤ limit offset then
    .ok { msg with bytes := msg.bytes.write offset bytes }
  else .error .writeOutside

/-- `strcpy` to an offset, with its terminator up to `limit offset` at most. -/
def Msg.strcpyIn (limit : Nat → Nat) (msg : Msg) (offset : Nat) (s : List UInt8) :
    Except Fault Msg :=
  msg.storeIn limit offset (s ++ [0])

/-- `feiq_parse_packet`, where the copies to an offset may go up to `limit offset`. -/
def feiqParsePacketIn (limit : Nat → Nat) (pkt : Packet) (msg : Msg) :
    Except Fault (Int × Msg) := do
  let (version, q, size) ← nextField (pkt.data ++ [pkt.beyond]) pkt.data.length
  let msg ← { msg with mtime := pkt.mtime }.strcpyIn limit offsetVersion version
  if !(ascii "1_lbt4").isPrefixOf version then .ok (-1, msg)
  else do
    let avatarId ← getAvatarIdFromVersion version
    let macaddr ← getMacFromVersion (version ++ 0 :: q)
    let msg ← msg.strcpyIn limit offsetMacaddr macaddr
    let gpmsgSize ← getGpmsgSizeFromVersion (version ++ 0 :: q)
    let msg ← msg.strcpyIn limit offsetIp (ip2str pkt.ip)
    let (packetId, q, size) ← nextField q size
    let (username, q, size) ← nextField q size
    let msg ← msg.strcpyIn limit offsetUsername username
    let (hostname, q, size) ← nextField q size
    let msg ← msg.strcpyIn limit offsetHostname hostname
    let (command, q, size) ← nextField q size
    let msg ← msg.storeIn limit offsetData (List.replicate sizeofData 0)
    let msg ← msg.storeIn limit offsetData (q.take size)
    .ok (0, { msg with
      avatarId := toUnsigned 16 avatarId
      gpmsgSize := toUnsigned 16 gpmsgSize
      port := pkt.port
      packetId := toUnsigned 32 (atoi packetId)
      command := toUnsigned 32 (atoi command)
      dataSize := size
      gpid := 0 })

theorem feiqParsePacketIn_block :
  feiqParsePacketIn block = feiqParsePacket
  := rfl

end Feiq

end IFreeChat
