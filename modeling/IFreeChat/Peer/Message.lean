import IFreeChat.Ifc.FeiqParse

/-!
# The messages of a peer

The texts the program prints its datagrams into, and `parseMessage`, which takes a datagram
apart.  A printed datagram is parsed into the fields it was printed from
(`parseMessage_header`).
-/

open Basis

namespace IFreeChat

open Feiq (colon sharp underscore)

namespace Peer

/-! ### Configuration -/

/-- The strings and numbers `read_cfg` puts into an `ifreechat_t`, with the group list. -/
structure Config where
  nickname : CArray 64
  username : CArray 64
  hostname : CArray 64
  category : CArray 64
  macaddr : CArray 20
  avatarId : Int32
  glist : List UInt32

/-- No string of the header has a colon. -/
structure Config.Separable (cfg : Config) : Prop where
  username : colon ∉ cfg.username.text
  hostname : colon ∉ cfg.hostname.text
  macaddr : colon ∉ cfg.macaddr.text

/-- A configuration with one name for everything. -/
def nameConfig (name : List UInt8) (hnul : 0 ∉ name) (hlength : name.length < 20) : Config where
  nickname := ⟨name, hnul, Nat.lt_trans hlength (by decide)⟩
  username := ⟨name, hnul, Nat.lt_trans hlength (by decide)⟩
  hostname := ⟨name, hnul, Nat.lt_trans hlength (by decide)⟩
  category := ⟨name, hnul, Nat.lt_trans hlength (by decide)⟩
  macaddr := ⟨name, hnul, hlength⟩
  avatarId := 1
  glist := []

/-- Two configurations. -/
def configA : Config := nameConfig (ascii "a") (by decide) (by decide)

/-- See `configA`. -/
def configB : Config := nameConfig (ascii "b") (by decide) (by decide)

/-! ### Printing -/

/-- `1_lbt4_%d#128#%s#0#0#%d`. -/
def printVersion (cfg : Config) (size : Nat) : List UInt8 :=
  ascii "1_lbt4_" ++ decimal cfg.avatarId.toInt ++ ascii "#128#" ++ cfg.macaddr.text
    ++ ascii "#0#0#" ++ numeral 10 size

/-- The version with `:%lu:%s:%s:%u:`. -/
def printHeader (cfg : Config) (size : Nat) (time : UInt64) (cmd : Nat) : List UInt8 :=
  printVersion cfg size ++ ascii ":" ++ numeral 10 time.toNat ++ ascii ":"
    ++ cfg.username.text ++ ascii ":" ++ cfg.hostname.text ++ ascii ":" ++ numeral 10 cmd
    ++ ascii ":"

/-! ### Messages -/

/-- `msg_t`: its strings, and the bytes of its block from `data` on.  The fields `gpid` and
`user` are `none` until they are set. -/
structure Msg where
  ip : List UInt8
  port : UInt16
  version : List UInt8
  packetNo : List UInt8
  username : List UInt8
  hostname : List UInt8
  cmd : List UInt8
  data : List UInt8
  gpid : Option UInt32
  user : Option Nat

/-- The size of the buffer `udp_listen_routine` receives into. -/
def sizeofBuf : Nat := 8192

/-- The zeroed buffer with a datagram received into it, up to the first zero after it. -/
def recvBuffer (datagram : List UInt8) : List UInt8 :=
  if datagram.length < sizeofBuf then datagram ++ [0] else datagram.take sizeofBuf

/-- The size `recvfrom` returns. -/
def recvSize (datagram : List UInt8) : Nat := min datagram.length sizeofBuf

/-- `parse_message`, on the bytes of memory from `data` on, with the address
`process_message` then stores. -/
def parseMessage (ip : List UInt8) (port : UInt16) (data : List UInt8) (size : Nat) :
    Except Fault Msg := do
  let (version, p) ← search colon data
  let (packetNo, p) ← search colon p
  let (username, p) ← search colon p
  let (hostname, p) ← search colon p
  let (cmd, p) ← search colon p
  let header := data.length - p.length
  if size < header then .error .sizeWraps
  else .ok {
    ip, port, version, packetNo, username, hostname, cmd
    data := p.take (size - header) ++ [0]
    gpid := none
    user := none }

/-- The bytes of the block from the version on, with those after the block. -/
def Msg.versionBlock (msg : Msg) (beyond : List UInt8) : List UInt8 :=
  msg.version ++ 0 :: (msg.packetNo ++ 0 :: (msg.username ++ 0 :: (msg.hostname ++ 0 ::
    (msg.cmd ++ 0 :: (msg.data ++ beyond)))))

/-- `(uint32_t)atoi(msg->cmd)`. -/
def Msg.command (msg : Msg) : Nat := Feiq.toUnsigned 32 (atoi msg.cmd)

/-! ### The fields of the version -/

/-- `get_avatar_id_from_version`, the same code in both programs. -/
def getAvatarIdFromVersion (version : List UInt8) : Except Fault Int :=
  Feiq.getAvatarIdFromVersion version

/-- `get_mac_from_version`, the same code in both programs. -/
def getMacFromVersion (version : List UInt8) : Except Fault (List UInt8) :=
  Feiq.getMacFromVersion version

/-- `get_gpmsg_size`, the same code in both programs. -/
def getGpmsgSize (version : List UInt8) : Except Fault Int :=
  Feiq.getGpmsgSizeFromVersion version

/-! ### Encodings -/

/-- The functions of GLib: whether a string is UTF-8, and the string its conversion from a
character set to UTF-8 gives. -/
structure Glib where
  utf8Validate : List UInt8 → Bool
  convert : (string cset : List UInt8) → Option (List UInt8)

/-- GLib on ASCII texts. -/
def asciiGlib : Glib := { utf8Validate := fun _ => true, convert := fun _ _ => none }

/-- A separator of a list of character sets. -/
def isSeparator (c : UInt8) : Bool := c ∈ ascii ",; \t"

/-- The character sets of a list, in order. -/
def charsets (codeset : List UInt8) : List (List UInt8) :=
  (codeset.splitOnP isSeparator).filter fun cset => !cset.isEmpty

/-- `string_validate`: the conversion from the first character set that has one, of a string
that is not UTF-8.  The `continue` of the loop goes to its condition, so that a set named
`utf-8` is tried like any other. -/
def stringValidate (glib : Glib) (string codeset : List UInt8) : Option (List UInt8) :=
  if glib.utf8Validate string then none
  else (charsets codeset).findSome? fun cset => glib.convert string cset

/-- The string that is shown for a received one: its conversion, or itself. -/
def shown (glib : Glib) (string : List UInt8) : List UInt8 :=
  (stringValidate glib string (ascii "gbk")).getD string

/-! ### Printed messages -/

theorem isField_numeral (n : Nat) :
  Feiq.IsField (numeral 10 n)
  := ⟨not_mem_numeral (by decide) (by decide) (by decide),
    not_mem_numeral (by decide) (by decide) (by decide)⟩

/-- A datagram of five fields and data, with anything after it in memory, is parsed into
them. -/
theorem parseMessage_fields {version packetNo username hostname cmd : List UInt8}
    (hversion : Feiq.IsField version) (hpacketNo : Feiq.IsField packetNo)
    (husername : Feiq.IsField username) (hhostname : Feiq.IsField hostname)
    (hcmd : Feiq.IsField cmd) (ip : List UInt8) (port : UInt16) {d data : List UInt8}
    (hd : d = version ++ colon :: (packetNo ++ colon :: (username ++ colon :: (hostname
      ++ colon :: (cmd ++ colon :: data))))) (tail : List UInt8) :
  parseMessage ip port (d ++ tail) d.length = .ok {
    ip, port, version, packetNo, username, hostname, cmd
    data := data ++ [0]
    gpid := none
    user := none }
  := by
  have htext : d ++ tail = version ++ colon :: (packetNo ++ colon :: (username ++ colon ::
      (hostname ++ colon :: (cmd ++ colon :: (data ++ tail))))) := by
    simp only [hd, List.append_assoc, List.cons_append]
  have hheader : (d ++ tail).length - (data ++ tail).length = d.length - data.length := by
    rw [List.length_append, List.length_append]
    omega
  have hlength : data.length ≤ d.length := by
    simp only [hd, List.length_append, List.length_cons]
    omega
  rw [parseMessage, htext]
  refine bind_eq_ok.mpr ⟨_, search_append hversion.1 hversion.2, ?_⟩
  refine bind_eq_ok.mpr ⟨_, search_append hpacketNo.1 hpacketNo.2, ?_⟩
  refine bind_eq_ok.mpr ⟨_, search_append husername.1 husername.2, ?_⟩
  refine bind_eq_ok.mpr ⟨_, search_append hhostname.1 hhostname.2, ?_⟩
  refine bind_eq_ok.mpr ⟨_, search_append hcmd.1 hcmd.2, ?_⟩
  simp only
  rw [← htext, hheader, if_neg (by omega), Nat.sub_sub_self hlength, List.take_left]

theorem not_mem_printVersion {cfg : Config} (size : Nat) {c : UInt8}
    (hversion : c ∉ ascii "1_lbt4_" ∧ c ∉ ascii "#128#" ∧ c ∉ ascii "#0#0#") (hminus : c ≠ 45)
    (hdigit : digitValue 10 c = none) (hmac : c ∉ cfg.macaddr.text) :
  c ∉ printVersion cfg size
  := by
  have hsize : c ∉ numeral 10 size := not_mem_numeral (by decide) (by decide) hdigit
  simp only [printVersion, List.mem_append, not_or]
  exact ⟨⟨⟨⟨⟨hversion.1, not_mem_decimal _ hminus hdigit⟩, hversion.2.1⟩, hmac⟩,
    hversion.2.2⟩, hsize⟩

theorem isField_printVersion {cfg : Config} (h : cfg.Separable) (size : Nat) :
  Feiq.IsField (printVersion cfg size)
  := by
  constructor
  · apply not_mem_printVersion size (by decide) (by decide) (by decide) h.macaddr
  · apply not_mem_printVersion size (by decide) (by decide) (by decide) cfg.macaddr.nul

/-- The message a printed datagram is parsed into. -/
def printedMsg (cfg : Config) (ip : List UInt8) (port : UInt16) (size : Nat) (time : UInt64)
    (cmd : Nat) (data : List UInt8) : Msg where
  ip := ip
  port := port
  version := printVersion cfg size
  packetNo := numeral 10 time.toNat
  username := cfg.username.text
  hostname := cfg.hostname.text
  cmd := numeral 10 cmd
  data := data ++ [0]
  gpid := none
  user := none

/-- A printed datagram is parsed into the fields it was printed from. -/
theorem parseMessage_header {cfg : Config} (h : cfg.Separable) (ip : List UInt8)
    (port : UInt16) (size : Nat) (time : UInt64) (cmd : Nat) (data : List UInt8)
    (hlength : (printHeader cfg size time cmd ++ data).length < sizeofBuf) :
  parseMessage ip port (recvBuffer (printHeader cfg size time cmd ++ data))
      (recvSize (printHeader cfg size time cmd ++ data))
    = .ok (printedMsg cfg ip port size time cmd data)
  := by
  have hcolon : ascii ":" = [colon] := rfl
  have htext : printHeader cfg size time cmd ++ data
      = printVersion cfg size ++ colon :: (numeral 10 time.toNat ++ colon ::
        (cfg.username.text ++ colon :: (cfg.hostname.text ++ colon ::
          (numeral 10 cmd ++ colon :: data)))) := by
    simp only [printHeader, hcolon, List.append_assoc, List.cons_append, List.nil_append]
  rw [recvBuffer, if_pos hlength, recvSize, Nat.min_eq_left (Nat.le_of_lt hlength)]
  apply parseMessage_fields (isField_printVersion h size) (isField_numeral time.toNat)
    ⟨h.username, cfg.username.nul⟩ ⟨h.hostname, cfg.hostname.nul⟩ (isField_numeral cmd) ip port
    htext

theorem printedMsg_command {cfg : Config} {ip : List UInt8} {port : UInt16} {size : Nat}
    {time : UInt64} {cmd : Nat} {data : List UInt8} (hcmd : cmd < 2 ^ 31) :
  (printedMsg cfg ip port size time cmd data).command = cmd
  := by
  have hatoi := atoi_numeral hcmd (by simp : ∀ c ∈ ([] : List UInt8).head?,
    digitValue 10 c = none)
  rw [List.append_nil] at hatoi
  rw [Msg.command, printedMsg, hatoi, Feiq.toUnsigned_of_lt (by omega)]

theorem printVersion_length_le (cfg : Config) {size : Nat} (h : size < 10 ^ 10) :
  (printVersion cfg size).length ≤ 57
  := by
  have havatar := cfg.avatarId.toInt_lt
  have havatar' := cfg.avatarId.le_toInt
  have hdecimal := decimal_length_le (by omega : cfg.avatarId.toInt.natAbs ≤ 2 ^ 31)
  have hmac := cfg.macaddr.fits
  have hsize := numeral_length_le (by decide) (by decide : 1 ≤ 10) h
  have htexts : (ascii "1_lbt4_").length = 7 ∧ (ascii "#128#").length = 5
      ∧ (ascii "#0#0#").length = 5 := by decide
  obtain ⟨h₁, h₂, h₃⟩ := htexts
  simp only [printVersion, List.length_append, h₁, h₂, h₃]
  omega

/-- A header has at most 218 bytes. -/
theorem printHeader_length_le (cfg : Config) {size cmd : Nat} (time : UInt64)
    (hsize : size < 10 ^ 10) (hcmd : cmd < 10 ^ 10) :
  (printHeader cfg size time cmd).length ≤ 218
  := by
  have hversion := printVersion_length_le cfg hsize
  have htime : (numeral 10 time.toNat).length ≤ 20 := by
    have := time.toNat_lt
    apply numeral_length_le (by decide) (by decide)
    omega
  have husername := cfg.username.fits
  have hhostname := cfg.hostname.fits
  have hcmd := numeral_length_le (by decide) (by decide : 1 ≤ 10) hcmd
  have hcolon : (ascii ":").length = 1 := rfl
  simp only [printHeader, List.length_append, hcolon]
  omega

end Peer

end IFreeChat
