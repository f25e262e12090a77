import IFreeChat.Ifc.FeiqParse
import Mathlib.Data.List.TakeWhile

/-!
# The FeiQ round trip

A message whose strings fit their arrays, without colons in the names and with an address
of hexadecimal digits, is printed into a packet that is parsed into a message with the same
avatar, address, sizes, number, names, command and data (`parse_build`).
-/

open Basis

namespace IFreeChat

namespace Feiq

/-! ### Reading a message -/

/-- A stored string is the string at its offset. -/
theorem string_of_read {msg : Msg} {offset : Nat} {s : List UInt8} (hnul : 0 ∉ s)
    (hle : offset + s.length < sizeofMsg)
    (hread : msg.bytes.read offset (s.length + 1) = s ++ [0]) :
  msg.string offset = s
  := by
  have hlength : sizeofMsg - offset = s.length + 1 + (sizeofMsg - offset - (s.length + 1)) := by
    omega
  rw [Msg.string, hlength, Memory.read_append, hread]
  have hall : ∀ c ∈ s, decide (c ≠ 0) = true := by
    rintro c hc
    rw [decide_eq_true_eq]
    rintro rfl
    apply hnul hc
  rw [List.append_assoc, List.takeWhile_append_of_pos hall, List.singleton_append,
    List.takeWhile_cons_of_neg (by simp), List.append_nil]

theorem not_mem_string (msg : Msg) (offset : Nat) :
  0 ∉ msg.string offset
  := by
  intro h
  have := List.mem_takeWhile_imp h
  simp at this

/-! ### Printed versions -/

/-- The fields of a version `1_lbt4_%d#%s#%s#0#0#%d`. -/
def printedVersion (avatarId : Nat) (model mac : List UInt8) (gpmsgSize : Nat) :
    VersionFields where
  head := ascii "1_lbt4_" ++ numeral 10 avatarId
  model := model
  mac := mac
  third := ascii "0"
  fourth := ascii "0"
  gpmsgSize := numeral 10 gpmsgSize

theorem not_mem_numeral_ten {c : UInt8} (n : Nat) (hc : digitValue 10 c = none) :
  c ∉ numeral 10 n
  := not_mem_numeral (by decide) (by decide) hc

section

variable {avatarId gpmsgSize : Nat} {model mac : List UInt8}
  (hmodel : ∀ c ∈ model, (digitValue 10 c).isSome) (hmac : ∀ c ∈ mac, (digitValue 16 c).isSome)

/-- A byte that is no digit is not in a text of digits. -/
theorem not_mem_digits {b : Nat} {s : List UInt8} (h : ∀ c ∈ s, (digitValue b c).isSome)
    {c : UInt8} (hc : digitValue b c = none) :
  c ∉ s
  := by
  intro hmem
  have := h c hmem
  rw [hc] at this
  cases this

theorem zero_isDigit :
  ∀ c ∈ ascii "0", (digitValue 10 c).isSome
  := by
  decide +kernel

include hmodel hmac

theorem printedVersion_split :
  (printedVersion avatarId model mac gpmsgSize).Split
  := by
  have hhead : sharp ∉ ascii "1_lbt4_" := by decide
  have hzero : sharp ∉ ascii "0" := by decide
  constructor
  · rw [printedVersion, List.mem_append, not_or]
    use hhead
    apply not_mem_numeral_ten _ (by decide)
  · apply not_mem_digits hmodel (by decide)
  · apply not_mem_digits hmac (by decide)
  · apply hzero
  · apply hzero

theorem printedVersion_isField :
  IsField (printedVersion avatarId model mac gpmsgSize).text
  := by
  have hmem : ∀ c, digitValue 16 c = none → digitValue 10 c = none → c ≠ sharp →
      c ∉ ascii "1_lbt4_" → c ∉ (printedVersion avatarId model mac gpmsgSize).text := by
    intro c hhex hdec hsharp hhead
    have hzero := not_mem_digits zero_isDigit hdec
    simp only [VersionFields.text, printedVersion, List.mem_append, List.mem_cons, not_or]
    exact ⟨⟨hhead, not_mem_numeral_ten _ hdec⟩, hsharp, not_mem_digits hmodel hdec, hsharp,
      not_mem_digits hmac hhex, hsharp, hzero, hsharp, hzero, hsharp, not_mem_numeral_ten _ hdec⟩
  constructor
  · apply hmem <;> decide
  · apply hmem <;> decide

/-- The avatar is the number after the last underscore of the version. -/
theorem getAvatarId_printedVersion (havatar : avatarId < 2 ^ 16) :
  getAvatarIdFromVersion (printedVersion avatarId model mac gpmsgSize).text = .ok avatarId
  := by
  have hsplit : (printedVersion avatarId model mac gpmsgSize).text = ascii "1_lbt4"
      ++ underscore :: (numeral 10 avatarId ++ sharp :: (model ++ sharp :: (mac ++ sharp ::
        (ascii "0" ++ sharp :: (ascii "0" ++ sharp :: numeral 10 gpmsgSize))))) := by
    have hhead : ascii "1_lbt4_" = ascii "1_lbt4" ++ [underscore] := rfl
    simp only [VersionFields.text, printedVersion, hhead, List.append_assoc, List.cons_append,
      List.nil_append]
  have hzero : underscore ∉ ascii "0" := by decide
  have hlast : underscore ∉ numeral 10 avatarId ++ sharp :: (model ++ sharp :: (mac ++ sharp ::
      (ascii "0" ++ sharp :: (ascii "0" ++ sharp :: numeral 10 gpmsgSize)))) := by
    simp only [List.mem_append, List.mem_cons, not_or]
    exact ⟨not_mem_numeral_ten _ (by decide), by decide, not_mem_digits hmodel (by decide),
      by decide, not_mem_digits hmac (by decide), by decide, hzero, by decide, hzero, by decide,
      not_mem_numeral_ten _ (by decide)⟩
  have hstart :
      (ascii "1_lbt").isPrefixOf (printedVersion avatarId model mac gpmsgSize).text = true := by
    rw [hsplit]
    apply isPrefixOf_append
    decide
  rw [getAvatarIdFromVersion, hstart, hsplit, strrchr_append hlast]
  change Except.ok (atoi _) = _
  rw [atoi_numeral (by omega)]
  intro c hc
  cases hc
  decide

end

/-! ### The packet of a message -/

/-- What the packet needs of a message. -/
structure Printable (msg : Msg) : Prop where
  avatarId_lt : msg.avatarId < 2 ^ 16
  gpmsgSize_lt : msg.gpmsgSize < 2 ^ 16
  packetId_lt : msg.packetId < 2 ^ 31
  command_lt : msg.command < 2 ^ 31
  macaddr_length : (msg.string offsetMacaddr).length ≤ 31
  macaddr_hex : ∀ c ∈ msg.string offsetMacaddr, (digitValue 16 c).isSome
  username_length : (msg.string offsetUsername).length ≤ 31
  username_colon : colon ∉ msg.string offsetUsername
  hostname_length : (msg.string offsetHostname).length ≤ 31
  hostname_colon : colon ∉ msg.string offsetHostname
  dataSize_le : msg.dataSize ≤ sizeofData

instance (msg : Msg) : Decidable (Printable msg) :=
  have : Decidable (∀ c ∈ msg.string offsetMacaddr, (digitValue 16 c).isSome) :=
    List.decidableBAll _ _
  decidable_of_iff
    ((msg.avatarId < 2 ^ 16 ∧ msg.gpmsgSize < 2 ^ 16 ∧ msg.packetId < 2 ^ 31
      ∧ msg.command < 2 ^ 31)
      ∧ ((msg.string offsetMacaddr).length ≤ 31
        ∧ ∀ c ∈ msg.string offsetMacaddr, (digitValue 16 c).isSome)
      ∧ ((msg.string offsetUsername).length ≤ 31 ∧ colon ∉ msg.string offsetUsername)
      ∧ ((msg.string offsetHostname).length ≤ 31 ∧ colon ∉ msg.string offsetHostname)
      ∧ msg.dataSize ≤ sizeofData)
    ⟨fun ⟨⟨h₁, h₂, h₃, h₄⟩, ⟨h₅, h₆⟩, ⟨h₇, h₈⟩, ⟨h₉, h₁₀⟩, h₁₁⟩ =>
      ⟨h₁, h₂, h₃, h₄, h₅, h₆, h₇, h₈, h₉, h₁₀, h₁₁⟩,
    fun h => ⟨⟨h.1, h.2, h.3, h.4⟩, ⟨h.5, h.6⟩, ⟨h.7, h.8⟩, ⟨h.9, h.10⟩, h.11⟩⟩

/-- The fields of the version of a message. -/
def versionFields (msg : Msg) : VersionFields where
  head := ascii "1_lbt4_" ++ numeral 10 msg.avatarId
  model := ascii "131"
  mac := msg.string offsetMacaddr
  third := ascii "0"
  fourth := ascii "0"
  gpmsgSize := numeral 10 msg.gpmsgSize

theorem versionFields_eq (msg : Msg) :
  versionFields msg
    = printedVersion msg.avatarId (ascii "131") (msg.string offsetMacaddr) msg.gpmsgSize
  := rfl

theorem versionFields_mac (msg : Msg) :
  (versionFields msg).mac = msg.string offsetMacaddr
  := by
  simp only [versionFields]

theorem versionText_eq (msg : Msg) :
  versionText msg = (versionFields msg).text
  := by
  have h₁ : ascii "#131#" = sharp :: (ascii "131" ++ [sharp]) := rfl
  have h₂ : ascii "#0#0#" = sharp :: (ascii "0" ++ sharp :: (ascii "0" ++ [sharp])) := rfl
  simp only [versionText, versionFields, VersionFields.text, h₁, h₂, List.append_assoc,
    List.cons_append, List.nil_append]

theorem buildText_eq (msg : Msg) :
  buildText msg = (versionFields msg).text ++ colon :: (numeral 10 msg.packetId ++ colon ::
    (msg.string offsetUsername ++ colon :: (msg.string offsetHostname ++ colon ::
      (numeral 10 msg.command ++ colon :: msg.data))))
  := by
  have h : ascii ":" = [colon] := rfl
  simp only [buildText, versionText_eq, h, List.append_assoc, List.cons_append,
    List.nil_append]

theorem model_isDigits :
  ∀ c ∈ ascii "131", (digitValue 10 c).isSome
  := by
  decide +kernel

theorem versionFields_length_le {msg : Msg} (h : Printable msg) :
  (versionFields msg).text.length ≤ 58
  := by
  have h₁ : (numeral 10 msg.avatarId).length ≤ 5 := by
    have := h.avatarId_lt
    apply numeral_length_le (by decide) (by decide)
    omega
  have h₂ : (numeral 10 msg.gpmsgSize).length ≤ 5 := by
    have := h.gpmsgSize_lt
    apply numeral_length_le (by decide) (by decide)
    omega
  have h₃ := h.macaddr_length
  have h₄ : (ascii "1_lbt4_").length = 7 := rfl
  have h₅ : (ascii "131").length = 3 := rfl
  have h₆ : (ascii "0").length = 1 := rfl
  simp only [VersionFields.text, versionFields, List.length_append, List.length_cons, h₄, h₅,
    h₆]
  omega

/-! ### The round trip -/

theorem read_write_string (mem : Memory) (a : Nat) (s : List UInt8) :
  (mem.write a (s ++ [0])).read a (s.length + 1) = s ++ [0]
  := by
  have h := Memory.read_write_self mem a (s ++ [0])
  rw [List.length_append, List.length_singleton] at h
  apply h

section

variable {pkt : Packet} {msg₀ : Msg} {v : VersionFields} {avatarId : Int}
  {packetId username hostname command data : List UInt8}

/-- The address of a parsed message. -/
theorem parsedMsg_macaddr (hnul : 0 ∉ v.mac) (hmac : v.mac.length ≤ 31) :
  (parsedMsg pkt msg₀ v avatarId packetId username hostname command data).string offsetMacaddr
    = v.mac
  := by
  have hip := ip2str_length_le pkt.ip
  apply string_of_read hnul
  · simp only [offsetMacaddr, sizeofMsg]
    omega
  · rw [parsedMsg]
    simp only
    iterate 5 rw [Memory.read_write_of_apart]
    · apply read_write_string
    all_goals
      simp only [Apart, List.length_append, List.length_singleton, List.length_replicate,
        offsetMacaddr, offsetIp, offsetUsername, offsetHostname, offsetData, sizeofData]
      omega

/-- The user of a parsed message. -/
theorem parsedMsg_read_username (husername : username.length ≤ 31) :
  (parsedMsg pkt msg₀ v avatarId packetId username hostname command data).bytes.read
    offsetUsername (username.length + 1) = username ++ [0]
  := by
  rw [parsedMsg]
  simp only
  iterate 3 rw [Memory.read_write_of_apart]
  · apply read_write_string
  all_goals
    simp only [Apart, List.length_append, List.length_singleton, List.length_replicate,
      offsetUsername, offsetHostname, offsetData, sizeofData]
    omega

theorem parsedMsg_username (hnul : 0 ∉ username) (husername : username.length ≤ 31) :
  (parsedMsg pkt msg₀ v avatarId packetId username hostname command data).string offsetUsername
    = username
  := by
  apply string_of_read hnul
  · simp only [offsetUsername, sizeofMsg]
    omega
  · apply parsedMsg_read_username husername

/-- The host of a parsed message. -/
theorem parsedMsg_hostname (hnul : 0 ∉ hostname) (hhostname : hostname.length ≤ 31) :
  (parsedMsg pkt msg₀ v avatarId packetId username hostname command data).string offsetHostname
    = hostname
  := by
  apply string_of_read hnul
  · simp only [offsetHostname, sizeofMsg]
    omega
  · rw [parsedMsg]
    simp only
    iterate 2 rw [Memory.read_write_of_apart]
    · apply read_write_string
    all_goals
      simp only [Apart, List.length_replicate, offsetHostname, offsetData, sizeofData]
      omega

theorem parsedMsg_data :
  (parsedMsg pkt msg₀ v avatarId packetId username hostname command data).data = data
  := Memory.read_write_self _ offsetData data

end

/-- Parsing the packet of a message gives its fields back. -/
theorem parse_build {msg : Msg} (h : Printable msg) (mtime ip : Nat) (beyond : UInt8)
    (msg₀ : Msg) :
  ∃ pkt msg', feiqBuildPacket (some beyond) mtime ip msg = (0, some pkt)
    ∧ feiqParsePacket pkt msg₀ = .ok (0, msg')
    ∧ msg'.avatarId = msg.avatarId
    ∧ msg'.string offsetMacaddr = msg.string offsetMacaddr
    ∧ msg'.gpmsgSize = msg.gpmsgSize
    ∧ msg'.packetId = msg.packetId
    ∧ msg'.string offsetUsername = msg.string offsetUsername
    ∧ msg'.string offsetHostname = msg.string offsetHostname
    ∧ msg'.command = msg.command
    ∧ msg'.dataSize = msg.dataSize
    ∧ msg'.data = msg.data
  := by
  have hdigits : ∀ n, IsField (numeral 10 n) := fun n =>
    ⟨not_mem_numeral_ten n (by decide), not_mem_numeral_ten n (by decide)⟩
  have hnum : ∀ n : Nat, n < 2 ^ 31 → toUnsigned 32 (atoi (numeral 10 n)) = n := by
    intro n hn
    have hatoi := atoi_numeral hn (by simp : ∀ c ∈ ([] : List UInt8).head?,
      digitValue 10 c = none)
    rw [List.append_nil] at hatoi
    rw [hatoi, toUnsigned_of_lt (by omega)]
  have hlength : msg.data.length = msg.dataSize := Memory.read_length _ _ _
  have hle := h.dataSize_le
  have hsizeof : offsetVersion + 58 < sizeofMsg ∧ offsetUsername + 31 < sizeofMsg
      ∧ offsetHostname + 31 < sizeofMsg ∧ offsetData + sizeofData ≤ sizeofMsg := by decide
  have hversion := versionFields_length_le h
  have hmac_nul := not_mem_string msg offsetMacaddr
  have hmac_length := h.macaddr_length
  have husername := h.username_length
  have hhostname := h.hostname_length
  let pkt : Packet := { mtime, ip, port := msg.port, data := buildText msg, beyond }
  have hdata : pkt.data = _ := buildText_eq msg
  rw [versionFields_eq] at hdata hversion
  have hparse := parse_of_fields msg₀ hdata (printedVersion_split model_isDigits h.macaddr_hex)
    (printedVersion_isField model_isDigits h.macaddr_hex)
    (isPrefixOf_append (isPrefixOf_append (by decide)))
    (getAvatarId_printedVersion model_isDigits h.macaddr_hex h.avatarId_lt) (hdigits msg.packetId)
    ⟨h.username_colon, not_mem_string msg offsetUsername⟩
    ⟨h.hostname_colon, not_mem_string msg offsetHostname⟩ (hdigits msg.command)
    (by omega) (by omega) (by omega) (by omega)
  refine ⟨pkt, _, rfl, hparse, ?_, ?_, ?_, ?_, ?_, ?_, ?_, ?_, ?_⟩
  · apply toUnsigned_of_lt h.avatarId_lt
  · rw [← versionFields_mac] at hmac_nul hmac_length
    apply (parsedMsg_macaddr hmac_nul hmac_length).trans (versionFields_mac msg)
  · have hlt := h.gpmsgSize_lt
    change toUnsigned 16 (atoi (numeral 10 msg.gpmsgSize ++ _)) = _
    rw [atoi_numeral (by omega), toUnsigned_of_lt hlt]
    intro c hc
    cases hc
    decide
  · apply hnum _ h.packetId_lt
  · apply parsedMsg_username (not_mem_string msg offsetUsername) husername
  · apply parsedMsg_hostname (not_mem_string msg offsetHostname) hhostname
  · apply hnum _ h.command_lt
  · apply hlength
  · apply parsedMsg_data

/-- A message without texts. -/
def blankMsg : Msg where
  dataSize := 5
  mtime := 0
  command := 32
  packetId := 100
  port := 0
  avatarId := 7
  gpmsgSize := 9
  gpid := 0
  bytes := fun _ => 0

/-- A message with all its texts, whose data have the separators of a packet and a terminator. -/
def sampleMsg : Msg :=
  parsedMsg ⟨0, 0, 0, [], 0⟩ blankMsg
    ⟨ascii "1_lbt4_7", ascii "131", ascii "002481627512", ascii "0", ascii "0", ascii "9"⟩ 7
    (ascii "100") (ascii "alice") (ascii "a-host") (ascii "32") (ascii "a:b#c_d" ++ 0 :: ascii "e")

theorem parse_build_sample :
  Printable sampleMsg ∧ ∃ pkt msg', feiqBuildPacket (some 0) 0 0 sampleMsg = (0, some pkt)
    ∧ feiqParsePacket pkt blankMsg = .ok (0, msg')
    ∧ msg'.avatarId = 7 ∧ msg'.string offsetMacaddr = ascii "002481627512"
    ∧ msg'.gpmsgSize = 9 ∧ msg'.packetId = 100 ∧ msg'.string offsetUsername = ascii "alice"
    ∧ msg'.string offsetHostname = ascii "a-host" ∧ msg'.command = 32 ∧ msg'.dataSize = 9
    ∧ msg'.data = ascii "a:b#c_d" ++ 0 :: ascii "e"
  := by
  have hmacaddr : sampleMsg.string offsetMacaddr = ascii "002481627512" :=
    parsedMsg_macaddr (by decide +kernel) (by decide +kernel)
  have husername : sampleMsg.string offsetUsername = ascii "alice" :=
    parsedMsg_username (by decide +kernel) (by decide +kernel)
  have hhostname : sampleMsg.string offsetHostname = ascii "a-host" :=
    parsedMsg_hostname (by decide +kernel) (by decide +kernel)
  have hdata : sampleMsg.data = ascii "a:b#c_d" ++ 0 :: ascii "e" := parsedMsg_data
  have hprintable : Printable sampleMsg := by
    constructor
    case macaddr_hex | macaddr_length =>
      rw [hmacaddr]
      decide +kernel
    case username_length | username_colon =>
      rw [husername]
      decide +kernel
    case hostname_length | hostname_colon =>
      rw [hhostname]
      decide +kernel
    all_goals decide +kernel
  obtain ⟨pkt, msg', hbuild, hparse, h₁, h₂, h₃, h₄, h₅, h₆, h₇, h₈, h₉⟩ :=
    parse_build hprintable 0 0 0 blankMsg
  rw [hmacaddr] at h₂
  rw [husername] at h₅
  rw [hhostname] at h₆
  rw [hdata] at h₉
  exact ⟨hprintable, pkt, msg', hbuild, hparse, h₁, h₂, h₃, h₄, h₅, h₆, h₇, h₈, h₉⟩

end Feiq

end IFreeChat
