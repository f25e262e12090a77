import IFreeChat.Ifc.Feiq

/-!
# What the FeiQ parser accepts

The parser returns on a datagram exactly when the datagram is `Parsable`: its version ends
at a colon, and when that version is one of `1_lbt4`, the version has five sharps, four more
fields end at colons, and all fits into a `msg_t` (`parse_returns_iff`).  It then refuses the
datagrams that lack a separator (`parse_total_iff`).
-/

open Basis

namespace IFreeChat

namespace Feiq

/-! ### Fields -/

/-- A string that can stand before a colon. -/
def IsField (s : List UInt8) : Prop := colon ∉ s ∧ 0 ∉ s

instance (s : List UInt8) : Decidable (IsField s) := inferInstanceAs (Decidable (_ ∧ _))

/-- With `d` and one byte left and the size of `d` remaining, a field is one of `d`. -/
theorem nextField_eq_ok_iff {d field q : List UInt8} {beyond : UInt8} {size : Nat} :
  nextField (d ++ [beyond]) d.length = .ok (field, q, size)
    ↔ ∃ rest, d = field ++ colon :: rest ∧ IsField field ∧ q = rest ++ [beyond]
        ∧ size = rest.length
  := by
  rw [nextField, bind_eq_ok]
  constructor
  · rintro ⟨⟨field', q'⟩, hsearch, h⟩
    obtain ⟨hd, hcolon, hnul⟩ := search_eq_ok_iff.mp hsearch
    simp only at h
    split at h
    · cases h
    · rename_i hle
      cases h
      rcases List.append_eq_append_iff.mp hd with ⟨as, rfl, -⟩ | ⟨bs, rfl, hbs⟩
      · simp only [List.length_append] at hle
        omega
      · cases bs with
        | nil =>
          simp only [List.append_nil] at hle
          omega
        | cons x rest =>
          rw [List.cons_append] at hbs
          cases hbs
          refine ⟨rest, rfl, ⟨hcolon, hnul.resolve_left (by decide)⟩, rfl, ?_⟩
          simp only [List.length_append, List.length_cons]
          omega
  · rintro ⟨rest, rfl, hfield, rfl, rfl⟩
    refine ⟨(field, rest ++ [beyond]), search_eq_ok_iff.mpr ⟨by simp, hfield.1, Or.inr hfield.2⟩,
      ?_⟩
    simp only [List.length_append, List.length_cons]
    rw [if_neg (by omega)]
    congr 3
    omega

theorem nextField_field {field rest : List UInt8} {beyond : UInt8} (h : IsField field) :
  nextField (field ++ colon :: rest ++ [beyond]) (field ++ colon :: rest).length
    = .ok (field, rest ++ [beyond], rest.length)
  := nextField_eq_ok_iff.mpr ⟨rest, rfl, h, rfl, rfl⟩

/-! ### The version -/

/-- A version with five sharps: the texts before each, and the text after the last. -/
structure VersionFields where
  head : List UInt8
  model : List UInt8
  mac : List UInt8
  third : List UInt8
  fourth : List UInt8
  gpmsgSize : List UInt8

namespace VersionFields

/-- The version with these fields. -/
def text (v : VersionFields) : List UInt8 :=
  v.head ++ sharp :: (v.model ++ sharp :: (v.mac ++ sharp :: (v.third ++ sharp ::
    (v.fourth ++ sharp :: v.gpmsgSize))))

/-- The texts before the sharps have none. -/
structure Split (v : VersionFields) : Prop where
  head : sharp ∉ v.head
  model : sharp ∉ v.model
  mac : sharp ∉ v.mac
  third : sharp ∉ v.third
  fourth : sharp ∉ v.fourth

end VersionFields

/-- A text with a sharp splits at the first one. -/
theorem split_sharp {s : List UInt8} {n : Nat} (h : n + 1 ≤ s.count sharp) :
  ∃ before after, s = before ++ sharp :: after ∧ sharp ∉ before ∧ n ≤ after.count sharp
  := by
  obtain ⟨before, after, rfl, hnot⟩ :=
    List.eq_append_cons_of_mem (List.count_pos_iff.mp (by omega : 0 < s.count sharp))
  refine ⟨before, after, rfl, hnot, ?_⟩
  rw [List.count_append, List.count_cons_self, List.count_eq_zero_of_not_mem hnot] at h
  omega

/-- A version with at least five sharps has its fields. -/
theorem exists_versionFields {version : List UInt8} (h : 5 ≤ version.count sharp) :
  ∃ v : VersionFields, v.Split ∧ version = v.text
  := by
  obtain ⟨head, s₁, rfl, h₁, hn⟩ := split_sharp h
  obtain ⟨model, s₂, rfl, h₂, hn⟩ := split_sharp hn
  obtain ⟨mac, s₃, rfl, h₃, hn⟩ := split_sharp hn
  obtain ⟨third, s₄, rfl, h₄, hn⟩ := split_sharp hn
  obtain ⟨fourth, s₅, rfl, h₅, -⟩ := split_sharp hn
  exact ⟨⟨head, model, mac, third, fourth, s₅⟩, ⟨h₁, h₂, h₃, h₄, h₅⟩, rfl⟩

section

variable {v : VersionFields} (hv : v.Split) (hnul : 0 ∉ v.text) (q : List UInt8)

include hv hnul

/-- The address is the text between the second sharp and the third. -/
theorem getMac_text (hlbt : (ascii "1_lbt").isPrefixOf (v.text ++ 0 :: q) = true) :
  getMacFromVersion (v.text ++ 0 :: q) = .ok v.mac
  := by
  rw [getMacFromVersion, hlbt]
  simp only [VersionFields.text, List.mem_append, List.mem_cons, not_or] at hnul
  simp only [VersionFields.text, List.append_assoc, List.cons_append, Bool.not_true,
    Bool.false_eq_true, if_false]
  rw [search_append hv.head (by tauto)]
  change (search sharp _ >>= _) = _
  rw [search_append hv.model (by tauto)]
  apply copyUpTo_append hv.mac

/-- The size is the number the text after the fifth sharp starts with. -/
theorem getGpmsgSize_text :
  getGpmsgSizeFromVersion (v.text ++ 0 :: q) = .ok (atoi (v.gpmsgSize ++ 0 :: q))
  := by
  simp only [VersionFields.text, List.mem_append, List.mem_cons, not_or] at hnul
  simp only [getGpmsgSizeFromVersion, VersionFields.text, List.append_assoc, List.cons_append]
  rw [search_append hv.head (by tauto)]
  change (search sharp _ >>= _) = _
  rw [search_append hv.model (by tauto)]
  change (search sharp _ >>= _) = _
  rw [search_append hv.mac (by tauto)]
  change (search sharp _ >>= _) = _
  rw [search_append hv.third (by tauto)]
  change (search sharp _ >>= _) = _
  rw [search_append hv.fourth (by tauto)]
  rfl

end

/-- The size is found only in a version with five sharps. -/
theorem five_le_count {version q : List UInt8} {n : Int}
    (h : getGpmsgSizeFromVersion (version ++ 0 :: q) = .ok n) :
  5 ≤ version.count sharp
  := by
  simp only [getGpmsgSizeFromVersion, bind_eq_ok] at h
  obtain ⟨⟨b₁, p₁⟩, h₁, ⟨b₂, p₂⟩, h₂, ⟨b₃, p₃⟩, h₃, ⟨b₄, p₄⟩, h₄, ⟨b₅, p₅⟩, h₅, -⟩ := h
  obtain ⟨s₁, rfl, rfl⟩ := search_string (by decide) h₁
  obtain ⟨s₂, rfl, rfl⟩ := search_string (by decide) h₂
  obtain ⟨s₃, rfl, rfl⟩ := search_string (by decide) h₃
  obtain ⟨s₄, rfl, rfl⟩ := search_string (by decide) h₄
  obtain ⟨s₅, rfl, -⟩ := search_string (by decide) h₅
  simp only [List.count_append, List.count_cons_self]
  omega

/-! ### Parsing the fields -/

theorem toUnsigned_of_lt {w n : Nat} (h : n < 2 ^ w) :
  toUnsigned w n = n
  := by
  rw [toUnsigned]
  have hmod : (n : Int) % 2 ^ w = n := by
    apply Int.emod_eq_of_lt
    · omega
    · exact_mod_cast h
  rw [hmod, Int.toNat_natCast]

section

variable {limit : Nat → Nat} {msg msg' : Msg} {offset : Nat}

theorem storeIn_eq_ok_iff {bytes : List UInt8} :
  msg.storeIn limit offset bytes = .ok msg'
    ↔ offset + bytes.length ≤ limit offset
      ∧ msg' = { msg with bytes := msg.bytes.write offset bytes }
  := by
  rw [Msg.storeIn]
  split
  · rename_i h
    simp [h, eq_comm]
  · rename_i h
    simp [h]

theorem strcpyIn_eq_ok_iff {s : List UInt8} :
  msg.strcpyIn limit offset s = .ok msg'
    ↔ offset + s.length < limit offset
      ∧ msg' = { msg with bytes := msg.bytes.write offset (s ++ [0]) }
  := by
  rw [Msg.strcpyIn, storeIn_eq_ok_iff, List.length_append, List.length_singleton]
  rfl

end

theorem ip2str_length_le (ip : Nat) :
  (ip2str ip).length ≤ 15
  := by
  have hle : ∀ n, (numeral 10 (n % 256)).length ≤ 3 := by
    intro n
    have := Nat.mod_lt n (by decide : 0 < 256)
    apply numeral_length_le (by decide) (by decide)
    omega
  have h₁ := hle (ip / 2 ^ 24)
  have h₂ := hle (ip / 2 ^ 16)
  have h₃ := hle (ip / 2 ^ 8)
  have h₄ := hle ip
  have hdot : (ascii ".").length = 1 := rfl
  simp only [ip2str, List.length_append, hdot]
  omega

/-- The message a packet of these fields is parsed into. -/
def parsedMsg (pkt : Packet) (msg : Msg) (v : VersionFields) (avatarId : Int)
    (packetId username hostname command data : List UInt8) : Msg where
  dataSize := data.length
  mtime := pkt.mtime
  command := toUnsigned 32 (atoi command)
  packetId := toUnsigned 32 (atoi packetId)
  port := pkt.port
  avatarId := toUnsigned 16 avatarId
  gpmsgSize := toUnsigned 16 (atoi (v.gpmsgSize ++ 0 ::
    (packetId ++ colon :: (username ++ colon :: (hostname ++ colon :: (command ++ colon ::
      data))) ++ [pkt.beyond])))
  gpid := 0
  bytes := (((((((msg.bytes.write offsetVersion (v.text ++ [0])).write
    offsetMacaddr (v.mac ++ [0])).write
    offsetIp (ip2str pkt.ip ++ [0])).write
    offsetUsername (username ++ [0])).write
    offsetHostname (hostname ++ [0])).write
    offsetData (List.replicate sizeofData 0)).write
    offsetData data)

theorem isPrefixOf_append {s t u : List UInt8} (h : s.isPrefixOf t = true) :
  s.isPrefixOf (t ++ u) = true
  := by
  rw [List.isPrefixOf_iff_prefix] at h ⊢
  apply h.trans (List.prefix_append t u)

theorem lbt_of_lbt4 {version : List UInt8} (h : (ascii "1_lbt4").isPrefixOf version = true) :
  (ascii "1_lbt").isPrefixOf version = true
  := by
  rw [List.isPrefixOf_iff_prefix] at h ⊢
  have hlbt : (ascii "1_lbt") <+: (ascii "1_lbt4") := by decide
  apply hlbt.trans h

/-- A packet of all its fields, each with room for it, is parsed. -/
theorem parseIn_of_fields {limit : Nat → Nat} {pkt : Packet} (msg : Msg) {v : VersionFields}
    {avatarId : Int} {packetId username hostname command data : List UInt8}
    (hdata : pkt.data = v.text ++ colon :: (packetId ++ colon :: (username ++ colon ::
      (hostname ++ colon :: (command ++ colon :: data)))))
    (hv : v.Split) (hversion : IsField v.text)
    (hlbt4 : (ascii "1_lbt4").isPrefixOf v.text = true)
    (havatar : getAvatarIdFromVersion v.text = .ok avatarId)
    (hpacketId : IsField packetId) (husername : IsField username)
    (hhostname : IsField hostname) (hcommand : IsField command)
    (hversion_length : offsetVersion + v.text.length < limit offsetVersion)
    (hmac_length : offsetMacaddr + v.mac.length < limit offsetMacaddr)
    (hip_length : offsetIp + 15 < limit offsetIp)
    (husername_length : offsetUsername + username.length < limit offsetUsername)
    (hhostname_length : offsetHostname + hostname.length < limit offsetHostname)
    (hsizeof : offsetData + sizeofData ≤ limit offsetData)
    (hdata_length : offsetData + data.length ≤ limit offsetData) :
  feiqParsePacketIn limit pkt msg
    = .ok (0, parsedMsg pkt msg v avatarId packetId username hostname command data)
  := by
  have hip : offsetIp + (ip2str pkt.ip).length < limit offsetIp := by
    have := ip2str_length_le pkt.ip
    omega
  have hzeros : offsetData + (List.replicate sizeofData (0 : UInt8)).length
      ≤ limit offsetData := by
    rw [List.length_replicate]
    apply hsizeof
  have hstore : ∀ m : Msg, m.storeIn limit offsetData ((data ++ [pkt.beyond]).take data.length)
      = .ok { m with bytes := m.bytes.write offsetData data } := by
    intro m
    rw [List.take_left, storeIn_eq_ok_iff]
    use hdata_length
  rw [feiqParsePacketIn, hdata]
  refine bind_eq_ok.mpr ⟨_, nextField_field hversion, ?_⟩
  refine bind_eq_ok.mpr ⟨_, strcpyIn_eq_ok_iff.mpr ⟨hversion_length, rfl⟩, ?_⟩
  rw [hlbt4]
  refine bind_eq_ok.mpr ⟨_, havatar, ?_⟩
  refine bind_eq_ok.mpr ⟨_, getMac_text hv hversion.2 _
    (isPrefixOf_append (lbt_of_lbt4 hlbt4)), ?_⟩
  refine bind_eq_ok.mpr ⟨_, strcpyIn_eq_ok_iff.mpr ⟨hmac_length, rfl⟩, ?_⟩
  refine bind_eq_ok.mpr ⟨_, getGpmsgSize_text hv hversion.2 _, ?_⟩
  refine bind_eq_ok.mpr ⟨_, strcpyIn_eq_ok_iff.mpr ⟨hip, rfl⟩, ?_⟩
  refine bind_eq_ok.mpr ⟨_, nextField_field hpacketId, ?_⟩
  refine bind_eq_ok.mpr ⟨_, nextField_field husername, ?_⟩
  refine bind_eq_ok.mpr ⟨_, strcpyIn_eq_ok_iff.mpr ⟨husername_length, rfl⟩, ?_⟩
  refine bind_eq_ok.mpr ⟨_, nextField_field hhostname, ?_⟩
  refine bind_eq_ok.mpr ⟨_, strcpyIn_eq_ok_iff.mpr ⟨hhostname_length, rfl⟩, ?_⟩
  refine bind_eq_ok.mpr ⟨_, nextField_field hcommand, ?_⟩
  refine bind_eq_ok.mpr ⟨_, storeIn_eq_ok_iff.mpr ⟨hzeros, rfl⟩, ?_⟩
  refine bind_eq_ok.mpr ⟨_, hstore _, ?_⟩
  rfl

/-- A packet of all its fields, each short enough for the end of the message, is parsed. -/
theorem parse_of_fields {pkt : Packet} (msg : Msg) {v : VersionFields} {avatarId : Int}
    {packetId username hostname command data : List UInt8}
    (hdata : pkt.data = v.text ++ colon :: (packetId ++ colon :: (username ++ colon ::
      (hostname ++ colon :: (command ++ colon :: data)))))
    (hv : v.Split) (hversion : IsField v.text)
    (hlbt4 : (ascii "1_lbt4").isPrefixOf v.text = true)
    (havatar : getAvatarIdFromVersion v.text = .ok avatarId)
    (hpacketId : IsField packetId) (husername : IsField username)
    (hhostname : IsField hostname) (hcommand : IsField command)
    (hversion_length : offsetVersion + v.text.length < sizeofMsg)
    (husername_length : offsetUsername + username.length < sizeofMsg)
    (hhostname_length : offsetHostname + hostname.length < sizeofMsg)
    (hdata_length : offsetData + data.length ≤ sizeofMsg) :
  feiqParsePacket pkt msg
    = .ok (0, parsedMsg pkt msg v avatarId packetId username hostname command data)
  := by
  have hmac : offsetMacaddr + v.mac.length < sizeofMsg := by
    simp only [VersionFields.text, List.length_append, List.length_cons, offsetVersion,
      offsetMacaddr] at hversion_length ⊢
    omega
  rw [← feiqParsePacketIn_block]
  apply parseIn_of_fields msg hdata hv hversion hlbt4 havatar hpacketId husername hhostname
    hcommand hversion_length hmac (by decide) husername_length hhostname_length (by decide)
    hdata_length

/-- A packet whose version is none of `1_lbt4` is refused. -/
theorem parse_refused {pkt : Packet} (msg : Msg) {version rest : List UInt8}
    (hdata : pkt.data = version ++ colon :: rest) (hversion : IsField version)
    (hlength : offsetVersion + version.length < sizeofMsg)
    (hlbt4 : (ascii "1_lbt4").isPrefixOf version = false) :
  ∃ msg', feiqParsePacket pkt msg = .ok (-1, msg')
  := by
  use { msg with
    mtime := pkt.mtime
    bytes := msg.bytes.write offsetVersion (version ++ [0]) }
  rw [← feiqParsePacketIn_block, feiqParsePacketIn, hdata]
  refine bind_eq_ok.mpr ⟨_, nextField_field hversion, ?_⟩
  refine bind_eq_ok.mpr ⟨_, strcpyIn_eq_ok_iff.mpr ⟨hlength, rfl⟩, ?_⟩
  rw [hlbt4]
  rfl

/-- Every version has an avatar. -/
theorem getAvatarId_total (version : List UInt8) :
  ∃ avatarId, getAvatarIdFromVersion version = .ok avatarId ∧ avatarId.natAbs ≤ 2 ^ 31
  := by
  rw [getAvatarIdFromVersion]
  cases hlbt : (ascii "1_lbt").isPrefixOf version with
  | false => exact ⟨0, rfl, by decide⟩
  | true =>
    have hmem : underscore ∈ version := by
      rw [List.isPrefixOf_iff_prefix] at hlbt
      apply hlbt.subset
      decide
    cases hlast : strrchr underscore version with
    | none => apply absurd hmem (strrchr_eq_none_iff.mp hlast)
    | some p => exact ⟨atoi p, rfl, atoi_natAbs_le p⟩

/-! ### Totality -/

/-- What the parser needs of the fields after the version `1_lbt4`. -/
def ParsableFields (version rest : List UInt8) : Prop :=
  5 ≤ version.count sharp ∧ ∃ packetId username hostname command data,
    rest = packetId ++ colon :: (username ++ colon :: (hostname ++ colon ::
      (command ++ colon :: data)))
    ∧ IsField packetId ∧ IsField username ∧ IsField hostname ∧ IsField command
    ∧ offsetUsername + username.length < sizeofMsg
    ∧ offsetHostname + hostname.length < sizeofMsg
    ∧ offsetData + data.length ≤ sizeofMsg

/-- What the parser needs of a datagram: a version before a colon and any terminator, short
enough for the end of the message, and all the fields where it is one of `1_lbt4`. -/
def Parsable (d : List UInt8) : Prop :=
  ∃ version rest, d = version ++ colon :: rest ∧ IsField version
    ∧ offsetVersion + version.length < sizeofMsg
    ∧ ((ascii "1_lbt4").isPrefixOf version = true → ParsableFields version rest)

/-- The parser returns on a parsable datagram, with `0` on a version of `1_lbt4` and with
`-1` on any other. -/
theorem parse_of_parsable {pkt : Packet} (h : Parsable pkt.data) (msg : Msg) :
  ∃ version rest msg', pkt.data = version ++ colon :: rest ∧ IsField version
    ∧ ((ascii "1_lbt4").isPrefixOf version = true → ParsableFields version rest)
    ∧ feiqParsePacket pkt msg
      = .ok (if (ascii "1_lbt4").isPrefixOf version then 0 else -1, msg')
  := by
  obtain ⟨version, rest, hdata, hversion, hlength, hfields⟩ := h
  cases hlbt4 : (ascii "1_lbt4").isPrefixOf version with
  | false =>
    obtain ⟨msg', hparse⟩ := parse_refused msg hdata hversion hlength hlbt4
    refine ⟨version, rest, msg', hdata, hversion, hfields, ?_⟩
    rw [hparse, hlbt4]
    rfl
  | true =>
    obtain ⟨hcount, packetId, username, hostname, command, data, rfl, hpacketId, husername,
      hhostname, hcommand, husername_length, hhostname_length, hdata_length⟩ := hfields hlbt4
    obtain ⟨v, hv, rfl⟩ := exists_versionFields hcount
    obtain ⟨avatarId, havatar, -⟩ := getAvatarId_total v.text
    have hparse := parse_of_fields msg hdata hv hversion hlbt4 havatar hpacketId husername
      hhostname hcommand hlength husername_length hhostname_length hdata_length
    refine ⟨v.text, _, parsedMsg pkt msg v avatarId packetId username hostname command data,
      hdata, hversion, hfields, ?_⟩
    rw [hparse, hlbt4]
    rfl

/-- A packet that is parsed has all its fields, with room for each, unless its version is
none of `1_lbt4`. -/
theorem fields_of_parseIn {limit : Nat → Nat} {pkt : Packet} {msg msg' : Msg} {code : Int}
    (h : feiqParsePacketIn limit pkt msg = .ok (code, msg')) :
  ∃ version rest, pkt.data = version ++ colon :: rest ∧ IsField version
    ∧ offsetVersion + version.length < limit offsetVersion
    ∧ ((ascii "1_lbt4").isPrefixOf version = false ∧ code = -1
      ∨ ∃ (v : VersionFields) (avatarId : Int) (packetId username hostname command
        data : List UInt8),
      (ascii "1_lbt4").isPrefixOf version = true ∧ code = 0 ∧ version = v.text ∧ v.Split
      ∧ rest = packetId ++ colon :: (username ++ colon :: (hostname ++ colon ::
        (command ++ colon :: data)))
      ∧ getAvatarIdFromVersion version = .ok avatarId
      ∧ IsField packetId ∧ IsField username ∧ IsField hostname ∧ IsField command
      ∧ offsetMacaddr + v.mac.length < limit offsetMacaddr
      ∧ offsetUsername + username.length < limit offsetUsername
      ∧ offsetHostname + hostname.length < limit offsetHostname
      ∧ offsetData + data.length ≤ limit offsetData
      ∧ msg' = parsedMsg pkt msg v avatarId packetId username hostname command data)
  := by
  obtain ⟨⟨version, q, size⟩, hfield, h⟩ := bind_eq_ok.mp h
  obtain ⟨rest, hdata, hversion, rfl, rfl⟩ := nextField_eq_ok_iff.mp hfield
  obtain ⟨msg₁, hstrcpy, h⟩ := bind_eq_ok.mp h
  obtain ⟨hversion_length, rfl⟩ := strcpyIn_eq_ok_iff.mp hstrcpy
  refine ⟨version, rest, hdata, hversion, hversion_length, ?_⟩
  cases hlbt4 : (ascii "1_lbt4").isPrefixOf version with
  | false =>
    rw [hlbt4] at h
    cases h
    left
    exact ⟨rfl, rfl⟩
  | true =>
    right
    rw [hlbt4] at h
    obtain ⟨avatarId, havatar, h⟩ := bind_eq_ok.mp h
    obtain ⟨mac, hmac, h⟩ := bind_eq_ok.mp h
    obtain ⟨msg₂, hmac_copy, h⟩ := bind_eq_ok.mp h
    obtain ⟨gpmsgSize, hgpmsg, h⟩ := bind_eq_ok.mp h
    obtain ⟨v, hv, rfl⟩ := exists_versionFields (five_le_count hgpmsg)
    rw [getMac_text hv hversion.2 _ (isPrefixOf_append (lbt_of_lbt4 hlbt4))] at hmac
    cases hmac
    rw [getGpmsgSize_text hv hversion.2] at hgpmsg
    cases hgpmsg
    obtain ⟨hmac_length, rfl⟩ := strcpyIn_eq_ok_iff.mp hmac_copy
    obtain ⟨msg₃, hip_copy, h⟩ := bind_eq_ok.mp h
    obtain ⟨-, rfl⟩ := strcpyIn_eq_ok_iff.mp hip_copy
    obtain ⟨⟨packetId, q, size⟩, hfield, h⟩ := bind_eq_ok.mp h
    obtain ⟨rest, rfl, hpacketId, rfl, rfl⟩ := nextField_eq_ok_iff.mp hfield
    obtain ⟨⟨username, q, size⟩, hfield, h⟩ := bind_eq_ok.mp h
    obtain ⟨rest, rfl, husername, rfl, rfl⟩ := nextField_eq_ok_iff.mp hfield
    obtain ⟨msg₄, husername_copy, h⟩ := bind_eq_ok.mp h
    obtain ⟨husername_length, rfl⟩ := strcpyIn_eq_ok_iff.mp husername_copy
    obtain ⟨⟨hostname, q, size⟩, hfield, h⟩ := bind_eq_ok.mp h
    obtain ⟨rest, rfl, hhostname, rfl, rfl⟩ := nextField_eq_ok_iff.mp hfield
    obtain ⟨msg₅, hhostname_copy, h⟩ := bind_eq_ok.mp h
    obtain ⟨hhostname_length, rfl⟩ := strcpyIn_eq_ok_iff.mp hhostname_copy
    obtain ⟨⟨command, q, size⟩, hfield, h⟩ := bind_eq_ok.mp h
    obtain ⟨data, rfl, hcommand, rfl, rfl⟩ := nextField_eq_ok_iff.mp hfield
    obtain ⟨msg₆, hzeros, h⟩ := bind_eq_ok.mp h
    obtain ⟨-, rfl⟩ := storeIn_eq_ok_iff.mp hzeros
    obtain ⟨msg₇, hstore, h⟩ := bind_eq_ok.mp h
    rw [List.take_left] at hstore
    obtain ⟨hdata_length, rfl⟩ := storeIn_eq_ok_iff.mp hstore
    cases h
    exact ⟨v, avatarId, packetId, username, hostname, command, data, rfl, rfl, rfl, hv, rfl,
      havatar, hpacketId, husername, hhostname, hcommand, hmac_length, husername_length,
      hhostname_length, hdata_length, rfl⟩

/-- The text of its fields has at least five sharps. -/
theorem VersionFields.five_le_count (v : VersionFields) :
  5 ≤ v.text.count sharp
  := by
  simp only [VersionFields.text, List.count_append, List.count_cons_self]
  omega

/-- A datagram on which the parser returns is parsable. -/
theorem parsable_of_parse {pkt : Packet} {msg : Msg} {r : Int × Msg}
    (h : feiqParsePacket pkt msg = .ok r) :
  Parsable pkt.data
  := by
  rw [← feiqParsePacketIn_block] at h
  obtain ⟨version, rest, hdata, hversion, hversion_length, hfields⟩ := fields_of_parseIn h
  refine ⟨version, rest, hdata, hversion, hversion_length, ?_⟩
  intro hlbt4
  rcases hfields with ⟨hnot, -⟩ | ⟨v, avatarId, packetId, username, hostname, command, data, -, -,
    rfl, -, rfl, -, hpacketId, husername, hhostname, hcommand, -, husername_length,
    hhostname_length, hdata_length, -⟩
  · rw [hlbt4] at hnot
    cases hnot
  · exact ⟨v.five_le_count, packetId, username, hostname, command, data, rfl, hpacketId,
      husername, hhostname, hcommand, husername_length, hhostname_length, hdata_length⟩

/-- A datagram with fewer than five colons, or with fewer than five sharps before the
first. -/
def LacksSeparator (d : List UInt8) : Prop :=
  d.count colon < 5 ∨ (d.takeWhile fun c => c ≠ colon).count sharp < 5

/-- However the block continues, the parser returns `0` or `-1` on the datagram, and `-1`
where it lacks a separator. -/
def Total (d : List UInt8) : Prop :=
  ∀ (pkt : Packet) (msg : Msg), pkt.data = d →
    ∃ code msg', feiqParsePacket pkt msg = .ok (code, msg') ∧ (code = 0 ∨ code = -1)
      ∧ (LacksSeparator d → code = -1)

theorem takeWhile_field {version rest : List UInt8} (h : IsField version) :
  (version ++ colon :: rest).takeWhile (fun c => c ≠ colon) = version
  := by
  have hall : ∀ c ∈ version, decide (c ≠ colon) = true := by
    rintro c hc
    rw [decide_eq_true_eq]
    rintro rfl
    apply h.1 hc
  rw [List.takeWhile_append_of_pos hall, List.takeWhile_cons_of_neg (by simp), List.append_nil]

/-- The parser returns on a datagram, and refuses it where it lacks a separator, exactly
when the datagram is parsable. -/
theorem parse_total_iff (d : List UInt8) :
  Total d ↔ Parsable d
  := by
  constructor
  · intro h
    obtain ⟨code, msg', hparse, -⟩ :=
      h ⟨0, 0, 0, d, 0⟩ ⟨0, 0, 0, 0, 0, 0, 0, 0, fun _ => 0⟩ rfl
    apply parsable_of_parse hparse
  · rintro h pkt msg rfl
    obtain ⟨version, rest, msg', hdata, hversion, hfields, hparse⟩ := parse_of_parsable h msg
    refine ⟨_, msg', hparse, ?_, ?_⟩
    · split
      · left
        rfl
      · right
        rfl
    · intro hlacks
      cases hlbt4 : (ascii "1_lbt4").isPrefixOf version with
      | false => simp
      | true =>
        obtain ⟨hcount, _, _, _, _, _, rfl, -⟩ := hfields hlbt4
        rw [LacksSeparator, hdata, takeWhile_field hversion] at hlacks
        rcases hlacks with hcolon | hsharp
        · simp only [List.count_append, List.count_cons_self] at hcolon
          omega
        · omega

/-- On a datagram without a colon the parser follows the `NULL` of `strchr`. -/
theorem parse_follows_null :
  ¬ Total (ascii "hello")
  := by
  intro h
  obtain ⟨code, msg', hparse, -⟩ :=
    h ⟨0, 0, 0, ascii "hello", 0⟩ ⟨0, 0, 0, 0, 0, 0, 0, 0, fun _ => 0⟩ rfl
  have hfault : feiqParsePacket ⟨0, 0, 0, ascii "hello", 0⟩
      ⟨0, 0, 0, 0, 0, 0, 0, 0, fun _ => 0⟩ = .error .nullPointer := rfl
  rw [hfault] at hparse
  cases hparse

end Feiq

end IFreeChat
