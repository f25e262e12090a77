import IFreeChat.Ifc.FeiqHandlers
import IFreeChat.Ifc.FeiqRoundTrip

/-!
# FeiQ entries

Datagrams that are parsed and handed to `feiqOnEntry`, and the broadcast of an entry.

All copies of an entry stay in their arrays exactly when its texts are short enough for them
(`entry_fits_iff`).  The avatar read from the message is the one read from the datagram
exactly when the version, or what the later copies leave of it, has the same number
(`avatar_agrees_iff`).  The broadcast ends where it should, and is read back, exactly when
its category is as long as all the text before it (`broadcast_iff`).
-/

open Basis

namespace IFreeChat

open Peer (Glib stringValidate asciiGlib)

namespace Feiq

/-! ### The strings of a parsed message -/

/-- What a version is once the strings around it have been copied: an address that is too
long goes over it, and a text that fills its array goes on with the user. -/
def keptVersion (version mac username : List UInt8) : List UInt8 :=
  let text := if mac.length < 32 then version else mac.drop 32
  if text.length < 16 then text else text.take 16 ++ username

section

variable {pkt : Packet} {msg₀ : Msg} {v : VersionFields} {avatarId : Int}
  {packetId username hostname command data : List UInt8}

theorem parsedMsg_hasUsername (hnul : 0 ∉ username) (husername : username.length ≤ 31) :
  (parsedMsg pkt msg₀ v avatarId packetId username hostname command data).HasString
    offsetUsername username
  where
  nul := hnul
  lt := by
    simp only [offsetUsername, sizeofMsg]
    omega
  read := parsedMsg_read_username husername

/-- The copies after the address leave the array of the version alone. -/
theorem parsedMsg_read_version {n : Nat} (hn : n ≤ 16) :
  (parsedMsg pkt msg₀ v avatarId packetId username hostname command data).bytes.read
      offsetVersion n
    = ((msg₀.bytes.write offsetVersion (v.text ++ [0])).write offsetMacaddr
      (v.mac ++ [0])).read offsetVersion n
  := by
  have hip := ip2str_length_le pkt.ip
  rw [parsedMsg]
  simp only
  iterate 5 rw [Memory.read_write_of_apart]
  all_goals
    simp only [Apart, List.length_append, List.length_singleton, List.length_replicate,
      offsetVersion, offsetIp, offsetUsername, offsetHostname, offsetData, sizeofData]
    omega

/-- What the address leaves of a version. -/
theorem read_version (mem : Memory) (version mac : List UInt8) {n : Nat}
    (hn : n ≤ (if mac.length < 32 then version else mac.drop 32).length + 1) :
  ((mem.write offsetVersion (version ++ [0])).write offsetMacaddr (mac ++ [0])).read
      offsetVersion n
    = ((if mac.length < 32 then version else mac.drop 32) ++ [0]).take n
  := by
  by_cases hmac : mac.length < 32
  · rw [if_pos hmac] at hn ⊢
    rw [Memory.read_write_of_apart]
    · have hpart := @Memory.read_write_part mem offsetVersion 0 n (version ++ [0])
        (by rw [List.length_append, List.length_singleton]; omega)
      rwa [Nat.add_zero, List.drop_zero] at hpart
    · left
      simp only [List.length_append, List.length_singleton, offsetMacaddr, offsetVersion]
      omega
  · rw [if_neg hmac] at hn ⊢
    rw [List.length_drop] at hn
    have hpart := @Memory.read_write_part (mem.write offsetVersion (version ++ [0]))
      offsetMacaddr 32 n (mac ++ [0])
      (by rw [List.length_append, List.length_singleton]; omega)
    rw [List.drop_append_of_le_length (by omega)] at hpart
    apply hpart

/-- The version of a parsed message. -/
theorem parsedMsg_hasVersion (hnul : 0 ∉ v.text) (husername_nul : 0 ∉ username)
    (husername : username.length ≤ 31) :
  (parsedMsg pkt msg₀ v avatarId packetId username hostname command data).HasString
    offsetVersion (keptVersion v.text v.mac username)
  := by
  have hmac_nul : 0 ∉ v.mac := by
    simp only [VersionFields.text, List.mem_append, List.mem_cons, not_or] at hnul
    exact hnul.2.2.2.2.1
  have hread := @read_version msg₀.bytes v.text v.mac
  rw [keptVersion]
  obtain ⟨text, htext⟩ : ∃ text, text = if v.mac.length < 32 then v.text else v.mac.drop 32 :=
    ⟨_, rfl⟩
  have htext_nul : 0 ∉ text := by
    rw [htext]
    split
    · apply hnul
    · apply fun h => hmac_nul (List.mem_of_mem_drop h)
  rw [← htext] at hread ⊢
  by_cases hlength : text.length < 16
  · rw [if_pos hlength]
    refine ⟨htext_nul, ?_, ?_⟩
    · simp only [offsetVersion, sizeofMsg]
      omega
    · rw [parsedMsg_read_version (by omega), hread (Nat.le_refl _)]
      apply List.take_of_length_le
      rw [List.length_append, List.length_singleton]
  · rw [if_neg hlength]
    have htake : (text.take 16).length = 16 := by
      rw [List.length_take]
      omega
    refine ⟨?_, ?_, ?_⟩
    · rw [List.mem_append, not_or]
      exact ⟨fun h => htext_nul (List.mem_of_mem_take h), husername_nul⟩
    · rw [List.length_append, htake, offsetVersion, sizeofMsg]
      omega
    · rw [List.length_append, htake, Nat.add_assoc, Memory.read_append,
        parsedMsg_read_version (Nat.le_refl _), hread (by omega),
        List.take_append_of_le_length (by omega), List.append_assoc]
      congr 1
      apply parsedMsg_read_username husername

/-- The data of a parsed message, with the zeros after it. -/
theorem parsedMsg_read_data (hdata : data.length ≤ sizeofData) :
  (parsedMsg pkt msg₀ v avatarId packetId username hostname command data).bytes.read
      offsetData sizeofData
    = data ++ List.replicate (sizeofData - data.length) 0
  := by
  have hlength : (data ++ (List.replicate sizeofData 0).drop data.length).length
      = sizeofData := by
    rw [List.length_append, List.length_drop, List.length_replicate]
    omega
  have hread : ∀ mem : Memory,
      (mem.write offsetData (data ++ (List.replicate sizeofData 0).drop data.length)).read
        offsetData sizeofData = data ++ (List.replicate sizeofData 0).drop data.length := by
    intro mem
    have h := Memory.read_write_self mem offsetData
      (data ++ (List.replicate sizeofData 0).drop data.length)
    rwa [hlength] at h
  rw [parsedMsg]
  simp only
  rw [Memory.write_write, hread, List.drop_replicate]

/-- The strings in the data of a parsed message. -/
theorem parsedMsg_hasString_data (hdata : data.length ≤ sizeofData) {k : Nat} {s : List UInt8}
    (hlt : k + s.length < sizeofData) :
  (parsedMsg pkt msg₀ v avatarId packetId username hostname command data).HasString
      (offsetData + k) s
    ↔ s = untilNul (data.drop k)
  := by
  obtain ⟨bytes, hbytes⟩ : ∃ bytes, bytes = data ++ List.replicate (sizeofData - data.length) 0 :=
    ⟨_, rfl⟩
  have hlength : bytes.length = sizeofData := by
    rw [hbytes, List.length_append, List.length_replicate]
    omega
  have huntil : untilNul (bytes.drop k) = untilNul (data.drop k) := by
    rw [hbytes, List.drop_append, List.drop_replicate, untilNul_append_zeros]
  have hread : (parsedMsg pkt msg₀ v avatarId packetId username hostname command data).bytes.read
      (offsetData + k) (s.length + 1) = (bytes.drop k).take (s.length + 1) := by
    rw [@Memory.read_part _ _ _ _ sizeofData (by omega), parsedMsg_read_data hdata, hbytes]
  rw [← huntil]
  constructor
  · rintro ⟨hnul, -, h⟩
    rw [hread] at h
    have hsplit := List.take_append_drop (s.length + 1) (bytes.drop k)
    rw [h, List.append_assoc] at hsplit
    rw [← hsplit]
    apply (untilNul_string hnul _).symm
  · intro h
    have hlt' : (untilNul (bytes.drop k)).length < (bytes.drop k).length := by
      rw [← h, List.length_drop]
      omega
    refine ⟨?_, ?_, ?_⟩
    · rw [h]
      apply not_mem_untilNul
    · simp only [offsetData, sizeofData, sizeofMsg] at hlt ⊢
      omega
    · rw [hread, eq_untilNul_append hlt', ← h, List.append_cons, List.take_left']
      rw [List.length_append, List.length_singleton]

end

/-! ### Datagrams -/

/-- The fields of a datagram. -/
structure Fields where
  version : VersionFields
  packetId : List UInt8
  username : List UInt8
  hostname : List UInt8
  command : List UInt8
  data : List UInt8

namespace Fields

/-- The datagram with these fields. -/
def text (f : Fields) : List UInt8 :=
  f.version.text ++ colon :: (f.packetId ++ colon :: (f.username ++ colon :: (f.hostname
    ++ colon :: (f.command ++ colon :: f.data))))

/-- The fields end at their separators, and the version is one of `1_lbt4`. -/
structure Split (f : Fields) : Prop where
  version : f.version.Split
  version_isField : IsField f.version.text
  lbt4 : (ascii "1_lbt4").isPrefixOf f.version.text = true
  packetId : IsField f.packetId
  username : IsField f.username
  hostname : IsField f.hostname
  command : IsField f.command

instance (f : Fields) : Decidable f.Split :=
  have : Decidable f.version.Split := decidable_of_iff
    (sharp ∉ f.version.head ∧ sharp ∉ f.version.model ∧ sharp ∉ f.version.mac
      ∧ sharp ∉ f.version.third ∧ sharp ∉ f.version.fourth)
    ⟨fun ⟨h₁, h₂, h₃, h₄, h₅⟩ => ⟨h₁, h₂, h₃, h₄, h₅⟩,
      fun h => ⟨h.1, h.2, h.3, h.4, h.5⟩⟩
  decidable_of_iff (f.version.Split ∧ IsField f.version.text
      ∧ (ascii "1_lbt4").isPrefixOf f.version.text = true ∧ IsField f.packetId
      ∧ IsField f.username ∧ IsField f.hostname ∧ IsField f.command)
    ⟨fun ⟨h₁, h₂, h₃, h₄, h₅, h₆, h₇⟩ => ⟨h₁, h₂, h₃, h₄, h₅, h₆, h₇⟩,
      fun h => ⟨h.1, h.2, h.3, h.4, h.5, h.6, h.7⟩⟩

end Fields

/-- The message a packet of these fields is parsed into. -/
def parsedFields (pkt : Packet) (msg : Msg) (f : Fields) (avatarId : Int) : Msg :=
  parsedMsg pkt msg f.version avatarId f.packetId f.username f.hostname f.command f.data

theorem isField_append_inj {s s' rest rest' : List UInt8} (hs : IsField s) (hs' : IsField s')
    (h : s ++ colon :: rest = s' ++ colon :: rest') :
  s = s' ∧ rest = rest'
  := by
  have heq := @takeWhile_field s rest hs
  rw [h, takeWhile_field hs'] at heq
  subst heq
  exact ⟨rfl, by simpa using h⟩

/-- The texts of the fields fit the room of their copies. -/
structure Fields.Fits (f : Fields) (limit : Nat → Nat) : Prop where
  version : offsetVersion + f.version.text.length < limit offsetVersion
  mac : offsetMacaddr + f.version.mac.length < limit offsetMacaddr
  username : offsetUsername + f.username.length < limit offsetUsername
  hostname : offsetHostname + f.hostname.length < limit offsetHostname
  data : offsetData + f.data.length ≤ limit offsetData

/-- A packet that is accepted has such fields, and is parsed into them. -/
theorem fields_of_accepted {limit : Nat → Nat} {pkt : Packet} {msg₀ msg₁ : Msg}
    (h : feiqParsePacketIn limit pkt msg₀ = .ok (0, msg₁)) :
  ∃ f avatarId, pkt.data = f.text ∧ f.Split ∧ f.Fits limit
    ∧ getAvatarIdFromVersion f.version.text = .ok avatarId
    ∧ msg₁ = parsedFields pkt msg₀ f avatarId
  := by
  obtain ⟨version, rest, hdata, hversion, hlength, hfields⟩ := fields_of_parseIn h
  rcases hfields with ⟨-, hcode⟩ | ⟨v, avatarId, packetId, username, hostname, command, data,
    hlbt4, -, rfl, hv, rfl, havatar, hpacketId, husername, hhostname, hcommand, hmac_length,
    husername_length, hhostname_length, hdata_length, hmsg⟩
  · cases hcode
  · exact ⟨⟨v, packetId, username, hostname, command, data⟩, avatarId, hdata,
      ⟨hv, hversion, hlbt4, hpacketId, husername, hhostname, hcommand⟩,
      ⟨hlength, hmac_length, husername_length, hhostname_length, hdata_length⟩, havatar, hmsg⟩

/-- A packet with the fields that is accepted is parsed into them. -/
theorem parsed_of_accepted {pkt : Packet} {msg₀ msg₁ : Msg} {f : Fields}
    (hdata : pkt.data = f.text) (hf : f.Split) (h : feiqParsePacket pkt msg₀ = .ok (0, msg₁)) :
  ∃ avatarId, getAvatarIdFromVersion f.version.text = .ok avatarId
    ∧ msg₁ = parsedFields pkt msg₀ f avatarId
  := by
  rw [← feiqParsePacketIn_block] at h
  obtain ⟨f', avatarId, hdata', hf', hfits, havatar, -⟩ := fields_of_accepted h
  rw [hdata] at hdata'
  obtain ⟨hversion, hrest⟩ := isField_append_inj hf.version_isField hf'.version_isField hdata'
  obtain ⟨-, hrest⟩ := isField_append_inj hf.packetId hf'.packetId hrest
  obtain ⟨husername, hrest⟩ := isField_append_inj hf.username hf'.username hrest
  obtain ⟨hhostname, hrest⟩ := isField_append_inj hf.hostname hf'.hostname hrest
  obtain ⟨-, hfdata⟩ := isField_append_inj hf.command hf'.command hrest
  rw [← hversion] at havatar
  have hparse := parse_of_fields msg₀ hdata hf.version hf.version_isField hf.lbt4 havatar
    hf.packetId hf.username hf.hostname hf.command
    (by rw [hversion]; exact hfits.version) (by rw [husername]; exact hfits.username)
    (by rw [hhostname]; exact hfits.hostname) (by rw [hfdata]; exact hfits.data)
  rw [← feiqParsePacketIn_block, h] at hparse
  use avatarId, havatar
  rw [parsedFields]
  injection hparse with hparse
  injection hparse

/-! ### Capacities -/

/-- The datagram is refused, or its fields fit the arrays of a message, and so do the names
of its entry. -/
inductive Capacities (glib : Glib) (d : List UInt8) : Prop
  | refused {version rest : List UInt8} (hdata : d = version ++ colon :: rest)
      (hversion : IsField version) (hlbt4 : (ascii "1_lbt4").isPrefixOf version = false)
      (hlength : offsetVersion + version.length < sizeofMsg) : Capacities glib d
  | accepted {f : Fields} (hdata : d = f.text) (hf : f.Split)
      (hversion : f.version.text.length < 16) (husername : f.username.length < 32)
      (hhostname : f.hostname.length < 32) (hlength : f.data.length ≤ sizeofData)
      (hnames : NamesFit glib f.username (untilNul f.data)
        (untilNul (f.data.drop ((untilNul f.data).length + 1)))) : Capacities glib d

/-- The datagram is refused, or all its copies and those of its entry stay in their arrays,
terminators included. -/
def CopiesFit (glib : Glib) (d : List UInt8) : Prop :=
  ∀ (pkt : Packet) (msg : Msg), pkt.data = d →
    (∃ msg', feiqParsePacket pkt msg = .ok (-1, msg'))
    ∨ ∃ msg₁ msg₂, feiqParsePacketIn arrays pkt msg = .ok (0, msg₁)
      ∧ feiqOnEntry glib arrays msg₁ = .ok msg₂

theorem VersionFields.mac_length_le (v : VersionFields) :
  v.mac.length ≤ v.text.length
  := by
  simp only [text, List.length_append, List.length_cons]
  omega

/-- The names of an entry fit exactly when its texts do. -/
theorem entry_names_iff {glib : Glib} {pkt : Packet} {msg₀ : Msg} {f : Fields} {avatarId : Int}
    (hf : f.Split) (husername : f.username.length < 32) (hlength : f.data.length ≤ sizeofData) :
  (∃ msg₂, feiqOnEntry glib arrays (parsedFields pkt msg₀ f avatarId) = .ok msg₂)
    ↔ NamesFit glib f.username (untilNul f.data)
      (untilNul (f.data.drop ((untilNul f.data).length + 1)))
  := by
  have hhasVersion := @parsedMsg_hasVersion pkt msg₀ f.version avatarId f.packetId f.username
    f.hostname f.command f.data hf.version_isField.2 hf.username.2 (by omega)
  have hhasUsername := @parsedMsg_hasUsername pkt msg₀ f.version avatarId f.packetId f.username
    f.hostname f.command f.data hf.username.2 (by omega)
  have hhas := fun k s => @parsedMsg_hasString_data pkt msg₀ f.version avatarId f.packetId
    f.username f.hostname f.command f.data hlength k s
  have hnickname_le : ∀ username data : List UInt8,
      (entryNickname username data).length < 32 → data.length < 32 := by
    intro username data h
    rw [entryNickname] at h
    split at h
    · rename_i hempty
      rw [hempty]
      decide
    · apply h
  have hcategory_le : ∀ category : List UInt8,
      (entryCategory category).length < 32 → category.length < 32 := by
    intro category h
    rw [entryCategory] at h
    split at h
    · rename_i hempty
      rw [hempty]
      decide
    · apply h
  rw [parsedFields, onEntry_arrays_iff hhasVersion hhasUsername husername]
  constructor
  · rintro ⟨data, category, hdata, hcategory, hfit⟩
    have hdata_lt := hnickname_le _ _ hfit.nickname_lt
    have hcategory_lt := hcategory_le _ hfit.category_lt
    rw [hhas _ _ (by rw [sizeofData]; omega)] at hcategory
    have hdata' := (hhas 0 data (by rw [sizeofData]; omega)).mp hdata
    rw [List.drop_zero] at hdata'
    subst hdata' hcategory
    apply hfit
  · intro hfit
    have hdata_lt := hnickname_le _ _ hfit.nickname_lt
    have hcategory_lt := hcategory_le _ hfit.category_lt
    refine ⟨_, _, ?_, ?_, hfit⟩
    · exact (hhas 0 _ (by rw [sizeofData]; omega)).mpr (by rw [List.drop_zero])
    · exact (hhas _ _ (by rw [sizeofData]; omega)).mpr rfl

/-- The copies of a datagram and of its entry stay in their arrays, or it is refused, exactly
when its texts are short enough. -/
theorem entry_fits_iff (glib : Glib) (d : List UInt8) :
  CopiesFit glib d ↔ Capacities glib d
  := by
  have hends : arrays offsetVersion = offsetVersion + 16 ∧ arrays offsetUsername
      = offsetUsername + 32 ∧ arrays offsetHostname = offsetHostname + 32
      ∧ arrays offsetData = offsetData + sizeofData ∧ arrays offsetMacaddr = offsetMacaddr + 32
      ∧ offsetIp + 15 < arrays offsetIp := by decide
  obtain ⟨hversion_end, husername_end, hhostname_end, hdata_end, hmac_end, hip_end⟩ := hends
  constructor
  · intro h
    rcases h ⟨0, 0, 0, d, 0⟩ ⟨0, 0, 0, 0, 0, 0, 0, 0, fun _ => 0⟩ rfl with
      ⟨msg', hparse⟩ | ⟨msg₁, msg₂, hparse, hentry⟩
    · rw [← feiqParsePacketIn_block] at hparse
      obtain ⟨version, rest, hdata, hversion, hlength, hfields⟩ := fields_of_parseIn hparse
      rcases hfields with ⟨hlbt4, -⟩ | ⟨_, _, _, _, _, _, _, _, hcode, -⟩
      · apply Capacities.refused hdata hversion hlbt4 hlength
      · cases hcode
    · obtain ⟨f, avatarId, hdata, hf, hfits, -, rfl⟩ := fields_of_accepted hparse
      have hversion := hfits.version
      have husername := hfits.username
      have hhostname := hfits.hostname
      have hlength := hfits.data
      have hnames := (entry_names_iff hf (by omega) (by omega)).mp ⟨msg₂, hentry⟩
      apply Capacities.accepted hdata hf (by omega) (by omega) (by omega) (by omega) hnames
  · rintro (⟨hdata, hversion, hlbt4, hlength⟩ | ⟨hdata, hf, hversion, husername, hhostname, hlength,
      hnames⟩) pkt msg rfl
    · left
      apply parse_refused msg hdata hversion hlength hlbt4
    · right
      rename_i f
      have hmac := f.version.mac_length_le
      obtain ⟨avatarId, havatar, -⟩ := getAvatarId_total f.version.text
      have hparse := @parseIn_of_fields arrays _ msg _ _ _ _ _ _ _ hdata hf.version
        hf.version_isField hf.lbt4 havatar hf.packetId hf.username hf.hostname hf.command
        (by omega) (by omega) hip_end (by omega) (by omega) (by omega) (by omega)
      obtain ⟨msg₂, hentry⟩ := (@entry_names_iff glib pkt msg f avatarId hf husername
        hlength).mpr hnames
      exact ⟨_, msg₂, hparse, hentry⟩

/-- The entry of a test of this program. -/
def testEntry : List UInt8 :=
  ascii "1_lbt4_10#128#002481627512#0#0#0:1289671407:test:test-host:257:test-nickname"
    ++ 0 :: (ascii "heskell" ++ [0])

/-- The version of that entry runs over its array. -/
theorem testEntry_overruns :
  ¬ CopiesFit asciiGlib testEntry
  := by
  have hversion_eq : ∀ version rest, testEntry = version ++ colon :: rest → IsField version →
      version = ascii "1_lbt4_10#128#002481627512#0#0#0" := by
    intro version rest hdata hversion
    rw [← @takeWhile_field version rest hversion, ← hdata]
    decide +kernel
  intro h
  rcases h ⟨0, 0, 0, testEntry, 0⟩ ⟨0, 0, 0, 0, 0, 0, 0, 0, fun _ => 0⟩ rfl with
    ⟨msg', hparse⟩ | ⟨msg₁, msg₂, hparse, -⟩
  · rw [← feiqParsePacketIn_block] at hparse
    obtain ⟨version, rest, hdata, hversion, -, hfields⟩ := fields_of_parseIn hparse
    cases hversion_eq version rest hdata hversion
    rcases hfields with ⟨hlbt4, -⟩ | ⟨_, _, _, _, _, _, _, -, hcode, -⟩
    · revert hlbt4
      decide
    · cases hcode
  · obtain ⟨version, rest, hdata, hversion, hlength, -⟩ := fields_of_parseIn hparse
    cases hversion_eq version rest hdata hversion
    revert hlength
    decide

/-! ### Avatars -/

/-- The number after the last underscore of a version, in the 16 bits of an avatar, and zero
where it is no `1_lbt`. -/
def avatarNumber (version : List UInt8) : Nat :=
  if (ascii "1_lbt").isPrefixOf version then
    toUnsigned 16 (atoi ((strrchr underscore version).getD []))
  else 0

theorem avatarNumber_of_eq {version : List UInt8} {avatarId : Int}
    (h : getAvatarIdFromVersion version = .ok avatarId) :
  toUnsigned 16 avatarId = avatarNumber version
  := by
  rw [getAvatarIdFromVersion] at h
  rw [avatarNumber]
  cases hlbt : (ascii "1_lbt").isPrefixOf version with
  | false =>
    rw [hlbt] at h
    cases h
    rfl
  | true =>
    rw [hlbt] at h
    cases hlast : strrchr underscore version with
    | none =>
      rw [hlast] at h
      cases h
    | some p =>
      rw [hlast] at h
      cases h
      rfl

/-- The avatar an entry is given, in the end, is the one that is read from its message. -/
theorem onEntry_avatarId {glib : Glib} {limit : Nat → Nat} {msg msg' : Msg}
    (h : feiqOnEntry glib limit msg = .ok msg') :
  ∃ msg₁, onEntryAvatar limit msg = .ok msg₁ ∧ msg'.avatarId = msg₁.avatarId
  := by
  have hstrcpy : ∀ {msg msg' : Msg} {dest : Nat} {s : List UInt8},
      msg.strcpyIn limit dest s = .ok msg' → msg'.avatarId = msg.avatarId := by
    intro msg msg' dest s h
    obtain ⟨-, rfl⟩ := strcpyIn_eq_ok_iff.mp h
    rfl
  have hfrom : ∀ {msg msg' : Msg} {dest src : Nat},
      msg.strcpyFrom limit dest src = .ok msg' → msg'.avatarId = msg.avatarId := by
    intro msg msg' dest src h
    obtain ⟨s, -, -, rfl⟩ := strcpyFrom_eq_ok h
    rfl
  have hvalidate : ∀ {msg msg' : Msg} {offset : Nat},
      onEntryValidate glib limit msg offset = .ok msg' → msg'.avatarId = msg.avatarId := by
    intro msg msg' offset h
    obtain ⟨s, -, h⟩ := bind_eq_ok.mp h
    split at h
    · cases h
      rfl
    · apply hstrcpy h
  obtain ⟨msg₁, havatar, h⟩ := bind_eq_ok.mp h
  obtain ⟨msg₂, hnames, h⟩ := bind_eq_ok.mp h
  obtain ⟨msg₃, hnickname, hcategory⟩ := bind_eq_ok.mp h
  obtain ⟨data, -, hnames⟩ := bind_eq_ok.mp hnames
  obtain ⟨msg', hcopy, hnames⟩ := bind_eq_ok.mp hnames
  obtain ⟨category, -, hnames⟩ := bind_eq_ok.mp hnames
  have hcopy' : msg₂.avatarId = msg'.avatarId := by
    split at hnames
    · apply hstrcpy hnames
    · apply hfrom hnames
  use msg₁, havatar
  rw [hvalidate hcategory, hvalidate hnickname, hcopy', hfrom hcopy]

/-- The avatar read from a parsed message is the one read from the datagram exactly when what
is kept of the version has the number of the version. -/
theorem avatar_agrees_iff {pkt : Packet} {msg₀ msg₁ : Msg} {f : Fields}
    (hdata : pkt.data = f.text) (hf : f.Split) (husername : f.username.length ≤ 31)
    (h : feiqParsePacket pkt msg₀ = .ok (0, msg₁)) :
  (∃ msg₂, onEntryAvatar block msg₁ = .ok msg₂ ∧ msg₂.avatarId = msg₁.avatarId)
    ↔ avatarNumber (keptVersion f.version.text f.version.mac f.username)
      = avatarNumber f.version.text
  := by
  obtain ⟨avatarId, havatar, rfl⟩ := parsed_of_accepted hdata hf h
  obtain ⟨avatarId', havatar', -⟩ :=
    getAvatarId_total (keptVersion f.version.text f.version.mac f.username)
  have hhas := @parsedMsg_hasVersion pkt msg₀ f.version avatarId f.packetId f.username
    f.hostname f.command f.data hf.version_isField.2 hf.username.2 husername
  have hentry := onEntryAvatar_eq (arrays_le_block offsetAvatar) hhas havatar'
  have hparsed : (parsedFields pkt msg₀ f avatarId).avatarId = toUnsigned 16 avatarId := rfl
  rw [← avatarNumber_of_eq havatar, ← avatarNumber_of_eq havatar', hparsed, parsedFields, hentry]
  constructor
  · rintro ⟨msg₂, hmsg₂, hagree⟩
    cases hmsg₂
    apply hagree
  · intro hagree
    exact ⟨_, rfl, hagree⟩

/-- An entry of avatar 10, whose version runs into the user `alice`. -/
def plainEntry : Fields where
  version := ⟨ascii "1_lbt4_10", ascii "128", ascii "002481627512", ascii "0", ascii "0", ascii "0"⟩
  packetId := ascii "1"
  username := ascii "alice"
  hostname := ascii "h"
  command := ascii "257"
  data := ascii "n"

theorem avatar_agrees_overlaid :
  ∃ pkt msg₁ msg₂, pkt.data = plainEntry.text
    ∧ feiqParsePacket pkt blankMsg = .ok (0, msg₁)
    ∧ onEntryAvatar block msg₁ = .ok msg₂ ∧ msg₂.avatarId = msg₁.avatarId
    ∧ keptVersion plainEntry.version.text plainEntry.version.mac plainEntry.username
      ≠ plainEntry.version.text
  := by
  have hf : plainEntry.Split := by decide +kernel
  have hparse := @parse_of_fields ⟨0, 0, 0, plainEntry.text, 0⟩ blankMsg _ 10 _ _ _ _ _ rfl
    hf.version hf.version_isField hf.lbt4 (by decide +kernel) hf.packetId hf.username hf.hostname
    hf.command (by decide) (by decide) (by decide) (by decide)
  obtain ⟨msg₂, hentry, hagree⟩ :=
    (avatar_agrees_iff rfl hf (by decide) hparse).mpr (by decide +kernel)
  exact ⟨_, _, msg₂, rfl, hparse, hentry, hagree, by decide +kernel⟩

/-- The same entry of the user `a_7`. -/
def longEntry : Fields where
  version := plainEntry.version
  packetId := ascii "1"
  username := ascii "a_7"
  hostname := ascii "h"
  command := ascii "257"
  data := ascii "n"

/-- The user's number is taken for the avatar. -/
theorem avatar_of_username :
  ∃ pkt msg₁ msg₂, pkt.data = longEntry.text
    ∧ feiqParsePacket pkt blankMsg = .ok (0, msg₁) ∧ msg₁.avatarId = 10
    ∧ onEntryAvatar block msg₁ = .ok msg₂ ∧ msg₂.avatarId = 7
  := by
  have hf : longEntry.Split := by decide +kernel
  have hparse := @parse_of_fields ⟨0, 0, 0, longEntry.text, 0⟩ blankMsg _ 10 _ _ _ _ _ rfl
    hf.version hf.version_isField hf.lbt4 (by decide +kernel) hf.packetId hf.username hf.hostname
    hf.command (by decide) (by decide) (by decide) (by decide)
  have hhas := @parsedMsg_hasVersion ⟨0, 0, 0, longEntry.text, 0⟩ blankMsg longEntry.version 10
    longEntry.packetId longEntry.username longEntry.hostname longEntry.command longEntry.data
    hf.version_isField.2 hf.username.2 (by decide)
  have hentry := @onEntryAvatar_eq block (arrays_le_block offsetAvatar) _ _ 7 hhas
    (by decide +kernel)
  exact ⟨_, _, _, rfl, hparse, rfl, hentry, rfl⟩

/-! ### The broadcast -/

/-- The size of `buf`. -/
def sizeofBuf : Nat := 65535

/-- The text `feiq_entry_broadcast_pkt` prints before the nickname. -/
def broadcastHeader (avatarId : Nat) (macaddr : List UInt8) (packetId : Nat)
    (username hostname : List UInt8) : List UInt8 :=
  ascii "1_lbt4_" ++ numeral 10 avatarId ++ ascii "#128#" ++ macaddr ++ ascii "#0#0#0:"
    ++ numeral 10 packetId ++ ascii ":" ++ username ++ ascii ":" ++ hostname ++ ascii ":"
    ++ numeral 10 0x101 ++ ascii ":"

/-- `feiq_entry_broadcast_pkt`, on the answer of the pool: the return code and the packet. -/
def feiqEntryBroadcastPkt (block : Option UInt8) (mtime avatarId : Nat) (macaddr : List UInt8)
    (packetId : Nat) (username hostname nickname category : List UInt8) :
    Except Fault (Int × Option Packet) :=
  let text := broadcastHeader avatarId macaddr packetId username hostname ++ nickname
  let size := text.length + 1
  if sizeofBuf < size + (category.length + 1) then .error .writeOutside
  else
    let buf := text ++ 0 :: (category ++ List.replicate (sizeofBuf - (size + category.length)) 0)
    let size := size + ((untilNul buf).length + 1)
    if sizeofBuf < size then .error .readOutside
    else
      let pkt := newPacket block mtime 0xffffffff 9090 (buf.take size)
      .ok (if pkt.isNone then -1 else 0, pkt)

/-- The arguments of a broadcast. -/
structure Announcement where
  avatarId : Nat
  macaddr : List UInt8
  packetId : Nat
  username : List UInt8
  hostname : List UInt8
  nickname : List UInt8
  category : List UInt8

/-- A string of at most 31 bytes. -/
def IsName (s : List UInt8) : Prop := 0 ∉ s ∧ s.length ≤ 31

instance (s : List UInt8) : Decidable (IsName s) := inferInstanceAs (Decidable (_ ∧ _))

namespace Announcement

/-- What a broadcast is asked to announce. -/
structure Announceable (a : Announcement) : Prop where
  avatarId : a.avatarId < 2 ^ 16
  packetId : a.packetId < 2 ^ 31
  macaddr : IsName a.macaddr
  macaddr_hex : ∀ c ∈ a.macaddr, (digitValue 16 c).isSome
  username : IsName a.username
  username_colon : colon ∉ a.username
  hostname : IsName a.hostname
  hostname_colon : colon ∉ a.hostname
  nickname : IsName a.nickname
  nickname_ne : a.nickname ≠ []
  nickname_utf8 : IsUtf8 a.nickname
  category : IsName a.category
  category_ne : a.category ≠ []
  category_utf8 : IsUtf8 a.category

/-- The header of the broadcast. -/
def header (a : Announcement) : List UInt8 :=
  broadcastHeader a.avatarId a.macaddr a.packetId a.username a.hostname

/-- The broadcast. -/
def broadcast (a : Announcement) (block : Option UInt8) (mtime : Nat) :
    Except Fault (Int × Option Packet) :=
  feiqEntryBroadcastPkt block mtime a.avatarId a.macaddr a.packetId a.username a.hostname
    a.nickname a.category

/-- The packet of the broadcast ends with the terminator of the category, and its entry has
the nickname and the category. -/
def RoundTrip (glib : Glib) (a : Announcement) : Prop :=
  ∀ beyond mtime, ∃ pkt, a.broadcast (some beyond) mtime = .ok (0, some pkt)
    ∧ pkt.data.length = a.header.length + a.nickname.length + 1 + a.category.length + 1
    ∧ ∀ msg₀, ∃ msg₁ msg₂, feiqParsePacket pkt msg₀ = .ok (0, msg₁)
      ∧ feiqOnEntry glib block msg₁ = .ok msg₂
      ∧ msg₂.HasString offsetNickname a.nickname ∧ msg₂.HasString offsetCategory a.category

/-- The fields of the broadcast, with this data. -/
def fields (a : Announcement) (data : List UInt8) : Fields where
  version := printedVersion a.avatarId (ascii "128") a.macaddr 0
  packetId := numeral 10 a.packetId
  username := a.username
  hostname := a.hostname
  command := numeral 10 0x101
  data := data

theorem fields_text (a : Announcement) (data : List UInt8) :
  (a.fields data).text = a.header ++ data
  := by
  have h₁ : ascii "#128#" = sharp :: (ascii "128" ++ [sharp]) := rfl
  have h₂ : ascii "#0#0#0:" = sharp :: (ascii "0" ++ sharp :: (ascii "0" ++ sharp ::
      (numeral 10 0 ++ [colon]))) := rfl
  have h₃ : ascii ":" = [colon] := rfl
  simp only [Fields.text, fields, header, broadcastHeader, VersionFields.text, printedVersion,
    h₁, h₂, h₃, List.append_assoc, List.cons_append, List.nil_append]

section

variable {a : Announcement} (h : a.Announceable)

include h

theorem fields_split (data : List UInt8) :
  (a.fields data).Split
  := by
  have hmodel : ∀ c ∈ ascii "128", (digitValue 10 c).isSome := by decide +kernel
  have hdigits : ∀ n, IsField (numeral 10 n) := fun n =>
    ⟨not_mem_numeral_ten n (by decide), not_mem_numeral_ten n (by decide)⟩
  exact {
    version := printedVersion_split hmodel h.macaddr_hex
    version_isField := printedVersion_isField hmodel h.macaddr_hex
    lbt4 := isPrefixOf_append (isPrefixOf_append (by decide))
    packetId := hdigits _
    username := ⟨h.username_colon, h.username.1⟩
    hostname := ⟨h.hostname_colon, h.hostname.1⟩
    command := hdigits 0x101 }

theorem header_nul :
  0 ∉ a.header
  := by
  have hdigits : ∀ n, 0 ∉ numeral 10 n := fun n => not_mem_numeral_ten n (by decide)
  have htexts : 0 ∉ ascii "1_lbt4_" ∧ 0 ∉ ascii "#128#" ∧ 0 ∉ ascii "#0#0#0:" ∧ 0 ∉ ascii ":" := by
    decide
  obtain ⟨h₁, h₂, h₃, h₄⟩ := htexts
  simp only [header, broadcastHeader, List.mem_append, not_or]
  exact ⟨⟨⟨⟨⟨⟨⟨⟨⟨⟨⟨⟨h₁, hdigits _⟩, h₂⟩, h.macaddr.1⟩, h₃⟩, hdigits _⟩, h₄⟩, h.username.1⟩, h₄⟩,
    h.hostname.1⟩, h₄⟩, hdigits _⟩, h₄⟩

/-- The header is neither short nor long. -/
theorem header_length :
  28 ≤ a.header.length ∧ a.header.length ≤ 134
  := by
  have havatar : (numeral 10 a.avatarId).length ≤ 5 := by
    have := h.avatarId
    apply numeral_length_le (by decide) (by decide)
    omega
  have hpacketId : (numeral 10 a.packetId).length ≤ 10 := by
    have := h.packetId
    apply numeral_length_le (by decide) (by decide)
    omega
  have havatar_pos := List.length_pos_of_ne_nil (numeral_ne_nil (by decide : 2 ≤ 10) a.avatarId)
  have hpacketId_pos :=
    List.length_pos_of_ne_nil (numeral_ne_nil (by decide : 2 ≤ 10) a.packetId)
  have hmacaddr := h.macaddr.2
  have husername := h.username.2
  have hhostname := h.hostname.2
  have htexts : (ascii "1_lbt4_").length = 7 ∧ (ascii "#128#").length = 5
      ∧ (ascii "#0#0#0:").length = 7 ∧ (ascii ":").length = 1
      ∧ (numeral 10 0x101).length = 3 := by decide +kernel
  obtain ⟨h₁, h₂, h₃, h₄, h₅⟩ := htexts
  simp only [header, broadcastHeader, List.length_append, h₁, h₂, h₃, h₄, h₅]
  omega

/-- The data of the broadcast: after the nickname come as many bytes of the buffer as there
are before. -/
theorem broadcast_eq (beyond : UInt8) (mtime : Nat) :
  ∃ n, a.broadcast (some beyond) mtime = .ok (0, some {
    mtime := mtime, ip := 0xffffffff, port := 9090, beyond := beyond
    data := (a.fields (a.nickname ++ 0 :: (a.category ++ List.replicate n 0).take
      ((a.header ++ a.nickname).length + 1))).text })
    ∧ (a.header ++ a.nickname).length + 1 ≤ a.category.length + n
  := by
  have hheader := header_length h
  have hnickname := h.nickname.2
  have hcategory := h.category.2
  have hlength := @List.length_append _ a.header a.nickname
  have hnul : 0 ∉ a.header ++ a.nickname := by
    rw [List.mem_append, not_or]
    exact ⟨header_nul h, h.nickname.1⟩
  have hprint : broadcastHeader a.avatarId a.macaddr a.packetId a.username a.hostname
      = a.header := rfl
  refine ⟨sizeofBuf - ((a.header ++ a.nickname).length + 1 + a.category.length), ?_, ?_⟩
  · rw [broadcast, feiqEntryBroadcastPkt, hprint]
    simp only
    rw [untilNul_string hnul, if_neg (by rw [sizeofBuf]; omega), if_neg (by rw [sizeofBuf]; omega),
      Nat.add_assoc _ 1, List.take_length_add_append, Nat.add_comm 1, List.take_succ_cons,
      fields_text, List.append_assoc]
    rfl
  · rw [sizeofBuf]
    omega

theorem version_length_le (data : List UInt8) :
  (a.fields data).version.text.length ≤ 134
  := by
  have hheader := (header_length h).2
  have htext := congrArg List.length (a.fields_text data)
  have hdata : (a.fields data).data = data := rfl
  simp only [Fields.text, List.length_append, List.length_cons, hdata] at htext
  omega

/-- The category is found after the nickname, whatever part of the zeros after it there is. -/
theorem category_in_payload {k n : Nat} (hle : a.category.length ≤ k) :
  a.category = untilNul (List.drop (a.nickname.length + 1)
    (a.nickname ++ 0 :: (a.category ++ List.replicate n 0).take k))
  := by
  have htake : (a.category ++ List.replicate n 0).take k
      = a.category ++ List.replicate (min (k - a.category.length) n) 0 := by
    rw [List.take_append, List.take_of_length_le hle, List.take_replicate]
  rw [htake, List.append_cons, List.drop_left', untilNul_append_zeros,
    untilNul_of_not_mem h.category.1]
  rw [List.length_append, List.length_singleton]

theorem entryNickname_eq :
  entryNickname a.username a.nickname = a.nickname
  := if_neg h.nickname_ne

theorem entryCategory_eq :
  entryCategory a.category = a.category
  := if_neg h.category_ne

/-- The names of a broadcast fit, as they are not converted. -/
theorem names_fit {glib : Glib}
    (hnone : ∀ s, IsUtf8 s → stringValidate glib s (ascii "GBK") = none) :
  NamesFit glib a.username a.nickname a.category
  := by
  have hconverted : ∀ s, IsUtf8 s → converted glib s = s := by
    intro s hs
    rw [converted, hnone s hs, Option.getD_none]
  have hnickname := h.nickname.2
  have hcategory := h.category.2
  constructor
  · rw [entryNickname_eq h]
    omega
  · rw [entryCategory_eq h]
    omega
  · rw [entryNickname_eq h, hconverted _ h.nickname_utf8]
    omega
  · rw [entryCategory_eq h, hconverted _ h.category_utf8]
    omega

/-- A packet with the fields of a broadcast is parsed into them. -/
theorem parse_fields {pkt : Packet} {data : List UInt8} (hdata : pkt.data = (a.fields data).text)
    (hlength : data.length ≤ sizeofData) (msg₀ : Msg) :
  ∃ avatarId, feiqParsePacket pkt msg₀ = .ok (0, parsedFields pkt msg₀ (a.fields data) avatarId)
  := by
  have hf := fields_split h data
  have hversion := version_length_le h data
  have husername := h.username.2
  have hhostname := h.hostname.2
  obtain ⟨avatarId, havatar, -⟩ := getAvatarId_total (a.fields data).version.text
  use avatarId
  apply parse_of_fields msg₀ hdata hf.version hf.version_isField hf.lbt4 havatar
    hf.packetId hf.username hf.hostname hf.command
  · rw [offsetVersion, sizeofMsg]
    omega
  · change _ + a.username.length < _
    rw [offsetUsername, sizeofMsg]
    omega
  · change _ + a.hostname.length < _
    rw [offsetHostname, sizeofMsg]
    omega
  · change _ + data.length ≤ _
    rw [sizeofData] at hlength
    rw [offsetData, sizeofMsg]
    omega

/-- The entry of a broadcast has the nickname and the category as long as the category is cut
off nowhere. -/
theorem names_delivered {glib : Glib} (hglib : ∀ s, IsUtf8 s → glib.utf8Validate s = true)
    {pkt : Packet} {k n : Nat} (hk : k ≤ 200) (hle : a.category.length ≤ k)
    (hdata : pkt.data
      = (a.fields (a.nickname ++ 0 :: (a.category ++ List.replicate n 0).take k)).text)
    (msg₀ : Msg) :
  ∃ msg₁ msg₂, feiqParsePacket pkt msg₀ = .ok (0, msg₁)
    ∧ feiqOnEntry glib block msg₁ = .ok msg₂
    ∧ msg₂.HasString offsetNickname a.nickname ∧ msg₂.HasString offsetCategory a.category
  := by
  obtain ⟨data, hpayload⟩ :
    ∃ data, data = a.nickname ++ 0 :: (a.category ++ List.replicate n 0).take k := ⟨_, rfl⟩
  rw [← hpayload] at hdata
  have hnickname := h.nickname.2
  have husername := h.username.2
  have hlength : data.length ≤ sizeofData := by
    rw [hpayload, sizeofData, List.length_append, List.length_cons, List.length_take]
    omega
  obtain ⟨avatarId, hparse⟩ := parse_fields h hdata hlength msg₀
  -- the strings of the message
  have hhasVersion := @parsedMsg_hasVersion pkt msg₀ _ avatarId (a.fields data).packetId _
    (a.fields data).hostname (a.fields data).command data (fields_split h data).version_isField.2
    h.username.1 husername
  have hhasUsername := @parsedMsg_hasUsername pkt msg₀ (a.fields data).version avatarId
    (a.fields data).packetId _ (a.fields data).hostname (a.fields data).command data h.username.1
    husername
  have hhas := fun k s => @parsedMsg_hasString_data pkt msg₀ (a.fields data).version avatarId
    (a.fields data).packetId a.username (a.fields data).hostname (a.fields data).command data
    hlength k s
  have hfirst : a.nickname = untilNul (data.drop 0) := by
    rw [List.drop_zero, hpayload, untilNul_string h.nickname.1]
  have hsecond : a.category = untilNul (data.drop (a.nickname.length + 1)) := by
    rw [hpayload]
    apply category_in_payload h hle
  have hhasNickname := (hhas 0 a.nickname (by rw [sizeofData]; omega)).mpr hfirst
  have hhasCategory := (hhas _ a.category (by rw [sizeofData]; omega)).mpr hsecond
  -- the names are UTF-8
  have hnone : ∀ s, IsUtf8 s → stringValidate glib s (ascii "GBK") = none := by
    intro s hs
    rw [stringValidate, if_pos (hglib s hs)]
  obtain ⟨msg₂, hentry, hnames⟩ := onEntry_of_fits hhasVersion hhasUsername (by omega)
    arrays_le_block hhasNickname hhasCategory (names_fit h hnone)
  rw [entryNickname_eq h, entryCategory_eq h] at hnames
  exact ⟨_, msg₂, hparse, hentry, hnames (hnone _ h.nickname_utf8) (hnone _ h.category_utf8)⟩

/-- The packet of the broadcast ends where it should, and its entry is read back, exactly when
the category is as long as the text before it. -/
theorem broadcast_iff {glib : Glib} (hglib : ∀ s, IsUtf8 s → glib.utf8Validate s = true) :
  RoundTrip glib a ↔ a.category.length = (a.header ++ a.nickname).length
  := by
  have hlength := @List.length_append _ a.header a.nickname
  have hheader := header_length h
  have hnickname := h.nickname.2
  constructor
  · intro hround
    obtain ⟨pkt, hpkt, hsize, -⟩ := hround 0 0
    obtain ⟨n, hbroadcast, hn⟩ := broadcast_eq h 0 0
    rw [hbroadcast] at hpkt
    cases hpkt
    simp only [fields_text, List.length_append, List.length_cons, List.length_take,
      List.length_replicate] at hsize hn hlength ⊢
    omega
  · intro heq beyond mtime
    obtain ⟨n, hbroadcast, hn⟩ := broadcast_eq h beyond mtime
    refine ⟨_, hbroadcast, ?_, names_delivered h hglib (by omega) (by omega) rfl⟩
    simp only [fields_text, List.length_append, List.length_cons, List.length_take,
      List.length_replicate] at hn heq ⊢
    omega

end

/-- A broadcast with a category as long as all that comes before it. -/
def evenAnnouncement : Announcement where
  avatarId := 1
  macaddr := []
  packetId := 1
  username := []
  hostname := []
  nickname := ascii "n"
  category := ascii "twenty-nine letters, and more"

theorem evenAnnouncement_announceable :
  Announceable evenAnnouncement
  where
  avatarId := by decide
  packetId := by decide
  macaddr := by decide
  macaddr_hex := by simp [evenAnnouncement]
  username := by decide
  username_colon := by decide
  hostname := by decide
  hostname_colon := by decide
  nickname := by decide
  nickname_ne := by decide
  nickname_utf8 := isUtf8_of_ascii (by decide +kernel)
  category := by decide +kernel
  category_ne := by decide
  category_utf8 := isUtf8_of_ascii (by decide +kernel)

theorem broadcast_even :
  RoundTrip asciiGlib evenAnnouncement
  := by
  apply (broadcast_iff evenAnnouncement_announceable fun _ _ => rfl).mpr
  decide +kernel

/-- The broadcast of the entry of a test of this program. -/
def testAnnouncement : Announcement where
  avatarId := 10
  macaddr := ascii "002481627512"
  packetId := 1289671407
  username := ascii "test"
  hostname := ascii "test-host"
  nickname := ascii "test-nickname"
  category := ascii "heskell"

/-- Its packet goes on after the category. -/
theorem testAnnouncement_too_long :
  ¬ RoundTrip asciiGlib testAnnouncement
  := by
  have hsize : ((testAnnouncement.broadcast (some 0) 0).toOption.bind Prod.snd).map
      (fun pkt => pkt.data.length) = some 154 := by
    decide +kernel
  have hends : testAnnouncement.header.length + testAnnouncement.nickname.length + 1
      + testAnnouncement.category.length + 1 = 85 := by
    decide +kernel
  intro h
  obtain ⟨pkt, hpkt, hlength, -⟩ := h 0 0
  rw [hpkt] at hsize
  have hsize' : pkt.data.length = 154 := Option.some.inj hsize
  omega

end Announcement

end Feiq

end IFreeChat
