import IFreeChat.Mixed.Crossing
import IFreeChat.Peer.Discovery
import IFreeChat.Ifc.FeiqEntries

/-!
# Entries between the two programs

Either program learns of the other by an entry.  A program under `src/` lists the names that one
under `ifc/` announces, and answers with an entry of its own where it did not list the address
(`announcement_answered`).  The one under `ifc/` gives the names of any entry of a program under
`src/` to `on_entry_callback` as they are, but takes the avatar for that of a number in the
username, if there is one (`entry_to_ifc`).
-/

open Basis

namespace IFreeChat

open Feiq (Fields Packet colon sharp underscore offsetIp offsetMacaddr offsetVersion offsetUsername
  offsetHostname offsetNickname offsetAvatar offsetCategory offsetData sizeofData ip2str
  Announcement)
open Peer (Glib User)
open ReceiveLoop (Callbacks State)

namespace Mixed

/-! ### An entry of the program under `ifc/` -/

/-- The user that is listed for an announcement. -/
def announcedUser (a : Announcement) (ip : List UInt8) : User where
  nickname := a.nickname
  username := a.username
  hostname := a.hostname
  avatar := Peer.avatarPath a.avatarId
  ipaddr := ip
  macaddr := a.macaddr
  signature := ascii "hello"
  category := a.category
  encoding := ascii "GBK"

/-- The command of an announcement. -/
theorem announcement_command (a : Announcement) (data : List UInt8) (ip : List UInt8)
    (port : UInt16) :
  ((pieces (a.fields data)).msg ip port).command = 0x101
  := by
  have hatoi := atoi_numeral (by decide : 0x101 < 2 ^ 31)
    (by simp : ∀ c ∈ ([] : List UInt8).head?, digitValue 10 c = none)
  rw [List.append_nil] at hatoi
  rw [Peer.Msg.command]
  change Feiq.toUnsigned 32 (atoi (numeral 10 0x101)) = 0x101
  rw [hatoi]
  rfl

/-- The version of an announcement is not that of iptux. -/
theorem announcement_version (a : Announcement) (data : List UInt8) (ip : List UInt8)
    (port : UInt16) :
  (ascii "1_iptux").isPrefixOf ((pieces (a.fields data)).msg ip port).version = false
  := by
  obtain ⟨f, hf⟩ : ∃ f, f = a.fields data := ⟨_, rfl⟩
  have hhead : f.version.text = ascii "1_lbt4_" ++ (numeral 10 a.avatarId ++ sharp ::
      (f.version.model ++ sharp :: (f.version.mac ++ sharp :: (f.version.third ++ sharp ::
        (f.version.fourth ++ sharp :: f.version.gpmsgSize))))) := by
    rw [hf]
    simp only [Feiq.Announcement.fields, Feiq.VersionFields.text, Feiq.printedVersion,
      List.append_assoc]
  rw [← hf]
  change (ascii "1_iptux").isPrefixOf f.version.text = false
  rw [hhead]
  rfl

section

variable {a : Announcement} (ha : a.Announceable) {glib : Glib}
  (hglib : ∀ s, IsUtf8 s → glib.utf8Validate s = true)

include ha hglib

/-- The entry of an announcement describes the user, as long as the category is not cut off. -/
theorem entryUser_announcement (hmac : a.macaddr.length < 20) {k : Nat}
    (hk : a.category.length ≤ k) (n : Nat) (ip : List UInt8) (port : UInt16)
    (rest : List UInt8) :
  Peer.entryUser glib rest ((pieces (a.fields
      (a.nickname ++ 0 :: (a.category ++ List.replicate n 0).take k))).msg ip port)
    = .ok (announcedUser a ip)
  := by
  obtain ⟨f, hf⟩ : ∃ f, f = a.fields
      (a.nickname ++ 0 :: (a.category ++ List.replicate n 0).take k) := ⟨_, rfl⟩
  rw [← hf]
  have hsplit : f.Split := by
    rw [hf]
    apply Feiq.Announcement.fields_split ha
  have hshown : ∀ s, IsUtf8 s → Peer.shown glib s = s := by
    intro s hs
    rw [Peer.shown, Peer.stringValidate, if_pos (hglib s hs), Option.getD_none]
  have hpayload : ∃ zeros, f.data ++ [0] ++ rest
      = a.nickname ++ 0 :: (a.category ++ 0 :: (zeros ++ rest)) := by
    use List.replicate (min (k - a.category.length) n) 0
    have hdata : f.data = a.nickname ++ 0 :: (a.category ++ List.replicate n 0).take k := by
      rw [hf]
      rfl
    rw [hdata, List.take_append, List.take_of_length_le hk, List.take_replicate]
    simp only [List.append_assoc, List.cons_append, List.nil_append]
    rw [List.append_cons (List.replicate _ _), ← List.replicate_succ', List.replicate_succ,
      List.cons_append]
  obtain ⟨zeros, hpayload⟩ := hpayload
  have hfirst : cString (((pieces f).msg ip port).data ++ rest)
      = .ok (a.nickname, a.category ++ 0 :: (zeros ++ rest)) := by
    change cString (f.data ++ [0] ++ rest) = _
    rw [hpayload]
    apply cString_append ha.nickname.1
  have hsecond : cString (a.category ++ 0 :: (zeros ++ rest)) = .ok (a.category, zeros ++ rest) :=
    cString_append ha.category.1
  have havatar : Peer.getAvatarIdFromVersion f.version.text = .ok (a.avatarId : Int) := by
    rw [hf]
    apply Feiq.getAvatarId_printedVersion
    · decide +kernel
    · apply ha.macaddr_hex
    · apply ha.avatarId
  have hmacaddr : Peer.getMacFromVersion (((pieces f).msg ip port).versionBlock rest)
      = .ok a.macaddr := by
    have hmac : f.version.mac = a.macaddr := by
      rw [hf]
      rfl
    rw [← hmac]
    apply Feiq.getMac_text hsplit.version hsplit.version_isField.2
    apply Feiq.isPrefixOf_append (Feiq.lbt_of_lbt4 hsplit.lbt4)
  rw [Peer.entryUser]
  simp only [bind_eq_ok]
  refine ⟨_, hfirst, _, hsecond, _, havatar, _, hmacaddr, ?_⟩
  have husername : f.username = a.username := by
    rw [hf]
    rfl
  have hhostname : f.hostname = a.hostname := by
    rw [hf]
    rfl
  have htake : a.macaddr.takeWhile (fun c => decide (c ≠ 0)) = a.macaddr :=
    untilNul_of_not_mem ha.macaddr.1
  rw [if_neg (Nat.not_le_of_lt hmac), if_neg ha.nickname_ne, if_neg ha.category_ne,
    hshown _ ha.nickname_utf8, hshown _ ha.category_utf8, htake]
  simp only [Peer.Pieces.msg, pieces, husername, hhostname, announcedUser]

/-- The names that a program under `ifc/` announces are listed as they are, as long as the category
is no longer than what comes before it, and the hardware address fits its array: a new address is
put at the end of the list and answered, unless the usernames are the same, and the user of an
address that is listed is brought up to date. -/
theorem announcement_listed (hmac : a.macaddr.length < 20)
    (hcategory : a.category.length ≤ (a.header ++ a.nickname).length + 1) (beyond : UInt8)
    (mtime : Nat) :
  ∃ pkt, a.broadcast (some beyond) mtime = .ok (0, some pkt)
    ∧ ∀ cfg time rest ulist ip port,
      Peer.processEntry glib cfg time rest ulist ip port pkt.data
        = .ok (match Peer.updateUser ulist (announcedUser a ip) with
          | some ulist => (ulist, none)
          | none => (ulist ++ [announcedUser a ip],
              if a.username ≠ cfg.username.text then some (Peer.printEntry cfg time 0x103)
              else none))
  := by
  obtain ⟨n, hbroadcast, -⟩ := Feiq.Announcement.broadcast_eq ha beyond mtime
  refine ⟨_, hbroadcast, ?_⟩
  intro cfg time rest ulist ip port
  obtain ⟨f, hf⟩ : ∃ f, f = a.fields (a.nickname ++ 0 :: (a.category ++ List.replicate n 0).take
      ((a.header ++ a.nickname).length + 1)) := ⟨_, rfl⟩
  have huser := entryUser_announcement ha hglib hmac hcategory n ip port rest
  have hsplit : f.Split := by
    rw [hf]
    apply Feiq.Announcement.fields_split ha
  rw [← hf] at huser ⊢
  have hlength : f.text.length < Peer.sizeofBuf := by
    have hheader := (Feiq.Announcement.header_length ha).2
    have hnickname := ha.nickname.2
    have htake := List.length_take_le ((a.header ++ a.nickname).length + 1)
      (a.category ++ List.replicate n 0)
    have happend := @List.length_append _ a.header a.nickname
    rw [hf, Feiq.Announcement.fields_text, List.length_append, List.length_append,
      List.length_cons, Peer.sizeofBuf]
    omega
  have hcommand : ((pieces f).msg ip port).command = 0x101 := by
    rw [hf]
    apply announcement_command
  have hiptux : (ascii "1_iptux").isPrefixOf ((pieces f).msg ip port).version = false := by
    rw [hf]
    apply announcement_version
  have husername : ((pieces f).msg ip port).username = a.username := by
    rw [hf]
    rfl
  have hreply : Peer.entryReply cfg time ((pieces f).msg ip port)
      = if a.username ≠ cfg.username.text then some (Peer.printEntry cfg time 0x103) else none := by
    rw [Peer.entryReply, hcommand, husername]
    simp [Peer.CMD_BR_ENTRY]
  have hentry : Peer.isEntryCommand ((pieces f).msg ip port).command := by
    rw [hcommand]
    decide
  have hnot : ¬ (false = true) := Bool.false_ne_true
  refine bind_eq_ok.mpr ⟨_, parseMessage_fields hsplit hlength ip port, ?_⟩
  rw [if_pos hentry, Peer.onBuddyEntry, hiptux, if_neg hnot]
  refine bind_eq_ok.mpr ⟨_, huser, ?_⟩
  rw [hreply]
  cases Peer.updateUser ulist (announcedUser a ip) <;> rfl

end

/-! ### An entry of the program under `src/` -/

/-- A string of a message that ends before it does. -/
theorem hasString_of_string {msg : Feiq.Msg} {offset : Nat} {s : List UInt8}
    (h : msg.string offset = s) (hlt : offset + s.length < Feiq.sizeofMsg) :
  msg.HasString offset s
  := by
  obtain ⟨bytes, hbytes⟩ : ∃ bytes, bytes = msg.bytes.read offset (Feiq.sizeofMsg - offset) :=
    ⟨_, rfl⟩
  have hstring : untilNul bytes = s := by
    rw [← h, hbytes]
    rfl
  have hlength : bytes.length = Feiq.sizeofMsg - offset := by
    rw [hbytes, Memory.read_length]
  rw [Feiq.hasString_iff, ← hbytes]
  have heq := eq_untilNul_append (by rw [hstring]; omega : (untilNul bytes).length < bytes.length)
  rw [hstring] at heq
  have hnul : 0 ∉ s := by
    rw [← hstring]
    apply not_mem_untilNul
  rw [heq]
  exact ⟨_, cString_append hnul⟩

/-- What `on_entry_callback` reads of an array is the string in it, if it fits. -/
theorem msgArray_eq {msg : Feiq.Msg} {offset n : Nat} {s : List UInt8} (h : msg.HasString offset s)
    (hlt : s.length < n) :
  ReceiveLoop.msgArray msg offset n = some ⟨s, h.nul, hlt⟩
  := by
  rw [ReceiveLoop.msgArray, Feiq.cString_eq_ok_iff.mpr h]
  exact dif_pos ⟨h.nul, hlt⟩

/-- What `on_entry_callback` reads of a message whose strings fit their arrays. -/
theorem entryMsg_eq {msg : Feiq.Msg} {ip macaddr username hostname nickname avatar category}
    (hip : msg.HasString offsetIp ip ∧ ip.length < 32)
    (hmacaddr : msg.HasString offsetMacaddr macaddr ∧ macaddr.length < 32)
    (husername : msg.HasString offsetUsername username ∧ username.length < 32)
    (hhostname : msg.HasString offsetHostname hostname ∧ hostname.length < 32)
    (hnickname : msg.HasString offsetNickname nickname ∧ nickname.length < 32)
    (havatar : msg.HasString offsetAvatar avatar ∧ avatar.length < 64)
    (hcategory : msg.HasString offsetCategory category ∧ category.length < 32) :
  ReceiveLoop.entryMsg msg = some {
    ip := ⟨ip, hip.1.nul, hip.2⟩
    macaddr := ⟨macaddr, hmacaddr.1.nul, hmacaddr.2⟩
    username := ⟨username, husername.1.nul, husername.2⟩
    hostname := ⟨hostname, hhostname.1.nul, hhostname.2⟩
    nickname := ⟨nickname, hnickname.1.nul, hnickname.2⟩
    avatar := ⟨avatar, havatar.1.nul, havatar.2⟩
    category := ⟨category, hcategory.1.nul, hcategory.2⟩ }
  := by
  simp only [ReceiveLoop.entryMsg, msgArray_eq hip.1 hip.2, msgArray_eq hmacaddr.1 hmacaddr.2,
    msgArray_eq husername.1 husername.2, msgArray_eq hhostname.1 hhostname.2,
    msgArray_eq hnickname.1 hnickname.2, msgArray_eq havatar.1 havatar.2,
    msgArray_eq hcategory.1 hcategory.2, Option.bind_eq_bind, Option.bind_some]

section

variable {glib : Glib} {msg : Feiq.Msg} {version username data category : List UInt8}

/-- An entry whose names fit and are in UTF-8 gets them and the avatar of its version, and keeps the
strings before them. -/
theorem onEntry_utf8 (hglib : ∀ s, IsUtf8 s → glib.utf8Validate s = true)
    (hversion : msg.HasString offsetVersion version)
    (husername : msg.HasString offsetUsername username) (hlt : username.length < 32)
    (hdata : msg.HasString offsetData data)
    (hcategory : msg.HasString (offsetData + (data.length + 1)) category)
    (hnickname_lt : (Feiq.entryNickname username data).length < 32)
    (hcategory_lt : (Feiq.entryCategory category).length < 32)
    (hnickname_utf8 : IsUtf8 (Feiq.entryNickname username data))
    (hcategory_utf8 : IsUtf8 (Feiq.entryCategory category)) :
  ∃ msg', Feiq.feiqOnEntry glib Feiq.block msg = .ok msg'
    ∧ msg'.HasString offsetNickname (Feiq.entryNickname username data)
    ∧ msg'.HasString offsetCategory (Feiq.entryCategory category)
    ∧ (∃ avatarId, Feiq.getAvatarIdFromVersion version = .ok avatarId
      ∧ msg'.HasString offsetAvatar (Feiq.avatarPath (Feiq.toUnsigned 16 avatarId)))
    ∧ ∀ offset s, offset + s.length < offsetNickname → msg.HasString offset s →
      msg'.HasString offset s
  := by
  obtain ⟨avatarId, havatar, -⟩ := Feiq.getAvatarId_total version
  have hpath := Feiq.avatarPath_length_lt (Feiq.toUnsigned_lt 16 avatarId)
  obtain ⟨path, hpath_eq⟩ : ∃ path, path = Feiq.avatarPath (Feiq.toUnsigned 16 avatarId) := ⟨_, rfl⟩
  have hpath_nul : 0 ∉ path := by
    rw [hpath_eq, Feiq.avatarPath]
    split
    · decide +kernel
    · simp only [List.mem_append, not_or]
      exact ⟨⟨by decide +kernel, Feiq.not_mem_numeral_ten _ (by decide)⟩, by decide +kernel⟩
  rw [← hpath_eq] at hpath
  -- the avatar
  obtain ⟨msg₁, hmsg₁⟩ : ∃ msg₁, msg₁ = { msg with
      avatarId := Feiq.toUnsigned 16 avatarId
      bytes := msg.bytes.write offsetAvatar (path ++ [0]) } := ⟨_, rfl⟩
  have hentry : Feiq.onEntryAvatar Feiq.block msg = .ok msg₁ := by
    rw [Feiq.onEntryAvatar_eq (Feiq.arrays_le_block offsetAvatar) hversion havatar, hmsg₁, hpath_eq]
  have hkept₁ : ∀ offset s, Apart offsetAvatar (path.length + 1) offset (s.length + 1) →
      msg.HasString offset s → msg₁.HasString offset s := by
    intro offset s hapart h
    rw [hmsg₁]
    apply (Feiq.hasString_write_iff rfl _).mpr h
    rw [List.length_append, List.length_singleton]
    apply hapart
  have husername₁ : msg₁.HasString offsetUsername username := by
    apply hkept₁ _ _ _ husername
    right
    simp only [offsetUsername, offsetAvatar]
    omega
  have hstrings₁ : ∀ k s, msg.HasString (offsetData + k) s → msg₁.HasString (offsetData + k) s := by
    intro k s h
    apply hkept₁ _ _ _ h
    left
    simp only [offsetData, offsetAvatar]
    omega
  -- the names
  obtain ⟨nickname, hnickname⟩ : ∃ nickname, nickname = Feiq.entryNickname username data := ⟨_, rfl⟩
  obtain ⟨category', hcategory'⟩ : ∃ category', category' = Feiq.entryCategory category := ⟨_, rfl⟩
  obtain ⟨msg₂, hmsg₂⟩ : ∃ msg₂, msg₂ = { msg₁ with
      bytes := (msg₁.bytes.write offsetNickname (nickname ++ [0])).write offsetCategory
        (category' ++ [0]) } := ⟨_, rfl⟩
  have hnames : Feiq.onEntryNames Feiq.block msg₁ = .ok msg₂ := by
    rw [Feiq.onEntryNames_eq Feiq.arrays_le_block husername₁ (hstrings₁ 0 _ hdata)
      (hstrings₁ _ _ hcategory) hnickname_lt hcategory_lt, hmsg₂, hnickname, hcategory']
  obtain ⟨_, hnames', hnickname₂, hcategory₂⟩ := Feiq.onEntryNames_spec Feiq.arrays_le_block
    husername₁ (hstrings₁ 0 _ hdata) (hstrings₁ _ _ hcategory) hnickname_lt hcategory_lt
  rw [hnames] at hnames'
  cases hnames'
  have hkept₂ : ∀ offset s, Apart offsetNickname (nickname.length + 1) offset (s.length + 1) →
      Apart offsetCategory (category'.length + 1) offset (s.length + 1) →
      msg₁.HasString offset s → msg₂.HasString offset s := by
    intro offset s hnickname hcategory h
    rw [hmsg₂]
    have hfirst : { msg₁ with bytes := msg₁.bytes.write offsetNickname (nickname ++ [0]) }.HasString
        offset s := by
      apply (Feiq.hasString_write_iff rfl _).mpr h
      rw [List.length_append, List.length_singleton]
      apply hnickname
    apply (Feiq.hasString_write_iff rfl _).mpr hfirst
    rw [List.length_append, List.length_singleton]
    apply hcategory
  -- they are not converted
  have hvalidate : ∀ offset s, msg₂.HasString offset s → IsUtf8 s →
      Feiq.onEntryValidate glib Feiq.block msg₂ offset = .ok msg₂ := by
    intro offset s h hs
    refine bind_eq_ok.mpr ⟨s, Feiq.cString_eq_ok_iff.mpr h, ?_⟩
    simp only [Peer.stringValidate, if_pos (hglib s hs)]
  rw [← hnickname] at hnickname_lt
  rw [← hcategory'] at hcategory_lt
  refine ⟨msg₂, ?_, hnickname₂, hcategory₂, ⟨avatarId, havatar, ?_⟩, ?_⟩
  · refine bind_eq_ok.mpr ⟨msg₁, hentry, ?_⟩
    refine bind_eq_ok.mpr ⟨msg₂, hnames, ?_⟩
    refine bind_eq_ok.mpr ⟨msg₂, hvalidate _ _ hnickname₂ hnickname_utf8, ?_⟩
    apply hvalidate _ _ hcategory₂ hcategory_utf8
  · rw [← hpath_eq]
    apply hkept₂
    · left
      simp only [offsetNickname, offsetAvatar]
      omega
    · right
      simp only [offsetCategory, offsetAvatar]
      omega
    · have hlt : offsetAvatar + path.length < Feiq.sizeofMsg := by
        simp only [offsetAvatar, Feiq.sizeofMsg]
        omega
      rw [hmsg₁]
      apply @Feiq.hasString_write { msg with avatarId := Feiq.toUnsigned 16 avatarId } _ _ hpath_nul
        hlt
  · intro offset s hbefore h
    apply hkept₂
    · right
      omega
    · right
      simp only [offsetCategory, offsetNickname] at hbefore ⊢
      omega
    · apply hkept₁ _ _ _ h
      right
      simp only [offsetAvatar, offsetNickname] at hbefore ⊢
      omega

end

/-- What is kept of a printed version has its avatar, as long as there is no other underscore. -/
theorem getAvatarId_kept (peer : Peer.Config) {n size : Nat} (havatar : peer.avatarId.toInt = n)
    (hn : n < 2 ^ 16) (hmac : underscore ∉ peer.macaddr.text)
    (husername : underscore ∉ peer.username.text) :
  Feiq.getAvatarIdFromVersion (Feiq.keptVersion (Peer.versionFields peer size).text
      peer.macaddr.text peer.username.text) = .ok n
  := by
  have hdecimal : decimal peer.avatarId.toInt = numeral 10 n := by
    rw [havatar, decimal, if_neg (by omega), Int.natAbs_natCast]
  have hlength : (numeral 10 n).length ≤ 5 := by
    apply numeral_length_le (by decide) (by decide)
    omega
  obtain ⟨rest, hrest⟩ : ∃ rest, rest = ascii "128" ++ sharp :: (peer.macaddr.text ++ sharp ::
      (ascii "0" ++ sharp :: (ascii "0" ++ sharp :: numeral 10 size))) := ⟨_, rfl⟩
  have htext : (Peer.versionFields peer size).text
      = ascii "1_lbt4" ++ underscore :: (numeral 10 n ++ sharp :: rest) := by
    have hhead : ascii "1_lbt4_" = ascii "1_lbt4" ++ [underscore] := rfl
    rw [hrest, ← hdecimal]
    simp only [Peer.versionFields, Feiq.VersionFields.text, hhead, List.append_assoc,
      List.cons_append, List.nil_append]
  have hrest_not : underscore ∉ rest := by
    rw [hrest]
    simp only [List.mem_append, List.mem_cons, not_or]
    exact ⟨by decide, by decide, hmac, by decide, by decide, by decide, by decide, by decide,
      Feiq.not_mem_numeral_ten _ (by decide)⟩
  -- the first sixteen bytes end behind the number of the avatar
  obtain ⟨kept, hkept, hkept_not⟩ : ∃ kept, Feiq.keptVersion (Peer.versionFields peer size).text
      peer.macaddr.text peer.username.text
      = ascii "1_lbt4" ++ underscore :: (numeral 10 n ++ sharp :: kept) ∧ underscore ∉ kept := by
    obtain ⟨before, hbefore⟩ : ∃ before, before = ascii "1_lbt4" ++ underscore ::
        (numeral 10 n ++ [sharp]) := ⟨_, rfl⟩
    have hbefore_length : before.length ≤ 16 := by
      have hlbt4 : (ascii "1_lbt4").length = 6 := by decide
      rw [hbefore]
      simp only [List.length_append, List.length_cons, List.length_nil, hlbt4]
      omega
    have hsplit : ∀ tail, ascii "1_lbt4" ++ underscore :: (numeral 10 n ++ sharp :: tail)
        = before ++ tail := by
      intro tail
      simp only [hbefore, List.append_assoc, List.cons_append, List.nil_append]
    have hlong : ¬ (before ++ rest).length < 16 := by
      have htexts : (ascii "1_lbt4").length = 6 ∧ (ascii "128").length = 3
          ∧ (ascii "0").length = 1 := by decide
      obtain ⟨h₁, h₂, h₃⟩ := htexts
      have hpos := List.length_pos_of_ne_nil (numeral_ne_nil (by decide : 2 ≤ 10) n)
      rw [hbefore, hrest]
      simp only [List.length_append, List.length_cons, List.length_nil, h₁, h₂, h₃]
      omega
    use rest.take (16 - before.length) ++ peer.username.text
    have hmac_lt : peer.macaddr.text.length < 32 := Nat.lt_trans peer.macaddr.fits (by decide)
    simp only [Feiq.keptVersion, if_pos hmac_lt, htext, hsplit, if_neg hlong]
    rw [List.take_append, List.take_of_length_le hbefore_length, List.append_assoc, List.mem_append,
      not_or]
    exact ⟨rfl, fun h => hrest_not (List.mem_of_mem_take h), husername⟩
  have hlast : underscore ∉ numeral 10 n ++ sharp :: kept := by
    rw [List.mem_append, List.mem_cons, not_or, not_or]
    exact ⟨Feiq.not_mem_numeral_ten _ (by decide), by decide, hkept_not⟩
  have hstart : (ascii "1_lbt").isPrefixOf
      (ascii "1_lbt4" ++ underscore :: (numeral 10 n ++ sharp :: kept)) = true := by
    apply Feiq.isPrefixOf_append
    decide
  rw [hkept, Feiq.getAvatarIdFromVersion, hstart, strrchr_append hlast]
  change Except.ok (atoi _) = _
  rw [atoi_numeral (by omega)]
  intro c hc
  cases hc
  decide

/-- What the names of a peer need to be heard as they are. -/
structure Hearable (peer : Peer.Config) : Prop where
  separable : Separable peer
  username_lt : peer.username.text.length < 32
  hostname_lt : peer.hostname.text.length < 32
  nickname_lt : peer.nickname.text.length < 32
  category_lt : peer.category.text.length < 32
  nickname_utf8 : IsUtf8 (Feiq.entryNickname peer.username.text peer.nickname.text)
  category_utf8 : IsUtf8 peer.category.text

/-- What `on_entry_callback` is given of an entry of a peer with this category that comes from an
address. -/
structure Heard (peer : Peer.Config) (category : List UInt8) (ip : Nat) (e : Contacts.EntryMsg) :
    Prop where
  ip : e.ip.text = ip2str ip
  macaddr : e.macaddr.text = peer.macaddr.text
  username : e.username.text = peer.username.text
  hostname : e.hostname.text = peer.hostname.text
  nickname : e.nickname.text = Feiq.entryNickname peer.username.text peer.nickname.text
  category : e.category.text = Feiq.entryCategory category
  avatar : ∀ n : Nat, peer.avatarId.toInt = n → n < 2 ^ 16 → underscore ∉ peer.macaddr.text →
    underscore ∉ peer.username.text → e.avatar.text = Feiq.avatarPath n

/-- The data of an entry of a peer: with its category in the entry that it broadcasts, and without
one in the entry that it replies with. -/
def EntryData (peer : Peer.Config) (data category : List UInt8) : Prop :=
  (data = peer.nickname.text ∧ category = [])
    ∨ (data = peer.nickname.text ++ 0 :: (peer.category.text ++ [0])
      ∧ category = peer.category.text)

section

variable {peer : Peer.Config} {data category : List UInt8} {pkt : Packet} {glib : Glib}

theorem EntryData.strings (h : EntryData peer data category) :
  peer.nickname.text = untilNul data
    ∧ category = untilNul (data.drop (peer.nickname.text.length + 1))
    ∧ (category = [] ∨ category = peer.category.text)
    ∧ data.length ≤ peer.nickname.text.length + peer.category.text.length + 2
  := by
  rcases h with ⟨rfl, rfl⟩ | ⟨rfl, rfl⟩
  · refine ⟨(untilNul_of_not_mem peer.nickname.nul).symm, ?_, Or.inl rfl, by omega⟩
    rw [List.drop_of_length_le (Nat.le_succ _)]
    rfl
  · refine ⟨(untilNul_string peer.nickname.nul _).symm, ?_, Or.inr rfl, ?_⟩
    · rw [List.append_cons, List.drop_left', untilNul_string peer.category.nul]
      rw [List.length_append, List.length_singleton]
    · simp only [List.length_append, List.length_cons, List.length_nil]
      omega

/-- The strings of a parsed entry. -/
theorem parsedFields_strings (hpeer : Hearable peer) (time : UInt64) (cmd : Nat)
    (hdata : EntryData peer data category) (junk : Feiq.Msg) (avatarId : Int) {msg : Feiq.Msg}
    (hmsg : msg = Feiq.parsedFields pkt junk (printedFields peer 0 time cmd data) avatarId) :
  msg.HasString offsetVersion (Feiq.keptVersion (Peer.versionFields peer 0).text
      peer.macaddr.text peer.username.text)
    ∧ msg.HasString offsetMacaddr peer.macaddr.text
    ∧ msg.HasString offsetUsername peer.username.text
    ∧ msg.HasString offsetHostname peer.hostname.text
    ∧ msg.HasString offsetData peer.nickname.text
    ∧ msg.HasString (offsetData + (peer.nickname.text.length + 1)) category
  := by
  have hsplit := @printedFields_split peer 0 cmd time data hpeer.separable
  have hmac_lt := peer.macaddr.fits
  have husername_lt := hpeer.username_lt
  have hhostname_lt := hpeer.hostname_lt
  have hnickname_lt := hpeer.nickname_lt
  have hcategory_lt := hpeer.category_lt
  obtain ⟨hnickname, hcategory, hwhich, hlength⟩ := hdata.strings
  have hcategory_le : category.length < 32 := by
    rcases hwhich with rfl | rfl
    · decide
    · exact hcategory_lt
  have hstrings : ∀ k s, k + s.length < sizeofData → s = untilNul (data.drop k) →
      msg.HasString (offsetData + k) s := by
    intro k s hlt hs
    rw [hmsg]
    apply (Feiq.parsedMsg_hasString_data _ hlt).mpr
    · exact hs
    · rw [sizeofData]
      change data.length ≤ _
      omega
  refine ⟨?_, ?_, ?_, ?_, ?_, ?_⟩
  · rw [hmsg]
    exact Feiq.parsedMsg_hasVersion hsplit.version_isField.2 peer.username.nul
      (Nat.le_of_lt_succ husername_lt)
  · apply hasString_of_string
    · rw [hmsg]
      exact Feiq.parsedMsg_macaddr peer.macaddr.nul
        (Nat.le_of_lt (Nat.lt_trans hmac_lt (by decide)))
    · simp only [offsetMacaddr, Feiq.sizeofMsg]
      omega
  · rw [hmsg]
    exact Feiq.parsedMsg_hasUsername peer.username.nul (Nat.le_of_lt_succ husername_lt)
  · apply hasString_of_string
    · rw [hmsg]
      exact Feiq.parsedMsg_hostname peer.hostname.nul (Nat.le_of_lt_succ hhostname_lt)
    · simp only [offsetHostname, Feiq.sizeofMsg]
      omega
  · apply hstrings 0
    · rw [sizeofData]
      omega
    · rw [List.drop_zero, hnickname]
  · apply hstrings
    · rw [sizeofData]
      omega
    · exact hcategory

/-- The names of an entry fit their arrays, and are in UTF-8. -/
theorem EntryData.names (hdata : EntryData peer data category) (hpeer : Hearable peer) :
  (Feiq.entryNickname peer.username.text peer.nickname.text).length < 32
    ∧ (Feiq.entryCategory category).length < 32 ∧ IsUtf8 (Feiq.entryCategory category)
  := by
  have husername_lt := hpeer.username_lt
  have hnickname_lt := hpeer.nickname_lt
  have hgroup : IsUtf8 (ascii "no group") := by
    apply isUtf8_of_ascii
    decide +kernel
  refine ⟨?_, ?_⟩
  · rw [Feiq.entryNickname]
    split <;> assumption
  · rw [Feiq.entryCategory]
    split
    · exact ⟨by decide, hgroup⟩
    · rcases hdata.strings.2.2.1 with rfl | rfl
      · contradiction
      · exact ⟨hpeer.category_lt, hpeer.category_utf8⟩

/-- An entry of a peer, parsed and handled, has the strings that were heard. -/
theorem entry_heard (hpeer : Hearable peer) (hglib : ∀ s, IsUtf8 s → glib.utf8Validate s = true)
    (time : UInt64) (cmd : Nat) (hdata : EntryData peer data category) (junk : Feiq.Msg)
    (avatarId : Int) {msg₀ : Feiq.Msg}
    (hmsg₀ : msg₀ = Feiq.parsedFields pkt junk (printedFields peer 0 time cmd data) avatarId)
    (hip : msg₀.HasString offsetIp (ip2str pkt.ip)) :
  ∃ msg e, Feiq.feiqOnEntry glib Feiq.block msg₀ = .ok msg ∧ ReceiveLoop.entryMsg msg = some e
    ∧ Heard peer category pkt.ip e
  := by
  have hip_le := Feiq.ip2str_length_le pkt.ip
  have hip_lt : (ip2str pkt.ip).length < 32 := by omega
  have hmac_lt : peer.macaddr.text.length < 32 := Nat.lt_trans peer.macaddr.fits (by decide)
  have husername_lt := hpeer.username_lt
  have hhostname_lt := hpeer.hostname_lt
  obtain ⟨hversion, hmac, husername, hhostname, hnickname, hcategory⟩ :=
    parsedFields_strings hpeer time cmd hdata junk avatarId hmsg₀
  obtain ⟨hnickname_fits, hcategory_fits, hcategory_utf8⟩ := hdata.names hpeer
  obtain ⟨msg, hentry, hnickname', hcategory', ⟨avatarId', havatar, havatar'⟩, hkept⟩ :=
    onEntry_utf8 hglib hversion husername husername_lt hnickname hcategory hnickname_fits
      hcategory_fits hpeer.nickname_utf8 hcategory_utf8
  have hpath := Feiq.avatarPath_length_lt (Feiq.toUnsigned_lt 16 avatarId')
  have hbefore : ∀ s : List UInt8, s.length < 32 → offsetHostname + s.length < offsetNickname := by
    intro s hs
    simp only [offsetHostname, offsetNickname]
    omega
  have hip' := hkept _ _ (Nat.lt_of_le_of_lt (Nat.add_le_add_right (by decide) _)
    (hbefore _ hip_lt)) hip
  have hmac' := hkept _ _ (Nat.lt_of_le_of_lt (Nat.add_le_add_right (by decide) _)
    (hbefore _ hmac_lt)) hmac
  have husername' := hkept _ _ (Nat.lt_of_le_of_lt (Nat.add_le_add_right (by decide) _)
    (hbefore _ husername_lt)) husername
  have hhostname' := hkept _ _ (hbefore _ hhostname_lt) hhostname
  refine ⟨msg, _, hentry, entryMsg_eq ⟨hip', hip_lt⟩ ⟨hmac', hmac_lt⟩ ⟨husername', husername_lt⟩
    ⟨hhostname', hhostname_lt⟩ ⟨hnickname', hnickname_fits⟩ ⟨havatar', hpath⟩
    ⟨hcategory', hcategory_fits⟩, rfl, rfl, rfl, rfl, rfl, rfl, ?_⟩
  intro n hn hlt hmac_not husername_not
  rw [getAvatarId_kept peer hn hlt hmac_not husername_not] at havatar
  cases havatar
  simp only
  rw [Feiq.toUnsigned_of_lt hlt]

end

/-! ### The callback of the program under `ifc/` -/

section

variable {σ τ : Type} {users : Contacts.Index σ} {categories : Contacts.Index τ} {glib : Glib}
  {s : State (Contacts.State σ τ)} {peer : Peer.Config} {category : List UInt8}

/-- What the loop makes of an entry of a peer, in a block that meets none in use:
`on_entry_callback` is given what it says. -/
def Hears (users : Contacts.Index σ) (categories : Contacts.Index τ) (glib : Glib)
    (s : State (Contacts.State σ τ)) (peer : Peer.Config) (category text : List UInt8) : Prop :=
  ∀ (pkt : Packet) (block : Nat × Feiq.Msg) (found : Bool) (pool : Option Nat) (found' : Bool),
    pkt.data = text → ReceiveLoop.Unused s (msgExtent block.1) →
    ∃ e, Heard peer category pkt.ip e ∧ ∀ code contacts,
      Contacts.onEntryCallback users categories s.contacts e = some (code, contacts) →
      ∃ s', (ReceiveLoop.machine (ReceiveLoop.tableCallbacks users categories) glib).run s
          (iteration pkt block found pool found') = some ([(), (), ()], s')
        ∧ s'.pc = .receiving ∧ s'.contacts = contacts ∧ s'.chatbox = s.chatbox ∧ s'.mlist = s.mlist

/-- The program under `ifc/` gives the names of an entry of a program under `src/` to its callback,
and goes on with the contacts that this makes. -/
theorem entry_to_ifc (hglib : ∀ s, IsUtf8 s → glib.utf8Validate s = true) (hpeer : Hearable peer)
    (hpc : s.pc = .receiving) (time : UInt64) {cmd : Nat} (hcmd : cmd < 2 ^ 31)
    (hentry : Peer.isEntryCommand cmd) {data : List UInt8} (hdata : EntryData peer data category) :
  Hears users categories glib s peer category (Peer.printHeader peer 0 time cmd ++ data)
  := by
  intro pkt block found pool found' hpkt hunused
  obtain ⟨f, hf⟩ : ∃ f, f = printedFields peer 0 time cmd data := ⟨_, rfl⟩
  have hsplit : f.Split := by
    rw [hf]
    apply printedFields_split hpeer.separable
  have hfits : f.Fits Feiq.block := by
    have hversion : f.version.text.length ≤ 60 := by
      rw [hf]
      apply versionFields_length_le peer (by decide)
    have hmac := f.version.mac_length_le
    have husername : f.username.length < 32 := by rw [hf]; exact hpeer.username_lt
    have hhostname : f.hostname.length < 32 := by rw [hf]; exact hpeer.hostname_lt
    have hfdata : f.data.length ≤ 65 := by
      have hlength := hdata.strings.2.2.2
      have hnickname := hpeer.nickname_lt
      have hcategory := hpeer.category_lt
      have hfdata : f.data = data := by rw [hf]; rfl
      rw [hfdata]
      omega
    constructor <;>
      simp only [Feiq.block, Feiq.sizeofMsg, offsetVersion, offsetMacaddr, offsetUsername,
        offsetHostname, offsetData] <;> omega
  have htext : pkt.data = f.text := by
    rw [hpkt, hf, printedFields_text]
  obtain ⟨avatarId, hreceive, hip⟩ := loop_accepts (ReceiveLoop.tableCallbacks users categories)
    glib hsplit hfits htext hpc hunused
  obtain ⟨msg₀, hmsg₀⟩ : ∃ msg₀, msg₀ = Feiq.parsedFields pkt block.2 f avatarId := ⟨_, rfl⟩
  rw [← hmsg₀] at hreceive hip
  obtain ⟨msg, e, hon, hread, hheard⟩ :=
    entry_heard hpeer hglib time cmd hdata block.2 avatarId (hf ▸ hmsg₀) hip
  refine ⟨e, hheard, ?_⟩
  intro code contacts hcallback
  have hcommand : msg₀.command = cmd := by
    have hatoi := atoi_numeral hcmd
      (by simp : ∀ c ∈ ([] : List UInt8).head?, digitValue 10 c = none)
    rw [List.append_nil] at hatoi
    rw [hmsg₀, hf]
    change Feiq.toUnsigned 32 (atoi (numeral 10 cmd)) = cmd
    rw [hatoi]
    apply Feiq.toUnsigned_of_lt
    omega
  obtain ⟨s₁, hs₁⟩ : ∃ s₁ : State (Contacts.State σ τ), s₁ = { s with
      pkts := s.pkts ++ [⟨pkt, []⟩]
      msgs := s.msgs ++ [⟨msg₀, block.1, 0⟩]
      pc := .handling s.pkts.length s.msgs.length } := ⟨_, rfl⟩
  rw [← hs₁] at hreceive
  have hmsgs : s₁.msgs[s.msgs.length]? = some ⟨msg₀, block.1, 0⟩ := by
    rw [hs₁]
    apply List.getElem?_concat_length
  have hcontacts : s₁.contacts = s.contacts := by rw [hs₁]
  have hcallback' : (ReceiveLoop.tableCallbacks users categories).onEntryCallback s₁.contacts msg
      = some contacts := by
    simp only [ReceiveLoop.tableCallbacks, hread, hcontacts, hcallback, Option.bind_eq_bind,
      Option.bind_some]
  have hentry' : msg₀.command &&& 0xff = ReceiveLoop.CMD_BR_ENTRY
      ∨ msg₀.command &&& 0xff = ReceiveLoop.CMD_ANSENTRY := by
    rw [hcommand]
    exact hentry
  have hhandle : (ReceiveLoop.machine (ReceiveLoop.tableCallbacks users categories) glib).step s₁
      (.handle found) = some ((), { ({ s₁.setMsg s.msgs.length msg with contacts } :
        State (Contacts.State σ τ)) with pc := .releasing s.pkts.length }) := by
    have hpc₁ : s₁.pc = .handling s.pkts.length s.msgs.length := by rw [hs₁]
    simp only [ReceiveLoop.machine, hpc₁, ReceiveLoop.feiqHandleMsg, hmsgs, Option.bind_eq_bind,
      Option.bind_some, if_pos hentry', hon, hcallback', Option.map_some]
  obtain ⟨s', hrun, hpc', hcontacts', hchatbox, hmlist, -⟩ :=
    loop_iteration _ glib hreceive hhandle pool found'
  refine ⟨s', hrun, hpc', hcontacts', ?_, ?_⟩
  · rw [hchatbox, hs₁]
    rfl
  · rw [hmlist, hs₁]
    rfl

/-- An announcement of a program under `ifc/`, where the program under `src/` does not list its
address and has another username: the names that are announced are listed, and the answer is heard,
without a category. -/
theorem announcement_answered {a : Announcement} (ha : a.Announceable)
    (hmac : a.macaddr.length < 20)
    (hcategory : a.category.length ≤ (a.header ++ a.nickname).length + 1) {glib' : Glib}
    (hglib : ∀ s, IsUtf8 s → glib.utf8Validate s = true)
    (hglib' : ∀ s, IsUtf8 s → glib'.utf8Validate s = true) (hpeer : Hearable peer)
    (husername : a.username ≠ peer.username.text) (hpc : s.pc = .receiving) (beyond : UInt8)
    (mtime : Nat) :
  ∃ pkt, a.broadcast (some beyond) mtime = .ok (0, some pkt)
    ∧ ∀ time rest ulist ip port, ip ∉ Peer.ipaddrs ulist → ∃ text,
      Peer.processEntry glib' peer time rest ulist ip port pkt.data
        = .ok (ulist ++ [announcedUser a ip], some text)
      ∧ Hears users categories glib s peer [] text
  := by
  obtain ⟨pkt, hbroadcast, hlisted⟩ := announcement_listed ha hglib' hmac hcategory beyond mtime
  refine ⟨pkt, hbroadcast, ?_⟩
  intro time rest ulist ip port hip
  have hnone : Peer.updateUser ulist (announcedUser a ip) = none := Peer.updateUser_eq_none.mpr hip
  have hprocess := hlisted peer time rest ulist ip port
  rw [hnone, if_pos husername] at hprocess
  exact ⟨_, hprocess, entry_to_ifc hglib hpeer hpc time (by decide) (by decide) (Or.inl ⟨rfl, rfl⟩)⟩

end

theorem configB_hearable :
  Hearable Peer.configB
  where
  separable := ⟨⟨by decide, by decide, by decide⟩, by decide⟩
  username_lt := by decide
  hostname_lt := by decide
  nickname_lt := by decide
  category_lt := by decide
  nickname_utf8 := isUtf8_of_ascii (by decide +kernel)
  category_utf8 := isUtf8_of_ascii (by decide +kernel)

/-- The category goes with the entry that is broadcast. -/
theorem entry_to_ifc_b :
  Hears finiteMap finiteMap Peer.asciiGlib
    (ReceiveLoop.start (Contacts.start (fun _ => none) fun _ => none) []) Peer.configB (ascii "b")
    (Peer.printHeader Peer.configB 0 7 0x101 ++ (ascii "b" ++ 0 :: (ascii "b" ++ [0])))
  := entry_to_ifc (fun _ _ => rfl) configB_hearable rfl 7 (by decide) (by decide)
    (Or.inr ⟨rfl, rfl⟩)

theorem announcement_answered_even :
  ∃ pkt, Announcement.evenAnnouncement.broadcast (some 0) 0 = .ok (0, some pkt)
    ∧ ∀ time rest ulist ip port, ip ∉ Peer.ipaddrs ulist → ∃ text,
      Peer.processEntry Peer.asciiGlib Peer.configB time rest ulist ip port pkt.data
        = .ok (ulist ++ [announcedUser Announcement.evenAnnouncement ip], some text)
      ∧ Hears finiteMap finiteMap Peer.asciiGlib
        (ReceiveLoop.start (Contacts.start (fun _ => none) fun _ => none) []) Peer.configB [] text
  := announcement_answered Announcement.evenAnnouncement_announceable (by decide)
    (by decide +kernel) (fun _ _ => rfl) (fun _ _ => rfl) configB_hearable (by decide) rfl 0 0

end Mixed

end IFreeChat
