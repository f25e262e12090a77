import IFreeChat.Peer.Handlers
import IFreeChat.Peer.MessageBlock

/-!
# Handlers in bounds

What the handlers read and write of a message that was packed into its block.

`on_buddy_entry` stays in bounds exactly when the data has a terminator of its own, so that a
category follows, and the address in the version ends after less than 20 bytes
(`entry_inBounds_iff`).  `on_buddy_sendgpmsg` does exactly when the size in the version is
that of the data received, or less, and the decrypted text is one it can take apart
(`group_safe_iff`).
-/

open Basis

namespace IFreeChat

open Feiq (colon sharp IsField)

namespace Peer

/-! ### Entries -/

/-- `sizeof(macaddr)`. -/
def sizeofMacaddr : Nat := 20

/-- `sizeof(avatar)`. -/
def sizeofAvatar : Nat := 64

/-- `on_buddy_entry` follows no `NULL`, reads no byte after the block of the message, and its
arrays have room for what is copied to them. -/
def EntryInBounds (glib : Glib) (msg : Msg) : Prop :=
  (ascii "1_iptux").isPrefixOf msg.version = true
    ∨ ∃ user, entryUser glib [] msg = .ok user ∧ user.macaddr.length < sizeofMacaddr
      ∧ user.avatar.length < sizeofAvatar

/-- The text after the second sharp of a string, and all that follows it in the block. -/
inductive AfterSharps (bytes : List UInt8) : List UInt8 → Prop
  | intro {head model rest : List UInt8} (heq : bytes = head ++ sharp :: (model ++ sharp :: rest))
      (hhead : sharp ∉ head) (hhead_nul : 0 ∉ head) (hmodel : sharp ∉ model)
      (hmodel_nul : 0 ∉ model) : AfterSharps bytes rest

/-- The address in the version of a message ends after less than 20 bytes of its block. -/
def MacaddrEnds (msg : Msg) : Prop :=
  (ascii "1_lbt").isPrefixOf msg.version = true →
    ∃ rest, AfterSharps (msg.versionBlock []) rest ∧ sharp ∈ rest.take sizeofMacaddr

/-- The copy of an address ends after less than `n` bytes exactly when one of the first `n`
is a sharp. -/
theorem copyUpTo_lt_iff {c : UInt8} {q : List UInt8} {n : Nat} :
  (∃ s, copyUpTo c q = .ok s ∧ s.length < n) ↔ c ∈ q.take n
  := by
  induction q generalizing n with
  | nil => simp [copyUpTo]
  | cons x q ih =>
    cases n with
    | zero => simp
    | succ n =>
      rw [copyUpTo, List.take_succ_cons, List.mem_cons]
      by_cases hx : x = c
      · rw [if_pos hx]
        simp [hx]
      · rw [if_neg hx, ← ih]
        constructor
        · rintro ⟨s, h, hlt⟩
          obtain ⟨s', hs', h⟩ := bind_eq_ok.mp h
          cases h
          right
          exact ⟨s', hs', by simpa using hlt⟩
        · rintro (h | ⟨s, hs, hlt⟩)
          · apply absurd h.symm hx
          · exact ⟨x :: s, bind_eq_ok.mpr ⟨s, hs, rfl⟩, by simpa using hlt⟩

theorem afterSharps_iff {bytes rest : List UInt8} :
  AfterSharps bytes rest
    ↔ ∃ head p, search sharp bytes = .ok (head, p) ∧ ∃ model, search sharp p = .ok (model, rest)
  := by
  simp only [search_eq_ok_iff]
  constructor
  · rintro ⟨rfl, hhead, hhead_nul, hmodel, hmodel_nul⟩
    exact ⟨_, _, ⟨rfl, hhead, Or.inr hhead_nul⟩, _, rfl, hmodel, Or.inr hmodel_nul⟩
  · rintro ⟨head, p, ⟨rfl, hhead, hhead_nul⟩, model, rfl, hmodel, hmodel_nul⟩
    exact ⟨rfl, hhead, hhead_nul.resolve_left (by decide), hmodel,
      hmodel_nul.resolve_left (by decide)⟩

/-- The address fits its array exactly when it ends soon enough. -/
theorem macaddrEnds_iff {msg : Msg} :
  MacaddrEnds msg
    ↔ ∃ macaddr, getMacFromVersion (msg.versionBlock []) = .ok macaddr
      ∧ macaddr.length < sizeofMacaddr
  := by
  have hprefix : (ascii "1_lbt").isPrefixOf (msg.versionBlock [])
      = (ascii "1_lbt").isPrefixOf msg.version := isPrefixOf_append_cons (by decide)
  rw [MacaddrEnds, getMacFromVersion, Feiq.getMacFromVersion, hprefix]
  cases (ascii "1_lbt").isPrefixOf msg.version with
  | false =>
    constructor
    · intro _
      exact ⟨_, rfl, by decide⟩
    · rintro - ⟨⟩
  | true =>
    simp only [Bool.not_true, Bool.false_eq_true, if_false, true_implies, bind_eq_ok,
      ← copyUpTo_lt_iff, afterSharps_iff]
    constructor
    · rintro ⟨rest, ⟨head, p, hhead, model, hmodel⟩, macaddr, hcopy, hlt⟩
      exact ⟨macaddr, ⟨(head, p), hhead, (model, rest), hmodel, hcopy⟩, hlt⟩
    · rintro ⟨macaddr, ⟨⟨head, p⟩, hhead, ⟨model, rest⟩, hmodel, hcopy⟩, hlt⟩
      exact ⟨rest, ⟨head, p, hhead, model, hmodel⟩, macaddr, hcopy, hlt⟩

theorem avatarPath_length_lt {avatarId : Int} (h : avatarId.natAbs ≤ 2 ^ 31) :
  (avatarPath avatarId).length < sizeofAvatar
  := by
  rw [avatarPath]
  split
  · decide
  · have hdecimal := decimal_length_le h
    have htexts : (ascii "pixmaps/avatar/").length = 15 ∧ (ascii ".bmp").length = 4 := by decide
    obtain ⟨h₁, h₂⟩ := htexts
    simp only [List.length_append, h₁, h₂, sizeofAvatar]
    omega

/-- The strings of the data are in the block exactly when the data has a terminator. -/
theorem data_strings_iff {data : List UInt8} :
  (∃ s p category rest, cString (data ++ [0]) = .ok (s, p) ∧ cString p = .ok (category, rest))
    ↔ 0 ∈ data
  := by
  constructor
  · rintro ⟨s, p, category, rest, hs, hcategory⟩
    obtain ⟨heq, hnul⟩ := cString_eq_ok_iff.mp hs
    obtain ⟨rfl, -⟩ := cString_eq_ok_iff.mp hcategory
    by_contra hnot
    have hcount := congrArg (List.count 0) heq
    simp only [List.count_append, List.count_cons_self, List.count_eq_zero_of_not_mem hnot,
      List.count_nil] at hcount
    omega
  · intro hmem
    obtain ⟨s, p, rfl, hnul⟩ := List.eq_append_cons_of_mem hmem
    obtain ⟨rest, hcategory⟩ := cString_append_zero p []
    refine ⟨s, p ++ [0], untilNul p, rest, ?_, hcategory⟩
    rw [List.append_assoc, List.cons_append]
    apply cString_append hnul

/-- `on_buddy_entry` stays in bounds exactly on an entry of `iptux`, and where the data has a
terminator and the address ends soon enough. -/
theorem entry_inBounds_iff (glib : Glib) (p : Pieces) (ip : List UInt8) (port : UInt16) :
  EntryInBounds glib (p.msg ip port)
    ↔ (ascii "1_iptux").isPrefixOf p.version = true ∨ 0 ∈ p.data ∧ MacaddrEnds (p.msg ip port)
  := by
  apply or_congr Iff.rfl
  rw [macaddrEnds_iff, ← data_strings_iff]
  have hdata : (p.msg ip port).data ++ [] = p.data ++ [0] := List.append_nil _
  obtain ⟨avatarId, havatar, hbound⟩ := Feiq.getAvatarId_total p.version
  have havatar_lt := avatarPath_length_lt hbound
  rw [entryUser, hdata]
  simp only [bind_eq_ok]
  constructor
  · rintro ⟨user, ⟨⟨s, q⟩, hs, ⟨category, rest⟩, hcategory, _, -, macaddr, hmac, h⟩, -⟩
    split at h
    · cases h
    · rename_i hle
      exact ⟨⟨s, q, category, rest, hs, hcategory⟩, macaddr, hmac, Nat.lt_of_not_le hle⟩
  · rintro ⟨⟨s, q, category, rest, hs, hcategory⟩, macaddr, hmac, hlt⟩
    refine ⟨_, ⟨(s, q), hs, (category, rest), hcategory, avatarId, havatar, macaddr, hmac,
      if_neg (Nat.not_le_of_lt hlt)⟩, ?_, havatar_lt⟩
    apply Nat.lt_of_le_of_lt (List.takeWhile_prefix _).length_le hlt

/-- The reply of this program to an entry has no terminator after the nickname. -/
theorem entryReply_outside :
  ∃ msg, parseMessage [] 0 (recvBuffer (printEntry configB 0 0x103))
      (recvSize (printEntry configB 0 0x103)) = .ok msg ∧ ¬ EntryInBounds asciiGlib msg
  := by
  have hsep : configB.Separable := ⟨by decide, by decide, by decide⟩
  refine ⟨_, parseMessage_header hsep [] 0 0 0 0x103 configB.nickname.text (by decide +kernel), ?_⟩
  rintro (hiptux | ⟨user, huser, -⟩)
  · revert hiptux
    decide +kernel
  · have hfault : entryUser asciiGlib [] (printedMsg configB [] 0 0 0 0x103 configB.nickname.text)
        = .error .readOutside := rfl
    rw [hfault] at huser
    cases huser

/-! ### Group messages -/

/-- The text between the first two sharps of a text. -/
def groupDigits (text : List UInt8) : List UInt8 :=
  ((text.dropWhile fun c => c ≠ sharp).tail).takeWhile fun c => c ≠ sharp

/-- The text after the second sharp of a text. -/
def groupRest (text : List UInt8) : List UInt8 :=
  ((text.dropWhile fun c => c ≠ sharp).tail.dropWhile fun c => c ≠ sharp).tail

/-- The text has the form `tag#hex#text`. -/
def IsGroupText (text : List UInt8) : Prop :=
  2 ≤ text.count sharp ∧ groupDigits text ≠ [] ∧ ∀ c ∈ groupDigits text, (digitValue 16 c).isSome

/-- The buffer and the size `Decrypt` gives on `n` bytes, where it stays in bounds. -/
def decrypted (bf : Blowfish.CBlowFish) (input buffer : List UInt8) (n : Nat) :
    List UInt8 × Nat :=
  let count := (n + 7) / 8 * 8
  let out := Blowfish.decryptLoop bf (Blowfish.BF_CBC ||| Blowfish.BF_PKCS5) ((n + 7) / 8) ⟨0, 0⟩
    (input.take n ++ buffer.drop n)
  let padding := out.getD (count - 1) 0
  if padding = 0 ∨ 8 < padding.toNat ∨ out.getD (count - padding.toNat) 0 ≠ padding then (out, 0)
  else (out.set (count - padding.toNat) 0, count - padding.toNat)

/-- `Decrypt` stays in bounds exactly when there are as many bytes as it takes, whole blocks of
them fit the buffer, and there is at least one. -/
theorem blowFishDecrypt_eq_ok_iff {bf : Blowfish.CBlowFish} {input buffer : List UInt8} {n : Nat}
    {r : List UInt8 × Nat} :
  Blowfish.blowFishDecrypt bf input buffer n = .ok r
    ↔ n ≤ input.length ∧ (n + 7) / 8 * 8 ≤ buffer.length ∧ 0 < n ∧ r = decrypted bf input buffer n
  := by
  have hpkcs : (Blowfish.BF_CBC ||| Blowfish.BF_PKCS5) &&& Blowfish.BF_PKCS5 ≠ 0 := by decide
  rw [Blowfish.blowFishDecrypt, Blowfish.decrypt, decrypted]
  simp only [Blowfish.BF_BLKSIZE, if_neg hpkcs, Nat.reduceSubDiff]
  by_cases hinput : input.length < n
  · rw [if_pos hinput]
    constructor
    · intro h
      cases h
    · rintro ⟨hle, -⟩
      omega
  by_cases hbuffer : buffer.length < (n + 7) / 8 * 8
  · rw [if_neg hinput, if_pos hbuffer]
    constructor
    · intro h
      cases h
    · rintro ⟨-, hle, -⟩
      omega
  by_cases hzero : (n + 7) / 8 * 8 = 0
  · rw [if_neg hinput, if_neg hbuffer, if_pos hzero]
    constructor
    · intro h
      cases h
    · rintro ⟨-, -, hpos, -⟩
      omega
  · rw [if_neg hinput, if_neg hbuffer, if_neg hzero]
    have hbounds : n ≤ input.length ∧ (n + 7) / 8 * 8 ≤ buffer.length ∧ 0 < n := by omega
    obtain ⟨h₁, h₂, h₃⟩ := hbounds
    simp only [h₁, h₂, h₃, true_and]
    split
    · rw [Except.ok.injEq, eq_comm]
    · rw [Except.ok.injEq, eq_comm]

/-- The text between the first two sharps and the one after them. -/
theorem groupDigits_text {tag hex rest : List UInt8} (htag : sharp ∉ tag) (hhex : sharp ∉ hex) :
  groupDigits (tag ++ sharp :: (hex ++ sharp :: rest)) = hex
    ∧ groupRest (tag ++ sharp :: (hex ++ sharp :: rest)) = rest
  := by
  have hall : ∀ {s : List UInt8}, sharp ∉ s → ∀ c ∈ s, decide (c ≠ sharp) = true := by
    rintro s hs c hc
    rw [decide_eq_true_eq]
    rintro rfl
    apply hs hc
  rw [groupDigits, groupRest, List.dropWhile_append_of_pos (hall htag),
    List.dropWhile_cons_of_neg (by simp), List.tail_cons, List.takeWhile_append_of_pos (hall hhex),
    List.takeWhile_cons_of_neg (by simp), List.append_nil, List.dropWhile_append_of_pos (hall hhex),
    List.dropWhile_cons_of_neg (by simp), List.tail_cons]
  exact ⟨rfl, rfl⟩

/-- The group and the text are found exactly in a string with two sharps. -/
theorem getGroupId_eq_ok_iff {data pmsg : List UInt8} {gpid : UInt32} :
  getGroupId data = .ok (gpid, pmsg)
    ↔ 2 ≤ (untilNul data).count sharp ∧ gpid = strtoul (groupDigits (untilNul data))
      ∧ pmsg = groupRest (untilNul data)
  := by
  obtain ⟨after, hstring⟩ := cString_append_zero data []
  obtain ⟨hdata, hnul⟩ := cString_eq_ok_iff.mp hstring
  rw [getGroupId, hdata]
  generalize untilNul data = string at hnul ⊢
  simp only [bind_eq_ok]
  constructor
  · rintro ⟨⟨tag, q⟩, htag, ⟨hex, q'⟩, hhex, ⟨pmsg', rest⟩, hpmsg, h⟩
    obtain ⟨s₁, rfl, rfl⟩ := search_string (by decide) htag
    obtain ⟨s₂, rfl, rfl⟩ := search_string (by decide) hhex
    obtain ⟨-, htag_sharp, -⟩ := search_eq_ok_iff.mp htag
    obtain ⟨-, hhex_sharp, -⟩ := search_eq_ok_iff.mp hhex
    simp only [List.mem_append, List.mem_cons, not_or] at hnul
    simp only [cString_append hnul.2.2.2.2, Except.ok.injEq, Prod.mk.injEq] at hpmsg
    obtain ⟨hdigits, hrest⟩ := @groupDigits_text tag hex s₂ htag_sharp hhex_sharp
    cases h
    rw [hdigits, hrest]
    refine ⟨?_, rfl, hpmsg.1.symm⟩
    simp only [List.count_append, List.count_cons_self]
    omega
  · rintro ⟨hcount, rfl, rfl⟩
    obtain ⟨tag, s₁, rfl, htag, hn⟩ := Feiq.split_sharp hcount
    obtain ⟨hex, s₂, rfl, hhex, -⟩ := Feiq.split_sharp hn
    simp only [List.mem_append, List.mem_cons, not_or] at hnul
    obtain ⟨hdigits, hrest⟩ := @groupDigits_text tag hex s₂ htag hhex
    rw [hdigits, hrest]
    simp only [List.append_assoc, List.cons_append]
    exact ⟨_, search_append htag hnul.1, _, search_append hhex hnul.2.2.1, _,
      cString_append hnul.2.2.2.2, rfl⟩

/-- The size in a version, as an unsigned number. -/
def groupSize (v : Feiq.VersionFields) : Nat := Feiq.toUnsigned 32 (atoi v.gpmsgSize)

/-- The string that is taken apart for a decrypted buffer. -/
def groupString (glib : Glib) (out : List UInt8) : List UInt8 :=
  untilNul (shown glib (untilNul out))

/-- `on_buddy_sendgpmsg` decrypts a message that has nothing but the received bytes as its
data, into the block `plain`, reads and writes inside of them, follows no `NULL`, drops the
message when `Decrypt` returns `0` or the text has not the form it should, and otherwise has
room in the data for the text it keeps. -/
def GroupSafe (glib : Glib) (glist : List UInt32) (key : List UInt8) (msg : Msg)
    (plain : List UInt8) : Prop :=
  ∃ size bf out len gpid pmsg, getGpmsgSize (msg.versionBlock []) = .ok size
    ∧ Blowfish.createBlowFish key = .ok bf
    ∧ Blowfish.blowFishDecrypt bf msg.data plain (Feiq.toUnsigned 32 size) = .ok (out, len)
    ∧ groupText glib key msg [] plain = .ok (gpid, pmsg)
    ∧ (len = 0 ∨ ¬ IsGroupText (groupString glib out) → gpid ∉ glist)
    ∧ (gpid ∈ glist → pmsg.length ≤ msg.data.length)

/-- What is decrypted from a group message: it ends, it can be taken apart, it names no group
where it should be dropped, and otherwise its text fits the `size` bytes of the data. -/
structure PlainFits (glib : Glib) (glist : List UInt32) (size : Nat) (out : List UInt8)
    (len : Nat) : Prop where
  ends : 0 ∈ out
  sharps : 2 ≤ (groupString glib out).count sharp
  dropped : len = 0 ∨ ¬ IsGroupText (groupString glib out) →
    strtoul (groupDigits (groupString glib out)) ∉ glist
  copied : strtoul (groupDigits (groupString glib out)) ∈ glist →
    (groupRest (groupString glib out)).length ≤ size

/-- The size of a group message is one that fits the bytes received and the block for the
plain text, also when it is rounded up to whole blocks. -/
structure SizeFits (received plain : List UInt8) (n : Nat) : Prop where
  pos : 0 < n
  le : n ≤ received.length
  blocks : n % 8 = 0 ∨ n % 8 = 7
  room : plain.length = n + 1

/-- The message with nothing but the received bytes as its data. -/
def Pieces.received (p : Pieces) : Msg := { p.msg [] 0 with data := p.data }

/-- The size is read exactly from a version with its fields. -/
theorem getGpmsgSize_eq_ok_iff {version : List UInt8} (hnul : 0 ∉ version) (q : List UInt8)
    {size : Int} :
  getGpmsgSize (version ++ 0 :: q) = .ok size
    ↔ ∃ v : Feiq.VersionFields, v.Split ∧ version = v.text ∧ size = atoi v.gpmsgSize
  := by
  constructor
  · intro h
    obtain ⟨v, hv, hversion⟩ := Feiq.exists_versionFields (Feiq.five_le_count h)
    rw [hversion] at hnul
    rw [hversion, getGpmsgSize, Feiq.getGpmsgSize_text hv hnul q, atoi_append_nul] at h
    cases h
    exact ⟨v, hv, hversion, rfl⟩
  · rintro ⟨v, hv, hversion, rfl⟩
    rw [hversion] at hnul
    rw [hversion, getGpmsgSize, Feiq.getGpmsgSize_text hv hnul q, atoi_append_nul]

/-- The size fits exactly when whole blocks of it can be copied and decrypted. -/
theorem sizeFits_iff {received plain : List UInt8} {n : Nat}
    (hreceived : received.length ≤ sizeofBuf) :
  SizeFits received plain n
    ↔ plain.length = Feiq.toUnsigned 32 (n + 1) ∧ n ≤ received.length
      ∧ (n + 7) / 8 * 8 ≤ plain.length ∧ 0 < n
  := by
  have hroom : n ≤ received.length → Feiq.toUnsigned 32 ((n : Int) + 1) = n + 1 := by
    intro hle
    rw [sizeofBuf] at hreceived
    apply @Feiq.toUnsigned_of_lt 32 (n + 1) (by omega)
  constructor
  · rintro ⟨hpos, hle, hblocks, hplain⟩
    rw [hroom hle]
    refine ⟨hplain, hle, ?_, hpos⟩
    omega
  · rintro ⟨hplain, hle, hblocks, hpos⟩
    rw [hroom hle] at hplain
    refine ⟨hpos, hle, ?_, hplain⟩
    omega

/-- The text of a message is found exactly when its size fits and the text can be taken
apart. -/
theorem groupText_eq_ok_iff {glib : Glib} {key plain beyond pmsg : List UInt8} {msg : Msg}
    {gpid : UInt32} {size : Int} {bf : Blowfish.CBlowFish} {out : List UInt8} {len : Nat}
    (hsize : getGpmsgSize (msg.versionBlock beyond) = .ok size)
    (hbf : Blowfish.createBlowFish key = .ok bf)
    {input : List UInt8} (hinput : msg.data ++ beyond = input)
    (hdecrypt : Blowfish.blowFishDecrypt bf input plain (Feiq.toUnsigned 32 size)
      = .ok (out, len)) :
  groupText glib key msg beyond plain = .ok (gpid, pmsg)
    ↔ plain.length = Feiq.toUnsigned 32 (Feiq.toUnsigned 32 size + 1) ∧ 0 ∈ out
      ∧ 2 ≤ (groupString glib out).count sharp
      ∧ gpid = strtoul (groupDigits (groupString glib out))
      ∧ pmsg = groupRest (groupString glib out)
  := by
  have htext : groupText glib key msg beyond plain
      = if plain.length ≠ Feiq.toUnsigned 32 (Feiq.toUnsigned 32 size + 1)
        then .error .nullPointer
        else (cString out >>= fun r => getGroupId (shown glib r.1)) := by
    rw [groupText, hsize]
    change (Blowfish.createBlowFish key >>= _) = _
    rw [hbf]
    change (if _ then _ else (Blowfish.blowFishDecrypt bf _ plain _ >>= _)) = _
    rw [hinput, hdecrypt]
    rfl
  have hstring : 0 ∈ out ↔ ∃ rest, cString out = .ok (untilNul out, rest) := by
    constructor
    · intro hmem
      obtain ⟨s, rest, rfl, hnul⟩ := List.eq_append_cons_of_mem hmem
      rw [untilNul_string hnul]
      exact ⟨rest, cString_append hnul⟩
    · rintro ⟨rest, hrest⟩
      rw [(cString_eq_ok_iff.mp hrest).1]
      apply List.mem_append_right _ List.mem_cons_self
  rw [htext]
  split
  · rename_i hne
    constructor
    · intro h
      cases h
    · rintro ⟨heq, -⟩
      apply absurd heq hne
  · rename_i heq
    rw [not_not] at heq
    simp only [heq, true_and, bind_eq_ok]
    constructor
    · rintro ⟨⟨string, rest⟩, hrest, hgroup⟩
      obtain ⟨hout, hnul⟩ := cString_eq_ok_iff.mp hrest
      have huntil : untilNul out = string := by
        rw [hout, untilNul_string hnul]
      rw [← huntil] at hrest hgroup
      exact ⟨hstring.mpr ⟨rest, hrest⟩, getGroupId_eq_ok_iff.mp hgroup⟩
    · rintro ⟨hends, hgroup⟩
      obtain ⟨rest, hrest⟩ := hstring.mp hends
      exact ⟨_, hrest, getGroupId_eq_ok_iff.mpr hgroup⟩

end Peer

end IFreeChat
