import IFreeChat.Ifc.Outgoing
import IFreeChat.Peer.GroupMessage

/-!
# Outgoing texts

`onSendGpmessage` prints the text of a group message into `plain`, encrypts it into `cipher`
and copies the cipher text behind the header in `buf`, one byte more than it is long.  Where
the array `cipher` is full, this is the byte after it.

A text of the input box reaches the network whole, or is refused, exactly when it is short
enough for the arrays of its path (`outgoing_text_iff`).
-/

open Basis

namespace IFreeChat

namespace Peer

/-! ### The code -/

/-- The size of the array `buf` of `on_send_gpmessage`. -/
def sizeofSendBuf : Nat := 65535

/-- The line above the text in the chat box, `%s(%s):\n`. -/
def gpmessageTitle (cfg : Config) (ctime : CArray 26) : List UInt8 :=
  cfg.nickname.text ++ ascii "(" ++ ctime.text ++ ascii "):\n"

/-- The header for a cipher text of `len` bytes in `buf`, and `len + 1` bytes from `cipher`
on behind it, where `beyond` are the bytes after the array that may be read. -/
def fillBuf (cfg : Config) (time : UInt64) (cipher beyond : List UInt8) (len : Nat) :
    Except Fault (List UInt8) :=
  let buf := printHeader cfg len time 4194339
  let size := buf.length
  if sizeofSendBuf < size + 1 ∨ sizeofSendBuf < size + (len + 1) then .error .writeOutside
  else if (cipher ++ beyond).length < len + 1 then .error .readOutside
  else .ok (buf ++ (cipher ++ beyond).take (len + 1))

/-- `on_send_gpmessage`, where `ctime` is the text of the time and `cipher` what the array
holds: the datagram it sends, or none for an empty input box. -/
def onSendGpmessage (cfg : Config) (groupId : UInt32) (time : UInt64) (ctime : CArray 26)
    (cipher : Vector UInt8 sizeofPlain) (beyond msg : List UInt8) :
    Except Fault (Option (List UInt8)) :=
  if msg = [] then .ok none
  else if sizeofSendBuf < (gpmessageTitle cfg ctime).length + 1 then .error .writeOutside
  else do
    let bf ← Blowfish.createBlowFish cfg.macaddr.text
    let plain := printPlain groupId msg
    if sizeofPlain < plain.length + 1 then .error .writeOutside
    else do
      let (cipher, len) ← Blowfish.blowFishEncrypt bf (plain ++ [0]) cipher.toList plain.length
      let buf ← fillBuf cfg time cipher beyond len
      .ok (some buf)

/-! ### Group texts -/

/-- The datagram has the cipher text of the whole text: the key of the sender decrypts it to
the mark, the group and the text, whatever follows it. -/
def CarriesText (cfg : Config) (groupId : UInt32) (time : UInt64) (msg datagram : List UInt8) :
    Prop :=
  ∃ bf cipher last, Blowfish.createBlowFish cfg.macaddr.text = .ok bf
    ∧ datagram = printHeader cfg cipher.length time 4194339 ++ (cipher ++ [last])
    ∧ ∀ rest buffer, cipher.length ≤ buffer.length →
      ∃ tail len, Blowfish.blowFishDecrypt bf (cipher ++ rest) buffer cipher.length
        = .ok (printPlain groupId msg ++ 0 :: tail, len)

/-- The text is refused, or a datagram with the whole text is sent. -/
def SendsGroupText (cfg : Config) (groupId : UInt32) (time : UInt64) (ctime : CArray 26)
    (cipher : Vector UInt8 sizeofPlain) (beyond msg : List UInt8) : Prop :=
  onSendGpmessage cfg groupId time ctime cipher beyond msg = .ok none
    ∨ ∃ datagram, onSendGpmessage cfg groupId time ctime cipher beyond msg = .ok (some datagram)
      ∧ CarriesText cfg groupId time msg datagram

section

variable (cfg : Config) (groupId : UInt32) (time : UInt64) (ctime : CArray 26)
  (cipher : Vector UInt8 sizeofPlain) (beyond : List UInt8) {msg : List UInt8}

theorem gpmessageTitle_length_le :
  (gpmessageTitle cfg ctime).length ≤ 92
  := by
  have hnickname := cfg.nickname.fits
  have hctime := ctime.fits
  have hopen : (ascii "(").length = 1 := rfl
  have hclose : (ascii "):\n").length = 3 := rfl
  simp only [gpmessageTitle, List.length_append, hopen, hclose]
  omega

/-- The bytes that are copied behind the header fit `buf`; they must be there to be read. -/
theorem fillBuf_eq_ok_iff {cfg : Config} {time : UInt64} {cipher beyond : List UInt8} {len : Nat}
    (hlen : len ≤ sizeofPlain) {buf : List UInt8} :
  fillBuf cfg time cipher beyond len = .ok buf
    ↔ len < (cipher ++ beyond).length
      ∧ buf = printHeader cfg len time 4194339 ++ (cipher ++ beyond).take (len + 1)
  := by
  rw [sizeofPlain] at hlen
  have hheader := @printHeader_length_le cfg len 4194339 time (by omega) (by decide)
  rw [fillBuf, if_neg (by rw [sizeofSendBuf]; omega)]
  split
  · rename_i hshort
    constructor
    · intro h
      cases h
    · rintro ⟨h, -⟩
      omega
  · rename_i hshort
    constructor
    · intro h
      cases h
      exact ⟨by omega, rfl⟩
    · rintro ⟨-, rfl⟩
      rfl

omit cfg groupId time ctime beyond in
/-- What has room in `plain` has room in `cipher`, padded. -/
theorem blowFishEncrypt_plain (bf : Blowfish.CBlowFish) {plain : List UInt8}
    (hplain : plain.length < sizeofPlain) :
  ∃ text, text.length = (plain.length / 8 + 1) * 8
    ∧ Blowfish.blowFishEncrypt bf (plain ++ [0]) cipher.toList plain.length
      = .ok (text ++ cipher.toList.drop text.length, text.length)
    ∧ ∀ rest buffer, text.length ≤ buffer.length →
      ∃ tail, Blowfish.blowFishDecrypt bf (text ++ rest) buffer text.length
        = .ok (plain ++ 0 :: tail, plain.length)
  := by
  apply Blowfish.decrypt_encrypt bf plain [0]
  rw [sizeofPlain] at hplain
  rw [Vector.length_toList, Blowfish.BF_BLKSIZE, sizeofPlain]
  omega

omit beyond in
/-- A text of a box that is not empty is sent as `sendGpmessage` says, where nothing after the
array `cipher` may be read. -/
theorem onSendGpmessage_eq_sendGpmessage (hmsg : msg ≠ []) :
  onSendGpmessage cfg groupId time ctime cipher [] msg
    = (sendGpmessage cfg groupId time cipher msg).map some
  := by
  have htitle := gpmessageTitle_length_le cfg ctime
  rw [onSendGpmessage, if_neg hmsg, if_neg (by rw [sizeofSendBuf]; omega), sendGpmessage]
  cases Blowfish.createBlowFish cfg.macaddr.text with
  | error e => rfl
  | ok bf =>
    change (if sizeofPlain < (printPlain groupId msg).length + 1 then _ else _)
      = Except.map some (if sizeofPlain ≤ (printPlain groupId msg).length then _ else _)
    by_cases hplain : sizeofPlain ≤ (printPlain groupId msg).length
    · rw [if_pos (by omega), if_pos hplain]
      rfl
    · rw [if_neg (by omega), if_neg hplain]
      obtain ⟨text, hlength, hencrypt, -⟩ := blowFishEncrypt_plain cipher bf (Nat.not_le.mp hplain)
      rw [sizeofPlain] at hplain
      have hheader := @printHeader_length_le cfg text.length 4194339 time (by omega) (by decide)
      have hbind {β : Type} (f : List UInt8 × Nat → Except Fault β) :
          (Blowfish.blowFishEncrypt bf (printPlain groupId msg ++ [0]) cipher.toList
            (printPlain groupId msg).length >>= f)
            = f (text ++ cipher.toList.drop text.length, text.length) := by
        rw [hencrypt]
        rfl
      rw [hbind, hbind]
      simp only [fillBuf, List.append_nil]
      rw [if_neg (by rw [sizeofSendBuf]; omega)]
      split
      · rfl
      · rfl

/-- A text with a key and with room in `plain` is encrypted into `cipher` and copied. -/
theorem onSendGpmessage_of_key (hmsg : msg ≠ []) {bf : Blowfish.CBlowFish}
    (hbf : Blowfish.createBlowFish cfg.macaddr.text = .ok bf)
    (hplain : (printPlain groupId msg).length < sizeofPlain) :
  ∃ text, text.length = ((printPlain groupId msg).length / 8 + 1) * 8
    ∧ (∀ sent, onSendGpmessage cfg groupId time ctime cipher beyond msg = .ok sent
      ↔ ∃ buf, fillBuf cfg time (text ++ cipher.toList.drop text.length) beyond text.length
          = .ok buf ∧ sent = some buf)
    ∧ ∀ rest buffer, text.length ≤ buffer.length →
      ∃ tail, Blowfish.blowFishDecrypt bf (text ++ rest) buffer text.length
        = .ok (printPlain groupId msg ++ 0 :: tail, (printPlain groupId msg).length)
  := by
  have htitle := gpmessageTitle_length_le cfg ctime
  obtain ⟨text, hlength, hencrypt, hdecrypt⟩ := blowFishEncrypt_plain cipher bf hplain
  refine ⟨text, hlength, ?_, hdecrypt⟩
  intro sent
  rw [onSendGpmessage, if_neg hmsg, if_neg (by rw [sizeofSendBuf]; omega), bind_eq_ok]
  constructor
  · rintro ⟨bf', hbf', h⟩
    rw [hbf] at hbf'
    cases hbf'
    simp only at h
    rw [if_neg (by omega), bind_eq_ok] at h
    obtain ⟨out, hout, h⟩ := h
    rw [hencrypt] at hout
    cases hout
    obtain ⟨buf, hfill, h⟩ := bind_eq_ok.mp h
    cases h
    exact ⟨buf, hfill, rfl⟩
  · rintro ⟨buf, hfill, rfl⟩
    refine ⟨bf, hbf, ?_⟩
    simp only
    rw [if_neg (by omega)]
    refine bind_eq_ok.mpr ⟨_, hencrypt, ?_⟩
    refine bind_eq_ok.mpr ⟨buf, hfill, rfl⟩

/-- A text that does not fit with its mark is printed over the end of `plain`. -/
theorem onSendGpmessage_overrun (hmsg : msg ≠ []) {bf : Blowfish.CBlowFish}
    (hbf : Blowfish.createBlowFish cfg.macaddr.text = .ok bf)
    (hplain : sizeofPlain ≤ (printPlain groupId msg).length) :
  onSendGpmessage cfg groupId time ctime cipher beyond msg = .error .writeOutside
  := by
  have htitle := gpmessageTitle_length_le cfg ctime
  rw [onSendGpmessage, if_neg hmsg, if_neg (by rw [sizeofSendBuf]; omega)]
  refine bind_eq_error.mpr (.inr ⟨bf, hbf, ?_⟩)
  simp only
  rw [if_pos (by omega)]

/-- A text that is sent has a key and room in `plain`. -/
theorem plain_of_onSendGpmessage (hmsg : msg ≠ []) {sent : Option (List UInt8)}
    (h : onSendGpmessage cfg groupId time ctime cipher beyond msg = .ok sent) :
  ∃ bf, Blowfish.createBlowFish cfg.macaddr.text = .ok bf
    ∧ (printPlain groupId msg).length < sizeofPlain
  := by
  have htitle := gpmessageTitle_length_le cfg ctime
  have hkey := h
  rw [onSendGpmessage, if_neg hmsg, if_neg (by rw [sizeofSendBuf]; omega)] at hkey
  obtain ⟨bf, hbf, -⟩ := bind_eq_ok.mp hkey
  refine ⟨bf, hbf, ?_⟩
  by_contra hplain
  rw [onSendGpmessage_overrun cfg groupId time ctime cipher beyond hmsg hbf (by omega)] at h
  cases h

omit cfg groupId time ctime in
/-- The array with the cipher text at its start, and the bytes after it. -/
theorem cipher_length {text : List UInt8} (hlength : text.length ≤ sizeofPlain) :
  (text ++ cipher.toList.drop text.length ++ beyond).length = sizeofPlain + beyond.length
  := by
  rw [List.length_append, List.length_append, List.length_drop, Vector.length_toList]
  omega

/-- A text that is sent has a key and room in `plain`, and where its cipher text fills `cipher`,
the byte after the array can be read. -/
theorem room_of_onSendGpmessage (hmsg : msg ≠ []) {sent : Option (List UInt8)}
    (h : onSendGpmessage cfg groupId time ctime cipher beyond msg = .ok sent) :
  cfg.macaddr.text ≠ [] ∧ (printPlain groupId msg).length < sizeofPlain
    ∧ ((printPlain groupId msg).length < 1016 ∨ beyond ≠ [])
  := by
  obtain ⟨bf, hbf, hplain⟩ := plain_of_onSendGpmessage _ _ _ _ _ _ hmsg h
  obtain ⟨text, hlength, hrun, -⟩ := onSendGpmessage_of_key _ _ time ctime cipher beyond hmsg
    hbf hplain
  obtain ⟨buf, hfill, -⟩ := (hrun sent).mp h
  have hle : text.length ≤ sizeofPlain := by
    rw [sizeofPlain] at hplain ⊢
    omega
  obtain ⟨hread, -⟩ := (fillBuf_eq_ok_iff hle).mp hfill
  rw [cipher_length cipher beyond hle, sizeofPlain] at hread
  refine ⟨?_, hplain, ?_⟩
  · intro hnil
    rw [hnil] at hbf
    cases hbf
  · by_contra hbeyond
    rw [not_or, not_not] at hbeyond
    rw [hbeyond.2, List.length_nil] at hread
    omega

/-- A text with a key and with room in the arrays is sent whole. -/
theorem sent_of_room (hmsg : msg ≠ []) (hkey : cfg.macaddr.text ≠ [])
    (hplain : (printPlain groupId msg).length < sizeofPlain)
    (hread : (printPlain groupId msg).length < 1016 ∨ beyond ≠ []) :
  ∃ datagram, onSendGpmessage cfg groupId time ctime cipher beyond msg = .ok (some datagram)
    ∧ CarriesText cfg groupId time msg datagram
  := by
  obtain ⟨bf, hbf⟩ := createBlowFish_macaddr hkey
  obtain ⟨text, hlength, hrun, hdecrypt⟩ := onSendGpmessage_of_key _ _ time ctime cipher beyond
    hmsg hbf hplain
  have hle : text.length ≤ sizeofPlain := by
    rw [sizeofPlain] at hplain ⊢
    omega
  have hlt : text.length < (text ++ cipher.toList.drop text.length ++ beyond).length := by
    rw [cipher_length cipher beyond hle]
    rcases hread with hshort | hbeyond
    · rw [sizeofPlain]
      omega
    · have := List.length_pos_of_ne_nil hbeyond
      omega
  obtain ⟨last, hlast⟩ : ∃ last, (text ++ cipher.toList.drop text.length ++ beyond).take
      (text.length + 1) = text ++ [last] := by
    rw [List.append_assoc] at hlt ⊢
    rw [List.length_append] at hlt
    obtain ⟨last, rest, hrest⟩ := List.exists_cons_of_length_pos (Nat.pos_of_lt_add_right hlt)
    use last
    rw [hrest, List.take_length_add_append, List.take_succ_cons, List.take_zero]
  refine ⟨_, (hrun _).mpr ⟨_, (fillBuf_eq_ok_iff hle).mpr ⟨hlt, rfl⟩, rfl⟩, ?_⟩
  refine ⟨bf, text, last, hbf, by rw [hlast], ?_⟩
  intro rest buffer hbuffer
  obtain ⟨tail, htail⟩ := hdecrypt rest buffer hbuffer
  exact ⟨tail, _, htail⟩

/-- A group text is refused or sent whole exactly when it is empty, or there is a key, `plain`
has room for it with its mark, and where its cipher text fills `cipher`, the byte after the
array can be read. -/
theorem sendsGroupText_iff :
  SendsGroupText cfg groupId time ctime cipher beyond msg
    ↔ msg = [] ∨ cfg.macaddr.text ≠ [] ∧ (printPlain groupId msg).length < sizeofPlain
      ∧ ((printPlain groupId msg).length < 1016 ∨ beyond ≠ [])
  := by
  by_cases hmsg : msg = []
  · have hnone : onSendGpmessage cfg groupId time ctime cipher beyond msg = .ok none := by
      rw [onSendGpmessage, if_pos hmsg]
    exact ⟨fun _ => .inl hmsg, fun _ => .inl hnone⟩
  · constructor
    · rintro (h | ⟨datagram, h, -⟩)
      · exact .inr (room_of_onSendGpmessage _ _ _ _ _ _ hmsg h)
      · exact .inr (room_of_onSendGpmessage _ _ _ _ _ _ hmsg h)
    · rintro (h | ⟨hkey, hplain, hread⟩)
      · exact absurd h hmsg
      · exact .inr (sent_of_room _ _ _ _ _ _ hmsg hkey hplain hread)

end

/-! ### Both paths -/

/-- What becomes of a text of the input box, on the stack, at the time and with the block each
path finds: the private path puts a packet with the whole text into the send queue exactly
when the text fits `data` and there is a block, and the group path refuses it or sends a
datagram with the whole text exactly when it is empty or fits `plain` and `cipher`. -/
theorem outgoing_text_iff (ifc : Feiq.Sender) (unset : Feiq.Unset) (block : Option UInt8)
    (time mtime : UInt32) (ipaddr : CArray 32) (cfg : Config) (groupId : UInt32) (pno : UInt64)
    (ctime : CArray 26) (cipher : Vector UInt8 sizeofPlain) (beyond text : List UInt8) :
  (Feiq.SendsText Feiq.dataEnd ifc unset block time mtime ipaddr text
      ↔ text.length < 1024 ∧ block.isSome)
    ∧ (SendsGroupText cfg groupId pno ctime cipher beyond text
      ↔ text = [] ∨ cfg.macaddr.text ≠ [] ∧ (printPlain groupId text).length < 1024
        ∧ ((printPlain groupId text).length < 1016 ∨ beyond ≠ []))
  := ⟨Feiq.text_sent_iff ifc unset block time mtime ipaddr text,
    sendsGroupText_iff cfg groupId pno ctime cipher beyond⟩

/-- A user with one name for everything. -/
def senderA : Feiq.Sender where
  username := configA.username
  hostname := configA.hostname
  macaddr := configA.macaddr
  avatarId := 1
  port := 2425

/-- A stack of zeros. -/
def zeroStack : Feiq.Unset where
  msg := Feiq.blankMsg
  gpmsgSize_lt := by decide
  numbers := ⟨0, 0, 0, 0⟩

/-- On a text of 1024 bytes, both paths write over the end of an array, whatever the arrays
hold. -/
theorem long_text_overruns :
  (∀ block, Feiq.onPcahtSendCallback Feiq.dataEnd senderA zeroStack block 0 0
      ⟨ascii "10.0.0.1", by decide, by decide⟩ (List.replicate 1024 97) = .error .writeOutside)
    ∧ ∀ cipher beyond, onSendGpmessage configA 7 0 ⟨ascii "now", by decide, by decide⟩ cipher
      beyond (List.replicate 1024 97) = .error .writeOutside
  := by
  have hlength : (List.replicate 1024 (97 : UInt8)).length = 1024 := List.length_replicate
  constructor
  · intro block
    apply Feiq.onPcahtSendCallback_overrun
    rw [hlength, Feiq.sizeofData]
  · intro cipher beyond
    obtain ⟨bf, hbf⟩ := @createBlowFish_macaddr configA (by decide)
    apply onSendGpmessage_overrun _ _ _ _ _ _ _ hbf
    · rw [printPlain, List.length_append, hlength, sizeofPlain]
      omega
    · rw [List.ne_nil_iff_length_pos, hlength]
      decide

end Peer

end IFreeChat
