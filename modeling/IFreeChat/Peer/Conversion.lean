import IFreeChat.Ifc.FeiqHandlers
import IFreeChat.Peer.Handlers
import IFreeChat.Peer.MessageBlock
import IFreeChat.Peer.UserBlock

/-!
# Converted messages

Both programs copy the conversion of a private message back over its data: one into the array
of its message, without a terminator, and the other into the block of its message, which ends
where the data that was received ends.

The conversion fits the array and is the string there exactly when it is shorter than the
array and the data has a zero where it ends; it fits the block exactly when it is no longer
than the data (`conversion_fits_iff`).
-/

open Basis

namespace IFreeChat

open Feiq (offsetData sizeofData sizeofMsg arrays feiqOnPchat)

namespace Peer

/-- The conversion in `on_buddy_sendmsg`, on the block of the message. -/
def convertBlock (glib : Glib) (beyond : List UInt8) (b : MessageBlock) :
    Except Fault MessageBlock := do
  let data ← stringAt (b.bytes ++ beyond) b.data
  match stringValidate glib data (ascii "gbk") with
  | none => .ok b
  | some string => do
      let bytes ← strcpy b.bytes b.data string
      .ok { b with bytes }

/-! ### The block -/

/-- The block of a message before its data. -/
def blockHeader (msg : Msg) : List UInt8 :=
  List.replicate 20 0 ++ (msg.version ++ 0 :: (msg.packetNo ++ 0 :: (msg.username ++ 0 ::
    (msg.hostname ++ 0 :: (msg.cmd ++ [0])))))

theorem blockOf_bytes (msg : Msg) :
  (blockOf msg).bytes = blockHeader msg ++ msg.data
  := by
  simp only [blockOf, Msg.versionBlock, blockHeader, List.append_assoc, List.cons_append,
    List.nil_append, List.append_nil]

theorem blockOf_data (msg : Msg) :
  (blockOf msg).data = (blockHeader msg).length
  := by
  simp only [blockOf, blockHeader, List.length_append, List.length_replicate, List.length_cons,
    List.length_nil]
  omega

/-- `strcpy` over the data of a message stays in its block exactly when the string is shorter
than the data. -/
theorem strcpy_blockOf (msg : Msg) (string : List UInt8) :
  strcpy (blockOf msg).bytes (blockOf msg).data string
    = if msg.data.length ≤ string.length then .error .writeOutside
      else .ok (blockOf (msg.strcpyData string)).bytes
  := by
  have hheader : blockHeader (msg.strcpyData string) = blockHeader msg := rfl
  rw [strcpy, blockOf_bytes, blockOf_data, blockOf_bytes, hheader, List.length_append]
  by_cases hle : msg.data.length ≤ string.length
  · rw [if_neg (by omega), if_pos hle]
  · rw [if_pos (by omega), if_neg hle, List.take_left, List.drop_length_add_append]
    rfl

/-- The block that is converted has the strings of the message that is converted. -/
theorem convertBlock_eq (glib : Glib) (beyond : List UInt8) (msg : Msg) :
  convertBlock glib beyond (blockOf msg) = (convertData glib beyond msg).map blockOf
  := by
  have hdrop : ((blockOf msg).bytes ++ beyond).drop (blockOf msg).data = msg.data ++ beyond := by
    rw [blockOf_bytes, blockOf_data, List.append_assoc, List.drop_left]
  rw [convertBlock, convertData, stringAt, hdrop]
  cases cString (msg.data ++ beyond) with
  | error e => rfl
  | ok r =>
    obtain ⟨data, rest⟩ := r
    change (match stringValidate glib data (ascii "gbk") with
      | none => _
      | some string => _) = Except.map blockOf (match stringValidate glib data (ascii "gbk") with
      | none => _
      | some string => _)
    cases stringValidate glib data (ascii "gbk") with
    | none => rfl
    | some string =>
      simp only
      rw [strcpy_blockOf]
      split
      · rfl
      · rfl

/-! ### Conversions that fit -/

/-- `on_buddy_sendmsg` copies the conversion `string` over the data, and it is there. -/
def SendmsgFits (glib : Glib) (beyond : List UInt8) (b : MessageBlock) (string : List UInt8) :
    Prop :=
  ∃ b', convertBlock glib beyond b = .ok b' ∧ stringAt b'.bytes b'.data = .ok string

/-- `feiq_on_pchat` copies the conversion `string` over the data, in its array, and there it
is, with a terminator at `data_size`. -/
def PchatFits (glib : Glib) (msg : Feiq.Msg) (string : List UInt8) : Prop :=
  ∃ msg', feiqOnPchat glib arrays msg = .ok msg' ∧ string.length < sizeofData
    ∧ msg'.dataSize = string.length ∧ msg'.HasString offsetData string

section

variable {glib : Glib} {string : List UInt8} (hnul : 0 ∉ string)

include hnul

/-- The conversion is the string in the array exactly when the data has a zero at its end. -/
theorem pchat_fits_iff {msg : Feiq.Msg} {data : List UInt8} (hdata : msg.HasString offsetData data)
    (hvalidate : stringValidate glib data (ascii "GBK") = some string) :
  PchatFits glib msg string
    ↔ string.length < sizeofData ∧ msg.bytes (offsetData + string.length) = 0
  := by
  have hchat : ∀ msg', feiqOnPchat glib arrays msg = .ok msg'
      ↔ string.length ≤ sizeofData ∧ msg' = { msg with
        bytes := msg.bytes.write offsetData string, dataSize := string.length } := by
    intro msg'
    have hend : arrays offsetData = offsetData + sizeofData := rfl
    rw [feiqOnPchat, bind_eq_ok]
    constructor
    · rintro ⟨data', hdata', h⟩
      cases hdata.unique (Feiq.cString_eq_ok_iff.mp hdata')
      rw [hvalidate] at h
      obtain ⟨msg₁, hstore, h⟩ := bind_eq_ok.mp h
      obtain ⟨hle, rfl⟩ := Feiq.storeIn_eq_ok_iff.mp hstore
      cases h
      exact ⟨by omega, rfl⟩
    · rintro ⟨hle, rfl⟩
      refine ⟨data, Feiq.cString_eq_ok_iff.mpr hdata, ?_⟩
      rw [hvalidate]
      exact bind_eq_ok.mpr ⟨_, Feiq.storeIn_eq_ok_iff.mpr ⟨by omega, rfl⟩, rfl⟩
  have hread : (msg.bytes.write offsetData string).read offsetData (string.length + 1)
      = string ++ [msg.bytes (offsetData + string.length)] := by
    have hbyte : (msg.bytes.write offsetData string) (offsetData + string.length)
        = msg.bytes (offsetData + string.length) :=
      Memory.write_apply_of_not_mem (Or.inr (Nat.le_refl _))
    rw [Memory.read_append, Memory.read_write_self, ← hbyte]
    rfl
  constructor
  · rintro ⟨msg', hok, hlt, -, hstring⟩
    obtain ⟨-, rfl⟩ := (hchat msg').mp hok
    have h := hread.symm.trans hstring.read
    simp only [List.append_cancel_left_eq, List.cons.injEq, and_true] at h
    exact ⟨hlt, h⟩
  · rintro ⟨hlt, hzero⟩
    refine ⟨_, (hchat _).mpr ⟨Nat.le_of_lt hlt, rfl⟩, hlt, rfl, hnul, ?_, ?_⟩
    · simp only [offsetData, sizeofData, sizeofMsg] at hlt ⊢
      omega
    · rw [← hzero]
      apply hread

/-- The conversion fits the block exactly when it is no longer than the data. -/
theorem sendmsg_fits_iff {p : Pieces} (ip : List UInt8) (port : UInt16) (beyond : List UInt8)
    (hvalidate : stringValidate glib (untilNul p.data) (ascii "gbk") = some string) :
  SendmsgFits glib beyond (blockOf (p.msg ip port)) string ↔ string.length ≤ p.data.length
  := by
  have hlength : (p.msg ip port).data.length = p.data.length + 1 := List.length_append
  obtain ⟨after, hstring⟩ := cString_append_zero p.data beyond
  have hconvert : convertData glib beyond (p.msg ip port)
      = if (p.msg ip port).data.length ≤ string.length then .error .writeOutside
        else .ok ((p.msg ip port).strcpyData string) := by
    have hmemory : (p.msg ip port).data ++ beyond = p.data ++ 0 :: beyond :=
      List.append_assoc ..
    rw [convertData, hmemory, hstring]
    change (match stringValidate glib (untilNul p.data) (ascii "gbk") with
      | none => _
      | some string => _) = _
    rw [hvalidate]
  rw [SendmsgFits, convertBlock_eq, hconvert]
  constructor
  · rintro ⟨b', h, -⟩
    split at h
    · cases h
    · omega
  · intro hle
    rw [if_neg (by omega)]
    refine ⟨_, rfl, ?_⟩
    have hdata : (blockOf ((p.msg ip port).strcpyData string)).bytes.drop
        (blockOf ((p.msg ip port).strcpyData string)).data
          = string ++ 0 :: (p.msg ip port).data.drop (string.length + 1) := by
      rw [blockOf_bytes, blockOf_data, List.drop_left]
      rfl
    rw [stringAt, hdata]
    exact bind_eq_ok.mpr ⟨_, cString_append hnul, rfl⟩

end

/-- The conversion of a private message fits: in the array exactly when it is shorter than the
array, and is the string there exactly when the data has a zero at its end; in the block that
a datagram was packed into exactly when it is no longer than the data of the datagram. -/
theorem conversion_fits_iff {glib : Glib} (hglib : Blocks.GivesStrings glib) :
  (∀ {msg : Feiq.Msg} {data string : List UInt8}, msg.HasString offsetData data →
      stringValidate glib data (ascii "GBK") = some string →
      (PchatFits glib msg string
        ↔ string.length < sizeofData ∧ msg.bytes (offsetData + string.length) = 0))
    ∧ ∀ {p : Pieces} {b : MessageBlock} {beyond string : List UInt8}, p.Split →
      p.text.length ≤ sizeofBuf →
      packMessage true (recvBuffer p.text) (recvSize p.text) = .ok (some b) →
      stringValidate glib (untilNul p.data) (ascii "gbk") = some string →
      (SendmsgFits glib beyond b string ↔ string.length ≤ p.data.length)
  := by
  constructor
  · intro msg data string hdata hvalidate
    apply pchat_fits_iff (Blocks.stringValidate_nul hglib hvalidate) hdata hvalidate
  · intro p b beyond string hp hlength hpack hvalidate
    rw [packMessage_text hp hlength [] 0] at hpack
    cases hpack
    apply sendmsg_fits_iff (Blocks.stringValidate_nul hglib hvalidate) [] 0 beyond hvalidate

/-- Two characters in GBK. -/
def greeting : List UInt8 := [0xC4, 0xE3, 0xBA, 0xC3]

/-- The same in UTF-8. -/
def greetingUtf8 : List UInt8 := [0xE4, 0xBD, 0xA0, 0xE5, 0xA5, 0xBD]

/-- GLib on the greeting. -/
def greetingGlib : Glib where
  utf8Validate := fun string => string ≠ greeting
  convert := fun string _ => if string = greeting then some greetingUtf8 else none

theorem greetingGlib_givesStrings :
  Blocks.GivesStrings greetingGlib
  := by
  intro string cset s h
  simp only [greetingGlib] at h
  split at h
  · cases h
    decide
  · cases h

/-- A datagram with some data. -/
def greetingPieces (data : List UInt8) : Pieces where
  version := ascii "1_lbt4_1#128##0#0#0"
  packetNo := ascii "1"
  username := ascii "u"
  hostname := ascii "h"
  cmd := ascii "32"
  data := data

theorem greetingPieces_split (data : List UInt8) :
  (greetingPieces data).Split
  where
  version := (by decide +kernel : Feiq.IsField (ascii "1_lbt4_1#128##0#0#0"))
  packetNo := (by decide : Feiq.IsField (ascii "1"))
  username := (by decide : Feiq.IsField (ascii "u"))
  hostname := (by decide : Feiq.IsField (ascii "h"))
  cmd := (by decide : Feiq.IsField (ascii "32"))

/-- The message of the other program with the greeting and zeros after it. -/
def greetingMsg : Feiq.Msg where
  dataSize := 4
  mtime := 0
  command := 32
  packetId := 1
  port := 0
  avatarId := 1
  gpmsgSize := 0
  gpid := 0
  bytes := Memory.write (fun _ => 0) offsetData greeting

theorem conversion_fits_greeting :
  PchatFits greetingGlib greetingMsg greetingUtf8
    ∧ ∃ b, SendmsgFits greetingGlib [] b greetingUtf8
  := by
  have hdata : greetingMsg.HasString offsetData greeting := ⟨by decide, by decide, by decide⟩
  obtain ⟨hpchat, hsendmsg⟩ := conversion_fits_iff greetingGlib_givesStrings
  constructor
  · exact (hpchat hdata (by decide +kernel)).mpr ⟨by decide, by decide⟩
  · have hsplit := greetingPieces_split (greeting ++ [0, 0])
    have hpack := packMessage_text hsplit (by decide +kernel) [] 0
    exact ⟨_, (hsendmsg hsplit (by decide +kernel) hpack (by decide +kernel)).mpr (by decide)⟩

/-- The greeting as it is sent leaves no room for its conversion. -/
theorem conversion_overruns :
  ¬ ∀ b, packMessage true (recvBuffer (greetingPieces greeting).text)
      (recvSize (greetingPieces greeting).text) = .ok (some b) →
    SendmsgFits greetingGlib [] b greetingUtf8
  := by
  intro h
  obtain ⟨b', hconvert, -⟩ :=
    h _ (packMessage_text (greetingPieces_split greeting) (by decide +kernel) [] 0)
  rw [convertBlock_eq] at hconvert
  have hfault : convertData greetingGlib [] ((greetingPieces greeting).msg [] 0)
      = .error .writeOutside := rfl
  rw [hfault] at hconvert
  cases hconvert

end Peer

end IFreeChat
