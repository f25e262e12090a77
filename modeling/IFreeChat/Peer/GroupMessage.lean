import IFreeChat.Peer.Handlers

/-!
# Group messages

The datagram `sendGpmessage` prints for a group message, handled by a peer whose user list
has the sender with its key and whose group list has the group, puts the message into
`mlist` with its group, its sender and its text (`group_message_received`).
-/

open Basis

namespace IFreeChat

open Feiq (colon sharp underscore)

namespace Peer

/-! ### Sending -/

/-- The size of the arrays `plain` and `cipher`. -/
def sizeofPlain : Nat := 1024

/-- The datagram of `on_send_gpmessage`, where the array `cipher` holds these bytes. -/
def sendGpmessage (cfg : Config) (groupId : UInt32) (time : UInt64)
    (cipher : Vector UInt8 sizeofPlain) (msg : List UInt8) : Except Fault (List UInt8) := do
  let bf ← Blowfish.createBlowFish cfg.macaddr.text
  let plain := printPlain groupId msg
  if sizeofPlain ≤ plain.length then .error .writeOutside
  else do
    let (cipher, len) ← Blowfish.blowFishEncrypt bf (plain ++ [0]) cipher.toList plain.length
    if cipher.length < len + 1 then .error .readOutside
    else .ok (printHeader cfg len time 4194339 ++ cipher.take (len + 1))

/-! ### Decrypting -/

/-- The fields of a printed version. -/
def versionFields (cfg : Config) (size : Nat) : Feiq.VersionFields where
  head := ascii "1_lbt4_" ++ decimal cfg.avatarId.toInt
  model := ascii "128"
  mac := cfg.macaddr.text
  third := ascii "0"
  fourth := ascii "0"
  gpmsgSize := numeral 10 size

theorem printVersion_eq (cfg : Config) (size : Nat) :
  printVersion cfg size = (versionFields cfg size).text
  := by
  have h₁ : ascii "#128#" = sharp :: (ascii "128" ++ [sharp]) := rfl
  have h₂ : ascii "#0#0#" = sharp :: (ascii "0" ++ sharp :: (ascii "0" ++ [sharp])) := rfl
  simp only [printVersion, versionFields, Feiq.VersionFields.text, h₁, h₂, List.append_assoc,
    List.cons_append, List.nil_append]

theorem versionFields_split {cfg : Config} (hmac : sharp ∉ cfg.macaddr.text) (size : Nat) :
  (versionFields cfg size).Split
  := by
  have hhead : sharp ∉ ascii "1_lbt4_" := by decide
  have hmodel : sharp ∉ ascii "128" := by decide
  have hzero : sharp ∉ ascii "0" := by decide
  constructor
  · rw [versionFields, List.mem_append, not_or]
    use hhead
    apply not_mem_decimal _ (by decide) (by decide)
  · apply hmodel
  · apply hmac
  · apply hzero
  · apply hzero

/-- The size a printed version carries is read back. -/
theorem getGpmsgSize_printVersion {cfg : Config} (hsep : cfg.Separable)
    (hmac : sharp ∉ cfg.macaddr.text) {size : Nat} (hsize : size < 2 ^ 31)
    (rest : List UInt8) :
  getGpmsgSize (printVersion cfg size ++ 0 :: rest) = .ok size
  := by
  have hversion := isField_printVersion hsep size
  have hget := Feiq.getGpmsgSize_text (versionFields_split hmac size)
    (printVersion_eq cfg size ▸ hversion.2) rest
  rw [getGpmsgSize, printVersion_eq, hget]
  congr 1
  apply atoi_numeral hsize
  intro c hc
  cases hc
  decide

theorem not_mem_printPlain {groupId : UInt32} {text : List UInt8} (h : 0 ∉ text) :
  0 ∉ printPlain groupId text
  := by
  have hmark : 0 ∉ ascii "QUNMSGMARK#" := by decide
  have hid : 0 ∉ numeral 16 groupId.toNat := not_mem_numeral (by decide) (by decide) (by decide)
  have hsharp : 0 ∉ ascii "#" := by decide
  simp only [printPlain, List.mem_append, not_or]
  exact ⟨⟨⟨hmark, hid⟩, hsharp⟩, h⟩

theorem isUtf8_printPlain (groupId : UInt32) {text : List UInt8} (h : IsUtf8 text) :
  IsUtf8 (printPlain groupId text)
  := by
  have hmark : ∀ c ∈ ascii "QUNMSGMARK#", c < 128 := by decide +kernel
  have hsharp : ∀ c ∈ ascii "#", c < 128 := by decide +kernel
  have hid := @numeral_ascii 16 groupId.toNat (by decide) (by decide)
  exact (((isUtf8_of_ascii hmark).append (isUtf8_of_ascii hid)).append
    (isUtf8_of_ascii hsharp)).append h

/-- The group and the text of a plain text, whatever the text holds. -/
theorem getGroupId_printPlain (groupId : UInt32) {text : List UInt8} (h : 0 ∉ text) :
  getGroupId (printPlain groupId text) = .ok (groupId, text)
  := by
  have hmark : ascii "QUNMSGMARK#" = ascii "QUNMSGMARK" ++ [sharp] := rfl
  have hsharp : ascii "#" = [sharp] := rfl
  have hplain : printPlain groupId text ++ [0] = ascii "QUNMSGMARK" ++ sharp ::
      (numeral 16 groupId.toNat ++ sharp :: (text ++ [0])) := by
    simp only [printPlain, hmark, hsharp, List.append_assoc, List.cons_append, List.nil_append]
  have hid : ∀ c, digitValue 16 c = none → c ∉ numeral 16 groupId.toNat := fun c hc =>
    not_mem_numeral (by decide) (by decide) hc
  rw [getGroupId, hplain]
  refine bind_eq_ok.mpr ⟨_, search_append (by decide) (by decide), ?_⟩
  refine bind_eq_ok.mpr ⟨_, search_append (hid sharp (by decide)) (hid 0 (by decide)), ?_⟩
  refine bind_eq_ok.mpr ⟨_, cString_append h, ?_⟩
  rw [strtoul_numeral]

/-! ### A message and its reception -/

section

variable {cfg : Config} (hsep : cfg.Separable)
  (hhex : ∀ c ∈ cfg.macaddr.text, (digitValue 16 c).isSome) (hne : cfg.macaddr.text ≠ [])

include hhex in
theorem not_mem_macaddr {c : UInt8} (hc : digitValue 16 c = none) :
  c ∉ cfg.macaddr.text
  := by
  intro h
  have hdigit := hhex c h
  rw [hc] at hdigit
  cases hdigit

include hne in
/-- With a key there is a cipher. -/
theorem createBlowFish_macaddr :
  ∃ bf, Blowfish.createBlowFish cfg.macaddr.text = .ok bf
  := by
  rw [Blowfish.createBlowFish, if_neg]
  · exact ⟨_, rfl⟩
  · rw [List.length_eq_zero_iff]
    apply hne

include hsep hhex in
/-- Cipher text that is decrypted to the plain text, with anything after it, is a group
message for the one who has the key. -/
theorem groupText_printedMsg {glib : Glib} {groupId : UInt32} {text : List UInt8}
    (hglib : ∀ s, IsUtf8 s → glib.utf8Validate s = true) (hutf8 : IsUtf8 text)
    (hnul : 0 ∉ text) {bf : Blowfish.CBlowFish}
    (hbf : Blowfish.createBlowFish cfg.macaddr.text = .ok bf) {out : List UInt8} {len : Nat}
    (hout : out.length < 2 ^ 31)
    (hdecrypt : ∀ rest buffer, out.length ≤ buffer.length →
      ∃ tail, Blowfish.blowFishDecrypt bf (out ++ rest) buffer out.length
        = .ok (printPlain groupId text ++ 0 :: tail, len))
    (ip : List UInt8) (port : UInt16) (time : UInt64) (junk beyond : List UInt8)
    {plain : List UInt8} (hplain : plain.length = out.length + 1) :
  groupText glib cfg.macaddr.text
      (printedMsg cfg ip port out.length time 4194339 (out ++ junk)) beyond plain
    = .ok (groupId, text)
  := by
  obtain ⟨tail, htail⟩ := hdecrypt (junk ++ ([0] ++ beyond)) plain (by omega)
  have hinput : (printedMsg cfg ip port out.length time 4194339 (out ++ junk)).data ++ beyond
      = out ++ (junk ++ ([0] ++ beyond)) := by
    simp only [printedMsg, List.append_assoc]
  have hcut : Feiq.toUnsigned 32 (out.length : Int) = out.length :=
    Feiq.toUnsigned_of_lt (by omega)
  have hcap : Feiq.toUnsigned 32 ((out.length : Int) + 1) = out.length + 1 := by
    have h := @Feiq.toUnsigned_of_lt 32 (out.length + 1) (by omega)
    rw [Nat.cast_add, Nat.cast_one] at h
    apply h
  have hshown : shown glib (printPlain groupId text) = printPlain groupId text := by
    rw [shown, stringValidate, if_pos (hglib _ (isUtf8_printPlain groupId hutf8)),
      Option.getD_none]
  have hsharp := not_mem_macaddr hhex (by decide : digitValue 16 sharp = none)
  refine bind_eq_ok.mpr ⟨_, getGpmsgSize_printVersion hsep hsharp hout _, ?_⟩
  refine bind_eq_ok.mpr ⟨bf, hbf, ?_⟩
  simp only
  rw [hcut, if_neg (by rw [hcap, hplain]; simp), hinput]
  refine bind_eq_ok.mpr ⟨_, htail, ?_⟩
  refine bind_eq_ok.mpr ⟨_, cString_append (not_mem_printPlain hnul), ?_⟩
  rw [hshown, getGroupId_printPlain groupId hnul]

include hsep hhex hne in
/-- What is sent is decrypted by the one who has the key, for every content of the arrays. -/
theorem groupText_sendGpmessage {glib : Glib} {groupId : UInt32} {text : List UInt8}
    (hglib : ∀ s, IsUtf8 s → glib.utf8Validate s = true) (hutf8 : IsUtf8 text)
    (hnul : 0 ∉ text) (hlength : (printPlain groupId text).length ≤ 1015) (time : UInt64)
    (cipher : Vector UInt8 sizeofPlain) :
  ∃ size data, sendGpmessage cfg groupId time cipher text
      = .ok (printHeader cfg size time 4194339 ++ data)
    ∧ size = ((printPlain groupId text).length / 8 + 1) * 8 ∧ data.length = size + 1
    ∧ ∀ ip port beyond plain, plain.length = size + 1 →
      groupText glib cfg.macaddr.text (printedMsg cfg ip port size time 4194339 data) beyond
        plain = .ok (groupId, text)
  := by
  obtain ⟨bf, hbf⟩ := createBlowFish_macaddr hne
  have hsize : ((printPlain groupId text).length / 8 + 1) * 8 ≤ 1016 := by omega
  obtain ⟨out, hout, hencrypt, hdecrypt⟩ := @Blowfish.decrypt_encrypt bf
    (printPlain groupId text) [0] cipher.toList
    (by rw [Vector.length_toList, sizeofPlain, Blowfish.BF_BLKSIZE]; omega)
  rw [Blowfish.BF_BLKSIZE] at hout
  rw [← hout] at hsize
  have harray : (out ++ cipher.toList.drop out.length).length = sizeofPlain := by
    rw [List.length_append, List.length_drop, Vector.length_toList, sizeofPlain]
    omega
  have hdata : ((out ++ cipher.toList.drop out.length).take (out.length + 1)).length
      = out.length + 1 := by
    rw [List.length_take, harray, sizeofPlain]
    omega
  obtain ⟨junk, hjunk⟩ : ∃ junk, (out ++ cipher.toList.drop out.length).take (out.length + 1)
      = out ++ junk := by
    use (cipher.toList.drop out.length).take 1
    rw [List.take_append, List.take_of_length_le (by omega), Nat.add_sub_cancel_left]
  refine ⟨out.length, _, ?_, hout, hdata, ?_⟩
  · refine bind_eq_ok.mpr ⟨bf, hbf, ?_⟩
    simp only
    rw [if_neg (by rw [sizeofPlain]; omega)]
    refine bind_eq_ok.mpr ⟨_, hencrypt, ?_⟩
    simp only
    rw [if_neg (by rw [harray, sizeofPlain]; omega)]
  · intro ip port beyond plain hplain
    rw [hjunk]
    apply groupText_printedMsg hsep hhex hglib hutf8 hnul hbf (by omega) hdecrypt ip port time
      junk beyond hplain

end

/-! ### Reception -/

section

variable (s : Client) (id : Nat)

theorem Client.link_heap :
  (s.link id).heap = s.heap
  := by
  rw [link]
  cases s.mlist.getLast? with
  | none => rfl
  | some l => rfl

theorem Client.link_mlist :
  (s.link id).mlist = s.mlist ++ [id]
  := by
  rw [link]
  cases s.mlist.getLast? with
  | none => rfl
  | some l => rfl

end

section

variable {cfg : Config} {glib : Glib} {s : Client} {m : Msg} {time : UInt64}
  {beyond plain : List UInt8}

/-- The peer with one more block, where the listening thread is at `pc`. -/
def Client.received (s : Client) (m : Msg) (pc : Pc) : Client :=
  { s with heap := s.heap ++ [⟨m, 0⟩], pc }

theorem Client.received_pc (pc : Pc) :
  (s.received m pc).pc = pc
  := rfl

theorem Client.received_block (pc : Pc) :
  (s.received m pc).heap[s.heap.length]? = some ⟨m, 0⟩
  := by
  apply List.getElem?_concat_length

theorem Client.received_touch (pc : Pc) :
  (s.received m pc).touch s.heap.length = s.received m pc
  := by
  apply touch_of_live
  use ⟨m, 0⟩, received_block pc

/-- The sender of a group message is found. -/
theorem step_gpFind {i : Nat} (hname : m.username ≠ cfg.username.text)
    (hfind : findUser s.ulist m.ip = some i) :
  (clientMachine glib cfg).step (s.received m (.gpFind s.heap.length))
      (.handle time beyond plain)
    = some (none, s.received m (.gpDecode s.heap.length i))
  := by
  have hfind' : findUser (s.received m (.gpFind s.heap.length)).ulist m.ip = some i := hfind
  simp only [clientMachine, Client.handle, Client.received_pc, Client.received_block,
    Client.received_touch, Option.bind_eq_bind, Option.bind_some, if_neg hname, hfind']
  rfl

/-- The text of a group message is decrypted with the key of its sender. -/
theorem step_gpDecode {i : Nat} {u : User} {groupId : UInt32} {text : List UInt8}
    (hu : s.ulist[i]? = some u)
    (htext : groupText glib u.macaddr m beyond plain = .ok (groupId, text)) :
  (clientMachine glib cfg).step (s.received m (.gpDecode s.heap.length i))
      (.handle time beyond plain)
    = some (none, s.received m (.gpGroup s.heap.length i groupId text))
  := by
  have hu' : (s.received m (.gpDecode s.heap.length i)).ulist[i]? = some u := hu
  simp only [clientMachine, Client.handle, Client.received_pc, Client.received_block,
    Client.received_touch, Option.bind_eq_bind, Option.bind_some, hu', htext]
  rfl

/-- A group of the list is kept. -/
theorem step_gpGroup {i : Nat} {groupId : UInt32} {text : List UInt8}
    (hgroup : groupId ∈ cfg.glist) :
  (clientMachine glib cfg).step (s.received m (.gpGroup s.heap.length i groupId text))
      (.handle time beyond plain)
    = some (none, s.received m (.gpLink s.heap.length i groupId text))
  := by
  simp only [clientMachine, Client.handle, Client.received_pc, if_pos hgroup]
  rfl

/-- The message gets its text, its sender and its group, and is put into `mlist`. -/
theorem step_gpLink {i : Nat} {groupId : UInt32} {text : List UInt8}
    (hfits : text.length < m.data.length) :
  ∃ s', (clientMachine glib cfg).step (s.received m (.gpLink s.heap.length i groupId text))
        (.handle time beyond plain)
      = some (none, s')
    ∧ s'.pc = .gpShow ∧ s'.mlist = s.mlist ++ [s.heap.length] ∧ s'.heap = s.heap
      ++ [⟨{ m.strcpyData text with user := some i, gpid := some groupId }, 0⟩]
  := by
  refine ⟨{ ((s.received m (.gpLink s.heap.length i groupId text)).update s.heap.length
    fun _ => { m.strcpyData text with user := some i, gpid := some groupId }).link
      s.heap.length with pc := .gpShow }, ?_, rfl, ?_, ?_⟩
  · simp only [clientMachine, Client.handle, Client.received_pc, Client.received_block,
      Option.bind_eq_bind, Option.bind_some, if_neg (Nat.not_le_of_lt hfits)]
  · simp only [Client.link_mlist]
    rfl
  · simp only [Client.link_heap, Client.update]
    apply modify_concat

end

/-- A group message of a user with the key of its sender, for a group of the list, is put at
the end of `mlist` with its group, its sender and its text, and changes no other block,
whatever the block for the plain text and the bytes after the message hold. -/
theorem group_message_received {sender cfg : Config} {glib : Glib}
    (hglib : ∀ s, IsUtf8 s → glib.utf8Validate s = true)
    (husername : colon ∉ sender.username.text) (hhostname : colon ∉ sender.hostname.text)
    (hhex : ∀ c ∈ sender.macaddr.text, (digitValue 16 c).isSome)
    (hne : sender.macaddr.text ≠ [])
    (hname : sender.username.text ≠ cfg.username.text)
    {groupId : UInt32} (hgroup : groupId ∈ cfg.glist)
    {text : List UInt8} (hutf8 : IsUtf8 text) (hnul : 0 ∉ text)
    (hlength : (printPlain groupId text).length ≤ 1015)
    {s : Client} (hidle : s.pc = .idle) {ip : List UInt8} {i : Nat} {u : User}
    (hfind : findUser s.ulist ip = some i) (hu : s.ulist[i]? = some u)
    (hmac : u.macaddr = sender.macaddr.text)
    (port : UInt16) (time : UInt64) (cipher : Vector UInt8 sizeofPlain) :
  ∃ datagram, sendGpmessage sender groupId time cipher text = .ok datagram
    ∧ ∀ time' beyond plain,
      plain.length = ((printPlain groupId text).length / 8 + 1) * 8 + 1 →
      ∃ os s' b, (clientMachine glib cfg).run s (.receive ip port datagram
          :: List.replicate 5 (.handle time' beyond plain)) = some (os, s')
        ∧ s'.pc = .idle ∧ s'.mlist = s.mlist ++ [s.heap.length] ∧ s'.heap = s.heap ++ [b]
        ∧ b.msg.gpid = some groupId ∧ b.msg.user = some i
        ∧ ∃ rest, cString b.msg.data = .ok (text, rest)
  := by
  have hcolon : colon ∉ sender.macaddr.text := not_mem_macaddr hhex (by decide)
  have hsep : sender.Separable := ⟨husername, hhostname, hcolon⟩
  obtain ⟨size, data, hsend, hsize, hdata, hdecrypt⟩ :=
    groupText_sendGpmessage hsep hhex hne hglib hutf8 hnul hlength time cipher
  have hbound : size ≤ 1016 := by omega
  have hheader := @printHeader_length_le sender size 4194339 time (by omega) (by decide)
  have hdatagram : (printHeader sender size time 4194339 ++ data).length < sizeofBuf := by
    rw [List.length_append, sizeofBuf]
    omega
  refine ⟨_, hsend, ?_⟩
  intro time' beyond plain hplain
  rw [← hsize] at hplain
  -- the message the datagram is parsed into
  have hparse := parseMessage_header hsep ip port size time 4194339 data hdatagram
  have hcommand := @printedMsg_command sender ip port size time 4194339 data (by decide)
  have htext := hdecrypt ip port beyond plain hplain
  rw [← hmac] at htext
  have hfits : text.length < (printedMsg sender ip port size time 4194339 data).data.length := by
    rw [printPlain, List.length_append] at hsize
    rw [printedMsg, List.length_append]
    omega
  obtain ⟨m, hm⟩ : ∃ m, m = printedMsg sender ip port size time 4194339 data := ⟨_, rfl⟩
  have hfrom : m.username ≠ cfg.username.text := by
    rw [hm]
    apply hname
  have hip : findUser s.ulist m.ip = some i := by
    rw [hm]
    apply hfind
  rw [← hm] at hparse hcommand htext hfits
  have hreceive : (clientMachine glib cfg).step s
      (.receive ip port (printHeader sender size time 4194339 ++ data))
        = some (none, s.received m (.gpFind s.heap.length)) := by
    simp only [clientMachine, Client.receive, if_pos hidle, hparse, hcommand]
    rfl
  obtain ⟨s', hlink, hpc, hmlist, hheap⟩ :=
    @step_gpLink cfg glib s m time' beyond plain i groupId text hfits
  have hshow : (clientMachine glib cfg).step s' (.handle time' beyond plain)
      = some (none, { s' with pc := .idle }) := by
    simp only [clientMachine, Client.handle, hpc]
  refine ⟨List.replicate 6 none, { s' with pc := .idle }, _, ?_, rfl, hmlist, hheap, rfl, rfl, ?_⟩
  · refine Machine.run_cons_of_step _ hreceive ?_
    refine Machine.run_cons_of_step _ (step_gpFind hfrom hip) ?_
    refine Machine.run_cons_of_step _ (step_gpDecode hu htext) ?_
    refine Machine.run_cons_of_step _ (step_gpGroup hgroup) ?_
    refine Machine.run_cons_of_step _ hlink ?_
    refine Machine.run_cons_of_step _ hshow ?_
    apply Machine.run_nil
  · refine ⟨_, cString_append hnul⟩

/-- A peer that knows a user with the key `a`. -/
def clientOfA : Client :=
  { Client.start with
    ulist := [{
      nickname := ascii "a", username := ascii "a", hostname := ascii "a", avatar := []
      ipaddr := ascii "10.0.0.1", macaddr := ascii "a", signature := [], category := []
      encoding := ascii "utf-8" }] }

theorem group_message_received_hi :
  ∃ datagram, sendGpmessage configA 7 0 (Vector.replicate 1024 0) (ascii "hi")
      = .ok datagram
    ∧ ∀ time' beyond plain,
      plain.length = ((printPlain 7 (ascii "hi")).length / 8 + 1) * 8 + 1 →
      ∃ os s' b, (clientMachine asciiGlib { configB with glist := [7] }).run clientOfA
          (.receive (ascii "10.0.0.1") 2425 datagram
            :: List.replicate 5 (.handle time' beyond plain)) = some (os, s')
        ∧ s'.pc = .idle ∧ s'.mlist = [0] ∧ s'.heap = [b]
        ∧ b.msg.gpid = some 7 ∧ b.msg.user = some 0
        ∧ ∃ rest, cString b.msg.data = .ok (ascii "hi", rest)
  := by
  have hutf8 : IsUtf8 (ascii "hi") := isUtf8_of_ascii (by decide +kernel)
  have hhex : ∀ c ∈ ascii "a", (digitValue 16 c).isSome := by decide +kernel
  apply group_message_received (fun _ _ => rfl) (by decide) (by decide) hhex (by decide)
    (by decide) (by decide) hutf8 (by decide) (by decide) rfl rfl rfl rfl

end Peer

end IFreeChat
