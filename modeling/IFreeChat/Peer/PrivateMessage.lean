import IFreeChat.Peer.Outgoing
import IFreeChat.Peer.Receipts

/-!
# Private messages

The datagram `onSendMessage` prints for the text of a private chat box, handled by a peer that
lists its sender, puts a message with the text and the sender into `mlist`, and is answered
with a receipt, which the sender takes without an effect on its lists and without an answer
(`private_message_acknowledged`).
-/

open Basis

namespace IFreeChat

open Feiq (colon IsField)

namespace Peer

/-! ### Sending -/

/-- `on_send_message`, where `ctime` is the text of the time and `msg` that of the input box:
the datagram it sends, or none for an empty input box.  The title is printed into the same
`buf` before. -/
def onSendMessage (cfg : Config) (time : UInt64) (ctime : CArray 26) (msg : List UInt8) :
    Except Fault (Option (List UInt8)) :=
  if msg = [] then .ok none
  else if sizeofSendBuf < (gpmessageTitle cfg ctime).length + 1 then .error .writeOutside
  else
    let buf := printHeader cfg 0 time 0x120 ++ msg
    if sizeofSendBuf < buf.length + 1 then .error .writeOutside
    else .ok (some buf)

section

variable {cfg : Config} {time : UInt64} {ctime : CArray 26} {msg : List UInt8}

/-- A text that is not empty is sent behind its header when the two fit the buffer. -/
theorem onSendMessage_eq (hmsg : msg ≠ []) :
  onSendMessage cfg time ctime msg
    = if sizeofSendBuf < (printHeader cfg 0 time 0x120 ++ msg).length + 1 then
        .error .writeOutside
      else .ok (some (printHeader cfg 0 time 0x120 ++ msg))
  := by
  have htitle := gpmessageTitle_length_le cfg ctime
  rw [onSendMessage, if_neg hmsg, if_neg]
  rw [sizeofSendBuf]
  omega

theorem onSendMessage_eq_some {datagram : List UInt8}
    (h : onSendMessage cfg time ctime msg = .ok (some datagram)) :
  datagram = printHeader cfg 0 time 0x120 ++ msg ∧ datagram.length < sizeofSendBuf
  := by
  by_cases hmsg : msg = []
  · rw [onSendMessage, if_pos hmsg] at h
    cases h
  · rw [onSendMessage_eq hmsg] at h
    split at h
    · cases h
    · rename_i hle
      cases h
      exact ⟨rfl, Nat.lt_of_succ_le (Nat.le_of_not_lt hle)⟩

end

/-! ### Reception -/

/-- What becomes of a peer that takes a message: the block of the message is the last one, and
nobody else's lists change. -/
structure Holding (s : Client) (pc : Pc) (mlist : List Nat) (m : Msg) (s' : Client) : Prop where
  pc : s'.pc = pc
  ulist : s'.ulist = s.ulist
  mlist : s'.mlist = mlist
  heap : s'.heap = s.heap ++ [⟨m, 0⟩]

section

variable {s s₁ : Client} {pc : Pc} {mlist : List Nat} {m : Msg}

theorem Holding.block (h : Holding s pc mlist m s₁) :
  s₁.heap[s.heap.length]? = some ⟨m, 0⟩
  := by
  rw [h.heap]
  apply List.getElem?_concat_length

theorem Holding.touch (h : Holding s pc mlist m s₁) :
  s₁.touch s.heap.length = s₁
  := Client.touch_of_live ⟨_, h.block, rfl⟩

/-- The message is changed, and the handler goes on. -/
theorem Holding.update (h : Holding s pc mlist m s₁) (f : Msg → Msg) (pc' : Pc) :
  Holding s pc' mlist (f m) { s₁.update s.heap.length f with pc := pc' }
  where
  pc := rfl
  ulist := h.ulist
  mlist := h.mlist
  heap := by
    simp only [Client.update, h.heap]
    apply modify_concat

variable (glib : Glib) (cfg : Config) (time : UInt64) (beyond plain : List UInt8)

theorem holding_sendLink (h : Holding s (.sendLink s.heap.length) mlist m s₁) :
  ∃ s₂, (clientMachine glib cfg).step s₁ (.handle time beyond plain) = some (none, s₂)
    ∧ Holding s (.sendConvert s.heap.length) (mlist ++ [s.heap.length]) { m with gpid := some 0 } s₂
  := by
  obtain ⟨-, hulist, hmlist, hheap⟩ := h.update (fun m => { m with gpid := some 0 }) .idle
  obtain ⟨hlink, hlink'⟩ :=
    (s₁.update s.heap.length fun m => { m with gpid := some 0 }).link_frame s.heap.length
  refine ⟨{ (s₁.update s.heap.length fun m => { m with gpid := some 0 }).link s.heap.length with
    pc := .sendConvert s.heap.length }, ?_, rfl, hlink'.trans hulist, ?_, hlink.trans hheap⟩
  · simp only [clientMachine, Client.handle, h.pc]
  · simp only [Client.link_mlist]
    rw [← hmlist]

/-- A text that needs no conversion is left as it is. -/
theorem holding_sendConvert (h : Holding s (.sendConvert s.heap.length) mlist m s₁)
    (hconvert : convertData glib beyond m = .ok m) :
  ∃ s₂, (clientMachine glib cfg).step s₁ (.handle time beyond plain) = some (none, s₂)
    ∧ Holding s (.sendFind s.heap.length) mlist m s₂
  := by
  refine ⟨_, ?_, h.update (fun _ => m) (.sendFind s.heap.length)⟩
  simp [clientMachine, Client.handle, h.pc, h.block, hconvert]

theorem holding_sendFind {i : Nat} (h : Holding s (.sendFind s.heap.length) mlist m s₁)
    (hfind : findUser s.ulist m.ip = some i) :
  ∃ s₂, (clientMachine glib cfg).step s₁ (.handle time beyond plain) = some (none, s₂)
    ∧ Holding s (.sendShow s.heap.length) mlist { m with user := some i } s₂
  := by
  refine ⟨_, ?_, h.update (fun m => { m with user := some i }) (.sendShow s.heap.length)⟩
  simp [clientMachine, Client.handle, h.pc, h.ulist, h.block, hfind]

theorem holding_sendShow (h : Holding s (.sendShow s.heap.length) mlist m s₁) :
  ∃ s₂, (clientMachine glib cfg).step s₁ (.handle time beyond plain) = some (none, s₂)
    ∧ Holding s (.sendReply s.heap.length) mlist m s₂
  := by
  refine ⟨{ s₁.touch s.heap.length with pc := .sendReply s.heap.length }, ?_, rfl, h.ulist,
    h.mlist, h.heap⟩
  simp only [clientMachine, Client.handle, h.pc]

/-- The receipt is sent where the command asks for it and it fits its buffer. -/
theorem holding_sendReply (h : Holding s (.sendReply s.heap.length) mlist m s₁)
    (hcheck : m.command &&& OPT_SENDCHECK ≠ 0) (hlength : (printReply cfg time m).length < 1024) :
  ∃ s₂, (clientMachine glib cfg).step s₁ (.handle time beyond plain)
      = some (some (printReply cfg time m), s₂)
    ∧ Holding s .idle mlist m s₂
  := by
  refine ⟨{ s₁.touch s.heap.length with pc := .idle }, ?_, rfl, h.ulist, h.mlist, h.heap⟩
  simp [clientMachine, Client.handle, h.pc, h.block, hcheck, Nat.not_le_of_lt hlength]

end

/-! ### A message and its receipt -/

section

variable {sender cfg : Config} {ip : List UInt8} {port : UInt16} {time : UInt64}
  {text : List UInt8}

/-- The text of a private message that is UTF-8 is not converted. -/
theorem convertData_utf8 {glib : Glib} (hglib : ∀ s, IsUtf8 s → glib.utf8Validate s = true)
    (hutf8 : IsUtf8 text) (hnul : 0 ∉ text) {m : Msg} {rest : List UInt8}
    (hdata : m.data = text ++ 0 :: rest) (beyond : List UInt8) :
  convertData glib beyond m = .ok m
  := by
  have hmemory : m.data ++ beyond = text ++ 0 :: (rest ++ beyond) := by
    rw [hdata, List.append_assoc, List.cons_append]
  have hvalidate : stringValidate glib text (ascii "gbk") = none := by
    rw [stringValidate, if_pos (hglib _ hutf8)]
  refine bind_eq_ok.mpr ⟨(text, rest ++ beyond), ?_, ?_⟩
  · rw [hmemory]
    apply cString_append hnul
  · simp only [hvalidate]

/-- A receipt of a message with names that fit their arrays and the time as its number has a
length that fits every buffer. -/
theorem printReply_length_lt (cfg : Config) (time' : UInt64) {m : Msg}
    (husername : m.username.length < 64) (hhostname : m.hostname.length < 64) {n : Nat}
    (hn : n < 2 ^ 64) (hpacketNo : m.packetNo = numeral 10 n) :
  (printReply cfg time' m).length < 1024
  := by
  have havatar := cfg.avatarId.toInt_lt
  have havatar' := cfg.avatarId.le_toInt
  have hdecimal := decimal_length_le (by omega : cfg.avatarId.toInt.natAbs ≤ 2 ^ 31)
  have hmac := cfg.macaddr.fits
  have hnumeral : ∀ t < 2 ^ 64, (numeral 10 t).length ≤ 20 := by
    intro t ht
    apply numeral_length_le (by decide) (by decide)
    omega
  have hnumber := hnumeral n hn
  have htime := hnumeral time'.toNat time'.toNat_lt
  rw [printReply_length, hpacketNo]
  omega

/-- The sender of a message takes its receipt: nothing is done, and nothing is sent. -/
theorem receipt_taken (glib : Glib) (cfg own : Config) (time' : UInt64) {m : Msg}
    (hmac : colon ∉ cfg.macaddr.text) (husername : IsField m.username)
    (hhostname : IsField m.hostname) (hlength : (printReply cfg time' m).length < 1024)
    {t : Client} (hidle : t.pc = .idle) (ip : List UInt8) (port : UInt16) :
  ∃ r, (clientMachine glib own).step t (.receive ip port (printReply cfg time' m))
      = some (none, { t with heap := t.heap ++ [⟨r, 0⟩] })
    ∧ r.ip = ip ∧ r.command &&& 0xff = CMD_RECVMSG ∧ r.data = m.packetNo ++ [0]
  := by
  have hsplit := receiptPieces_split time' hmac husername hhostname
  have hparse : parseMessage ip port (recvBuffer (printReply cfg time' m))
      (recvSize (printReply cfg time' m)) = .ok ((receiptPieces cfg time' m).msg ip port) := by
    obtain ⟨tail, hbuffer, hsize⟩ := recvBuffer_take (printReply cfg time' m)
    rw [List.take_of_length_le (by rw [sizeofBuf]; omega)] at hbuffer hsize
    rw [hbuffer, hsize, printReply_eq]
    apply Pieces.parse_text hsplit
  have hcommand : ((receiptPieces cfg time' m).msg ip port).command = CMD_RECVMSG := by
    have hatoi := atoi_numeral (by decide : CMD_RECVMSG < 2 ^ 31)
      (by simp : ∀ c ∈ ([] : List UInt8).head?, digitValue 10 c = none)
    rw [List.append_nil] at hatoi
    rw [Msg.command, Pieces.msg, receiptPieces, hatoi]
    rfl
  refine ⟨(receiptPieces cfg time' m).msg ip port, ?_, rfl, ?_, rfl⟩
  · have hhandler : handlerOf CMD_RECVMSG t.heap.length = t.pc := by
      rw [hidle]
      rfl
    simp only [clientMachine, Client.receive, if_pos hidle, hparse, hcommand, hhandler,
      Option.map_some]
  · rw [hcommand]
    decide

/-- The message is received, and its handler is at its first step. -/
theorem holding_receive (glib : Glib) (cfg : Config) {s : Client} (hidle : s.pc = .idle)
    {datagram : List UInt8} {m : Msg}
    (hparse : parseMessage ip port (recvBuffer datagram) (recvSize datagram) = .ok m)
    (hcommand : m.command = 0x120) :
  ∃ s₁, (clientMachine glib cfg).step s (.receive ip port datagram) = some (none, s₁)
    ∧ Holding s (.sendLink s.heap.length) s.mlist m s₁
  := by
  refine ⟨{ s with heap := s.heap ++ [⟨m, 0⟩], pc := .sendLink s.heap.length }, ?_, rfl, rfl, rfl,
    rfl⟩
  simp only [clientMachine, Client.receive, if_pos hidle, hparse, hcommand, Option.map_some]
  rfl

/-- A message of a user in the list, in UTF-8, is put at the end of `mlist` as it is, and a
receipt is sent that fits its buffer. -/
theorem message_acknowledged {glib : Glib} (hglib : ∀ s, IsUtf8 s → glib.utf8Validate s = true)
    {s : Client} (hidle : s.pc = .idle) {datagram : List UInt8} {m : Msg}
    (hparse : parseMessage ip port (recvBuffer datagram) (recvSize datagram) = .ok m)
    (hcommand : m.command = 0x120) {i : Nat} (hfind : findUser s.ulist m.ip = some i)
    (hutf8 : IsUtf8 text) (hnul : 0 ∉ text) {rest : List UInt8} (hdata : m.data = text ++ 0 :: rest)
    (hreply : (printReply cfg time m).length < 1024) (beyond plain : List UInt8) :
  ∃ s', (clientMachine glib cfg).run s (sendmsgEvents ip port datagram time beyond plain)
      = some (List.replicate 5 none ++ [some (printReply cfg time m)], s')
    ∧ Holding s .idle (s.mlist ++ [s.heap.length]) { m with gpid := some 0, user := some i } s'
  := by
  obtain ⟨s₁, hstep₁, h₁⟩ := holding_receive glib cfg hidle hparse hcommand
  obtain ⟨s₂, hstep₂, h₂⟩ := holding_sendLink glib cfg time beyond plain h₁
  obtain ⟨s₃, hstep₃, h₃⟩ := holding_sendConvert glib cfg time beyond plain h₂
    (convertData_utf8 hglib hutf8 hnul (m := { m with gpid := some 0 }) hdata beyond)
  obtain ⟨s₄, hstep₄, h₄⟩ := holding_sendFind glib cfg time beyond plain h₃ hfind
  obtain ⟨s₅, hstep₅, h₅⟩ := holding_sendShow glib cfg time beyond plain h₄
  have hcheck : m.command &&& OPT_SENDCHECK ≠ 0 := by
    rw [hcommand]
    decide
  obtain ⟨s₆, hstep₆, h₆⟩ := holding_sendReply glib cfg time beyond plain h₅ hcheck hreply
  refine ⟨s₆, ?_, h₆⟩
  refine Machine.run_cons_of_step _ hstep₁ ?_
  refine Machine.run_cons_of_step _ hstep₂ ?_
  refine Machine.run_cons_of_step _ hstep₃ ?_
  refine Machine.run_cons_of_step _ hstep₄ ?_
  refine Machine.run_cons_of_step _ hstep₅ ?_
  refine Machine.run_cons_of_step _ hstep₆ ?_
  apply Machine.run_nil

end

/-- The text of a private chat box that is not empty, is UTF-8 and fits the buffer of the
receiver is sent.  A peer that lists its sender puts it at the end of `mlist`, with the sender
and the whole text, and answers with a receipt; no other block and no list of users changes,
whatever the bytes after the message hold.  The receipt names the number of the packet, and
whoever takes it keeps its lists and sends nothing. -/
theorem private_message_acknowledged {sender cfg : Config} {glib : Glib}
    (hglib : ∀ s, IsUtf8 s → glib.utf8Validate s = true) (hsep : sender.Separable)
    (hmac : colon ∉ cfg.macaddr.text) {text : List UInt8} (hne : text ≠ []) (hutf8 : IsUtf8 text)
    (hnul : 0 ∉ text) (hlength : text.length < 7974) {s : Client} (hidle : s.pc = .idle)
    {ip : List UInt8} {i : Nat} (hfind : findUser s.ulist ip = some i) (port : UInt16)
    (time : UInt64) (ctime : CArray 26) :
  ∃ datagram, onSendMessage sender time ctime text = .ok (some datagram)
    ∧ ∀ time' beyond plain, ∃ reply s' m,
      (clientMachine glib cfg).run s (sendmsgEvents ip port datagram time' beyond plain)
        = some (List.replicate 5 none ++ [some reply], s')
      ∧ s'.pc = .idle ∧ s'.ulist = s.ulist ∧ s'.mlist = s.mlist ++ [s.heap.length]
      ∧ s'.heap = s.heap ++ [⟨m, 0⟩] ∧ m.ip = ip ∧ m.user = some i ∧ m.gpid = some 0
      ∧ m.data = text ++ [0]
      ∧ ∀ own t ip' port', t.pc = .idle → ∃ r,
        (clientMachine glib own).step t (.receive ip' port' reply)
          = some (none, { t with heap := t.heap ++ [⟨r, 0⟩] })
        ∧ r.command &&& 0xff = CMD_RECVMSG ∧ r.data = numeral 10 time.toNat ++ [0]
  := by
  have hheader := @printHeader_length_le sender 0 0x120 time (by decide) (by decide)
  have hdatagram : (printHeader sender 0 time 0x120 ++ text).length < sizeofBuf := by
    rw [List.length_append, sizeofBuf]
    omega
  refine ⟨printHeader sender 0 time 0x120 ++ text, ?_, ?_⟩
  · rw [onSendMessage_eq hne, if_neg]
    rw [sizeofBuf] at hdatagram
    rw [sizeofSendBuf]
    omega
  intro time' beyond plain
  have hparse := parseMessage_header hsep ip port 0 time 0x120 text hdatagram
  have hcommand := @printedMsg_command sender ip port 0 time 0x120 text (by decide)
  have hreply : (printReply cfg time' (printedMsg sender ip port 0 time 0x120 text)).length
      < 1024 :=
    printReply_length_lt cfg time' sender.username.fits sender.hostname.fits time.toNat_lt rfl
  obtain ⟨s', hrun, h⟩ :=
    message_acknowledged hglib hidle hparse hcommand hfind hutf8 hnul rfl hreply beyond plain
  refine ⟨_, s', _, hrun, h.pc, h.ulist, h.mlist, h.heap, rfl, rfl, rfl, rfl, ?_⟩
  intro own t ip' port' ht
  obtain ⟨r, hstep, -, hcmd, hdata⟩ := receipt_taken glib cfg own time' hmac
    ⟨hsep.username, sender.username.nul⟩ ⟨hsep.hostname, sender.hostname.nul⟩ hreply ht ip' port'
  exact ⟨r, hstep, hcmd, hdata⟩

/-- A private message of `a` to `b`, who lists it. -/
theorem private_message_acknowledged_hi :
  ∃ datagram, onSendMessage configA 7 ⟨ascii "now", by decide, by decide⟩ (ascii "hi")
      = .ok (some datagram)
    ∧ ∀ time' beyond plain, ∃ reply s' m,
      (clientMachine asciiGlib configB).run clientOfA
          (sendmsgEvents (ascii "10.0.0.1") 2425 datagram time' beyond plain)
        = some (List.replicate 5 none ++ [some reply], s')
      ∧ s'.pc = .idle ∧ s'.ulist = clientOfA.ulist ∧ s'.mlist = [0] ∧ s'.heap = [⟨m, 0⟩]
      ∧ m.ip = ascii "10.0.0.1" ∧ m.user = some 0 ∧ m.gpid = some 0 ∧ m.data = ascii "hi" ++ [0]
      ∧ ∀ own t ip' port', t.pc = .idle → ∃ r,
        (clientMachine asciiGlib own).step t (.receive ip' port' reply)
          = some (none, { t with heap := t.heap ++ [⟨r, 0⟩] })
        ∧ r.command &&& 0xff = CMD_RECVMSG ∧ r.data = numeral 10 7 ++ [0]
  := by
  have hutf8 : IsUtf8 (ascii "hi") := isUtf8_of_ascii (by decide +kernel)
  apply private_message_acknowledged (fun _ _ => rfl) ⟨by decide, by decide, by decide⟩ (by decide)
    (by decide) hutf8 (by decide) (by decide) rfl rfl

end Peer

end IFreeChat
