import IFreeChat.Peer.Handlers
import IFreeChat.Peer.MessageBlock

/-!
# Receipts

A private message whose command has `OPT_SENDCHECK` is answered with a receipt, a datagram
that `send_reply_msg` prints from the configuration and from the message.  The user and host
names in it are those of the message, where the reply to an entry has those of the
configuration.

A receipt is decoded with the names of its sender exactly when the message it answers had the
same ones (`acknowledged_iff`).
-/

open Basis

namespace IFreeChat

open Feiq (colon IsField)

namespace Peer

/-! ### Sending -/

/-- A datagram that is sent, and where to. -/
structure Sent where
  ip : List UInt8
  port : UInt16
  buf : List UInt8
deriving DecidableEq

/-- Where the handler that runs sends its datagram: the source of its message. -/
def Client.destination (s : Client) : Option (List UInt8 × UInt16) :=
  match s.pc with
  | .entryAdd id _ | .sendReply id => (s.heap[id]?).map fun b => (b.msg.ip, b.msg.port)
  | _ => none

/-- The datagram of a step with its destination. -/
def Client.sent (s : Client) (buf : Option (List UInt8)) : Option Sent := do
  let buf ← buf
  let (ip, port) ← s.destination
  some ⟨ip, port, buf⟩

variable (glib : Glib) (cfg : Config)

/-- `clientMachine` with the destinations of its datagrams. -/
def sendingMachine : Machine Client ClientEvent (Option Sent) where
  step s e := ((clientMachine glib cfg).step s e).map fun r => (s.sent r.1, r.2)

/-- What is sent along a run. -/
def sends (s : Client) (es : List ClientEvent) : Option (List Sent) :=
  ((sendingMachine glib cfg).run s es).map fun r => r.1.reduceOption

/-- A private message is received, and the five critical sections of its handler follow. -/
def sendmsgEvents (ip : List UInt8) (port : UInt16) (datagram : List UInt8) (time : UInt64)
    (beyond plain : List UInt8) : List ClientEvent :=
  .receive ip port datagram :: List.replicate 5 (.handle time beyond plain)

/-- A datagram is decoded by `parse_message` as the receipt of a packet. -/
def IsReceipt (packetNo buf : List UInt8) : Prop :=
  ∀ ip port, ∃ msg, parseMessage ip port (recvBuffer buf) (recvSize buf) = .ok msg
    ∧ msg.username = cfg.username.text ∧ msg.hostname = cfg.hostname.text
    ∧ msg.command &&& 0xff = CMD_RECVMSG ∧ msg.data = packetNo ++ [0]

/-- The handler returns, having sent one datagram if the command asks for it and none
otherwise: to the source of the message, from a buffer it fits, and decoded as the receipt. -/
def Acknowledged (s : Client) (ip : List UInt8) (port : UInt16) (datagram : List UInt8)
    (time : UInt64) (beyond plain : List UInt8) (command : Nat) (packetNo : List UInt8) : Prop :=
  if command &&& OPT_SENDCHECK = 0 then
    sends glib cfg s (sendmsgEvents ip port datagram time beyond plain) = some []
  else ∃ buf,
    sends glib cfg s (sendmsgEvents ip port datagram time beyond plain) = some [⟨ip, port, buf⟩]
      ∧ buf.length < 1024 ∧ IsReceipt cfg packetNo buf

/-- The conversion of the data, if there is one, is no longer than the data. -/
def ConversionFits (data : List UInt8) : Prop :=
  ∀ string ∈ stringValidate glib (untilNul data) (ascii "gbk"), string.length ≤ data.length

instance (data : List UInt8) : Decidable (ConversionFits glib data) :=
  inferInstanceAs (Decidable (∀ string ∈ stringValidate glib (untilNul data) (ascii "gbk"), _))

/-- The message has the names of the configuration, the hardware address no colon, and the
receipt fits its buffer. -/
structure OwnNames (time : UInt64) (p : Pieces) : Prop where
  username : p.username = cfg.username.text
  hostname : p.hostname = cfg.hostname.text
  macaddr : colon ∉ cfg.macaddr.text
  fits : (decimal cfg.avatarId.toInt).length + cfg.macaddr.text.length
    + (numeral 10 time.toNat).length + p.username.length + p.hostname.length + p.packetNo.length
    + 25 < 1024

/-- The buffer has as much of a datagram as it holds, with some bytes after it. -/
theorem recvBuffer_take (d : List UInt8) :
  ∃ tail, recvBuffer d = d.take sizeofBuf ++ tail ∧ recvSize d = (d.take sizeofBuf).length
  := by
  rw [recvBuffer, recvSize, List.length_take, Nat.min_comm]
  split
  · rename_i hlt
    use [0]
    rw [List.take_of_length_le (Nat.le_of_lt hlt)]
    exact ⟨rfl, rfl⟩
  · use []
    rw [List.append_nil]
    exact ⟨rfl, rfl⟩

/-! ### The text of a receipt -/

/-- The pieces of a receipt. -/
def receiptPieces (time : UInt64) (msg : Msg) : Pieces where
  version := printVersion cfg 0
  packetNo := numeral 10 time.toNat
  username := msg.username
  hostname := msg.hostname
  cmd := numeral 10 CMD_RECVMSG
  data := msg.packetNo

variable {glib cfg}

theorem printReply_eq (time : UInt64) (msg : Msg) :
  printReply cfg time msg = (receiptPieces cfg time msg).text
  := by
  have hcolon : ascii ":" = [colon] := rfl
  simp only [printReply, receiptPieces, Pieces.text, hcolon, List.append_assoc, List.cons_append,
    List.nil_append]

theorem printReply_length (cfg : Config) (time : UInt64) (msg : Msg) :
  (printReply cfg time msg).length = (decimal cfg.avatarId.toInt).length
    + cfg.macaddr.text.length + (numeral 10 time.toNat).length + msg.username.length
    + msg.hostname.length + msg.packetNo.length + 25
  := by
  have hcmd : (numeral 10 CMD_RECVMSG).length = 2 := by decide +kernel
  have hsize : (numeral 10 0).length = 1 := by decide +kernel
  have htexts : (ascii "1_lbt4_").length = 7 ∧ (ascii "#128#").length = 5
      ∧ (ascii "#0#0#").length = 5 := by decide
  obtain ⟨h₁, h₂, h₃⟩ := htexts
  rw [printReply_eq]
  simp only [receiptPieces, printVersion, Pieces.text, List.length_append, List.length_cons, hcmd,
    hsize, h₁, h₂, h₃]
  omega

theorem receiptPieces_split (time : UInt64) {msg : Msg} (hmac : colon ∉ cfg.macaddr.text)
    (husername : IsField msg.username) (hhostname : IsField msg.hostname) :
  (receiptPieces cfg time msg).Split
  where
  version := by
    constructor
    · apply not_mem_printVersion 0 (by decide) (by decide) (by decide) hmac
    · apply not_mem_printVersion 0 (by decide) (by decide) (by decide) cfg.macaddr.nul
  packetNo := isField_numeral _
  username := husername
  hostname := hhostname
  cmd := isField_numeral CMD_RECVMSG

/-- The colons of a version are those of the hardware address. -/
theorem count_printVersion (size : Nat) :
  (printVersion cfg size).count colon = cfg.macaddr.text.count colon
  := by
  have hdecimal : colon ∉ decimal cfg.avatarId.toInt :=
    not_mem_decimal _ (by decide) (by decide)
  have htexts : (ascii "1_lbt4_").count colon = 0 ∧ (ascii "#128#").count colon = 0
      ∧ (ascii "#0#0#").count colon = 0 := by decide
  obtain ⟨h₁, h₂, h₃⟩ := htexts
  simp only [printVersion, List.count_append, h₁, h₂, h₃,
    List.count_eq_zero_of_not_mem hdecimal,
    List.count_eq_zero_of_not_mem (isField_numeral size).1]
  omega

/-- The colons of pieces that are split are those between them and those of the data. -/
theorem count_text {p : Pieces} (hpacketNo : colon ∉ p.packetNo) (husername : colon ∉ p.username)
    (hhostname : colon ∉ p.hostname) (hcmd : colon ∉ p.cmd) :
  p.text.count colon = p.version.count colon + 5 + p.data.count colon
  := by
  simp only [Pieces.text, List.count_append, List.count_cons_self,
    List.count_eq_zero_of_not_mem hpacketNo, List.count_eq_zero_of_not_mem husername,
    List.count_eq_zero_of_not_mem hhostname, List.count_eq_zero_of_not_mem hcmd]
  omega

section

variable (cfg) (time : UInt64) (msg : Msg) (hpacketNo : IsField msg.packetNo)
  (husername : IsField msg.username) (hhostname : IsField msg.hostname)

include hpacketNo husername hhostname

/-- A receipt has five colons, and those of the hardware address. -/
theorem count_printReply :
  (printReply cfg time msg).count colon = cfg.macaddr.text.count colon + 5
  := by
  rw [printReply_eq, count_text (isField_numeral time.toNat).1 husername.1 hhostname.1
    (isField_numeral CMD_RECVMSG).1]
  simp only [receiptPieces, count_printVersion, List.count_eq_zero_of_not_mem hpacketNo.1]

theorem separated_printReply :
  Separated (printReply cfg time msg)
  := by
  have hversion : 0 ∉ printVersion cfg 0 :=
    not_mem_printVersion 0 (by decide) (by decide) (by decide) cfg.macaddr.nul
  have hnul : 0 ∉ printReply cfg time msg := by
    simp only [printReply_eq, receiptPieces, Pieces.text, List.mem_append, List.mem_cons, not_or]
    exact ⟨hversion, by decide, (isField_numeral _).2, by decide, husername.2, by decide,
      hhostname.2, by decide, (isField_numeral _).2, by decide, hpacketNo.2⟩
  rw [Separated, untilNul_of_not_mem hnul,
    count_printReply cfg time msg hpacketNo husername hhostname]
  omega

/-- A receipt is decoded as one with the names of the configuration exactly when the message
has them and no colon separates the hardware address. -/
theorem isReceipt_iff (hlength : (printReply cfg time msg).length < sizeofBuf) :
  IsReceipt cfg msg.packetNo (printReply cfg time msg)
    ↔ msg.username = cfg.username.text ∧ msg.hostname = cfg.hostname.text
      ∧ colon ∉ cfg.macaddr.text
  := by
  have hparse : ∀ p : Pieces, p.Split → printReply cfg time msg = p.text → ∀ ip port,
      parseMessage ip port (recvBuffer (printReply cfg time msg))
        (recvSize (printReply cfg time msg)) = .ok (p.msg ip port) := by
    intro p hp htext ip port
    obtain ⟨tail, hbuffer, hsize, -⟩ := recvBuffer_eq (Nat.le_of_lt hlength)
    rw [hbuffer, hsize, htext]
    apply p.parse_text hp
  constructor
  · intro h
    have hmac : colon ∉ cfg.macaddr.text := by
      -- any other colons would be found in the data
      obtain ⟨p, htext, hp⟩ :=
        exists_pieces (separated_printReply cfg time msg hpacketNo husername hhostname)
      obtain ⟨msg', hmsg', -, -, -, hdata⟩ := h [] 0
      rw [hparse p hp htext] at hmsg'
      cases hmsg'
      have hcount := count_printReply cfg time msg hpacketNo husername hhostname
      rw [htext, count_text hp.packetNo.1 hp.username.1 hp.hostname.1 hp.cmd.1,
        List.append_cancel_right hdata, List.count_eq_zero_of_not_mem hpacketNo.1] at hcount
      rw [← List.count_eq_zero]
      have := List.count_eq_zero_of_not_mem hp.version.1
      omega
    have hsplit := receiptPieces_split time hmac husername hhostname
    obtain ⟨msg', hmsg', huser, hhost, -⟩ := h [] 0
    rw [hparse _ hsplit (printReply_eq time msg)] at hmsg'
    cases hmsg'
    exact ⟨huser, hhost, hmac⟩
  · rintro ⟨huser, hhost, hmac⟩ ip port
    have hsplit := receiptPieces_split time hmac husername hhostname
    refine ⟨_, hparse _ hsplit (printReply_eq time msg) ip port, huser, hhost, ?_, rfl⟩
    have hatoi := atoi_numeral (by decide : CMD_RECVMSG < 2 ^ 31)
      (by simp : ∀ c ∈ ([] : List UInt8).head?, digitValue 10 c = none)
    rw [List.append_nil] at hatoi
    rw [Msg.command, Pieces.msg, receiptPieces, hatoi]
    rfl

end

/-! ### The run of the handler -/

theorem sends_cons {s s' : Client} {e : ClientEvent} {o : Option (List UInt8)}
    (h : (clientMachine glib cfg).step s e = some (o, s')) (es : List ClientEvent) :
  sends glib cfg s (e :: es) = (sends glib cfg s' es).map fun sent => (s.sent o).toList ++ sent
  := by
  have hstep : (sendingMachine glib cfg).step s e = some (s.sent o, s') := by
    simp only [sendingMachine, h, Option.map_some]
  rw [sends, Machine.run, hstep, sends]
  simp only
  cases (sendingMachine glib cfg).run s' es with
  | none => rfl
  | some r =>
    obtain ⟨os, t⟩ := r
    cases s.sent o with
    | none => rfl
    | some sent => rfl

theorem sends_stuck {s : Client} {e : ClientEvent}
    (h : (clientMachine glib cfg).step s e = none) (es : List ClientEvent) :
  sends glib cfg s (e :: es) = none
  := by
  have hstep : (sendingMachine glib cfg).step s e = none := by
    simp only [sendingMachine, h, Option.map_none]
  rw [sends, Machine.run, hstep]
  rfl

theorem Client.sent_none (s : Client) :
  s.sent none = none
  := rfl

/-- The handler is at `pc`, and the message of its block is `msg`. -/
structure Handling (s : Client) (pc : Pc) (ulist : List User) (id : Nat) (msg : Msg) : Prop where
  pc : s.pc = pc
  ulist : s.ulist = ulist
  block : ∃ b, s.heap[id]? = some b ∧ b.msg = msg

section

variable {s : Client} {ulist : List User} {id : Nat} {msg : Msg}

/-- The message of the block is changed by the next step. -/
theorem Handling.update {pc : Pc} (h : Handling s pc ulist id msg) (f : Msg → Msg) (pc' : Pc) :
  Handling { s.update id f with pc := pc' } pc' ulist id (f msg)
  := by
  obtain ⟨b, hb, rfl⟩ := h.block
  exact ⟨rfl, h.ulist, _, getElem?_modify_self hb, rfl⟩

theorem Client.link_frame (s : Client) (id : Nat) :
  (s.link id).heap = s.heap ∧ (s.link id).ulist = s.ulist
  := by
  rw [link]
  cases s.mlist.getLast? with
  | none => exact ⟨rfl, rfl⟩
  | some last => exact ⟨rfl, rfl⟩

variable (glib cfg)

theorem handling_receive {ip : List UInt8} {port : UInt16} {datagram : List UInt8}
    (hidle : s.pc = .idle)
    (hparse : parseMessage ip port (recvBuffer datagram) (recvSize datagram) = .ok msg)
    (hcmd : msg.command &&& 0xff = CMD_SENDMSG) :
  ∃ s', (clientMachine glib cfg).step s (.receive ip port datagram) = some (none, s')
    ∧ Handling s' (.sendLink s.heap.length) s.ulist s.heap.length msg
  := by
  have hentry : ¬ isEntryCommand msg.command := by
    rw [isEntryCommand, hcmd]
    decide
  have hhandler : handlerOf msg.command s.heap.length = .sendLink s.heap.length := by
    rw [handlerOf, if_neg hentry, if_pos hcmd]
  refine ⟨{ s with heap := s.heap ++ [⟨msg, 0⟩], pc := .sendLink s.heap.length }, ?_, rfl, rfl,
    _, List.getElem?_concat_length, rfl⟩
  simp only [clientMachine, Client.receive, if_pos hidle, hparse, hhandler, Option.map_some]

variable (time : UInt64) (beyond plain : List UInt8)

theorem handling_sendLink (h : Handling s (.sendLink id) ulist id msg) :
  ∃ s', (clientMachine glib cfg).step s (.handle time beyond plain) = some (none, s')
    ∧ Handling s' (.sendConvert id) ulist id { msg with gpid := some 0 }
  := by
  obtain ⟨hheap, hulist⟩ := (s.update id fun m => { m with gpid := some 0 }).link_frame id
  have hupdate := h.update (fun m => { m with gpid := some 0 }) (.sendConvert id)
  refine ⟨{ (s.update id fun m => { m with gpid := some 0 }).link id with
    pc := .sendConvert id }, ?_, rfl, hulist.trans hupdate.ulist, ?_⟩
  · simp only [clientMachine, Client.handle, h.pc]
  · rw [hheap]
    exact hupdate.block

theorem handling_sendConvert (h : Handling s (.sendConvert id) ulist id msg) :
  match convertData glib beyond msg with
  | .error _ => (clientMachine glib cfg).step s (.handle time beyond plain) = none
  | .ok msg' => ∃ s', (clientMachine glib cfg).step s (.handle time beyond plain) = some (none, s')
      ∧ Handling s' (.sendFind id) ulist id msg'
  := by
  obtain ⟨b, hb, hmsg⟩ := h.block
  cases hconvert : convertData glib beyond msg with
  | error e => simp [clientMachine, Client.handle, h.pc, hb, hmsg, hconvert]
  | ok msg' =>
    refine ⟨_, ?_, h.update (fun _ => msg') (.sendFind id)⟩
    simp [clientMachine, Client.handle, h.pc, hb, hmsg, hconvert]

theorem handling_sendFind (h : Handling s (.sendFind id) ulist id msg)
    (hknown : msg.ip ∈ ipaddrs ulist) :
  ∃ s' i, (clientMachine glib cfg).step s (.handle time beyond plain) = some (none, s')
    ∧ Handling s' (.sendShow id) ulist id { msg with user := some i }
  := by
  obtain ⟨b, hb, hmsg⟩ := h.block
  cases hfind : findUser ulist msg.ip with
  | none => apply absurd hknown (findUser_eq_none.mp hfind)
  | some i =>
    refine ⟨_, i, ?_, h.update (fun m => { m with user := some i }) (.sendShow id)⟩
    simp [clientMachine, Client.handle, h.pc, h.ulist, hb, hmsg, hfind]

theorem handling_sendShow (h : Handling s (.sendShow id) ulist id msg) :
  ∃ s', (clientMachine glib cfg).step s (.handle time beyond plain) = some (none, s')
    ∧ Handling s' (.sendReply id) ulist id msg
  := by
  refine ⟨{ s.touch id with pc := .sendReply id }, ?_, rfl, h.ulist, h.block⟩
  simp only [clientMachine, Client.handle, h.pc]

/-- The reply is sent to the source of the message. -/
theorem sends_sendReply (h : Handling s (.sendReply id) ulist id msg) :
  sends glib cfg s [.handle time beyond plain]
    = if msg.command &&& OPT_SENDCHECK = 0 then some []
      else if 1024 ≤ (printReply cfg time msg).length then none
      else some [⟨msg.ip, msg.port, printReply cfg time msg⟩]
  := by
  obtain ⟨b, hb, rfl⟩ := h.block
  have hstep : (clientMachine glib cfg).step s (.handle time beyond plain)
      = if b.msg.command &&& OPT_SENDCHECK = 0 then some (none, { s.touch id with pc := .idle })
        else if 1024 ≤ (printReply cfg time b.msg).length then none
        else some (some (printReply cfg time b.msg), { s.touch id with pc := .idle }) := by
    simp [clientMachine, Client.handle, h.pc, hb]
  have hnil : ∀ s, sends glib cfg s [] = some [] := fun s => rfl
  by_cases hcheck : b.msg.command &&& OPT_SENDCHECK = 0
  · rw [if_pos hcheck] at hstep ⊢
    rw [sends_cons hstep, hnil]
    rfl
  · rw [if_neg hcheck] at hstep ⊢
    by_cases hlength : 1024 ≤ (printReply cfg time b.msg).length
    · rw [if_pos hlength] at hstep ⊢
      apply sends_stuck hstep
    · rw [if_neg hlength] at hstep ⊢
      rw [sends_cons hstep, hnil, Client.sent, Client.destination, h.pc]
      simp [hb]

end

/-- The data is converted exactly where the conversion fits, and nothing else changes. -/
theorem convertData_fits (glib : Glib) (msg : Msg) {data : List UInt8}
    (hdata : msg.data = data ++ [0]) (beyond : List UInt8) :
  if ConversionFits glib data then
    ∃ data', convertData glib beyond msg = .ok { msg with data := data' }
  else convertData glib beyond msg = .error .writeOutside
  := by
  obtain ⟨after, hstring⟩ := cString_append_zero data beyond
  have hmemory : msg.data ++ beyond = data ++ 0 :: beyond := by
    rw [hdata, List.append_assoc]
    rfl
  have hlength : msg.data.length = data.length + 1 := by
    rw [hdata, List.length_append]
    rfl
  cases hvalidate : stringValidate glib (untilNul data) (ascii "gbk") with
  | none =>
    have hconvert : convertData glib beyond msg = .ok msg := by
      simp only [convertData, hmemory, hstring, bind, Except.bind, hvalidate]
    rw [if_pos (by simp [ConversionFits, hvalidate]), hconvert]
    use msg.data
  | some string =>
    have hfits : ConversionFits glib data ↔ string.length ≤ data.length := by
      simp [ConversionFits, hvalidate]
    have hconvert : convertData glib beyond msg
        = if msg.data.length ≤ string.length then .error .writeOutside
          else .ok (msg.strcpyData string) := by
      simp only [convertData, hmemory, hstring, bind, Except.bind, hvalidate]
    simp only [hconvert, hfits, hlength]
    by_cases hle : string.length ≤ data.length
    · rw [if_pos hle, if_neg (by omega)]
      exact ⟨_, rfl⟩
    · rw [if_neg hle, if_pos (by omega)]

/-- What a private message makes the program send. -/
theorem sends_sendmsg (glib : Glib) (cfg : Config) {s : Client} (hidle : s.pc = .idle)
    {ip : List UInt8} (hknown : ip ∈ ipaddrs s.ulist) {port : UInt16} {datagram : List UInt8}
    {p : Pieces} (hp : p.Split) (hd : datagram.take sizeofBuf = p.text)
    (hcmd : (p.msg ip port).command &&& 0xff = CMD_SENDMSG) (time : UInt64)
    (beyond plain : List UInt8) :
  sends glib cfg s (sendmsgEvents ip port datagram time beyond plain)
    = if ConversionFits glib p.data then
        if (p.msg ip port).command &&& OPT_SENDCHECK = 0 then some []
        else if 1024 ≤ (printReply cfg time (p.msg ip port)).length then none
        else some [⟨ip, port, printReply cfg time (p.msg ip port)⟩]
      else none
  := by
  have hparse : parseMessage ip port (recvBuffer datagram) (recvSize datagram)
      = .ok (p.msg ip port) := by
    obtain ⟨tail, hbuffer, hsize⟩ := recvBuffer_take datagram
    rw [hbuffer, hsize, hd]
    apply p.parse_text hp
  obtain ⟨s₁, hstep₁, h₁⟩ := handling_receive glib cfg hidle hparse hcmd
  obtain ⟨s₂, hstep₂, h₂⟩ := handling_sendLink glib cfg time beyond plain h₁
  have hconvert := convertData_fits glib { p.msg ip port with gpid := some 0 } rfl beyond
  have h₃ := handling_sendConvert glib cfg time beyond plain h₂
  rw [sendmsgEvents, sends_cons hstep₁, List.replicate_succ, sends_cons hstep₂,
    List.replicate_succ]
  by_cases hfits : ConversionFits glib p.data
  · rw [if_pos hfits] at hconvert ⊢
    obtain ⟨data, hdata⟩ := hconvert
    rw [hdata] at h₃
    obtain ⟨s₃, hstep₃, h₃⟩ := h₃
    obtain ⟨s₄, i, hstep₄, h₄⟩ := handling_sendFind glib cfg time beyond plain h₃ hknown
    obtain ⟨s₅, hstep₅, h₅⟩ := handling_sendShow glib cfg time beyond plain h₄
    have hreply := sends_sendReply glib cfg time beyond plain h₅
    rw [sends_cons hstep₃, List.replicate_succ, sends_cons hstep₄, List.replicate_succ,
      sends_cons hstep₅, List.replicate_succ, List.replicate_zero, hreply]
    simp only [Client.sent_none, Option.toList_none, List.nil_append, Option.map_id']
    rfl
  · rw [if_neg hfits] at hconvert ⊢
    rw [hconvert] at h₃
    rw [sends_stuck h₃]
    rfl

/-- A private message from a known user is acknowledged exactly when its conversion fits and,
where a receipt is asked for, it has the names of the configuration, the hardware address has
no colon and the receipt fits its buffer. -/
theorem acknowledged_iff {s : Client} (hidle : s.pc = .idle) {ip : List UInt8}
    (hknown : ip ∈ ipaddrs s.ulist) {port : UInt16} {datagram : List UInt8} {p : Pieces}
    (hp : p.Split) (hd : datagram.take sizeofBuf = p.text)
    (hcmd : (p.msg ip port).command &&& 0xff = CMD_SENDMSG) (time : UInt64)
    (beyond plain : List UInt8) :
  Acknowledged glib cfg s ip port datagram time beyond plain (p.msg ip port).command p.packetNo
    ↔ ConversionFits glib p.data
      ∧ ((p.msg ip port).command &&& OPT_SENDCHECK ≠ 0 → OwnNames cfg time p)
  := by
  have hsends := sends_sendmsg glib cfg hidle hknown hp hd hcmd time beyond plain
  have hlength := printReply_length cfg time (p.msg ip port)
  rw [Acknowledged, hsends]
  by_cases hfits : ConversionFits glib p.data
  · by_cases hcheck : (p.msg ip port).command &&& OPT_SENDCHECK = 0
    · simp [hfits, hcheck]
    · have hreceipt : (printReply cfg time (p.msg ip port)).length < 1024 →
          (IsReceipt cfg p.packetNo (printReply cfg time (p.msg ip port))
            ↔ p.username = cfg.username.text ∧ p.hostname = cfg.hostname.text
              ∧ colon ∉ cfg.macaddr.text) := by
        intro hlt
        apply isReceipt_iff cfg time (p.msg ip port) hp.packetNo hp.username hp.hostname
        rw [sizeofBuf]
        omega
      simp only [if_pos hfits, if_neg hcheck]
      constructor
      · rintro ⟨buf, hbuf, hlt, h⟩
        refine ⟨hfits, fun _ => ?_⟩
        split at hbuf
        · cases hbuf
        · obtain rfl : printReply cfg time (p.msg ip port) = buf := by simpa using hbuf
          obtain ⟨huser, hhost, hmac⟩ := (hreceipt hlt).mp h
          exact ⟨huser, hhost, hmac, hlength ▸ hlt⟩
      · rintro ⟨-, hown⟩
        obtain ⟨huser, hhost, hmac, hlt⟩ := hown hcheck
        have hlt : (printReply cfg time (p.msg ip port)).length < 1024 := hlength ▸ hlt
        rw [if_neg (by omega)]
        exact ⟨_, rfl, hlt, (hreceipt hlt).mpr ⟨huser, hhost, hmac⟩⟩
  · simp [hfits]

/-- A private message of `a` that asks for a receipt. -/
def checkPieces : Pieces where
  version := ascii "1_lbt4_1#128#a#0#0#0"
  packetNo := ascii "7"
  username := ascii "a"
  hostname := ascii "a"
  cmd := ascii "288"
  data := ascii "hi"

theorem checkPieces_split :
  checkPieces.Split
  where
  version := (by decide +kernel : IsField (ascii "1_lbt4_1#128#a#0#0#0"))
  packetNo := (by decide : IsField (ascii "7"))
  username := (by decide : IsField (ascii "a"))
  hostname := (by decide : IsField (ascii "a"))
  cmd := (by decide : IsField (ascii "288"))

/-- A peer that knows `a`. -/
def clientKnowing : Client :=
  let user : User := {
    nickname := ascii "a"
    username := ascii "a"
    hostname := ascii "a"
    avatar := avatarPath 1
    ipaddr := ascii "10.0.0.1"
    macaddr := ascii "a"
    signature := ascii "hello"
    category := ascii "a"
    encoding := ascii "GBK" }
  { Client.start with ulist := [user] }

/-- A receipt for a peer of one's own name. -/
theorem acknowledged_self :
  Acknowledged asciiGlib configA clientKnowing (ascii "10.0.0.1") 2425 checkPieces.text 1 [] []
    (checkPieces.msg (ascii "10.0.0.1") 2425).command checkPieces.packetNo
  := by
  apply (acknowledged_iff rfl (by decide +kernel) checkPieces_split (by decide +kernel)
    (by decide +kernel) 1 [] []).mpr
  refine ⟨by decide +kernel, fun _ => ⟨rfl, rfl, by decide, by decide +kernel⟩⟩

/-- The receipt for another peer has that peer's names. -/
theorem receipt_not_own :
  ¬ Acknowledged asciiGlib configB clientKnowing (ascii "10.0.0.1") 2425 checkPieces.text 1 [] []
    (checkPieces.msg (ascii "10.0.0.1") 2425).command checkPieces.packetNo
  := by
  have hcheck : (checkPieces.msg (ascii "10.0.0.1") 2425).command &&& OPT_SENDCHECK ≠ 0 := by
    decide +kernel
  rw [Acknowledged, if_neg hcheck, sends_sendmsg asciiGlib configB rfl (by decide +kernel)
    checkPieces_split (by decide +kernel) (by decide +kernel), if_pos (by decide +kernel),
    if_neg hcheck]
  rintro ⟨buf, hbuf, hlt, hreceipt⟩
  split at hbuf
  · cases hbuf
  · rename_i hlength
    obtain rfl : printReply configB 1 (checkPieces.msg (ascii "10.0.0.1") 2425) = buf := by
      simpa using hbuf
    obtain ⟨huser, -⟩ := (isReceipt_iff configB 1 (checkPieces.msg (ascii "10.0.0.1") 2425)
      checkPieces_split.packetNo checkPieces_split.username checkPieces_split.hostname
      (Nat.lt_trans hlt (by decide))).mp hreceipt
    revert huser
    decide

end Peer

end IFreeChat
