import Mathlib.Data.Fintype.Basic
import Mathlib.Data.List.Nodup
import IFreeChat.Basis.Machine
import IFreeChat.Ifc.PoolBlocks

/-!
# Delivery of private messages

A private message from a user whose chatbox is open is inserted into the chatbox as it
arrives; otherwise it is queued in `mlist`, and a click on the tray icon takes the first
message of the queue.  A state records the messages received, and every insertion of a
message into a chatbox.  Messages and chatboxes are blocks of the pool.  A block that the pool
gives, to them or to the rest of the program, overwrites what it meets.

As long as the pool gives no block that meets one in use, no click takes a message of a user whose
chatbox is open already, and no message arrives into a chatbox past one still queued, every
message is queued once or was inserted once, into a chatbox of its sender, in the order of
arrival (`run_delivered`).
-/

open Basis

namespace IFreeChat

namespace Delivery

/-- `msg_t`, with the place `id` it has among the messages received, and its block. -/
structure Msg (Ip Text : Type*) where
  id : Nat
  addr : Nat
  ip : Ip
  mtime : Nat
  gpid : Nat
  data : Text
deriving DecidableEq

/-- A private chatbox: `data` is the entry of its user, and `addr` its block. -/
structure Chatbox (User : Type*) where
  id : Nat
  addr : Nat
  data : User
deriving DecidableEq

/-- `ifreechat_t`: the users found under an address, the chatbox of a user, and the queued
messages with the users `user_data` points to, and the blocks that the rest of the program has
of the pool.  Besides, the number of chatboxes created, the messages inserted into them, given
back to the pool, and received. -/
structure State (Ip User Text : Type*) where
  ulist : Ip → Option User
  chatbox : User → Option (Chatbox User)
  mlist : List (Msg Ip Text × User)
  blinking : Bool
  others : List Extent
  created : Nat
  inserted : List (Chatbox User × Msg Ip Text)
  freed : List (Msg Ip Text)
  received : List (Msg Ip Text)

variable {Ip User Text : Type*} [DecidableEq User]

/-- `mem_pool_alloc` of these addresses: of the messages and the chatboxes that it meets nothing
is left. -/
def memPoolAlloc (s : State Ip User Text) (r : Extent) : State Ip User Text :=
  { s with
    mlist := r.spared (fun p => msgExtent p.1.addr) s.mlist
    chatbox := fun user => (s.chatbox user).filter fun c => r.Apart (chatboxExtent c.addr) }

/-- `chatbox_insert_msg`. -/
def chatboxInsertMsg (s : State Ip User Text) (chatbox : Chatbox User) (msg : Msg Ip Text) :
    State Ip User Text :=
  { s with inserted := s.inserted ++ [(chatbox, msg)] }

/-- `insert_chat_msg`. -/
def insertChatMsg (s : State Ip User Text) (userEntry : User) (msg : Msg Ip Text) :
    State Ip User Text :=
  match s.chatbox userEntry with
  | none => { s with mlist := s.mlist ++ [(msg, userEntry)], blinking := true }
  | some chatbox =>
      let s := chatboxInsertMsg s chatbox msg
      { s with freed := s.freed ++ [msg] }

/-- `on_pchat_callback` on a private message, which has `gpid` zero, in this block. -/
def onPchatCallback (s : State Ip User Text) (addr : Nat) (ip : Ip) (mtime : Nat) (data : Text) :
    Int × State Ip User Text :=
  match s.ulist ip with
  | none => (-1, s)
  | some userEntry =>
      let msg := { id := s.received.length, addr, ip, mtime, gpid := 0, data }
      (0, insertChatMsg { s with received := s.received ++ [msg] } userEntry msg)

/-- `new_pchatbox`, with the block the pool gives. -/
def newPchatbox (s : State Ip User Text) (user : User) (addr : Nat) :
    Chatbox User × State Ip User Text :=
  let s := memPoolAlloc s (chatboxExtent addr)
  let pchatbox := { id := s.created, addr, data := user }
  (pchatbox, { s with
    chatbox := Function.update s.chatbox user (some pchatbox)
    created := s.created + 1 })

/-- `tray_icon_activated`, with the block the pool gives for a new chatbox. -/
def trayIconActivated (s : State Ip User Text) (addr : Nat) : State Ip User Text :=
  match s.mlist with
  | [] => { s with blinking := false }
  | (msg, userEntry) :: mlist =>
      let s := { s with mlist }
      let s :=
        if msg.gpid = 0 then
          match s.chatbox userEntry with
          | some _ => s
          | none =>
              let (chatbox, s) := newPchatbox s userEntry addr
              chatboxInsertMsg s chatbox msg
        else s
      { s with
        blinking := if s.mlist.isEmpty then false else s.blinking
        freed := s.freed ++ [msg] }

/-- `contact_treeview_ondoubleclicked` on the row of `userEntry`, with the block the pool gives
for a new chatbox. -/
def contactTreeviewOndoubleclicked (s : State Ip User Text) (userEntry : User) (addr : Nat) :
    State Ip User Text :=
  match s.chatbox userEntry with
  | some _ => s
  | none => (newPchatbox s userEntry addr).2

/-- `close_chatbox`. -/
def closeChatbox (s : State Ip User Text) (chatbox : Chatbox User) : State Ip User Text :=
  { s with chatbox := Function.update s.chatbox chatbox.data none }

/-- What happens to the program: a message comes in, the tray icon is clicked, the row of a
user is double-clicked, or the chatbox of a user is closed; the address is that of the block that
the pool gives if it is asked.  The rest of the program (its packets, entries and tables) takes a
block from the pool or gives one back. -/
inductive Event (Ip User Text : Type*) where
  | arrive (addr : Nat) (ip : Ip) (mtime : Nat) (data : Text)
  | tray (addr : Nat)
  | doubleClick (user : User) (addr : Nat)
  | close (user : User)
  | alloc (r : Extent)
  | free (r : Extent)

/-- The machine of the program, answering with the return code of a callback that has one.
A chatbox that is not open is not closed. -/
def machine (Ip User Text : Type*) [DecidableEq User] :
    Machine (State Ip User Text) (Event Ip User Text) Int where
  step s
    | .arrive addr ip mtime data =>
        -- the block is taken by `process_message_loop`
        some (onPchatCallback (memPoolAlloc s (msgExtent addr)) addr ip mtime data)
    | .tray addr => some (0, trayIconActivated s addr)
    | .doubleClick user addr => some (0, contactTreeviewOndoubleclicked s user addr)
    | .close user => (s.chatbox user).map fun chatbox => (0, closeChatbox s chatbox)
    | .alloc r => some (0, { memPoolAlloc s r with others := r :: s.others })
    | .free r => some (0, { s with others := s.others.erase r })

/-- The program with a list of users, before any message. -/
def start (ulist : Ip → Option User) (others : List Extent) : State Ip User Text where
  ulist := ulist
  chatbox := fun _ => none
  mlist := []
  blinking := false
  others := others
  created := 0
  inserted := []
  freed := []
  received := []

/-! ### Delivery -/

namespace State

/-- The messages of `msgs` that `user` sent. -/
def sentBy (s : State Ip User Text) (user : User) (msgs : List (Msg Ip Text)) :
    List (Msg Ip Text) :=
  msgs.filter fun msg => s.ulist msg.ip = some user

/-- The messages inserted into chatboxes, in the order of insertion. -/
def shown (s : State Ip User Text) : List (Msg Ip Text) := s.inserted.map Prod.snd

/-- The messages queued. -/
def queued (s : State Ip User Text) : List (Msg Ip Text) := s.mlist.map Prod.fst

@[simp]
theorem sentBy_append (s : State Ip User Text) (user : User) (msgs msgs' : List (Msg Ip Text)) :
  s.sentBy user (msgs ++ msgs') = s.sentBy user msgs ++ s.sentBy user msgs'
  := List.filter_append ..

end State

/-- Every message received is queued once or was inserted once, insertions are into
chatboxes of the senders, and the messages of a user were inserted in the order they
arrived. -/
structure Delivered [DecidableEq Ip] [DecidableEq Text] (s : State Ip User Text) :
    Prop where
  once : ∀ msg ∈ s.received, s.queued.count msg + s.shown.count msg = 1
  own : ∀ p ∈ s.inserted, s.ulist p.2.ip = some p.1.data
  ordered : ∀ user, (s.sentBy user s.shown).IsPrefix (s.sentBy user s.received)

/-- The addresses that are taken meet no queued message, no open chatbox, and no block of the
rest of the program. -/
structure Unused (s : State Ip User Text) (r : Extent) : Prop where
  mlist : r.Unused (s.mlist.map fun p => msgExtent p.1.addr)
  chatbox : ∀ user, ∀ c ∈ s.chatbox user, r.Apart (chatboxExtent c.addr)
  others : r.Unused s.others

instance [Fintype User] (s : State Ip User Text) (r : Extent) : Decidable (Unused s r) :=
  decidable_of_iff (_ ∧ _ ∧ _) ⟨fun ⟨h₁, h₂, h₃⟩ => ⟨h₁, h₂, h₃⟩, fun ⟨h₁, h₂, h₃⟩ => ⟨h₁, h₂, h₃⟩⟩

/-- What happens where every message is delivered: the pool gives no block that meets one in use,
a click takes no message of a user whose chatbox is open, and none arrives into an open chatbox
while one of its user is queued. -/
def Careful (s : State Ip User Text) : Event Ip User Text → Prop
  | .arrive addr ip _ _ => Unused s (msgExtent addr)
      ∧ ∀ user ∈ s.ulist ip, s.chatbox user ≠ none → ∀ p ∈ s.mlist, p.2 ≠ user
  | .tray addr => ∀ p ∈ s.mlist.head?, s.chatbox p.2 = none ∧ Unused s (chatboxExtent addr)
  | .doubleClick user addr => s.chatbox user = none → Unused s (chatboxExtent addr)
  | .alloc r => Unused s r
  | .close _ | .free _ => True

instance [Fintype User] (s : State Ip User Text) : ∀ e, Decidable (Careful s e)
  | .arrive _ ip _ _ => inferInstanceAs (Decidable (_ ∧ ∀ user ∈ s.ulist ip, _ → _))
  | .tray _ => inferInstanceAs (Decidable (∀ p ∈ s.mlist.head?, _))
  | .doubleClick _ _ => inferInstanceAs (Decidable (_ → _))
  | .alloc r => inferInstanceAs (Decidable (Unused s r))
  | .close _ | .free _ => .isTrue trivial

/-- Every message is private, queued under its sender or inserted into a chatbox of it, and
the messages of a user, inserted and then queued, are those received, in their order. -/
structure Inv (s : State Ip User Text) : Prop where
  queue : ∀ p ∈ s.mlist, s.ulist p.1.ip = some p.2 ∧ p.1.gpid = 0
  chatbox : ∀ user, ∀ chatbox ∈ s.chatbox user, chatbox.data = user
  own : ∀ p ∈ s.inserted, s.ulist p.2.ip = some p.1.data
  perm : (s.shown ++ s.queued).Perm s.received
  order : ∀ user, s.sentBy user (s.shown ++ s.queued) = s.sentBy user s.received
  ids : s.received.map Msg.id = List.range s.received.length

theorem start_inv (ulist : Ip → Option User) (others : List Extent) :
  Inv (start ulist others : State Ip User Text)
  where
  queue := by simp [start]
  chatbox := by simp [start]
  own := by simp [start]
  perm := List.Perm.nil
  order _ := rfl
  ids := rfl

/-- The invariant gives delivery. -/
theorem Inv.delivered [DecidableEq Ip] [DecidableEq Text] {s : State Ip User Text}
    (h : Inv s) :
  Delivered s
  where
  once msg hmsg := by
    have hnodup : s.received.Nodup := by
      apply List.Nodup.of_map Msg.id
      rw [h.ids]
      apply List.nodup_range
    rw [Nat.add_comm, ← List.count_append, h.perm.count_eq]
    apply List.count_eq_one_of_mem hnodup hmsg
  own := h.own
  ordered user := by
    rw [← h.order user]
    apply List.IsPrefix.filter
    apply List.prefix_append

/-! ### One event -/

omit [DecidableEq User] in
/-- A block that meets none in use overwrites nothing. -/
theorem memPoolAlloc_eq_self {s : State Ip User Text} {r : Extent} (h : Unused s r) :
  memPoolAlloc s r = s
  := by
  have hchatbox : (fun user => (s.chatbox user).filter fun c => r.Apart (chatboxExtent c.addr))
      = s.chatbox := by
    funext user
    cases hc : s.chatbox user with
    | none => rfl
    | some c => exact if_pos (decide_eq_true (h.chatbox user c hc))
  rw [memPoolAlloc, Extent.spared_eq_self h.mlist, hchatbox]

/-- A new message, queued. -/
theorem Inv.queue_msg {s : State Ip User Text} (h : Inv s) {user : User} {ip : Ip}
    (huser : s.ulist ip = some user) (addr mtime : Nat) (data : Text) :
  let msg : Msg Ip Text := { id := s.received.length, addr, ip, mtime, gpid := 0, data }
  Inv { s with
    mlist := s.mlist ++ [(msg, user)]
    blinking := true
    received := s.received ++ [msg] }
  := by
  intro msg
  refine ⟨?_, h.chatbox, h.own, ?_, ?_, ?_⟩
  · intro p hp
    rcases List.mem_append.mp hp with hp | hp
    · apply h.queue p hp
    · cases List.mem_singleton.mp hp
      exact ⟨huser, rfl⟩
  · have := h.perm.append_right [msg]
    simpa [State.shown, State.queued] using this
  · intro user'
    have := congrArg (· ++ s.sentBy user' [msg]) (h.order user')
    simpa [State.sentBy, State.shown, State.queued] using this
  · simp [h.ids, List.range_succ, msg]

/-- A new message of a user none of whose messages is queued, inserted. -/
theorem Inv.insert_msg {s : State Ip User Text} (h : Inv s) {user : User} {ip : Ip}
    (huser : s.ulist ip = some user) {chatbox : Chatbox User} (hdata : chatbox.data = user)
    (hqueue : ∀ p ∈ s.mlist, p.2 ≠ user) (addr mtime : Nat) (data : Text) :
  let msg : Msg Ip Text := { id := s.received.length, addr, ip, mtime, gpid := 0, data }
  Inv { s with
    inserted := s.inserted ++ [(chatbox, msg)]
    freed := s.freed ++ [msg]
    received := s.received ++ [msg] }
  := by
  intro msg
  refine ⟨h.queue, h.chatbox, ?_, ?_, ?_, ?_⟩
  · intro p hp
    rcases List.mem_append.mp hp with hp | hp
    · apply h.own p hp
    · cases List.mem_singleton.mp hp
      rw [hdata]
      apply huser
  · have := (List.perm_append_comm_assoc s.shown [msg] s.queued).trans
      ((h.perm.cons msg).trans (List.perm_append_singleton msg s.received).symm)
    simpa [State.shown, State.queued] using this
  · intro user'
    have horder := h.order user'
    rw [State.sentBy_append] at horder
    change s.sentBy user' ((s.inserted ++ [(chatbox, msg)]).map Prod.snd ++ s.queued)
      = s.sentBy user' (s.received ++ [msg])
    rw [List.map_append, State.sentBy_append, State.sentBy_append, State.sentBy_append,
      ← horder, List.append_assoc, List.append_assoc]
    by_cases heq : user' = user
    · have hnone : s.sentBy user' s.queued = [] := by
        apply List.filter_eq_nil_iff.mpr
        intro m hm hsent
        obtain ⟨p, hp, rfl⟩ := List.mem_map.mp hm
        apply hqueue p hp
        rw [(h.queue p hp).1, decide_eq_true_eq, heq] at hsent
        apply Option.some.inj hsent
      rw [hnone, List.nil_append, List.append_nil]
      rfl
    · have hother : s.sentBy user' [msg] = [] := by
        simp [State.sentBy, msg, huser, Ne.symm heq]
      rw [hother, List.append_nil, List.map_singleton, hother, List.nil_append]
      rfl
  · simp [h.ids, List.range_succ, msg]

/-- Opening a chatbox for a user. -/
theorem Inv.open_chatbox {s : State Ip User Text} (h : Inv s) (user : User) {addr : Nat}
    (hunused : Unused s (chatboxExtent addr)) :
  Inv (newPchatbox s user addr).2
  := by
  rw [newPchatbox, memPoolAlloc_eq_self hunused]
  refine ⟨h.queue, ?_, h.own, h.perm, h.order, h.ids⟩
  intro user' chatbox hchatbox
  simp only at hchatbox
  by_cases heq : user' = user
  · subst heq
    rw [Function.update_self] at hchatbox
    cases hchatbox
    rfl
  · rw [Function.update_of_ne heq] at hchatbox
    apply h.chatbox user' chatbox hchatbox

omit [DecidableEq User] in
/-- A queue without its first message takes no more addresses. -/
theorem Unused.tail {s : State Ip User Text} {r : Extent} (h : Unused s r)
    {p : Msg Ip Text × User} {mlist : List (Msg Ip Text × User)} (hmlist : s.mlist = p :: mlist) :
  Unused { s with mlist } r
  where
  mlist := by
    apply h.mlist.mono
    rw [hmlist]
    apply List.subset_cons_self
  chatbox := h.chatbox
  others := h.others

/-- A click on the tray icon moves the first message of the queue, whose user has no
chatbox, into a new one. -/
theorem Inv.tray {s : State Ip User Text} (h : Inv s) {addr : Nat}
    (hcareful : Careful s (.tray addr)) :
  Inv (trayIconActivated s addr)
  := by
  rw [trayIconActivated]
  split
  · exact ⟨h.queue, h.chatbox, h.own, h.perm, h.order, h.ids⟩
  · rename_i msg user mlist hmlist
    obtain ⟨huser, hgpid⟩ := h.queue (msg, user) (by simp [hmlist])
    obtain ⟨hclosed, hunused⟩ := hcareful (msg, user) (by simp [hmlist])
    have hopen := h.open_chatbox user hunused
    have hqueued : s.shown ++ s.queued
        = (s.inserted ++ [((newPchatbox s user addr).1, msg)]).map Prod.snd
          ++ mlist.map Prod.fst := by
      simp [State.shown, State.queued, hmlist]
    rw [newPchatbox, memPoolAlloc_eq_self hunused] at hopen
    simp only [if_pos hgpid, hclosed, newPchatbox, memPoolAlloc_eq_self (hunused.tail hmlist)]
    refine ⟨?_, hopen.chatbox, ?_, ?_, ?_, h.ids⟩
    · intro p hp
      apply h.queue p
      rw [hmlist]
      apply List.mem_cons_of_mem _ hp
    · intro p hp
      rcases List.mem_append.mp hp with hp | hp
      · apply h.own p hp
      · cases List.mem_singleton.mp hp
        apply huser
    · change ((s.inserted ++ [((newPchatbox s user addr).1, msg)]).map Prod.snd
        ++ mlist.map Prod.fst).Perm s.received
      rw [← hqueued]
      apply h.perm
    · intro user'
      change s.sentBy user' ((s.inserted ++ [((newPchatbox s user addr).1, msg)]).map Prod.snd
        ++ mlist.map Prod.fst) = s.sentBy user' s.received
      rw [← hqueued]
      apply h.order

/-- Every careful event keeps the invariant. -/
theorem step_inv {s s' : State Ip User Text} {e : Event Ip User Text} {code : Int}
    (h : Inv s) (hcareful : Careful s e)
    (hstep : (machine Ip User Text).step s e = some (code, s')) :
  Inv s'
  := by
  cases e with
  | arrive addr ip mtime data =>
    simp only [machine, memPoolAlloc_eq_self hcareful.1] at hstep
    cases huser : s.ulist ip with
    | none =>
      simp only [onPchatCallback, huser] at hstep
      cases hstep
      apply h
    | some user =>
      cases hchatbox : s.chatbox user with
      | none =>
        simp only [onPchatCallback, huser, insertChatMsg, hchatbox] at hstep
        cases hstep
        apply h.queue_msg huser
      | some chatbox =>
        simp only [onPchatCallback, huser, insertChatMsg, hchatbox] at hstep
        cases hstep
        apply h.insert_msg huser (h.chatbox user chatbox hchatbox)
        apply hcareful.2 user huser
        simp [hchatbox]
  | tray addr =>
    cases hstep
    apply h.tray hcareful
  | doubleClick user addr =>
    cases hstep
    rw [contactTreeviewOndoubleclicked]
    split
    · apply h
    · rename_i hclosed
      apply h.open_chatbox user (hcareful hclosed)
  | close user =>
    simp only [machine, Option.map_eq_some_iff] at hstep
    obtain ⟨chatbox, -, hclose⟩ := hstep
    cases hclose
    refine ⟨h.queue, ?_, h.own, h.perm, h.order, h.ids⟩
    intro user' chatbox' hchatbox'
    simp only [closeChatbox] at hchatbox'
    by_cases heq : user' = chatbox.data
    · subst heq
      simp at hchatbox'
    · rw [Function.update_of_ne heq] at hchatbox'
      apply h.chatbox user' chatbox' hchatbox'
  | alloc r =>
    simp only [machine, memPoolAlloc_eq_self hcareful] at hstep
    cases hstep
    exact ⟨h.queue, h.chatbox, h.own, h.perm, h.order, h.ids⟩
  | free r =>
    cases hstep
    exact ⟨h.queue, h.chatbox, h.own, h.perm, h.order, h.ids⟩

/-- In every run whose events are all careful every message received is delivered. -/
theorem run_delivered [DecidableEq Ip] [DecidableEq Text] {ulist : Ip → Option User}
    {others : List Extent} {es : List (Event Ip User Text)} {codes : List Int}
    {s : State Ip User Text}
    (hcareful : (machine Ip User Text).Meets Careful (start ulist others) es)
    (hrun : (machine Ip User Text).run (start ulist others) es = some (codes, s)) :
  Delivered s
  := by
  apply Inv.delivered
  apply (machine Ip User Text).run_invariant (fun _ _ _ _ => step_inv) (start_inv ulist others)
    hcareful hrun

/-- Two users, found under the addresses `0` and `1`. -/
def twoUsers (ip : Nat) : Option Bool :=
  match ip with
  | 0 => some false
  | 1 => some true
  | _ => none

theorem run_delivered_tray :
  ∃ codes s, (machine Nat Bool String).run (start twoUsers [⟨0, 4096⟩])
      [.arrive 10000 0 10 "a", .arrive 20000 1 11 "b", .alloc ⟨60000, 500⟩, .tray 30000,
        .arrive 40000 0 12 "c", .free ⟨60000, 500⟩, .tray 50000, .close false] = some (codes, s)
    ∧ Delivered s
  := by
  refine ⟨_, _, rfl, ?_⟩
  have hcareful : (machine Nat Bool String).Meets Careful (start twoUsers [⟨0, 4096⟩])
      [.arrive 10000 0 10 "a", .arrive 20000 1 11 "b", .alloc ⟨60000, 500⟩, .tray 30000,
        .arrive 40000 0 12 "c", .free ⟨60000, 500⟩, .tray 50000, .close false] := by
    decide
  apply run_delivered hcareful rfl

/-- A message queued before the chatbox of its user is opened is lost by the click on the
tray icon. -/
theorem tray_loses :
  ∃ codes s, (machine Nat Bool String).run (start twoUsers [⟨0, 4096⟩])
      [.arrive 10000 0 10 "a", .doubleClick false 20000, .tray 30000] = some (codes, s)
    ∧ ¬ Delivered s
  := by
  refine ⟨_, _, rfl, ?_⟩
  intro h
  have honce := h.once ⟨0, 10000, 0, 10, 0, "a"⟩ (by decide)
  revert honce
  decide

end Delivery

end IFreeChat
