import IFreeChat.Peer.PackedClient

/-!
# Unread messages and chatboxes

A message that comes in is linked to `mlist`, and shown in the chatbox of its sender, or of its
group, if that is open then.  The tray icon takes the first message of `mlist` and frees it.  It
shows the message in a new chatbox while no chatbox of a user, or of a group, is open; while one
is open, be it of another user, the message is not shown.

So while the addresses of the users stay, every message that was taken has been shown in the
chatbox of its sender or its group exactly when, for each, no chatbox of the kind was open or its
own was open when it came in (`run_delivered_iff`).
-/

open Basis

namespace IFreeChat

namespace Peer

/-! ### The state -/

/-- A chatbox, of the user at a place of `ulist` or of the group with a number. -/
inductive Chatbox where
  | user (i : Nat)
  | group (gpid : UInt32)
deriving DecidableEq

/-- A peer, the blocks of its users, and the history of its messages: the one that
`on_buddy_sendgpmsg` has linked last, what was shown in which chatbox, what the tray icon took, and
the addresses of the users and the numbers of the groups whose chatboxes were open when a handler
looked for that of its message. -/
structure Inbox where
  client : Client
  blocks : List UserBlock
  linked : Option (Nat × UInt32)
  shown : List (Nat × Chatbox)
  taken : List Nat
  foundUsers : List (Nat × List (List UInt8))
  foundGroups : List (Nat × List UInt32)

/-! ### Steps -/

/-- The search of a handler for the chatbox of its message, which is shown there. -/
def Inbox.look (s : Inbox) : Inbox :=
  match s.client.pc with
  | .sendShow id =>
      match s.client.heap[id]? with
      | none => s
      | some b =>
          let chatbox := s.client.pchatbox.find? fun i => s.client.address i = some b.msg.ip
          { s with
            shown := s.shown ++ (chatbox.map fun i => (id, .user i)).toList
            foundUsers := s.foundUsers ++ [(id, s.client.pchatbox.filterMap s.client.address)] }
  | .gpLink id _ gpid _ => { s with linked := some (id, gpid) }
  | .gpShow =>
      match s.linked with
      | none => s
      | some (id, gpid) =>
          let chatbox := s.client.gchatbox.find? fun group => group = gpid
          { s with
            shown := s.shown ++ (chatbox.map fun group => (id, .group group)).toList
            foundGroups := s.foundGroups ++ [(id, s.client.gchatbox)] }
  | _ => s

variable (glib : Glib) (cfg : Config)

/-- The next step of the handler that runs, with the block `new_user` gets.  One that touches a
freed block has no result. -/
def Inbox.handle (s : Inbox) (time : UInt64) (beyond plain : List UInt8) (junk : Nat → UInt8) :
    Option (Option (List UInt8) × Inbox) := do
  let (o, peer) ← PackedClient.handle glib cfg ⟨s.client, s.blocks⟩ time beyond plain junk
  if peer.client.stale then none
  else some (o, { s.look with client := peer.client, blocks := peer.blocks })

/-- `tray_icon_activated`: the message that it takes is shown in the chatbox that it opens. -/
def Inbox.tray (s : Inbox) : Option Inbox :=
  match s.client.mlist with
  | [] => some s
  | id :: _ => do
      let client ← s.client.tray cfg
      let users := client.pchatbox.drop s.client.pchatbox.length
      let groups := client.gchatbox.drop s.client.gchatbox.length
      if client.stale then none
      else some { s with
        client
        shown := s.shown ++ (users.map fun i => (id, .user i))
          ++ (groups.map fun gpid => (id, .group gpid))
        taken := s.taken ++ [id] }

/-- `contact_treeview_ondoubleclicked` on the row of a user. -/
def Client.contactTreeviewOndoubleclicked (s : Client) (i : Nat) : Option Client := do
  let user ← s.ulist[i]?
  if s.pchatbox.any fun j => s.address j = some user.ipaddr then some s
  else some { s with pchatbox := s.pchatbox ++ [i] }

/-- `group_treeview_ondoubleclicked` on the row of a group. -/
def Client.groupTreeviewOndoubleclicked (s : Client) (gpid : UInt32) : Option Client :=
  if gpid ∉ cfg.glist then none
  else if gpid ∈ s.gchatbox then some s
  else some { s with gchatbox := s.gchatbox ++ [gpid] }

/-- `close_chatbox`. -/
def Client.closeChatbox (s : Client) : Chatbox → Option Client
  | .user i => if i ∈ s.pchatbox then some { s with pchatbox := s.pchatbox.erase i } else none
  | .group gpid =>
      if gpid ∈ s.gchatbox then some { s with gchatbox := s.gchatbox.erase gpid } else none

/-- What happens to a peer: a datagram is received, the handler takes its next step, the tray
icon is activated, a row is double-clicked, or a chatbox is closed. -/
inductive InboxEvent where
  | receive (ip : List UInt8) (port : UInt16) (datagram : List UInt8)
  | handle (time : UInt64) (beyond plain : List UInt8) (junk : Nat → UInt8)
  | tray
  | doubleClickUser (i : Nat)
  | doubleClickGroup (gpid : UInt32)
  | close (chatbox : Chatbox)

/-- A peer with its history as a machine that answers with the datagram it sends. -/
def inboxMachine : Machine Inbox InboxEvent (Option (List UInt8)) where
  step s
    | .receive ip port datagram =>
        (s.client.receive ip port datagram).map fun client => (none, { s with client })
    | .handle time beyond plain junk => s.handle glib cfg time beyond plain junk
    | .tray => (s.tray cfg).map fun s' => (none, s')
    | .doubleClickUser i =>
        (s.client.contactTreeviewOndoubleclicked i).map fun client => (none, { s with client })
    | .doubleClickGroup gpid =>
        (s.client.groupTreeviewOndoubleclicked cfg gpid).map fun client =>
          (none, { s with client })
    | .close chatbox =>
        (s.client.closeChatbox chatbox).map fun client => (none, { s with client })

/-- A peer that has just started. -/
def Inbox.start : Inbox where
  client := Client.start
  blocks := []
  linked := none
  shown := []
  taken := []
  foundUsers := []
  foundGroups := []

/-! ### Delivery -/

/-- A chatbox is that of the sender, or of the group, of a message. -/
def Client.Own (s : Client) (msg : Msg) : Chatbox → Prop
  | .user i => s.address i = some msg.ip
  | .group gpid => msg.gpid = some gpid

/-- The chatbox a message is for: that of its sender if its `gpid` is 0, and else of its group. -/
def Client.Target (s : Client) (msg : Msg) : Chatbox → Prop
  | .user i => msg.gpid.getD 0 = 0 ∧ s.address i = some msg.ip
  | .group gpid => gpid ≠ 0 ∧ msg.gpid = some gpid

/-- A message was shown in a chatbox it is for. -/
def Inbox.Received (s : Inbox) (id : Nat) (msg : Msg) : Prop :=
  ∃ chatbox, (id, chatbox) ∈ s.shown ∧ s.client.Target msg chatbox

/-- Every message that was taken was received, and none was shown in the chatbox of another user
or group. -/
structure Inbox.Delivered (s : Inbox) : Prop where
  taken : ∀ id ∈ s.taken, ∃ b, s.client.heap[id]? = some b ∧ s.Received id b.msg
  own : ∀ id chatbox, (id, chatbox) ∈ s.shown →
    ∃ b, s.client.heap[id]? = some b ∧ s.client.Own b.msg chatbox

/-- The chatbox a message is for was open when its handler looked for it. -/
def Inbox.OpenOnArrival (s : Inbox) (id : Nat) (msg : Msg) : Prop :=
  (msg.gpid.getD 0 = 0 ∧ ∃ found ∈ s.foundUsers, found.1 = id ∧ msg.ip ∈ found.2)
    ∨ ∃ found ∈ s.foundGroups, found.1 = id ∧ ∃ gpid ∈ found.2, gpid ≠ 0 ∧ msg.gpid = some gpid

instance (s : Inbox) (id : Nat) (msg : Msg) : Decidable (s.OpenOnArrival id msg) :=
  inferInstanceAs (Decidable (_ ∨ _))

/-- The tray icon takes a message while no chatbox of its kind is open, or its own was open when
it came in. -/
def Inbox.Careful (s : Inbox) : InboxEvent → Prop
  | .tray => ∀ id ∈ s.client.mlist.head?, ∀ b ∈ s.client.heap[id]?,
      s.client.NoneOpen b.msg ∨ s.OpenOnArrival id b.msg
  | _ => True

instance (s : Inbox) (e : InboxEvent) : Decidable (s.Careful e) :=
  match e with
  | .tray => inferInstanceAs (Decidable (∀ id ∈ s.client.mlist.head?,
      ∀ b ∈ s.client.heap[id]?, s.client.NoneOpen b.msg ∨ s.OpenOnArrival id b.msg))
  | .receive _ _ _ | .handle _ _ _ _ | .doubleClickUser _ | .doubleClickGroup _ | .close _ =>
      .isTrue trivial

/-- An entry that is copied over the strings of a user spares its address. -/
def Inbox.Clear (s : Inbox) : InboxEvent → Prop
  | .handle _ beyond _ _ =>
      ∀ c ∈ PackedClient.copied glib ⟨s.client, s.blocks⟩ beyond, c.1.SparesAddress c.2
  | _ => True

instance (s : Inbox) (e : InboxEvent) : Decidable (s.Clear glib e) :=
  match e with
  | .handle _ beyond _ _ => inferInstanceAs (Decidable
      (∀ c ∈ PackedClient.copied glib ⟨s.client, s.blocks⟩ beyond, c.1.SparesAddress c.2))
  | .receive _ _ _ | .tray | .doubleClickUser _ | .doubleClickGroup _ | .close _ =>
      .isTrue trivial

/-! ### What was shown -/

/-- What the history says of the messages: those shown, looked for and linked last are settled,
none was shown in the chatbox of another user or group, and one that is linked was shown in the
chatbox it is for exactly when that was open when it came in. -/
structure Inbox.Kept (s : Inbox) : Prop where
  settled : s.client.Settled cfg s.taken
  linked : s.client.pc = .gpShow → ∀ id gpid, s.linked = some (id, gpid) →
    id ∈ s.client.mlist ++ s.taken ∧ ∃ b, s.client.heap[id]? = some b ∧ b.msg.gpid = some gpid
  own : ∀ id chatbox, (id, chatbox) ∈ s.shown → id ∈ s.client.mlist ++ s.taken
    ∧ ∃ b, s.client.heap[id]? = some b ∧ s.client.Own b.msg chatbox
  foundUsers : ∀ id ips, (id, ips) ∈ s.foundUsers → id ∈ s.client.mlist ++ s.taken
  foundGroups : ∀ id gpids, (id, gpids) ∈ s.foundGroups → id ∈ s.client.mlist ++ s.taken
  unread : ∀ id ∈ s.client.mlist, ∀ b, s.client.heap[id]? = some b →
    (s.Received id b.msg ↔ s.OpenOnArrival id b.msg)

section

variable {glib cfg}
variable {c c' : Client} {s s' : Inbox} {msg msg' : Msg} {id : Nat} {chatbox : Chatbox}
  {blocks : List UserBlock}

theorem contactTreeview_eq {i : Nat} (hstep : c.contactTreeviewOndoubleclicked i = some c') :
  ∃ pchatbox gchatbox, c' = { c with pchatbox, gchatbox }
  := by
  obtain ⟨user, -, hstep⟩ := Option.bind_eq_some_iff.mp hstep
  split at hstep
  · cases hstep
    exact ⟨_, _, rfl⟩
  · cases hstep
    exact ⟨_, _, rfl⟩

theorem groupTreeview_eq {gpid : UInt32}
    (hstep : c.groupTreeviewOndoubleclicked cfg gpid = some c') :
  ∃ pchatbox gchatbox, c' = { c with pchatbox, gchatbox }
  := by
  rw [Client.groupTreeviewOndoubleclicked] at hstep
  split at hstep
  · cases hstep
  · split at hstep
    · cases hstep
      exact ⟨_, _, rfl⟩
    · cases hstep
      exact ⟨_, _, rfl⟩

theorem closeChatbox_eq (hstep : c.closeChatbox chatbox = some c') :
  ∃ pchatbox gchatbox, c' = { c with pchatbox, gchatbox }
  := by
  cases chatbox with
  | user i =>
    rw [Client.closeChatbox, Option.ite_none_right_eq_some] at hstep
    cases hstep.2
    exact ⟨_, _, rfl⟩
  | group gpid =>
    rw [Client.closeChatbox, Option.ite_none_right_eq_some] at hstep
    cases hstep.2
    exact ⟨_, _, rfl⟩

/-- A chatbox stays that of the sender or the group of a message. -/
theorem Client.Own.keep (h : c.Own msg chatbox) (hulist : Keeps c.ulist c'.ulist)
    (hcarries : c.Carries c' msg msg') :
  c'.Own msg' chatbox
  := by
  cases chatbox with
  | user i =>
    rw [Own, hcarries.ip]
    apply address_keep hulist h
  | group gpid => exact hcarries.gpid.trans h

/-- A chatbox of the sender or the group of a message is one it is for exactly when it stays so. -/
theorem Client.Own.target_iff (h : c.Own msg chatbox) (hulist : Keeps c.ulist c'.ulist)
    (hcarries : c.Carries c' msg msg') :
  c'.Target msg' chatbox ↔ c.Target msg chatbox
  := by
  have hkeep := h.keep hulist hcarries
  cases chatbox with
  | user i =>
    rw [Own] at h hkeep
    rw [Target, Target, hcarries.gpid, h, hkeep]
    simp
  | group gpid => rw [Target, Target, hcarries.gpid]

/-- A message has been received exactly when it had been before the step. -/
theorem received_iff (hshown : s'.shown = s.shown)
    (hown : ∀ chatbox, (id, chatbox) ∈ s.shown → s.client.Own msg chatbox)
    (hulist : Keeps s.client.ulist s'.client.ulist)
    (hcarries : s.client.Carries s'.client msg msg') :
  s'.Received id msg' ↔ s.Received id msg
  := by
  rw [Inbox.Received, Inbox.Received, hshown]
  apply exists_congr
  intro chatbox
  apply and_congr_right
  intro hmem
  apply (hown chatbox hmem).target_iff hulist hcarries

/-- The handler found open what it had found open before the step. -/
theorem openOnArrival_iff (hfoundUsers : s'.foundUsers = s.foundUsers)
    (hfoundGroups : s'.foundGroups = s.foundGroups)
    (hcarries : s.client.Carries s'.client msg msg') :
  s'.OpenOnArrival id msg' ↔ s.OpenOnArrival id msg
  := by
  rw [Inbox.OpenOnArrival, Inbox.OpenOnArrival, hfoundUsers, hfoundGroups, hcarries.gpid,
    hcarries.ip]

/-! ### Steps of the history -/

/-- A settled message stays one. -/
theorem Client.Leads.mem {taken : List Nat} (h : c.Leads cfg taken c')
    (hid : id ∈ c.mlist ++ taken) :
  id ∈ c'.mlist ++ taken
  := by
  obtain hmlist | ⟨new, -, hmlist⟩ := h.mlist
  · rw [hmlist]
    exact hid
  · rw [hmlist, List.append_assoc]
    apply List.mem_append.mpr
    apply Or.imp_right (List.mem_append_right _) (List.mem_append.mp hid)

/-- What was shown of a message was shown in a chatbox of its sender or group. -/
theorem Inbox.Kept.own_of_shown (h : s.Kept cfg) {b : Block} (hb : s.client.heap[id]? = some b)
    (chatbox : Chatbox) (hshown : (id, chatbox) ∈ s.shown) :
  s.client.Own b.msg chatbox
  := by
  obtain ⟨-, b', hb', hown⟩ := h.own id chatbox hshown
  rw [hb] at hb'
  cases hb'
  exact hown

/-- The history is right exactly when every message that was taken has been received. -/
theorem Inbox.Kept.delivered_iff (h : s.Kept cfg) :
  s.Delivered ↔ ∀ id ∈ s.taken, ∃ b, s.client.heap[id]? = some b ∧ s.Received id b.msg
  := by
  constructor
  · intro hdelivered
    exact hdelivered.taken
  · intro htaken
    use htaken
    intro id chatbox hshown
    exact (h.own id chatbox hshown).2

/-- A step that links one message at most keeps what the history says. -/
theorem Inbox.Kept.goOn (h : s.Kept cfg) (hleads : s.client.Leads cfg s.taken c)
    (hlinked : c.pc = .gpShow → ∀ id user gpid pmsg, s.client.pc = .gpLink id user gpid pmsg →
      s.linked = some (id, gpid)) :
  Inbox.Kept cfg { s with client := c, blocks }
  where
  settled := hleads.settled
  linked := by
    intro hshow id gpid hlast
    obtain hpc | ⟨id', user, gpid', pmsg, hpc, hid, b, hb, hgpid⟩ := hleads.linked hshow
    · obtain ⟨hid, b, hb, hgpid⟩ := h.linked hpc id gpid hlast
      obtain ⟨b', hb', hcarries⟩ := hleads.blocks id hid b hb
      exact ⟨hleads.mem hid, b', hb', hcarries.gpid.trans hgpid⟩
    · simp only [hlinked hshow id' user gpid' pmsg hpc, Option.some.injEq, Prod.mk.injEq] at hlast
      obtain ⟨rfl, rfl⟩ := hlast
      exact ⟨List.mem_append_left _ hid, b, hb, hgpid⟩
  own := by
    intro id chatbox hmem
    obtain ⟨hid, b, hb, hown⟩ := h.own id chatbox hmem
    obtain ⟨b', hb', hcarries⟩ := hleads.blocks id hid b hb
    exact ⟨hleads.mem hid, b', hb', hown.keep hleads.ulist hcarries⟩
  foundUsers := by
    intro id ips hmem
    apply hleads.mem (h.foundUsers id ips hmem)
  foundGroups := by
    intro id gpids hmem
    apply hleads.mem (h.foundGroups id gpids hmem)
  unread := by
    intro id hid b' hb'
    have hlinked : id ∈ s.client.mlist ∨ id ∉ s.client.mlist ++ s.taken := by
      obtain hmlist | ⟨new, hnew, hmlist⟩ := hleads.mlist
      · rw [hmlist] at hid
        left
        exact hid
      · rw [hmlist, List.mem_append, List.mem_singleton] at hid
        obtain hid | rfl := hid
        · left
          exact hid
        · right
          exact hnew
    obtain hid | hnew := hlinked
    · have hmem := List.mem_append_left s.taken hid
      obtain ⟨b, hb, -⟩ := h.settled.block id hmem
      obtain ⟨b'', hb'', hcarries⟩ := hleads.blocks id hmem b hb
      rw [hb'] at hb''
      cases hb''
      have hreceived : Inbox.Received { s with client := c, blocks } id b'.msg
          ↔ s.Received id b.msg :=
        received_iff rfl (h.own_of_shown hb) hleads.ulist hcarries
      have hopen : Inbox.OpenOnArrival { s with client := c, blocks } id b'.msg
          ↔ s.OpenOnArrival id b.msg :=
        openOnArrival_iff rfl rfl hcarries
      rw [hreceived, hopen]
      apply h.unread id hid b hb
    · constructor
      · rintro ⟨chatbox, hshown, -⟩
        exact absurd (h.own id chatbox hshown).1 hnew
      · rintro (⟨-, found, hfound, rfl, -⟩ | ⟨found, hfound, rfl, -⟩)
        · exact absurd (h.foundUsers found.1 found.2 hfound) hnew
        · exact absurd (h.foundGroups found.1 found.2 hfound) hnew

/-- The messages that were taken stay received. -/
theorem Inbox.Delivered.goOn (hdelivered : s.Delivered) (h : s.Kept cfg)
    (hleads : s.client.Leads cfg s.taken c) :
  Inbox.Delivered { s with client := c, blocks }
  where
  taken := by
    intro id hid
    obtain ⟨b, hb, hreceived⟩ := hdelivered.taken id hid
    obtain ⟨b', hb', hcarries⟩ := hleads.blocks id (List.mem_append_right _ hid) b hb
    have hiff : Inbox.Received { s with client := c, blocks } id b'.msg ↔ s.Received id b.msg :=
      received_iff rfl (h.own_of_shown hb) hleads.ulist hcarries
    exact ⟨b', hb', hiff.mpr hreceived⟩
  own := by
    intro id chatbox hshown
    obtain ⟨hid, b, hb, hown⟩ := h.own id chatbox hshown
    obtain ⟨b', hb', hcarries⟩ := hleads.blocks id hid b hb
    exact ⟨b', hb', hown.keep hleads.ulist hcarries⟩

/-- What is shown besides what was shown before. -/
theorem received_append {l : List (Nat × Chatbox)} (hclient : s'.client = s.client)
    (hshown : s'.shown = s.shown ++ l) :
  s'.Received id msg
    ↔ s.Received id msg ∨ ∃ chatbox, (id, chatbox) ∈ l ∧ s.client.Target msg chatbox
  := by
  simp only [Inbox.Received, hclient, hshown, List.mem_append, or_and_right, exists_or]

/-- The chatbox of a user that a handler finds is that of the sender. -/
theorem find_user {ip : List UInt8} {i : Nat}
    (h : (c.pchatbox.find? fun i => c.address i = some ip) = some i) :
  c.address i = some ip
  := by
  simpa using List.find?_some h

/-- A handler finds a chatbox of the sender exactly when one is open. -/
theorem find_user_iff {ip : List UInt8} :
  (∃ i, (c.pchatbox.find? fun i => c.address i = some ip) = some i)
    ↔ ip ∈ c.pchatbox.filterMap c.address
  := by
  rw [← Option.isSome_iff_exists, List.find?_isSome, List.mem_filterMap]
  simp

/-- A group is found exactly when it is in the list. -/
theorem find_group_iff {groups : List UInt32} {gpid : UInt32} :
  (groups.find? fun group => group = gpid) = some gpid ↔ gpid ∈ groups
  := by
  constructor
  · apply List.mem_of_find?_eq_some
  · intro hmem
    have hsome : (groups.find? fun group => group = gpid).isSome := by
      rw [List.find?_isSome]
      use gpid, hmem
      simp
    obtain ⟨group, hgroup⟩ := Option.isSome_iff_exists.mp hsome
    have heq : group = gpid := by simpa using List.find?_some hgroup
    rw [hgroup, heq]

/-- The history with what a handler found of a settled message, which it showed in the chatbox it
found, if that is the one `Found` says was open. -/
theorem Inbox.Kept.record (h : s.Kept cfg) {b : Block} {found : Option Chatbox}
    {Found : Msg → Prop} (hid : id ∈ s.client.mlist ++ s.taken)
    (hb : s.client.heap[id]? = some b) (hclient : s'.client = s.client)
    (htaken : s'.taken = s.taken) (hlinked : s'.linked = s.linked)
    (hshown : s'.shown = s.shown ++ (found.map fun chatbox => (id, chatbox)).toList)
    (hown : ∀ chatbox ∈ found, s.client.Own b.msg chatbox)
    (hfoundUsers : ∀ id' ips, (id', ips) ∈ s'.foundUsers → (id', ips) ∈ s.foundUsers ∨ id' = id)
    (hfoundGroups : ∀ id' gpids, (id', gpids) ∈ s'.foundGroups →
      (id', gpids) ∈ s.foundGroups ∨ id' = id)
    (hopen : ∀ id' msg, s'.OpenOnArrival id' msg ↔ s.OpenOnArrival id' msg ∨ id' = id ∧ Found msg)
    (hfound : (∃ chatbox ∈ found, s.client.Target b.msg chatbox) ↔ Found b.msg) :
  s'.Kept cfg
  where
  settled := by
    rw [hclient, htaken]
    exact h.settled
  linked := by
    rw [hclient, htaken, hlinked]
    exact h.linked
  own := by
    intro id' chatbox hmem
    rw [hshown, List.mem_append] at hmem
    rw [hclient, htaken]
    obtain hmem | hmem := hmem
    · apply h.own id' chatbox hmem
    · simp only [Option.mem_toList, Option.map_eq_some_iff, Prod.mk.injEq] at hmem
      obtain ⟨_, hchatbox, rfl, rfl⟩ := hmem
      exact ⟨hid, b, hb, hown _ hchatbox⟩
  foundUsers := by
    intro id' ips hmem
    rw [hclient, htaken]
    obtain hmem | rfl := hfoundUsers id' ips hmem
    · apply h.foundUsers id' ips hmem
    · exact hid
  foundGroups := by
    intro id' gpids hmem
    rw [hclient, htaken]
    obtain hmem | rfl := hfoundGroups id' gpids hmem
    · apply h.foundGroups id' gpids hmem
    · exact hid
  unread := by
    intro id' hid' b' hb'
    rw [hclient] at hid' hb'
    rw [received_append hclient hshown, hopen, h.unread id' hid' b' hb']
    apply or_congr_right
    simp only [Option.mem_toList, Option.map_eq_some_iff, Prod.mk.injEq]
    constructor
    · rintro ⟨chatbox, ⟨_, hchatbox, rfl, rfl⟩, htarget⟩
      rw [hb] at hb'
      cases hb'
      exact ⟨rfl, hfound.mp ⟨_, hchatbox, htarget⟩⟩
    · rintro ⟨rfl, hmsg⟩
      rw [hb] at hb'
      cases hb'
      obtain ⟨chatbox, hchatbox, htarget⟩ := hfound.mpr hmsg
      exact ⟨chatbox, ⟨chatbox, hchatbox, rfl, rfl⟩, htarget⟩

/-- The search for the chatbox of a private message keeps what the history says. -/
theorem Inbox.Kept.lookUser (h : s.Kept cfg) (hpc : s.client.pc = .sendShow id) :
  s.look.Kept cfg
  := by
  have hpending := h.settled.pending
  simp only [Client.Pending, hpc] at hpending
  obtain ⟨hid, b, hb, hgpid⟩ := hpending
  simp only [Inbox.look, hpc, hb]
  refine @Inbox.Kept.record _ s _ id h b
    ((s.client.pchatbox.find? fun i => s.client.address i = some b.msg.ip).map .user)
    (fun msg => msg.gpid.getD 0 = 0
      ∧ msg.ip ∈ s.client.pchatbox.filterMap s.client.address)
    hid hb rfl rfl rfl ?_ ?_ ?_ (fun _ _ => Or.inl) ?_ ?_
  · rw [Option.map_map]
    rfl
  · intro chatbox hchatbox
    obtain ⟨i, hi, rfl⟩ := Option.map_eq_some_iff.mp hchatbox
    apply find_user hi
  · intro id' ips hmem
    rw [List.mem_append, List.mem_singleton, Prod.mk.injEq] at hmem
    exact hmem.imp_right And.left
  · intro id' msg
    simp only [Inbox.OpenOnArrival, List.mem_append, List.mem_singleton, or_and_right,
      exists_or, exists_eq_left, @eq_comm _ id id']
    rw [and_or_left, or_right_comm, and_left_comm]
  · rw [← find_user_iff, hgpid]
    simp only [Option.mem_def, Option.map_eq_some_iff]
    constructor
    · rintro ⟨chatbox, ⟨i, hi, rfl⟩, -⟩
      exact ⟨rfl, i, hi⟩
    · rintro ⟨-, i, hi⟩
      exact ⟨_, ⟨i, hi, rfl⟩, by rw [hgpid]; rfl, find_user hi⟩

/-- The search for the chatbox of a message of a group keeps what the history says. -/
theorem Inbox.Kept.lookGroup {gpid : UInt32} (h : s.Kept cfg) (hpc : s.client.pc = .gpShow)
    (hlinked : s.linked = some (id, gpid)) :
  s.look.Kept cfg
  := by
  simp only [Inbox.look, hpc, hlinked]
  obtain ⟨hid, b, hb, hgpid⟩ := h.linked hpc id gpid hlinked
  refine @Inbox.Kept.record _ s _ id h b
    ((s.client.gchatbox.find? fun group => group = gpid).map .group)
    (fun msg => ∃ gpid ∈ s.client.gchatbox, gpid ≠ 0 ∧ msg.gpid = some gpid)
    hid hb rfl rfl hlinked.symm ?_ ?_ (fun _ _ => Or.inl) ?_ ?_ ?_
  · rw [Option.map_map]
    rfl
  · intro chatbox hchatbox
    obtain ⟨group, hgroup, rfl⟩ := Option.map_eq_some_iff.mp hchatbox
    have heq : group = gpid := by simpa using List.find?_some hgroup
    rw [Client.Own, heq, hgpid]
  · intro id' gpids hmem
    rw [List.mem_append, List.mem_singleton, Prod.mk.injEq] at hmem
    exact hmem.imp_right And.left
  · intro id' msg
    simp only [Inbox.OpenOnArrival, List.mem_append, List.mem_singleton, or_and_right,
      exists_or, exists_eq_left, @eq_comm _ id id']
    rw [or_assoc]
  · rw [hgpid]
    simp only [Option.mem_def, Option.map_eq_some_iff]
    constructor
    · rintro ⟨chatbox, ⟨group, hgroup, rfl⟩, hne, heq⟩
      exact ⟨group, List.mem_of_find?_eq_some hgroup, hne, hgpid.symm.trans heq⟩
    · rintro ⟨group, hmem, hne, heq⟩
      cases heq
      exact ⟨_, ⟨gpid, find_group_iff.mpr hmem, rfl⟩, hne, hgpid⟩

/-- The search of a handler for the chatbox of its message keeps what the history says. -/
theorem Inbox.Kept.look (h : s.Kept cfg) :
  s.look.Kept cfg
  := by
  cases hpc : s.client.pc with
  | sendShow id => apply h.lookUser hpc
  | gpLink id user gpid pmsg =>
    simp only [Inbox.look, hpc]
    refine ⟨h.settled, ?_, h.own, h.foundUsers, h.foundGroups, h.unread⟩
    intro hshow
    rw [hpc] at hshow
    cases hshow
  | gpShow =>
    cases hlinked : s.linked with
    | none =>
      simp only [Inbox.look, hpc, hlinked]
      exact h
    | some linked => apply h.lookGroup hpc hlinked
  | _ =>
    simp only [Inbox.look, hpc]
    exact h

theorem Inbox.look_client (s : Inbox) :
  s.look.client = s.client ∧ s.look.taken = s.taken
  := by
  rw [look]
  split
  · split <;> exact ⟨rfl, rfl⟩
  · exact ⟨rfl, rfl⟩
  · split <;> exact ⟨rfl, rfl⟩
  · exact ⟨rfl, rfl⟩

/-- What was shown stays shown. -/
theorem Inbox.look_shown {shown : Nat × Chatbox} (hshown : shown ∈ s.shown) :
  shown ∈ s.look.shown
  := by
  rw [look]
  split
  · split
    · exact hshown
    · exact List.mem_append_left _ hshown
  · exact hshown
  · split
    · exact hshown
    · exact List.mem_append_left _ hshown
  · exact hshown

/-- A step of `on_buddy_entry` that keeps the addresses leaves the settled messages with their
senders and groups. -/
theorem leads_takesEntry {taken : List Nat} (h : c.Settled cfg taken) (htakes : c.TakesEntry c') :
  c.Leads cfg taken c'
  := by
  obtain ⟨id, ulist, pc, hfrom, hto, hkeeps, rfl⟩ := htakes
  have hholds : c.pc.holds = some id := by
    cases hpc : c.pc <;> rw [hpc] at hfrom <;> cases hfrom <;> rfl
  refine h.same hkeeps rfl rfl ?_ ?_ ?_
  · rw [hholds]
    cases pc <;> cases hto <;> exact fun _ h => h
  · cases pc <;> cases hto <;> trivial
  · rintro rfl
    cases hto

/-- A step of a handler that spares the addresses keeps what the history says. -/
theorem Inbox.Kept.handle {time : UInt64} {beyond plain : List UInt8} {junk : Nat → UInt8}
    {o : Option (List UInt8)} (h : s.Kept cfg) (hdelivered : s.Delivered)
    (hgood : PackedClient.Good ⟨s.client, s.blocks⟩)
    (hclear : s.Clear glib (.handle time beyond plain junk))
    (hstep : s.handle glib cfg time beyond plain junk = some (o, s')) :
  s'.Kept cfg ∧ s'.Delivered
  := by
  obtain ⟨⟨o', c, blocks⟩, hc, hstep⟩ := Option.bind_eq_some_iff.mp hstep
  simp only [Option.ite_none_left_eq_some, Option.some.injEq, Prod.mk.injEq] at hstep
  obtain ⟨-, -, rfl⟩ := hstep
  have hcases := (packed_handle hgood hclear hc).2
  obtain ⟨hclient, htaken⟩ := s.look_client
  have hlook := h.look
  have hleads : s.look.client.Leads cfg s.look.taken c := by
    rw [hclient, htaken]
    rcases hcases with hhandle | htakes
    · apply leads_handle h.settled hhandle
    · apply leads_takesEntry h.settled htakes
  have hdelivered' : s.look.Delivered := by
    apply hlook.delivered_iff.mpr
    intro id hid
    rw [htaken] at hid
    obtain ⟨b, hb, chatbox, hshown, htarget⟩ := hdelivered.taken id hid
    rw [hclient]
    use b, hb, chatbox, look_shown hshown
    rw [hclient]
    exact htarget
  refine ⟨hlook.goOn hleads ?_, hdelivered'.goOn hlook hleads⟩
  intro _ id user gpid pmsg hpc
  rw [hclient] at hpc
  rw [Inbox.look, hpc]

/-- A chatbox a message is for is one of its sender or its group. -/
theorem Client.Target.own (h : c.Target msg chatbox) :
  c.Own msg chatbox
  := by
  cases chatbox with
  | user i => exact h.2
  | group gpid => exact h.2

end

/-- The first message, in the block `b`, is taken, and shown in a chatbox that is opened for it
while none of its kind is open. -/
structure Inbox.Takes (s s' : Inbox) (id : Nat) (b : Block) (opened : Option Chatbox) : Prop where
  mlist : s.client.mlist = id :: s'.client.mlist
  taken : s'.taken = s.taken ++ [id]
  block : s.client.heap[id]? = some b
  settled : s'.client.Settled cfg s'.taken
  ulist : Keeps s.client.ulist s'.client.ulist
  blocks : ∀ (id' : Nat) (b' : Block), s.client.heap[id']? = some b' →
    ∃ b'', s'.client.heap[id']? = some b'' ∧ s.client.Carries s'.client b'.msg b''.msg
  pc : s'.client.pc = s.client.pc
  linked : s'.linked = s.linked
  foundUsers : s'.foundUsers = s.foundUsers
  foundGroups : s'.foundGroups = s.foundGroups
  shown : s'.shown = s.shown ++ (opened.map fun chatbox => (id, chatbox)).toList
  target : ∀ chatbox ∈ opened, s.client.Target b.msg chatbox
  opened : opened.isSome ↔ s.client.NoneOpen b.msg

section

variable {glib cfg}
variable {s s' : Inbox} {id : Nat} {b : Block} {opened : Option Chatbox}

/-- The tray icon takes a message, or there is none. -/
theorem Inbox.tray_cases (hsettled : s.client.Settled cfg s.taken)
    (hstep : s.tray cfg = some s') :
  (s.client.mlist = [] ∧ s' = s) ∨ ∃ id b opened, s.Takes cfg s' id b opened
  := by
  rw [Inbox.tray] at hstep
  split at hstep
  · rename_i hmlist
    cases hstep
    left
    use hmlist
  rename_i id rest hmlist
  right
  obtain ⟨c, hc, hstep⟩ := Option.bind_eq_some_iff.mp hstep
  simp only [Option.ite_none_left_eq_some, Option.some.injEq] at hstep
  obtain ⟨-, rfl⟩ := hstep
  obtain ⟨hnil, -⟩ | ⟨id', rest', b, hmlist', hb, hclient, hopened⟩ := Client.tray_cases hc
  · rw [hmlist] at hnil
    cases hnil
  rw [hmlist] at hmlist'
  cases hmlist'
  have hclient : ∃ stale pchatbox gchatbox,
      c = { s.client.free id with mlist := rest, stale, pchatbox, gchatbox } := by
    obtain ⟨pchatbox, gchatbox, hclient⟩ := hclient
    obtain ⟨stale, htouch⟩ := s.client.touched_eq id rest
    rw [htouch] at hclient
    exact ⟨stale, pchatbox, gchatbox, hclient⟩
  obtain ⟨hsettled', hblocks⟩ := hsettled.take hmlist hclient
  obtain ⟨stale, pchatbox, gchatbox, hclient⟩ := hclient
  have hrest : c.mlist = rest := by rw [hclient]
  have hpc : c.pc = s.client.pc := by
    rw [hclient]
    rfl
  have hulist : Keeps s.client.ulist c.ulist := by
    rw [hclient]
    exact keeps_refl s.client.ulist
  obtain ⟨_, hb', huser, gpid, hgpid, hknown⟩ := hsettled.block id (by simp [hmlist])
  rw [hb] at hb'
  cases hb'
  obtain ⟨hnone, hzero, user, heq, hp, hg⟩ | ⟨hnone, hzero, group, heq, hp, hg⟩
    | ⟨hopen, hp, hg⟩ := hopened
  · use id, b, some (.user user)
    refine ⟨hrest ▸ hmlist, rfl, hb, hsettled', hulist, hblocks, hpc, rfl, rfl, rfl, ?_, ?_, ?_⟩
    · simp [hp, hg]
    · rintro chatbox ⟨⟩
      exact ⟨hzero, huser user heq⟩
    · simp [hnone]
  · rw [hgpid, Option.getD_some] at hzero heq
    rw [find_group_iff.mpr (hknown hzero), Option.some_or] at heq
    cases heq
    use id, b, some (.group gpid)
    refine ⟨hrest ▸ hmlist, rfl, hb, hsettled', hulist, hblocks, hpc, rfl, rfl, rfl, ?_, ?_, ?_⟩
    · simp [hp, hg]
    · rintro chatbox ⟨⟩
      exact ⟨hzero, hgpid⟩
    · simp [hnone]
  · use id, b, none
    refine ⟨hrest ▸ hmlist, rfl, hb, hsettled', hulist, hblocks, hpc, rfl, rfl, rfl, ?_, ?_, ?_⟩
    · simp [hp, hg]
    · rintro chatbox ⟨⟩
    · simp [hopen]

/-- A settled message stays one where another is taken. -/
theorem Inbox.Takes.mem (h : s.Takes cfg s' id b opened) {id' : Nat}
    (hid' : id' ∈ s.client.mlist ++ s.taken) :
  id' ∈ s'.client.mlist ++ s'.taken
  := by
  rw [h.mlist] at hid'
  rw [h.taken]
  simp only [List.cons_append, List.mem_cons, List.mem_append] at hid' ⊢
  tauto

/-- A message was received exactly when it had been before, or is the one that is taken, and shown
in the chatbox that was opened. -/
theorem Inbox.Takes.received_iff (htakes : s.Takes cfg s' id b opened) (h : s.Kept cfg)
    {id' : Nat} {b' : Block} {msg : Msg} (hb' : s.client.heap[id']? = some b')
    (hcarries : s.client.Carries s'.client b'.msg msg) :
  s'.Received id' msg ↔ s.Received id' b'.msg ∨ id' = id ∧ opened.isSome
  := by
  have hopened : (∃ chatbox, (id', chatbox) ∈ (opened.map fun chatbox => (id, chatbox)).toList
      ∧ s.client.Target b'.msg chatbox) ↔ id' = id ∧ opened.isSome := by
    simp only [Option.mem_toList, Option.map_eq_some_iff, Prod.mk.injEq,
      Option.isSome_iff_exists]
    constructor
    · rintro ⟨_, ⟨chatbox, hchatbox, rfl, -⟩, -⟩
      exact ⟨rfl, chatbox, hchatbox⟩
    · rintro ⟨rfl, chatbox, hchatbox⟩
      have htarget := htakes.target chatbox hchatbox
      rw [Option.some.inj (htakes.block.symm.trans hb')] at htarget
      exact ⟨chatbox, ⟨chatbox, hchatbox, rfl, rfl⟩, htarget⟩
  have happend : Inbox.Received { s with shown := s'.shown } id' b'.msg
      ↔ s.Received id' b'.msg ∨ id' = id ∧ opened.isSome := by
    rw [← hopened]
    exact received_append rfl htakes.shown
  rw [← happend]
  refine Peer.received_iff rfl ?_ htakes.ulist hcarries
  intro chatbox hmem
  simp only [htakes.shown, List.mem_append] at hmem
  obtain hmem | hmem := hmem
  · apply h.own_of_shown hb' chatbox hmem
  · simp only [Option.mem_toList, Option.map_eq_some_iff, Prod.mk.injEq] at hmem
    obtain ⟨_, hchatbox, rfl, rfl⟩ := hmem
    have htarget := htakes.target _ hchatbox
    rw [Option.some.inj (htakes.block.symm.trans hb')] at htarget
    exact htarget.own

/-- What the history says is kept where a message is taken. -/
theorem Inbox.Kept.takes (h : s.Kept cfg) (htakes : s.Takes cfg s' id b opened) :
  s'.Kept cfg
  where
  settled := htakes.settled
  linked := by
    intro hshow id' gpid hlinked
    rw [htakes.pc] at hshow
    rw [htakes.linked] at hlinked
    obtain ⟨hid', b', hb', hgpid⟩ := h.linked hshow id' gpid hlinked
    obtain ⟨b'', hb'', hcarries⟩ := htakes.blocks id' b' hb'
    exact ⟨htakes.mem hid', b'', hb'', hcarries.gpid.trans hgpid⟩
  own := by
    intro id' chatbox hshown
    have hown : id' ∈ s.client.mlist ++ s.taken
        ∧ ∃ b', s.client.heap[id']? = some b' ∧ s.client.Own b'.msg chatbox := by
      rw [htakes.shown, List.mem_append] at hshown
      obtain hshown | hshown := hshown
      · apply h.own id' chatbox hshown
      · simp only [Option.mem_toList, Option.map_eq_some_iff, Prod.mk.injEq] at hshown
        obtain ⟨_, hchatbox, rfl, rfl⟩ := hshown
        refine ⟨?_, b, htakes.block, (htakes.target _ hchatbox).own⟩
        rw [htakes.mlist]
        apply List.mem_cons_self
    obtain ⟨hid', b', hb', hown⟩ := hown
    obtain ⟨b'', hb'', hcarries⟩ := htakes.blocks id' b' hb'
    exact ⟨htakes.mem hid', b'', hb'', hown.keep htakes.ulist hcarries⟩
  foundUsers := by
    intro id' ips hfound
    rw [htakes.foundUsers] at hfound
    apply htakes.mem (h.foundUsers id' ips hfound)
  foundGroups := by
    intro id' gpids hfound
    rw [htakes.foundGroups] at hfound
    apply htakes.mem (h.foundGroups id' gpids hfound)
  unread := by
    intro id' hid' b'' hb''
    have hnodup := h.settled.nodup
    rw [htakes.mlist, List.cons_append, List.nodup_cons] at hnodup
    have hne : id' ≠ id := by
      rintro rfl
      exact hnodup.1 (List.mem_append_left _ hid')
    have hlinked : id' ∈ s.client.mlist := by
      rw [htakes.mlist]
      apply List.mem_cons_of_mem id hid'
    obtain ⟨b', hb', -⟩ := h.settled.block id' (List.mem_append_left _ hlinked)
    obtain ⟨_, hblock, hcarries⟩ := htakes.blocks id' b' hb'
    rw [hb''] at hblock
    cases hblock
    rw [htakes.received_iff h hb' hcarries, h.unread id' hlinked b' hb',
      openOnArrival_iff htakes.foundUsers htakes.foundGroups hcarries]
    simp only [hne, false_and, or_false]

/-- What is taken was received exactly when no chatbox of its kind was open, or its own was when it
came in. -/
theorem Inbox.Delivered.takes_iff (hdelivered : s.Delivered) (h : s.Kept cfg)
    (htakes : s.Takes cfg s' id b opened) :
  s'.Delivered ↔ s.Careful .tray
  := by
  obtain ⟨b', hb', hcarries⟩ := htakes.blocks id b htakes.block
  have hlinked : id ∈ s.client.mlist := by
    rw [htakes.mlist]
    apply List.mem_cons_self
  rw [(h.takes htakes).delivered_iff, htakes.taken]
  simp only [Careful, htakes.mlist, List.head?_cons, Option.mem_def, Option.some.injEq,
    htakes.block, forall_eq', ← htakes.opened, ← h.unread id hlinked b htakes.block]
  constructor
  · intro htaken
    obtain ⟨b'', hb'', hreceived⟩ := htaken id
      (List.mem_append_right _ (List.mem_singleton_self id))
    rw [hb'] at hb''
    cases hb''
    rw [htakes.received_iff h htakes.block hcarries] at hreceived
    exact hreceived.symm.imp_left And.right
  · intro hcareful id' hid'
    rw [List.mem_append, List.mem_singleton] at hid'
    obtain hid' | rfl := hid'
    · obtain ⟨b₁, hb₁, hreceived⟩ := hdelivered.taken id' hid'
      obtain ⟨b₂, hb₂, hcarries'⟩ := htakes.blocks id' b₁ hb₁
      use b₂, hb₂
      exact (htakes.received_iff h hb₁ hcarries').mpr (Or.inl hreceived)
    · use b', hb'
      apply (htakes.received_iff h htakes.block hcarries).mpr
      exact hcareful.symm.imp_right fun hopened => ⟨rfl, hopened⟩

/-- The tray icon keeps what the history says, and every message that was taken has been received
after it exactly when it is careful. -/
theorem Inbox.Kept.tray (h : s.Kept cfg) (hdelivered : s.Delivered)
    (hstep : s.tray cfg = some s') :
  s'.Kept cfg ∧ (s'.Delivered ↔ s.Careful .tray)
  := by
  obtain ⟨hnil, rfl⟩ | ⟨id, b, opened, htakes⟩ := Inbox.tray_cases h.settled hstep
  · use h
    simp only [hdelivered, true_iff, Careful, hnil]
    rintro id ⟨⟩
  · exact ⟨h.takes htakes, hdelivered.takes_iff h htakes⟩

variable {c : Client}

/-- Chatboxes that are opened and closed keep what the history says. -/
theorem Inbox.Kept.chatboxes (h : s.Kept cfg) (hdelivered : s.Delivered)
    (hc : ∃ pchatbox gchatbox, c = { s.client with pchatbox, gchatbox }) :
  Inbox.Kept cfg { s with client := c } ∧ Inbox.Delivered { s with client := c }
  := by
  obtain ⟨pchatbox, gchatbox, rfl⟩ := hc
  have hleads := leads_chatboxes h.settled pchatbox gchatbox
  refine ⟨h.goOn hleads ?_, hdelivered.goOn h hleads⟩
  intro hshow id user gpid pmsg hlink
  cases hshow.symm.trans hlink

/-- A message that is received keeps what the history says. -/
theorem Inbox.Kept.receive {ip : List UInt8} {port : UInt16} {datagram : List UInt8}
    (h : s.Kept cfg) (hdelivered : s.Delivered)
    (hc : s.client.receive ip port datagram = some c) :
  Inbox.Kept cfg { s with client := c } ∧ Inbox.Delivered { s with client := c }
  := by
  have hleads := leads_receive h.settled hc
  refine ⟨h.goOn hleads ?_, hdelivered.goOn h hleads⟩
  intro _ id user gpid pmsg hlink
  simp only [Client.receive, hlink] at hc
  cases hc

/-- The blocks have the strings of the users after a step that spares the addresses. -/
theorem good_step {e : InboxEvent} {o : Option (List UInt8)}
    (hgood : PackedClient.Good ⟨s.client, s.blocks⟩) (hclear : s.Clear glib e)
    (hstep : (inboxMachine glib cfg).step s e = some (o, s')) :
  PackedClient.Good ⟨s'.client, s'.blocks⟩
  := by
  have hwindows : ∀ c : Client, (∃ pchatbox gchatbox,
      c = { s.client with pchatbox, gchatbox }) → PackedClient.Good ⟨c, s.blocks⟩ := by
    rintro c ⟨pchatbox, gchatbox, rfl⟩
    exact hgood.same rfl
  cases e with
  | receive ip port datagram =>
    obtain ⟨c, hc, heq⟩ := Option.map_eq_some_iff.mp hstep
    cases heq
    exact hgood.same (receive_ulist hc)
  | handle time beyond plain junk =>
    obtain ⟨⟨o', c, blocks⟩, hc, hstep⟩ := Option.bind_eq_some_iff.mp hstep
    simp only [Option.ite_none_left_eq_some, Option.some.injEq, Prod.mk.injEq] at hstep
    obtain ⟨-, -, rfl⟩ := hstep
    apply (packed_handle hgood hclear hc).1
  | tray =>
    obtain ⟨s₁, hs₁, heq⟩ := Option.map_eq_some_iff.mp hstep
    cases heq
    rw [Inbox.tray] at hs₁
    split at hs₁
    · cases hs₁
      exact hgood
    · obtain ⟨c, hc, hs₁⟩ := Option.bind_eq_some_iff.mp hs₁
      simp only [Option.ite_none_left_eq_some, Option.some.injEq] at hs₁
      obtain ⟨-, rfl⟩ := hs₁
      exact hgood.same (tray_ulist hc)
  | doubleClickUser i =>
    obtain ⟨c, hc, heq⟩ := Option.map_eq_some_iff.mp hstep
    cases heq
    apply hwindows c (contactTreeview_eq hc)
  | doubleClickGroup gpid =>
    obtain ⟨c, hc, heq⟩ := Option.map_eq_some_iff.mp hstep
    cases heq
    apply hwindows c (groupTreeview_eq hc)
  | close chatbox =>
    obtain ⟨c, hc, heq⟩ := Option.map_eq_some_iff.mp hstep
    cases heq
    apply hwindows c (closeChatbox_eq hc)

/-- A step that spares the addresses keeps what the history says, and every message that was taken
has been received after it exactly when it is careful. -/
theorem Inbox.Kept.step {e : InboxEvent} {o : Option (List UInt8)} (h : s.Kept cfg)
    (hdelivered : s.Delivered) (hgood : PackedClient.Good ⟨s.client, s.blocks⟩)
    (hclear : s.Clear glib e) (hstep : (inboxMachine glib cfg).step s e = some (o, s')) :
  s'.Kept cfg ∧ (s'.Delivered ↔ s.Careful e)
  := by
  cases e with
  | receive ip port datagram =>
    obtain ⟨c, hc, heq⟩ := Option.map_eq_some_iff.mp hstep
    cases heq
    apply (h.receive hdelivered hc).imp_right
    exact fun hdelivered' => iff_of_true hdelivered' trivial
  | handle time beyond plain junk =>
    apply (h.handle hdelivered hgood hclear hstep).imp_right
    exact fun hdelivered' => iff_of_true hdelivered' trivial
  | tray =>
    obtain ⟨s₁, hs₁, heq⟩ := Option.map_eq_some_iff.mp hstep
    cases heq
    apply h.tray hdelivered hs₁
  | doubleClickUser i =>
    obtain ⟨c, hc, heq⟩ := Option.map_eq_some_iff.mp hstep
    cases heq
    apply (h.chatboxes hdelivered (contactTreeview_eq hc)).imp_right
    exact fun hdelivered' => iff_of_true hdelivered' trivial
  | doubleClickGroup gpid =>
    obtain ⟨c, hc, heq⟩ := Option.map_eq_some_iff.mp hstep
    cases heq
    apply (h.chatboxes hdelivered (groupTreeview_eq hc)).imp_right
    exact fun hdelivered' => iff_of_true hdelivered' trivial
  | close chatbox =>
    obtain ⟨c, hc, heq⟩ := Option.map_eq_some_iff.mp hstep
    cases heq
    apply (h.chatboxes hdelivered (closeChatbox_eq hc)).imp_right
    exact fun hdelivered' => iff_of_true hdelivered' trivial

end

/-! ### Runs -/

theorem start_kept (cfg : Config) :
  Inbox.start.Kept cfg
  where
  settled := by
    constructor
    case nodup => apply List.nodup_nil
    case block => rintro id ⟨⟩
    case held => rintro id ⟨⟩
    case pending => trivial
  linked := by rintro ⟨⟩
  own := by rintro id chatbox ⟨⟩
  foundUsers := by rintro id ips ⟨⟩
  foundGroups := by rintro id gpids ⟨⟩
  unread := by rintro id ⟨⟩

theorem start_delivered :
  Inbox.start.Delivered
  where
  taken := by rintro id ⟨⟩
  own := by rintro id chatbox ⟨⟩

/-- Along a run that spares the addresses of the users, in every state the messages that were taken
have been received, and none was shown in the chatbox of another user or group, exactly when the
tray icon takes each while no chatbox of its kind is open, or after its own was open when it came
in. -/
theorem run_delivered_iff {glib : Glib} {cfg : Config} {es : List InboxEvent}
    {os : List (Option (List UInt8))} {s : Inbox}
    (hclear : (inboxMachine glib cfg).Meets (Inbox.Clear glib) Inbox.start es)
    (hrun : (inboxMachine glib cfg).run Inbox.start es = some (os, s)) :
  (∀ es' os t, es' <+: es → (inboxMachine glib cfg).run Inbox.start es' = some (os, t) →
      t.Delivered)
    ↔ (inboxMachine glib cfg).Meets Inbox.Careful Inbox.start es
  := by
  rw [← (inboxMachine glib cfg).meets_iff_reached start_delivered]
  have hiff : ∀ s e, ((s.Kept cfg ∧ s.Delivered) ∧ PackedClient.Good ⟨s.client, s.blocks⟩) →
      (((inboxMachine glib cfg).step s e).isSome ∧ s.Clear glib e) →
      ((∀ o s', (inboxMachine glib cfg).step s e = some (o, s') → s'.Delivered)
        ↔ s.Careful e) := by
    rintro s e ⟨⟨hkept, hdelivered⟩, hgood⟩ ⟨hsome, hclear⟩
    obtain ⟨⟨o, s'⟩, hstep⟩ := Option.isSome_iff_exists.mp hsome
    rw [← (hkept.step hdelivered hgood hclear hstep).2]
    constructor
    · intro h
      exact h o s' hstep
    · intro h o' s'' hstep'
      rw [hstep] at hstep'
      cases hstep'
      exact h
  apply (inboxMachine glib cfg).meets_iff hiff _ ⟨⟨start_kept cfg, start_delivered⟩, start_good⟩
    ((inboxMachine glib cfg).meets_and ((inboxMachine glib cfg).meets_of_run hrun) hclear)
  rintro s e o s' ⟨⟨hkept, hdelivered⟩, hgood⟩ ⟨-, hclear⟩ hcareful hstep
  obtain ⟨hkept', hiff'⟩ := hkept.step hdelivered hgood hclear hstep
  exact ⟨⟨hkept', hiff'.mpr hcareful⟩, good_step hgood hclear hstep⟩

/-- The handler takes `k` steps. -/
def inboxHandles (k : Nat) : List InboxEvent :=
  List.replicate k (.handle 0 [0] [] fun _ => 0)

/-- The entry of a sender with an avatar is received from an address, and its handler takes `k`
steps. -/
def inboxEntry (ip : List UInt8) (avatarId : Int32) (k : Nat) : List InboxEvent :=
  .receive ip 2425 (printEntry { configA with avatarId } 0 0x101 ++ [0, 0]) :: inboxHandles k

/-- A private message is received from an address and handled. -/
def inboxPrivate (ip : List UInt8) : List InboxEvent :=
  .receive ip 2425 (printHeader configA 0 0 0x120 ++ ascii "hi") :: inboxHandles 5

/-- A message that the tray icon takes while no chatbox is open, and one that comes in while that
of its sender is open, with a new avatar of the sender in between. -/
theorem run_delivered_private :
  ∃ os s, (inboxMachine asciiGlib configB).run Inbox.start
      (inboxEntry (ascii "10.0.0.1") 12 3 ++ inboxPrivate (ascii "10.0.0.1")
        ++ inboxEntry (ascii "10.0.0.1") 13 2 ++ [.tray]
        ++ inboxPrivate (ascii "10.0.0.1") ++ [.tray]) = some (os, s)
    ∧ s.taken = [1, 3] ∧ s.Delivered
  := by
  have htaken : ((inboxMachine asciiGlib configB).run Inbox.start
      (inboxEntry (ascii "10.0.0.1") 12 3 ++ inboxPrivate (ascii "10.0.0.1")
        ++ inboxEntry (ascii "10.0.0.1") 13 2 ++ [.tray]
        ++ inboxPrivate (ascii "10.0.0.1") ++ [.tray])).map (fun r => r.2.taken)
      = some [1, 3] := by decide +kernel
  obtain ⟨⟨os, s⟩, hrun, heq⟩ := Option.map_eq_some_iff.mp htaken
  use os, s, hrun, heq
  have hclear : (inboxMachine asciiGlib configB).Meets (Inbox.Clear asciiGlib) Inbox.start
      (inboxEntry (ascii "10.0.0.1") 12 3 ++ inboxPrivate (ascii "10.0.0.1")
        ++ inboxEntry (ascii "10.0.0.1") 13 2 ++ [.tray]
        ++ inboxPrivate (ascii "10.0.0.1") ++ [.tray]) := by
    decide +kernel
  apply (run_delivered_iff hclear hrun).mpr _ _ os s (List.prefix_refl _) hrun
  decide +kernel

/-- A message of one user is dropped while the chatbox of another is open, and one of a user whose
address was run over by the path of its avatar while its own is. -/
theorem other_open_drops :
  (∃ os s, (inboxMachine asciiGlib configB).run Inbox.start
      (inboxEntry (ascii "10.0.0.1") 1 3 ++ inboxEntry (ascii "10.0.0.2") 1 3
        ++ [.doubleClickUser 1] ++ inboxPrivate (ascii "10.0.0.1") ++ [.tray]) = some (os, s)
    ∧ ¬ s.Delivered)
    ∧ ∃ os s, (inboxMachine asciiGlib configB).run Inbox.start
      (inboxEntry (ascii "10.0.0.1") 12 3 ++ [.doubleClickUser 0]
        ++ inboxEntry (ascii "10.0.0.1") 0 2 ++ inboxPrivate (ascii "10.0.0.1") ++ [.tray])
        = some (os, s)
    ∧ ¬ s.Delivered
  := by
  have hdropped : ∀ s : Inbox, (s.taken, s.shown) = ([2], []) → ¬ s.Delivered := by
    intro s heq h
    simp only [Prod.mk.injEq] at heq
    obtain ⟨b, -, chatbox, hshown, -⟩ := h.taken 2 (by rw [heq.1]; decide)
    rw [heq.2] at hshown
    cases hshown
  constructor
  · have hsome : ((inboxMachine asciiGlib configB).run Inbox.start
        (inboxEntry (ascii "10.0.0.1") 1 3 ++ inboxEntry (ascii "10.0.0.2") 1 3
          ++ [.doubleClickUser 1] ++ inboxPrivate (ascii "10.0.0.1") ++ [.tray])).map
          (fun r => (r.2.taken, r.2.shown)) = some ([2], []) := by decide +kernel
    obtain ⟨⟨os, s⟩, hrun, heq⟩ := Option.map_eq_some_iff.mp hsome
    exact ⟨os, s, hrun, hdropped s heq⟩
  · have hsome : ((inboxMachine asciiGlib configB).run Inbox.start
        (inboxEntry (ascii "10.0.0.1") 12 3 ++ [.doubleClickUser 0]
          ++ inboxEntry (ascii "10.0.0.1") 0 2 ++ inboxPrivate (ascii "10.0.0.1")
          ++ [.tray])).map (fun r => (r.2.taken, r.2.shown)) = some ([2], []) := by
      decide +kernel
    obtain ⟨⟨os, s⟩, hrun, heq⟩ := Option.map_eq_some_iff.mp hsome
    exact ⟨os, s, hrun, hdropped s heq⟩

end Peer

end IFreeChat
