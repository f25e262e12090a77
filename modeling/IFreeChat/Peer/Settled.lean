import IFreeChat.Peer.Ownership

/-!
# Settled messages

A message is settled once it is linked to `mlist`: its sender and its group stay what they are,
whatever the handlers, the tray icon and the chatboxes do, also after the tray icon has taken it.

`Client.Leads` says what a step does to settled messages; every step of a handler and every
reception is such a step (`leads_handle`, `leads_receive`).  They stay settled where the tray icon
takes the first of them (`Client.Settled.take`).
-/

open Basis

namespace IFreeChat

namespace Peer

/-! ### Settled messages -/

/-- The address of the user of a chatbox. -/
def Client.address (s : Client) (i : Nat) : Option (List UInt8) :=
  (s.ulist[i]?).map User.ipaddr

variable (glib : Glib) (cfg : Config)

/-- The user of a message, if it is set, has its address. -/
def Client.UserOf (s : Client) (msg : Msg) : Prop :=
  ∀ i, msg.user = some i → s.address i = some msg.ip

/-- The group of a message is set, and is none or is known. -/
def GroupOf (msg : Msg) : Prop :=
  ∃ gpid, msg.gpid = some gpid ∧ (gpid ≠ 0 → gpid ∈ cfg.glist)

/-- What the handler has found out about its message. -/
def Client.Pending (s : Client) (ids : List Nat) : Prop :=
  match s.pc with
  | .sendLink id => ∃ b, s.heap[id]? = some b ∧ s.UserOf b.msg
  | .sendConvert id => id ∈ ids ∧ ∃ b, s.heap[id]? = some b ∧ b.msg.gpid = some 0
  | .sendFind id => id ∈ ids ∧ ∃ b, s.heap[id]? = some b ∧ b.msg.gpid = some 0
  | .sendShow id => id ∈ ids ∧ ∃ b, s.heap[id]? = some b ∧ b.msg.gpid = some 0
  | .gpDecode id user => ∃ b, s.heap[id]? = some b ∧ s.address user = some b.msg.ip
  | .gpGroup id user _ _ => ∃ b, s.heap[id]? = some b ∧ s.address user = some b.msg.ip
  | .gpLink id user gpid _ =>
      (∃ b, s.heap[id]? = some b ∧ s.address user = some b.msg.ip) ∧ gpid ∈ cfg.glist
  | _ => True

/-- The messages that are linked or were taken have their groups, and users of their addresses if
any, and are not the one the handler holds. -/
structure Client.Settled (s : Client) (taken : List Nat) : Prop where
  nodup : (s.mlist ++ taken).Nodup
  block : ∀ id ∈ s.mlist ++ taken,
    ∃ b, s.heap[id]? = some b ∧ s.UserOf b.msg ∧ GroupOf cfg b.msg
  held : ∀ id ∈ s.pc.holds, id ∉ s.mlist ++ taken
  pending : s.Pending cfg (s.mlist ++ taken)

/-- A message goes on as another one of the same sender and group. -/
structure Client.Carries (s s' : Client) (msg msg' : Msg) : Prop where
  gpid : msg'.gpid = msg.gpid
  ip : msg'.ip = msg.ip
  userOf : s.UserOf msg → s'.UserOf msg'

/-- A step that leaves the settled messages with their senders and groups, and links one message
at most, which `on_buddy_sendgpmsg` shows next. -/
structure Client.Leads (taken : List Nat) (s s' : Client) : Prop where
  settled : s'.Settled cfg taken
  ulist : Keeps s.ulist s'.ulist
  blocks : ∀ id ∈ s.mlist ++ taken, ∀ b, s.heap[id]? = some b →
    ∃ b', s'.heap[id]? = some b' ∧ s.Carries s' b.msg b'.msg
  mlist : s'.mlist = s.mlist ∨ ∃ id, id ∉ s.mlist ++ taken ∧ s'.mlist = s.mlist ++ [id]
  linked : s'.pc = .gpShow → s.pc = .gpShow ∨ ∃ id user gpid pmsg,
    s.pc = .gpLink id user gpid pmsg ∧ id ∈ s'.mlist
      ∧ ∃ b, s'.heap[id]? = some b ∧ b.msg.gpid = some gpid

section

variable {glib cfg}
variable {s s' : Client} {taken : List Nat} {id : Nat} {time : UInt64} {beyond plain : List UInt8}
  {o : Option (List UInt8)}

theorem Client.address_eq_some {i : Nat} {ip : List UInt8} :
  s.address i = some ip ↔ ∃ u, s.ulist[i]? = some u ∧ u.ipaddr = ip
  := by
  rw [address, Option.map_eq_some_iff]

/-- The addresses of the users stay. -/
theorem Client.address_keep (hulist : Keeps s.ulist s'.ulist) {i : Nat} {ip : List UInt8}
    (h : s.address i = some ip) :
  s'.address i = some ip
  := by
  obtain ⟨u, hu, hip⟩ := address_eq_some.mp h
  obtain ⟨u', hu', hip'⟩ := hulist i u hu
  apply address_eq_some.mpr
  use u', hu', hip'.trans hip

/-- A message goes on as one with its sender, group and user. -/
theorem Client.carries_of_eq (hulist : Keeps s.ulist s'.ulist) {msg msg' : Msg}
    (hgpid : msg'.gpid = msg.gpid) (hip : msg'.ip = msg.ip) (huser : msg'.user = msg.user) :
  s.Carries s' msg msg'
  where
  gpid := hgpid
  ip := hip
  userOf := by
    intro h i hi
    rw [hip]
    apply address_keep hulist
    apply h i (huser.symm.trans hi)

theorem Client.carries_refl (hulist : Keeps s.ulist s'.ulist) (msg : Msg) :
  s.Carries s' msg msg
  := carries_of_eq hulist rfl rfl rfl

/-- Every message goes on where one of them is changed to another of its sender and group. -/
theorem Client.carries_modify {f : Block → Block} (hulist : Keeps s.ulist s'.ulist)
    (hheap : s'.heap = s.heap.modify id f)
    (hcarries : ∀ b, s.heap[id]? = some b → s.Carries s' b.msg (f b).msg)
    {id' : Nat} {b : Block} (hb : s.heap[id']? = some b) :
  ∃ b', s'.heap[id']? = some b' ∧ s.Carries s' b.msg b'.msg
  := by
  rw [hheap]
  by_cases hid : id' = id
  · subst hid
    use f b, getElem?_modify_self hb
    apply hcarries b hb
  · use b, (getElem?_modify_of_ne hid).trans hb
    apply carries_refl hulist

/-- The handler goes on with the message it held, or leaves it, and no message is linked. -/
theorem Client.Settled.goOn (h : s.Settled cfg taken) (hulist : Keeps s.ulist s'.ulist)
    (hmlist : s'.mlist = s.mlist)
    (hblocks : ∀ (id : Nat) (b : Block), s.heap[id]? = some b →
      ∃ b', s'.heap[id]? = some b' ∧ s.Carries s' b.msg b'.msg)
    (hheld : ∀ id ∈ s'.pc.holds, id ∉ s.mlist ++ taken)
    (hpending : s'.Pending cfg (s.mlist ++ taken)) (hshow : s'.pc = .gpShow → s.pc = .gpShow) :
  s.Leads cfg taken s'
  where
  settled := by
    constructor
    case nodup =>
      rw [hmlist]
      exact h.nodup
    case block =>
      intro id hid
      rw [hmlist] at hid
      obtain ⟨b, hb, huser, gpid, hgpid, hknown⟩ := h.block id hid
      obtain ⟨b', hb', hcarries⟩ := hblocks id b hb
      use b', hb', hcarries.userOf huser, gpid, hcarries.gpid.trans hgpid, hknown
    case held =>
      intro id hid
      rw [hmlist]
      apply hheld id hid
    case pending =>
      rw [hmlist]
      exact hpending
  ulist := hulist
  blocks := fun id _ b hb => hblocks id b hb
  mlist := Or.inl hmlist
  linked := fun hpc => Or.inl (hshow hpc)

/-- A step that changes one message to another of its sender and group, and links none. -/
theorem Client.Settled.modify (h : s.Settled cfg taken) {f : Block → Block}
    (hulist : Keeps s.ulist s'.ulist) (hmlist : s'.mlist = s.mlist)
    (hheap : s'.heap = s.heap.modify id f)
    (hcarries : ∀ b, s.heap[id]? = some b → s.Carries s' b.msg (f b).msg)
    (hholds : ∀ id ∈ s'.pc.holds, id ∈ s.pc.holds)
    (hpending : s'.Pending cfg (s.mlist ++ taken)) (hshow : s'.pc = .gpShow → s.pc = .gpShow) :
  s.Leads cfg taken s'
  := by
  apply h.goOn hulist hmlist _ (fun id hid => h.held id (hholds id hid)) hpending hshow
  intro id' b hb
  apply Client.carries_modify hulist hheap hcarries hb

/-- A step that changes no message and links none. -/
theorem Client.Settled.same (h : s.Settled cfg taken) (hulist : Keeps s.ulist s'.ulist)
    (hmlist : s'.mlist = s.mlist) (hheap : s'.heap = s.heap)
    (hholds : ∀ id ∈ s'.pc.holds, id ∈ s.pc.holds)
    (hpending : s'.Pending cfg (s.mlist ++ taken)) (hshow : s'.pc = .gpShow → s.pc = .gpShow) :
  s.Leads cfg taken s'
  := by
  apply h.goOn hulist hmlist _ (fun id hid => h.held id (hholds id hid)) hpending hshow
  intro id b hb
  use b, hheap ▸ hb
  apply carries_refl hulist

/-- The handler links the message it holds. -/
theorem Client.Settled.link (h : s.Settled cfg taken) {f : Block → Block}
    (hholds : s.pc.holds = some id) (hulist : s'.ulist = s.ulist)
    (hmlist : s'.mlist = s.mlist ++ [id]) (hheap : s'.heap = s.heap.modify id f)
    (hholds' : s'.pc.holds = none) {b : Block} (hb : s.heap[id]? = some b)
    (huser : s.UserOf (f b).msg) (hgroup : GroupOf cfg (f b).msg)
    (hpending : s'.Pending cfg (s'.mlist ++ taken))
    (hshow : s'.pc = .gpShow → ∃ user gpid pmsg, s.pc = .gpLink id user gpid pmsg
      ∧ (f b).msg.gpid = some gpid) :
  s.Leads cfg taken s'
  := by
  have hnew := h.held id hholds
  have hself : s'.heap[id]? = some (f b) := by
    rw [hheap, getElem?_modify_self hb]
  have haddress : s'.address = s.address := by
    funext i
    rw [address, address, hulist]
  have hother : ∀ id' ∈ s.mlist ++ taken, s'.heap[id']? = s.heap[id']? := by
    intro id' hid'
    rw [hheap]
    apply getElem?_modify_of_ne
    rintro rfl
    exact hnew hid'
  have hkeeps : Keeps s.ulist s'.ulist := by
    rw [hulist]
    apply keeps_refl
  have hperm : List.Perm (s'.mlist ++ taken) (id :: (s.mlist ++ taken)) := by
    rw [hmlist, List.append_assoc, List.singleton_append]
    apply List.perm_middle
  constructor
  case settled =>
    constructor
    case nodup =>
      rw [hperm.nodup_iff, List.nodup_cons]
      exact ⟨hnew, h.nodup⟩
    case block =>
      intro id' hid'
      obtain rfl | hid' := List.mem_cons.mp (hperm.mem_iff.mp hid')
      · refine ⟨f b, hself, ?_, hgroup⟩
        intro i hi
        rw [haddress]
        apply huser i hi
      · obtain ⟨b', hb', huser', hgroup'⟩ := h.block id' hid'
        exact ⟨b', (hother id' hid').trans hb', (carries_refl hkeeps _).userOf huser', hgroup'⟩
    case held =>
      rw [hholds']
      rintro id' ⟨⟩
    case pending => exact hpending
  case ulist => exact hkeeps
  case blocks =>
    intro id' hid' b' hb'
    use b', (hother id' hid').trans hb'
    apply carries_refl hkeeps
  case mlist =>
    right
    use id
  case linked =>
    intro hpc
    obtain ⟨user, gpid, pmsg, hlink, hgpid⟩ := hshow hpc
    right
    use id, user, gpid, pmsg, hlink
    rw [hmlist]
    use List.mem_append_right _ (List.mem_singleton_self id), f b, hself

/-! ### Steps of the handlers -/

/-- Linking a block may touch a freed one, and changes the list. -/
theorem Client.link_eq (s : Client) (id : Nat) :
  ∃ stale, s.link id = { s with stale, mlist := s.mlist ++ [id] }
  := by
  rw [link]
  cases s.mlist.getLast? with
  | none => exact ⟨_, rfl⟩
  | some l => exact ⟨_, rfl⟩

/-- The handler holds the message it held. -/
theorem holds_of_eq {pc pc' : Pc} (hpc : s.pc = pc) (hholds : pc'.holds = pc.holds) :
  ∀ id ∈ pc'.holds, id ∈ s.pc.holds
  := by
  rw [hpc, hholds]
  exact fun _ h => h

theorem leads_free (h : s.Settled cfg taken) (id : Nat) :
  s.Leads cfg taken { s.free id with pc := .idle }
  := by
  refine h.modify (keeps_refl s.ulist) rfl rfl ?_ ?_ trivial ?_
  · intro b _
    apply Client.carries_refl
    exact keeps_refl s.ulist
  · rintro id' ⟨⟩
  · rintro ⟨⟩

theorem leads_entry (h : s.Settled cfg taken) (hpc : s.pc = .entry id)
    (hstep : s.handle glib cfg time beyond plain = some (o, s')) :
  s.Leads cfg taken s'
  := by
  simp only [Client.handle, hpc] at hstep
  obtain ⟨b, hb, hstep⟩ := Option.bind_eq_some_iff.mp hstep
  split at hstep
  · cases hstep
    exact h.same (keeps_refl s.ulist) rfl rfl (holds_of_eq hpc rfl) trivial
      (by rintro ⟨⟩)
  · split at hstep
    · cases hstep
    · split at hstep
      · rename_i ulist hupdate
        cases hstep
        exact h.same (keeps_updateUser hupdate) rfl rfl (holds_of_eq hpc rfl) trivial
          (by rintro ⟨⟩)
      · cases hstep
        exact h.same (keeps_refl s.ulist) rfl rfl (holds_of_eq hpc rfl) trivial
          (by rintro ⟨⟩)

theorem leads_entryAdd {user : User} (h : s.Settled cfg taken) (hpc : s.pc = .entryAdd id user)
    (hstep : s.handle glib cfg time beyond plain = some (o, s')) :
  s.Leads cfg taken s'
  := by
  simp only [Client.handle, hpc] at hstep
  obtain ⟨b, hb, hstep⟩ := Option.bind_eq_some_iff.mp hstep
  cases hstep
  exact h.same (keeps_append s.ulist user) rfl rfl (holds_of_eq hpc rfl) trivial
    (by rintro ⟨⟩)

theorem leads_sendLink (h : s.Settled cfg taken) (hpc : s.pc = .sendLink id)
    (hstep : s.handle glib cfg time beyond plain = some (o, s')) :
  s.Leads cfg taken s'
  := by
  have hpending := h.pending
  simp only [Client.Pending, hpc] at hpending
  obtain ⟨b, hb, huser⟩ := hpending
  simp only [Client.handle, hpc] at hstep
  obtain ⟨stale, hlink⟩ := (s.update id fun m => { m with gpid := some 0 }).link_eq id
  rw [hlink] at hstep
  cases hstep
  have hself := @getElem?_modify_self _ _ _ _ (fun b : Block =>
    { b with msg := { b.msg with gpid := some 0 } }) hb
  refine h.link (by rw [hpc]; rfl) rfl rfl rfl rfl hb huser ⟨0, rfl, ?_⟩ ⟨?_, _, hself, rfl⟩ ?_
  · intro hne
    exact absurd rfl hne
  · apply List.mem_append_left
    apply List.mem_append_right _ (List.mem_singleton_self id)
  · rintro ⟨⟩

theorem leads_sendConvert (h : s.Settled cfg taken) (hpc : s.pc = .sendConvert id)
    (hstep : s.handle glib cfg time beyond plain = some (o, s')) :
  s.Leads cfg taken s'
  := by
  have hpending := h.pending
  simp only [Client.Pending, hpc] at hpending
  obtain ⟨hid, b, hb, hgpid⟩ := hpending
  simp only [Client.handle, hpc] at hstep
  obtain ⟨b', hb', hstep⟩ := Option.bind_eq_some_iff.mp hstep
  rw [hb] at hb'
  cases hb'
  split at hstep
  · cases hstep
  · rename_i msg hconvert
    obtain ⟨hsame, hip, huser⟩ := convertData_spec hconvert
    cases hstep
    refine h.modify (keeps_refl s.ulist) rfl rfl ?_ ?_ ?_ ?_
    · intro b' hb'
      rw [hb] at hb'
      cases hb'
      apply Client.carries_of_eq _ hsame hip huser
      exact keeps_refl s.ulist
    · rintro id' ⟨⟩
    · exact ⟨hid, _, getElem?_modify_self hb, hsame.trans hgpid⟩
    · rintro ⟨⟩

theorem leads_sendFind (h : s.Settled cfg taken) (hpc : s.pc = .sendFind id)
    (hstep : s.handle glib cfg time beyond plain = some (o, s')) :
  s.Leads cfg taken s'
  := by
  have hpending := h.pending
  simp only [Client.Pending, hpc] at hpending
  obtain ⟨hid, b, hb, hgpid⟩ := hpending
  simp only [Client.handle, hpc] at hstep
  obtain ⟨b', hb', hstep⟩ := Option.bind_eq_some_iff.mp hstep
  rw [hb] at hb'
  cases hb'
  split at hstep
  · rename_i i hfind
    obtain ⟨u, hu, hip⟩ := findUser_eq_some hfind
    cases hstep
    refine h.modify (keeps_refl s.ulist) rfl rfl ?_ ?_ ?_ ?_
    · intro b' hb'
      rw [hb] at hb'
      cases hb'
      refine ⟨rfl, rfl, ?_⟩
      rintro - j ⟨⟩
      exact Client.address_eq_some.mpr ⟨u, hu, hip⟩
    · rintro id' ⟨⟩
    · exact ⟨hid, _, getElem?_modify_self hb, hgpid⟩
    · rintro ⟨⟩
  · split at hstep
    · cases hstep
      exact h.same (keeps_refl s.ulist) rfl rfl (by rintro id' ⟨⟩) trivial (by rintro ⟨⟩)
    · cases hstep
      exact h.same (keeps_refl s.ulist) rfl rfl (by rintro id' ⟨⟩) ⟨hid, b, hb, hgpid⟩
        (by rintro ⟨⟩)

/-- The step after the search for the chatbox. -/
theorem leads_sendShow (h : s.Settled cfg taken) (hpc : s.pc = .sendShow id)
    (hstep : s.handle glib cfg time beyond plain = some (o, s')) :
  s.Leads cfg taken s'
  := by
  simp only [Client.handle, hpc] at hstep
  cases hstep
  exact h.same (keeps_refl s.ulist) rfl rfl (by rintro id' ⟨⟩) trivial (by rintro ⟨⟩)

theorem leads_sendReply (h : s.Settled cfg taken) (hpc : s.pc = .sendReply id)
    (hstep : s.handle glib cfg time beyond plain = some (o, s')) :
  s.Leads cfg taken s'
  := by
  have hleads : s.Leads cfg taken { s.touch id with pc := .idle } :=
    h.same (keeps_refl s.ulist) rfl rfl (by rintro id' ⟨⟩) trivial (by rintro ⟨⟩)
  simp only [Client.handle, hpc] at hstep
  obtain ⟨b, hb, hstep⟩ := Option.bind_eq_some_iff.mp hstep
  split at hstep
  · cases hstep
    exact hleads
  · split at hstep
    · cases hstep
    · cases hstep
      exact hleads

theorem leads_gpFind (h : s.Settled cfg taken) (hpc : s.pc = .gpFind id)
    (hstep : s.handle glib cfg time beyond plain = some (o, s')) :
  s.Leads cfg taken s'
  := by
  simp only [Client.handle, hpc] at hstep
  obtain ⟨b, hb, hstep⟩ := Option.bind_eq_some_iff.mp hstep
  split at hstep
  · cases hstep
    exact h.same (keeps_refl s.ulist) rfl rfl (by rintro id' ⟨⟩) trivial (by rintro ⟨⟩)
  · split at hstep
    · rename_i i hfind
      obtain ⟨u, hu, hip⟩ := findUser_eq_some hfind
      cases hstep
      exact h.same (keeps_refl s.ulist) rfl rfl (holds_of_eq hpc rfl)
        ⟨b, hb, Client.address_eq_some.mpr ⟨u, hu, hip⟩⟩ (by rintro ⟨⟩)
    · cases hstep
      exact h.same (keeps_refl s.ulist) rfl rfl (holds_of_eq hpc rfl) trivial (by rintro ⟨⟩)

theorem leads_gpDecode {user : Nat} (h : s.Settled cfg taken) (hpc : s.pc = .gpDecode id user)
    (hstep : s.handle glib cfg time beyond plain = some (o, s')) :
  s.Leads cfg taken s'
  := by
  have hpending := h.pending
  simp only [Client.Pending, hpc] at hpending
  simp only [Client.handle, hpc] at hstep
  obtain ⟨b, hb, hstep⟩ := Option.bind_eq_some_iff.mp hstep
  obtain ⟨u, hu, hstep⟩ := Option.bind_eq_some_iff.mp hstep
  split at hstep
  · cases hstep
  · cases hstep
    exact h.same (keeps_refl s.ulist) rfl rfl (holds_of_eq hpc rfl) hpending (by rintro ⟨⟩)

theorem leads_gpGroup {user : Nat} {gpid : UInt32} {pmsg : List UInt8} (h : s.Settled cfg taken)
    (hpc : s.pc = .gpGroup id user gpid pmsg)
    (hstep : s.handle glib cfg time beyond plain = some (o, s')) :
  s.Leads cfg taken s'
  := by
  have hpending := h.pending
  simp only [Client.Pending, hpc] at hpending
  simp only [Client.handle, hpc] at hstep
  split at hstep
  · rename_i hknown
    cases hstep
    exact h.same (keeps_refl s.ulist) rfl rfl (holds_of_eq hpc rfl) ⟨hpending, hknown⟩
      (by rintro ⟨⟩)
  · cases hstep
    exact h.same (keeps_refl s.ulist) rfl rfl (by rintro id' ⟨⟩) trivial (by rintro ⟨⟩)

theorem leads_gpLink {user : Nat} {gpid : UInt32} {pmsg : List UInt8} (h : s.Settled cfg taken)
    (hpc : s.pc = .gpLink id user gpid pmsg)
    (hstep : s.handle glib cfg time beyond plain = some (o, s')) :
  s.Leads cfg taken s'
  := by
  have hpending := h.pending
  simp only [Client.Pending, hpc] at hpending
  obtain ⟨⟨b, hb, hip⟩, hknown⟩ := hpending
  simp only [Client.handle, hpc, hb] at hstep
  change (if _ then _ else _) = _ at hstep
  split at hstep
  · cases hstep
  · obtain ⟨stale, hlink⟩ := (s.update id fun _ =>
      { b.msg.strcpyData pmsg with user := some user, gpid := some gpid }).link_eq id
    rw [hlink] at hstep
    cases hstep
    refine h.link (by rw [hpc]; rfl) rfl rfl rfl rfl hb ?_ ⟨gpid, rfl, fun _ => hknown⟩ trivial ?_
    · rintro i ⟨⟩
      exact hip
    · intro _
      exact ⟨user, gpid, pmsg, hpc, rfl⟩

/-- Every step of a handler leaves the settled messages with their senders and groups. -/
theorem leads_handle (h : s.Settled cfg taken)
    (hstep : s.handle glib cfg time beyond plain = some (o, s')) :
  s.Leads cfg taken s'
  := by
  cases hpc : s.pc with
  | idle =>
    simp only [Client.handle, hpc] at hstep
    cases hstep
  | entry id => apply leads_entry h hpc hstep
  | entryAdd id user => apply leads_entryAdd h hpc hstep
  | entryFree id | sendFree id | gpFree id =>
    simp only [Client.handle, hpc] at hstep
    cases hstep
    apply leads_free h id
  | sendLink id => apply leads_sendLink h hpc hstep
  | sendConvert id => apply leads_sendConvert h hpc hstep
  | sendFind id => apply leads_sendFind h hpc hstep
  | sendShow id => apply leads_sendShow h hpc hstep
  | sendReply id => apply leads_sendReply h hpc hstep
  | gpFind id => apply leads_gpFind h hpc hstep
  | gpDecode id user => apply leads_gpDecode h hpc hstep
  | gpGroup id user gpid pmsg => apply leads_gpGroup h hpc hstep
  | gpLink id user gpid pmsg => apply leads_gpLink h hpc hstep
  | gpShow =>
    simp only [Client.handle, hpc] at hstep
    cases hstep
    exact h.same (keeps_refl s.ulist) rfl rfl (by rintro id' ⟨⟩) trivial (by rintro ⟨⟩)

/-! ### The other steps -/

/-- The user of a message that is received is not set. -/
theorem parseMessage_user {ip : List UInt8} {port : UInt16} {data : List UInt8} {size : Nat}
    {msg : Msg} (h : parseMessage ip port data size = .ok msg) :
  msg.user = none
  := by
  obtain ⟨⟨version, p₁⟩, -, h⟩ := bind_eq_ok.mp h
  obtain ⟨⟨packetNo, p₂⟩, -, h⟩ := bind_eq_ok.mp h
  obtain ⟨⟨username, p₃⟩, -, h⟩ := bind_eq_ok.mp h
  obtain ⟨⟨hostname, p₄⟩, -, h⟩ := bind_eq_ok.mp h
  obtain ⟨⟨cmd, p₅⟩, -, h⟩ := bind_eq_ok.mp h
  dsimp only at h
  split at h
  · cases h
  · cases h
    rfl

theorem leads_receive {ip : List UInt8} {port : UInt16} {datagram : List UInt8}
    (h : s.Settled cfg taken) (hstep : s.receive ip port datagram = some s') :
  s.Leads cfg taken s'
  := by
  rw [Client.receive] at hstep
  split at hstep
  case isFalse => cases hstep
  split at hstep
  case h_1 => cases hstep
  rename_i msg hparse
  cases hstep
  have hfresh : s.heap.length ∉ s.mlist ++ taken := by
    intro hmem
    obtain ⟨b, hb, -⟩ := h.block _ hmem
    apply Nat.lt_irrefl _ (List.getElem?_eq_some_iff.mp hb).1
  have hblocks : ∀ (id : Nat) (b : Block), s.heap[id]? = some b →
      (s.heap ++ [⟨msg, 0⟩])[id]? = some b := by
    intro id b hb
    rw [List.getElem?_append_left (List.getElem?_eq_some_iff.mp hb).1, hb]
  have hcases : handlerOf msg.command s.heap.length = .entry s.heap.length
      ∨ handlerOf msg.command s.heap.length = .sendLink s.heap.length
      ∨ handlerOf msg.command s.heap.length = .gpFind s.heap.length
      ∨ handlerOf msg.command s.heap.length = .idle := by
    rw [handlerOf]
    repeat' split
    all_goals simp
  refine h.goOn (keeps_refl s.ulist) rfl ?_ ?_ ?_ ?_
  · intro id b hb
    use b, hblocks id b hb
    apply Client.carries_refl
    exact keeps_refl s.ulist
  · intro id hid
    rcases hcases with hpc | hpc | hpc | hpc <;> simp only [hpc] at hid <;> cases hid
    all_goals exact hfresh
  · rcases hcases with hpc | hpc | hpc | hpc <;> simp only [Client.Pending, hpc]
    use ⟨msg, 0⟩, List.getElem?_concat_length
    intro i hi
    rw [parseMessage_user hparse] at hi
    cases hi
  · rcases hcases with hpc | hpc | hpc | hpc <;> rw [hpc] <;> rintro ⟨⟩

/-- Chatboxes are opened and closed. -/
theorem leads_chatboxes (h : s.Settled cfg taken) (pchatbox : List Nat) (gchatbox : List UInt32) :
  s.Leads cfg taken { s with pchatbox, gchatbox }
  := h.same (keeps_refl s.ulist) rfl rfl (fun _ h => h) h.pending fun hpc => hpc

/-! ### The tray icon -/

/-- The settled messages stay so when the first of the list is taken and freed. -/
theorem Client.Settled.take (h : s.Settled cfg taken) {rest : List Nat}
    (hmlist : s.mlist = id :: rest)
    (hs' : ∃ stale pchatbox gchatbox,
      s' = { s.free id with mlist := rest, stale, pchatbox, gchatbox }) :
  s'.Settled cfg (taken ++ [id])
    ∧ ∀ (id' : Nat) (b : Block), s.heap[id']? = some b →
      ∃ b', s'.heap[id']? = some b' ∧ s.Carries s' b.msg b'.msg
  := by
  obtain ⟨stale, pchatbox, gchatbox, rfl⟩ := hs'
  have hperm : List.Perm (rest ++ (taken ++ [id])) (s.mlist ++ taken) := by
    rw [hmlist, ← List.append_assoc, List.cons_append]
    apply List.perm_append_singleton
  have hsame : ∀ (id' : Nat) (b : Block), s.heap[id']? = some b →
      ∃ b', (s.free id).heap[id']? = some b' ∧ b'.msg = b.msg := by
    intro id' b hb
    by_cases hid : id' = id
    · subst hid
      use { b with frees := b.frees + 1 }, getElem?_modify_self hb
    · use b, (free_of_ne hid).trans hb
  have hpending : ∀ (id' : Nat) (p : Msg → Prop), (∃ b, s.heap[id']? = some b ∧ p b.msg) →
      ∃ b, (s.free id).heap[id']? = some b ∧ p b.msg := by
    rintro id' p ⟨b, hb, hp⟩
    obtain ⟨b', hb', hmsg⟩ := hsame id' b hb
    use b', hb'
    rw [hmsg]
    exact hp
  constructor
  · constructor
    case nodup =>
      rw [hperm.nodup_iff]
      exact h.nodup
    case block =>
      intro id' hid'
      apply hpending id' (fun msg => s.UserOf msg ∧ GroupOf cfg msg)
      apply h.block id' (hperm.mem_iff.mp hid')
    case held =>
      intro id' hid' hmem
      apply h.held id' hid' (hperm.mem_iff.mp hmem)
    case pending =>
      have hfound := h.pending
      cases hpc : s.pc with
      | sendLink id' =>
        simp only [Pending, hpc, free] at hfound ⊢
        apply hpending id' s.UserOf hfound
      | sendConvert id' | sendFind id' | sendShow id' =>
        simp only [Pending, hpc, free] at hfound ⊢
        exact ⟨hperm.mem_iff.mpr hfound.1, hpending id' (fun msg => msg.gpid = some 0) hfound.2⟩
      | gpDecode id' user | gpGroup id' user _ _ =>
        simp only [Pending, hpc, free] at hfound ⊢
        apply hpending id' (fun msg => s.address user = some msg.ip) hfound
      | gpLink id' user gpid _ =>
        simp only [Pending, hpc, free] at hfound ⊢
        exact ⟨hpending id' (fun msg => s.address user = some msg.ip) hfound.1, hfound.2⟩
      | _ => simp only [Pending, free, hpc]
  · intro id' b hb
    obtain ⟨b', hb', hmsg⟩ := hsame id' b hb
    use b', hb'
    rw [hmsg]
    apply carries_refl
    exact keeps_refl s.ulist

end

end Peer

end IFreeChat
