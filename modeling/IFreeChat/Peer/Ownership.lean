import IFreeChat.Peer.Handlers

/-!
# Who owns a message

What one step leaves of the accounts of the messages: after `Careful` steps every unread
message is a live block with its group and its user set, no freed block is touched, and when
the listening thread is idle, every other block has been freed once.  The steps that are not
careful are those that leave a block behind, and those of a private message, which is linked
before its user is set; where private messages come from known users and the tray icon keeps
off the one that is being handled, only the user is missing, and only until the lookup.

The invariant `Accounted` tells for every block whether the handler holds it, it is linked,
or it has been freed.
-/

open Basis

namespace IFreeChat

namespace Peer

/-! ### What is owned -/

/-- The user of a message is the entry of its address in the user list. -/
def Client.HasUser (s : Client) (b : Block) : Prop :=
  ∃ i u, b.msg.user = some i ∧ s.ulist[i]? = some u ∧ u.ipaddr = b.msg.ip

/-- The block the handler holds, and has not linked. -/
def Pc.holds : Pc → Option Nat
  | .entry id => some id
  | .entryAdd id _ => some id
  | .entryFree id => some id
  | .sendLink id => some id
  | .gpFind id => some id
  | .gpFree id => some id
  | .gpDecode id _ => some id
  | .gpGroup id _ _ _ => some id
  | .gpLink id _ _ _ => some id
  | _ => none

/-- The block the handler has linked, and still uses. -/
def Pc.uses : Pc → Option Nat
  | .sendConvert id => some id
  | .sendFind id => some id
  | .sendFree id => some id
  | .sendShow id => some id
  | .sendReply id => some id
  | _ => none

/-- The block that is linked before its user has been looked up. -/
def Pc.fresh : Pc → Option Nat
  | .sendConvert id => some id
  | .sendFind id => some id
  | _ => none

/-- Every message in `mlist` is live, has its group set, and has its user, up to the one
whose user is yet to be looked up; no freed block has been touched; and when the thread is
idle, every block that is not in `mlist` has been freed once. -/
structure Client.OwnedUpToLookup (s : Client) : Prop where
  linked : ∀ id ∈ s.mlist, ∃ b, s.heap[id]? = some b ∧ b.frees = 0 ∧ b.msg.gpid.isSome
    ∧ (id ∉ s.pc.fresh → s.HasUser b)
  clean : s.stale = false
  released : s.pc = .idle → ∀ id b, s.heap[id]? = some b → id ∉ s.mlist → b.frees = 1

/-- Every message in `mlist` is live, has its group set, and has its user; no freed block has
been touched; and when the thread is idle, every block that is not in `mlist` has been freed
once. -/
structure Client.Owned (s : Client) : Prop where
  linked : ∀ id ∈ s.mlist, ∃ b, s.heap[id]? = some b ∧ b.frees = 0 ∧ b.msg.gpid.isSome
    ∧ s.HasUser b
  clean : s.stale = false
  released : s.pc = .idle → ∀ id b, s.heap[id]? = some b → id ∉ s.mlist → b.frees = 1

/-! ### Careful steps -/

section

variable (cfg : Config)

/-- The next step of the handler does not leave its message behind: the sender of a private
message is listed, and a group message has another user name and a known group. -/
def Client.Tidy (s : Client) : Prop :=
  match s.pc with
  | .sendFind id => ∀ b ∈ s.heap[id]?, b.msg.ip ∈ ipaddrs s.ulist
  | .gpFind id => ∀ b ∈ s.heap[id]?, b.msg.username ≠ cfg.username.text
  | .gpGroup _ _ gpid _ => gpid ∈ cfg.glist
  | _ => True

/-- A received message is an entry or a group message, and no step of its handler leaves it
behind. -/
def Client.Careful (s : Client) : ClientEvent → Prop
  | .receive ip port datagram =>
      ∀ msg ∈ (parseMessage ip port (recvBuffer datagram) (recvSize datagram)).toOption,
        isEntryCommand msg.command ∨ msg.command &&& 0xff = CMD_GPMSG
  | .handle _ _ _ => s.Tidy cfg
  | _ => True

/-- As careful, but private messages may be received as well, and the tray icon must not take
the message the handler has linked and still uses. -/
def Client.CarefulPrivate (s : Client) : ClientEvent → Prop
  | .receive ip port datagram =>
      ∀ msg ∈ (parseMessage ip port (recvBuffer datagram) (recvSize datagram)).toOption,
        isEntryCommand msg.command ∨ msg.command &&& 0xff = CMD_SENDMSG
          ∨ msg.command &&& 0xff = CMD_GPMSG
  | .handle _ _ _ => s.Tidy cfg
  | .tray => ∀ id ∈ s.mlist.head?, id ∉ s.pc.uses
  | .windows _ _ => True

instance (s : Client) : Decidable (s.Tidy cfg) :=
  match hpc : s.pc with
  | .sendFind id => decidable_of_iff (∀ b ∈ s.heap[id]?, b.msg.ip ∈ ipaddrs s.ulist)
      (by simp only [Client.Tidy, hpc])
  | .gpFind id => decidable_of_iff (∀ b ∈ s.heap[id]?, b.msg.username ≠ cfg.username.text)
      (by simp only [Client.Tidy, hpc])
  | .gpGroup _ _ gpid _ => decidable_of_iff (gpid ∈ cfg.glist)
      (by simp only [Client.Tidy, hpc])
  | .idle | .entry _ | .entryAdd _ _ | .entryFree _ | .sendLink _ | .sendConvert _
  | .sendFree _ | .sendShow _ | .sendReply _ | .gpFree _ | .gpDecode _ _ | .gpLink _ _ _ _
  | .gpShow => .isTrue (by simp only [Client.Tidy, hpc])

instance (s : Client) (e : ClientEvent) : Decidable (s.Careful cfg e) :=
  match e with
  | .receive ip port datagram => inferInstanceAs (Decidable
      (∀ msg ∈ (parseMessage ip port (recvBuffer datagram) (recvSize datagram)).toOption,
        isEntryCommand msg.command ∨ msg.command &&& 0xff = CMD_GPMSG))
  | .handle _ _ _ => inferInstanceAs (Decidable (s.Tidy cfg))
  | .tray => .isTrue trivial
  | .windows _ _ => .isTrue trivial

instance (s : Client) (e : ClientEvent) : Decidable (s.CarefulPrivate cfg e) :=
  match e with
  | .receive ip port datagram => inferInstanceAs (Decidable
      (∀ msg ∈ (parseMessage ip port (recvBuffer datagram) (recvSize datagram)).toOption,
        isEntryCommand msg.command ∨ msg.command &&& 0xff = CMD_SENDMSG
          ∨ msg.command &&& 0xff = CMD_GPMSG))
  | .handle _ _ _ => inferInstanceAs (Decidable (s.Tidy cfg))
  | .tray => inferInstanceAs (Decidable (∀ id ∈ s.mlist.head?, id ∉ s.pc.uses))
  | .windows _ _ => .isTrue trivial

end

/-! ### The invariant -/

/-- What the handler has found out about its message. -/
def Client.Found (s : Client) : Prop :=
  match s.pc with
  | .sendConvert id => id ∈ s.mlist
  | .sendFind id => id ∈ s.mlist
  | .sendFree _ => False
  | .sendShow id => id ∈ s.mlist
  | .sendReply id => id ∈ s.mlist
  | .gpDecode id user =>
      ∃ b u, s.heap[id]? = some b ∧ s.ulist[user]? = some u ∧ u.ipaddr = b.msg.ip
  | .gpGroup id user _ _ =>
      ∃ b u, s.heap[id]? = some b ∧ s.ulist[user]? = some u ∧ u.ipaddr = b.msg.ip
  | .gpLink id user _ _ =>
      ∃ b u, s.heap[id]? = some b ∧ s.ulist[user]? = some u ∧ u.ipaddr = b.msg.ip
  | _ => True

/-- Every block is linked, held by the handler, or freed once. -/
structure Client.Accounted (s : Client) : Prop where
  nodup : s.mlist.Nodup
  linked : ∀ id ∈ s.mlist, ∃ b, s.heap[id]? = some b ∧ b.frees = 0 ∧ b.msg.gpid.isSome
    ∧ (id ∉ s.pc.fresh → s.HasUser b)
  held : ∀ id ∈ s.pc.holds, id ∉ s.mlist ∧ s.Live id
  released : ∀ id b, s.heap[id]? = some b → id ∉ s.mlist → id ∉ s.pc.holds → b.frees = 1
  found : s.Found
  clean : s.stale = false

theorem Client.Accounted.live {s : Client} (h : s.Accounted) {id : Nat} (hid : id ∈ s.mlist) :
  s.Live id
  := by
  obtain ⟨b, hb, hfrees, -⟩ := h.linked id hid
  use b, hb

theorem Client.Accounted.ownedUpToLookup {s : Client} (h : s.Accounted) :
  s.OwnedUpToLookup
  := by
  use h.linked, h.clean
  intro hidle id b hb hid
  apply h.released id b hb hid
  rw [hidle]
  rintro ⟨⟩

/-! ### What keeps the account -/

section

variable {s : Client}

/-- The list keeps the places and addresses of its users. -/
def Keeps (ulist ulist' : List User) : Prop :=
  ∀ (i : Nat) (u : User), ulist[i]? = some u →
    ∃ u', ulist'[i]? = some u' ∧ u'.ipaddr = u.ipaddr

theorem keeps_refl (ulist : List User) :
  Keeps ulist ulist
  := by
  intro i u hu
  use u

theorem keeps_append (ulist : List User) (user : User) :
  Keeps ulist (ulist ++ [user])
  := by
  intro i u hu
  use u
  rw [List.getElem?_append_left (List.getElem?_eq_some_iff.mp hu).1]
  use hu

theorem keeps_updateUser {ulist ulist' : List User} {user : User}
    (h : updateUser ulist user = some ulist') :
  Keeps ulist ulist'
  := by
  obtain ⟨i, -, rfl⟩ := Option.map_eq_some_iff.mp h
  intro j u hu
  by_cases hj : j = i
  · subst hj
    refine ⟨_, getElem?_modify_self hu, rfl⟩
  · use u
    rw [getElem?_modify_of_ne hj]
    use hu

theorem Client.HasUser.keep {s' : Client} {b : Block} (h : s.HasUser b)
    (hulist : Keeps s.ulist s'.ulist) :
  s'.HasUser b
  := by
  obtain ⟨i, u, hi, hu, hip⟩ := h
  obtain ⟨u', hu', hip'⟩ := hulist i u hu
  use i, u', hi, hu'
  rw [hip', hip]

/-- The handler goes on with the block it holds, or with the linked one it still uses. -/
theorem Client.Accounted.goOn (h : s.Accounted) {ulist : List User} {pc : Pc}
    {held : Option Nat} (hulist : Keeps s.ulist ulist) (hholds : s.pc.holds = held)
    (hfresh : s.pc.fresh = none) (hholds' : pc.holds = held)
    (hfound : Client.Found { s with ulist, pc }) :
  Client.Accounted { s with ulist, pc }
  where
  nodup := h.nodup
  linked := by
    intro id hid
    obtain ⟨b, hb, hfrees, hgpid, huser⟩ := h.linked id hid
    use b, hb, hfrees, hgpid
    intro _
    apply (huser _).keep hulist
    rw [hfresh]
    rintro ⟨⟩
  held := by
    rw [hholds', ← hholds]
    apply h.held
  released := by
    rw [hholds', ← hholds]
    apply h.released
  found := hfound
  clean := h.clean

/-- The handler frees the block it holds. -/
theorem Client.Accounted.release (h : s.Accounted) {id : Nat} (hholds : s.pc.holds = some id)
    (hfresh : s.pc.fresh = none) :
  Client.Accounted { s.free id with pc := .idle }
  := by
  obtain ⟨hnot, hlive⟩ := h.held id hholds
  constructor
  case nodup => apply h.nodup
  case clean => apply h.clean
  case found => trivial
  case held => rintro _ ⟨⟩
  case linked =>
    intro id' hid'
    obtain ⟨b, hb, hfrees, hgpid, huser⟩ := h.linked id' hid'
    have hne : id' ≠ id := by
      rintro rfl
      apply hnot hid'
    use b, (Client.free_of_ne hne).trans hb, hfrees, hgpid
    intro _
    apply (huser _).keep (keeps_refl s.ulist)
    rw [hfresh]
    rintro ⟨⟩
  case released =>
    intro id' b hb hid' _
    by_cases hne : id' = id
    · subst hne
      apply Client.free_of_live hlive hb
    · apply h.released id' b ((Client.free_of_ne hne).symm.trans hb) hid'
      rw [hholds]
      rintro ⟨⟩
      apply hne rfl

/-- The handler sets the fields of the block it holds and links it. -/
theorem Client.Accounted.publish (h : s.Accounted) {id : Nat} {pc : Pc} (f : Msg → Msg)
    (hholds : s.pc.holds = some id) (hholds' : pc.holds = none) (hfresh : s.pc.fresh = none)
    (hset : ∀ b, s.heap[id]? = some b → (f b.msg).gpid.isSome
      ∧ (id ∉ pc.fresh → s.HasUser { b with msg := f b.msg }))
    (hfound : Client.Found { s with
      heap := s.heap.modify id fun b => { b with msg := f b.msg }
      mlist := s.mlist ++ [id]
      pc }) :
  Client.Accounted { (s.update id f).link id with pc }
  := by
  obtain ⟨hnot, hlive⟩ := h.held id hholds
  obtain ⟨b₀, hb₀, hfrees₀⟩ := hlive
  have hself := @getElem?_modify_self Block _ _ _ (fun b => { b with msg := f b.msg }) hb₀
  have hlinked : ∀ id' ∈ s.mlist, Client.Live
      { s with heap := s.heap.modify id fun b => { b with msg := f b.msg } } id' := by
    intro id' hid'
    obtain ⟨b, hb, hfrees⟩ := h.live hid'
    have hne : id' ≠ id := by
      rintro rfl
      apply hnot hid'
    use b, (getElem?_modify_of_ne hne).trans hb
  have hstate : (s.update id f).link id = { s with
      heap := s.heap.modify id fun b => { b with msg := f b.msg }
      mlist := s.mlist ++ [id] } := by
    rw [Client.update_of_live ⟨b₀, hb₀, hfrees₀⟩, Client.link_of_live
      ⟨{ b₀ with msg := f b₀.msg }, hself, hfrees₀⟩ hlinked]
  rw [hstate]
  constructor
  case nodup =>
    apply List.Nodup.append h.nodup (List.nodup_singleton id)
    rintro id' hid' hmem
    rw [List.mem_singleton.mp hmem] at hid'
    apply hnot hid'
  case clean => apply h.clean
  case found => apply hfound
  case held =>
    rw [hholds']
    rintro _ ⟨⟩
  case linked =>
    intro id' hid'
    rcases List.mem_append.mp hid' with hold | hnew
    · obtain ⟨b, hb, hfrees, hgpid, huser⟩ := h.linked id' hold
      have hne : id' ≠ id := by
        rintro rfl
        apply hnot hold
      use b, (getElem?_modify_of_ne hne).trans hb, hfrees, hgpid
      intro _
      apply (huser _).keep (keeps_refl s.ulist)
      rw [hfresh]
      rintro ⟨⟩
    · rw [List.mem_singleton.mp hnew]
      obtain ⟨hgpid, huser⟩ := hset b₀ hb₀
      use { b₀ with msg := f b₀.msg }, hself, hfrees₀, hgpid
      intro hnot
      apply (huser hnot).keep (keeps_refl s.ulist)
  case released =>
    intro id' b hb hid' _
    rw [List.mem_append, List.mem_singleton, not_or] at hid'
    have hsame : s.heap[id']? = some b := by
      rw [← hb]
      exact (getElem?_modify_of_ne hid'.2).symm
    apply h.released id' b hsame hid'.1
    rw [hholds]
    rintro ⟨⟩
    apply hid'.2 rfl

/-- The handler sets fields of the linked block it still uses. -/
theorem Client.Accounted.refine (h : s.Accounted) {id : Nat} {pc : Pc} (f : Msg → Msg)
    (hid : id ∈ s.mlist) (hholds : s.pc.holds = none) (hholds' : pc.holds = none)
    (hfresh : ∀ id' ∈ s.pc.fresh, id' = id)
    (hset : ∀ b, s.heap[id]? = some b → (f b.msg).gpid = b.msg.gpid
      ∧ (id ∉ pc.fresh → s.HasUser { b with msg := f b.msg }))
    (hfound : Client.Found { s with
      heap := s.heap.modify id fun b => { b with msg := f b.msg }
      pc }) :
  Client.Accounted { s.update id f with pc }
  := by
  obtain ⟨b₀, hb₀, hfrees₀, hgpid₀, -⟩ := h.linked id hid
  have hself := @getElem?_modify_self Block _ _ _ (fun b => { b with msg := f b.msg }) hb₀
  rw [Client.update_of_live ⟨b₀, hb₀, hfrees₀⟩]
  constructor
  case nodup => apply h.nodup
  case clean => apply h.clean
  case found => apply hfound
  case held =>
    rw [hholds']
    rintro _ ⟨⟩
  case linked =>
    intro id' hid'
    by_cases hne : id' = id
    · subst hne
      obtain ⟨hgpid, huser⟩ := hset b₀ hb₀
      use { b₀ with msg := f b₀.msg }, hself, hfrees₀
      constructor
      · rw [hgpid]
        apply hgpid₀
      · intro hnot
        apply (huser hnot).keep (keeps_refl s.ulist)
    · obtain ⟨b, hb, hfrees, hgpid, huser⟩ := h.linked id' hid'
      use b, (getElem?_modify_of_ne hne).trans hb, hfrees, hgpid
      intro _
      apply (huser _).keep (keeps_refl s.ulist)
      intro hmem
      apply hne (hfresh id' hmem)
  case released =>
    intro id' b hb hid' _
    have hne : id' ≠ id := by
      rintro rfl
      apply hid' hid
    have hsame : s.heap[id']? = some b := by
      rw [← hb]
      exact (getElem?_modify_of_ne hne).symm
    apply h.released id' b hsame hid'
    rw [hholds]
    rintro ⟨⟩

end

/-! ### The steps of the handlers -/

section

variable {glib : Glib} {cfg : Config} {s s' : Client} {time : UInt64}
  {beyond plain : List UInt8} {o : Option (List UInt8)} {id : Nat}

theorem Client.Accounted.held_live (h : s.Accounted) (hholds : s.pc.holds = some id) :
  s.Live id
  := (h.held id hholds).2

/-- Reading the block the handler holds changes nothing. -/
theorem Client.Accounted.touch_held (h : s.Accounted) (hholds : s.pc.holds = some id) :
  s.touch id = s
  := touch_of_live (h.held_live hholds)

theorem accounted_entry (h : s.Accounted) (hpc : s.pc = .entry id)
    (hstep : s.handle glib cfg time beyond plain = some (o, s')) :
  s'.Accounted
  := by
  have hholds : s.pc.holds = some id := by rw [hpc]; rfl
  have hfresh : s.pc.fresh = none := by rw [hpc]; rfl
  simp only [Client.handle, hpc, h.touch_held hholds] at hstep
  obtain ⟨b, hb, hstep⟩ := Option.bind_eq_some_iff.mp hstep
  split at hstep
  · cases hstep
    exact h.goOn (keeps_refl s.ulist) hholds hfresh rfl trivial
  · split at hstep
    · cases hstep
    · rename_i user huser
      split at hstep
      · rename_i ulist hupdate
        cases hstep
        exact h.goOn (keeps_updateUser hupdate) hholds hfresh rfl trivial
      · cases hstep
        exact h.goOn (keeps_refl s.ulist) hholds hfresh rfl trivial

theorem accounted_entryAdd {user : User} (h : s.Accounted) (hpc : s.pc = .entryAdd id user)
    (hstep : s.handle glib cfg time beyond plain = some (o, s')) :
  s'.Accounted
  := by
  have hholds : s.pc.holds = some id := by rw [hpc]; rfl
  have hfresh : s.pc.fresh = none := by rw [hpc]; rfl
  simp only [Client.handle, hpc, h.touch_held hholds] at hstep
  obtain ⟨b, hb, hstep⟩ := Option.bind_eq_some_iff.mp hstep
  cases hstep
  exact h.goOn (keeps_append s.ulist user) hholds hfresh rfl trivial

/-- The steps that free the block. -/
theorem accounted_free (h : s.Accounted) (hpc : s.pc = .entryFree id ∨ s.pc = .gpFree id)
    (hstep : s.handle glib cfg time beyond plain = some (o, s')) :
  s'.Accounted
  := by
  have hholds : s.pc.holds = some id := by rcases hpc with hpc | hpc <;> (rw [hpc]; rfl)
  have hfresh : s.pc.fresh = none := by rcases hpc with hpc | hpc <;> (rw [hpc]; rfl)
  have hstate : { s.free id with pc := .idle } = s' := by
    rcases hpc with hpc | hpc <;>
      (simp only [Client.handle, hpc] at hstep; cases hstep; rfl)
  rw [← hstate]
  apply h.release hholds hfresh

theorem accounted_sendLink (h : s.Accounted) (hpc : s.pc = .sendLink id)
    (hstep : s.handle glib cfg time beyond plain = some (o, s')) :
  s'.Accounted
  := by
  have hholds : s.pc.holds = some id := by rw [hpc]; rfl
  have hfresh : s.pc.fresh = none := by rw [hpc]; rfl
  simp only [Client.handle, hpc] at hstep
  cases hstep
  apply h.publish (fun m => { m with gpid := some 0 }) hholds rfl hfresh
  · intro b hb
    use rfl
    intro hnot
    apply absurd rfl hnot
  · apply List.mem_append_right _ (List.mem_singleton_self id)

/-- A conversion sets the data only. -/
theorem convertData_spec {msg msg' : Msg} (h : convertData glib beyond msg = .ok msg') :
  msg'.gpid = msg.gpid ∧ msg'.ip = msg.ip ∧ msg'.user = msg.user
  := by
  obtain ⟨⟨data, rest⟩, -, h⟩ := bind_eq_ok.mp h
  simp only at h
  split at h
  · cases h
    exact ⟨rfl, rfl, rfl⟩
  · split at h
    · cases h
    · cases h
      exact ⟨rfl, rfl, rfl⟩

theorem accounted_sendConvert (h : s.Accounted) (hpc : s.pc = .sendConvert id)
    (hstep : s.handle glib cfg time beyond plain = some (o, s')) :
  s'.Accounted
  := by
  have hid := h.found
  simp only [Client.Found, hpc] at hid
  simp only [Client.handle, hpc] at hstep
  obtain ⟨b, hb, hstep⟩ := Option.bind_eq_some_iff.mp hstep
  split at hstep
  · cases hstep
  · rename_i msg hconvert
    cases hstep
    apply h.refine (fun _ => msg) hid (by rw [hpc]; rfl) rfl
    · intro id' hid'
      rw [hpc] at hid'
      cases hid'
      rfl
    · intro b' hb'
      rw [hb] at hb'
      cases hb'
      use (convertData_spec hconvert).1
      intro hnot
      apply absurd rfl hnot
    · apply hid

theorem accounted_sendFind (h : s.Accounted) (hpc : s.pc = .sendFind id) (htidy : s.Tidy cfg)
    (hstep : s.handle glib cfg time beyond plain = some (o, s')) :
  s'.Accounted
  := by
  have hid := h.found
  simp only [Client.Found, hpc] at hid
  simp only [Client.Tidy, hpc] at htidy
  simp only [Client.handle, hpc] at hstep
  obtain ⟨b, hb, hstep⟩ := Option.bind_eq_some_iff.mp hstep
  split at hstep
  · rename_i i hfind
    cases hstep
    apply h.refine (fun m => { m with user := some i }) hid (by rw [hpc]; rfl) rfl
    · intro id' hid'
      rw [hpc] at hid'
      cases hid'
      rfl
    · intro b' hb'
      rw [hb] at hb'
      cases hb'
      use rfl
      intro _
      obtain ⟨u, hu, hip⟩ := findUser_eq_some hfind
      use i, u, rfl, hu
    · apply hid
  · rename_i hfind
    apply absurd (htidy b hb) (findUser_eq_none.mp hfind)

/-- The steps after the lookup read the linked block. -/
theorem accounted_sendShow (h : s.Accounted) (hpc : s.pc = .sendShow id)
    (hstep : s.handle glib cfg time beyond plain = some (o, s')) :
  s'.Accounted
  := by
  have hid := h.found
  simp only [Client.Found, hpc] at hid
  simp only [Client.handle, hpc, Client.touch_of_live (h.live hid)] at hstep
  cases hstep
  exact h.goOn (keeps_refl s.ulist) (by rw [hpc]; rfl) (by rw [hpc]; rfl) rfl hid

theorem accounted_sendReply (h : s.Accounted) (hpc : s.pc = .sendReply id)
    (hstep : s.handle glib cfg time beyond plain = some (o, s')) :
  s'.Accounted
  := by
  have hid := h.found
  simp only [Client.Found, hpc] at hid
  simp only [Client.handle, hpc, Client.touch_of_live (h.live hid)] at hstep
  obtain ⟨b, hb, hstep⟩ := Option.bind_eq_some_iff.mp hstep
  have haccounted : Client.Accounted { s with pc := .idle } :=
    h.goOn (keeps_refl s.ulist) (by rw [hpc]; rfl) (by rw [hpc]; rfl) rfl trivial
  split at hstep
  · cases hstep
    apply haccounted
  · split at hstep
    · cases hstep
    · cases hstep
      apply haccounted

theorem accounted_gpFind (h : s.Accounted) (hpc : s.pc = .gpFind id) (htidy : s.Tidy cfg)
    (hstep : s.handle glib cfg time beyond plain = some (o, s')) :
  s'.Accounted
  := by
  have hholds : s.pc.holds = some id := by rw [hpc]; rfl
  have hfresh : s.pc.fresh = none := by rw [hpc]; rfl
  simp only [Client.Tidy, hpc] at htidy
  simp only [Client.handle, hpc, h.touch_held hholds] at hstep
  obtain ⟨b, hb, hstep⟩ := Option.bind_eq_some_iff.mp hstep
  rw [if_neg (htidy b hb)] at hstep
  split at hstep
  · rename_i i hfind
    cases hstep
    obtain ⟨u, hu, hip⟩ := findUser_eq_some hfind
    exact h.goOn (keeps_refl s.ulist) hholds hfresh rfl ⟨b, u, hb, hu, hip⟩
  · cases hstep
    exact h.goOn (keeps_refl s.ulist) hholds hfresh rfl trivial

theorem accounted_gpDecode {user : Nat} (h : s.Accounted) (hpc : s.pc = .gpDecode id user)
    (hstep : s.handle glib cfg time beyond plain = some (o, s')) :
  s'.Accounted
  := by
  have hholds : s.pc.holds = some id := by rw [hpc]; rfl
  have hfresh : s.pc.fresh = none := by rw [hpc]; rfl
  have hfound := h.found
  simp only [Client.Found, hpc] at hfound
  simp only [Client.handle, hpc, h.touch_held hholds] at hstep
  obtain ⟨b, hb, hstep⟩ := Option.bind_eq_some_iff.mp hstep
  obtain ⟨u, hu, hstep⟩ := Option.bind_eq_some_iff.mp hstep
  split at hstep
  · cases hstep
  · cases hstep
    exact h.goOn (keeps_refl s.ulist) hholds hfresh rfl hfound

theorem accounted_gpGroup {user : Nat} {gpid : UInt32} {pmsg : List UInt8} (h : s.Accounted)
    (hpc : s.pc = .gpGroup id user gpid pmsg) (htidy : s.Tidy cfg)
    (hstep : s.handle glib cfg time beyond plain = some (o, s')) :
  s'.Accounted
  := by
  have hholds : s.pc.holds = some id := by rw [hpc]; rfl
  have hfresh : s.pc.fresh = none := by rw [hpc]; rfl
  have hfound := h.found
  simp only [Client.Found, hpc] at hfound
  simp only [Client.Tidy, hpc] at htidy
  simp only [Client.handle, hpc, if_pos htidy] at hstep
  cases hstep
  exact h.goOn (keeps_refl s.ulist) hholds hfresh rfl hfound

theorem accounted_gpLink {user : Nat} {gpid : UInt32} {pmsg : List UInt8} (h : s.Accounted)
    (hpc : s.pc = .gpLink id user gpid pmsg)
    (hstep : s.handle glib cfg time beyond plain = some (o, s')) :
  s'.Accounted
  := by
  have hholds : s.pc.holds = some id := by rw [hpc]; rfl
  have hfresh : s.pc.fresh = none := by rw [hpc]; rfl
  have hfound := h.found
  simp only [Client.Found, hpc] at hfound
  obtain ⟨b, u, hb, hu, hip⟩ := hfound
  simp only [Client.handle, hpc, hb] at hstep
  change (if _ then _ else _) = _ at hstep
  split at hstep
  · cases hstep
  · cases hstep
    apply h.publish (fun _ => { b.msg.strcpyData pmsg with user := some user, gpid := some gpid })
      hholds rfl hfresh
    · intro b' hb'
      rw [hb] at hb'
      cases hb'
      use rfl
      intro _
      use user, u, rfl, hu
      apply hip
    · trivial

theorem accounted_gpShow (h : s.Accounted) (hpc : s.pc = .gpShow)
    (hstep : s.handle glib cfg time beyond plain = some (o, s')) :
  s'.Accounted
  := by
  simp only [Client.handle, hpc] at hstep
  cases hstep
  exact h.goOn (keeps_refl s.ulist) (by rw [hpc]; rfl) (by rw [hpc]; rfl) rfl trivial

/-- A step of a handler that does not leave its message behind keeps the account. -/
theorem accounted_handle (h : s.Accounted) (htidy : s.Tidy cfg)
    (hstep : s.handle glib cfg time beyond plain = some (o, s')) :
  s'.Accounted
  := by
  have hfound := h.found
  cases hpc : s.pc with
  | idle =>
    simp only [Client.handle, hpc] at hstep
    cases hstep
  | entry id => apply accounted_entry h hpc hstep
  | entryAdd id user => apply accounted_entryAdd h hpc hstep
  | entryFree id => apply accounted_free h (Or.inl hpc) hstep
  | sendLink id => apply accounted_sendLink h hpc hstep
  | sendConvert id => apply accounted_sendConvert h hpc hstep
  | sendFind id => apply accounted_sendFind h hpc htidy hstep
  | sendFree id =>
    simp only [Client.Found, hpc] at hfound
  | sendShow id => apply accounted_sendShow h hpc hstep
  | sendReply id => apply accounted_sendReply h hpc hstep
  | gpFind id => apply accounted_gpFind h hpc htidy hstep
  | gpFree id => apply accounted_free h (Or.inr hpc) hstep
  | gpDecode id user => apply accounted_gpDecode h hpc hstep
  | gpGroup id user gpid pmsg => apply accounted_gpGroup h hpc htidy hstep
  | gpLink id user gpid pmsg => apply accounted_gpLink h hpc hstep
  | gpShow => apply accounted_gpShow h hpc hstep

/-! ### The other steps -/

/-- No chatbox of a user is open for a private message, or of a group for one of a group. -/
def Client.NoneOpen (s : Client) (msg : Msg) : Prop :=
  if msg.gpid.getD 0 = 0 then s.pchatbox = [] else s.gchatbox = []

instance (s : Client) (msg : Msg) : Decidable (s.NoneOpen msg) :=
  inferInstanceAs (Decidable (if msg.gpid.getD 0 = 0 then _ else _))

theorem handlerOf_cases {cmd : Nat}
    (h : isEntryCommand cmd ∨ cmd &&& 0xff = CMD_SENDMSG ∨ cmd &&& 0xff = CMD_GPMSG) :
  handlerOf cmd id = .entry id ∨ handlerOf cmd id = .sendLink id
    ∨ handlerOf cmd id = .gpFind id
  := by
  rw [handlerOf]
  split
  · left
    rfl
  · rename_i hentry
    split
    · right
      left
      rfl
    · rename_i hsend
      rw [if_pos ((h.resolve_left hentry).resolve_left hsend)]
      right
      right
      rfl

/-- A received message with a handler is held by it. -/
theorem accounted_receive {ip : List UInt8} {port : UInt16} {datagram : List UInt8}
    (h : s.Accounted) (hcond : s.CarefulPrivate cfg (.receive ip port datagram))
    (hstep : s.receive ip port datagram = some s') :
  s'.Accounted
  := by
  rw [Client.receive] at hstep
  split at hstep
  case isFalse => cases hstep
  rename_i hidle
  split at hstep
  case h_1 => cases hstep
  rename_i msg hparse
  cases hstep
  have hhandler := @handlerOf_cases s.heap.length msg.command (hcond msg (by rw [hparse]; rfl))
  have hholds : (handlerOf msg.command s.heap.length).holds = some s.heap.length := by
    rcases hhandler with hpc | hpc | hpc <;> (rw [hpc]; rfl)
  have hold : ∀ (id : Nat) (b : Block), s.heap[id]? = some b →
      (s.heap ++ [⟨msg, 0⟩])[id]? = some b := by
    intro id b hb
    rw [List.getElem?_append_left (List.getElem?_eq_some_iff.mp hb).1, hb]
  constructor
  case nodup => apply h.nodup
  case clean => apply h.clean
  case found =>
    rcases hhandler with hpc | hpc | hpc <;> simp only [Client.Found, hpc]
  case linked =>
    intro id hid
    obtain ⟨b, hb, hfrees, hgpid, huser⟩ := h.linked id hid
    use b, hold id b hb, hfrees, hgpid
    intro _
    apply (huser _).keep (keeps_refl s.ulist)
    rw [hidle]
    rintro ⟨⟩
  case held =>
    intro id hid
    rw [hholds] at hid
    cases hid
    constructor
    · intro hmem
      obtain ⟨b, hb, -⟩ := h.linked _ hmem
      apply Nat.lt_irrefl _ (List.getElem?_eq_some_iff.mp hb).1
    · use ⟨msg, 0⟩, List.getElem?_concat_length
  case released =>
    intro id b hb hid hnot
    rw [hholds] at hnot
    have hlt : id < s.heap.length := by
      have := (List.getElem?_eq_some_iff.mp hb).1
      simp only [List.length_append, List.length_singleton] at this
      have hne : id ≠ s.heap.length := by
        rintro rfl
        apply hnot rfl
      omega
    simp only at hb
    rw [List.getElem?_append_left hlt] at hb
    apply h.released id b hb hid
    rw [hidle]
    rintro ⟨⟩

theorem accounted_windows (h : s.Accounted) (pchatbox : List Nat) (gchatbox : List UInt32) :
  Client.Accounted { s with pchatbox, gchatbox }
  := ⟨h.nodup, h.linked, h.held, h.released, h.found, h.clean⟩

/-- What the handler has found out stays so when another block is taken from the list. -/
theorem Client.Found.pop {rest : List Nat} (hfound : s.Found)
    (hkept : ∀ id' ∈ s.pc.uses, id' ∈ s.mlist → id' ∈ rest)
    (hblock : ∀ id' ∈ s.pc.holds, (s.free id).heap[id']? = s.heap[id']?) :
  Client.Found { s.free id with mlist := rest }
  := by
  cases hpc : s.pc with
  | sendConvert id' | sendFind id' | sendShow id' | sendReply id' =>
    rw [hpc] at hkept
    simp only [Client.Found, Client.free, hpc] at hfound ⊢
    apply hkept id' rfl hfound
  | sendFree id' =>
    simp only [Client.Found, hpc] at hfound
  | gpDecode id' _ | gpGroup id' _ _ _ | gpLink id' _ _ _ =>
    rw [hpc] at hblock
    simp only [Client.Found, Client.free, hpc] at hfound ⊢
    obtain ⟨b, u, hb, hu, hip⟩ := hfound
    use b, u, (hblock id' rfl).trans hb
  | _ => simp only [Client.Found, Client.free, hpc]

/-- Taking the first unread message, one the handler does not use, and freeing it. -/
theorem accounted_pop {rest : List Nat} (h : s.Accounted) (hmlist : s.mlist = id :: rest)
    (huses : id ∉ s.pc.uses) :
  Client.Accounted { s.free id with mlist := rest }
  := by
  have hnodup := h.nodup
  rw [hmlist, List.nodup_cons] at hnodup
  have hid : id ∈ s.mlist := by
    rw [hmlist]
    apply List.mem_cons_self
  have hrest : ∀ id' ∈ rest, id' ∈ s.mlist := by
    intro id' hid'
    rw [hmlist]
    apply List.mem_cons_of_mem id hid'
  have hheld : ∀ id' ∈ s.pc.holds, (s.free id).heap[id']? = s.heap[id']? := by
    intro id' hid'
    apply Client.free_of_ne
    rintro rfl
    apply (h.held id' hid').1 hid
  constructor
  case nodup => apply hnodup.2
  case clean => apply h.clean
  case linked =>
    intro id' hid'
    obtain ⟨b, hb, hfrees, hgpid, huser⟩ := h.linked id' (hrest id' hid')
    have hne : id' ≠ id := by
      rintro rfl
      apply hnodup.1 hid'
    use b, (Client.free_of_ne hne).trans hb, hfrees, hgpid
    intro hnot
    apply (huser hnot).keep (keeps_refl s.ulist)
  case held =>
    intro id' hid'
    obtain ⟨hnot, b, hb, hfrees⟩ := h.held id' hid'
    constructor
    · intro hmem
      apply hnot (hrest id' hmem)
    · use b, (hheld id' hid').trans hb
  case released =>
    intro id' b hb hid' hnot
    by_cases hne : id' = id
    · subst hne
      apply Client.free_of_live (h.live hid) hb
    · apply h.released id' b ((Client.free_of_ne hne).symm.trans hb) _ hnot
      rw [hmlist, List.mem_cons, not_or]
      use hne
  case found =>
    apply h.found.pop _ hheld
    intro id' hid' hmem
    rw [hmlist, List.mem_cons] at hmem
    apply hmem.resolve_left
    rintro rfl
    apply huses hid'

/-- Taking a block from the list may touch a freed one, and changes nothing else. -/
theorem Client.touched_eq (s : Client) (id : Nat) (rest : List Nat) :
  ∃ stale, rest.head?.elim (s.touch id) (s.touch id).touch = { s with stale }
  := by
  cases rest.head? with
  | none => exact ⟨_, rfl⟩
  | some next => exact ⟨_, rfl⟩

/-- The tray icon takes the first message and frees it, and opens a chatbox while none of its
kind is open. -/
theorem Client.tray_cases (hstep : s.tray cfg = some s') :
  (s.mlist = [] ∧ s' = s) ∨ ∃ id rest b, s.mlist = id :: rest ∧ s.heap[id]? = some b
    ∧ (∃ pchatbox gchatbox, s' = { (rest.head?.elim (s.touch id) (s.touch id).touch).free id with
        mlist := rest, pchatbox, gchatbox })
    ∧ ((s.NoneOpen b.msg ∧ b.msg.gpid.getD 0 = 0 ∧ ∃ user, b.msg.user = some user
        ∧ s'.pchatbox = s.pchatbox ++ [user] ∧ s'.gchatbox = s.gchatbox)
      ∨ (s.NoneOpen b.msg ∧ b.msg.gpid.getD 0 ≠ 0 ∧ ∃ group,
        (cfg.glist.find? fun g => g = b.msg.gpid.getD 0).or cfg.glist.getLast? = some group
        ∧ s'.pchatbox = s.pchatbox ∧ s'.gchatbox = s.gchatbox ++ [group])
      ∨ (¬ s.NoneOpen b.msg ∧ s'.pchatbox = s.pchatbox ∧ s'.gchatbox = s.gchatbox))
  := by
  rw [Client.tray] at hstep
  split at hstep
  · rename_i hmlist
    cases hstep
    left
    use hmlist
  · rename_i id rest hmlist
    right
    obtain ⟨b, hb, hstep⟩ := Option.bind_eq_some_iff.mp hstep
    obtain ⟨stale, htouch⟩ := s.touched_eq id rest
    simp only [htouch] at hstep
    use id, rest, b, hmlist, hb
    simp only [NoneOpen, htouch]
    split at hstep
    · rename_i hzero
      split at hstep
      · rename_i hnone
        obtain ⟨user, huser, hstep⟩ := Option.bind_eq_some_iff.mp hstep
        obtain ⟨u, -, hstep⟩ := Option.bind_eq_some_iff.mp hstep
        cases hstep
        use ⟨_, _, rfl⟩
        left
        rw [if_pos hzero]
        exact ⟨hnone, hzero, user, huser, rfl, rfl⟩
      · rename_i hopen
        cases hstep
        use ⟨_, _, rfl⟩
        right
        right
        rw [if_pos hzero]
        exact ⟨hopen, rfl, rfl⟩
    · rename_i hzero
      split at hstep
      · rename_i hnone
        obtain ⟨user, -, hstep⟩ := Option.bind_eq_some_iff.mp hstep
        obtain ⟨u, -, hstep⟩ := Option.bind_eq_some_iff.mp hstep
        obtain ⟨group, hgroup, hstep⟩ := Option.bind_eq_some_iff.mp hstep
        cases hstep
        use ⟨_, _, rfl⟩
        right
        left
        rw [if_neg hzero]
        exact ⟨hnone, hzero, group, hgroup, rfl, rfl⟩
      · rename_i hopen
        cases hstep
        use ⟨_, _, rfl⟩
        right
        right
        rw [if_neg hzero]
        exact ⟨hopen, rfl, rfl⟩

/-- The tray icon takes the first unread message and frees it. -/
theorem tray_spec (hstep : s.tray cfg = some s') :
  s' = s ∨ ∃ id rest pchatbox gchatbox, s.mlist = id :: rest
    ∧ s' = { (rest.head?.elim (s.touch id) (s.touch id).touch).free id with
      mlist := rest, pchatbox, gchatbox }
  := by
  obtain ⟨-, rfl⟩ | ⟨id, rest, b, hmlist, -, ⟨pchatbox, gchatbox, hs'⟩, -⟩ :=
    Client.tray_cases hstep
  · left
    rfl
  · right
    use id, rest, pchatbox, gchatbox

theorem accounted_tray (h : s.Accounted) (huses : ∀ id ∈ s.mlist.head?, id ∉ s.pc.uses)
    (hstep : s.tray cfg = some s') :
  s'.Accounted
  := by
  rcases tray_spec hstep with rfl | ⟨id, rest, pchatbox, gchatbox, hmlist, rfl⟩
  · apply h
  · have hlive : ∀ id' ∈ id :: rest, s.Live id' := by
      intro id' hid'
      rw [← hmlist] at hid'
      apply h.live hid'
    have hnext : rest.head?.elim s s.touch = s := by
      cases hhead : rest.head? with
      | none => rfl
      | some next =>
        apply Client.touch_of_live
        apply hlive next (List.mem_cons_of_mem id (List.mem_of_head? hhead))
    rw [Client.touch_of_live (hlive id List.mem_cons_self), hnext]
    exact accounted_windows (accounted_pop h hmlist (huses id (by rw [hmlist]; rfl))) _ _

/-- A careful step keeps the account. -/
theorem accounted_step {e : ClientEvent} (h : s.Accounted) (hcond : s.CarefulPrivate cfg e)
    (hstep : (clientMachine glib cfg).step s e = some (o, s')) :
  s'.Accounted
  := by
  cases e with
  | receive ip port datagram =>
    obtain ⟨s₁, hs₁, heq⟩ := Option.map_eq_some_iff.mp hstep
    cases heq
    apply accounted_receive h hcond hs₁
  | handle time beyond plain => apply accounted_handle h hcond hstep
  | tray =>
    obtain ⟨s₁, hs₁, heq⟩ := Option.map_eq_some_iff.mp hstep
    cases heq
    apply accounted_tray h hcond hs₁
  | windows pchatbox gchatbox =>
    cases hstep
    apply accounted_windows h

end

/-! ### Runs without private messages -/

/-- The handler is not that of a private message. -/
def Pc.Public (pc : Pc) : Prop :=
  match pc with
  | .sendLink _ => False
  | .sendConvert _ => False
  | .sendFind _ => False
  | .sendFree _ => False
  | .sendShow _ => False
  | .sendReply _ => False
  | _ => True

section

variable {glib : Glib} {cfg : Config} {s s' : Client} {o : Option (List UInt8)}

theorem Pc.Public.uses_eq_none {pc : Pc} (h : pc.Public) :
  pc.uses = none
  := by
  cases pc <;> first | rfl | cases h

theorem Pc.Public.fresh_eq_none {pc : Pc} (h : pc.Public) :
  pc.fresh = none
  := by
  cases pc <;> first | rfl | cases h

/-- Without private messages a careful step is careful about them. -/
theorem carefulPrivate_of_careful {e : ClientEvent} (hpublic : s.pc.Public)
    (hcond : s.Careful cfg e) :
  s.CarefulPrivate cfg e
  := by
  cases e with
  | receive ip port datagram =>
    intro msg hparse
    rcases hcond msg hparse with h | h
    · left
      apply h
    · right
      right
      apply h
  | handle time beyond plain => apply hcond
  | tray =>
    intro id _
    rw [hpublic.uses_eq_none]
    rintro ⟨⟩
  | windows pchatbox gchatbox => trivial

theorem public_handle {time : UInt64} {beyond plain : List UInt8} (h : s.pc.Public)
    (hstep : s.handle glib cfg time beyond plain = some (o, s')) :
  s'.pc.Public
  := by
  cases hpc : s.pc with
  | sendLink id | sendConvert id | sendFind id | sendFree id | sendShow id | sendReply id =>
    rw [hpc] at h
    cases h
  | idle =>
    simp only [Client.handle, hpc] at hstep
    cases hstep
  | entryFree id | gpFree id | gpShow =>
    simp only [Client.handle, hpc] at hstep
    cases hstep
    trivial
  | gpGroup id user gpid pmsg =>
    simp only [Client.handle, hpc] at hstep
    split at hstep <;> (cases hstep; trivial)
  | entry id | gpFind id =>
    simp only [Client.handle, hpc] at hstep
    obtain ⟨b, -, hstep⟩ := Option.bind_eq_some_iff.mp hstep
    repeat' split at hstep
    all_goals cases hstep <;> trivial
  | entryAdd id user =>
    simp only [Client.handle, hpc] at hstep
    obtain ⟨b, -, hstep⟩ := Option.bind_eq_some_iff.mp hstep
    cases hstep
    trivial
  | gpDecode id user =>
    simp only [Client.handle, hpc] at hstep
    obtain ⟨b, -, hstep⟩ := Option.bind_eq_some_iff.mp hstep
    obtain ⟨u, -, hstep⟩ := Option.bind_eq_some_iff.mp hstep
    split at hstep
    · cases hstep
    · cases hstep
      trivial
  | gpLink id user gpid pmsg =>
    simp only [Client.handle, hpc] at hstep
    obtain ⟨b, -, hstep⟩ := Option.bind_eq_some_iff.mp hstep
    split at hstep
    · cases hstep
    · cases hstep
      trivial

theorem tray_pc (hstep : s.tray cfg = some s') :
  s'.pc = s.pc
  := by
  rcases tray_spec hstep with rfl | ⟨id, rest, pchatbox, gchatbox, -, rfl⟩
  · rfl
  · cases rest.head? <;> rfl

/-- A careful step receives no private message. -/
theorem public_step {e : ClientEvent} (h : s.pc.Public) (hcond : s.Careful cfg e)
    (hstep : (clientMachine glib cfg).step s e = some (o, s')) :
  s'.pc.Public
  := by
  cases e with
  | receive ip port datagram =>
    obtain ⟨s₁, hs₁, heq⟩ := Option.map_eq_some_iff.mp hstep
    cases heq
    rw [Client.receive] at hs₁
    split at hs₁
    case isFalse => cases hs₁
    split at hs₁
    case h_1 => cases hs₁
    rename_i msg hparse
    cases hs₁
    simp only [handlerOf]
    split
    · trivial
    · rename_i hentry
      have hgp := (hcond msg (by rw [hparse]; rfl)).resolve_left hentry
      rw [if_neg (by rw [hgp]; decide), if_pos hgp]
      trivial
  | handle time beyond plain => apply public_handle h hstep
  | tray =>
    obtain ⟨s₁, hs₁, heq⟩ := Option.map_eq_some_iff.mp hstep
    cases heq
    rw [tray_pc hs₁]
    apply h
  | windows pchatbox gchatbox =>
    cases hstep
    apply h

end

end Peer

end IFreeChat
