import IFreeChat.Peer.UserBlock
import IFreeChat.Peer.Settled

/-!
# A peer and the blocks of its users

The users of `ulist` are packed blocks: an entry of a listed user is copied over the strings of
its block, and those that are too long run over the ones behind them, so that the address may
read differently after it.  It stays exactly as long as the last string that runs over it goes on
there as the address (`UserBlock.update_address`).  All strings can be read after it, whether it
spares the address or not (`PackedClient.Good.reads`).

A peer with these blocks does what one with the strings does, but for the steps of
`on_buddy_entry` (`packed_step`); while these keep the addresses, every message is owned along a
careful run (`run_owned`).
-/

open Basis

namespace IFreeChat

namespace Peer

/-! ### The address in a block -/

/-- The last of the strings copied over the address of the block, if any, goes on there as the
address of the user. -/
def UserBlock.SparesAddress (b : UserBlock) (user : User) : Prop :=
  ∀ copy ∈ (runsOver b.ipaddr (b.copies user)).getLast?,
    copy.2.drop (b.ipaddr - copy.1) = user.ipaddr

instance (b : UserBlock) (user : User) : Decidable (b.SparesAddress user) :=
  inferInstanceAs (Decidable (∀ copy ∈ (runsOver b.ipaddr (b.copies user)).getLast?,
    copy.2.drop (b.ipaddr - copy.1) = user.ipaddr))

/-- The slots of the block follow one another, and the address ends in its own. -/
structure UserBlock.Shaped (b : UserBlock) : Prop where
  ordered : b.Ordered
  ipaddr : ∀ ip, stringAt b.bytes b.ipaddr = .ok ip → b.ipaddr + ip.length < b.macaddr

/-- An update that spares the address keeps it. -/
theorem UserBlock.update_address {b b' : UserBlock} {user : User} (h : b.Shaped)
    (hip : stringAt b.bytes b.ipaddr = .ok user.ipaddr) (hspares : b.SparesAddress user)
    (hupdate : b.update user = .ok b') :
  b'.Shaped ∧ stringAt b'.bytes b'.ipaddr = .ok user.ipaddr
  := by
  obtain ⟨⟨h₁, h₂, h₃, h₄, h₅, h₆, h₇, h₈, h₉, h₁₀⟩, hends⟩ := h
  have hslot := hends user.ipaddr hip
  rw [update_eq] at hupdate
  obtain ⟨bytes', hcopies, heq⟩ := bind_eq_ok.mp hupdate
  cases heq
  obtain ⟨hstring, hnul⟩ := stringAt_eq_ok_iff.mp hip
  have houtside : ∀ copy ∈ b.copies user,
      copy.1 ≤ b.ipaddr ∨ b.ipaddr + user.ipaddr.length < copy.1 := by
    simp only [copies, List.forall_mem_cons]
    refine ⟨?_, ?_, ?_, ?_, ?_, ?_, by simp⟩ <;> omega
  have hip' : stringAt bytes' b.ipaddr = .ok user.ipaddr := by
    rw [stringAt_eq_ok_iff]
    use hasString_strcpyAll hstring houtside hspares hcopies
  refine ⟨⟨⟨h₁, h₂, h₃, h₄, h₅, h₆, h₇, h₈, h₉, ?_⟩, ?_⟩, hip'⟩
  · change b.encoding ≤ bytes'.length
    rwa [strcpyAll_length hcopies]
  · intro ip hread
    rw [hip'] at hread
    cases hread
    apply hslot

/-- A string that is read ends no later than one that is there. -/
theorem length_le_of_hasString {bytes s t : List UInt8} {a : Nat} (h : HasString bytes a t)
    (hread : stringAt bytes a = .ok s) :
  s.length ≤ t.length
  := by
  obtain ⟨hs, hnul⟩ := stringAt_eq_ok_iff.mp hread
  by_contra hlt
  have hzero : s[t.length]? = some 0 := by
    calc s[t.length]? = (s ++ [0])[t.length]? := (List.getElem?_append_left (by omega)).symm
      _ = bytes[a + t.length]? := (hasString_iff.mp hs t.length (by omega)).symm
      _ = (t ++ [0])[t.length]? := hasString_iff.mp h t.length (by omega)
      _ = some 0 := by simp
  apply hnul (List.mem_of_getElem? hzero)

/-- The block of a new user has its strings, in slots of their sizes. -/
theorem newUser_spec {junk : Nat → UInt8} {user : User} {b : UserBlock}
    (h : newUser junk user = .ok b) :
  ∃ bytes, b = { emptyBlock junk user with bytes } ∧ b.Ordered
    ∧ ∀ p ∈ b.strings user, HasString b.bytes p.1 p.2
  := by
  have hordered := emptyBlock_ordered junk user
  obtain ⟨hlength, hpicture⟩ := hordered.overlay_strings (emptyBlock_tiled junk user)
  obtain ⟨bytes', hall, hlength', hholds⟩ := strcpyAll_hasString hpicture hlength.symm
  rw [newUser_eq, hall] at h
  cases h
  obtain ⟨h₁, h₂, h₃, h₄, h₅, h₆, h₇, h₈, h₉, h₁₀⟩ := hordered
  refine ⟨bytes', rfl, ⟨h₁, h₂, h₃, h₄, h₅, h₆, h₇, h₈, h₉, ?_⟩, ?_⟩
  · change _ ≤ bytes'.length
    rwa [hlength']
  · intro p hp
    apply hholds p.1 p.2 (hpicture p hp) (Or.inr hp)

/-- In the block of a new user the address ends in its slot. -/
theorem newUser_shaped {junk : Nat → UInt8} {user : User} {b : UserBlock}
    (h : newUser junk user = .ok b) :
  b.Shaped
  := by
  obtain ⟨bytes, rfl, hordered, hstrings⟩ := newUser_spec h
  use hordered
  intro ip hread
  have hle := length_le_of_hasString
    (hstrings (_, user.ipaddr) (by simp [UserBlock.strings])) hread
  simp only [emptyBlock] at hle ⊢
  omega

/-- The strings of a block can be read where it has a terminator after the last of them. -/
theorem UserBlock.Ordered.read_of_zero {b : UserBlock} (h : b.Ordered) {z : Nat}
    (hz : b.bytes[z]? = some 0) (hlast : b.encoding ≤ z) :
  ∃ u, b.read = .ok u
  := by
  obtain ⟨-, h₂, h₃, h₄, h₅, h₆, h₇, h₈, h₉, -⟩ := h
  obtain ⟨nickname, hnickname⟩ := stringAt_of_zero (a := b.nickname) hz (by omega)
  obtain ⟨username, husername⟩ := stringAt_of_zero (a := b.username) hz (by omega)
  obtain ⟨hostname, hhostname⟩ := stringAt_of_zero (a := b.hostname) hz (by omega)
  obtain ⟨avatar, havatar⟩ := stringAt_of_zero (a := b.avatar) hz (by omega)
  obtain ⟨ipaddr, hipaddr⟩ := stringAt_of_zero (a := b.ipaddr) hz (by omega)
  obtain ⟨macaddr, hmacaddr⟩ := stringAt_of_zero (a := b.macaddr) hz (by omega)
  obtain ⟨signature, hsignature⟩ := stringAt_of_zero (a := b.signature) hz (by omega)
  obtain ⟨category, hcategory⟩ := stringAt_of_zero (a := b.category) hz (by omega)
  obtain ⟨encoding, hencoding⟩ := stringAt_of_zero (a := b.encoding) hz hlast
  use ⟨nickname, username, hostname, avatar, ipaddr, macaddr, signature, category, encoding⟩
  rw [read, hnickname, husername, hhostname, havatar, hipaddr, hmacaddr, hsignature, hcategory,
    hencoding]
  rfl

theorem newUser_reads {junk : Nat → UInt8} {user : User} {b : UserBlock}
    (h : newUser junk user = .ok b) :
  ∃ u, b.read = .ok u
  := by
  obtain ⟨bytes, -, hordered, hstrings⟩ := newUser_spec h
  have hencoding := hstrings (b.encoding, user.encoding) (by simp [UserBlock.strings])
  have hzero := hasString_iff.mp hencoding user.encoding.length (Nat.lt_succ_self _)
  rw [List.getElem?_concat_length] at hzero
  apply hordered.read_of_zero hzero (Nat.le_add_right _ _)

/-- The strings of a block can be read after an update. -/
theorem UserBlock.update_reads {b b' : UserBlock} {u user : User} (h : b.Shaped)
    (hread : b.read = .ok u) (hupdate : b.update user = .ok b') :
  ∃ u', b'.read = .ok u'
  := by
  obtain ⟨⟨h₁, h₂, h₃, h₄, h₅, h₆, h₇, h₈, h₉, h₁₀⟩, -⟩ := h
  have hencoding := (read_eq_ok_iff.mp hread).1 (b.encoding, u.encoding) (by simp [strings])
  have hzero := hasString_iff.mp hencoding u.encoding.length (Nat.lt_succ_self _)
  rw [List.getElem?_concat_length] at hzero
  rw [update_eq] at hupdate
  obtain ⟨bytes', hcopies, heq⟩ := bind_eq_ok.mp hupdate
  cases heq
  obtain ⟨z, hle, hz⟩ := strcpyAll_zero hzero hcopies
  have hordered : UserBlock.Ordered { b with bytes := bytes' } := by
    refine ⟨h₁, h₂, h₃, h₄, h₅, h₆, h₇, h₈, h₉, ?_⟩
    change b.encoding ≤ bytes'.length
    rwa [strcpyAll_length hcopies]
  apply hordered.read_of_zero hz
  exact Nat.le_trans (Nat.le_add_right _ _) hle

/-! ### The list -/

/-- The strings of the users in a list of blocks. -/
def Blocks.read : List UserBlock → Except Fault (List User)
  | [] => .ok []
  | b :: blocks => do
      let user ← b.read
      let ulist ← read blocks
      .ok (user :: ulist)

theorem Blocks.read_getElem? {blocks : List UserBlock} {ulist : List User}
    (h : read blocks = .ok ulist) {i : Nat} {u : User} (hu : ulist[i]? = some u) :
  ∃ b, blocks[i]? = some b ∧ b.read = .ok u
  := by
  induction blocks generalizing ulist i with
  | nil =>
    cases h
    cases hu
  | cons b blocks ih =>
    obtain ⟨user, huser, h⟩ := bind_eq_ok.mp h
    obtain ⟨users, husers, heq⟩ := bind_eq_ok.mp h
    cases heq
    cases i with
    | zero =>
      cases hu
      use b, rfl
    | succ i => apply ih husers hu

theorem Blocks.read_length {blocks : List UserBlock} {ulist : List User}
    (h : read blocks = .ok ulist) :
  ulist.length = blocks.length
  := by
  induction blocks generalizing ulist with
  | nil =>
    cases h
    rfl
  | cons b blocks ih =>
    obtain ⟨user, huser, h⟩ := bind_eq_ok.mp h
    obtain ⟨users, husers, heq⟩ := bind_eq_ok.mp h
    cases heq
    rw [List.length_cons, ih husers, List.length_cons]

/-- The strings can be read where those of every block can be. -/
theorem Blocks.read_isOk_iff {blocks : List UserBlock} :
  (∃ ulist, read blocks = .ok ulist) ↔ ∀ b ∈ blocks, ∃ u, b.read = .ok u
  := by
  induction blocks with
  | nil => simp [read]
  | cons b blocks ih =>
    rw [List.forall_mem_cons, ← ih]
    constructor
    · rintro ⟨ulist, h⟩
      obtain ⟨u, hu, h⟩ := bind_eq_ok.mp h
      obtain ⟨users, husers, -⟩ := bind_eq_ok.mp h
      exact ⟨⟨u, hu⟩, users, husers⟩
    · rintro ⟨⟨u, hu⟩, users, husers⟩
      use u :: users
      rw [read, hu, husers]
      rfl

/-- The address of a user is read from its block. -/
theorem UserBlock.read_ipaddr {b : UserBlock} {u : User} (h : b.read = .ok u) :
  stringAt b.bytes b.ipaddr = .ok u.ipaddr
  := by
  obtain ⟨hstrings, hnul⟩ := read_eq_ok_iff.mp h
  rw [stringAt_eq_ok_iff]
  use hstrings (b.ipaddr, u.ipaddr) (by simp [strings])
  apply hnul.ipaddr

/-- Users whose blocks keep their addresses keep them. -/
theorem keeps_of_read {blocks blocks' : List UserBlock} {ulist ulist' : List User}
    (h : Blocks.read blocks = .ok ulist) (h' : Blocks.read blocks' = .ok ulist')
    (hkept : ∀ (i : Nat) (b : UserBlock) (ip : List UInt8), blocks[i]? = some b →
      stringAt b.bytes b.ipaddr = .ok ip →
      ∃ b', blocks'[i]? = some b' ∧ stringAt b'.bytes b'.ipaddr = .ok ip) :
  Keeps ulist ulist'
  := by
  intro i u hu
  obtain ⟨b, hb, hread⟩ := Blocks.read_getElem? h hu
  obtain ⟨b', hb', hip⟩ := hkept i b u.ipaddr hb (UserBlock.read_ipaddr hread)
  have hlt : i < ulist'.length := by
    rw [Blocks.read_length h']
    apply (List.getElem?_eq_some_iff.mp hb').1
  obtain ⟨b'', hb'', hread'⟩ := Blocks.read_getElem? h' (List.getElem?_eq_getElem hlt)
  rw [hb'] at hb''
  cases hb''
  use ulist'[i], List.getElem?_eq_getElem hlt
  have hip' := UserBlock.read_ipaddr hread'
  rw [hip, Except.ok.injEq] at hip'
  exact hip'.symm

/-- A user that is found has the address. -/
theorem Blocks.findUser_spec {ip : List UInt8} {blocks : List UserBlock} {i : Nat}
    (h : findUser ip blocks = .ok (some i)) {b : UserBlock} (hb : blocks[i]? = some b) :
  stringAt b.bytes b.ipaddr = .ok ip
  := by
  induction blocks generalizing i with
  | nil => cases hb
  | cons b₀ blocks ih =>
    obtain ⟨ipaddr, hread, h⟩ := bind_eq_ok.mp h
    split at h
    · rename_i heq
      cases h
      cases hb
      rw [hread, heq]
    · obtain ⟨found, hfound, heq⟩ := bind_eq_ok.mp h
      cases found with
      | none => cases heq
      | some j =>
        cases heq
        apply ih hfound hb

/-! ### The peer -/

/-- A peer whose users are in `blocks`; its `ulist` has the strings that are read from them. -/
structure PackedClient where
  client : Client
  blocks : List UserBlock

/-- A peer that has just started. -/
def PackedClient.start : PackedClient where
  client := Client.start
  blocks := []

/-- The peer goes on with these blocks. -/
def Client.withBlocks (s : Client) (blocks : List UserBlock) : Option PackedClient := do
  let ulist ← (Blocks.read blocks).toOption
  some { client := { s with ulist }, blocks }

variable (glib : Glib) (cfg : Config)

/-- The next step of the handler that runs, with the block `new_user` gets. -/
def PackedClient.handle (s : PackedClient) (time : UInt64) (beyond plain : List UInt8)
    (junk : Nat → UInt8) : Option (Option (List UInt8) × PackedClient) :=
  match s.client.pc with
  | .entry id => do
      let b ← s.client.heap[id]?
      let client := s.client.touch id
      if (ascii "1_iptux").isPrefixOf b.msg.version then
        some (none, { s with client := { client with pc := .entryFree id } })
      else do
        let user ← (entryUser glib beyond b.msg).toOption
        match ← (Blocks.findUser b.msg.ip s.blocks).toOption with
        | some i =>
            let block ← s.blocks[i]?
            let block ← (block.update user).toOption
            let s' ← { client with pc := .entryFree id }.withBlocks (s.blocks.set i block)
            some (none, s')
        | none => some (none, { s with client := { client with pc := .entryAdd id user } })
  | .entryAdd id user => do
      let b ← s.client.heap[id]?
      let block ← (newUser junk user).toOption
      let s' ← { s.client.touch id with pc := .entryFree id }.withBlocks (s.blocks ++ [block])
      some (entryReply cfg time b.msg, s')
  | _ => (s.client.handle glib cfg time beyond plain).map fun r => (r.1, { s with client := r.2 })

/-- A peer as a machine that answers with the datagram it sends; every event comes with the bytes
of the block that `new_user` would get. -/
def packedMachine : Machine PackedClient (ClientEvent × (Nat → UInt8)) (Option (List UInt8)) where
  step s
    | (.handle time beyond plain, junk) => s.handle glib cfg time beyond plain junk
    | (e, _) => ((clientMachine glib cfg).step s.client e).map fun r =>
        (r.1, { s with client := r.2 })

/-- The block of a listed user, and the entry that the next step of its handler copies over it. -/
def PackedClient.copied (s : PackedClient) (beyond : List UInt8) : Option (UserBlock × User) :=
  match s.client.pc with
  | .entry id => do
      let b ← s.client.heap[id]?
      if (ascii "1_iptux").isPrefixOf b.msg.version then none
      else do
        let user ← (entryUser glib beyond b.msg).toOption
        let i ← ← (Blocks.findUser b.msg.ip s.blocks).toOption
        let block ← s.blocks[i]?
        some (block, user)
  | _ => none

/-- An entry that is copied over the strings of a user spares its address. -/
def PackedClient.Clear (s : PackedClient) : ClientEvent → Prop
  | .handle _ beyond _ => ∀ c ∈ s.copied glib beyond, c.1.SparesAddress c.2
  | _ => True

instance (s : PackedClient) (e : ClientEvent) : Decidable (s.Clear glib e) :=
  match e with
  | .handle _ beyond _ => inferInstanceAs (Decidable
      (∀ c ∈ s.copied glib beyond, c.1.SparesAddress c.2))
  | .receive _ _ _ | .tray | .windows _ _ => .isTrue trivial

/-! ### Steps -/

/-- The message whose entry the handler takes. -/
def Pc.takesEntry : Pc → Option Nat
  | .entry id => some id
  | .entryAdd id _ => some id
  | .entryFree id => some id
  | _ => none

/-- A step of `on_buddy_entry` that keeps the places and the addresses of the users. -/
def Client.TakesEntry (s s' : Client) : Prop :=
  ∃ id ulist pc, s.pc.takesEntry = some id ∧ pc.takesEntry = some id ∧ Keeps s.ulist ulist
    ∧ s' = { s.touch id with ulist, pc }

/-- The blocks have the strings of the users. -/
structure PackedClient.Good (s : PackedClient) : Prop where
  shaped : ∀ b ∈ s.blocks, b.Shaped
  read : Blocks.read s.blocks = .ok s.client.ulist

section

variable {glib cfg}
variable {s s' : PackedClient} {c c' : Client} {time : UInt64} {beyond plain : List UInt8}
  {junk : Nat → UInt8} {o : Option (List UInt8)}

theorem toOption_eq_some {α : Type} {x : Except Fault α} {a : α} :
  x.toOption = some a ↔ x = .ok a
  := by
  cases x with
  | error fault => simp [Except.toOption]
  | ok a' => simp [Except.toOption]

theorem withBlocks_spec {blocks : List UserBlock} (h : c.withBlocks blocks = some s') :
  ∃ ulist, Blocks.read blocks = .ok ulist ∧ s' = { client := { c with ulist }, blocks }
  := by
  obtain ⟨ulist, hread, heq⟩ := Option.bind_eq_some_iff.mp h
  cases heq
  use ulist, toOption_eq_some.mp hread

/-- Only `on_buddy_entry` changes the list of the users. -/
theorem handle_ulist (hentry : ∀ id, c.pc ≠ .entry id) (hadd : ∀ id user, c.pc ≠ .entryAdd id user)
    (hstep : c.handle glib cfg time beyond plain = some (o, c')) :
  c'.ulist = c.ulist
  := by
  cases hc : c.pc with
  | entry id => apply absurd hc (hentry id)
  | entryAdd id user => apply absurd hc (hadd id user)
  | idle =>
    simp only [Client.handle, hc] at hstep
    cases hstep
  | entryFree id | sendFree id | gpFree id | sendShow id | gpShow =>
    simp only [Client.handle, hc] at hstep
    cases hstep
    rfl
  | sendLink id =>
    simp only [Client.handle, hc] at hstep
    obtain ⟨stale, hlink⟩ := (c.update id fun m => { m with gpid := some 0 }).link_eq id
    rw [hlink] at hstep
    cases hstep
    rfl
  | gpGroup id user gpid pmsg =>
    simp only [Client.handle, hc] at hstep
    split at hstep <;> (cases hstep; rfl)
  | sendConvert id | sendFind id | sendReply id | gpFind id =>
    simp only [Client.handle, hc] at hstep
    obtain ⟨b, -, hstep⟩ := Option.bind_eq_some_iff.mp hstep
    repeat' split at hstep
    all_goals cases hstep <;> rfl
  | gpDecode id user =>
    simp only [Client.handle, hc] at hstep
    obtain ⟨b, -, hstep⟩ := Option.bind_eq_some_iff.mp hstep
    obtain ⟨u, -, hstep⟩ := Option.bind_eq_some_iff.mp hstep
    split at hstep
    · cases hstep
    · cases hstep
      rfl
  | gpLink id user gpid pmsg =>
    simp only [Client.handle, hc] at hstep
    obtain ⟨b, -, hstep⟩ := Option.bind_eq_some_iff.mp hstep
    split at hstep
    · cases hstep
    · obtain ⟨stale, hlink⟩ := (c.update id fun _ =>
        { b.msg.strcpyData pmsg with user := some user, gpid := some gpid }).link_eq id
      rw [hlink] at hstep
      cases hstep
      rfl

theorem receive_ulist {ip : List UInt8} {port : UInt16} {datagram : List UInt8}
    (hstep : c.receive ip port datagram = some c') :
  c'.ulist = c.ulist
  := by
  rw [Client.receive] at hstep
  split at hstep
  · split at hstep
    · cases hstep
    · cases hstep
      rfl
  · cases hstep

theorem tray_ulist (hstep : c.tray cfg = some c') :
  c'.ulist = c.ulist
  := by
  rcases tray_spec hstep with rfl | ⟨id, rest, pchatbox, gchatbox, -, rfl⟩
  · rfl
  · obtain ⟨stale, htouch⟩ := c.touched_eq id rest
    rw [htouch]
    rfl

/-- The blocks have the strings of the users while the list of these stays. -/
theorem PackedClient.Good.same (hs : s.Good) (hulist : c.ulist = s.client.ulist) :
  PackedClient.Good { s with client := c }
  where
  shaped := hs.shaped
  read := by
    rw [hulist]
    apply hs.read

/-- An entry that is copied over the strings of the user of its address, and spares it, keeps all
addresses. -/
theorem PackedClient.Good.update (hs : s.Good) {ip : List UInt8} {user : User} {i : Nat}
    {b b' : UserBlock} {ulist : List User} (hfind : Blocks.findUser ip s.blocks = .ok (some i))
    (hb : s.blocks[i]? = some b) (hip : user.ipaddr = ip) (hspares : b.SparesAddress user)
    (hupdate : b.update user = .ok b') (hread : Blocks.read (s.blocks.set i b') = .ok ulist) :
  (∀ b₁ ∈ s.blocks.set i b', b₁.Shaped) ∧ Keeps s.client.ulist ulist
  := by
  have haddress := Blocks.findUser_spec hfind hb
  rw [← hip] at haddress
  obtain ⟨hshaped, haddress'⟩ := UserBlock.update_address
    (hs.shaped b (List.mem_of_getElem? hb)) haddress hspares hupdate
  constructor
  · intro b₁ hb₁
    rcases List.mem_or_eq_of_mem_set hb₁ with hmem | rfl
    · apply hs.shaped b₁ hmem
    · apply hshaped
  · apply keeps_of_read hs.read hread
    intro j b₁ ip₁ hb₁ hip₁
    by_cases hj : j = i
    · subst hj
      rw [hb] at hb₁
      cases hb₁
      rw [haddress] at hip₁
      cases hip₁
      use b'
      rw [List.getElem?_set_self (List.getElem?_eq_some_iff.mp hb).1]
      use rfl
    · use b₁
      rw [List.getElem?_set_ne (Ne.symm hj)]
      use hb₁

/-- A new user keeps all addresses. -/
theorem PackedClient.Good.add (hs : s.Good) {user : User} {b : UserBlock} {ulist : List User}
    (hnew : newUser junk user = .ok b) (hread : Blocks.read (s.blocks ++ [b]) = .ok ulist) :
  (∀ b' ∈ s.blocks ++ [b], b'.Shaped) ∧ Keeps s.client.ulist ulist
  := by
  constructor
  · intro b₁ hb₁
    rcases List.mem_append.mp hb₁ with hmem | hmem
    · apply hs.shaped b₁ hmem
    · rw [List.mem_singleton.mp hmem]
      apply newUser_shaped hnew
  · apply keeps_of_read hs.read hread
    intro j b₁ ip₁ hb₁ hip₁
    use b₁
    rw [List.getElem?_append_left (List.getElem?_eq_some_iff.mp hb₁).1]
    use hb₁

/-- The strings can always be read after an update, and with a new user: a step of
`on_buddy_entry` fails only where its copies leave the block. -/
theorem PackedClient.Good.reads (hs : s.Good) {user : User} {b' : UserBlock} (c : Client) :
  (∀ (i : Nat) (b : UserBlock), s.blocks[i]? = some b → b.update user = .ok b' →
      (c.withBlocks (s.blocks.set i b')).isSome)
    ∧ (newUser junk user = .ok b' → (c.withBlocks (s.blocks ++ [b'])).isSome)
  := by
  have hall := Blocks.read_isOk_iff.mp ⟨_, hs.read⟩
  have hsome : ∀ blocks : List UserBlock, (∀ b ∈ blocks, ∃ u, b.read = .ok u) →
      (c.withBlocks blocks).isSome := by
    intro blocks hblocks
    obtain ⟨ulist, hread⟩ := Blocks.read_isOk_iff.mpr hblocks
    rw [Client.withBlocks, toOption_eq_some.mpr hread]
    rfl
  constructor
  · intro i b hb hupdate
    have hmem := List.mem_of_getElem? hb
    obtain ⟨u, hu⟩ := hall b hmem
    apply hsome
    intro b₁ hb₁
    rcases List.mem_or_eq_of_mem_set hb₁ with hb₁ | rfl
    · apply hall b₁ hb₁
    · apply UserBlock.update_reads (hs.shaped b hmem) hu hupdate
  · intro hnew
    apply hsome
    intro b₁ hb₁
    rcases List.mem_append.mp hb₁ with hb₁ | hb₁
    · apply hall b₁ hb₁
    · rw [List.mem_singleton.mp hb₁]
      apply newUser_reads hnew

/-- The step of `on_buddy_entry` that looks for the user. -/
theorem packed_entry {id : Nat} (hs : s.Good) (hpc : s.client.pc = .entry id)
    (hclear : ∀ c ∈ s.copied glib beyond, c.1.SparesAddress c.2)
    (hstep : s.handle glib cfg time beyond plain junk = some (o, s')) :
  s'.Good ∧ s.client.TakesEntry s'.client
  := by
  have hentry : s.client.pc.takesEntry = some id := by rw [hpc]; rfl
  simp only [PackedClient.handle, hpc] at hstep
  obtain ⟨b, hb, hstep⟩ := Option.bind_eq_some_iff.mp hstep
  split at hstep
  · cases hstep
    exact ⟨⟨hs.shaped, hs.read⟩, id, _, _, hentry, rfl, keeps_refl s.client.ulist, rfl⟩
  rename_i hversion
  obtain ⟨user, huser, hstep⟩ := Option.bind_eq_some_iff.mp hstep
  obtain ⟨found, hfound, hstep⟩ := Option.bind_eq_some_iff.mp hstep
  cases found with
  | none =>
    cases hstep
    exact ⟨⟨hs.shaped, hs.read⟩, id, _, _, hentry, rfl, keeps_refl s.client.ulist, rfl⟩
  | some i =>
    obtain ⟨block, hblock, hstep⟩ := Option.bind_eq_some_iff.mp hstep
    obtain ⟨block', hupdate, hstep⟩ := Option.bind_eq_some_iff.mp hstep
    obtain ⟨s₁, hs₁, heq⟩ := Option.bind_eq_some_iff.mp hstep
    cases heq
    obtain ⟨ulist, hread, rfl⟩ := withBlocks_spec hs₁
    have hcopied : s.copied glib beyond = some (block, user) := by
      simp only [PackedClient.copied, hpc, hb, Option.bind_eq_bind, Option.bind_some, hversion,
        huser, hfound, hblock]
      rfl
    obtain ⟨hshaped, hkeeps⟩ := hs.update (toOption_eq_some.mp hfound) hblock
      (entryUser_ipaddr (toOption_eq_some.mp huser)) (hclear _ hcopied)
      (toOption_eq_some.mp hupdate) hread
    exact ⟨⟨hshaped, hread⟩, id, ulist, .entryFree id, hentry, rfl, hkeeps, rfl⟩

/-- The step of `on_buddy_entry` that lists a new user. -/
theorem packed_entryAdd {id : Nat} {user : User} (hs : s.Good)
    (hpc : s.client.pc = .entryAdd id user)
    (hstep : s.handle glib cfg time beyond plain junk = some (o, s')) :
  s'.Good ∧ s.client.TakesEntry s'.client
  := by
  simp only [PackedClient.handle, hpc] at hstep
  obtain ⟨b, hb, hstep⟩ := Option.bind_eq_some_iff.mp hstep
  obtain ⟨block, hnew, hstep⟩ := Option.bind_eq_some_iff.mp hstep
  obtain ⟨s₁, hs₁, heq⟩ := Option.bind_eq_some_iff.mp hstep
  cases heq
  obtain ⟨ulist, hread, rfl⟩ := withBlocks_spec hs₁
  obtain ⟨hshaped, hkeeps⟩ := hs.add (toOption_eq_some.mp hnew) hread
  exact ⟨⟨hshaped, hread⟩, id, ulist, .entryFree id, by rw [hpc]; rfl, rfl, hkeeps, rfl⟩

/-- Where addresses are spared, the next step of a handler is that of the peer with the strings,
or one of `on_buddy_entry` that keeps the addresses. -/
theorem packed_handle (hs : s.Good)
    (hclear : ∀ c ∈ s.copied glib beyond, c.1.SparesAddress c.2)
    (hstep : s.handle glib cfg time beyond plain junk = some (o, s')) :
  s'.Good ∧ (s.client.handle glib cfg time beyond plain = some (o, s'.client)
    ∨ s.client.TakesEntry s'.client)
  := by
  have hother : (∀ id, s.client.pc ≠ .entry id) → (∀ id user, s.client.pc ≠ .entryAdd id user) →
      (s.client.handle glib cfg time beyond plain).map
        (fun r => (r.1, { s with client := r.2 })) = some (o, s') →
      s'.Good ∧ s.client.handle glib cfg time beyond plain = some (o, s'.client) := by
    intro hentry hadd hmap
    obtain ⟨⟨o', c⟩, hc, heq⟩ := Option.map_eq_some_iff.mp hmap
    cases heq
    exact ⟨hs.same (handle_ulist hentry hadd hc), hc⟩
  cases hpc : s.client.pc with
  | entry id => apply (packed_entry hs hpc hclear hstep).imp_right Or.inr
  | entryAdd id user => apply (packed_entryAdd hs hpc hstep).imp_right Or.inr
  | _ =>
    simp only [PackedClient.handle, hpc] at hstep
    apply (hother (by simp [hpc]) (by simp [hpc]) hstep).imp_right Or.inl

/-- A step of a handler of the peer with the strings, or one of `on_buddy_entry` that keeps the
addresses. -/
theorem packed_step {e : ClientEvent × (Nat → UInt8)} (hs : s.Good) (hclear : s.Clear glib e.1)
    (hstep : (packedMachine glib cfg).step s e = some (o, s')) :
  s'.Good ∧ ((clientMachine glib cfg).step s.client e.1 = some (o, s'.client)
    ∨ s.client.TakesEntry s'.client)
  := by
  obtain ⟨e, junk⟩ := e
  cases e with
  | handle time beyond plain => apply packed_handle hs hclear hstep
  | receive ip port datagram =>
    obtain ⟨⟨o', c⟩, hc, heq⟩ := Option.map_eq_some_iff.mp hstep
    cases heq
    obtain ⟨c', hreceive, heq⟩ := Option.map_eq_some_iff.mp hc
    cases heq
    exact ⟨hs.same (receive_ulist hreceive), Or.inl hc⟩
  | tray =>
    obtain ⟨⟨o', c⟩, hc, heq⟩ := Option.map_eq_some_iff.mp hstep
    cases heq
    obtain ⟨c', htray, heq⟩ := Option.map_eq_some_iff.mp hc
    cases heq
    exact ⟨hs.same (tray_ulist htray), Or.inl hc⟩
  | windows pchatbox gchatbox =>
    cases hstep
    exact ⟨hs.same rfl, Or.inl rfl⟩

/-! ### Runs -/

theorem start_good :
  PackedClient.start.Good
  where
  shaped := by rintro b ⟨⟩
  read := rfl

theorem accounted_takesEntry (h : c.Accounted) (htakes : c.TakesEntry c') :
  c'.Accounted
  := by
  obtain ⟨id, ulist, pc, hfrom, hto, hkeeps, rfl⟩ := htakes
  have hholds : c.pc.holds = some id ∧ c.pc.fresh = none := by
    cases hpc : c.pc <;> rw [hpc] at hfrom <;> cases hfrom <;> exact ⟨rfl, rfl⟩
  have hholds' : pc.holds = some id := by
    cases pc <;> cases hto <;> rfl
  have hfound : Client.Found { c with ulist, pc } := by
    cases pc <;> cases hto <;> trivial
  rw [h.touch_held hholds.1]
  exact h.goOn hkeeps hholds.1 hholds.2 hholds' hfound

theorem public_takesEntry (htakes : c.TakesEntry c') :
  c'.pc.Public
  := by
  obtain ⟨id, ulist, pc, -, hto, -, rfl⟩ := htakes
  change pc.Public
  cases pc <;> cases hto <;> trivial

theorem start_accounted :
  Client.start.Accounted
  := by
  constructor
  case nodup => apply List.nodup_nil
  case linked => rintro id ⟨⟩
  case held => rintro id ⟨⟩
  case released =>
    intro id b hb
    cases hb
  case found => trivial
  case clean => rfl

/-- A careful step that spares the addresses keeps the account. -/
theorem packed_accounted {e : ClientEvent × (Nat → UInt8)} (hs : s.Good ∧ s.client.Accounted)
    (hcond : s.client.CarefulPrivate cfg e.1 ∧ s.Clear glib e.1)
    (hstep : (packedMachine glib cfg).step s e = some (o, s')) :
  s'.Good ∧ s'.client.Accounted
  := by
  obtain ⟨hgood, hclient | htakes⟩ := packed_step hs.1 hcond.2 hstep
  · use hgood
    apply accounted_step hs.2 hcond.1 hclient
  · use hgood
    apply accounted_takesEntry hs.2 htakes

end

/-- Along a careful run that spares the addresses of the users every message is owned; along one
that is careful about its private messages it is up to the lookup of their users. -/
theorem run_owned {glib : Glib} {cfg : Config} {s : PackedClient}
    {es : List (ClientEvent × (Nat → UInt8))} {os : List (Option (List UInt8))}
    (hrun : (packedMachine glib cfg).run PackedClient.start es = some (os, s)) :
  ((packedMachine glib cfg).Meets (fun s e => s.client.Careful cfg e.1 ∧ s.Clear glib e.1)
      PackedClient.start es → s.client.Owned)
    ∧ ((packedMachine glib cfg).Meets
        (fun s e => s.client.CarefulPrivate cfg e.1 ∧ s.Clear glib e.1) PackedClient.start es →
      s.client.OwnedUpToLookup)
  := by
  constructor
  · intro hmeets
    have hboth : (s.Good ∧ s.client.Accounted) ∧ s.client.pc.Public := by
      apply (packedMachine glib cfg).run_invariant _ ⟨⟨start_good, start_accounted⟩, trivial⟩
        hmeets hrun
      rintro s e o s' ⟨hs, hpublic⟩ ⟨hcareful, hclear⟩ hstep
      use packed_accounted hs ⟨carefulPrivate_of_careful hpublic hcareful, hclear⟩ hstep
      rcases (packed_step hs.1 hclear hstep).2 with hclient | htakes
      · apply public_step hpublic hcareful hclient
      · apply public_takesEntry htakes
    obtain ⟨⟨-, haccounted⟩, hpublic⟩ := hboth
    obtain ⟨hlinked, hclean, hreleased⟩ := haccounted.ownedUpToLookup
    use ?_, hclean, hreleased
    intro id hid
    obtain ⟨b, hb, hfrees, hgpid, huser⟩ := hlinked id hid
    use b, hb, hfrees, hgpid
    apply huser
    rw [hpublic.fresh_eq_none]
    rintro ⟨⟩
  · intro hmeets
    apply Client.Accounted.ownedUpToLookup
    have hboth : s.Good ∧ s.client.Accounted := by
      apply (packedMachine glib cfg).run_invariant _ ⟨start_good, start_accounted⟩ hmeets hrun
      intro s e o s' hs hcond hstep
      apply packed_accounted hs hcond hstep
    exact hboth.2

/-! ### A run -/

/-- The events, each with a block of zeros. -/
def inZeros (es : List ClientEvent) : List (ClientEvent × (Nat → UInt8)) :=
  es.map fun e => (e, fun _ => 0)

/-- The handler takes `k` steps. -/
def handles (k : Nat) : List ClientEvent := List.replicate k (.handle 0 [0] [])

/-- The entry of a sender with an avatar is received, and its handler takes `k` steps. -/
def entryRun (avatarId : Int32) (k : Nat) : List ClientEvent :=
  .receive (ascii "10.0.0.1") 2425
    (printEntry { configA with avatarId } 0 0x101 ++ [0, 0]) :: handles k

/-- A private message of the sender is received, and its handler takes `k` steps. -/
def privateRun (k : Nat) : List ClientEvent :=
  .receive (ascii "10.0.0.1") 2425 (printHeader configA 0 0 0x120 ++ ascii "hi") :: handles k

/-- The sender changes its avatar to one with a path of the same length. -/
theorem run_owned_private :
  (∃ os s, (packedMachine asciiGlib configB).run PackedClient.start
      (inZeros (entryRun 12 3 ++ entryRun 13 2 ++ [.tray])) = some (os, s) ∧ s.client.Owned)
    ∧ ∃ os s, (packedMachine asciiGlib configB).run PackedClient.start
      (inZeros (entryRun 12 3 ++ privateRun 5 ++ entryRun 13 2 ++ privateRun 5 ++ [.tray]))
        = some (os, s) ∧ s.client.OwnedUpToLookup
  := by
  constructor
  · obtain ⟨⟨os, s⟩, hrun⟩ := Option.isSome_iff_exists.mp (by decide +kernel :
      ((packedMachine asciiGlib configB).run PackedClient.start
        (inZeros (entryRun 12 3 ++ entryRun 13 2 ++ [.tray]))).isSome = true)
    use os, s, hrun
    apply (run_owned hrun).1
    decide +kernel
  · obtain ⟨⟨os, s⟩, hrun⟩ := Option.isSome_iff_exists.mp (by decide +kernel :
      ((packedMachine asciiGlib configB).run PackedClient.start
        (inZeros (entryRun 12 3 ++ privateRun 5 ++ entryRun 13 2 ++ privateRun 5
          ++ [.tray]))).isSome = true)
    use os, s, hrun
    apply (run_owned hrun).2
    decide +kernel

/-- The tray icon takes a private message while it is handled, with a window open, and frees
it; the handler then touches it.  And a longer path of the avatar runs over the address of the
sender of an unread message. -/
theorem tray_frees_handled :
  (∃ os s, (packedMachine asciiGlib configB).run PackedClient.start
      (inZeros (entryRun 1 3 ++ [.windows [0] []] ++ privateRun 1 ++ [.tray] ++ handles 1))
        = some (os, s)
    ∧ ¬ s.client.Owned)
    ∧ ∃ os s, (packedMachine asciiGlib configB).run PackedClient.start
      (inZeros (entryRun 12 3 ++ privateRun 5 ++ entryRun 0 2)) = some (os, s)
    ∧ ¬ s.client.Owned
  := by
  constructor
  · have hany : ((packedMachine asciiGlib configB).run PackedClient.start
        (inZeros (entryRun 1 3 ++ [.windows [0] []] ++ privateRun 1 ++ [.tray] ++ handles 1))).any
        (fun r => r.2.client.stale) = true := by decide +kernel
    obtain ⟨⟨os, s⟩, hrun, hstale⟩ := (Option.any_eq_true _ _).mp hany
    use os, s, hrun
    intro h
    rw [h.clean] at hstale
    cases hstale
  · have hsome : ((packedMachine asciiGlib configB).run PackedClient.start
        (inZeros (entryRun 12 3 ++ privateRun 5 ++ entryRun 0 2))).map
        (fun r => (r.2.client.mlist, r.2.client.heap.map fun b => b.msg.ip,
          ipaddrs r.2.client.ulist))
        = some ([1], [ascii "10.0.0.1", ascii "10.0.0.1", ascii "10.0.0.1"], [ascii ".png"]) := by
      decide +kernel
    obtain ⟨⟨os, s⟩, hrun, heq⟩ := Option.map_eq_some_iff.mp hsome
    simp only [Prod.mk.injEq] at heq
    obtain ⟨hmlist, hips, hulist⟩ := heq
    use os, s, hrun
    intro h
    obtain ⟨b, hb, -, -, i, u, -, hu, hip⟩ := h.linked 1 (by rw [hmlist]; decide)
    have hbip : b.msg.ip = ascii "10.0.0.1" := by
      have := congrArg (fun l => l[1]?) hips
      simpa [hb] using this
    have huip : u.ipaddr ∈ ipaddrs s.client.ulist :=
      List.mem_map_of_mem (List.mem_of_getElem? hu)
    rw [hulist, hip, hbip] at huip
    revert huip
    decide +kernel

end Peer

end IFreeChat
