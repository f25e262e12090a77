import IFreeChat.Basis.Machine
import IFreeChat.Peer.Entry

/-!
# Peer discovery

Any number of peers on a network come and go, and their datagrams are delivered in any
order.  A peer first listens and then broadcasts its entry; it is online from then on.

Two peers that are online know each other or will: `Settled` says that the one is listed by
the other, or has a datagram under way to it that will list it, or will answer one that is
under way from it.  It is kept as long as no peer comes online that another one still lists
from an earlier time, and no entry stays without its reply (`Answered`), so that then, once
no datagram is under way, all peers online have each other in their lists
(`run_discovers`).
-/

open Basis

namespace IFreeChat

namespace Peer

/-! ### The network -/

/-- The peers of a network, the port all of them listen on, and the GLib they use. -/
structure Lan (n : Nat) where
  config : Fin n → Config
  ip : Fin n → List UInt8
  ip_injective : Function.Injective ip
  port : UInt16
  glib : Glib

/-- What a peer is doing. -/
inductive Phase where
  | off
  | listening
  | online
deriving DecidableEq

/-- A peer and its user list. -/
structure Host where
  phase : Phase
  ulist : List User

/-- A datagram under way. -/
structure Packet (n : Nat) where
  src : Fin n
  dst : Fin n
  text : List UInt8

/-- The peers, and the datagrams under way. -/
structure Network (n : Nat) where
  host : Fin n → Host
  flight : List (Packet n)

/-- What happens on a network: a peer starts to listen, broadcasts its entry, broadcasts its
exit and stops, or the `i`-th datagram under way is delivered.  The time is that of the peer
that sends, `cipher` are the bytes of its array, and `beyond` are those after the block of
the message. -/
inductive Event (n : Nat) where
  | listen (p : Fin n)
  | enter (p : Fin n) (time : UInt64) (cipher : List UInt8)
  | quit (p : Fin n) (time : UInt64)
  | deliver (i : Nat) (time : UInt64) (beyond : List UInt8)

/-- What `process_message` does to the user list, and the entry reply to the sender.  Only
`on_buddy_entry` changes the list. -/
def processEntry (glib : Glib) (cfg : Config) (time : UInt64) (beyond : List UInt8)
    (ulist : List User) (ip : List UInt8) (port : UInt16) (datagram : List UInt8) :
    Except Fault (List User × Option (List UInt8)) := do
  let msg ← parseMessage ip port (recvBuffer datagram) (recvSize datagram)
  if isEntryCommand msg.command then onBuddyEntry glib cfg time beyond ulist msg
  else .ok (ulist, none)

/-- The copies of a broadcast of `p`, one for every peer. -/
def broadcast {n : Nat} (p : Fin n) (texts : List (List UInt8)) : List (Packet n) :=
  (List.finRange n).flatMap fun q => texts.map fun text => ⟨p, q, text⟩

/-- A peer in another phase, with another list. -/
def Network.setHost {n : Nat} (s : Network n) (p : Fin n) (h : Host) : Fin n → Host :=
  Function.update s.host p h

variable {n : Nat} (lan : Lan n)

/-- One step of the network.  A datagram for a peer that does not listen is dropped. -/
def Lan.step (s : Network n) : Event n → Option (Network n)
  | .listen p =>
      if (s.host p).phase = .off then
        some { s with host := s.setHost p { phase := .listening, ulist := [] } }
      else none
  | .enter p time cipher =>
      if (s.host p).phase = .listening then
        match onlineBroadcast (lan.config p) time cipher with
        | .error _ => none
        | .ok texts => some {
            host := s.setHost p { s.host p with phase := .online }
            flight := s.flight ++ broadcast p texts }
      else none
  | .quit p time =>
      if (s.host p).phase = .online then
        some {
          host := s.setHost p { s.host p with phase := .off }
          flight := s.flight ++ broadcast p [offlineBroadcast (lan.config p) time] }
      else none
  | .deliver i time beyond =>
      match s.flight[i]? with
      | none => none
      | some m =>
          if (s.host m.dst).phase = .off then
            some { s with flight := s.flight.eraseIdx i }
          else
            match processEntry lan.glib (lan.config m.dst) time beyond (s.host m.dst).ulist
                (lan.ip m.src) lan.port m.text with
            | .error _ => none
            | .ok (ulist, reply) => some {
                host := s.setHost m.dst { s.host m.dst with ulist }
                flight := s.flight.eraseIdx i
                  ++ reply.toList.map fun text => ⟨m.dst, m.src, text⟩ }

/-- The network as a machine. -/
def Lan.machine : Machine (Network n) (Event n) Unit where
  step s e := (lan.step s e).map fun s' => ((), s')

/-- No peer runs and no datagram is under way. -/
def Network.start (n : Nat) : Network n := ⟨fun _ => ⟨.off, []⟩, []⟩

/-! ### What is known and what is under way -/

/-- The peer is online. -/
def Network.Online (s : Network n) (p : Fin n) : Prop := (s.host p).phase = .online

instance (s : Network n) (p : Fin n) : Decidable (s.Online p) :=
  inferInstanceAs (Decidable (_ = _))

/-- The peer `p` has the address of `q` in its list. -/
def Lan.Knows (s : Network n) (p q : Fin n) : Prop := lan.ip q ∈ ipaddrs (s.host p).ulist

instance (s : Network n) (p q : Fin n) : Decidable (lan.Knows s p q) :=
  inferInstanceAs (Decidable (_ ∈ _))

/-- The text is an entry or an entry reply. -/
@[irreducible]
def IsEntry (text : List UInt8) : Prop :=
  match parseMessage [] 0 (recvBuffer text) (recvSize text) with
  | .error _ => False
  | .ok msg => isEntryCommand msg.command

instance (text : List UInt8) : Decidable (IsEntry text) :=
  match h : parseMessage [] 0 (recvBuffer text) (recvSize text) with
  | .error _ => .isFalse (by
      rw [IsEntry, h]
      apply id)
  | .ok msg => decidable_of_iff (isEntryCommand msg.command) (by rw [IsEntry, h])

/-- An entry or an entry reply of `q` is under way to `p`. -/
def Network.Coming (s : Network n) (q p : Fin n) : Prop :=
  ∃ m ∈ s.flight, m.src = q ∧ m.dst = p ∧ IsEntry m.text

instance (s : Network n) (q p : Fin n) : Decidable (s.Coming q p) :=
  inferInstanceAs (Decidable (∃ m ∈ s.flight, m.src = q ∧ m.dst = p ∧ IsEntry m.text))

/-! ### Printed datagrams -/

/-- A datagram the peer can send. -/
def Printed (cfg : Config) (text : List UInt8) : Prop :=
  ∃ size time cmd data, text = printHeader cfg size time cmd ++ data ∧ cmd < 2 ^ 31
    ∧ text.length < sizeofBuf

section

variable {cfg : Config} (hcfg : cfg.Separable) {size : Nat} {time : UInt64} {cmd : Nat}
  {data : List UInt8} (hcmd : cmd < 2 ^ 31)
  (hlength : (printHeader cfg size time cmd ++ data).length < sizeofBuf)

include hcfg hcmd hlength

theorem isEntry_printHeader :
  IsEntry (printHeader cfg size time cmd ++ data) ↔ isEntryCommand cmd
  := by
  rw [IsEntry, parseMessage_header hcfg [] 0 size time cmd data hlength]
  simp only [printedMsg_command hcmd]

/-- What becomes of a printed datagram: nothing where it is no entry, and where it is one,
nothing new where its sender is listed, and a new address and the reply where it is not. -/
theorem processEntry_printHeader {glib : Glib} {cfg' : Config} {time' : UInt64}
    {beyond ip : List UInt8} {port : UInt16} {ulist ulist' : List User}
    {reply : Option (List UInt8)}
    (h : processEntry glib cfg' time' beyond ulist ip port
      (printHeader cfg size time cmd ++ data) = .ok (ulist', reply)) :
  (¬ isEntryCommand cmd ∧ ulist' = ulist ∧ reply = none)
    ∨ (isEntryCommand cmd ∧ ip ∈ ipaddrs ulist ∧ ipaddrs ulist' = ipaddrs ulist
      ∧ reply = none)
    ∨ (isEntryCommand cmd ∧ ip ∉ ipaddrs ulist ∧ ipaddrs ulist' = ipaddrs ulist ++ [ip]
      ∧ reply = if cfg.username.text ≠ cfg'.username.text then
          some (printEntry cfg' time' 0x103) else none)
  := by
  obtain ⟨msg, hparse, h⟩ := bind_eq_ok.mp h
  rw [parseMessage_header hcfg ip port size time cmd data hlength] at hparse
  cases hparse
  rw [printedMsg_command hcmd] at h
  split at h
  · rename_i hentry
    right
    have hversion : (ascii "1_iptux").isPrefixOf (printVersion cfg size) = false := by
      have hhead : printVersion cfg size = ascii "1_lbt4_" ++ (decimal cfg.avatarId.toInt
          ++ ascii "#128#" ++ cfg.macaddr.text ++ ascii "#0#0#" ++ numeral 10 size) := by
        simp only [printVersion, List.append_assoc]
      rw [hhead]
      rfl
    rcases onBuddyEntry_eq_ok hversion h with ⟨hmem, hlist, rfl⟩ | ⟨hmem, hlist, rfl⟩
    · left
      use hentry, hmem, hlist
    · right
      refine ⟨hentry, hmem, hlist, ?_⟩
      have hanswers := isEntryCommand_answers hentry
      rw [entryReply, printedMsg_command hcmd]
      simp only [hanswers, not_false_eq_true, ne_eq, true_and]
      rfl
  · rename_i hother
    cases h
    left
    use hother, rfl

end

theorem printEntry_length_le (cfg : Config) {time : UInt64} {cmd : Nat} (hcmd : cmd < 10 ^ 10) :
  (printEntry cfg time cmd).length ≤ 281
  := by
  have hheader := printHeader_length_le cfg time (by decide : 0 < 10 ^ 10) hcmd
  have hnickname := cfg.nickname.fits
  rw [printEntry, List.length_append]
  omega

/-- An entry with further data is a printed datagram. -/
theorem printed_printEntry (cfg : Config) (time : UInt64) {cmd : Nat} (hcmd : cmd < 2 ^ 31)
    {data : List UInt8} (hdata : data.length ≤ 65) :
  Printed cfg (printEntry cfg time cmd ++ data)
  := by
  have hlength := @printEntry_length_le cfg time cmd (by omega)
  use 0, time, cmd, cfg.nickname.text ++ data
  refine ⟨?_, hcmd, ?_⟩
  · rw [printEntry, List.append_assoc]
  · rw [List.length_append, sizeofBuf]
    omega

/-- A reply is an entry for its receiver, and no longer than the array it is printed into. -/
theorem isEntry_printEntry {cfg : Config} (hcfg : cfg.Separable) (time : UInt64) {cmd : Nat}
    (hcmd : cmd < 2 ^ 31) {data : List UInt8} (hdata : data.length ≤ 65) :
  IsEntry (printEntry cfg time cmd ++ data) ↔ isEntryCommand cmd
  := by
  have hlength := @printEntry_length_le cfg time cmd (by omega)
  rw [printEntry, List.append_assoc]
  apply isEntry_printHeader hcfg hcmd
  rw [← List.append_assoc, ← printEntry, List.length_append, sizeofBuf]
  omega

theorem printed_reply (cfg : Config) (time : UInt64) :
  Printed cfg (printEntry cfg time 0x103)
  := by
  have h := @printed_printEntry cfg time 0x103 (by decide) [] (by decide)
  rw [List.append_nil] at h
  apply h

theorem isEntry_reply {cfg : Config} (hcfg : cfg.Separable) (time : UInt64) :
  IsEntry (printEntry cfg time 0x103)
  := by
  have h := @isEntry_printEntry cfg hcfg time 0x103 (by decide) [] (by decide)
  rw [List.append_nil] at h
  rw [h]
  decide

theorem category_length_le (cfg : Config) :
  (0 :: (cfg.category.text ++ [0])).length ≤ 65
  := by
  have := cfg.category.fits
  rw [List.length_cons, List.length_append, List.length_singleton]
  omega

theorem printed_announceGroup {bf : Blowfish.CBlowFish} {cfg : Config} {time : UInt64}
    {cipher : List UInt8} {groupId : UInt32} {text : List UInt8}
    (h : announceGroup bf cfg time cipher groupId = .ok text) :
  Printed cfg text
  := by
  obtain ⟨⟨out, len⟩, hencrypt, h⟩ := bind_eq_ok.mp h
  have htext := Except.ok.inj h
  rw [← htext]
  have hplain : (printPlain groupId []).length ≤ 20 := by
    have hid := groupId.toNat_lt
    have := numeral_length_le (by decide) (by decide) (by omega : groupId.toNat < 16 ^ 8)
    have htexts : (ascii "QUNMSGMARK#").length = 11 ∧ (ascii "#").length = 1 := by decide
    obtain ⟨h₁, h₂⟩ := htexts
    simp only [printPlain, List.length_append, List.length_nil, h₁, h₂]
    omega
  have hlen : len ≤ 24 := by
    rw [Blowfish.blowFishEncrypt, Blowfish.encrypt, Blowfish.getOutputLength_pkcs5] at hencrypt
    split at hencrypt
    · cases hencrypt
    · split at hencrypt
      · cases hencrypt
      · cases hencrypt
        rw [Blowfish.BF_BLKSIZE]
        omega
  have hheader := printHeader_length_le cfg time (by omega : len < 10 ^ 10)
    (by decide : 0x2000c9 < 10 ^ 10)
  have htake := List.length_take_le (len + 1) out
  use len, time, 0x2000c9, out.take (len + 1), rfl, by decide
  rw [List.length_append, sizeofBuf]
  omega

theorem mapM_mem {α β : Type} {f : α → Except Fault β} {as : List α} {bs : List β}
    (h : as.mapM f = .ok bs) {b : β} (hb : b ∈ bs) :
  ∃ a ∈ as, f a = .ok b
  := by
  induction as generalizing bs with
  | nil =>
    cases h
    cases hb
  | cons a as ih =>
    rw [List.mapM_cons] at h
    obtain ⟨b₁, h₁, h⟩ := bind_eq_ok.mp h
    obtain ⟨bs₁, h₂, h⟩ := bind_eq_ok.mp h
    cases h
    rcases List.mem_cons.mp hb with rfl | hmem
    · use a, List.mem_cons_self
    · obtain ⟨a', ha', hf⟩ := ih h₂ hmem
      use a', List.mem_cons_of_mem a ha'

/-- The datagrams of a peer that comes are printed ones, with an entry among them. -/
theorem onlineBroadcast_spec {cfg : Config} (hcfg : cfg.Separable) {time : UInt64}
    {cipher : List UInt8} {texts : List (List UInt8)}
    (h : onlineBroadcast cfg time cipher = .ok texts) :
  (∀ text ∈ texts, Printed cfg text) ∧ ∃ text ∈ texts, IsEntry text
  := by
  obtain ⟨bf, -, h⟩ := bind_eq_ok.mp h
  obtain ⟨groups, hgroups, h⟩ := bind_eq_ok.mp h
  cases h
  have hentry := category_length_le cfg
  constructor
  · intro text htext
    simp only [List.mem_cons] at htext
    rcases htext with htext | htext | htext
    · rw [htext]
      have hheader := @printHeader_length_le cfg 0 0 time (by decide) (by decide)
      use 0, time, 0, [0], rfl, by decide
      rw [List.length_append, List.length_singleton, sizeofBuf]
      omega
    · rw [htext]
      apply printed_printEntry cfg time (by decide) hentry
    · obtain ⟨groupId, -, hgroup⟩ := mapM_mem hgroups htext
      apply printed_announceGroup hgroup
  · refine ⟨_, List.mem_cons_of_mem _ List.mem_cons_self, ?_⟩
    rw [isEntry_printEntry hcfg time (by decide) hentry]
    decide

/-! ### The invariant -/

/-- The peer `p` knows `q` or will: an entry of `q` is under way to it, or one of its own is
under way to `q`, which does not know it and so will reply. -/
def Lan.Settled (s : Network n) (p q : Fin n) : Prop :=
  lan.Knows s p q ∨ s.Coming q p ∨ (s.Coming p q ∧ ¬ lan.Knows s q p)

/-- What is under way was printed, and the peers online are settled. -/
structure Lan.Settling (s : Network n) : Prop where
  printed : ∀ m ∈ s.flight, Printed (lan.config m.src) m.text
  settled : ∀ p q, p ≠ q → s.Online p → s.Online q → lan.Settled s p q

/-- A peer comes online known to another one only where it knows that one or will hear of
it, and an entry between peers online with the same user name is delivered to a peer that
does not know its sender only where the sender knows that peer or will hear of it. -/
def Lan.Answered (s : Network n) : Event n → Prop
  | .enter p _ _ =>
      ∀ q, q ≠ p → s.Online q → lan.Knows s q p → lan.Knows s p q ∨ s.Coming q p
  | .deliver i _ _ =>
      ∀ m ∈ s.flight[i]?, IsEntry m.text → m.src ≠ m.dst → s.Online m.src → s.Online m.dst →
        ¬ lan.Knows s m.dst m.src →
        (lan.config m.src).username.text ≠ (lan.config m.dst).username.text
          ∨ lan.Knows s m.src m.dst ∨ s.Coming m.dst m.src
  | _ => True

instance (s : Network n) (e : Event n) : Decidable (lan.Answered s e) :=
  match e with
  | .listen _ => .isTrue trivial
  | .quit _ _ => .isTrue trivial
  | .enter p _ _ => inferInstanceAs (Decidable (∀ q, q ≠ p → s.Online q → lan.Knows s q p →
      lan.Knows s p q ∨ s.Coming q p))
  | .deliver i _ _ => inferInstanceAs (Decidable (∀ m ∈ s.flight[i]?, IsEntry m.text →
      m.src ≠ m.dst → s.Online m.src → s.Online m.dst → ¬ lan.Knows s m.dst m.src →
      (lan.config m.src).username.text ≠ (lan.config m.dst).username.text
        ∨ lan.Knows s m.src m.dst ∨ s.Coming m.dst m.src))

theorem Network.setHost_self (s : Network n) (p : Fin n) (h : Host) :
  s.setHost p h p = h
  := by
  rw [setHost, Function.update_self]

theorem Network.setHost_of_ne (s : Network n) {p q : Fin n} (hne : q ≠ p) (h : Host) :
  s.setHost p h q = s.host q
  := by
  rw [setHost, Function.update_of_ne hne]

theorem mem_broadcast {p : Fin n} {texts : List (List UInt8)} {m : Packet n} :
  m ∈ broadcast p texts ↔ m.src = p ∧ m.text ∈ texts
  := by
  rw [broadcast, List.mem_flatMap]
  constructor
  · rintro ⟨q, -, hm⟩
    obtain ⟨text, htext, rfl⟩ := List.mem_map.mp hm
    use rfl
  · rintro ⟨rfl, htext⟩
    use m.dst, List.mem_finRange m.dst
    apply List.mem_map.mpr ⟨m.text, htext, rfl⟩

theorem Network.Coming.mono {s s' : Network n} (h : ∀ m ∈ s.flight, m ∈ s'.flight)
    {p q : Fin n} (hcoming : s.Coming q p) :
  s'.Coming q p
  := by
  obtain ⟨m, hm, hrest⟩ := hcoming
  use m, h m hm

/-- A delivery takes away no datagram but the delivered one. -/
theorem Network.Coming.erase {s s' : Network n} {i : Nat} {m : Packet n}
    (hi : s.flight[i]? = some m) (h : ∀ m' ∈ s.flight.eraseIdx i, m' ∈ s'.flight)
    {p q : Fin n} (hcoming : s.Coming q p) :
  s'.Coming q p ∨ (q = m.src ∧ p = m.dst ∧ IsEntry m.text)
  := by
  obtain ⟨m', hm', rfl, rfl, hentry⟩ := hcoming
  obtain ⟨j, hj⟩ := List.mem_iff_getElem?.mp hm'
  by_cases hij : j = i
  · subst hij
    rw [hi] at hj
    cases hj
    right
    use rfl, rfl
  · left
    use m', h m' (List.mem_eraseIdx_iff_getElem?.mpr ⟨j, hij, hj⟩)

/-- Where nobody learns anything and only entries to peers that know their senders are taken
away, settled peers stay so. -/
theorem Lan.Settled.kept {s s' : Network n} {p q : Fin n}
    (hknows : ∀ x y, lan.Knows s' x y ↔ lan.Knows s x y)
    (hcoming : s.Coming q p → s'.Coming q p ∨ lan.Knows s p q)
    (hcoming' : s.Coming p q → s'.Coming p q ∨ lan.Knows s q p)
    (h : lan.Settled s p q) :
  lan.Settled s' p q
  := by
  rcases h with h | h | ⟨h, hnot⟩
  · left
    apply (hknows p q).mpr h
  · rcases hcoming h with hcoming | hknown
    · right
      left
      apply hcoming
    · left
      apply (hknows p q).mpr hknown
  · right
    right
    rw [hknows q p]
    use (hcoming' h).resolve_right hnot

/-- Where only `a` learns, of `b`, from an entry that is taken away, settled peers stay so if
`b` hears back from `a`. -/
theorem Lan.Settled.learn {s s' : Network n} {a b p q : Fin n}
    (hknows : ∀ x y, lan.Knows s' x y ↔ lan.Knows s x y ∨ (x = a ∧ y = b))
    (hcoming : ∀ x y, s.Coming y x → s'.Coming y x ∨ (y = b ∧ x = a))
    (hback : p = b → q = a → s'.Coming a b ∨ lan.Knows s b a ∨ s.Coming a b)
    (hpq : p ≠ q) (h : lan.Settled s p q) :
  lan.Settled s' p q
  := by
  have hold : lan.Knows s p q → lan.Knows s' p q := fun hknown =>
    (hknows p q).mpr (Or.inl hknown)
  rcases h with h | h | ⟨h, hnot⟩
  · left
    apply hold h
  · rcases hcoming p q h with hcoming | ⟨hq, hp⟩
    · right
      left
      apply hcoming
    · left
      apply (hknows p q).mpr
      right
      use hp, hq
  · by_cases hnew : p = b ∧ q = a
    · -- the entry that would be answered is the one taken away
      obtain ⟨rfl, rfl⟩ := hnew
      rcases hback rfl rfl with hreply | hknown | hback
      · right
        left
        apply hreply
      · left
        apply hold hknown
      · right
        left
        apply (hcoming _ _ hback).resolve_right
        rintro ⟨hqp, -⟩
        apply hpq hqp.symm
    · right
      right
      constructor
      · apply (hcoming q p h).resolve_right
        apply hnew
      · rw [hknows]
        rintro (hknown | ⟨hq, hp⟩)
        · apply hnot hknown
        · apply hnew ⟨hp, hq⟩

/-! ### What a step keeps -/

section

variable {lan} {s s' : Network n}

/-- The peers online after a change of the host `p` are those before, up to `p`. -/
theorem online_setHost {p z : Fin n} {host : Host} (hhost : s'.host = s.setHost p host)
    (h : s'.Online z) :
  (z ≠ p ∧ s.Online z) ∨ (z = p ∧ host.phase = .online)
  := by
  by_cases hz : z = p
  · subst hz
    rw [Network.Online, hhost, Network.setHost_self] at h
    right
    use rfl
  · rw [Network.Online, hhost, Network.setHost_of_ne s hz] at h
    left
    use hz, h

theorem knows_setHost_of_ne {p x : Fin n} {host : Host} (hhost : s'.host = s.setHost p host)
    (hne : x ≠ p) (y : Fin n) :
  lan.Knows s' x y ↔ lan.Knows s x y
  := by
  rw [Lan.Knows, hhost, Network.setHost_of_ne s hne, Lan.Knows]

/-- A change of the phase of `p` leaves all lists alone. -/
theorem knows_setHost {p : Fin n} {phase : Phase}
    (hhost : s'.host = s.setHost p ⟨phase, (s.host p).ulist⟩) (x y : Fin n) :
  lan.Knows s' x y ↔ lan.Knows s x y
  := by
  by_cases hx : x = p
  · subst hx
    rw [Lan.Knows, hhost, Network.setHost_self, Lan.Knows]
  · apply knows_setHost_of_ne hhost hx

/-- A change of the list of `p` leaves everybody online. -/
theorem online_of_setHost {p z : Fin n} {ulist : List User}
    (hhost : s'.host = s.setHost p ⟨(s.host p).phase, ulist⟩) (h : s'.Online z) :
  s.Online z
  := by
  rcases online_setHost hhost h with ⟨-, hz⟩ | ⟨rfl, hphase⟩
  · apply hz
  · apply hphase

/-- A new address in the list of `p` is all anybody learns. -/
theorem knows_learn {p q : Fin n} {phase : Phase} {ulist : List User}
    (hhost : s'.host = s.setHost p ⟨phase, ulist⟩)
    (hips : ipaddrs ulist = ipaddrs (s.host p).ulist ++ [lan.ip q]) (x y : Fin n) :
  lan.Knows s' x y ↔ lan.Knows s x y ∨ (x = p ∧ y = q)
  := by
  by_cases hx : x = p
  · subst hx
    rw [Lan.Knows, hhost, Network.setHost_self, hips, List.mem_append, List.mem_singleton,
      lan.ip_injective.eq_iff, Lan.Knows]
    simp
  · rw [knows_setHost_of_ne hhost hx]
    simp [hx]

/-- A broadcast of printed texts leaves printed texts in flight. -/
theorem printed_broadcast {p : Fin n} {texts : List (List UInt8)} (h : lan.Settling s)
    (hflight : s'.flight = s.flight ++ broadcast p texts)
    (hprinted : ∀ text ∈ texts, Printed (lan.config p) text) :
  ∀ m ∈ s'.flight, Printed (lan.config m.src) m.text
  := by
  intro m hm
  rw [hflight] at hm
  rcases List.mem_append.mp hm with hm | hm
  · apply h.printed m hm
  · obtain ⟨rfl, htext⟩ := mem_broadcast.mp hm
    apply hprinted m.text htext

/-- Where nobody learns anything and nothing in flight is taken away, settled peers stay so. -/
theorem settled_grow {x y : Fin n} (hknows : ∀ x y, lan.Knows s' x y ↔ lan.Knows s x y)
    (hmono : ∀ m ∈ s.flight, m ∈ s'.flight) (h : lan.Settled s x y) :
  lan.Settled s' x y
  := by
  apply Lan.Settled.kept lan hknows _ _ h
  · intro hcoming
    left
    apply hcoming.mono hmono
  · intro hcoming
    left
    apply hcoming.mono hmono

theorem settling_listen {p : Fin n} (h : lan.Settling s)
    (hstep : lan.step s (.listen p) = some s') :
  lan.Settling s'
  := by
  rw [Lan.step] at hstep
  split at hstep
  case isFalse => cases hstep
  obtain ⟨hhost, hflight⟩ : s'.host = s.setHost p ⟨.listening, []⟩ ∧ s'.flight = s.flight := by
    cases hstep
    use rfl
  constructor
  · rw [hflight]
    apply h.printed
  · intro x y hxy hx hy
    rcases online_setHost hhost hx with ⟨hxp, hx⟩ | ⟨-, hphase⟩
    · rcases online_setHost hhost hy with ⟨hyp, hy⟩ | ⟨-, hphase⟩
      · have hsettled := h.settled x y hxy hx hy
        rw [Lan.Settled, Network.Coming, Network.Coming] at hsettled ⊢
        rw [knows_setHost_of_ne hhost hxp, knows_setHost_of_ne hhost hyp, hflight]
        apply hsettled
      · cases hphase
    · cases hphase

theorem settling_quit {p : Fin n} {time : UInt64} (h : lan.Settling s)
    (hstep : lan.step s (.quit p time) = some s') :
  lan.Settling s'
  := by
  rw [Lan.step] at hstep
  split at hstep
  case isFalse => cases hstep
  obtain ⟨hhost, hflight⟩ : s'.host = s.setHost p ⟨.off, (s.host p).ulist⟩ ∧ s'.flight
      = s.flight ++ broadcast p [offlineBroadcast (lan.config p) time] := by
    cases hstep
    use rfl
  have hmono : ∀ m ∈ s.flight, m ∈ s'.flight := by
    intro m hm
    rw [hflight]
    apply List.mem_append_left _ hm
  constructor
  · apply printed_broadcast h hflight
    intro text htext
    rw [List.mem_singleton.mp htext]
    apply printed_printEntry _ time (by decide) (category_length_le _)
  · intro x y hxy hx hy
    rcases online_setHost hhost hx with ⟨-, hx⟩ | ⟨-, hphase⟩
    · rcases online_setHost hhost hy with ⟨-, hy⟩ | ⟨-, hphase⟩
      · apply settled_grow (knows_setHost hhost) hmono (h.settled x y hxy hx hy)
      · cases hphase
    · cases hphase

theorem settling_enter (hsep : ∀ p, (lan.config p).Separable) {p : Fin n} {time : UInt64}
    {cipher : List UInt8} (h : lan.Settling s) (hcond : lan.Answered s (.enter p time cipher))
    (hstep : lan.step s (.enter p time cipher) = some s') :
  lan.Settling s'
  := by
  rw [Lan.step] at hstep
  split at hstep
  case isFalse => cases hstep
  split at hstep
  case h_1 => cases hstep
  rename_i texts htexts
  obtain ⟨hhost, hflight⟩ : s'.host = s.setHost p ⟨.online, (s.host p).ulist⟩
      ∧ s'.flight = s.flight ++ broadcast p texts := by
    cases hstep
    use rfl
  obtain ⟨hprinted, text, htext, hentry⟩ := onlineBroadcast_spec (hsep p) htexts
  have hmono : ∀ m ∈ s.flight, m ∈ s'.flight := by
    intro m hm
    rw [hflight]
    apply List.mem_append_left _ hm
  have hnew : ∀ q, s'.Coming p q := by
    intro q
    use ⟨p, q, text⟩
    rw [hflight]
    use List.mem_append_right _ (mem_broadcast.mpr ⟨rfl, htext⟩)
  constructor
  · apply printed_broadcast h hflight hprinted
  · intro x y hxy hx hy
    rcases online_setHost hhost hy with ⟨-, hy⟩ | ⟨rfl, -⟩
    · rcases online_setHost hhost hx with ⟨-, hx⟩ | ⟨rfl, -⟩
      · apply settled_grow (knows_setHost hhost) hmono (h.settled x y hxy hx hy)
      · -- the peer that comes is not known to `y`, or hears of it
        rw [Lan.Settled, knows_setHost hhost, knows_setHost hhost]
        by_cases hknown : lan.Knows s y x
        · rcases hcond y (Ne.symm hxy) hy hknown with hknows | hcoming
          · left
            apply hknows
          · right
            left
            apply hcoming.mono hmono
        · right
          right
          use hnew y
    · right
      left
      apply hnew x

/-- A delivery to a peer that is off takes a datagram away. -/
theorem settling_drop {i : Nat} {m : Packet n} (h : lan.Settling s)
    (hi : s.flight[i]? = some m) (hoff : (s.host m.dst).phase = .off) :
  lan.Settling ⟨s.host, s.flight.eraseIdx i⟩
  := by
  constructor
  · intro m' hm'
    apply h.printed m' (List.mem_of_mem_eraseIdx hm')
  · intro x y hxy hx hy
    have hne : ∀ z, s.Online z → z ≠ m.dst := by
      rintro z hz rfl
      rw [Network.Online, hoff] at hz
      cases hz
    have hknows : ∀ x y, lan.Knows ⟨s.host, s.flight.eraseIdx i⟩ x y ↔ lan.Knows s x y :=
      fun _ _ => Iff.rfl
    apply Lan.Settled.kept lan hknows _ _ (h.settled x y hxy hx hy)
    · intro hcoming
      left
      apply (hcoming.erase hi fun _ h => h).resolve_right
      rintro ⟨-, hdst, -⟩
      apply hne x hx hdst
    · intro hcoming
      left
      apply (hcoming.erase hi fun _ h => h).resolve_right
      rintro ⟨-, hdst, -⟩
      apply hne y hy hdst

/-- A delivery that teaches its receiver nothing: no entry, or one of a known sender. -/
theorem settling_known {i : Nat} {m : Packet n} {ulist : List User} (h : lan.Settling s)
    (hi : s.flight[i]? = some m) (hips : ipaddrs ulist = ipaddrs (s.host m.dst).ulist)
    (hknown : IsEntry m.text → lan.Knows s m.dst m.src) :
  lan.Settling ⟨s.setHost m.dst ⟨(s.host m.dst).phase, ulist⟩, s.flight.eraseIdx i⟩
  := by
  obtain ⟨s', hs'⟩ : ∃ s' : Network n, s'
    = ⟨s.setHost m.dst ⟨(s.host m.dst).phase, ulist⟩, s.flight.eraseIdx i⟩ := ⟨_, rfl⟩
  have hhost : s'.host = s.setHost m.dst ⟨(s.host m.dst).phase, ulist⟩ := by rw [hs']
  have hflight : s'.flight = s.flight.eraseIdx i := by rw [hs']
  rw [← hs']
  have hknows : ∀ x y, lan.Knows s' x y ↔ lan.Knows s x y := by
    intro x y
    by_cases hx : x = m.dst
    · subst hx
      rw [Lan.Knows, hhost, Network.setHost_self, hips, Lan.Knows]
    · apply knows_setHost_of_ne hhost hx
  have hcoming : ∀ x y, s.Coming y x → s'.Coming y x ∨ lan.Knows s x y := by
    intro x y hcoming
    have herase : ∀ m' ∈ s.flight.eraseIdx i, m' ∈ s'.flight := by
      intro m' hm'
      rw [hflight]
      apply hm'
    rcases hcoming.erase hi herase with h | ⟨rfl, rfl, h⟩
    · left
      apply h
    · right
      apply hknown h
  constructor
  · intro m' hm'
    rw [hflight] at hm'
    apply h.printed m' (List.mem_of_mem_eraseIdx hm')
  · intro x y hxy hx hy
    apply Lan.Settled.kept lan hknows (hcoming x y) (hcoming y x)
      (h.settled x y hxy (online_of_setHost hhost hx) (online_of_setHost hhost hy))

/-- A delivery of an entry to a peer that does not know its sender. -/
theorem settling_new {i : Nat} {m : Packet n} {ulist : List User} {reply : Option (List UInt8)}
    (h : lan.Settling s) (hi : s.flight[i]? = some m)
    (hips : ipaddrs ulist = ipaddrs (s.host m.dst).ulist ++ [lan.ip m.src])
    (hprinted : ∀ text ∈ reply, Printed (lan.config m.dst) text)
    (hreply : m.src ≠ m.dst → s.Online m.src → s.Online m.dst →
      (∃ text ∈ reply, IsEntry text) ∨ lan.Knows s m.src m.dst ∨ s.Coming m.dst m.src) :
  lan.Settling ⟨s.setHost m.dst ⟨(s.host m.dst).phase, ulist⟩, s.flight.eraseIdx i
    ++ reply.toList.map fun text => ⟨m.dst, m.src, text⟩⟩
  := by
  obtain ⟨s', hs'⟩ : ∃ s' : Network n, s' = ⟨s.setHost m.dst ⟨(s.host m.dst).phase, ulist⟩,
    s.flight.eraseIdx i ++ reply.toList.map fun text => ⟨m.dst, m.src, text⟩⟩ := ⟨_, rfl⟩
  have hhost : s'.host = s.setHost m.dst ⟨(s.host m.dst).phase, ulist⟩ := by rw [hs']
  have hflight : s'.flight = s.flight.eraseIdx i
      ++ reply.toList.map fun text => ⟨m.dst, m.src, text⟩ := by rw [hs']
  rw [← hs']
  have hcoming : ∀ x y, s.Coming y x → s'.Coming y x ∨ (y = m.src ∧ x = m.dst) := by
    intro x y hcoming
    have herase : ∀ m' ∈ s.flight.eraseIdx i, m' ∈ s'.flight := by
      intro m' hm'
      rw [hflight]
      apply List.mem_append_left _ hm'
    rcases hcoming.erase hi herase with h | ⟨rfl, rfl, -⟩
    · left
      apply h
    · right
      use rfl
  constructor
  · intro m' hm'
    rw [hflight] at hm'
    rcases List.mem_append.mp hm' with hm' | hm'
    · apply h.printed m' (List.mem_of_mem_eraseIdx hm')
    · obtain ⟨text, htext, rfl⟩ := List.mem_map.mp hm'
      apply hprinted text (Option.mem_toList.mp htext)
  · intro x y hxy hx hy
    have hx' := online_of_setHost hhost hx
    have hy' := online_of_setHost hhost hy
    apply Lan.Settled.learn lan (knows_learn hhost hips) hcoming _ hxy (h.settled x y hxy hx' hy')
    rintro rfl rfl
    rcases hreply hxy hx' hy' with ⟨text, htext, hentry⟩ | hrest
    · left
      use ⟨m.dst, m.src, text⟩
      rw [hflight]
      refine ⟨List.mem_append_right _ ?_, rfl, rfl, hentry⟩
      apply List.mem_map.mpr ⟨text, Option.mem_toList.mpr htext, rfl⟩
    · right
      apply hrest

theorem settling_deliver (hsep : ∀ p, (lan.config p).Separable) {i : Nat} {time : UInt64}
    {beyond : List UInt8} (h : lan.Settling s)
    (hcond : lan.Answered s (.deliver i time beyond))
    (hstep : lan.step s (.deliver i time beyond) = some s') :
  lan.Settling s'
  := by
  rw [Lan.step] at hstep
  split at hstep
  case h_1 => cases hstep
  rename_i m hi
  split at hstep
  case isTrue hoff =>
    cases hstep
    apply settling_drop h hi hoff
  split at hstep
  case h_1 => cases hstep
  rename_i ulist reply hprocess
  cases hstep
  obtain ⟨size, time', cmd, data, htext, hcmd, hlength⟩ :=
    h.printed m (List.mem_of_getElem? hi)
  have hentry := isEntry_printHeader (hsep m.src) hcmd (htext ▸ hlength)
  rw [← htext] at hentry
  rw [htext] at hprocess hlength
  rcases processEntry_printHeader (hsep m.src) hcmd hlength hprocess with
    ⟨hother, rfl, rfl⟩ | ⟨hcommand, hmem, hips, rfl⟩ | ⟨hcommand, hmem, hips, hreply⟩
  · rw [Option.toList_none, List.map_nil, List.append_nil]
    apply settling_known h hi rfl
    intro hm
    apply absurd (hentry.mp hm) hother
  · rw [Option.toList_none, List.map_nil, List.append_nil]
    apply settling_known h hi hips
    intro _
    apply hmem
  · have hprinted := printed_reply (lan.config m.dst) time
    have hisEntry := isEntry_reply (hsep m.dst) time
    apply settling_new h hi hips
    · intro text htext
      rw [hreply] at htext
      split at htext
      · rw [← Option.some.inj htext]
        apply hprinted
      · cases htext
    · intro hne hsrc hdst
      rcases hcond m (by rw [hi]; rfl) (hentry.mpr hcommand) hne hsrc hdst hmem with
        hname | hrest
      · left
        refine ⟨printEntry (lan.config m.dst) time 0x103, ?_, hisEntry⟩
        rw [hreply, if_pos hname]
        rfl
      · right
        apply hrest

end

/-! ### Runs -/

/-- A step that answers its entries keeps the peers settled. -/
theorem settling_step (hsep : ∀ p, (lan.config p).Separable) {s s' : Network n} {e : Event n}
    (h : lan.Settling s) (hcond : lan.Answered s e) (hstep : lan.step s e = some s') :
  lan.Settling s'
  := by
  cases e with
  | listen p => apply settling_listen h hstep
  | enter p time cipher => apply settling_enter hsep h hcond hstep
  | quit p time => apply settling_quit h hstep
  | deliver i time beyond => apply settling_deliver hsep h hcond hstep

/-- Along a run that answers its entries, whenever no datagram is under way, any two peers
online have each other's address in their lists. -/
theorem run_discovers (hsep : ∀ p, (lan.config p).Separable) {es : List (Event n)}
    {os : List Unit} {s : Network n}
    (hmeets : lan.machine.Meets lan.Answered (Network.start n) es)
    (hrun : lan.machine.run (Network.start n) es = some (os, s)) (hquiet : s.flight = [])
    {p q : Fin n} (hpq : p ≠ q) (hp : s.Online p) (hq : s.Online q) :
  lan.Knows s p q ∧ lan.Knows s q p
  := by
  have hsettling : lan.Settling s := by
    apply lan.machine.run_invariant _ _ hmeets hrun
    · intro s e o s' h hcond hstep
      obtain ⟨s₁, hs₁, heq⟩ := Option.map_eq_some_iff.mp hstep
      cases heq
      apply settling_step lan hsep h hcond hs₁
    · constructor
      · rintro m ⟨⟩
      · rintro x y - ⟨⟩
  have hnone : ∀ x y, ¬ s.Coming x y := by
    rintro x y ⟨m, hm, -⟩
    rw [hquiet] at hm
    cases hm
  have hknows : ∀ x y, lan.Settled s x y → lan.Knows s x y := by
    rintro x y (h | h | ⟨h, -⟩)
    · apply h
    · apply absurd h (hnone y x)
    · apply absurd h (hnone x y)
  use hknows p q (hsettling.settled p q hpq hp hq)
  apply hknows q p (hsettling.settled q p hpq.symm hq hp)

/-! ### Two peers -/

/-- Two peers with names, all of whose texts are ASCII ones. -/
def twoPeers : Lan 2 where
  config p := if p = 0 then configA else configB
  ip p := if p = 0 then ascii "10.0.0.1" else ascii "10.0.0.2"
  ip_injective := by decide
  port := 2425
  glib := asciiGlib

/-- The first datagram under way is delivered `k` times. -/
def deliveries (k : Nat) : List (Event 2) := List.replicate k (.deliver 0 0 [0])

/-- Both peers come online, and all datagrams are delivered. -/
def meeting : List (Event 2) :=
  [.listen 0, .listen 1, .enter 0 0 []] ++ deliveries 6 ++ [.enter 1 0 []] ++ deliveries 4

theorem twoPeers_separable (p : Fin 2) :
  (twoPeers.config p).Separable
  := by
  constructor <;> (revert p; decide)

theorem run_discovers_two :
  ∃ os s, twoPeers.machine.run (Network.start 2) meeting = some (os, s)
    ∧ twoPeers.Knows s 0 1 ∧ twoPeers.Knows s 1 0
  := by
  have hmeets : twoPeers.machine.Meets twoPeers.Answered (Network.start 2) meeting := by
    decide +kernel
  have hany : ((twoPeers.machine.run (Network.start 2) meeting).any fun r =>
      decide (r.2.flight.isEmpty ∧ r.2.Online 0 ∧ r.2.Online 1)) = true := by decide +kernel
  obtain ⟨⟨os, s⟩, hrun, hs⟩ := (Option.any_eq_true _ _).mp hany
  obtain ⟨hquiet, hp, hq⟩ := of_decide_eq_true hs
  use os, s, hrun
  apply run_discovers twoPeers twoPeers_separable hmeets hrun (List.isEmpty_iff.mp hquiet)
    (by decide) hp hq

/-- A peer that quits and comes back, still listed by the other one, gets no reply: all
datagrams are delivered, both peers are online, and it does not know the other one. -/
theorem restart_undiscovered :
  ∃ os s, twoPeers.machine.run (Network.start 2)
      (meeting ++ [.quit 0 0, .listen 0, .enter 0 0 []] ++ deliveries 6) = some (os, s)
    ∧ s.flight = [] ∧ s.Online 0 ∧ s.Online 1 ∧ ¬ twoPeers.Knows s 0 1
  := by
  have hany : ((twoPeers.machine.run (Network.start 2)
      (meeting ++ [.quit 0 0, .listen 0, .enter 0 0 []] ++ deliveries 6)).any fun r =>
      decide (r.2.flight.isEmpty ∧ r.2.Online 0 ∧ r.2.Online 1 ∧ ¬ twoPeers.Knows r.2 0 1))
      = true := by decide +kernel
  obtain ⟨⟨os, s⟩, hrun, hs⟩ := (Option.any_eq_true _ _).mp hany
  obtain ⟨hquiet, hp, hq, hnot⟩ := of_decide_eq_true hs
  use os, s, hrun, List.isEmpty_iff.mp hquiet, hp, hq

end Peer

end IFreeChat
