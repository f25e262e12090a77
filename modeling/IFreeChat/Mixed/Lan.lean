import IFreeChat.Mixed.IfcHost

/-!
# A network of both programs

Hosts that run either program send each other datagrams, which can be lost, doubled and
overtaken by others.  Every private message a host comes to hold is one that a user of the host
at its address entered, with the text as it was entered, and for an address that reaches the
one that holds it (`private_texts_authentic`).
-/

open Basis

namespace IFreeChat

open Peer (Glib)
open ReceiveLoop (Callbacks)

namespace Mixed

/-- A host runs one of the programs. -/
abbrev Host (σ : Type) := IfcHost σ ⊕ PeerHost

/-- The hosts of a network: the contacts of the one program and GLib, the address of each host,
and the hosts an address reaches, which are all of them for that of a broadcast. -/
structure Lan (ι σ : Type) where
  callbacks : Callbacks σ
  glib : Glib
  addr : ι → List UInt8
  reaches : List UInt8 → ι → Bool

section

variable {ι σ : Type}

/-- The network of the hosts. -/
def Lan.network (lan : Lan ι σ) : Network ι (Host σ) (IfcEvent ⊕ PeerEvent) Arrival
    (List UInt8) (List UInt8) (List UInt8) where
  node _ := (ifcNode lan.callbacks lan.glib).sum (peerNode lan.glib)
  account _ := ifcAccount.sum peerAccount
  addr := lan.addr
  reaches := lan.reaches

/-- A host that has just started, with strings that have no separators. -/
def Starts : Host σ → Prop
  | .inl h => SeparableSender h.sender ∧ h.loop = ReceiveLoop.start h.loop.contacts h.loop.others
  | .inr h => Separable h.cfg ∧ h.client = Peer.Client.start

/-- A private message from an address with a text is in a list of the host, or about to be. -/
def Holds (h : Host σ) (ip text : List UInt8) : Prop :=
  Sum.elim IfcHost.Holds PeerHost.Holds h ip text

theorem ifc_start_good {h : IfcHost σ} (hsender : SeparableSender h.sender)
    (hstart : h.loop = ReceiveLoop.start h.loop.contacts h.loop.others) :
  h.Good
  where
  sender := hsender
  held id hid := by
    rw [hstart] at hid
    rcases hid with ⟨⟨⟩⟩ | ⟨⟨⟩⟩
  text id hid := by
    rw [hstart] at hid
    cases hid

theorem peer_start_good {h : PeerHost} (hcfg : Separable h.cfg)
    (hstart : h.client = Peer.Client.start) :
  h.Good
  where
  cfg := hcfg
  names id b hb := by
    rw [hstart] at hb
    cases hb
  texts id b hb := by
    rw [hstart] at hb
    cases hb
  group id hid := by
    rw [hstart] at hid
    cases hid

theorem starts_good {h : Host σ} (hstart : Starts h) :
  (ifcAccount.sum peerAccount).Good h
  := by
  rcases h with h | h
  · apply ifc_start_good hstart.1 hstart.2
  · apply peer_start_good hstart.1 hstart.2

theorem starts_holds_none {h : Host σ} (hstart : Starts h) (ip text : List UInt8) :
  ¬ Holds h ip text
  := by
  rintro hholds
  rcases h with h | h
  · obtain ⟨id, b, hb, -⟩ := hholds
    rw [hstart.2] at hb
    cases hb
  · obtain ⟨id, b, hb, -⟩ := hholds
    rw [hstart.2] at hb
    cases hb

/-- Along every run of the hosts, whatever of their events and of the datagrams come in which
order, how often and whether at all, the private messages a host holds from an address have
texts that, among these events, the user of a host at this address entered for an address that
reaches it. -/
theorem private_texts_authentic [DecidableEq ι] (lan : Lan ι σ)
    (hglib : ∀ s, IsUtf8 s → lan.glib.utf8Validate s = true) {host : ι → Host σ}
    (hstart : ∀ p, Starts (host p)) {es : List (Network.Event ι (IfcEvent ⊕ PeerEvent) Arrival)}
    {os : List Unit} {s : Network.State ι (Host σ) (List UInt8) (List UInt8) (List UInt8)}
    (hmeets : lan.network.machine.Meets lan.network.May (Network.start host) es)
    (hrun : lan.network.machine.run (Network.start host) es = some (os, s)) {q : ι}
    {ip text : List UInt8} (hholds : Holds (s.host q) ip text) :
  ∃ p dst, lan.addr p = ip ∧ lan.reaches dst q = true
    ∧ lan.network.AsksAmong host es p dst text
  := by
  have hfaithful : ∀ p, (lan.network.node p).Faithful (lan.network.account p) format :=
    fun _ => (ifcNode_faithful hglib).sum (peerNode_faithful hglib)
  apply Network.run_authentic hfaithful (fun p => starts_good (hstart p))
    (fun p ip text => starts_holds_none (hstart p) ip text) hmeets hrun hholds

end

/-- The address of one of two hosts. -/
def sampleAddr : Bool → List UInt8
  | false => ascii "10.0.0.1"
  | true => ascii "10.0.0.2"

/-- Two hosts, the first of which runs the program under `ifc/`. -/
def sampleLan : Lan Bool (Contacts.State Contacts.Table Contacts.Table) where
  callbacks := ReceiveLoop.sampleCallbacks
  glib := Peer.asciiGlib
  addr := sampleAddr
  reaches dst q := dst = sampleAddr q

/-- Its hosts when they start. -/
def sampleHosts : Bool → Host (Contacts.State Contacts.Table Contacts.Table)
  | false => .inl {
      sender := Peer.senderA
      nickname := Peer.configA.nickname
      category := Peer.configA.category
      loop := ReceiveLoop.start (Contacts.start Contacts.userTable Contacts.categoryTable) [] }
  | true => .inr { cfg := Peer.configB, multicastIp := MULTICAST_ADDR, client := Peer.Client.start }

/-- A text from the first host to the second. -/
def sampleEvents : List (Network.Event Bool (IfcEvent ⊕ PeerEvent) Arrival) :=
  [.act false (.inl (.send Peer.zeroStack (some 0) 1 1 ⟨ascii "10.0.0.2", by decide, by decide⟩
      (ascii "hi"))),
    .deliver true 0 { port := 2425, mtime := 0, ip := 0, beyond := 0, block := none }]

/-- The commands, addresses and texts in the blocks of a host that runs the program under
`src/`. -/
def blockTexts {σ : Type} : Host σ → List (List UInt8 × List UInt8 × List UInt8)
  | .inl _ => []
  | .inr h => h.client.heap.map fun b => (b.msg.cmd, b.msg.ip, untilNul b.msg.data)

theorem sampleHosts_start (p : Bool) :
  Starts (sampleHosts p)
  := by
  cases p with
  | false =>
    refine ⟨⟨by decide, by decide, by decide, by decide, ?_⟩, rfl⟩
    decide +kernel
  | true => exact ⟨⟨⟨by decide, by decide, by decide⟩, by decide⟩, rfl⟩

theorem private_texts_authentic_hi :
  ∃ os s, sampleLan.network.machine.run (Network.start sampleHosts) sampleEvents = some (os, s)
    ∧ Holds (s.host true) (ascii "10.0.0.1") (ascii "hi")
    ∧ ∃ p dst, sampleAddr p = ascii "10.0.0.1" ∧ sampleLan.reaches dst true = true
      ∧ sampleLan.network.AsksAmong sampleHosts sampleEvents p dst (ascii "hi")
  := by
  have hends : (sampleLan.network.machine.run (Network.start sampleHosts) sampleEvents).map
      (fun r => blockTexts (r.2.host true))
        = some [(ascii "288", ascii "10.0.0.1", ascii "hi")] := by
    decide +kernel
  obtain ⟨⟨os, s⟩, hrun, htexts⟩ := Option.map_eq_some_iff.mp hends
  have hutf8 : IsUtf8 (ascii "hi") := isUtf8_of_ascii (by decide +kernel)
  have hmeets : sampleLan.network.machine.Meets sampleLan.network.May (Network.start sampleHosts)
      sampleEvents :=
    ⟨⟨by decide, hutf8⟩, fun _ _ _ => ⟨trivial, fun _ _ _ => trivial⟩⟩
  have hholds : Holds (s.host true) (ascii "10.0.0.1") (ascii "hi") := by
    simp only at htexts
    cases hhost : s.host true with
    | inl h =>
      rw [hhost] at htexts
      cases htexts
    | inr h =>
      rw [hhost, blockTexts] at htexts
      have hfirst := congrArg (fun l => l[0]?) htexts
      rw [List.getElem?_map] at hfirst
      obtain ⟨b, hb, heq⟩ := Option.map_eq_some_iff.mp hfirst
      simp only [Prod.mk.injEq] at heq
      obtain ⟨hcmd, hip, htext⟩ := heq
      have hprivate : IsPrivate (ascii "288") := by decide +kernel
      exact ⟨0, b, hb, hcmd ▸ hprivate, hip, htext⟩
  refine ⟨os, s, hrun, hholds, ?_⟩
  exact private_texts_authentic sampleLan (fun _ _ => rfl) sampleHosts_start hmeets hrun hholds

end Mixed

end IFreeChat
