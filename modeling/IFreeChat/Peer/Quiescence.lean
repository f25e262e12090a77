import IFreeChat.Peer.Discovery
import IFreeChat.Peer.Replies

/-!
# The end of discovery

Deliveries cause replies, and replies are delivered.  Every delivery takes a datagram from
those under way, and puts a reply in its place only where its receiver learns an address it
did not list; so the datagrams under way and the addresses not listed become fewer together
(`deliver_rank`), whatever is under way.

Of any deliveries that follow a run of a network whose peers have different user names there
are at most as many as there are datagrams under way and pairs of peers; as long as a datagram
is under way it can be delivered; and once none is, all peers online know each other
(`deliveries_settle`).
-/

open Basis

namespace IFreeChat

open Feiq (sharp)

namespace Peer

variable {n : Nat} (lan : Lan n)

/-- The event is a delivery. -/
def Event.IsDelivery : Event n → Prop
  | .deliver _ _ _ => True
  | _ => False

instance : ∀ e : Event n, Decidable e.IsDelivery
  | .deliver _ _ _ => .isTrue trivial
  | .listen _ => .isFalse id
  | .enter _ _ _ => .isFalse id
  | .quit _ _ => .isFalse id

/-- The pairs of peers of which the first one does not list the second one. -/
def Lan.unlisted (s : Network n) : Finset (Fin n × Fin n) :=
  Finset.univ.filter fun pq => ¬ lan.Knows s pq.1 pq.2

/-- The datagrams under way and the addresses not listed. -/
def Lan.rank (s : Network n) : Nat := s.flight.length + (lan.unlisted s).card

/-! ### Every delivery counts -/

section

variable {lan} {s s' : Network n}

theorem mem_unlisted {p q : Fin n} :
  (p, q) ∈ lan.unlisted s ↔ ¬ lan.Knows s p q
  := by
  simp [Lan.unlisted]

theorem unlisted_card_le (s : Network n) :
  (lan.unlisted s).card ≤ n * n
  := by
  have hle := (lan.unlisted s).card_le_univ
  rw [Fintype.card_prod, Fintype.card_fin] at hle
  apply hle

theorem unlisted_card_le_of_knows (h : ∀ p q, lan.Knows s p q → lan.Knows s' p q) :
  (lan.unlisted s').card ≤ (lan.unlisted s).card
  := by
  apply Finset.card_le_card
  rintro ⟨p, q⟩ hmem
  rw [mem_unlisted] at hmem ⊢
  intro hknows
  apply hmem (h p q hknows)

/-- A peer that learns an address. -/
theorem unlisted_card_lt_of_learns (h : ∀ p q, lan.Knows s p q → lan.Knows s' p q)
    {p q : Fin n} (hnot : ¬ lan.Knows s p q) (hlearns : lan.Knows s' p q) :
  (lan.unlisted s').card < (lan.unlisted s).card
  := by
  apply Finset.card_lt_card
  rw [Finset.ssubset_iff_of_subset]
  · use (p, q), mem_unlisted.mpr hnot
    rw [mem_unlisted]
    apply not_not_intro hlearns
  · rintro ⟨x, y⟩ hmem
    rw [mem_unlisted] at hmem ⊢
    intro hknows
    apply hmem (h x y hknows)

/-- What any datagram does to the user list: it keeps the addresses and is not answered, or
adds the one it came from, which was not listed. -/
theorem processEntry_ipaddrs {glib : Glib} {cfg : Config} {time : UInt64} {beyond ip : List UInt8}
    {ulist ulist' : List User} {port : UInt16} {datagram : List UInt8} {reply : Option (List UInt8)}
    (h : processEntry glib cfg time beyond ulist ip port datagram = .ok (ulist', reply)) :
  (ipaddrs ulist' = ipaddrs ulist ∧ reply = none)
    ∨ (ip ∉ ipaddrs ulist ∧ ipaddrs ulist' = ipaddrs ulist ++ [ip])
  := by
  obtain ⟨msg, hparse, h⟩ := bind_eq_ok.mp h
  have hip := parseMessage_ip hparse
  split at h
  · cases hversion : (ascii "1_iptux").isPrefixOf msg.version with
    | true =>
      rw [onBuddyEntry, if_pos hversion] at h
      cases h
      left
      exact ⟨rfl, rfl⟩
    | false =>
      rcases onBuddyEntry_eq_ok hversion h with ⟨-, hips, rfl⟩ | ⟨hmem, hips, -⟩
      · left
        exact ⟨hips, rfl⟩
      · right
        rw [hip] at hmem hips
        exact ⟨hmem, hips⟩
  · cases h
    left
    exact ⟨rfl, rfl⟩

/-- Every delivery lowers the rank. -/
theorem deliver_rank {i : Nat} {time : UInt64} {beyond : List UInt8}
    (hstep : lan.step s (.deliver i time beyond) = some s') :
  lan.rank s' < lan.rank s
  := by
  rw [Lan.step] at hstep
  split at hstep
  case h_1 => cases hstep
  rename_i m hi
  obtain ⟨hlt, -⟩ := List.getElem?_eq_some_iff.mp hi
  have herase := List.length_eraseIdx_add_one hlt
  split at hstep
  case isTrue hoff =>
    cases hstep
    have hsame : lan.unlisted ⟨s.host, s.flight.eraseIdx i⟩ = lan.unlisted s := rfl
    rw [Lan.rank, Lan.rank, hsame]
    apply Nat.add_lt_add_right
    simp only
    omega
  split at hstep
  case h_1 => cases hstep
  rename_i ulist reply hprocess
  obtain ⟨s₁, hs₁⟩ : ∃ s₁ : Network n, s₁
    = ⟨s.setHost m.dst { s.host m.dst with ulist }, s.flight.eraseIdx i
        ++ reply.toList.map fun text => ⟨m.dst, m.src, text⟩⟩ := ⟨_, rfl⟩
  rw [← hs₁] at hstep
  cases hstep
  have hhost : s'.host = s.setHost m.dst ⟨(s.host m.dst).phase, ulist⟩ := by rw [hs₁]
  have hflight : s'.flight.length = s.flight.length - 1 + reply.toList.length := by
    rw [hs₁, List.length_append, List.length_map]
    omega
  have hkeep : ∀ x y, ipaddrs (s.host m.dst).ulist ⊆ ipaddrs ulist →
      lan.Knows s x y → lan.Knows s' x y := by
    intro x y hsub hknows
    by_cases hx : x = m.dst
    · subst hx
      rw [Lan.Knows, hhost, Network.setHost_self]
      apply hsub hknows
    · apply (knows_setHost_of_ne hhost hx y).mpr hknows
  rw [Lan.rank, Lan.rank, hflight]
  rcases processEntry_ipaddrs hprocess with ⟨hips, rfl⟩ | ⟨hmem, hips⟩
  · have hle := unlisted_card_le_of_knows fun x y =>
      hkeep x y (by rw [hips]; apply List.Subset.refl)
    rw [Option.toList_none, List.length_nil]
    omega
  · have hlearns : lan.Knows s' m.dst m.src := by
      rw [Lan.Knows, hhost, Network.setHost_self, hips]
      apply List.mem_append_right _ List.mem_cons_self
    have hlt' := unlisted_card_lt_of_learns
      (fun x y => hkeep x y (by rw [hips]; apply List.subset_append_left)) hmem hlearns
    have hreply : reply.toList.length ≤ 1 := by
      cases reply <;> simp
    omega

end

/-! ### No delivery is stuck -/

/-- Up to its first sharp, a text with one behind it is no longer than the text. -/
theorem exists_before_sharp (s rest : List UInt8) :
  ∃ before after, s ++ sharp :: rest = before ++ sharp :: after ∧ sharp ∉ before
    ∧ before.length ≤ s.length
  := by
  have hmem : sharp ∈ s ++ sharp :: rest := List.mem_append_right s List.mem_cons_self
  obtain ⟨before, after, htext, hnot⟩ := List.eq_append_cons_of_mem hmem
  refine ⟨before, after, htext, hnot, ?_⟩
  rcases List.append_eq_append_iff.mp htext with ⟨as, rfl, has⟩ | ⟨bs, rfl, -⟩
  · cases as with
    | nil => simp
    | cons x as =>
      -- the sharp behind `s` would be one of those before the first
      cases has
      simp at hnot
  · simp

/-- A printed version gives a hardware address that fits its array. -/
theorem getMac_printVersion (cfg : Config) (size : Nat) (rest : List UInt8) :
  ∃ macaddr, getMacFromVersion (printVersion cfg size ++ rest) = .ok macaddr
    ∧ macaddr.length < 20
  := by
  obtain ⟨mac, after, htext, hmac, hle⟩ :=
    exists_before_sharp cfg.macaddr.text (ascii "0#0#" ++ numeral 10 size ++ rest)
  have hhead : (ascii "1_lbt").isPrefixOf (printVersion cfg size ++ rest) = true := by
    simp only [printVersion, List.append_assoc]
    rfl
  have hversion : printVersion cfg size ++ rest
      = (ascii "1_lbt4_" ++ decimal cfg.avatarId.toInt) ++ sharp :: (ascii "128" ++ sharp ::
        (mac ++ sharp :: after)) := by
    have hmodel : ascii "#128#" = sharp :: (ascii "128" ++ [sharp]) := rfl
    have hzeros : ascii "#0#0#" = sharp :: ascii "0#0#" := rfl
    rw [← htext]
    simp only [printVersion, hmodel, hzeros, List.append_assoc, List.cons_append, List.nil_append]
  have hsharp : sharp ∉ ascii "1_lbt4_" ++ decimal cfg.avatarId.toInt := by
    rw [List.mem_append, not_or]
    exact ⟨by decide, not_mem_decimal _ (by decide) (by decide)⟩
  have hnul : 0 ∉ ascii "1_lbt4_" ++ decimal cfg.avatarId.toInt := by
    rw [List.mem_append, not_or]
    exact ⟨by decide, not_mem_decimal _ (by decide) (by decide)⟩
  refine ⟨mac, ?_, Nat.lt_of_le_of_lt hle cfg.macaddr.fits⟩
  rw [getMacFromVersion, Feiq.getMacFromVersion, hhead]
  simp only [Bool.not_true, Bool.false_eq_true, if_false]
  rw [hversion]
  refine bind_eq_ok.mpr ⟨_, search_append hsharp hnul, ?_⟩
  refine bind_eq_ok.mpr ⟨_, search_append (by decide : sharp ∉ ascii "128") (by decide), ?_⟩
  apply copyUpTo_append hmac

/-- A printed entry describes a user wherever a terminator lies behind its block. -/
theorem entryUser_printedMsg (glib : Glib) {beyond : List UInt8} (hbeyond : 0 ∈ beyond)
    (cfg : Config) (ip : List UInt8) (port : UInt16) (size : Nat) (time : UInt64) (cmd : Nat)
    (data : List UInt8) :
  ∃ user, entryUser glib beyond (printedMsg cfg ip port size time cmd data) = .ok user
  := by
  obtain ⟨nickname, p, hdata, hnickname⟩ :=
    List.eq_append_cons_of_mem (List.mem_append_right data (List.mem_singleton_self (0 : UInt8)))
  obtain ⟨category, rest, hp, hcategory⟩ :=
    List.eq_append_cons_of_mem (List.mem_append_right p hbeyond)
  obtain ⟨avatarId, havatar, -⟩ := Feiq.getAvatarId_total (printVersion cfg size)
  obtain ⟨macaddr, hmac, hlt⟩ := getMac_printVersion cfg size
    (0 :: (numeral 10 time.toNat ++ 0 :: (cfg.username.text ++ 0 :: (cfg.hostname.text ++ 0 ::
      (numeral 10 cmd ++ 0 :: (data ++ [0] ++ beyond))))))
  have hmemory : data ++ [0] ++ beyond = nickname ++ 0 :: (p ++ beyond) := by
    rw [hdata, List.append_assoc, List.cons_append]
  have hfirst : cString ((printedMsg cfg ip port size time cmd data).data ++ beyond)
      = .ok (nickname, p ++ beyond) := by
    rw [printedMsg, hmemory]
    apply cString_append hnickname
  have hsecond : cString (p ++ beyond) = .ok (category, rest) := by
    rw [hp]
    apply cString_append hcategory
  rw [entryUser]
  simp only [bind_eq_ok]
  exact ⟨_, (nickname, p ++ beyond), hfirst, (category, rest), hsecond, avatarId, havatar, macaddr,
    hmac, if_neg (Nat.not_le_of_lt hlt)⟩

section

variable {lan} {s : Network n}

/-- A printed datagram can be delivered wherever a terminator lies behind its block. -/
theorem deliver_returns (hsep : ∀ p, (lan.config p).Separable) {i : Nat} (hi : i < s.flight.length)
    (hprinted : ∀ m ∈ s.flight, Printed (lan.config m.src) m.text) (time : UInt64)
    {beyond : List UInt8} (hbeyond : 0 ∈ beyond) :
  ∃ s', lan.step s (.deliver i time beyond) = some s'
  := by
  obtain ⟨m, hm⟩ : ∃ m, s.flight[i]? = some m := ⟨_, List.getElem?_eq_getElem hi⟩
  by_cases hoff : (s.host m.dst).phase = .off
  · exact ⟨_, by simp only [Lan.step, hm, if_pos hoff]; rfl⟩
  · obtain ⟨size, time', cmd, data, htext, hcmd, hlength⟩ :=
      hprinted m (List.mem_of_getElem? hm)
    have hprocess : ∃ r, processEntry lan.glib (lan.config m.dst) time beyond
        (s.host m.dst).ulist (lan.ip m.src) lan.port m.text = .ok r := by
      rw [htext] at hlength ⊢
      rw [processEntry, parseMessage_header (hsep m.src) _ _ size time' cmd data hlength]
      obtain ⟨user, huser⟩ := entryUser_printedMsg lan.glib hbeyond (lan.config m.src)
        (lan.ip m.src) lan.port size time' cmd data
      simp only [bind, Except.bind]
      split
      · rw [onBuddyEntry]
        split
        · exact ⟨_, rfl⟩
        · simp only [huser, bind, Except.bind]
          split <;> exact ⟨_, rfl⟩
      · exact ⟨_, rfl⟩
    obtain ⟨⟨ulist, reply⟩, hprocess⟩ := hprocess
    exact ⟨_, by simp only [Lan.step, hm, if_neg hoff, hprocess]; rfl⟩

end

/-! ### Deliveries -/

theorem run_settling (hsep : ∀ p, (lan.config p).Separable) {es : List (Event n)}
    {os : List Unit} {s t : Network n} (h : lan.Settling s)
    (hmeets : lan.machine.Meets lan.Answered s es)
    (hrun : lan.machine.run s es = some (os, t)) :
  lan.Settling t
  := by
  apply lan.machine.run_invariant _ h hmeets hrun
  intro s e o s' h hcond hstep
  obtain ⟨s₁, hs₁, heq⟩ := Option.map_eq_some_iff.mp hstep
  cases heq
  apply settling_step lan hsep h hcond hs₁

theorem start_settling :
  lan.Settling (Network.start n)
  := by
  constructor
  · rintro m ⟨⟩
  · rintro x y - ⟨⟩

/-- Peers that are settled know each other once nothing is under way. -/
theorem Lan.Settling.knows {s : Network n} (h : lan.Settling s) (hquiet : s.flight = [])
    {p q : Fin n} (hpq : p ≠ q) (hp : s.Online p) (hq : s.Online q) :
  lan.Knows s p q
  := by
  have hnone : ∀ x y, ¬ s.Coming x y := by
    rintro x y ⟨m, hm, -⟩
    rw [hquiet] at hm
    cases hm
  rcases h.settled p q hpq hp hq with h | h | ⟨h, -⟩
  · apply h
  · apply absurd h (hnone q p)
  · apply absurd h (hnone p q)

/-- After a run of a network whose peers have different user names, in which no peer comes back
to those that still list it unheard, deliveries are bounded in number, can go on as long as a
datagram is under way, and leave all peers online known to each other. -/
theorem deliveries_settle (hsep : ∀ p, (lan.config p).Separable)
    (hnames : ∀ p q, p ≠ q → (lan.config p).username.text ≠ (lan.config q).username.text)
    {es : List (Event n)} {os : List Unit} {s : Network n}
    (hmeets : lan.machine.Meets lan.Answered (Network.start n) es)
    (hrun : lan.machine.run (Network.start n) es = some (os, s))
    {ds : List (Event n)} (hds : ∀ e ∈ ds, e.IsDelivery) {os' : List Unit} {t : Network n}
    (hrun' : lan.machine.run s ds = some (os', t)) :
  ds.length + t.flight.length ≤ s.flight.length + n * n
    ∧ (∀ i < t.flight.length, ∀ time beyond, 0 ∈ beyond →
        ∃ t', lan.step t (.deliver i time beyond) = some t')
    ∧ (t.flight = [] → ∀ p q, p ≠ q → t.Online p → t.Online q → lan.Knows t p q)
  := by
  have hdeliver : lan.machine.Meets (fun _ e => e.IsDelivery) s ds :=
    lan.machine.meets_of_forall_mem (fun _ e he => hds e he) s
  have hstep_rank : ∀ s e o s', e.IsDelivery → lan.machine.step s e = some (o, s') →
      lan.rank s' < lan.rank s := by
    intro s e o s' he hstep
    obtain ⟨s₁, hs₁, heq⟩ := Option.map_eq_some_iff.mp hstep
    cases heq
    cases e with
    | deliver i time beyond => apply deliver_rank hs₁
    | listen p => cases he
    | enter p time cipher => cases he
    | quit p time => cases he
  have hrank := lan.machine.run_rank hstep_rank hdeliver hrun'
  have hbound : (lan.unlisted s).card ≤ n * n := unlisted_card_le s
  -- peers of different names answer every entry, so the deliveries keep them settled
  have hanswered : lan.machine.Meets lan.Answered s ds := by
    apply lan.machine.meets_of_forall_mem
    intro s e he
    cases e with
    | deliver i time beyond =>
      intro m _ _ hne _ _ _
      left
      apply hnames m.src m.dst hne
    | listen p => trivial
    | enter p time cipher => cases hds _ he
    | quit p time => trivial
  have hsettling := run_settling lan hsep (run_settling lan hsep (start_settling lan) hmeets hrun)
    hanswered hrun'
  refine ⟨?_, ?_, ?_⟩
  · rw [Lan.rank, Lan.rank] at hrank
    omega
  · intro i hi time beyond hbeyond
    apply deliver_returns hsep hi hsettling.printed time hbeyond
  · intro hquiet p q hpq hp hq
    apply hsettling.knows lan hquiet hpq hp hq

theorem twoPeers_names (p q : Fin 2) (hpq : p ≠ q) :
  (twoPeers.config p).username.text ≠ (twoPeers.config q).username.text
  := by
  revert p q
  decide

/-- Two peers come online. -/
def twoEntries : List (Event 2) :=
  (List.finRange 2).map .listen ++ (List.finRange 2).map (.enter · 0 [])

/-- Ten deliveries are all there are after two peers have come online. -/
theorem deliveries_settle_two :
  ∃ os s os' t, twoPeers.machine.run (Network.start 2) twoEntries = some (os, s)
    ∧ twoPeers.machine.run s (deliveries 10) = some (os', t)
    ∧ twoPeers.Knows t 0 1 ∧ twoPeers.Knows t 1 0
  := by
  have hmeets : twoPeers.machine.Meets twoPeers.Answered (Network.start 2) twoEntries := by
    decide +kernel
  have hds : ∀ e ∈ deliveries 10, e.IsDelivery := by decide
  have hany : ((twoPeers.machine.run (Network.start 2) twoEntries).any fun r =>
      (twoPeers.machine.run r.2 (deliveries 10)).any fun r' =>
        decide (r'.2.flight.isEmpty ∧ r'.2.Online 0 ∧ r'.2.Online 1)) = true := by decide +kernel
  obtain ⟨⟨os, s⟩, hrun, hany⟩ := (Option.any_eq_true _ _).mp hany
  obtain ⟨⟨os', t⟩, hrun', ht⟩ := (Option.any_eq_true _ _).mp hany
  obtain ⟨hquiet, hp, hq⟩ := of_decide_eq_true ht
  obtain ⟨-, -, hknows⟩ := deliveries_settle twoPeers twoPeers_separable twoPeers_names hmeets hrun
    hds hrun'
  have hflight := List.isEmpty_iff.mp hquiet
  use os, s, os', t, hrun, hrun', hknows hflight 0 1 (by decide) hp hq
  apply hknows hflight 1 0 (by decide) hq hp

end Peer

end IFreeChat
