import IFreeChat.Peer.Discovery

/-!
# Entry replies

`on_buddy_entry` takes entries and entry replies, and answers the first datagram of a peer that
it does not list.  Whether it answers is decided by the bit `CMD_BR_ENTRY` of the command, which
is set in `CMD_ANSENTRY` too, so that the first reply of a peer is answered like its first entry
(`processEntry_reply`).

Along a run of a network, `Replies` counts the entries that are delivered and the replies that are
sent.  Only entries are answered, each one once at most, exactly as long as every entry reply is
delivered to a peer that lists its sender or goes by the same user name (`entry_replies_iff`).
-/

open Basis

namespace IFreeChat

namespace Peer

/-! ### Counting -/

/-- How many entries have been delivered to peers that listen, how many entry replies have been
sent, and how many of these answer an entry reply. -/
structure Replies where
  entries : Nat
  sent : Nat
  toAnswers : Nat
deriving DecidableEq

/-- Only entries have been answered, and no more replies been sent than entries delivered. -/
def Replies.OnlyEntries (r : Replies) : Prop := r.toAnswers = 0 ∧ r.sent ≤ r.entries

/-- The counts after a datagram with this low byte of its command was delivered and answered. -/
def Replies.add (r : Replies) (lowByte : Option Nat) (reply : Option (List UInt8)) : Replies where
  entries := r.entries + if lowByte = some CMD_BR_ENTRY then 1 else 0
  sent := r.sent + if reply.isSome then 1 else 0
  toAnswers := r.toAnswers + if lowByte = some CMD_ANSENTRY ∧ reply.isSome then 1 else 0

variable {n : Nat} (lan : Lan n)

/-- The message that `process_message` makes of a datagram under way. -/
def Lan.message (m : Packet n) : Except Fault Msg :=
  parseMessage (lan.ip m.src) lan.port (recvBuffer m.text) (recvSize m.text)

/-- The low byte of its command. -/
def Lan.lowByte (m : Packet n) : Option Nat :=
  (lan.message m).toOption.map fun msg => msg.command &&& 0xff

/-- The counts after an event. -/
def Lan.count (r : Replies) (s : Network n) : Event n → Replies
  | .deliver i time beyond =>
      match s.flight[i]? with
      | none => r
      | some m =>
          if (s.host m.dst).phase = .off then r
          else
            match processEntry lan.glib (lan.config m.dst) time beyond (s.host m.dst).ulist
                (lan.ip m.src) lan.port m.text with
            | .error _ => r
            | .ok (_, reply) => r.add (lan.lowByte m) reply
  | _ => r

/-- The network with the counts.  The strings of a user are values, so that a category longer than
the stored one does not run over the end of the block of the user. -/
def Lan.counted : Machine (Network n × Replies) (Event n) Unit :=
  lan.machine.withHistory lan.count

/-- An entry reply is delivered to a peer that lists its sender or has the user name it gives;
those of `iptux` are not looked at. -/
def Lan.AnswerKnown (s : Network n) : Event n → Prop
  | .deliver i _ _ =>
      ∀ m ∈ s.flight[i]?, (s.host m.dst).phase ≠ .off →
        ∀ msg ∈ (lan.message m).toOption, msg.command &&& 0xff = CMD_ANSENTRY →
          (ascii "1_iptux").isPrefixOf msg.version ∨ lan.Knows s m.dst m.src
            ∨ msg.username = (lan.config m.dst).username.text
  | _ => True

instance (s : Network n) (e : Event n) : Decidable (lan.AnswerKnown s e) :=
  match e with
  | .listen _ => .isTrue trivial
  | .quit _ _ => .isTrue trivial
  | .enter _ _ _ => .isTrue trivial
  | .deliver i _ _ => inferInstanceAs (Decidable (∀ m ∈ s.flight[i]?,
      (s.host m.dst).phase ≠ .off → ∀ msg ∈ (lan.message m).toOption,
        msg.command &&& 0xff = CMD_ANSENTRY → _ ∨ _ ∨ _))

/-! ### What is answered -/

theorem parseMessage_ip {ip : List UInt8} {port : UInt16} {data : List UInt8} {size : Nat}
    {msg : Msg} (h : parseMessage ip port data size = .ok msg) :
  msg.ip = ip
  := by
  simp only [parseMessage, bind_eq_ok] at h
  obtain ⟨version, -, packetNo, -, username, -, hostname, -, cmd, -, h⟩ := h
  split at h
  · cases h
  · cases h
    rfl

/-- A datagram is answered when it is an entry or an entry reply, of a peer that is not listed and
has another user name. -/
theorem processEntry_reply {glib : Glib} {cfg : Config} {time : UInt64} {beyond ip : List UInt8}
    {ulist ulist' : List User} {port : UInt16} {datagram : List UInt8} {msg : Msg}
    {reply : Option (List UInt8)}
    (hparse : parseMessage ip port (recvBuffer datagram) (recvSize datagram) = .ok msg)
    (h : processEntry glib cfg time beyond ulist ip port datagram = .ok (ulist', reply)) :
  reply.isSome ↔ isEntryCommand msg.command ∧ ¬ (ascii "1_iptux").isPrefixOf msg.version
    ∧ ip ∉ ipaddrs ulist ∧ msg.username ≠ cfg.username.text
  := by
  have hip := parseMessage_ip hparse
  obtain ⟨msg', hparse', h⟩ := bind_eq_ok.mp h
  rw [hparse] at hparse'
  cases hparse'
  split at h
  · rename_i hentry
    cases hversion : (ascii "1_iptux").isPrefixOf msg.version with
    | true =>
      rw [onBuddyEntry, if_pos hversion] at h
      cases h
      simp
    | false =>
      rcases onBuddyEntry_eq_ok hversion h with ⟨hmem, -, rfl⟩ | ⟨hmem, -, rfl⟩
      · rw [hip] at hmem
        simp [hmem]
      · rw [hip] at hmem
        have hanswers := isEntryCommand_answers hentry
        by_cases hname : msg.username = cfg.username.text
        · simp [entryReply, hname]
        · simp [entryReply, hentry, hmem, hanswers, hname]
  · rename_i hother
    cases h
    simp [hother]

/-- Where only entries and entry replies are answered, an answer to an entry is counted with it. -/
theorem Replies.add_onlyEntries_iff {r : Replies} (h : r.OnlyEntries) {lowByte : Option Nat}
    {reply : Option (List UInt8)}
    (hreply : reply.isSome → lowByte = some CMD_BR_ENTRY ∨ lowByte = some CMD_ANSENTRY) :
  (r.add lowByte reply).OnlyEntries ↔ ¬ (lowByte = some CMD_ANSENTRY ∧ reply.isSome)
  := by
  obtain ⟨hanswers, hle⟩ := h
  have hne : CMD_BR_ENTRY ≠ CMD_ANSENTRY := by decide
  cases reply with
  | none =>
    simp only [Replies.OnlyEntries, Replies.add, Option.isSome_none, Bool.false_eq_true, and_false,
      if_false, not_false_eq_true, iff_true]
    omega
  | some text =>
    rcases hreply rfl with hlow | hlow
    · simp [Replies.OnlyEntries, Replies.add, hlow, hanswers, hle, hne]
    · simp [Replies.OnlyEntries, Replies.add, hlow]

/-- As long as only entries have been answered, the next event leaves it so exactly when no entry
reply comes to a peer that would answer it. -/
theorem count_onlyEntries_iff {s s' : Network n} {r : Replies} {e : Event n}
    (h : r.OnlyEntries) (hstep : lan.step s e = some s') :
  (lan.count r s e).OnlyEntries ↔ lan.AnswerKnown s e
  := by
  cases e with
  | listen p => exact iff_of_true h trivial
  | enter p time cipher => exact iff_of_true h trivial
  | quit p time => exact iff_of_true h trivial
  | deliver i time beyond =>
    rw [Lan.step] at hstep
    rw [Lan.count, Lan.AnswerKnown]
    cases hi : s.flight[i]? with
    | none =>
      rw [hi] at hstep
      cases hstep
    | some m =>
      rw [hi] at hstep
      simp only [Option.mem_some_iff, forall_eq'] at hstep ⊢
      by_cases hoff : (s.host m.dst).phase = .off
      · rw [if_pos hoff]
        exact iff_of_true h fun hon => absurd hoff hon
      · rw [if_neg hoff] at hstep ⊢
        cases hprocess : processEntry lan.glib (lan.config m.dst) time beyond
            (s.host m.dst).ulist (lan.ip m.src) lan.port m.text with
        | error fault =>
          rw [hprocess] at hstep
          cases hstep
        | ok result =>
          obtain ⟨ulist, reply⟩ := result
          obtain ⟨msg, hparse, -⟩ := bind_eq_ok.mp hprocess
          have hmessage : (lan.message m).toOption = some msg := by
            rw [Lan.message, hparse]
            rfl
          have hlow : lan.lowByte m = some (msg.command &&& 0xff) := by
            rw [Lan.lowByte, hmessage, Option.map_some]
          have hreply := processEntry_reply hparse hprocess
          simp only [hmessage, hlow, Option.mem_some_iff, forall_eq']
          rw [Replies.add_onlyEntries_iff h]
          · rw [hreply, Option.some.injEq, isEntryCommand, Lan.Knows]
            constructor
            · intro hnot _ hanswer
              by_contra hothers
              rw [not_or, not_or] at hothers
              apply hnot ⟨hanswer, Or.inr hanswer, hothers⟩
            · rintro hknown ⟨hanswer, -, hversion, hmem, hname⟩
              rcases hknown hoff hanswer with h | h | h
              · apply hversion h
              · apply hmem h
              · apply hname h
          · intro hsome
            rw [Option.some.injEq, Option.some.injEq]
            exact (hreply.mp hsome).1

/-! ### Runs -/

/-- Along a run of any peers, in whatever order datagrams are delivered, no entry reply is
answered and no more replies are sent than entries delivered, exactly when every entry reply comes
to a peer that lists its sender or has the user name it gives. -/
theorem entry_replies_iff {s t : Network n} {es : List (Event n)} {os : List Unit}
    (hrun : lan.machine.run s es = some (os, t)) :
  (∀ es' os p, es' <+: es → lan.counted.run (s, ⟨0, 0, 0⟩) es' = some (os, p) →
      p.2.OnlyEntries)
    ↔ lan.machine.Meets lan.AnswerKnown s es
  := by
  have hstart : (⟨0, 0, 0⟩ : Replies).OnlyEntries := ⟨rfl, Nat.le_refl 0⟩
  have hpre : lan.counted.Meets (fun p e => (lan.machine.step p.1 e).isSome) (s, ⟨0, 0, 0⟩) es :=
    (lan.machine.meets_withHistory lan.count ⟨0, 0, 0⟩).mpr (lan.machine.meets_of_run hrun)
  have hstep : ∀ (p : Network n × Replies) (e : Event n), p.2.OnlyEntries →
      (lan.machine.step p.1 e).isSome →
        ((∀ o p', lan.counted.step p e = some (o, p') → p'.2.OnlyEntries)
          ↔ lan.AnswerKnown p.1 e) := by
    intro p e h hsome
    obtain ⟨⟨o, s'⟩, hs'⟩ := Option.isSome_iff_exists.mp hsome
    obtain ⟨s₁, hs₁, heq⟩ := Option.map_eq_some_iff.mp hs'
    rw [← count_onlyEntries_iff lan h hs₁]
    simp only [Lan.counted, Machine.withHistory, hs', Option.map_some, Option.some.injEq,
      Prod.mk.injEq]
    constructor
    · intro hall
      exact hall o (s', lan.count p.2 p.1 e) ⟨trivial, rfl⟩
    · rintro hcount o' p' ⟨-, rfl⟩
      exact hcount
  calc
    _ ↔ lan.counted.Meets (fun p e => ∀ o p', lan.counted.step p e = some (o, p') →
        p'.2.OnlyEntries) (s, ⟨0, 0, 0⟩) es := by
      symm
      exact lan.counted.meets_iff_reached hstart
    _ ↔ lan.counted.Meets (fun p e => lan.AnswerKnown p.1 e) (s, ⟨0, 0, 0⟩) es := by
      apply lan.counted.meets_iff hstep _ hstart hpre
      intro p e o p' h hsome hcond hp'
      exact (hstep p e h hsome).mpr hcond o p' hp'
    _ ↔ lan.machine.Meets lan.AnswerKnown s es := by
      apply lan.machine.meets_withHistory

/-- Two peers listen and then enter; the entries are delivered before the replies. -/
theorem entry_replies_two :
  ∃ os p, twoPeers.counted.run (Network.start 2, ⟨0, 0, 0⟩)
      ([.listen 0, .listen 1, .enter 0 0 [], .enter 1 0 []] ++ deliveries 10) = some (os, p)
    ∧ p.2.OnlyEntries
  := by
  obtain ⟨es, hes⟩ : ∃ es : List (Event 2),
      es = [.listen 0, .listen 1, .enter 0 0 [], .enter 1 0 []] ++ deliveries 10 := ⟨_, rfl⟩
  rw [← hes]
  have hmeets : twoPeers.machine.Meets twoPeers.AnswerKnown (Network.start 2) es := by
    rw [hes]
    decide +kernel
  have hsome : (twoPeers.machine.run (Network.start 2) es).isSome = true := by
    rw [hes]
    decide +kernel
  have hcounted : (twoPeers.counted.run (Network.start 2, ⟨0, 0, 0⟩) es).isSome = true := by
    rw [hes]
    decide +kernel
  obtain ⟨⟨_, _⟩, hrun⟩ := Option.isSome_iff_exists.mp hsome
  obtain ⟨⟨os, p⟩, hrun'⟩ := Option.isSome_iff_exists.mp hcounted
  use os, p, hrun'
  apply (entry_replies_iff twoPeers hrun).mpr hmeets es os p List.prefix_rfl hrun'

/-- One peer enters, its entry is delivered to the other one, and the reply is delivered to it:
two replies are sent, of which the second one answers the first. -/
theorem reply_answered :
  ∃ os p, twoPeers.counted.run (Network.start 2, ⟨0, 0, 0⟩)
      [.listen 0, .listen 1, .enter 0 0 [], .deliver 3 0 [0], .deliver 3 0 [0]] = some (os, p)
    ∧ p.2 = ⟨1, 2, 1⟩ ∧ ¬ p.2.OnlyEntries
  := by
  have hany : ((twoPeers.counted.run (Network.start 2, ⟨0, 0, 0⟩)
      [.listen 0, .listen 1, .enter 0 0 [], .deliver 3 0 [0], .deliver 3 0 [0]]).any fun r =>
      decide (r.2.2 = ⟨1, 2, 1⟩)) = true := by decide +kernel
  obtain ⟨⟨os, p⟩, hrun, hp⟩ := (Option.any_eq_true _ _).mp hany
  have hcounts : p.2 = ⟨1, 2, 1⟩ := of_decide_eq_true hp
  refine ⟨os, p, hrun, hcounts, ?_⟩
  rw [hcounts]
  rintro ⟨hanswers, -⟩
  cases hanswers

end Peer

end IFreeChat
