import IFreeChat.Queue.MsgQueue

/-!
# Shutdown of the threads

The threads of a running client are `main`, the listen thread and the send thread of the
socket, and `process_message_loop`.  Packets received go from the listen thread through
`recv_que` to the loop, packets to be sent from `main` through `send_que` to the send
thread.  To stop them `main` raises two flags, puts a `NULL` into each queue to wake its
consumer, and destroys the queue at once.

A `NULL` is never used as a packet.  No thread uses a queue after it is destroyed as long as
every queue is destroyed while its consumer is past its last `queue_pop`, and the listen
thread past its last `queue_push` (`shutdown_sound`).
-/

open Basis

namespace IFreeChat

namespace Shutdown

/-- What a step does, for the queue it does it to: a `queue_push` or `queue_pop`, on a queue
destroyed or not, or the use of what a consumer got as a packet. -/
inductive Action (Packet : Type*) where
  | push (destroyed : Bool)
  | pop (destroyed : Bool)
  | use (pkt : Option Packet)
  | other
deriving DecidableEq

/-- The step uses no queue after `destroy_queue`, and no `NULL` as a packet. -/
def Action.Sound {Packet : Type*} : Action Packet → Prop
  | push destroyed => destroyed = false
  | pop destroyed => destroyed = false
  | use pkt => pkt.isSome
  | other => True

instance {Packet : Type*} : ∀ a : Action Packet, Decidable a.Sound
  | .push _ => inferInstanceAs (Decidable (_ = _))
  | .pop _ => inferInstanceAs (Decidable (_ = _))
  | .use _ => inferInstanceAs (Decidable (_ = true))
  | .other => .isTrue trivial

/-- `msg_queue_t`.  A destroyed queue keeps its bytes. -/
structure SharedQueue (Packet : Type*) where
  que : Queue (Option Packet)
  destroyed : Bool

/-- Where `main` is.  From `raised` on it is in `udp_stop`, in front of the statement that
the name says it comes after. -/
inductive MainPc where
  | running
  | raised
  | tested
  | flagged
  | recvWoken
  | recvDestroyed
  | sendWoken
  | sendDestroyed
  | stopped
deriving DecidableEq

/-- Where `udp_listen_routine` is: in front of its shutdown test, in `epoll_wait`, or with
packets still to be put. -/
inductive ListenPc (Packet : Type*) where
  | testing
  | waiting
  | putting (pkts : List Packet)
  | exited
deriving DecidableEq

/-- Where a consumer is: in `msg_queue_get`, in front of its shutdown test with what it
got, or in front of the use of it. -/
inductive ConsumerPc (Packet : Type*) where
  | getting
  | got (pkt : Option Packet)
  | handling (pkt : Option Packet)
  | exited
deriving DecidableEq

/-- The two flags, the two queues and the four threads. -/
structure State (Packet : Type*) where
  ifcShutdown : Bool
  usockShutdown : Bool
  recvQue : SharedQueue Packet
  sendQue : SharedQueue Packet
  main : MainPc
  listen : ListenPc Packet
  sender : ConsumerPc Packet
  loop : ConsumerPc Packet

/-- The thread that takes the next step.  While it is running, `main` sends a packet or
raises `ifc->shutdown`.  `epoll_wait` returns when the packets `arrived` have. -/
inductive Event (Packet : Type*) where
  | send (pkt : Packet)
  | main
  | listen (arrived : List Packet)
  | sender
  | loop

variable {Packet : Type*}

/-- `msg_queue_put`. -/
def SharedQueue.put (que : SharedQueue Packet) (data : Option Packet) :
    Option (Action Packet × SharedQueue Packet) :=
  (MsgQueue.put que.que data).map fun q => (.push que.destroyed, { que with que := q })

/-- One step of a consumer of `que` that tests the flag `shutdown`:
`udp_send_routine` or `process_message_loop`. -/
def ConsumerPc.step (shutdown : Bool) (que : SharedQueue Packet) :
    ConsumerPc Packet → Option (Action Packet × ConsumerPc Packet × SharedQueue Packet)
  | getting =>
      (MsgQueue.poll que.que none).map fun
        | (none, q) => (.pop que.destroyed, .getting, { que with que := q })
        | (some pkt, q) => (.pop que.destroyed, .got pkt, { que with que := q })
  | got pkt => some (.other, if shutdown then .exited else .handling pkt, que)
  | handling pkt => some (.use pkt, .getting, que)
  | exited => some (.other, .exited, que)

/-- One step of `udp_listen_routine`. -/
def listenStep (s : State Packet) (arrived : List Packet) :
    Option (Action Packet × State Packet) :=
  match s.listen with
  | .testing =>
      some (.other, { s with listen := if s.usockShutdown then .exited else .waiting })
  | .waiting => some (.other, { s with listen := .putting arrived })
  | .putting [] => some (.other, { s with listen := .testing })
  | .putting (pkt :: pkts) =>
      (s.recvQue.put (some pkt)).map fun (a, que) =>
        (a, { s with recvQue := que, listen := .putting pkts })
  | .exited => some (.other, s)

/-- One step of `main` from the end of `gtk_main` on: it raises `ifc->shutdown` and calls
`udp_stop`, whose two calls of `destroy_msg_queue` are two steps each. -/
def mainStep (s : State Packet) : Option (Action Packet × State Packet) :=
  match s.main with
  | .running => some (.other, { s with ifcShutdown := true, main := .raised })
  | .raised =>
      some (.other, { s with main := if s.usockShutdown then .stopped else .tested })
  | .tested => some (.other, { s with usockShutdown := true, main := .flagged })
  | .flagged =>
      (s.recvQue.put none).map fun (a, que) => (a, { s with recvQue := que, main := .recvWoken })
  | .recvWoken =>
      some (.other, {
        s with recvQue := { s.recvQue with destroyed := true }, main := .recvDestroyed })
  | .recvDestroyed =>
      (s.sendQue.put none).map fun (a, que) => (a, { s with sendQue := que, main := .sendWoken })
  | .sendWoken =>
      some (.other, {
        s with sendQue := { s.sendQue with destroyed := true }, main := .sendDestroyed })
  | .sendDestroyed =>
      -- the two calls of `pthread_join`
      match s.listen, s.sender with
      | .exited, .exited => some (.other, { s with main := .stopped })
      | _, _ => some (.other, s)
  | .stopped => some (.other, s)

/-- The threads, each step with what it does. -/
def machine (Packet : Type*) : Machine (State Packet) (Event Packet) (Action Packet) where
  step s
    | .send pkt =>
        if s.main = .running then
          (s.sendQue.put (some pkt)).map fun (a, que) => (a, { s with sendQue := que })
        else some (.other, s)
    | .main => mainStep s
    | .listen arrived => listenStep s arrived
    | .sender =>
        (s.sender.step s.usockShutdown s.sendQue).map fun (a, pc, que) =>
          (a, { s with sender := pc, sendQue := que })
    | .loop =>
        (s.loop.step s.ifcShutdown s.recvQue).map fun (a, pc, que) =>
          (a, { s with loop := pc, recvQue := que })

/-- The threads at the start, with the queues of `create_udp_socket`. -/
def start (recv send : Queue (Option Packet)) : State Packet where
  ifcShutdown := false
  usockShutdown := false
  recvQue := ⟨recv, false⟩
  sendQue := ⟨send, false⟩
  main := .running
  listen := .testing
  sender := .getting
  loop := .getting

/-- The size `init_network` gives the queues. -/
def queSize : Nat := 1024

/-- A consumer is past its last `queue_pop`, once its flag is raised. -/
def ConsumerPc.Done : ConsumerPc Packet → Prop
  | getting => False
  | got _ => True
  | handling _ => False
  | exited => True

instance : ∀ pc : ConsumerPc Packet, Decidable pc.Done
  | .getting => .isFalse id
  | .got _ => .isTrue trivial
  | .handling _ => .isFalse id
  | .exited => .isTrue trivial

/-- The listen thread has no packet to put. -/
def ListenPc.Idle (listen : ListenPc Packet) : Prop := ∀ pkt pkts, listen ≠ .putting (pkt :: pkts)

instance : ∀ listen : ListenPc Packet, Decidable listen.Idle
  | .testing => .isTrue (by simp [ListenPc.Idle])
  | .waiting => .isTrue (by simp [ListenPc.Idle])
  | .putting [] => .isTrue (by simp [ListenPc.Idle])
  | .putting (_ :: _) => .isFalse (by simp [ListenPc.Idle])
  | .exited => .isTrue (by simp [ListenPc.Idle])

/-- The receive queue is destroyed while the loop is past its last `queue_pop` and the
listen thread past its last `queue_push`, and no packet arrives after that; the send queue
is destroyed while the send thread is past its last `queue_pop`. -/
def Quiet (s : State Packet) : Event Packet → Prop
  | .main => (s.main = .recvWoken → s.loop.Done ∧ s.listen.Idle)
      ∧ (s.main = .sendWoken → s.sender.Done)
  | .listen arrived => s.listen = .waiting → s.recvQue.destroyed = true → arrived = []
  | .send _ => True
  | .sender => True
  | .loop => True

instance [DecidableEq Packet] (s : State Packet) : ∀ e, Decidable (Quiet s e)
  | .main => inferInstanceAs (Decidable ((_ → _) ∧ (_ → _)))
  | .listen _ => inferInstanceAs (Decidable (_ → _ → _))
  | .send _ => .isTrue trivial
  | .sender => .isTrue trivial
  | .loop => .isTrue trivial

/-! ### One queue and its consumer -/

/-- A queue and its consumer: the queue holds a `NULL`, and the consumer has got one, only
once its flag is raised, and after `destroy_queue` the consumer is past its last
`queue_pop`. -/
structure Guarded (shutdown : Bool) (que : SharedQueue Packet) (pc : ConsumerPc Packet) :
    Prop where
  queue : ∃ pkts, que.que.Represents queSize pkts ∧ (none ∈ pkts → shutdown = true)
  token : pc = .got none → shutdown = true
  handling : pc ≠ .handling none
  done : que.destroyed = true → pc.Done ∧ shutdown = true

theorem Guarded.put {shutdown : Bool} {que : SharedQueue Packet} {pc : ConsumerPc Packet}
    (h : Guarded shutdown que pc) (data : Option Packet) (hdata : data = none → shutdown = true) :
  ∃ que', que.put data = some (.push que.destroyed, que') ∧ Guarded shutdown que' pc
    ∧ que'.destroyed = que.destroyed
  := by
  obtain ⟨pkts, hque, hnone⟩ := h.queue
  obtain ⟨q, pkts', hput, hque', hpkts⟩ := MsgQueue.put_represents hque data
  refine ⟨{ que with que := q }, by simp [SharedQueue.put, hput], ?_, rfl⟩
  refine ⟨⟨pkts', hque', ?_⟩, h.token, h.handling, h.done⟩
  intro hmem
  obtain rfl | rfl := hpkts
  · apply hnone hmem
  · rcases List.mem_append.mp hmem with hmem | hmem
    · apply hnone hmem
    · apply hdata (List.mem_singleton.mp hmem).symm

/-- A step of the consumer is sound. -/
theorem Guarded.step {shutdown : Bool} {que : SharedQueue Packet} {pc : ConsumerPc Packet}
    (h : Guarded shutdown que pc) :
  ∃ a pc' que', pc.step shutdown que = some (a, pc', que') ∧ a.Sound
    ∧ Guarded shutdown que' pc' ∧ que'.destroyed = que.destroyed
  := by
  cases pc with
  | getting =>
    have hup : que.destroyed = false := by
      by_contra hdestroyed
      obtain ⟨hdone, -⟩ := h.done (by simpa using hdestroyed)
      apply hdone
    obtain ⟨pkts, hque, hnone⟩ := h.queue
    obtain ⟨got, q, pkts', hpoll, hque', hpkts⟩ := MsgQueue.poll_represents hque none
    have hnone' : none ∈ pkts' → shutdown = true := by
      intro hmem
      apply hnone
      rw [← hpkts]
      apply List.mem_append_right _ hmem
    cases got with
    | none =>
      refine ⟨.pop que.destroyed, .getting, { que with que := q }, ?_, hup, ?_, rfl⟩
      · simp [ConsumerPc.step, hpoll]
      · exact ⟨⟨pkts', hque', hnone'⟩, h.token, h.handling, h.done⟩
    | some pkt =>
      refine ⟨.pop que.destroyed, .got pkt, { que with que := q }, ?_, hup, ?_, rfl⟩
      · simp [ConsumerPc.step, hpoll]
      · refine ⟨⟨pkts', hque', hnone'⟩, ?_, by simp, ?_⟩
        · intro hpkt
          cases hpkt
          apply hnone
          simp [← hpkts]
        · intro hdestroyed
          rw [hup] at hdestroyed
          cases hdestroyed
  | got pkt =>
    refine ⟨.other, if shutdown then .exited else .handling pkt, que, rfl, trivial, ?_, rfl⟩
    cases hshutdown : shutdown with
    | true =>
      refine ⟨?_, fun _ => rfl, by simp, fun _ => ⟨trivial, rfl⟩⟩
      obtain ⟨pkts, hque, -⟩ := h.queue
      use pkts, hque
      exact fun _ => rfl
    | false =>
      rw [hshutdown] at h
      refine ⟨h.queue, by simp, ?_, ?_⟩
      · intro hpkt
        cases hpkt
        cases h.token rfl
      · intro hdestroyed
        cases (h.done hdestroyed).2
  | handling pkt =>
    refine ⟨.use pkt, .getting, que, rfl, ?_, ⟨h.queue, by simp, by simp, ?_⟩, rfl⟩
    · rw [Action.Sound, Option.isSome_iff_ne_none]
      rintro rfl
      apply h.handling rfl
    · intro hdestroyed
      cases (h.done hdestroyed).1
  | exited => exact ⟨.other, .exited, que, rfl, trivial, h, rfl⟩

theorem Guarded.raise {shutdown : Bool} {que : SharedQueue Packet} {pc : ConsumerPc Packet}
    (h : Guarded shutdown que pc) :
  Guarded true que pc
  := by
  obtain ⟨⟨pkts, hque, -⟩, -, hhandling, hdone⟩ := h
  exact ⟨⟨pkts, hque, fun _ => rfl⟩, fun _ => rfl, hhandling, fun h => ⟨(hdone h).1, rfl⟩⟩

theorem Guarded.destroy {shutdown : Bool} {que : SharedQueue Packet} {pc : ConsumerPc Packet}
    (h : Guarded shutdown que pc) (hshutdown : shutdown = true) (hdone : pc.Done) :
  Guarded shutdown { que with destroyed := true } pc
  := ⟨h.queue, h.token, h.handling, fun _ => ⟨hdone, hshutdown⟩⟩

/-! ### The threads -/

/-- What holds between the steps of the threads. -/
structure Inv (s : State Packet) : Prop where
  recv : Guarded s.ifcShutdown s.recvQue s.loop
  send : Guarded s.usockShutdown s.sendQue s.sender
  ifc_raised : s.main ≠ .running → s.ifcShutdown = true
  usock_raised : s.main ∈ [.flagged, .recvWoken, .recvDestroyed, .sendWoken] →
    s.usockShutdown = true
  recv_destroyed : s.recvQue.destroyed = true →
    s.main ∈ [.recvDestroyed, .sendWoken, .sendDestroyed, .stopped] ∧ s.listen.Idle
  send_destroyed : s.sendQue.destroyed = true → s.main ∈ [.sendDestroyed, .stopped]

/-- A step from `s` is sound and keeps the invariant. -/
def Keeps (s : State Packet) (e : Event Packet) : Prop :=
  ∃ a s', (machine Packet).step s e = some (a, s') ∧ a.Sound ∧ Inv s'

theorem send_keeps {s : State Packet} (h : Inv s) (pkt : Packet) :
  Keeps s (.send pkt)
  := by
  simp only [Keeps, machine]
  split
  · rename_i hmain
    obtain ⟨que, hput, hsend, hdestroyed⟩ := h.send.put (some pkt) (by simp)
    have hup : s.sendQue.destroyed = false := by
      by_contra hsendQue
      have := h.send_destroyed (by simpa using hsendQue)
      simp [hmain] at this
    rw [hput]
    refine ⟨_, _, rfl, hup, h.recv, hsend, h.ifc_raised, h.usock_raised, h.recv_destroyed, ?_⟩
    rw [hdestroyed]
    apply h.send_destroyed
  · exact ⟨_, _, rfl, trivial, h⟩

theorem sender_keeps {s : State Packet} (h : Inv s) :
  Keeps s .sender
  := by
  obtain ⟨a, pc, que, hstep, ha, hsend, hdestroyed⟩ := h.send.step
  simp only [Keeps, machine, hstep]
  refine ⟨_, _, rfl, ha, h.recv, hsend, h.ifc_raised, h.usock_raised, h.recv_destroyed, ?_⟩
  rw [hdestroyed]
  apply h.send_destroyed

theorem loop_keeps {s : State Packet} (h : Inv s) :
  Keeps s .loop
  := by
  obtain ⟨a, pc, que, hstep, ha, hrecv, hdestroyed⟩ := h.recv.step
  simp only [Keeps, machine, hstep]
  refine ⟨_, _, rfl, ha, hrecv, h.send, h.ifc_raised, h.usock_raised, ?_, h.send_destroyed⟩
  rw [hdestroyed]
  apply h.recv_destroyed

theorem listen_keeps {s : State Packet} (h : Inv s) {arrived : List Packet}
    (hquiet : Quiet s (.listen arrived)) :
  Keeps s (.listen arrived)
  := by
  have hmove : ∀ listen, (s.recvQue.destroyed = true → listen.Idle) →
      Inv { s with listen } := by
    intro listen hidle
    exact ⟨h.recv, h.send, h.ifc_raised, h.usock_raised,
      fun hd => ⟨(h.recv_destroyed hd).1, hidle hd⟩, h.send_destroyed⟩
  simp only [Keeps, machine, listenStep]
  cases hlisten : s.listen with
  | testing =>
    refine ⟨_, _, rfl, trivial, hmove _ ?_⟩
    intro _ pkt pkts
    split <;> simp
  | waiting =>
    refine ⟨_, _, rfl, trivial, hmove _ ?_⟩
    intro hdestroyed pkt pkts
    rw [hquiet hlisten hdestroyed]
    simp
  | putting pkts =>
    cases pkts with
    | nil =>
      refine ⟨_, _, rfl, trivial, hmove _ ?_⟩
      intro _ pkt pkts
      simp
    | cons pkt pkts =>
      have hup : s.recvQue.destroyed = false := by
        by_contra hdestroyed
        apply (h.recv_destroyed (by simpa using hdestroyed)).2 pkt pkts hlisten
      obtain ⟨que, hput, hrecv, hdestroyed⟩ := h.recv.put (some pkt) (by simp)
      simp only [hput]
      refine ⟨_, _, rfl, hup, hrecv, h.send, h.ifc_raised, h.usock_raised, ?_,
        h.send_destroyed⟩
      rw [hdestroyed, hup]
      simp
  | exited => exact ⟨_, _, rfl, trivial, h⟩

theorem main_keeps {s : State Packet} (h : Inv s) (hquiet : Quiet s .main) :
  Keeps s .main
  := by
  obtain ⟨hloop, hsender⟩ := hquiet
  have hself := h
  obtain ⟨hrecv, hsend, hifc, husock, hrecvUp, hsendUp⟩ := h
  have hrecvDown : s.main ∉ [.recvDestroyed, .sendWoken, .sendDestroyed, .stopped] →
      s.recvQue.destroyed = false := by
    intro hmain
    by_contra hd
    apply hmain (hrecvUp (by simpa using hd)).1
  have hsendDown : s.main ∉ [.sendDestroyed, .stopped] → s.sendQue.destroyed = false := by
    intro hmain
    by_contra hd
    apply hmain (hsendUp (by simpa using hd))
  simp only [Keeps, machine, mainStep]
  cases hmain : s.main with
  | running =>
    have hr := hrecvDown (by simp [hmain])
    have hs := hsendDown (by simp [hmain])
    exact ⟨_, _, rfl, trivial, hrecv.raise, hsend, fun _ => rfl, by simp, by simp [hr],
      by simp [hs]⟩
  | raised =>
    have hr := hrecvDown (by simp [hmain])
    have hs := hsendDown (by simp [hmain])
    refine ⟨_, _, rfl, trivial, hrecv, hsend, fun _ => hifc (by simp [hmain]), ?_, by simp [hr],
      by simp [hs]⟩
    simp only
    split <;> simp
  | tested =>
    have hr := hrecvDown (by simp [hmain])
    have hs := hsendDown (by simp [hmain])
    exact ⟨_, _, rfl, trivial, hrecv, hsend.raise, fun _ => hifc (by simp [hmain]),
      fun _ => rfl, by simp [hr], by simp [hs]⟩
  | flagged =>
    have hr := hrecvDown (by simp [hmain])
    have hs := hsendDown (by simp [hmain])
    have hraised := hifc (by simp [hmain])
    obtain ⟨que, hput, hrecv', hdestroyed⟩ := hrecv.put none (fun _ => hraised)
    simp only [hput]
    exact ⟨_, _, rfl, hr, hrecv', hsend, fun _ => hraised, fun _ => husock (by simp [hmain]),
      by simp [hdestroyed, hr], by simp [hs]⟩
  | recvWoken =>
    have hs := hsendDown (by simp [hmain])
    have hraised := hifc (by simp [hmain])
    obtain ⟨hdone, hidle⟩ := hloop hmain
    exact ⟨_, _, rfl, trivial, hrecv.destroy hraised hdone, hsend, fun _ => hraised,
      fun _ => husock (by simp [hmain]), fun _ => ⟨by simp, hidle⟩, by simp [hs]⟩
  | recvDestroyed =>
    have hs := hsendDown (by simp [hmain])
    have hraised := husock (by simp [hmain])
    obtain ⟨que, hput, hsend', hdestroyed⟩ := hsend.put none (fun _ => hraised)
    simp only [hput]
    exact ⟨_, _, rfl, hs, hrecv, hsend', fun _ => hifc (by simp [hmain]), fun _ => hraised,
      fun hd => ⟨by simp, (hrecvUp hd).2⟩, by simp [hdestroyed, hs]⟩
  | sendWoken =>
    have hraised := husock (by simp [hmain])
    exact ⟨_, _, rfl, trivial, hrecv, hsend.destroy hraised (hsender hmain),
      fun _ => hifc (by simp [hmain]), by simp, fun hd => ⟨by simp, (hrecvUp hd).2⟩, by simp⟩
  | sendDestroyed =>
    dsimp only
    split
    · exact ⟨_, _, rfl, trivial, hrecv, hsend, fun _ => hifc (by simp [hmain]), by simp,
        fun hd => ⟨by simp, (hrecvUp hd).2⟩, by simp⟩
    · exact ⟨_, _, rfl, trivial, hself⟩
  | stopped => exact ⟨_, _, rfl, trivial, hself⟩

/-- A quiet step is sound and keeps the invariant. -/
theorem step_keeps {s : State Packet} {e : Event Packet} (h : Inv s) (hquiet : Quiet s e) :
  Keeps s e
  := by
  cases e with
  | send pkt => apply send_keeps h
  | main => apply main_keeps h hquiet
  | listen arrived => apply listen_keeps h hquiet
  | sender => apply sender_keeps h
  | loop => apply loop_keeps h

theorem start_inv {alloc alloc' : Nat → Option (Nat → Option Packet)}
    {recv send : Queue (Option Packet)} (hrecv : Queue.create alloc queSize = some recv)
    (hsend : Queue.create alloc' queSize = some send) :
  Inv (start recv send)
  := by
  have hguarded : ∀ alloc que, Queue.create alloc queSize = some que →
      Guarded false (⟨que, false⟩ : SharedQueue Packet) .getting := by
    intro alloc que hque
    obtain ⟨hwf, hitems, hroom⟩ := Queue.create_wellFormed (by decide) (by decide) hque
    rw [Queue.slots_of_fits (by decide)] at hroom
    refine ⟨⟨[], ⟨hwf, hitems, Nat.le_of_eq hroom.symm⟩, by simp⟩, by simp, by simp, by simp⟩
  refine ⟨hguarded alloc recv hrecv, hguarded alloc' send hsend, ?_, ?_, ?_, ?_⟩
  · intro h
    cases h rfl
  · intro h
    simp [start] at h
  · intro h
    cases h
  · intro h
    cases h

/-! ### Steps that are not quiet -/

/-- Some way to go on from `s` uses a destroyed queue or a `NULL`. -/
def Endangered (s : State Packet) : Prop :=
  ∃ es acts t, (machine Packet).run s es = some (acts, t) ∧ ∃ a ∈ acts, ¬ a.Sound

theorem Endangered.of_step {s s' : State Packet} {e : Event Packet} {a : Action Packet}
    (hstep : (machine Packet).step s e = some (a, s')) (h : ¬ a.Sound ∨ Endangered s') :
  Endangered s
  := by
  obtain ha | ⟨es, acts, t, hrun, a', ha', hunsound⟩ := h
  · use [e], [a], s', (machine Packet).run_cons_of_step hstep rfl, a
    exact ⟨List.mem_singleton_self a, ha⟩
  · use e :: es, a :: acts, t, (machine Packet).run_cons_of_step hstep hrun, a'
    exact ⟨List.mem_cons_of_mem a ha', hunsound⟩

/-- A consumer in `msg_queue_get` pops its queue also after `destroy_queue`. -/
theorem Guarded.pops {shutdown : Bool} {que : SharedQueue Packet} {pc : ConsumerPc Packet}
    (h : Guarded shutdown que pc) :
  ∃ pc' que', ConsumerPc.getting.step shutdown { que with destroyed := true }
    = some (.pop true, pc', que')
  := by
  obtain ⟨pkts, hque, -⟩ := h.queue
  obtain ⟨got, q, pkts', hpoll, -⟩ := MsgQueue.poll_represents hque none
  simp only [ConsumerPc.step, hpoll]
  cases got with
  | none => exact ⟨_, _, rfl⟩
  | some pkt => exact ⟨_, _, rfl⟩

theorem loop_endangered {s : State Packet} {que : SharedQueue Packet}
    (h : Guarded s.ifcShutdown que s.loop) (hque : s.recvQue = { que with destroyed := true })
    (hdone : ¬ s.loop.Done) :
  Endangered s
  := by
  obtain ⟨pc', que', hpop⟩ := h.pops
  have hgetting : ∀ s' : State Packet, s'.loop = .getting → s'.recvQue = s.recvQue →
      s'.ifcShutdown = s.ifcShutdown → Endangered s' := by
    intro s' hloop hrecv hifc
    have hstep : (machine Packet).step s' .loop
        = some (.pop true, { s' with loop := pc', recvQue := que' }) := by
      simp only [machine, hloop, hrecv, hifc, hque, hpop, Option.map_some]
    apply Endangered.of_step hstep
    left
    simp [Action.Sound]
  cases hloop : s.loop with
  | getting => apply hgetting s hloop rfl rfl
  | got pkt =>
    rw [hloop] at hdone
    cases hdone trivial
  | handling pkt =>
    have hstep : (machine Packet).step s .loop = some (.use pkt, { s with loop := .getting }) := by
      simp only [machine, hloop, ConsumerPc.step, Option.map_some]
    apply Endangered.of_step hstep
    right
    refine hgetting _ ?_ ?_ ?_ <;> rfl
  | exited =>
    rw [hloop] at hdone
    cases hdone trivial

theorem sender_endangered {s : State Packet} {que : SharedQueue Packet}
    (h : Guarded s.usockShutdown que s.sender)
    (hque : s.sendQue = { que with destroyed := true }) (hdone : ¬ s.sender.Done) :
  Endangered s
  := by
  obtain ⟨pc', que', hpop⟩ := h.pops
  have hgetting : ∀ s' : State Packet, s'.sender = .getting → s'.sendQue = s.sendQue →
      s'.usockShutdown = s.usockShutdown → Endangered s' := by
    intro s' hsender hsend husock
    have hstep : (machine Packet).step s' .sender
        = some (.pop true, { s' with sender := pc', sendQue := que' }) := by
      simp only [machine, hsender, hsend, husock, hque, hpop, Option.map_some]
    apply Endangered.of_step hstep
    left
    simp [Action.Sound]
  cases hsender : s.sender with
  | getting => apply hgetting s hsender rfl rfl
  | got pkt =>
    rw [hsender] at hdone
    cases hdone trivial
  | handling pkt =>
    have hstep : (machine Packet).step s .sender
        = some (.use pkt, { s with sender := .getting }) := by
      simp only [machine, hsender, ConsumerPc.step, Option.map_some]
    apply Endangered.of_step hstep
    right
    refine hgetting _ ?_ ?_ ?_ <;> rfl
  | exited =>
    rw [hsender] at hdone
    cases hdone trivial

theorem listen_endangered {s : State Packet} {pkt : Packet} {pkts : List Packet}
    (hque : ∃ items, s.recvQue.que.Represents queSize items)
    (hdestroyed : s.recvQue.destroyed = true) (hlisten : s.listen = .putting (pkt :: pkts)) :
  Endangered s
  := by
  obtain ⟨items, hque⟩ := hque
  obtain ⟨q, items', hput, -⟩ := MsgQueue.put_represents hque (some pkt)
  have hstep : (machine Packet).step s (.listen []) = some (.push true, {
      s with recvQue := { s.recvQue with que := q }, listen := .putting pkts }) := by
    simp only [machine, listenStep, hlisten, SharedQueue.put, hput, Option.map_some, hdestroyed]
  apply Endangered.of_step hstep
  left
  simp [Action.Sound]

/-- After a step that is not quiet, a thread can use a destroyed queue. -/
theorem endangered_of_not_quiet {s s' : State Packet} {e : Event Packet} {a : Action Packet}
    (h : Inv s) (hquiet : ¬ Quiet s e) (hstep : (machine Packet).step s e = some (a, s')) :
  Endangered s'
  := by
  obtain ⟨pkts, hque, -⟩ := h.recv.queue
  cases e with
  | send pkt => cases hquiet trivial
  | main =>
    by_cases hrecv : s.main = .recvWoken
    · have hquiet : ¬ (s.loop.Done ∧ s.listen.Idle) := by
        intro hboth
        apply hquiet
        use fun _ => hboth
        simp [hrecv]
      simp only [machine, mainStep, hrecv] at hstep
      cases hstep
      by_cases hdone : s.loop.Done
      · have hidle : ¬ s.listen.Idle := fun hidle => hquiet ⟨hdone, hidle⟩
        simp only [ListenPc.Idle, not_forall, not_not] at hidle
        obtain ⟨pkt, pkts', hlisten⟩ := hidle
        exact @listen_endangered _ _ pkt pkts' ⟨pkts, hque⟩ rfl hlisten
      · exact @loop_endangered _ _ s.recvQue h.recv rfl hdone
    · by_cases hsend : s.main = .sendWoken
      · have hdone : ¬ s.sender.Done := by
          intro hdone
          apply hquiet
          use fun hmain => absurd hmain hrecv
          exact fun _ => hdone
        simp only [machine, mainStep, hsend] at hstep
        cases hstep
        exact @sender_endangered _ _ s.sendQue h.send rfl hdone
      · cases hquiet ⟨fun hmain => absurd hmain hrecv, fun hmain => absurd hmain hsend⟩
  | listen arrived =>
    simp only [Quiet, Classical.not_imp] at hquiet
    obtain ⟨hlisten, hdestroyed, hne⟩ := hquiet
    obtain ⟨pkt, pkts', rfl⟩ := List.exists_cons_of_ne_nil hne
    simp only [machine, listenStep, hlisten] at hstep
    cases hstep
    exact @listen_endangered _ _ pkt pkts' ⟨pkts, hque⟩ hdestroyed rfl
  | sender => cases hquiet trivial
  | loop => cases hquiet trivial

/-- In every interleaving whose steps are all quiet no thread uses a queue after it is
destroyed, and no consumer uses a `NULL` as a packet; after a step that is not quiet, some
thread can. -/
theorem shutdown_sound {alloc alloc' : Nat → Option (Nat → Option Packet)}
    {recv send : Queue (Option Packet)} (hrecv : Queue.create alloc queSize = some recv)
    (hsend : Queue.create alloc' queSize = some send) {es : List (Event Packet)}
    (hquiet : (machine Packet).Meets Quiet (start recv send) es) :
  ∃ acts s, (machine Packet).run (start recv send) es = some (acts, s)
    ∧ (∀ a ∈ acts, a.Sound)
    ∧ ∀ e a s', ¬ Quiet s e → (machine Packet).step s e = some (a, s') → Endangered s'
  := by
  obtain ⟨acts, s, hrun, hacts, hinv⟩ := (machine Packet).run_outputs
    (fun _ _ h hquiet => step_keeps h hquiet) (start_inv hrecv hsend) hquiet
  use acts, s, hrun, hacts
  intro e a s' hquiet hstep
  apply endangered_of_not_quiet hinv hquiet hstep

/-- The blocks of queues whose slots hold `NULL`. -/
def nullSlots (_ : Nat) : Option (Nat → Option Nat) := some fun _ => none

theorem create_nullSlots :
  ∃ que, Queue.create nullSlots queSize = some que
  := ⟨_, rfl⟩

/-- A packet is sent and one received; then the client stops, each consumer past its last
`queue_pop` when `main` destroys its queue. -/
def quietStop : List (Event Nat) :=
  [.send 7, .sender, .sender, .sender, .listen [], .listen [5], .listen [], .loop, .main, .main,
    .main, .main, .loop, .loop, .loop, .listen [], .main, .loop, .main, .sender, .main, .sender,
    .listen []]

theorem shutdown_sound_quietStop :
  ∃ recv acts s, (machine Nat).run (start recv recv) quietStop = some (acts, s)
    ∧ ∀ a ∈ acts, a.Sound
  := by
  obtain ⟨que, hque⟩ := create_nullSlots
  have hquiet : (machine Nat).Meets Quiet (start que que) quietStop := by
    cases hque
    decide
  obtain ⟨acts, s, hrun, hacts, -⟩ := shutdown_sound hque hque hquiet
  use que, acts, s, hrun

/-- The loop is waiting for a packet when `main` destroys the receive queue, and polls it
once more. -/
theorem poll_after_destroy :
  ∃ recv acts s, Queue.create nullSlots queSize = some recv
    ∧ (machine Nat).run (start recv recv) [.main, .main, .main, .main, .main, .loop]
        = some (acts, s)
    ∧ ∃ a ∈ acts, ¬ a.Sound
  := by
  refine ⟨_, _, _, rfl, rfl, ?_⟩
  decide

end Shutdown

end IFreeChat
