import IFreeChat.Basis.Machine
import Mathlib.Logic.Function.Basic

/-!
# Networks

Programs that send each other datagrams.  A program takes events of its own, in which it may
send datagrams to addresses, and datagrams that reach it, with the address they come from.  A
datagram that was sent can be lost, and can be delivered any number of times, at any time and
in any order; the address it comes from is that of the program that sent it.

Let a state of a program hold some texts, each from an address, and a datagram carry some.  If
every program only comes to hold a text from an address by a datagram from there that carries
it, and only sends datagrams that carry what it is asked to send (`Node.Faithful`), then along
every run a program holds of an address only what the program at that address was asked to
send to one that reaches it (`run_authentic`).  Two faithful programs are one that runs either
(`Node.Faithful.sum`).
-/

namespace Basis

/-! ### Programs -/

/-- A program on a network: what one of its own events makes of a state, with the datagrams
that it sends and where to, and what a datagram from an address makes of it.  What else
decides that, such as its memory, is in `J`. -/
structure Node (S E J A D : Type*) where
  act : S → E → Option (List (A × D) × S)
  receive : S → J → A → D → Option S

/-- What is said of a program: the texts an event asks it to send, the events it may take,
what its states keep, and the texts a state holds, each from an address. -/
structure Account (S E A T : Type*) where
  asks : S → E → List (A × T)
  May : S → E → Prop
  Good : S → Prop
  Holds : S → A → T → Prop

/-- What is said of datagrams: which are sent at all, and the texts they carry. -/
structure Format (D T : Type*) where
  Fine : D → Prop
  Carries : D → T → Prop

variable {S S' E E' J A D T : Type*}

/-- Whatever the program comes to hold from an address was carried by a datagram from there,
and whatever a datagram it sends carries it was asked to send. -/
structure Node.Faithful (n : Node S E J A D) (v : Account S E A T) (f : Format D T) : Prop where
  act : ∀ s e out s', v.Good s → v.May s e → n.act s e = some (out, s') →
    v.Good s' ∧ (∀ a t, v.Holds s' a t → v.Holds s a t)
      ∧ ∀ x ∈ out, f.Fine x.2 ∧ ∀ t, f.Carries x.2 t → (x.1, t) ∈ v.asks s e
  receive : ∀ s j a d s', v.Good s → f.Fine d → n.receive s j a d = some s' →
    v.Good s' ∧ ∀ b t, v.Holds s' b t → v.Holds s b t ∨ b = a ∧ f.Carries d t

/-- A program that runs one of two, as its state says. -/
def Node.sum (n : Node S E J A D) (n' : Node S' E' J A D) : Node (S ⊕ S') (E ⊕ E') J A D where
  act
    | .inl s, .inl e => (n.act s e).map fun r => (r.1, .inl r.2)
    | .inr s, .inr e => (n'.act s e).map fun r => (r.1, .inr r.2)
    | _, _ => none
  receive
    | .inl s, j, a, d => (n.receive s j a d).map .inl
    | .inr s, j, a, d => (n'.receive s j a d).map .inr

/-- See `Node.sum`. -/
def Account.sum (v : Account S E A T) (v' : Account S' E' A T) :
    Account (S ⊕ S') (E ⊕ E') A T where
  asks
    | .inl s, .inl e => v.asks s e
    | .inr s, .inr e => v'.asks s e
    | _, _ => []
  May
    | .inl s, .inl e => v.May s e
    | .inr s, .inr e => v'.May s e
    | _, _ => True
  Good := Sum.elim v.Good v'.Good
  Holds := Sum.elim v.Holds v'.Holds

theorem Node.Faithful.sum {n : Node S E J A D} {n' : Node S' E' J A D} {v : Account S E A T}
    {v' : Account S' E' A T} {f : Format D T} (h : n.Faithful v f) (h' : n'.Faithful v' f) :
  (n.sum n').Faithful (v.sum v') f
  where
  act := by
    rintro (s | s) (e | e) out t hgood hmay hact
    · obtain ⟨⟨out, s'⟩, hact', heq⟩ := Option.map_eq_some_iff.mp hact
      cases heq
      apply h.act s e out s' hgood hmay hact'
    · cases hact
    · cases hact
    · obtain ⟨⟨out, s'⟩, hact', heq⟩ := Option.map_eq_some_iff.mp hact
      cases heq
      apply h'.act s e out s' hgood hmay hact'
  receive := by
    rintro (s | s) j a d t hgood hfine hreceive
    · obtain ⟨s', hreceive', rfl⟩ := Option.map_eq_some_iff.mp hreceive
      apply h.receive s j a d s' hgood hfine hreceive'
    · obtain ⟨s', hreceive', rfl⟩ := Option.map_eq_some_iff.mp hreceive
      apply h'.receive s j a d s' hgood hfine hreceive'

/-! ### Networks -/

/-- A datagram that was sent. -/
structure Packet (ι A D : Type*) where
  src : ι
  dst : A
  data : D

/-- The programs of a network with what is said of them, the address of each, and which of
them an address reaches. -/
structure Network (ι S E J A D T : Type*) where
  node : ι → Node S E J A D
  account : ι → Account S E A T
  addr : ι → A
  reaches : A → ι → Bool

namespace Network

/-- The states of the programs, all datagrams that were sent, and all texts that a program was
asked to send. -/
structure State (ι S A D T : Type*) where
  host : ι → S
  sent : List (Packet ι A D)
  asked : List (ι × A × T)

/-- A program takes an event of its own, or the `i`-th datagram that was sent. -/
inductive Event (ι E J : Type*) where
  | act (p : ι) (e : E)
  | deliver (q : ι) (i : Nat) (j : J)

variable {ι : Type*} [DecidableEq ι] (N : Network ι S E J A D T)

/-- The network as a machine. -/
def machine : Machine (State ι S A D T) (Event ι E J) Unit where
  step s
    | .act p e => ((N.node p).act (s.host p) e).map fun r => ((), {
        host := Function.update s.host p r.2
        sent := s.sent ++ r.1.map fun x => ⟨p, x.1, x.2⟩
        asked := s.asked ++ ((N.account p).asks (s.host p) e).map fun x => (p, x.1, x.2) })
    | .deliver q i j =>
        match s.sent[i]? with
        | none => none
        | some m =>
            if N.reaches m.dst q then
              ((N.node q).receive (s.host q) j (N.addr m.src) m.data).map fun h => ((), { s with
                host := Function.update s.host q h })
            else none

/-- The network before anything was sent. -/
def start (host : ι → S) : State ι S A D T := ⟨host, [], []⟩

/-- A program takes an event it may take. -/
def May (s : State ι S A D T) : Event ι E J → Prop
  | .act p e => (N.account p).May (s.host p) e
  | .deliver _ _ _ => True

/-- Among these events the program is asked to send a text to an address. -/
def AsksAmong (host : ι → S) (es : List (Event ι E J)) (p : ι) (dst : A) (t : T) : Prop :=
  ∃ es₁ e es₂ os₁ s₁, es = es₁ ++ .act p e :: es₂
    ∧ N.machine.run (start host) es₁ = some (os₁, s₁) ∧ (dst, t) ∈ (N.account p).asks (s₁.host p) e

/-- These events lead to a state, and among them everything was asked for that was. -/
def AskedBy (host : ι → S) (es : List (Event ι E J)) (s : State ι S A D T) : Prop :=
  (∃ os, N.machine.run (start host) es = some (os, s))
    ∧ ∀ p dst t, (p, dst, t) ∈ s.asked → N.AsksAmong host es p dst t

/-- What is carried was asked for, and what is held was asked for. -/
structure Authentic (f : Format D T) (s : State ι S A D T) : Prop where
  good : ∀ p, (N.account p).Good (s.host p)
  fine : ∀ m ∈ s.sent, f.Fine m.data
  carried : ∀ m ∈ s.sent, ∀ t, f.Carries m.data t → (m.src, m.dst, t) ∈ s.asked
  held : ∀ q a t, (N.account q).Holds (s.host q) a t →
    ∃ p dst, N.addr p = a ∧ N.reaches dst q = true ∧ (p, dst, t) ∈ s.asked

variable {N} {f : Format D T} {s s' : State ι S A D T}
  (hfaithful : ∀ p, (N.node p).Faithful (N.account p) f)

include hfaithful

omit hfaithful in
theorem AskedBy.step {host : ι → S} {es : List (Event ι E J)} (h : N.AskedBy host es s)
    {e : Event ι E J} {o : Unit} (hstep : N.machine.step s e = some (o, s')) :
  N.AskedBy host (es ++ [e]) s'
  := by
  obtain ⟨⟨os, hrun⟩, hasks⟩ := h
  have hrun' : N.machine.run (start host) (es ++ [e]) = some (os ++ [o], s') :=
    N.machine.run_append_iff.mpr
      ⟨os, s, [o], hrun, N.machine.run_cons_of_step hstep (N.machine.run_nil s'), rfl⟩
  refine ⟨⟨_, hrun'⟩, ?_⟩
  intro p dst t hasked
  have hbefore : (p, dst, t) ∈ s.asked → N.AsksAmong host (es ++ [e]) p dst t := by
    intro hasked
    obtain ⟨es₁, e', es₂, os₁, s₁, rfl, hrun₁, hasks₁⟩ := hasks p dst t hasked
    refine ⟨es₁, e', es₂ ++ [e], os₁, s₁, ?_, hrun₁, hasks₁⟩
    rw [List.append_assoc, List.cons_append]
  cases e with
  | act q e =>
    obtain ⟨⟨out, u⟩, -, heq⟩ := Option.map_eq_some_iff.mp hstep
    cases heq
    rcases List.mem_append.mp hasked with hasked | hasked
    · apply hbefore hasked
    · obtain ⟨x, hx, heq⟩ := List.mem_map.mp hasked
      cases heq
      exact ⟨es, e, [], os, s, rfl, hrun, hx⟩
  | deliver q i j =>
    apply hbefore
    rw [machine] at hstep
    simp only at hstep
    split at hstep
    · cases hstep
    · split at hstep
      · obtain ⟨u, -, heq⟩ := Option.map_eq_some_iff.mp hstep
        cases heq
        exact hasked
      · cases hstep

theorem Authentic.act (h : N.Authentic f s) {p : ι} {e : E} {o : Unit}
    (hmay : (N.account p).May (s.host p) e) (hstep : N.machine.step s (.act p e) = some (o, s')) :
  N.Authentic f s'
  := by
  obtain ⟨⟨out, t⟩, hact, heq⟩ := Option.map_eq_some_iff.mp hstep
  cases heq
  obtain ⟨hgood, hkeeps, hout⟩ := (hfaithful p).act _ e out t (h.good p) hmay hact
  constructor
  case good =>
    intro q
    by_cases hq : q = p
    · subst hq
      simpa using hgood
    · simpa [Function.update_of_ne hq] using h.good q
  case fine =>
    intro m hm
    rcases List.mem_append.mp hm with hm | hm
    · apply h.fine m hm
    · obtain ⟨x, hx, rfl⟩ := List.mem_map.mp hm
      exact (hout x hx).1
  case carried =>
    intro m hm t hcarries
    apply List.mem_append.mpr
    rcases List.mem_append.mp hm with hm | hm
    · left
      apply h.carried m hm t hcarries
    · right
      obtain ⟨x, hx, rfl⟩ := List.mem_map.mp hm
      apply List.mem_map.mpr ⟨(x.1, t), (hout x hx).2 t hcarries, rfl⟩
  case held =>
    intro q a t hholds
    have hbefore : (N.account q).Holds (s.host q) a t := by
      by_cases hq : q = p
      · subst hq
        apply hkeeps
        simpa using hholds
      · simpa [Function.update_of_ne hq] using hholds
    obtain ⟨p', dst, haddr, hreaches, hasked⟩ := h.held q a t hbefore
    exact ⟨p', dst, haddr, hreaches, List.mem_append_left _ hasked⟩

theorem Authentic.deliver (h : N.Authentic f s) {q : ι} {i : Nat} {j : J} {o : Unit}
    (hstep : N.machine.step s (.deliver q i j) = some (o, s')) :
  N.Authentic f s'
  := by
  rw [machine] at hstep
  simp only at hstep
  split at hstep
  case h_1 => cases hstep
  rename_i m hm
  have hmem := List.mem_of_getElem? hm
  split at hstep
  case isFalse => cases hstep
  rename_i hreaches
  obtain ⟨t, hreceive, heq⟩ := Option.map_eq_some_iff.mp hstep
  cases heq
  obtain ⟨hgood, hkeeps⟩ :=
    (hfaithful q).receive _ j _ _ t (h.good q) (h.fine m hmem) hreceive
  constructor
  case good =>
    intro p
    by_cases hp : p = q
    · subst hp
      simpa using hgood
    · simpa [Function.update_of_ne hp] using h.good p
  case fine => exact h.fine
  case carried => exact h.carried
  case held =>
    intro p a t hholds
    by_cases hp : p = q
    · subst hp
      simp only [Function.update_self] at hholds
      rcases hkeeps a t hholds with hbefore | ⟨rfl, hcarries⟩
      · apply h.held p a t hbefore
      · exact ⟨m.src, m.dst, rfl, hreaches, h.carried m hmem t hcarries⟩
    · simp only [Function.update_of_ne hp] at hholds
      apply h.held p a t hholds

/-- Along every run of faithful programs that hold nothing at first, a program holds of an
address only what the program at that address was asked, among the events of the run, to send
to one that reaches the holder. -/
theorem run_authentic {host : ι → S} (hgood : ∀ p, (N.account p).Good (host p))
    (hnone : ∀ p a t, ¬ (N.account p).Holds (host p) a t) {es : List (Event ι E J)}
    {os : List Unit} (hmeets : N.machine.Meets N.May (start host) es)
    (hrun : N.machine.run (start host) es = some (os, s)) {q : ι} {a : A} {t : T}
    (hholds : (N.account q).Holds (s.host q) a t) :
  ∃ p dst, N.addr p = a ∧ N.reaches dst q = true ∧ N.AsksAmong host es p dst t
  := by
  have hstart : N.Authentic f (start host) := by
    constructor
    case good => exact hgood
    case fine => rintro m ⟨⟩
    case carried => rintro m ⟨⟩
    case held =>
      intro q a t hholds
      apply absurd hholds (hnone q a t)
  have hauthentic : N.Authentic f s := by
    apply N.machine.run_invariant _ hstart hmeets hrun
    intro s e o s' h hmay hstep
    cases e with
    | act p e => apply h.act hfaithful hmay hstep
    | deliver q i j => apply h.deliver hfaithful hstep
  obtain ⟨p, dst, haddr, hreaches, hasked⟩ := hauthentic.held q a t hholds
  have haskedBy : N.AskedBy host ([] ++ es) s := by
    apply N.machine.run_history (fun _ _ _ _ _ h hstep => h.step hstep) _ hrun
    refine ⟨⟨[], rfl⟩, ?_⟩
    rintro p dst t ⟨⟩
  exact ⟨p, dst, haddr, hreaches, haskedBy.2 p dst t hasked⟩

end Network

end Basis
