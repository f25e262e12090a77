import IFreeChat.Basis.Links
import IFreeChat.Basis.Machine
import Mathlib.Data.Fintype.Basic

/-!
# The members of groups

A group of `group.c` has its members in a ring, from its `ulist` through the `gnode` of every
user.  A user has one `gnode`, so that a user who is added to a second group is taken out of the
ring of the first one without that ring being closed.

The rings have the members that were added and not removed exactly as long as every user who is
added is in no group (`members_walked_iff`).
-/

open Basis

namespace IFreeChat

namespace Peer

namespace Groups

variable {γ υ : Type*} [DecidableEq γ] [DecidableEq υ]

/-- The nodes: the `ulist` of every group and the `gnode` of every user. -/
abbrev Node (γ υ : Type*) := γ ⊕ υ

/-- `group_add_user`: the return code and the links after it. -/
def groupAddUser (links : Links (Node γ υ)) (gp : Option γ) (user : Option υ) :
    Int × Links (Node γ υ) :=
  match gp, user with
  | some gp, some user => (0, links.addTail (.inr user) (.inl gp))
  | _, _ => (-1, links)

/-- `group_del_user`: the return code and the links after it. -/
def groupDelUser (links : Links (Node γ υ)) (gp : Option γ) (user : Option υ) :
    Int × Links (Node γ υ) :=
  match gp, user with
  | some _, some user => (0, links.del (.inr user))
  | _, _ => (-1, links)

/-- The body of the loop of `group_find_user`, which takes every node for the `gnode` of a
user; behind the `ulist` of a group there is no user to be read. -/
def findBody (ipaddr : υ → List UInt8) (ip : List UInt8) : Node γ υ → Option (Option υ)
  | .inl _ => none
  | .inr user => some (if ipaddr user = ip then some user else none)

/-- `group_find_user`, where `user` is what the variable has before it is set; `none` when it
does not return within the fuel. -/
def groupFindUser (links : Links (Node γ υ)) (ipaddr : υ → List UInt8) (gp : Option γ)
    (ip : List UInt8) (user : Option υ) (fuel : Nat) : Option (Option υ) :=
  match gp, user with
  | some gp, some _ =>
      links.foreach (.inl gp) (findBody ipaddr ip) fuel (links.next (.inl gp))
  | _, _ => some none

/-- The calls that change a group. -/
inductive GroupEvent (γ υ : Type*) where
  | add (gp : γ) (user : υ)
  | del (gp : γ) (user : υ)

/-- The machine of the calls. -/
def machine : Machine (Links (Node γ υ)) (GroupEvent γ υ) Int where
  step links
    | .add gp user => some (groupAddUser links (some gp) (some user))
    | .del gp user => some (groupDelUser links (some gp) (some user))

/-- The users who were added to every group and not removed since, in the order in which they
were added. -/
def record (members : γ → List υ) (_ : Links (Node γ υ)) : GroupEvent γ υ → γ → List υ
  | .add gp user => Function.update members gp (members gp ++ [user])
  | .del gp user => Function.update members gp ((members gp).erase user)

/-- The machine of the calls, with the members beside it. -/
def groupMachine : Machine (Links (Node γ υ) × (γ → List υ)) (GroupEvent γ υ) Int :=
  machine.withHistory record

/-- A user is added to a group that does not have it, or removed from one that does. -/
def Admissible (s : Links (Node γ υ) × (γ → List υ)) : GroupEvent γ υ → Prop
  | .add gp user => user ∉ s.2 gp
  | .del gp user => user ∈ s.2 gp

/-- A user who is added is in no group. -/
def InNoGroup (s : Links (Node γ υ) × (γ → List υ)) : GroupEvent γ υ → Prop
  | .add _ user => ∀ gp, user ∉ s.2 gp
  | .del _ _ => True

instance (s : Links (Node γ υ) × (γ → List υ)) : ∀ e, Decidable (Admissible s e)
  | .add gp user => inferInstanceAs (Decidable (user ∉ s.2 gp))
  | .del gp user => inferInstanceAs (Decidable (user ∈ s.2 gp))

instance [Fintype γ] (s : Links (Node γ υ) × (γ → List υ)) : ∀ e, Decidable (InNoGroup s e)
  | .add _ user => inferInstanceAs (Decidable (∀ gp, user ∉ s.2 gp))
  | .del _ _ => .isTrue trivial

/-- Every walk along a group has its members in their order, and every search for a user
ends. -/
structure Walked (ipaddr : υ → List UInt8) (links : Links (Node γ υ)) (members : γ → List υ) :
    Prop where
  walk : ∀ gp, ∃ fuel,
    links.walk (.inl gp) fuel (links.next (.inl gp)) = some ((members gp).map .inr)
  ends : ∀ gp ip user, ∃ fuel, (groupFindUser links ipaddr gp ip user fuel).isSome

variable {ipaddr : υ → List UInt8} {links : Links (Node γ υ)} {members : γ → List υ}

/-- Rings of the members are walked, and every search in them ends. -/
theorem walked_of_rings (h : links.Rings members) :
  Walked ipaddr links members
  := by
  constructor
  · intro gp
    use (members gp).length + 1
    apply h.walk gp (Nat.lt_succ_self _)
  · intro gp ip user
    match gp, user with
    | none, _ => exact ⟨0, rfl⟩
    | some gp, none => exact ⟨0, rfl⟩
    | some gp, some user =>
      use (members gp).length + 1
      rw [groupFindUser, h.foreach gp (fun _ _ => rfl) (Nat.lt_succ_self _)]
      rfl

/-- Behind a node of a walk comes a user or the head of the group, and behind a user who is
added the head of that group: a walk that had the user before does not end. -/
theorem not_mem_of_walked {gp : γ} {user : υ} (hrings : links.Rings members)
    (huser : user ∉ members gp)
    (h : Walked ipaddr (links.addTail (.inr user) (.inl gp))
      (Function.update members gp (members gp ++ [user]))) (gp' : γ) :
  user ∉ members gp'
  := by
  intro hmem
  have hne : gp' ≠ gp := by
    rintro rfl
    apply huser hmem
  obtain ⟨fuel, hwalk⟩ := h.walk gp'
  rw [Function.update_of_ne hne] at hwalk
  have hnext := Links.next_of_mem_walk hwalk (List.mem_map_of_mem hmem)
  rw [(hrings.ring gp).addTail_next (mt Links.inr_mem_iff.mp huser)] at hnext
  simp [hne.symm] at hnext

/-- From rings of the members, a call that is admissible leads to members that are walked
exactly when a user who is added is in no group. -/
theorem step_walked_iff {s : Links (Node γ υ) × (γ → List υ)} {e : GroupEvent γ υ}
    (h : s.1.Rings s.2) (hadmissible : Admissible s e) :
  (∀ o s', groupMachine.step s e = some (o, s') → Walked ipaddr s'.1 s'.2) ↔ InNoGroup s e
  := by
  cases e with
  | add gp user =>
    constructor
    · intro hwalked
      apply not_mem_of_walked h hadmissible (hwalked _ _ rfl)
    · intro hnone o s' hstep
      cases hstep
      apply walked_of_rings (h.addTail hnone)
  | del gp user =>
    apply iff_of_true _ trivial
    intro o s' hstep
    cases hstep
    apply walked_of_rings (h.del hadmissible)

/-- A call that adds no user of a group keeps the rings. -/
theorem step_rings {s s' : Links (Node γ υ) × (γ → List υ)} {e : GroupEvent γ υ} {o : Int}
    (h : s.1.Rings s.2) (hadmissible : Admissible s e) (hnone : InNoGroup s e)
    (hstep : groupMachine.step s e = some (o, s')) :
  s'.1.Rings s'.2
  := by
  cases e with
  | add gp user =>
    cases hstep
    apply h.addTail hnone
  | del gp user =>
    cases hstep
    apply h.del hadmissible

/-- From groups without members on, in every state that is reached the walk along every group
has the users that were added to it and not removed since, in their order, and every search
ends, exactly where every user who is added is in no group. -/
theorem members_walked_iff (ipaddr : υ → List UInt8) (prev next : υ → Node γ υ)
    {es : List (GroupEvent γ υ)}
    (hadmissible : groupMachine.Meets Admissible (Links.heads prev next, fun _ => []) es) :
  (∀ es' os links members, es' <+: es →
      groupMachine.run (Links.heads prev next, fun _ => []) es' = some (os, links, members) →
      Walked ipaddr links members)
    ↔ groupMachine.Meets InNoGroup (Links.heads prev next, fun _ => []) es
  := by
  have hstart : (Links.heads prev next).Rings (fun _ : γ => ([] : List υ)) :=
    Links.heads_rings prev next
  have hiff : ∀ (s : Links (Node γ υ) × (γ → List υ)) e, s.1.Rings s.2 → Admissible s e →
      ((∀ o s', groupMachine.step s e = some (o, s') → Walked ipaddr s'.1 s'.2)
        ↔ InNoGroup s e) := fun _ _ hs he => step_walked_iff hs he
  have hsteps := groupMachine.meets_iff hiff
    (fun _ _ _ _ hs he hnone hstep => step_rings hs he hnone hstep) hstart hadmissible
  rw [← hsteps, groupMachine.meets_iff_reached (walked_of_rings hstart)]
  constructor
  · rintro h es' os ⟨links, members⟩ hprefix hrun
    apply h es' os links members hprefix hrun
  · intro h es' os links members hprefix hrun
    apply h es' os (links, members) hprefix hrun

/-- Two users of one group, one of whom is removed again. -/
theorem members_walked_two :
  groupMachine.Meets InNoGroup (Links.heads .inr .inr, fun _ : Fin 2 => ([] : List (Fin 2)))
      [.add 0 0, .add 0 1, .del 0 0]
    ∧ ∀ es' os links members, es' <+: [.add 0 0, .add 0 1, .del 0 0] →
        groupMachine.run (Links.heads .inr .inr, fun _ : Fin 2 => ([] : List (Fin 2))) es'
          = some (os, links, members) →
        Walked (fun _ => []) links members
  := by
  have hnone : groupMachine.Meets InNoGroup
      (Links.heads .inr .inr, fun _ : Fin 2 => ([] : List (Fin 2)))
      [.add 0 0, .add 0 1, .del 0 0] := by decide
  exact ⟨hnone, (members_walked_iff _ _ _ (by decide)).mpr hnone⟩

/-- A user who is added to a second group takes the walk along the first one to the second. -/
theorem second_group_not_walked :
  ∃ es : List (GroupEvent (Fin 2) (Fin 1)),
    groupMachine.Meets Admissible (Links.heads .inr .inr, fun _ => []) es
    ∧ ∃ os links members,
        groupMachine.run (Links.heads .inr .inr, fun _ => []) es = some (os, links, members)
          ∧ ¬ Walked (fun _ => []) links members
  := by
  refine ⟨[.add 0 0, .add 1 0], by decide, _, _, _, rfl, ?_⟩
  intro h
  have hrings := (Links.heads_rings (ι := Fin 2) (κ := Fin 1) .inr .inr).addTail
    (i := 0) (k := 0) (by simp)
  have hone : (0 : Fin 1) ∉ Function.update (fun _ => []) (0 : Fin 2) [0] 1 := by decide
  apply not_mem_of_walked hrings hone h 0
  decide

end Groups

end Peer

end IFreeChat
