import IFreeChat.Basis.Links

/-!
# Loops that give their nodes back

A loop that has read the next node before its body is run may do away with the node it is at:
the body may take the node out of its ring, or not, and give its memory back.  The loop ends at
the head, having run its body on the nodes of the ring, each one once and in their order
(`drain_of_chain`, `Ring.drain`).
-/

namespace Basis

namespace Links

variable {α σ : Type*} [DecidableEq α]

/-- The loop from `pos` on up to `head` that has read the next node before its body is run;
`none` when the body does not return, or when the nodes are more than the fuel. -/
def drain (links : σ → Links α) (body : α → σ → Option σ) (head : α) :
    (fuel : Nat) → (pos n : α) → σ → Option σ
  | 0, _, _, _ => none
  | fuel + 1, pos, n, s =>
      if pos = head then some s
      else do
        let s ← body pos s
        drain links body head fuel n ((links s).next n) s

variable {links : σ → Links α} {body : α → σ → Option σ} {head : α} {I : List α → σ → Prop}

/-- Where `I xs` tells of the states in which the nodes `xs` are left: the nodes that are left are
linked one after the other up to the head, and the body does away with the first one. -/
theorem drain_of_chain {nodes : List α} {s : σ} (hs : I nodes s)
    (hnext : ∀ x xs s, I (x :: xs) s → x ≠ head ∧ ∃ ys, xs ++ [head] = (links s).next x :: ys)
    (hbody : ∀ x xs s, I (x :: xs) s → ∃ t, body x s = some t ∧ I xs t)
    {fuel : Nat} (hfuel : nodes.length < fuel) :
  ∃ pos ys, nodes ++ [head] = pos :: ys
    ∧ ∃ t, drain links body head fuel pos ((links s).next pos) s = some t ∧ I [] t
  := by
  induction nodes generalizing s fuel with
  | nil =>
    obtain ⟨fuel, rfl⟩ := Nat.exists_eq_succ_of_ne_zero (Nat.ne_zero_of_lt hfuel)
    refine ⟨head, [], rfl, s, ?_, hs⟩
    rw [drain, if_pos rfl]
  | cons x nodes ih =>
    obtain ⟨fuel, rfl⟩ := Nat.exists_eq_succ_of_ne_zero (Nat.ne_zero_of_lt hfuel)
    obtain ⟨hhead, ys, hys⟩ := hnext x nodes s hs
    obtain ⟨s', hs', hrest⟩ := hbody x nodes s hs
    obtain ⟨pos, zs, hpos, t, hdrain, ht⟩ := ih hrest (Nat.lt_of_succ_lt_succ hfuel)
    rw [hys] at hpos
    obtain ⟨rfl, -⟩ := List.cons.inj hpos
    refine ⟨x, nodes ++ [head], rfl, t, ?_, ht⟩
    rw [drain, if_neg hhead, hs']
    apply hdrain

/-- A loop whose body takes the first node of the ring out of it and keeps what holds of the state
empties the ring. -/
theorem Ring.drain {nodes : List α} {s : σ} (hring : (links s).Ring head nodes) (hs : I nodes s)
    (hbody : ∀ x xs s, (links s).Ring head (x :: xs) → I (x :: xs) s →
      ∃ t, body x s = some t ∧ (links t).Ring head xs ∧ I xs t)
    {fuel : Nat} (hfuel : nodes.length < fuel) :
  ∃ t, Links.drain links body head fuel ((links s).next head)
      ((links s).next ((links s).next head)) s = some t
    ∧ (links t).Ring head [] ∧ I [] t
  := by
  have hnext : ∀ x xs s, (links s).Ring head (x :: xs) ∧ I (x :: xs) s →
      x ≠ head ∧ ∃ ys, xs ++ [head] = (links s).next x :: ys := by
    rintro x xs s ⟨hring, -⟩
    have hfirst : (links s).Ring head ([] ++ x :: xs) := hring
    obtain ⟨-, ys, -, hys, -⟩ := hfirst.parts
    exact ⟨(hfirst.ne_node (Or.inl List.mem_cons_self)).symm, ys, hys⟩
  obtain ⟨pos, ys, hpos, hdrain⟩ := drain_of_chain
    (I := fun xs s => (links s).Ring head xs ∧ I xs s) ⟨hring, hs⟩ hnext
    (fun x xs s h => hbody x xs s h.1 h.2) hfuel
  have hfirst : (links s).next head = pos := by
    have hchain := hring.chain
    rw [hpos, List.isChain_cons_cons] at hchain
    exact hchain.1.1
  rw [hfirst]
  exact hdrain

end Links

end Basis
