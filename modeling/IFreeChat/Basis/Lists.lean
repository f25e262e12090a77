import IFreeChat.Basis.Links
import IFreeChat.Basis.Machine
import Mathlib.Data.Fintype.Basic

/-!
# Lists in a heap of nodes

Some nodes of a heap are the heads of lists, and every other node is in the ring of exactly one
head or linked to itself (`Lists`).  A node that is linked to itself may be put behind the head
of a list or behind its last node, and one that is linked to others may be taken out; a list of
nodes says what each of the lists then is (`Edit.on`), and no other ring changes (`Lists.edit`,
`Lists.edit_links`).

What holds of a ring along `next` holds of the reversed one along `prev` (`Ring.flip`).  A loop
that reads the next node before its body is run may take the node it is at out of its ring
(`sweep_of_ring`).
-/

namespace Basis

namespace Links

/-! ### Links the other way round -/

section Flip

variable {α : Type*}

/-- The links with `prev` and `next` exchanged. -/
def flip (l : Links α) : Links α where
  prev := l.next
  next := l.prev

variable {l : Links α} {head node x : α} {nodes : List α}

/-- A ring is one in the reversed order for the links the other way round. -/
theorem Ring.flip (h : l.Ring head nodes) :
  l.flip.Ring head nodes.reverse
  := by
  obtain ⟨hhead, hnodes⟩ := List.nodup_cons.mp h.nodup
  constructor
  · apply List.nodup_cons.mpr
    rw [List.mem_reverse, List.nodup_reverse]
    exact ⟨hhead, hnodes⟩
  · have hreverse : head :: (nodes.reverse ++ [head]) = (head :: (nodes ++ [head])).reverse := by
      simp
    rw [hreverse, List.isChain_reverse]
    apply h.chain.imp
    rintro x y ⟨hnext, hprev⟩
    exact ⟨hprev, hnext⟩

/-- The neighbours of a node are in its ring. -/
theorem Ring.neighbours_mem {before after : List α} (h : l.Ring head (before ++ node :: after)) :
  l.prev node ∈ head :: (before ++ node :: after)
    ∧ l.next node ∈ head :: (before ++ node :: after)
  := by
  have hprev := h.prev_mem
  have hnext := h.next_mem
  simp only [List.mem_cons, List.mem_append, List.not_mem_nil, or_false] at hprev hnext ⊢
  tauto

/-- The rest of a ring, without one of its nodes. -/
theorem Ring.mem_rest {before after : List α} (h : l.Ring head (before ++ node :: after))
    (hx : x ∈ head :: (before ++ after)) :
  x ∈ head :: (before ++ node :: after) ∧ x ≠ node
  := by
  have hx' : x ∈ head :: before ∨ x ∈ after ++ [head] := by
    simp only [List.mem_cons, List.mem_append, List.not_mem_nil, or_false] at hx ⊢
    tauto
  constructor
  · simp only [List.mem_cons, List.mem_append] at hx ⊢
    tauto
  · apply h.ne_node hx'

theorem Ring.next_head_mem (h : l.Ring head nodes) :
  l.next head ∈ head :: nodes
  := by
  have hmem := h.flip.prev_head_mem
  rw [List.mem_cons, List.mem_reverse, ← List.mem_cons] at hmem
  apply hmem

/-- A node that is alone in its ring is in no other one. -/
theorem Ring.not_mem_of_linked (h : l.Ring head nodes) (hx : l.Linked x x) :
  x ∉ nodes
  := by
  intro hmem
  obtain ⟨before, after, rfl⟩ := List.append_of_mem hmem
  apply h.ne_node (Or.inr h.next_mem) hx.1

theorem ring_nil_iff :
  l.Ring head [] ↔ l.Linked head head
  := by
  constructor
  · intro h
    exact List.isChain_pair.mp h.chain
  · intro h
    exact ⟨List.nodup_singleton head, List.isChain_pair.mpr h⟩

variable [DecidableEq α]

/-- The node is linked in behind the head. -/
def add (l : Links α) (node head : α) : Links α :=
  l.addBetween node head (l.next head)

/-- Behind the head is before it for the links the other way round. -/
theorem Ring.add_eq (h : l.Ring head nodes) (hnode : node ∉ head :: nodes) :
  l.add node head = (l.flip.addTail node head).flip
  := by
  have hhead : node ≠ head := List.ne_of_not_mem_cons hnode
  have hfirst : node ≠ l.next head := by
    rintro rfl
    apply hnode h.next_head_mem
  simp only [Links.add, addBetween, Links.addTail, Links.flip, Links.mk.injEq]
  constructor
  · apply Function.update_comm hfirst.symm
  · apply Function.update_comm hhead

/-- A new node is put behind the head. -/
theorem Ring.add (h : l.Ring head nodes) (hnode : node ∉ head :: nodes) :
  (l.add node head).Ring head (node :: nodes)
  := by
  have hnode' : node ∉ head :: nodes.reverse := by
    simpa using hnode
  have hring := (h.flip.addTail hnode').flip
  rw [List.reverse_append, List.reverse_reverse, List.reverse_singleton,
    List.singleton_append] at hring
  rw [h.add_eq hnode]
  apply hring

/-- A node that is added behind the head changes no link outside of the ring. -/
theorem Ring.add_links (h : l.Ring head nodes) (hnode : node ∉ head :: nodes)
    (hx : x ∉ node :: head :: nodes) :
  (l.add node head).next x = l.next x ∧ (l.add node head).prev x = l.prev x
  := by
  have hx' : x ∉ node :: head :: nodes.reverse := by
    simpa using hx
  rw [h.add_eq hnode]
  exact (h.flip.addTail_links hx').symm

end Flip

/-! ### Lists -/

section Lists

variable {ι α : Type*}

/-- Every node of the heap is in one ring: in that of one head, or alone in its own. -/
structure Lists (l : Links α) (nodes : List α) (head : ι → α) (lists : ι → List α) : Prop where
  ring : ∀ i, l.Ring (head i) (lists i)
  disjoint : ∀ i j, i ≠ j → (head i :: lists i).Disjoint (head j :: lists j)
  mem : ∀ i, ∀ x ∈ head i :: lists i, x ∈ nodes
  alone : ∀ x ∈ nodes, (∀ i, x ∉ head i :: lists i) → l.Ring x []

/-- What is done to a heap: a node is put behind the head of a list, or behind its last node, or
is taken out of its list. -/
inductive Edit (ι α : Type*) where
  | add (node : α) (i : ι)
  | addTail (node : α) (i : ι)
  | del (node : α)

/-- The node that is put or taken. -/
def Edit.node : Edit ι α → α
  | .add node _ => node
  | .addTail node _ => node
  | .del node => node

/-- A node that is put into a list is linked to itself, and one that is taken out is not; it is
no head. -/
def Edit.Legal (nodes : List α) (head : ι → α) (l : Links α) (e : Edit ι α) : Prop :=
  e.node ∈ nodes ∧ (∀ i, e.node ≠ head i) ∧
    match e with
    | .add node _ => l.Linked node node
    | .addTail node _ => l.Linked node node
    | .del node => ¬ l.Linked node node

instance (l : Links α) [DecidableEq α] (x y : α) : Decidable (l.Linked x y) :=
  inferInstanceAs (Decidable (_ ∧ _))

instance (nodes : List α) (head : ι → α) (l : Links α) [Fintype ι] [DecidableEq α] :
    (e : Edit ι α) → Decidable (e.Legal nodes head l)
  | .add _ _ => inferInstanceAs (Decidable (_ ∧ _ ∧ _))
  | .addTail _ _ => inferInstanceAs (Decidable (_ ∧ _ ∧ _))
  | .del _ => inferInstanceAs (Decidable (_ ∧ _ ∧ _))

variable [DecidableEq α]

/-- The links after it. -/
def Edit.apply (head : ι → α) (l : Links α) : Edit ι α → Links α
  | .add node i => l.add node (head i)
  | .addTail node i => l.addTail node (head i)
  | .del node => l.del node

/-- The lists after it. -/
def Edit.on [DecidableEq ι] (lists : ι → List α) : Edit ι α → ι → List α
  | .add node i => Function.update lists i (node :: lists i)
  | .addTail node i => Function.update lists i (lists i ++ [node])
  | .del node => fun i => (lists i).erase node

/-- The list is the one to which the node is put or from which it is taken. -/
def Edit.Touches (lists : ι → List α) (i : ι) : Edit ι α → Prop
  | .add _ j => i = j
  | .addTail _ j => i = j
  | .del node => node ∈ lists i

variable {l l' : Links α} {nodes : List α} {head : ι → α} {lists : ι → List α} {i : ι} {node x : α}

omit [DecidableEq α] in
theorem Lists.congr (h : l.Lists nodes head lists)
    (hlinks : ∀ x ∈ nodes, l'.next x = l.next x ∧ l'.prev x = l.prev x) :
  l'.Lists nodes head lists
  := by
  refine ⟨?_, h.disjoint, h.mem, ?_⟩
  · intro i
    apply (h.ring i).congr
    intro x hx
    apply hlinks x (h.mem i x hx)
  · intro x hx hnot
    apply (h.alone x hx hnot).congr
    intro y hy
    rw [List.mem_singleton.mp hy]
    apply hlinks x hx

omit [DecidableEq α] in
/-- A node that is linked to itself is in no list. -/
theorem Lists.not_mem_of_linked (h : l.Lists nodes head lists) (hnode : ∀ i, node ≠ head i)
    (hlinked : l.Linked node node) (i : ι) :
  node ∉ head i :: lists i
  := by
  rw [List.mem_cons, not_or]
  exact ⟨hnode i, (h.ring i).not_mem_of_linked hlinked⟩

omit [DecidableEq α] in
/-- A node that is not linked to itself is in a list. -/
theorem Lists.exists_mem (h : l.Lists nodes head lists) (hmem : node ∈ nodes)
    (hnode : ∀ i, node ≠ head i) (hlinked : ¬ l.Linked node node) :
  ∃ i, node ∈ lists i
  := by
  by_contra hnot
  apply hlinked
  apply ring_nil_iff.mp
  apply h.alone node hmem
  intro i
  rw [List.mem_cons, not_or]
  exact ⟨hnode i, fun hi => hnot ⟨i, hi⟩⟩

omit [DecidableEq α] in
theorem Lists.eq_of_mem (h : l.Lists nodes head lists) {i j : ι} (hi : x ∈ head i :: lists i)
    (hj : x ∈ head j :: lists j) :
  i = j
  := by
  by_contra hij
  apply h.disjoint i j hij hi hj

section

variable [DecidableEq ι]

omit [DecidableEq α] in
/-- What is in the rings when one of them has a new node. -/
theorem mem_insert_iff {ks : List α} (hks : ∀ x, x ∈ ks ↔ x = node ∨ x ∈ lists i) {j : ι} :
  x ∈ head j :: Function.update lists i ks j ↔ x ∈ head j :: lists j ∨ (j = i ∧ x = node)
  := by
  by_cases hj : j = i
  · subst hj
    rw [Function.update_self]
    simp only [List.mem_cons, hks x]
    tauto
  · rw [Function.update_of_ne hj]
    simp only [hj, false_and, or_false]

omit [DecidableEq α] in
/-- A new node in one ring leaves the others as they are. -/
theorem Lists.insert (h : l.Lists nodes head lists) (hmem : node ∈ nodes)
    (hnew : ∀ j, node ∉ head j :: lists j) {ks : List α} (hring : l'.Ring (head i) ks)
    (hks : ∀ x, x ∈ ks ↔ x = node ∨ x ∈ lists i)
    (hlinks : ∀ x, x ∉ node :: head i :: lists i → l'.next x = l.next x ∧ l'.prev x = l.prev x) :
  l'.Lists nodes head (Function.update lists i ks)
  := by
  constructor
  · intro j
    by_cases hj : j = i
    · subst hj
      rw [Function.update_self]
      apply hring
    · rw [Function.update_of_ne hj]
      apply (h.ring j).congr
      intro x hx
      apply hlinks
      rw [List.mem_cons, not_or]
      constructor
      · rintro rfl
        apply hnew j hx
      · intro hx'
        apply h.disjoint j i hj hx hx'
  · intro j j' hne x hx hx'
    rcases (mem_insert_iff hks).mp hx with hxj | ⟨rfl, rfl⟩
    · rcases (mem_insert_iff hks).mp hx' with hxj' | ⟨rfl, rfl⟩
      · apply h.disjoint j j' hne hxj hxj'
      · apply hnew j hxj
    · rcases (mem_insert_iff hks).mp hx' with hxj' | ⟨rfl, -⟩
      · apply hnew j' hxj'
      · apply hne rfl
  · intro j x hx
    rcases (mem_insert_iff hks).mp hx with hx | ⟨-, rfl⟩
    · apply h.mem j x hx
    · exact hmem
  · intro x hx hnot
    have hold : ∀ j, x ∉ head j :: lists j := by
      intro j hxj
      apply hnot j ((mem_insert_iff hks).mpr (Or.inl hxj))
    have hne : x ≠ node := by
      rintro rfl
      apply hnot i ((mem_insert_iff hks).mpr (Or.inr ⟨rfl, rfl⟩))
    apply (h.alone x hx hold).congr
    intro y hy
    rw [List.mem_singleton.mp hy]
    apply hlinks x
    rw [List.mem_cons, not_or]
    exact ⟨hne, hold i⟩

end

/-- A node that is taken out of its list is alone, and the other lists are as they were. -/
theorem Lists.del (h : l.Lists nodes head lists) (hmem : node ∈ lists i) :
  (l.del node).Lists nodes head fun j => (lists j).erase node
  := by
  obtain ⟨before, after, hbefore, hnodes, herase⟩ := List.exists_erase_eq hmem
  have hi := h.ring i
  rw [hnodes] at hi
  have hlinks : ∀ x, x ∉ head i :: lists i →
      (l.del node).next x = l.next x ∧ (l.del node).prev x = l.prev x := by
    intro x hx
    apply hi.del_links
    rw [← hnodes]
    exact hx
  have hother : ∀ j, j ≠ i → (lists j).erase node = lists j := by
    intro j hj
    apply List.erase_of_not_mem
    intro hnode
    apply hj (h.eq_of_mem (List.mem_cons_of_mem _ hnode) (List.mem_cons_of_mem _ hmem))
  have hsub : ∀ j, ∀ x ∈ head j :: (lists j).erase node, x ∈ head j :: lists j := by
    intro j x hx
    apply List.cons_subset_cons _ List.erase_subset hx
  constructor
  · intro j
    by_cases hj : j = i
    · subst hj
      rw [herase]
      apply hi.del
    · rw [hother j hj]
      apply (h.ring j).congr
      intro x hx
      apply hlinks
      apply h.disjoint j i hj hx
  · intro j j' hne x hx hx'
    apply h.disjoint j j' hne (hsub j x hx) (hsub j' x hx')
  · intro j x hx
    apply h.mem j x (hsub j x hx)
  · intro x hx hnot
    by_cases hnode : x = node
    · subst hnode
      apply Ring.init
    · have hx' : ∀ j, x ∉ head j :: lists j := by
        intro j hxj
        apply hnot j
        obtain rfl | hxj := List.mem_cons.mp hxj
        · exact List.mem_cons_self
        · apply List.mem_cons_of_mem
          apply (List.mem_erase_of_ne hnode).mpr hxj
      apply (h.alone x hx hx').congr
      intro y hy
      rw [List.mem_singleton.mp hy]
      apply hlinks x (hx' i)

variable [DecidableEq ι] {e : Edit ι α}

/-- What is done to a heap keeps its lists, which are then those that are said. -/
theorem Lists.edit (h : l.Lists nodes head lists) (he : e.Legal nodes head l) :
  (e.apply head l).Lists nodes head (e.on lists)
  := by
  obtain ⟨hmem, hhead, hlinked⟩ := he
  cases e with
  | add node i =>
    have hnew := h.not_mem_of_linked hhead hlinked
    apply h.insert hmem hnew ((h.ring i).add (hnew i))
    · intro x
      apply List.mem_cons
    · intro x hx
      apply (h.ring i).add_links (hnew i) hx
  | addTail node i =>
    have hnew := h.not_mem_of_linked hhead hlinked
    apply h.insert hmem hnew ((h.ring i).addTail (hnew i))
    · intro x
      rw [List.mem_append, List.mem_singleton, or_comm]
    · intro x hx
      apply (h.ring i).addTail_links hx
  | del node =>
    obtain ⟨i, hi⟩ := h.exists_mem hmem hhead hlinked
    apply h.del hi

omit [DecidableEq ι] in
/-- It changes no link but those of its node and of the ring it touches. -/
theorem Lists.edit_links (h : l.Lists nodes head lists) (he : e.Legal nodes head l)
    (hnode : x ≠ e.node) (hx : ∀ i, e.Touches lists i → x ∉ head i :: lists i) :
  (e.apply head l).next x = l.next x ∧ (e.apply head l).prev x = l.prev x
  := by
  obtain ⟨hmem, hhead, hlinked⟩ := he
  cases e with
  | add node i =>
    have hnew := h.not_mem_of_linked hhead hlinked i
    apply (h.ring i).add_links hnew
    rw [List.mem_cons, not_or]
    exact ⟨hnode, hx i rfl⟩
  | addTail node i =>
    apply (h.ring i).addTail_links
    rw [List.mem_cons, not_or]
    exact ⟨hnode, hx i rfl⟩
  | del node =>
    obtain ⟨i, hi⟩ := h.exists_mem hmem hhead hlinked
    have hring := h.ring i
    obtain ⟨before, after, hnodes⟩ := List.append_of_mem hi
    rw [hnodes] at hring
    apply hring.del_links
    rw [← hnodes]
    apply hx i hi

end Lists

/-! ### A loop that changes its ring -/

section Sweep

variable {α σ : Type*} [DecidableEq α]

/-- The loop from `pos` on up to `head` that has read the next node before its body, which may
change the links, is run: the nodes it visits and the state it ends in. -/
def sweep (links : σ → Links α) (body : α → σ → σ) (head : α) :
    (fuel : Nat) → (pos n : α) → σ → Option (List α × σ)
  | 0, _, _, _ => none
  | fuel + 1, pos, n, s =>
      if pos = head then some ([], s)
      else
        let s := body pos s
        (sweep links body head fuel n ((links s).next n) s).map fun r => (pos :: r.1, r.2)

/-- The nodes that a loop over these nodes leaves in their ring. -/
def kept (body : α → σ → σ) (deletes : α → σ → Bool) : List α → σ → List α
  | [], _ => []
  | x :: xs, s =>
      if deletes x s then kept body deletes xs (body x s)
      else x :: kept body deletes xs (body x s)

variable {links : σ → Links α} {body : α → σ → σ} {deletes : α → σ → Bool} {P : σ → Prop}
  {head : α}

/-- A loop whose body takes the node it is at out of the ring, or leaves the ring as it is,
visits the nodes that were in the ring, each one once and in their order. -/
theorem sweep_of_ring {nodes before after : List α} {s : σ} (hs : P s)
    (hring : (links s).Ring head (before ++ after)) (hnodes : (before ++ after).Sublist nodes)
    (hbody : ∀ x s before after, P s → (links s).Ring head (before ++ x :: after) →
      (before ++ x :: after).Sublist nodes →
        P (body x s) ∧ (links (body x s)).Ring head
          (before ++ if deletes x s then after else x :: after))
    {fuel : Nat} (hfuel : after.length < fuel) :
  ∃ pos xs, after ++ [head] = pos :: xs
    ∧ ∃ t, sweep links body head fuel pos ((links s).next pos) s = some (after, t)
        ∧ t = after.foldl (fun s x => body x s) s ∧ P t
        ∧ (links t).Ring head (before ++ kept body deletes after s)
  := by
  induction after generalizing before s fuel with
  | nil =>
    obtain ⟨fuel, rfl⟩ := Nat.exists_eq_succ_of_ne_zero (Nat.ne_zero_of_lt hfuel)
    refine ⟨head, [], rfl, s, ?_, rfl, hs, hring⟩
    rw [sweep, if_pos rfl]
  | cons x after ih =>
    obtain ⟨fuel, rfl⟩ := Nat.exists_eq_succ_of_ne_zero (Nat.ne_zero_of_lt hfuel)
    obtain ⟨hs', hring'⟩ := hbody x s before after hs hring hnodes
    have hhead : x ≠ head := (hring.ne_node (Or.inl List.mem_cons_self)).symm
    obtain ⟨-, qs, -, hnext, -⟩ := hring.parts
    have hrest : ∃ pos xs, after ++ [head] = pos :: xs
        ∧ ∃ t, sweep links body head fuel pos ((links (body x s)).next pos) (body x s)
            = some (after, t)
          ∧ t = after.foldl (fun s x => body x s) (body x s) ∧ P t
          ∧ (links t).Ring head (before ++ kept body deletes (x :: after) s) := by
      rw [kept]
      cases hdel : deletes x s with
      | true =>
        rw [hdel, if_pos rfl] at hring'
        rw [if_pos rfl]
        apply ih hs' hring'
        · apply List.Sublist.trans _ hnodes
          apply (List.Sublist.refl before).append (List.sublist_cons_self x after)
        · apply Nat.lt_of_succ_lt_succ hfuel
      | false =>
        rw [hdel, if_neg (by decide), List.append_cons] at hring'
        rw [if_neg (by decide), List.append_cons before]
        rw [List.append_cons] at hnodes
        apply ih hs' hring' hnodes (Nat.lt_of_succ_lt_succ hfuel)
    obtain ⟨pos, xs, hpos, t, hsweep, ht, hP, hkept⟩ := hrest
    rw [hnext] at hpos
    obtain ⟨rfl, -⟩ := List.cons.inj hpos
    refine ⟨x, after ++ [head], rfl, t, ?_, ht, hP, hkept⟩
    rw [sweep, if_neg hhead]
    simp only [hsweep, Option.map_some]

/-- So does a loop from the first node of the ring on. -/
theorem Ring.sweep {nodes : List α} {s : σ} (hring : (links s).Ring head nodes) (hs : P s)
    (hbody : ∀ x s before after, P s → (links s).Ring head (before ++ x :: after) →
      (before ++ x :: after).Sublist nodes →
        P (body x s) ∧ (links (body x s)).Ring head
          (before ++ if deletes x s then after else x :: after))
    {fuel : Nat} (hfuel : nodes.length < fuel) :
  ∃ t, Links.sweep links body head fuel ((links s).next head)
      ((links s).next ((links s).next head)) s = some (nodes, t)
    ∧ t = nodes.foldl (fun s x => body x s) s ∧ P t
    ∧ (links t).Ring head (kept body deletes nodes s)
  := by
  obtain ⟨pos, xs, hpos, hsweep⟩ :=
    @sweep_of_ring α σ _ links body deletes P head nodes [] nodes s hs hring (List.Sublist.refl _)
      hbody fuel hfuel
  have hfirst : (links s).next head = pos := by
    have hchain := hring.chain
    rw [hpos, List.isChain_cons_cons] at hchain
    exact hchain.1.1
  rw [hfirst]
  apply hsweep

end Sweep

end Links

end Basis
