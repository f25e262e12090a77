import Mathlib.Data.List.Chain
import Mathlib.Data.List.Nodup
import Mathlib.Data.List.Perm.Lattice
import Mathlib.Data.Sum.Basic
import Mathlib.Logic.Function.Basic

/-!
# Rings of doubly linked nodes

`Links α` has the two links of every node of `α`.  A node is added before the head of a ring
and taken out from between its neighbours by four writes; whether the nodes form a ring is a
property of the links, `Ring`, and not part of them.

Adding a node that is new to a ring puts it behind the last one (`Ring.addTail`), taking one out
leaves the others in their order (`Ring.del`), and neither changes a link of a node outside of
the ring (`Ring.addTail_frame`, `Ring.del_frame`).  A loop along the links of a ring visits its
nodes in their order and ends (`Ring.walk`, `Ring.foreach`).  `Rings` is a family of rings that
share no node.
-/

namespace Basis

/-- The links of all nodes. -/
structure Links (α : Type*) where
  prev : α → α
  next : α → α

namespace Links

section Operations

variable {α : Type*} [DecidableEq α]

/-- The node is linked to itself. -/
def init (l : Links α) (node : α) : Links α where
  prev := Function.update l.prev node node
  next := Function.update l.next node node

/-- The node is linked in between two others. -/
def addBetween (l : Links α) (node prev next : α) : Links α where
  prev := Function.update (Function.update l.prev next node) node prev
  next := Function.update (Function.update l.next node next) prev node

/-- The node is linked in before the head. -/
def addTail (l : Links α) (node head : α) : Links α :=
  l.addBetween node (l.prev head) head

/-- Two nodes are linked to each other. -/
def delBetween (l : Links α) (prev next : α) : Links α where
  prev := Function.update l.prev next prev
  next := Function.update l.next prev next

/-- The neighbours of the node are linked to each other, and the node to itself. -/
def del (l : Links α) (node : α) : Links α :=
  (l.delBetween (l.prev node) (l.next node)).init node

/-- The nodes from `pos` on up to `head`; `none` when they are more than the fuel. -/
def walk (l : Links α) (head : α) : (fuel : Nat) → (pos : α) → Option (List α)
  | 0, _ => none
  | fuel + 1, pos =>
      if pos = head then some []
      else (l.walk head fuel (l.next pos)).map (pos :: ·)

/-- The loop from `pos` on up to `head` whose body leaves it with an answer, goes on, or does
not return. -/
def foreach {β : Type*} (l : Links α) (head : α) (body : α → Option (Option β)) :
    (fuel : Nat) → (pos : α) → Option (Option β)
  | 0, _ => none
  | fuel + 1, pos =>
      if pos = head then some none
      else
        match body pos with
        | none => none
        | some (some b) => some (some b)
        | some none => l.foreach head body fuel (l.next pos)

/-- The loop that has read the next node before its body is run. -/
def foreachSafe {β : Type*} (l : Links α) (head : α) (body : α → Option (Option β)) :
    (fuel : Nat) → (pos n : α) → Option (Option β)
  | 0, _, _ => none
  | fuel + 1, pos, n =>
      if pos = head then some none
      else
        match body pos with
        | none => none
        | some (some b) => some (some b)
        | some none => l.foreachSafe head body fuel n (l.next n)

/-- As long as the body changes no link, it does not matter when the next node is read. -/
theorem foreachSafe_eq {β : Type*} (l : Links α) (head : α) (body : α → Option (Option β))
    (fuel : Nat) (pos : α) :
  l.foreachSafe head body fuel pos (l.next pos) = l.foreach head body fuel pos
  := by
  induction fuel generalizing pos with
  | zero => rfl
  | succ fuel ih => rw [foreachSafe, foreach, ih]

end Operations

/-! ### Rings -/

section Ring

variable {α : Type*}

/-- The one node is before the other. -/
def Linked (l : Links α) (x y : α) : Prop := l.next x = y ∧ l.prev y = x

/-- The nodes are linked in a ring, in this order, that starts and ends at the head. -/
structure Ring (l : Links α) (head : α) (nodes : List α) : Prop where
  nodup : (head :: nodes).Nodup
  chain : List.IsChain l.Linked (head :: (nodes ++ [head]))

variable {l l' : Links α} {head node x : α} {nodes before after : List α}

/-- A chain reads the links forward of all but its last node, and those backward of all but
its first. -/
theorem chain_congr {xs : List α} (h : List.IsChain l.Linked xs)
    (hnext : ∀ x ∈ xs.dropLast, l'.next x = l.next x)
    (hprev : ∀ x ∈ xs.tail, l'.prev x = l.prev x) :
  List.IsChain l'.Linked xs
  := by
  induction xs with
  | nil => exact List.IsChain.nil
  | cons x xs ih =>
    cases xs with
    | nil => exact List.IsChain.singleton x
    | cons y ys =>
      obtain ⟨⟨hxy, hyx⟩, hrest⟩ := List.isChain_cons_cons.mp h
      rw [List.dropLast_cons_cons] at hnext
      apply List.isChain_cons_cons.mpr
      refine ⟨⟨?_, ?_⟩, ?_⟩
      · rw [hnext x List.mem_cons_self, hxy]
      · rw [hprev y List.mem_cons_self, hyx]
      · apply ih hrest
        · intro z hz
          apply hnext z (List.mem_cons_of_mem x hz)
        · intro z hz
          apply hprev z (List.mem_cons_of_mem y hz)

/-- A ring depends on the links of its own nodes only. -/
theorem Ring.congr (h : l.Ring head nodes)
    (hlinks : ∀ x ∈ head :: nodes, l'.next x = l.next x ∧ l'.prev x = l.prev x) :
  l'.Ring head nodes
  := by
  have hmem : ∀ x ∈ head :: (nodes ++ [head]), x ∈ head :: nodes := by
    intro x hx
    simp only [List.mem_cons, List.mem_append, List.not_mem_nil, or_false] at hx ⊢
    tauto
  refine ⟨h.nodup, chain_congr h.chain ?_ ?_⟩
  · intro x hx
    exact (hlinks x (hmem x (List.dropLast_subset _ hx))).1
  · intro x hx
    exact (hlinks x (hmem x (List.mem_of_mem_tail hx))).2

/-- The last node of a ring is the one before its head. -/
theorem Ring.last (h : l.Ring head nodes) :
  ∃ ys, head :: nodes = ys ++ [l.prev head]
  := by
  obtain ⟨ys, y, hnodes⟩ :=
    (List.eq_nil_or_concat' (head :: nodes)).resolve_left (List.cons_ne_nil head nodes)
  have hchain := h.chain
  rw [← List.cons_append, hnodes, List.append_assoc, List.singleton_append,
    List.isChain_append_cons_cons] at hchain
  use ys
  rw [hchain.2.1.2, hnodes]

/-- A node cuts its ring into the chain that ends with the node before it and the one that
starts with the node after it. -/
theorem Ring.parts (h : l.Ring head (before ++ node :: after)) :
  ∃ ps qs, head :: before = ps ++ [l.prev node] ∧ after ++ [head] = l.next node :: qs
    ∧ List.IsChain l.Linked (ps ++ [l.prev node]) ∧ List.IsChain l.Linked (l.next node :: qs)
  := by
  obtain ⟨ps, p, hps⟩ :=
    (List.eq_nil_or_concat' (head :: before)).resolve_left (List.cons_ne_nil head before)
  obtain ⟨q, qs, hqs⟩ :=
    List.exists_cons_of_ne_nil (List.append_ne_nil_of_right_ne_nil after (List.cons_ne_nil head []))
  have hring : head :: (before ++ node :: after ++ [head]) = ps ++ p :: node :: q :: qs := by
    rw [List.append_assoc, List.cons_append, hqs, ← List.cons_append, hps,
      List.append_assoc, List.singleton_append]
  have hchain := h.chain
  rw [hring, List.isChain_append_cons_cons, List.isChain_cons_cons] at hchain
  obtain ⟨hfirst, ⟨-, hprev⟩, ⟨hnext, -⟩, hsecond⟩ := hchain
  subst hprev hnext
  exact ⟨ps, qs, hps, hqs, hfirst, hsecond⟩

theorem Ring.prev_head_mem (h : l.Ring head nodes) :
  l.prev head ∈ head :: nodes
  := by
  obtain ⟨ys, hnodes⟩ := h.last
  rw [hnodes]
  apply List.mem_concat_self

theorem Ring.prev_mem (h : l.Ring head (before ++ node :: after)) :
  l.prev node ∈ head :: before
  := by
  obtain ⟨ps, qs, hbefore, -⟩ := h.parts
  rw [hbefore]
  apply List.mem_concat_self

theorem Ring.next_mem (h : l.Ring head (before ++ node :: after)) :
  l.next node ∈ after ++ [head]
  := by
  obtain ⟨ps, qs, -, hafter, -⟩ := h.parts
  rw [hafter]
  apply List.mem_cons_self

/-- Nothing before a node of a ring comes after it again. -/
theorem Ring.disjoint (h : l.Ring head (before ++ node :: after)) :
  (head :: before).Disjoint after
  := by
  have hnodup := h.nodup
  rw [← List.cons_append, List.nodup_append', List.disjoint_cons_right] at hnodup
  exact hnodup.2.2.2

/-- A node of a ring is none of the nodes before it and after it, up to the head. -/
theorem Ring.ne_node (h : l.Ring head (before ++ node :: after))
    (hx : x ∈ head :: before ∨ x ∈ after ++ [head]) :
  x ≠ node
  := by
  have hnodup := h.nodup
  rw [← List.cons_append, List.nodup_append', List.disjoint_cons_right] at hnodup
  obtain ⟨-, hafter, hbefore, -⟩ := hnodup
  rintro rfl
  rw [List.mem_append, List.mem_singleton] at hx
  obtain hx | hx | rfl := hx
  · apply hbefore hx
  · apply (List.nodup_cons.mp hafter).1 hx
  · apply hbefore List.mem_cons_self

theorem Ring.nodup_before (h : l.Ring head (before ++ node :: after)) :
  (head :: before).Nodup
  := by
  have hnodup := h.nodup
  rw [← List.cons_append] at hnodup
  exact hnodup.of_append_left

theorem Ring.nodup_after (h : l.Ring head (before ++ node :: after)) :
  (after ++ [head]).Nodup
  := by
  have hnodup := h.nodup
  rw [← List.cons_append] at hnodup
  apply List.Nodup.append hnodup.of_append_right.of_cons (List.nodup_singleton head)
  rw [List.disjoint_singleton]
  apply h.disjoint List.mem_cons_self

/-! ### The operations -/

variable [DecidableEq α]

theorem Ring.init (l : Links α) (head : α) :
  (l.init head).Ring head []
  := by
  refine ⟨List.nodup_singleton head, List.isChain_pair.mpr ⟨?_, ?_⟩⟩
  · apply Function.update_self
  · apply Function.update_self

/-- Behind a new node comes the head. -/
theorem Ring.addTail_next (h : l.Ring head nodes) (hnode : node ∉ head :: nodes) :
  (l.addTail node head).next node = head
  := by
  have hne : node ≠ l.prev head := by
    rintro rfl
    apply hnode h.prev_head_mem
  simp only [Links.addTail, addBetween, Function.update_of_ne hne, Function.update_self]

/-- A new node is put behind the last one. -/
theorem Ring.addTail (h : l.Ring head nodes) (hnode : node ∉ head :: nodes) :
  (l.addTail node head).Ring head (nodes ++ [node])
  := by
  obtain ⟨ys, hnodes⟩ := h.last
  have hnodup : (ys ++ [l.prev head]).Nodup := hnodes ▸ h.nodup
  have hlast : l.prev head ∉ ys := by
    intro hmem
    apply List.disjoint_of_nodup_append hnodup hmem List.mem_cons_self
  have hchain := h.chain
  rw [← List.cons_append, hnodes, List.append_assoc, List.singleton_append,
    List.isChain_append_cons_cons] at hchain
  constructor
  · rw [← List.cons_append]
    apply List.Nodup.append h.nodup (List.nodup_singleton node)
    simpa using hnode
  · rw [List.append_assoc, ← List.cons_append, hnodes, List.append_assoc,
      List.singleton_append, List.singleton_append, List.isChain_append_cons_cons]
    have hhead : head ≠ node := by
      rintro rfl
      apply hnode List.mem_cons_self
    refine ⟨chain_congr hchain.1 ?_ ?_, ⟨?_, ?_⟩, List.isChain_pair.mpr ⟨?_, ?_⟩⟩
    · intro x hx
      rw [List.dropLast_concat] at hx
      have hx₁ : x ≠ l.prev head := ne_of_mem_of_not_mem hx hlast
      have hx₂ : x ≠ node := by
        rintro rfl
        apply hnode
        rw [hnodes]
        apply List.mem_append_left _ hx
      simp only [Links.addTail, addBetween, Function.update_of_ne hx₁, Function.update_of_ne hx₂]
    · intro x hx
      rw [← hnodes, List.tail_cons] at hx
      have hx₁ : x ≠ head := ne_of_mem_of_not_mem hx (List.nodup_cons.mp h.nodup).1
      have hx₂ : x ≠ node := by
        rintro rfl
        apply hnode (List.mem_cons_of_mem _ hx)
      simp only [Links.addTail, addBetween, Function.update_of_ne hx₁, Function.update_of_ne hx₂]
    · apply Function.update_self
    · apply Function.update_self
    · apply h.addTail_next hnode
    · simp only [Links.addTail, addBetween, Function.update_of_ne hhead, Function.update_self]

/-- A node that is added changes no link outside of the ring. -/
theorem Ring.addTail_links (h : l.Ring head nodes) (hx : x ∉ node :: head :: nodes) :
  (l.addTail node head).next x = l.next x ∧ (l.addTail node head).prev x = l.prev x
  := by
  have hnode : x ≠ node := List.ne_of_not_mem_cons hx
  have hring : x ∉ head :: nodes := List.not_mem_of_not_mem_cons hx
  have hhead : x ≠ head := List.ne_of_not_mem_cons hring
  have hlast : x ≠ l.prev head := by
    rintro rfl
    apply hring h.prev_head_mem
  simp only [Links.addTail, addBetween, Function.update_of_ne hnode, Function.update_of_ne hhead,
    Function.update_of_ne hlast, and_self]

theorem del_next (hnode : x ≠ node) (hprev : x ≠ l.prev node) :
  (l.del node).next x = l.next x
  := by
  simp only [Links.del, delBetween, Links.init, Function.update_of_ne hnode,
    Function.update_of_ne hprev]

theorem del_prev (hnode : x ≠ node) (hnext : x ≠ l.next node) :
  (l.del node).prev x = l.prev x
  := by
  simp only [Links.del, delBetween, Links.init, Function.update_of_ne hnode,
    Function.update_of_ne hnext]

/-- A node that is taken out leaves the others in their order. -/
theorem Ring.del (h : l.Ring head (before ++ node :: after)) :
  (l.del node).Ring head (before ++ after)
  := by
  obtain ⟨ps, qs, hbefore, hafter, hfirst, hsecond⟩ := h.parts
  have hrest : head :: (before ++ after ++ [head]) = ps ++ l.prev node :: l.next node :: qs := by
    rw [List.append_assoc, hafter, ← List.cons_append, hbefore, List.append_assoc,
      List.singleton_append]
  have hnodup₁ := h.nodup_before
  have hnodup₂ := h.nodup_after
  constructor
  · apply List.Nodup.sublist _ h.nodup
    apply ((List.Sublist.refl before).append (List.sublist_cons_self node after)).cons_cons
  · rw [hrest, List.isChain_append_cons_cons]
    refine ⟨chain_congr hfirst ?_ ?_, ⟨?_, ?_⟩, chain_congr hsecond ?_ ?_⟩
    · intro x hx
      rw [List.dropLast_concat] at hx
      apply del_next (h.ne_node (Or.inl (by simp [hbefore, hx])))
      rintro rfl
      rw [hbefore, List.nodup_append'] at hnodup₁
      apply hnodup₁.2.2 hx List.mem_cons_self
    · intro x hx
      rw [← hbefore, List.tail_cons] at hx
      apply del_prev (h.ne_node (Or.inl (List.mem_cons_of_mem _ hx)))
      rintro rfl
      obtain hmem | hmem := List.mem_append.mp h.next_mem
      · apply h.disjoint (List.mem_cons_of_mem _ hx) hmem
      · rw [List.mem_singleton.mp hmem] at hx
        exact (List.nodup_cons.mp hnodup₁).1 hx
    · simp only [Links.del, delBetween, Links.init, Function.update_self,
        Function.update_of_ne (h.ne_node (Or.inl h.prev_mem))]
    · simp only [Links.del, delBetween, Links.init, Function.update_self,
        Function.update_of_ne (h.ne_node (Or.inr h.next_mem))]
    · intro x hx
      rw [← hafter, List.dropLast_concat] at hx
      apply del_next (h.ne_node (Or.inr (List.mem_append_left _ hx)))
      rintro rfl
      apply h.disjoint h.prev_mem hx
    · intro x hx
      rw [List.tail_cons] at hx
      apply del_prev (h.ne_node (Or.inr (by simp [hafter, hx])))
      rintro rfl
      rw [hafter, List.nodup_cons] at hnodup₂
      apply hnodup₂.1 hx

/-- A node that is taken out changes no link outside of the ring. -/
theorem Ring.del_links (h : l.Ring head (before ++ node :: after))
    (hx : x ∉ head :: (before ++ node :: after)) :
  (l.del node).next x = l.next x ∧ (l.del node).prev x = l.prev x
  := by
  have hprev := h.prev_mem
  have hnext := h.next_mem
  simp only [List.mem_cons, List.mem_append, not_or] at hx hprev hnext
  constructor
  · apply del_next hx.2.2.1
    rintro rfl
    tauto
  · apply del_prev hx.2.2.1
    rintro rfl
    tauto

/-! ### Loops -/

/-- A loop behind a node that is chained to the head visits what is between them. -/
theorem walk_of_chain {pos : α} (hchain : List.IsChain l.Linked (pos :: (nodes ++ [head])))
    (hhead : head ∉ nodes) {fuel : Nat} (hfuel : nodes.length < fuel) :
  l.walk head fuel (l.next pos) = some nodes
  := by
  induction nodes generalizing pos fuel with
  | nil =>
    obtain ⟨fuel, rfl⟩ := Nat.exists_eq_succ_of_ne_zero (Nat.ne_zero_of_lt hfuel)
    obtain ⟨hnext, -⟩ := List.isChain_pair.mp hchain
    rw [walk, hnext, if_pos rfl]
  | cons x xs ih =>
    obtain ⟨fuel, rfl⟩ := Nat.exists_eq_succ_of_ne_zero (Nat.ne_zero_of_lt hfuel)
    obtain ⟨⟨hnext, -⟩, hrest⟩ := List.isChain_cons_cons.mp hchain
    have hne : x ≠ head := (List.ne_of_not_mem_cons hhead).symm
    rw [walk, hnext, if_neg hne, ih hrest (List.not_mem_of_not_mem_cons hhead)
      (Nat.lt_of_succ_lt_succ hfuel), Option.map_some]

/-- A ring is walked along its nodes. -/
theorem Ring.walk (h : l.Ring head nodes) {fuel : Nat} (hfuel : nodes.length < fuel) :
  l.walk head fuel (l.next head) = some nodes
  := walk_of_chain h.chain (List.nodup_cons.mp h.nodup).1 hfuel

/-- Behind a node that is visited comes another one or the head. -/
theorem next_of_mem_walk {fuel : Nat} {pos : α} {xs : List α} (h : l.walk head fuel pos = some xs)
    (hx : x ∈ xs) :
  l.next x = head ∨ l.next x ∈ xs
  := by
  induction fuel generalizing pos xs with
  | zero => cases h
  | succ fuel ih =>
    rw [Links.walk] at h
    split at h
    · cases h
      cases hx
    · obtain ⟨ys, hys, rfl⟩ := Option.map_eq_some_iff.mp h
      obtain rfl | hx := List.mem_cons.mp hx
      · cases fuel with
        | zero => cases hys
        | succ fuel =>
          rw [Links.walk] at hys
          split at hys
          · left
            assumption
          · obtain ⟨zs, -, rfl⟩ := Option.map_eq_some_iff.mp hys
            right
            simp
      · exact (ih hys hx).imp_right (List.mem_cons_of_mem pos)

/-- The loop is over the nodes that are visited. -/
theorem foreach_of_walk {β : Type*} (body : α → Option (Option β)) {fuel : Nat} {pos : α}
    {xs : List α} (h : l.walk head fuel pos = some xs) :
  l.foreach head body fuel pos = xs.findSomeM? body
  := by
  induction fuel generalizing pos xs with
  | zero => cases h
  | succ fuel ih =>
    rw [Links.walk] at h
    split at h
    · rename_i hpos
      cases h
      rw [Links.foreach, if_pos hpos]
      rfl
    · rename_i hpos
      obtain ⟨ys, hys, rfl⟩ := Option.map_eq_some_iff.mp h
      rw [Links.foreach, if_neg hpos, List.findSomeM?, ih hys]
      rcases body pos with _ | _ | b
      · rfl
      · rfl
      · rfl

end Ring

/-! ### Families of rings -/

section Rings

variable {ι κ : Type*}

/-- The rings of all heads, over nodes that are no heads; no node is in two of them. -/
structure Rings (l : Links (ι ⊕ κ)) (nodes : ι → List κ) : Prop where
  ring : ∀ i, l.Ring (.inl i) ((nodes i).map .inr)
  disjoint : ∀ i j, i ≠ j → (nodes i).Disjoint (nodes j)

/-- Every head is linked to itself, and the nodes are linked in any way. -/
def heads (prev next : κ → ι ⊕ κ) : Links (ι ⊕ κ) where
  prev := Sum.elim .inl prev
  next := Sum.elim .inl next

theorem heads_rings (prev next : κ → ι ⊕ κ) :
  (heads prev next).Rings fun _ => []
  := by
  constructor
  · intro i
    exact ⟨List.nodup_singleton _, List.isChain_pair.mpr ⟨rfl, rfl⟩⟩
  · intro i j _
    apply List.disjoint_nil_left

variable {l : Links (ι ⊕ κ)} {nodes : ι → List κ} {i : ι} {k : κ}

theorem Rings.nodup (h : l.Rings nodes) (i : ι) :
  (nodes i).Nodup
  := (h.ring i).nodup.of_cons.of_map

theorem inr_mem_iff {ks : List κ} :
  (.inr k : ι ⊕ κ) ∈ .inl i :: ks.map .inr ↔ k ∈ ks
  := by
  simp

/-- No node of a ring, nor its head, is in another one. -/
theorem Rings.not_mem (h : l.Rings nodes) {i j : ι} (hij : i ≠ j) {x : ι ⊕ κ}
    (hx : x ∈ .inl j :: (nodes j).map .inr) :
  x ∉ .inl i :: (nodes i).map .inr
  := by
  cases x with
  | inl i' =>
    have hi' : i' = j := by simpa using hx
    simpa [hi'] using hij.symm
  | inr k =>
    rw [inr_mem_iff] at hx ⊢
    intro hk
    apply h.disjoint i j hij hk hx

variable [DecidableEq ι]

/-- The rings stay apart when one of them gets nodes that no other one has. -/
theorem disjoint_update (h : l.Rings nodes) {ks : List κ}
    (hks : ∀ j, j ≠ i → ks.Disjoint (nodes j)) (j j' : ι) (hne : j ≠ j') :
  (Function.update nodes i ks j).Disjoint (Function.update nodes i ks j')
  := by
  by_cases hj : j = i
  · subst hj
    rw [Function.update_self, Function.update_of_ne hne.symm]
    apply hks j' hne.symm
  · rw [Function.update_of_ne hj]
    by_cases hj' : j' = i
    · subst hj'
      rw [Function.update_self]
      apply (hks j hj).symm
    · rw [Function.update_of_ne hj']
      apply h.disjoint j j' hne

variable [DecidableEq κ]

/-- A node of no ring that is linked to itself changes no ring. -/
theorem Rings.init (h : l.Rings nodes) (hk : ∀ j, k ∉ nodes j) :
  (l.init (.inr k)).Rings nodes
  := by
  refine ⟨fun i => (h.ring i).congr ?_, h.disjoint⟩
  intro x hx
  have hne : x ≠ .inr k := by
    rintro rfl
    apply hk i (inr_mem_iff.mp hx)
  simp only [Links.init, Function.update_of_ne hne, and_self]

/-- A node of no ring is put behind the last one of a ring. -/
theorem Rings.addTail (h : l.Rings nodes) (hk : ∀ j, k ∉ nodes j) :
  (l.addTail (.inr k) (.inl i)).Rings (Function.update nodes i (nodes i ++ [k]))
  := by
  constructor
  · intro j
    by_cases hj : j = i
    · subst hj
      rw [Function.update_self, List.map_append, List.map_singleton]
      apply (h.ring j).addTail
      rw [inr_mem_iff]
      apply hk
    · rw [Function.update_of_ne hj]
      apply (h.ring j).congr
      intro x hx
      apply (h.ring i).addTail_links
      rw [List.mem_cons, not_or]
      constructor
      · rintro rfl
        apply hk j (inr_mem_iff.mp hx)
      · apply h.not_mem (Ne.symm hj) hx
  · apply disjoint_update h
    intro j hj
    rw [List.disjoint_append_left, List.singleton_disjoint]
    exact ⟨h.disjoint i j hj.symm, hk j⟩

/-- A node that is taken out of its ring is in none, and the others stay as they are. -/
theorem Rings.del (h : l.Rings nodes) (hk : k ∈ nodes i) :
  (l.del (.inr k)).Rings (Function.update nodes i ((nodes i).erase k))
  := by
  obtain ⟨before, after, hbefore, hnodes, herase⟩ := List.exists_erase_eq hk
  have hmap : (nodes i).map (.inr : κ → ι ⊕ κ)
      = before.map .inr ++ .inr k :: after.map .inr := by
    rw [hnodes, List.map_append, List.map_cons]
  have hi := h.ring i
  rw [hmap] at hi
  constructor
  · intro j
    by_cases hj : j = i
    · subst hj
      rw [Function.update_self, herase, List.map_append]
      apply hi.del
    · rw [Function.update_of_ne hj]
      apply (h.ring j).congr
      intro x hx
      apply hi.del_links
      rw [← hmap]
      apply h.not_mem (Ne.symm hj) hx
  · apply disjoint_update h
    intro j hj
    apply List.disjoint_of_subset_left List.erase_subset (h.disjoint i j hj.symm)

/-- Every ring is walked along its nodes. -/
theorem Rings.walk (h : l.Rings nodes) (i : ι) {fuel : Nat} (hfuel : (nodes i).length < fuel) :
  l.walk (.inl i) fuel (l.next (.inl i)) = some ((nodes i).map .inr)
  := (h.ring i).walk (by simpa using hfuel)

/-- A loop over the nodes of a ring, on each of which its body returns, ends with the first
answer. -/
theorem Rings.foreach {β : Type*} (h : l.Rings nodes) (i : ι)
    {body : ι ⊕ κ → Option (Option β)} {answer : κ → Option β}
    (hbody : ∀ k ∈ nodes i, body (.inr k) = some (answer k)) {fuel : Nat}
    (hfuel : (nodes i).length < fuel) :
  l.foreach (.inl i) body fuel (l.next (.inl i)) = some ((nodes i).findSome? answer)
  := by
  rw [foreach_of_walk body (h.walk i hfuel)]
  generalize nodes i = ks at hbody
  induction ks with
  | nil => rfl
  | cons k ks ih =>
    rw [List.forall_mem_cons] at hbody
    rw [List.map_cons, List.findSomeM?, hbody.1, List.findSome?_cons]
    cases answer k with
    | none => apply ih hbody.2
    | some b => rfl

end Rings

end Links

end Basis
