import IFreeChat.Basis.Lists
import IFreeChat.Hash.Rings

/-!
# Lists in memory

The operations of `dlist.h` on heads and nodes that lie apart in memory.  Whatever is put into
the lists and taken out of them, they are walked forward and backward along the nodes that they
then have, and an operation on one list changes no link of another.  A loop of
`dlist_foreach_safe` visits every node of its list once, though its body deletes the nodes it is
at (`dlist_lists`).
-/

open Basis Basis.Links

namespace IFreeChat

namespace Dlist

/-! ### The operations -/

/-- `dlist_add`. -/
def add (mem : Memory) (node head : Nat) : Memory :=
  addBetween mem node head (mem.loadSize (head + offsetNext))

/-- The loop of `dlist_foreach_safe` from `pos` on, where `n` has been read: the nodes it visits
and the state in the end, `none` when it takes more than `fuel` steps.  The body may change the
memory that the state has. -/
def foreachSafeLoop {σ : Type} (mem : σ → Memory) (body : Nat → σ → σ) (head : Nat) :
    (fuel pos n : Nat) → σ → Option (List Nat × σ)
  | 0, _, _, _ => none
  | fuel + 1, pos, n, s =>
      if pos = head then some ([], s)
      else
        let s := body pos s
        (foreachSafeLoop mem body head fuel n ((mem s).loadSize (n + offsetNext)) s).map fun r =>
          (pos :: r.1, r.2)

/-- `dlist_foreach_safe`. -/
def foreachSafe {σ : Type} (mem : σ → Memory) (body : Nat → σ → σ) (head fuel : Nat) (s : σ) :
    Option (List Nat × σ) :=
  let pos := (mem s).loadSize (head + offsetNext)
  foreachSafeLoop mem body head fuel pos ((mem s).loadSize (pos + offsetNext)) s

theorem foreachSafe_eq {σ : Type} (mem : σ → Memory) (body : Nat → σ → σ) (head fuel : Nat)
    (s : σ) :
  foreachSafe mem body head fuel s
    = sweep (fun s => links (mem s)) body head fuel ((links (mem s)).next head)
      ((links (mem s)).next ((links (mem s)).next head)) s
  := by
  have hloop : ∀ fuel pos n s, foreachSafeLoop mem body head fuel pos n s
      = sweep (fun s => links (mem s)) body head fuel pos n s := by
    intro fuel
    induction fuel with
    | zero =>
      intro pos n s
      rfl
    | succ fuel ih =>
      intro pos n s
      rw [foreachSafeLoop, sweep]
      simp only [ih]
      rfl
  apply hloop

/-- What `dlist.h` does to the memory. -/
def edit {ι : Type} (head : ι → Nat) (mem : Memory) : Edit ι Nat → Memory
  | .add node i => add mem node (head i)
  | .addTail node i => addTail mem node (head i)
  | .del node => del mem node

/-- The memory under one operation after another. -/
def machine {ι : Type} (head : ι → Nat) : Machine Memory (Edit ι Nat) Unit where
  step mem e := some ((), edit head mem e)

/-- The lists under the same operations. -/
def reference (ι : Type) [DecidableEq ι] : Machine (ι → List Nat) (Edit ι Nat) Unit where
  step lists e := some ((), e.on lists)

/-! ### The links they make -/

section

variable {nodes : List Nat} (mem : Memory) {node head x : Nat}

/-- On nodes that lie apart, `dlist_del` is the removal from the links. -/
theorem links_del (hs : Spaced nodes) (hnode : node ∈ nodes) (hprev : (links mem).prev node ∈ nodes)
    (hnext : (links mem).next node ∈ nodes) (hx : x ∈ nodes) :
  (links (del mem node)).next x = ((links mem).del node).next x
    ∧ (links (del mem node)).prev x = ((links mem).del node).prev x
  := by
  have hlt : ∀ y ∈ nodes, y < sizeModulus := by
    intro y hy
    have := hs.fits y hy
    omega
  have h₁ := fun mem => links_storePrev mem hs hnext hx (hlt _ hprev)
  have h₂ := fun mem => links_storeNext mem hs hprev hx (hlt _ hnext)
  have h₃ := fun mem => links_storeNext mem hs hnode hx (hlt node hnode)
  have h₄ := fun mem => links_storePrev mem hs hnode hx (hlt node hnode)
  have hloadPrev : mem.loadSize (node + offsetPrev) = (links mem).prev node := rfl
  have hloadNext : mem.loadSize (node + offsetNext) = (links mem).next node := rfl
  simp only [del, delBetween, initNode, Links.del, Links.delBetween, Links.init, hloadPrev,
    hloadNext, h₁, h₂, h₃, h₄, Function.update_apply]
  trivial

end

variable {ι : Type} {nodes : List Nat} {head : ι → Nat} {mem : Memory} {lists : ι → List Nat}

/-- On a heap of lists, an operation on the memory is that on the links. -/
theorem links_edit (hs : Spaced nodes) (h : (links mem).Lists nodes head lists) {e : Edit ι Nat}
    (he : e.Legal nodes head (links mem)) {x : Nat} (hx : x ∈ nodes) :
  (links (edit head mem e)).next x = (e.apply head (links mem)).next x
    ∧ (links (edit head mem e)).prev x = (e.apply head (links mem)).prev x
  := by
  obtain ⟨hnode, hhead, hlinked⟩ := he
  have hmem : ∀ i, head i ∈ nodes := fun i => h.mem i (head i) List.mem_cons_self
  cases e with
  | add node i =>
    apply links_addBetween mem hs hnode (hmem i) _ hx
    apply h.mem i _ (h.ring i).next_head_mem
  | addTail node i =>
    apply links_addTail mem hs hnode (hmem i) _ hx
    apply h.mem i _ (h.ring i).prev_head_mem
  | del node =>
    obtain ⟨i, hi⟩ := h.exists_mem hnode hhead hlinked
    have hring := h.ring i
    obtain ⟨before, after, hnodes⟩ := List.append_of_mem hi
    rw [hnodes] at hring
    obtain ⟨hprev, hnext⟩ := hring.neighbours_mem
    rw [← hnodes] at hprev hnext
    simp only [edit, Edit.apply]
    exact links_del mem hs hnode (h.mem i _ hprev) (h.mem i _ hnext) hx

/-- An operation keeps a heap of lists, which are then those that are said. -/
theorem edit_lists [DecidableEq ι] (hs : Spaced nodes) (h : (links mem).Lists nodes head lists)
    {e : Edit ι Nat} (he : e.Legal nodes head (links mem)) :
  (links (edit head mem e)).Lists nodes head (e.on lists)
  := by
  apply (h.edit he).congr
  intro x hx
  apply links_edit hs h he hx

/-! ### Loops -/

/-- The body of a loop takes the node it is at out of its list where `deletes` says so, and may
then do with that node what it likes; it changes no other link. -/
def Deletes {σ : Type} (nodes : List Nat) (mem : σ → Memory) (body : Nat → σ → σ)
    (deletes : Nat → σ → Bool) : Prop :=
  ∀ s, ∀ x ∈ nodes, ∀ y ∈ nodes,
    if deletes x s then
      y ≠ x → (links (mem (body x s))).next y = (links (del (mem s) x)).next y
        ∧ (links (mem (body x s))).prev y = (links (del (mem s) x)).prev y
    else
      (links (mem (body x s))).next y = (links (mem s)).next y
        ∧ (links (mem (body x s))).prev y = (links (mem s)).prev y

section

variable {σ : Type} {state : σ → Memory} {body : Nat → σ → σ} {deletes : Nat → σ → Bool}

/-- A body that does not delete its node changes no ring. -/
theorem Deletes.keeps (hbody : Deletes nodes state body deletes) {s : σ} {x : Nat}
    (hx : x ∈ nodes) (hdel : deletes x s = false) {h : Nat} {list : List Nat}
    (hmem : ∀ y ∈ h :: list, y ∈ nodes) (hring : (links (state s)).Ring h list) :
  (links (state (body x s))).Ring h list
  := by
  apply hring.congr
  intro y hy
  have hlinks := hbody s x hx y (hmem y hy)
  simpa only [hdel, Bool.false_eq_true, if_false] using hlinks

/-- A body that deletes its node leaves the other nodes the links without it. -/
theorem Deletes.removes (hs : Spaced nodes) (hbody : Deletes nodes state body deletes) {s : σ}
    {x : Nat} (hdel : deletes x s = true) {h : Nat} {before after : List Nat}
    (hmem : ∀ y ∈ h :: (before ++ x :: after), y ∈ nodes)
    (hring : (links (state s)).Ring h (before ++ x :: after)) {y : Nat} (hy : y ∈ nodes)
    (hne : y ≠ x) :
  (links (state (body x s))).next y = ((links (state s)).del x).next y
    ∧ (links (state (body x s))).prev y = ((links (state s)).del x).prev y
  := by
  obtain ⟨hprev, hnext⟩ := hring.neighbours_mem
  have hx : x ∈ nodes := by
    apply hmem
    simp
  have hlinks := hbody s x hx y hy
  simp only [hdel, if_true] at hlinks
  rw [(hlinks hne).1, (hlinks hne).2]
  apply links_del (state s) hs hx (hmem _ hprev) (hmem _ hnext) hy

/-- A node of a list that the body is run at is taken out of it or not, and the other lists are
as they were. -/
theorem Deletes.step (hs : Spaced nodes) (hbody : Deletes nodes state body deletes)
    (h : (links mem).Lists nodes head lists) (i : ι) {s : σ} {x : Nat} {before after : List Nat}
    (hothers : ∀ j, j ≠ i → (links (state s)).Ring (head j) (lists j))
    (hring : (links (state s)).Ring (head i) (before ++ x :: after))
    (hsub : (before ++ x :: after).Sublist (lists i)) :
  (∀ j, j ≠ i → (links (state (body x s))).Ring (head j) (lists j))
    ∧ (links (state (body x s))).Ring (head i)
      (before ++ if deletes x s then after else x :: after)
  := by
  have hsubset : ∀ y ∈ head i :: (before ++ x :: after), y ∈ head i :: lists i := by
    intro y hy
    apply List.cons_subset_cons _ hsub.subset hy
  have hmem : ∀ y ∈ head i :: (before ++ x :: after), y ∈ nodes := by
    intro y hy
    apply h.mem i y (hsubset y hy)
  cases hdel : deletes x s with
  | true =>
    rw [if_pos rfl]
    constructor
    · intro j hj
      apply (hothers j hj).congr
      intro y hy
      have hy' : y ∉ head i :: (before ++ x :: after) :=
        fun hmem => h.disjoint j i hj hy (hsubset y hmem)
      have hne : y ≠ x := by
        rintro rfl
        apply hy'
        simp
      obtain ⟨hnext, hprev⟩ := hbody.removes hs hdel hmem hring (h.mem j y hy) hne
      obtain ⟨hnext', hprev'⟩ := hring.del_links hy'
      exact ⟨hnext.trans hnext', hprev.trans hprev'⟩
    · apply hring.del.congr
      intro y hy
      obtain ⟨hy', hne⟩ := hring.mem_rest hy
      apply hbody.removes hs hdel hmem hring (hmem y hy') hne
  | false =>
    have hx : x ∈ nodes := by
      apply hmem
      simp
    rw [if_neg (by decide)]
    constructor
    · intro j hj
      apply hbody.keeps hx hdel (h.mem j) (hothers j hj)
    · apply hbody.keeps hx hdel hmem hring

/-- A loop of `dlist_foreach_safe` visits every node of its list once, in their order, and leaves
the nodes that its body has not deleted, and all other lists as they are. -/
theorem foreachSafe_lists (hs : Spaced nodes) (hbody : Deletes nodes state body deletes) {s : σ}
    (h : (links (state s)).Lists nodes head lists) (i : ι) {fuel : Nat}
    (hfuel : (lists i).length < fuel) :
  ∃ t, foreachSafe state body (head i) fuel s = some (lists i, t)
    ∧ t = (lists i).foldl (fun s x => body x s) s
    ∧ (links (state t)).Ring (head i) (kept body deletes (lists i) s)
    ∧ ∀ j, j ≠ i → (links (state t)).Ring (head j) (lists j)
  := by
  have hothers : ∀ j, j ≠ i → (links (state s)).Ring (head j) (lists j) := fun j _ => h.ring j
  obtain ⟨t, hloop, ht, hrings, hkept⟩ := @Ring.sweep Nat σ _ (fun s => links (state s)) body
    deletes (fun s => ∀ j, j ≠ i → (links (state s)).Ring (head j) (lists j)) (head i) (lists i)
    s (h.ring i) hothers (fun _ _ _ _ hothers hring hsub => hbody.step hs h i hothers hring hsub)
    fuel hfuel
  refine ⟨t, ?_, ht, hkept, hrings⟩
  rw [foreachSafe_eq]
  exact hloop

end

/-! ### Runs -/

/-- After any operations on a heap of lists, every head and every node is in one ring; each list
is walked forward along the nodes that have been put into it and not been taken out, and backward
the other way round; what is done next to one list changes no link of another; and a loop of
`dlist_foreach_safe` whose body deletes nodes it is at visits every node of its list once. -/
theorem dlist_lists [DecidableEq ι] (hs : Spaced nodes) (h : (links mem).Lists nodes head lists)
    {es : List (Edit ι Nat)}
    (hlegal : (machine head).Meets (fun mem e => e.Legal nodes head (links mem)) mem es) :
  ∃ os mem' lists', (machine head).run mem es = some (os, mem')
    ∧ (reference ι).run lists es = some (os, lists')
    ∧ (links mem').Lists nodes head lists'
    ∧ (∀ i fuel, (lists' i).length < fuel →
        (links mem').walk (head i) fuel ((links mem').next (head i)) = some (lists' i)
          ∧ (links mem').flip.walk (head i) fuel ((links mem').prev (head i))
            = some (lists' i).reverse)
    ∧ (∀ e : Edit ι Nat, e.Legal nodes head (links mem') → ∀ x ∈ nodes, x ≠ e.node →
        (∀ i, e.Touches lists' i → x ∉ head i :: lists' i) →
          (links (edit head mem' e)).next x = (links mem').next x
            ∧ (links (edit head mem' e)).prev x = (links mem').prev x)
    ∧ ∀ i, (lists' i).Nodup ∧ ∀ (σ : Type) (state : σ → Memory) (body : Nat → σ → σ)
        (deletes : Nat → σ → Bool) (s : σ), Deletes nodes state body deletes → state s = mem' →
          ∀ fuel, (lists' i).length < fuel →
            ∃ t, foreachSafe state body (head i) fuel s = some (lists' i, t)
              ∧ t = (lists' i).foldl (fun s x => body x s) s
              ∧ (links (state t)).Ring (head i) (kept body deletes (lists' i) s)
              ∧ ∀ j, j ≠ i → (links (state t)).Ring (head j) (lists' j)
  := by
  have hstep : ∀ mem lists (e : Edit ι Nat), (links mem).Lists nodes head lists →
      e.Legal nodes head (links mem) → ∃ o mem' lists', (machine head).step mem e = some (o, mem')
        ∧ (reference ι).step lists e = some (o, lists')
        ∧ (links mem').Lists nodes head lists' := by
    intro mem lists e h he
    exact ⟨(), edit head mem e, e.on lists, rfl, rfl, edit_lists hs h he⟩
  obtain ⟨os, mem', lists', hrun, hrun', h'⟩ := (machine head).run_lockstep hstep h hlegal
  refine ⟨os, mem', lists', hrun, hrun', h', ?_, ?_, ?_⟩
  · intro i fuel hfuel
    use (h'.ring i).walk hfuel
    apply (h'.ring i).flip.walk
    rw [List.length_reverse]
    exact hfuel
  · intro e he x hx hnode hnot
    have hedit := links_edit hs h' he hx
    rw [hedit.1, hedit.2]
    apply h'.edit_links he hnode hnot
  · intro i
    use (h'.ring i).nodup.of_cons
    rintro σ state body deletes s hbody rfl fuel hfuel
    apply foreachSafe_lists hs hbody h' i hfuel

theorem dlist_lists_three :
  ∃ os mem', (machine fun _ : Unit => 0).run ([0, 16, 32].foldl initNode fun _ => 0)
      [.add 16 (), .addTail 32 (), .del 16] = some (os, mem')
    ∧ (links mem').walk 0 2 ((links mem').next 0) = some [32]
  := by
  have hs : Spaced [0, 16, 32] := by
    constructor
    · decide +kernel
    · intro x hx y hy hne
      simp only [List.mem_cons, List.not_mem_nil, or_false] at hx hy
      simp only [Apart]
      omega
  have hself : ∀ x ∈ [0, 16, 32], (links ([0, 16, 32].foldl initNode fun _ => 0)).Linked x x := by
    decide +kernel
  have hlists : (links ([0, 16, 32].foldl initNode fun _ => 0)).Lists [0, 16, 32]
      (fun _ : Unit => 0) fun _ => [] := by
    constructor
    · intro _
      apply ring_nil_iff.mpr (hself 0 List.mem_cons_self)
    · intro i j hij
      apply absurd rfl hij
    · simp
    · intro x hx _
      apply ring_nil_iff.mpr (hself x hx)
  have hlegal : (machine fun _ : Unit => 0).Meets
      (fun mem e => e.Legal [0, 16, 32] (fun _ : Unit => 0) (links mem))
      ([0, 16, 32].foldl initNode fun _ => 0) [.add 16 (), .addTail 32 (), .del 16] := by
    decide +kernel
  obtain ⟨os, mem', lists', hrun, hrun', -, hwalk, -⟩ := dlist_lists hs hlists hlegal
  refine ⟨os, mem', hrun, ?_⟩
  have hlists' : lists' () = [32] := by
    cases hrun'
    rfl
  have hforward := (hwalk () 2 (by rw [hlists']; decide)).1
  rw [hlists'] at hforward
  exact hforward

end Dlist

end IFreeChat
