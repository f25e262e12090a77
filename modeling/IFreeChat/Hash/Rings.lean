import IFreeChat.Basis.Links
import IFreeChat.Hash.Map

/-!
# Rings in memory

The nodes of the rings of `dlist.h` have their links in memory, `prev` at the node and `next`
behind it.  On nodes that lie apart, the operations on the memory are those on the links, so that
a ring in memory is added to as one of links is (`ring_addTail`).
-/

open Basis

namespace IFreeChat

namespace Dlist

/-- The links that the memory has for the nodes. -/
def links (mem : Memory) : Links Nat where
  prev node := mem.loadSize (node + offsetPrev)
  next node := mem.loadSize (node + offsetNext)

/-- The nodes lie in the address space and apart from each other. -/
structure Spaced (nodes : List Nat) : Prop where
  fits : ∀ x ∈ nodes, x + 16 ≤ sizeModulus
  apart : ∀ x ∈ nodes, ∀ y ∈ nodes, x ≠ y → Apart x 16 y 16

theorem Spaced.mono {nodes nodes' : List Nat} (h : Spaced nodes) (hsub : nodes' ⊆ nodes) :
  Spaced nodes'
  := ⟨fun x hx => h.fits x (hsub hx), fun x hx y hy => h.apart x (hsub hx) y (hsub hy)⟩

/-- The links of a node are in its sixteen bytes. -/
theorem links_congr {mem mem' : Memory} {node : Nat}
    (h : ∀ x, node ≤ x → x < node + 16 → mem' x = mem x) :
  (links mem').next node = (links mem).next node ∧ (links mem').prev node = (links mem).prev node
  := by
  constructor
  · apply Memory.loadSize_congr
    intro x hx hx'
    simp only [offsetNext] at hx hx'
    apply h x <;> omega
  · apply Memory.loadSize_congr
    intro x hx hx'
    simp only [offsetPrev] at hx hx'
    apply h x <;> omega

section

variable {nodes : List Nat} (mem : Memory) {a x v : Nat}

/-- A stored link is no other link of a node. -/
theorem loadSize_storeSize_link (hs : Spaced nodes) (ha : a ∈ nodes) (hx : x ∈ nodes)
    {offset offset' : Nat} (hoffset : offset = 0 ∨ offset = 8)
    (hoffset' : offset' = 0 ∨ offset' = 8) (hne : a = x → offset ≠ offset') :
  (mem.storeSize (a + offset) v).loadSize (x + offset') = mem.loadSize (x + offset')
  := by
  apply Memory.loadSize_storeSize_of_apart
  by_cases hxa : a = x
  · have := hne hxa
    simp only [Apart]
    omega
  · apply (hs.apart a ha x hx hxa).mono <;> omega

/-- A stored `prev` is that of its node, and no other link. -/
theorem links_storePrev (hs : Spaced nodes) (ha : a ∈ nodes) (hx : x ∈ nodes)
    (hv : v < sizeModulus) :
  (links (mem.storeSize (a + offsetPrev) v)).next x = (links mem).next x
    ∧ (links (mem.storeSize (a + offsetPrev) v)).prev x = Function.update (links mem).prev a v x
  := by
  simp only [links, offsetPrev, offsetNext]
  constructor
  · apply loadSize_storeSize_link mem hs ha hx (by simp) (by simp) (by simp)
  · by_cases hxa : x = a
    · subst hxa
      rw [Function.update_self, Memory.loadSize_storeSize hv]
    · rw [Function.update_of_ne hxa]
      apply loadSize_storeSize_link mem hs ha hx (by simp) (by simp) (absurd · (Ne.symm hxa))

/-- A stored `next` is that of its node, and no other link. -/
theorem links_storeNext (hs : Spaced nodes) (ha : a ∈ nodes) (hx : x ∈ nodes)
    (hv : v < sizeModulus) :
  (links (mem.storeSize (a + offsetNext) v)).next x = Function.update (links mem).next a v x
    ∧ (links (mem.storeSize (a + offsetNext) v)).prev x = (links mem).prev x
  := by
  simp only [links, offsetPrev, offsetNext]
  constructor
  · by_cases hxa : x = a
    · subst hxa
      rw [Function.update_self, Memory.loadSize_storeSize hv]
    · rw [Function.update_of_ne hxa]
      apply loadSize_storeSize_link mem hs ha hx (by simp) (by simp) (absurd · (Ne.symm hxa))
  · apply loadSize_storeSize_link mem hs ha hx (by simp) (by simp) (by simp)

/-- On nodes that lie apart, `__dlist_add` is the addition to the links. -/
theorem links_addBetween (hs : Spaced nodes) {node prev next : Nat} (hnode : node ∈ nodes)
    (hprev : prev ∈ nodes) (hnext : next ∈ nodes) (hx : x ∈ nodes) :
  (links (addBetween mem node prev next)).next x = ((links mem).addBetween node prev next).next x
    ∧ (links (addBetween mem node prev next)).prev x
      = ((links mem).addBetween node prev next).prev x
  := by
  have hlt : ∀ y ∈ nodes, y < sizeModulus := by
    intro y hy
    have := hs.fits y hy
    omega
  have h₁ := fun mem => links_storePrev mem hs hnext hx (hlt node hnode)
  have h₂ := fun mem => links_storeNext mem hs hnode hx (hlt next hnext)
  have h₃ := fun mem => links_storePrev mem hs hnode hx (hlt prev hprev)
  have h₄ := fun mem => links_storeNext mem hs hprev hx (hlt node hnode)
  simp only [addBetween, Links.addBetween, h₁, h₂, h₃, h₄, Function.update_apply]
  trivial

/-- On nodes that lie apart, `dlist_add_tail` is the addition to the links. -/
theorem links_addTail (hs : Spaced nodes) {node head : Nat} (hnode : node ∈ nodes)
    (hhead : head ∈ nodes) (hlast : (links mem).prev head ∈ nodes) (hx : x ∈ nodes) :
  (links (addTail mem node head)).next x = ((links mem).addTail node head).next x
    ∧ (links (addTail mem node head)).prev x = ((links mem).addTail node head).prev x
  := links_addBetween mem hs hnode hlast hhead hx

end

/-- A node that is added to a ring in memory is put behind the last one. -/
theorem ring_addTail {mem : Memory} {node head : Nat} {nodes : List Nat}
    (hs : Spaced (node :: head :: nodes)) (hnode : node ∉ head :: nodes)
    (hring : (links mem).Ring head nodes) :
  (links (addTail mem node head)).Ring head (nodes ++ [node])
  := by
  apply (hring.addTail hnode).congr
  intro x hx
  apply links_addTail mem hs List.mem_cons_self (List.mem_cons_of_mem _ List.mem_cons_self)
    (List.mem_cons_of_mem _ hring.prev_head_mem)
  simp only [List.mem_cons, List.mem_append, List.not_mem_nil, or_false] at hx ⊢
  tauto

/-- An addition writes to the node, the head and the node before it. -/
theorem addTail_apply_of_not_mem {mem : Memory} {node head x : Nat}
    (hnode : x < node ∨ node + 16 ≤ x) (hhead : x < head ∨ head + 16 ≤ x)
    (hlast : x < (links mem).prev head + 8 ∨ (links mem).prev head + 16 ≤ x) :
  addTail mem node head x = mem x
  := by
  have hprev : mem.loadSize (head + offsetPrev) = (links mem).prev head := rfl
  simp only [addTail, addBetween, hprev]
  simp only [offsetPrev, offsetNext]
  rw [Memory.storeSize_apply_of_not_mem (by omega), Memory.storeSize_apply_of_not_mem (by omega),
    Memory.storeSize_apply_of_not_mem (by omega), Memory.storeSize_apply_of_not_mem (by omega)]

end Dlist

end IFreeChat
