import Mathlib.Data.List.Nodup

/-!
# Tallies

A tally is a list of items with numbers.  One more item is looked for and its number made one
larger, or it is put at the end with the number one (`addOne`).  A tally of distinct items that
has every item of a list with its number of times still has them after one more item
(`Tallies.addOne`), and after an item is replaced only if it is by itself (`Tallies.set_iff`).
-/

namespace Basis

variable {α : Type*} [DecidableEq α]

/-- The number of `a` is one larger, or one if it had none. -/
def addOne (a : α) : List (α × Nat) → List (α × Nat)
  | [] => [(a, 1)]
  | (b, n) :: tally => if b = a then (b, n + 1) :: tally else (b, n) :: addOne a tally

/-- Every item is tallied, once and with its number. -/
structure Tallies (tally : List (α × Nat)) (items : List α) : Prop where
  counts : ∀ p ∈ tally, p.2 = items.count p.1
  complete : ∀ a ∈ items, a ∈ tally.map Prod.fst

variable {tally : List (α × Nat)} {items : List α} {a b : α}

theorem addOne_fst (a : α) (tally : List (α × Nat)) :
  (addOne a tally).map Prod.fst
    = if a ∈ tally.map Prod.fst then tally.map Prod.fst else tally.map Prod.fst ++ [a]
  := by
  induction tally with
  | nil => rfl
  | cons p tally ih =>
    obtain ⟨b, n⟩ := p
    rw [addOne]
    by_cases hb : b = a
    · simp [hb]
    · rw [if_neg hb, List.map_cons, ih]
      have hmem : a ∈ b :: tally.map Prod.fst ↔ a ∈ tally.map Prod.fst := by
        rw [List.mem_cons]
        exact or_iff_right (Ne.symm hb)
      simp only [List.map_cons, hmem]
      split
      · rfl
      · rfl

theorem nodup_addOne (h : (tally.map Prod.fst).Nodup) :
  ((addOne a tally).map Prod.fst).Nodup
  := by
  rw [addOne_fst]
  split
  · exact h
  · rename_i hnot
    apply h.append (List.nodup_singleton a)
    simpa using hnot

/-- The entries of a tally after one more `a`. -/
theorem mem_addOne (h : (tally.map Prod.fst).Nodup) {p : α × Nat} (hp : p ∈ addOne a tally) :
  (p ∈ tally ∧ p.1 ≠ a) ∨ (∃ n, (a, n) ∈ tally ∧ p = (a, n + 1))
    ∨ (a ∉ tally.map Prod.fst ∧ p = (a, 1))
  := by
  induction tally with
  | nil =>
    right
    right
    exact ⟨List.not_mem_nil, List.mem_singleton.mp hp⟩
  | cons q tally ih =>
    obtain ⟨b, n⟩ := q
    obtain ⟨hb, htally⟩ := List.nodup_cons.mp h
    rw [addOne] at hp
    by_cases heq : b = a
    · subst heq
      rw [if_pos rfl] at hp
      obtain rfl | hmem := List.mem_cons.mp hp
      · right
        left
        exact ⟨n, List.mem_cons_self, rfl⟩
      · left
        refine ⟨List.mem_cons_of_mem _ hmem, ?_⟩
        rintro rfl
        apply hb (List.mem_map.mpr ⟨p, hmem, rfl⟩)
    · rw [if_neg heq] at hp
      obtain rfl | hp := List.mem_cons.mp hp
      · left
        exact ⟨List.mem_cons_self, heq⟩
      · rcases ih htally hp with ⟨hmem, hne⟩ | ⟨m, hmem, rfl⟩ | ⟨hnot, rfl⟩
        · left
          exact ⟨List.mem_cons_of_mem _ hmem, hne⟩
        · right
          left
          exact ⟨m, List.mem_cons_of_mem _ hmem, rfl⟩
        · right
          right
          refine ⟨?_, rfl⟩
          rw [List.map_cons, List.mem_cons, not_or]
          exact ⟨Ne.symm heq, hnot⟩

/-- One more item is tallied. -/
theorem Tallies.addOne (h : Tallies tally items) (hnodup : (tally.map Prod.fst).Nodup) (a : α) :
  Tallies (addOne a tally) (items ++ [a])
  := by
  constructor
  · intro p hp
    rw [List.count_append]
    rcases mem_addOne hnodup hp with ⟨hmem, hne⟩ | ⟨n, hmem, rfl⟩ | ⟨hnot, rfl⟩
    · rw [h.counts p hmem, List.count_singleton, if_neg (by simpa using hne.symm), Nat.add_zero]
    · have hn : n = items.count a := h.counts (a, n) hmem
      rw [List.count_singleton_self, hn]
    · have hzero : items.count a = 0 := by
        apply List.count_eq_zero.mpr
        intro ha
        apply hnot (h.complete a ha)
      rw [hzero, List.count_singleton_self]
  · intro b hb
    rw [addOne_fst]
    rw [List.mem_append, List.mem_singleton] at hb
    split
    · rename_i ha
      rcases hb with hb | rfl
      · apply h.complete b hb
      · exact ha
    · rw [List.mem_append, List.mem_singleton]
      exact hb.imp_left (h.complete b)

/-- An item that is replaced is still tallied exactly when the new one is the same. -/
theorem Tallies.set_iff (h : Tallies tally items) {i : Nat} (hi : items[i]? = some a) (b : α) :
  Tallies tally (items.set i b) ↔ b = a
  := by
  obtain ⟨hlt, hget⟩ := List.getElem?_eq_some_iff.mp hi
  constructor
  · intro h'
    by_contra hne
    have hmem : a ∈ items := List.mem_of_getElem? hi
    obtain ⟨⟨a', n⟩, hn, heq⟩ := List.mem_map.mp (h.complete a hmem)
    obtain rfl : a' = a := heq
    have hold : n = items.count a' := h.counts _ hn
    have hnew : n = (items.set i b).count a' := h'.counts _ hn
    have hpos := List.count_pos_iff.mpr hmem
    rw [List.count_set hlt, hget] at hnew
    simp only [beq_self_eq_true, if_true, beq_iff_eq, hne, if_false] at hnew
    omega
  · rintro rfl
    rw [← hget, List.set_getElem_self]
    exact h

theorem count_map {β : Type*} (f : β → α) (l : List β) (a : α) :
  (l.map f).count a = l.countP fun x => f x = a
  := by
  rw [List.count_eq_countP, List.countP_map]
  rfl

theorem countP_of_nodup {β : Type*} {f : β → α} {l : List β} (h : (l.map f).Nodup)
    (ha : a ∈ l.map f) :
  (l.countP fun x => f x = a) = 1
  := by
  rw [← count_map]
  apply List.count_eq_one_of_mem h ha

end Basis
