import Mathlib.Data.List.Nodup
import Mathlib.Logic.Function.Basic
import IFreeChat.Basis.Machine

/-!
# Finite maps

A map takes the keys that are present to their values.  `finiteMap` is the machine that
inserts a value under a key, deletes a key, and finds the value under one; an operation on
one key does not change what another key has.

A `slotMap` has one slot for all keys of an index, and an insertion overwrites the slot.  As
long as no two keys in use share an index it is a finite map (`slotFind_update`).

A map may index a list: it takes the items of the list to their places (`Indexes`).
-/

namespace Basis

/-- The operations of a map; `R` is what an insertion is given besides. -/
inductive MapOp (K V R : Type*) where
  | insert (key : K) (val : V) (resources : R)
  | del (key : K)
  | find (key : K)

variable {K V R : Type*} [DecidableEq K]

/-- The return code for a key that is present or absent, and its value. -/
def mapAnswer : Option V → Int × Option V
  | some val => (0, some val)
  | none => (-1, none)

/-- The machine of the maps from `K` to `V`: a deletion or a search answers with the value
of a key that is present, and with `-1` otherwise. -/
def finiteMap : Machine (K → Option V) (MapOp K V R) (Int × Option V) where
  step m
    | .insert key val _ => some ((0, none), Function.update m key (some val))
    | .del key => some (mapAnswer (m key), Function.update m key none)
    | .find key => some (mapAnswer (m key), m)

/-! ### Slots -/

section

variable {I : Type*} [DecidableEq I] (index : K → I)

/-- What the slot of a key has under it. -/
def slotFind (m : I → Option (K × V)) (key : K) : Option V :=
  match m (index key) with
  | none => none
  | some (key', val) => if key' = key then some val else none

/-- The machine of the maps with one slot for each index. -/
def slotMap : Machine (I → Option (K × V)) (MapOp K V R) (Int × Option V) where
  step m
    | .insert key val _ => some ((0, none), Function.update m (index key) (some (key, val)))
    | .del key =>
        some (mapAnswer (slotFind index m key),
          if (slotFind index m key).isSome then Function.update m (index key) none else m)
    | .find key => some (mapAnswer (slotFind index m key), m)

variable {index}

/-- An insertion into a slot that has no other key changes what its key has. -/
theorem slotFind_update {m : I → Option (K × V)} {key : K} (val : V)
    (h : ∀ key', index key' = index key → key' ≠ key → slotFind index m key' = none) :
  slotFind index (Function.update m (index key) (some (key, val)))
    = Function.update (slotFind index m) key (some val)
  := by
  funext key'
  by_cases hindex : index key' = index key
  · by_cases hkey : key' = key
    · subst hkey
      simp [slotFind]
    · rw [Function.update_of_ne hkey, h key' hindex hkey]
      simp [slotFind, hindex, Ne.symm hkey]
  · have hkey : key' ≠ key := by
      rintro rfl
      apply hindex rfl
    rw [Function.update_of_ne hkey, slotFind, Function.update_of_ne hindex, slotFind]

omit [DecidableEq I] in
/-- Two keys that are both found have different indices. -/
theorem eq_of_slotFind {m : I → Option (K × V)} {key key' : K} {val val' : V}
    (h : slotFind index m key = some val) (h' : slotFind index m key' = some val')
    (hindex : index key = index key') :
  key = key'
  := by
  rw [slotFind] at h h'
  rw [hindex] at h
  split at h'
  · cases h'
  · rename_i k v hslot
    simp only [hslot, Option.ite_none_right_eq_some] at h h'
    rw [← h.1, ← h'.1]

end

/-! ### Indexing a list -/

/-- The map has the items of the list under them their places. -/
def Indexes (m : K → Option Nat) (l : List K) : Prop :=
  ∀ key i, m key = some i ↔ l[i]? = some key

omit [DecidableEq K] in
theorem indexes_nil :
  Indexes (fun _ : K => none) []
  := by
  intro key i
  simp

omit [DecidableEq K] in
theorem Indexes.eq_none_iff {m : K → Option Nat} {l : List K} (h : Indexes m l) {key : K} :
  m key = none ↔ key ∉ l
  := by
  constructor
  · intro hnone hmem
    obtain ⟨i, hi⟩ := List.getElem?_of_mem hmem
    rw [(h key i).mpr hi] at hnone
    cases hnone
  · intro hmem
    by_contra hsome
    obtain ⟨i, hi⟩ := Option.ne_none_iff_exists'.mp hsome
    apply hmem (List.mem_of_getElem? ((h key i).mp hi))

omit [DecidableEq K] in
/-- A list that a map indexes has no item twice. -/
theorem Indexes.nodup {m : K → Option Nat} {l : List K} (h : Indexes m l) :
  l.Nodup
  := by
  rw [List.nodup_iff_getElem?_ne_getElem?]
  intro i j hij hj heq
  have hkey := (List.getElem?_eq_getElem hj)
  have hi := (h l[j] i).mpr (heq.trans hkey)
  have hj' := (h l[j] j).mpr hkey
  rw [hi] at hj'
  cases hj'
  apply Nat.lt_irrefl _ hij

/-- A new item at the end of the list is inserted with its place. -/
theorem Indexes.append {m : K → Option Nat} {l : List K} (h : Indexes m l) {key : K}
    (hkey : m key = none) :
  Indexes (Function.update m key (some l.length)) (l ++ [key])
  := by
  have hmem := h.eq_none_iff.mp hkey
  intro key' i
  rw [List.getElem?_append]
  by_cases hne : key' = key
  · subst hne
    rw [Function.update_self]
    split
    · rename_i hlt
      constructor
      · intro heq
        cases heq
        apply absurd hlt (Nat.lt_irrefl _)
      · intro heq
        apply absurd (List.mem_of_getElem? heq) hmem
    · rename_i hge
      constructor
      · intro heq
        cases heq
        simp
      · intro heq
        have hi := (List.getElem?_eq_some_iff.mp heq).1
        simp only [List.length_singleton] at hi
        congr 1
        omega
  · rw [Function.update_of_ne hne, h key' i]
    split
    · exact Iff.rfl
    · rename_i hge
      constructor
      · intro heq
        apply absurd (List.getElem?_eq_some_iff.mp heq).1 hge
      · intro heq
        have := List.mem_of_getElem? heq
        rw [List.mem_singleton] at this
        apply absurd this hne

end Basis
