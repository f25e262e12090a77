import Mathlib.Data.List.Basic

/-!
# Lists with one item changed

What is at a place of a list after the item at one place was changed by a function (`modify`) or
replaced (`set`), or after one more item was put at the end.
-/

namespace Basis

section

variable {α β : Type*} {as : List α} {a b x : α} {i j : Nat}

/-! ### Items that are changed -/

theorem getElem?_modify_self {f : α → α} (h : as[i]? = some a) :
  (as.modify i f)[i]? = some (f a)
  := by
  rw [List.getElem?_modify, h]
  simp

theorem getElem?_modify_of_ne {f : α → α} (h : j ≠ i) :
  (as.modify i f)[j]? = as[j]?
  := by
  rw [List.getElem?_modify]
  cases as[j]? with
  | none => rfl
  | some a => simp [Ne.symm h]

/-- A change that keeps the images. -/
theorem map_modify {f : α → α} {g : α → β} (h : ∀ x, g (f x) = g x) (as : List α) (i : Nat) :
  (as.modify i f).map g = as.map g
  := by
  apply List.ext_getElem?
  intro j
  rw [List.getElem?_map, List.getElem?_map]
  by_cases hj : j = i
  · subst hj
    cases ha : as[j]? with
    | none => rw [List.getElem?_modify, ha]; simp
    | some a => rw [getElem?_modify_self ha, Option.map_some, Option.map_some, h]
  · rw [getElem?_modify_of_ne hj]

/-- The last item is changed. -/
theorem modify_concat (f : α → α) (as : List α) (a : α) :
  (as ++ [a]).modify as.length f = as ++ [f a]
  := by
  induction as with
  | nil => rfl
  | cons x as ih =>
    rw [List.cons_append, List.length_cons, List.modify_succ_cons, ih, List.cons_append]

theorem modify_eq_set (h : as[i]? = some a) (f : α → α) :
  as.modify i f = as.set i (f a)
  := by
  rw [List.modify_eq_set_getElem?, h]
  rfl

/-! ### Items that are replaced -/

theorem set_self (h : as[i]? = some a) :
  as.set i a = as
  := by
  obtain ⟨hlt, rfl⟩ := List.getElem?_eq_some_iff.mp h
  apply List.set_getElem_self

/-- An item that is replaced by one with the same image. -/
theorem map_set_of_eq {g : α → β} (ha : as[i]? = some a) (hb : g b = g a) :
  (as.set i b).map g = as.map g
  := by
  obtain ⟨hlt, rfl⟩ := List.getElem?_eq_some_iff.mp ha
  rw [List.map_set, hb, ← List.getElem_map g, List.set_getElem_self]
  rwa [List.length_map]

theorem set_cases (h : (as.set i a)[j]? = some x) :
  j = i ∧ x = a ∨ j ≠ i ∧ as[j]? = some x
  := by
  rw [List.getElem?_set] at h
  split at h
  · rename_i heq
    split at h
    · left
      cases h
      exact ⟨heq.symm, rfl⟩
    · cases h
  · rename_i hne
    right
    exact ⟨Ne.symm hne, h⟩

/-- Items that are replaced in two lists alike. -/
theorem forall₂_set {R : α → β → Prop} {bs : List β} {b : β} (h : List.Forall₂ R as bs)
    (hab : R a b) :
  ∀ i, List.Forall₂ R (as.set i a) (bs.set i b)
  := by
  induction h with
  | nil => exact fun _ => .nil
  | cons hhead htail ih =>
    intro i
    cases i with
    | zero => exact .cons hab htail
    | succ i => exact .cons hhead (ih i)

/-! ### One more item -/

theorem concat_cases (h : (as ++ [a])[i]? = some x) :
  i < as.length ∧ as[i]? = some x ∨ i = as.length ∧ x = a
  := by
  rcases Nat.lt_trichotomy i as.length with hlt | rfl | hgt
  · left
    rw [List.getElem?_append_left hlt] at h
    exact ⟨hlt, h⟩
  · right
    rw [List.getElem?_concat_length, Option.some.injEq] at h
    exact ⟨rfl, h.symm⟩
  · rw [List.getElem?_eq_none (by rw [List.length_append, List.length_singleton]; omega)] at h
    cases h

end

end Basis
