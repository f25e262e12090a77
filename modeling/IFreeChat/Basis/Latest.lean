import Mathlib.Data.List.Nodup
import Mathlib.Data.List.Perm.Basic

/-!
# Lists with one item for each key

An item is put into a list in the place of the one of its key, or at its end.  After any items
were put in, the list has the last item of every key and nothing else (`mem_puts`), so that the
order of items with different keys does not matter but for the order of the list (`puts_perm`).
-/

namespace Basis

variable {α κ : Type*} [DecidableEq κ] (key : α → κ)

/-- The list with `a` in the place of the item of its key, or at the end. -/
def putItem (l : List α) (a : α) : List α :=
  match l.findIdx? fun b => key b = key a with
  | some i => l.set i a
  | none => l ++ [a]

/-- The last item of a key. -/
def latest (as : List α) (k : κ) : Option α := (as.filter fun a => key a = k).getLast?

variable {key}

/-- An item is put behind a list that has no item of its key, or in the place of that one. -/
theorem putItem_cases (l : List α) (a : α) :
  (key a ∉ l.map key ∧ putItem key l a = l ++ [a])
    ∨ ∃ before b after, l = before ++ b :: after ∧ key b = key a
      ∧ putItem key l a = before ++ a :: after
  := by
  rw [putItem]
  cases hfind : l.findIdx? fun b => key b = key a with
  | none =>
    left
    refine ⟨?_, rfl⟩
    rw [List.mem_map]
    rintro ⟨b, hb, hkey⟩
    have hnot := List.findIdx?_eq_none_iff.mp hfind b hb
    rw [decide_eq_false_iff_not] at hnot
    apply hnot hkey
  | some i =>
    right
    obtain ⟨hlt, hkey, -⟩ := List.findIdx?_eq_some_iff_getElem.mp hfind
    rw [decide_eq_true_eq] at hkey
    refine ⟨l.take i, l[i], l.drop (i + 1), ?_, hkey, ?_⟩
    · rw [← List.drop_eq_getElem_cons hlt, List.take_append_drop]
    · exact (List.set_eq_take_append_cons_drop ..).trans (if_pos hlt)

theorem putItem_nodup {l : List α} (h : (l.map key).Nodup) (a : α) :
  ((putItem key l a).map key).Nodup
  := by
  rcases @putItem_cases α κ _ key l a with ⟨hnot, hput⟩ | ⟨before, b, after, rfl, hkey, hput⟩
  · rw [hput, List.map_append, List.map_singleton]
    apply List.nodup_append'.mpr
    refine ⟨h, List.nodup_singleton _, ?_⟩
    rw [List.disjoint_singleton]
    exact hnot
  · rw [hput, List.map_append, List.map_cons, ← hkey]
    rwa [List.map_append, List.map_cons] at h

theorem mem_putItem {l : List α} (h : (l.map key).Nodup) (a b : α) :
  b ∈ putItem key l a ↔ b = a ∨ (b ∈ l ∧ key b ≠ key a)
  := by
  rcases @putItem_cases α κ _ key l a with ⟨hnot, hput⟩ | ⟨before, c, after, rfl, hkey, hput⟩
  · rw [hput, List.mem_append, List.mem_singleton, or_comm]
    apply or_congr_right
    refine ⟨fun hb => ⟨hb, ?_⟩, And.left⟩
    intro hsame
    apply hnot
    rw [← hsame]
    apply List.mem_map_of_mem hb
  · have hothers : ∀ d, d ∈ before ∨ d ∈ after → key d ≠ key a := by
      rw [List.map_append, List.map_cons, List.nodup_middle, List.nodup_cons, ← List.map_append,
        List.mem_map] at h
      intro d hd hsame
      apply h.1
      exact ⟨d, List.mem_append.mpr hd, hsame.trans hkey.symm⟩
    rw [hput, List.mem_append, List.mem_cons, List.mem_append, List.mem_cons]
    constructor
    · rintro (hb | rfl | hb)
      · exact Or.inr ⟨Or.inl hb, hothers b (Or.inl hb)⟩
      · exact Or.inl rfl
      · exact Or.inr ⟨Or.inr (Or.inr hb), hothers b (Or.inr hb)⟩
    · rintro (rfl | ⟨hb | rfl | hb, hne⟩)
      · exact Or.inr (Or.inl rfl)
      · exact Or.inl hb
      · apply absurd hkey hne
      · exact Or.inr (Or.inr hb)

theorem latest_cons (a : α) (as : List α) (k : κ) :
  latest key (a :: as) k = (latest key as k).or (if key a = k then some a else none)
  := by
  rw [latest, latest, List.filter_cons]
  by_cases hk : key a = k
  · rw [if_pos (decide_eq_true hk), if_pos hk, List.getLast?_cons]
    cases (as.filter fun a => key a = k).getLast? <;> rfl
  · rw [if_neg (by rw [decide_eq_true_eq]; exact hk), if_neg hk, Option.or_none]

theorem puts_nodup {l : List α} (h : (l.map key).Nodup) (as : List α) :
  ((as.foldl (putItem key) l).map key).Nodup
  := by
  induction as generalizing l with
  | nil => exact h
  | cons a as ih => apply ih (putItem_nodup h a)

/-- After items were put into a list it has the last one of every key, and its own items of the
other keys. -/
theorem mem_puts {l : List α} (h : (l.map key).Nodup) (as : List α) (b : α) :
  b ∈ as.foldl (putItem key) l
    ↔ latest key as (key b) = some b ∨ (latest key as (key b) = none ∧ b ∈ l)
  := by
  induction as generalizing l with
  | nil => simp [latest]
  | cons a as ih =>
    rw [List.foldl_cons, ih (putItem_nodup h a), mem_putItem h, latest_cons]
    cases hlast : latest key as (key b) with
    | some c => simp
    | none =>
      simp only [reduceCtorEq, Option.none_or, true_and, false_or]
      by_cases hkey : key a = key b
      · rw [if_pos hkey]
        constructor
        · rintro (rfl | ⟨-, hne⟩)
          · exact Or.inl rfl
          · apply absurd hkey.symm hne
        · rintro (hlast | ⟨hnone, -⟩)
          · exact Or.inl (Option.some_inj.mp hlast).symm
          · cases hnone
      · simp only [if_neg hkey, reduceCtorEq, true_and, false_or]
        constructor
        · rintro (rfl | ⟨hb, -⟩)
          · apply absurd rfl hkey
          · exact hb
        · intro hb
          exact Or.inr ⟨hb, Ne.symm hkey⟩

/-- Only the last item of every key matters, but for the order of the list. -/
theorem puts_perm {as bs : List α} (h : ∀ k, latest key as k = latest key bs k) :
  (as.foldl (putItem key) []).Perm (bs.foldl (putItem key) [])
  := by
  have hnil : (([] : List α).map key).Nodup := List.nodup_nil
  apply (List.perm_ext_iff_of_nodup (puts_nodup hnil as).of_map (puts_nodup hnil bs).of_map).mpr
  intro b
  rw [mem_puts hnil, mem_puts hnil, h]

end Basis
