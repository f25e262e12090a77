import Mathlib.Data.List.TakeWhile
import IFreeChat.Basis.Text

/-!
# Strings in blocks

The C functions on strings work on the bytes of a block from an address on.  They fail with
a `Fault` where the code follows a pointer a search did not give, or leaves the block.
-/

namespace Basis

/-- What code must not do. -/
inductive Fault where
  | nullPointer
  | readOutside
  | writeOutside
  | sizeWraps
  | divisionByZero
deriving DecidableEq

theorem bind_eq_ok {ε α β : Type} {x : Except ε α} {f : α → Except ε β} {b : β} :
  x >>= f = .ok b ↔ ∃ a, x = .ok a ∧ f a = .ok b
  := by
  cases x with
  | error e =>
    constructor
    · intro h
      cases h
    · rintro ⟨a, h, -⟩
      cases h
  | ok a =>
    constructor
    · intro h
      use a, rfl, h
    · rintro ⟨a', h, hf⟩
      cases h
      apply hf

theorem bind_eq_error {ε α β : Type} {x : Except ε α} {f : α → Except ε β} {e : ε} :
  x >>= f = .error e ↔ x = .error e ∨ ∃ a, x = .ok a ∧ f a = .error e
  := by
  cases x with
  | error e' =>
    constructor
    · intro h
      cases h
      exact .inl rfl
    · rintro (h | ⟨a, h, -⟩)
      · cases h
        rfl
      · cases h
  | ok a =>
    constructor
    · intro h
      exact .inr ⟨a, rfl, h⟩
    · rintro (h | ⟨a', h, hf⟩)
      · cases h
      · cases h
        apply hf

/-! ### Searches -/

/-- The bytes before and after the first `c` that `strchr(p, c)` finds. -/
def search (c : UInt8) (p : List UInt8) : Except Fault (List UInt8 × List UInt8) :=
  match strchr c p with
  | none => .error .readOutside
  | some none => .error .nullPointer
  | some (some r) => .ok r

/-- The bytes of `q` before the first `c`, terminators among them. -/
def copyUpTo (c : UInt8) : (q : List UInt8) → Except Fault (List UInt8)
  | [] => .error .readOutside
  | x :: q =>
      if x = c then .ok []
      else do
        let s ← copyUpTo c q
        .ok (x :: s)

theorem search_eq_ok_iff {c : UInt8} {p before after : List UInt8} :
  search c p = .ok (before, after)
    ↔ p = before ++ c :: after ∧ c ∉ before ∧ (c = 0 ∨ 0 ∉ before)
  := by
  rw [← strchr_eq_some_iff, search]
  split
  · rename_i h
    simp [h]
  · rename_i h
    simp [h]
  · rename_i r h
    simp [h]

theorem search_append {c : UInt8} {before after : List UInt8} (h : c ∉ before)
    (hnul : 0 ∉ before) :
  search c (before ++ c :: after) = .ok (before, after)
  := search_eq_ok_iff.mpr ⟨rfl, h, Or.inr hnul⟩

/-- A search in a string that finds its byte finds it before the terminator. -/
theorem search_string {c : UInt8} {s q before after : List UInt8} (hc : c ≠ 0)
    (h : search c (s ++ 0 :: q) = .ok (before, after)) :
  ∃ after', s = before ++ c :: after' ∧ after = after' ++ 0 :: q
  := by
  obtain ⟨heq, -, hnul⟩ := search_eq_ok_iff.mp h
  have hnul' := hnul.resolve_left hc
  rcases List.append_eq_append_iff.mp heq with ⟨as, rfl, has⟩ | ⟨bs, rfl, hbs⟩
  · cases as with
    | nil =>
      cases has
      apply absurd rfl hc
    | cons x as =>
      cases has
      simp at hnul'
  · cases bs with
    | nil =>
      cases hbs
      apply absurd rfl hc
    | cons x after' =>
      cases hbs
      use after', rfl
      rfl

theorem copyUpTo_append {c : UInt8} {s after : List UInt8} (h : c ∉ s) :
  copyUpTo c (s ++ c :: after) = .ok s
  := by
  induction s with
  | nil => simp [copyUpTo]
  | cons x s ih =>
    rw [List.mem_cons, not_or] at h
    rw [List.cons_append, copyUpTo, if_neg (Ne.symm h.1), ih h.2]
    rfl

/-! ### Strings -/

/-- The string a block starts with, and the bytes after its terminator. -/
def cString (p : List UInt8) : Except Fault (List UInt8 × List UInt8) := search 0 p

theorem cString_append {s rest : List UInt8} (h : 0 ∉ s) :
  cString (s ++ 0 :: rest) = .ok (s, rest)
  := search_append h h

theorem cString_eq_ok_iff {p s rest : List UInt8} :
  cString p = .ok (s, rest) ↔ p = s ++ 0 :: rest ∧ 0 ∉ s
  := by
  rw [cString, search_eq_ok_iff]
  tauto

/-- The characters of a block before its first terminator. -/
def untilNul (p : List UInt8) : List UInt8 := p.takeWhile fun c => c ≠ 0

theorem not_mem_untilNul (p : List UInt8) :
  0 ∉ untilNul p
  := by
  intro h
  have := List.mem_takeWhile_imp h
  simp at this

theorem untilNul_append {s : List UInt8} (h : 0 ∉ s) (p : List UInt8) :
  untilNul (s ++ p) = s ++ untilNul p
  := by
  apply List.takeWhile_append_of_pos
  rintro c hc
  rw [decide_eq_true_eq]
  rintro rfl
  apply h hc

theorem untilNul_string {s : List UInt8} (h : 0 ∉ s) (rest : List UInt8) :
  untilNul (s ++ 0 :: rest) = s
  := by
  rw [untilNul_append h, untilNul, List.takeWhile_cons_of_neg (by simp), List.append_nil]

theorem untilNul_of_not_mem {s : List UInt8} (h : 0 ∉ s) :
  untilNul s = s
  := by
  have happend := untilNul_append h []
  simp only [List.append_nil] at happend
  rw [happend]
  apply List.append_nil

/-- A block in which its string ends has a terminator there. -/
theorem eq_untilNul_append {p : List UInt8} (h : (untilNul p).length < p.length) :
  p = untilNul p ++ 0 :: p.drop ((untilNul p).length + 1)
  := by
  induction p with
  | nil => cases h
  | cons c p ih =>
    by_cases hc : c = 0
    · subst hc
      simp [untilNul]
    · have hcons : untilNul (c :: p) = c :: untilNul p :=
        List.takeWhile_cons_of_pos (by simp [hc])
      rw [hcons] at h ⊢
      simp only [List.length_cons, Nat.add_lt_add_iff_right] at h
      rw [List.length_cons, List.drop_succ_cons, List.cons_append, ← ih h]

/-- A zero after a block ends its string at the latest. -/
theorem untilNul_append_zero (p rest : List UInt8) :
  untilNul (p ++ 0 :: rest) = untilNul p
  := by
  induction p with
  | nil => simp [untilNul]
  | cons c p ih =>
    by_cases hc : c = 0
    · subst hc
      simp [untilNul]
    · have hcons : ∀ q, untilNul (c :: q) = c :: untilNul q := fun q =>
        List.takeWhile_cons_of_pos (by simp [hc])
      rw [List.cons_append, hcons, hcons, ih]

/-- What comes after a terminator does not matter. -/
theorem untilNul_append_of_mem {p : List UInt8} (h : 0 ∈ p) (rest : List UInt8) :
  untilNul (p ++ rest) = untilNul p
  := by
  obtain ⟨s, q, rfl, hnul⟩ := List.eq_append_cons_of_mem h
  rw [List.append_assoc, List.cons_append, untilNul_string hnul, untilNul_string hnul]

theorem untilNul_append_zeros (p : List UInt8) (n : Nat) :
  untilNul (p ++ List.replicate n 0) = untilNul p
  := by
  cases n with
  | zero => rw [List.replicate_zero, List.append_nil]
  | succ n => apply untilNul_append_zero

theorem untilNul_length_le (p : List UInt8) :
  (untilNul p).length ≤ p.length
  := (List.takeWhile_prefix _).length_le

/-- A block that a zero follows has its string. -/
theorem cString_append_zero (p rest : List UInt8) :
  ∃ after, cString (p ++ 0 :: rest) = .ok (untilNul p, after)
  := by
  have hle := untilNul_length_le p
  have hlt : (untilNul (p ++ 0 :: rest)).length < (p ++ 0 :: rest).length := by
    rw [untilNul_append_zero, List.length_append, List.length_cons]
    omega
  rw [← untilNul_append_zero p rest]
  exact ⟨_, cString_eq_ok_iff.mpr ⟨eq_untilNul_append hlt, not_mem_untilNul _⟩⟩

/-- A string in an array of `n` characters. -/
structure CArray (n : Nat) where
  text : List UInt8
  nul : 0 ∉ text
  fits : text.length < n

end Basis
