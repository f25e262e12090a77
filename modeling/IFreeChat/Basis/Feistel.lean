import Mathlib.Data.List.Basic
import Mathlib.Data.Prod.Basic

/-!
# Feistel networks and cipher block chaining

Over a type with a cancelling exclusive or, the rounds of a Feistel network with any round
function are undone by the same rounds with the keys in reverse order, on swapped halves
(`feistelRounds_reverse`), and chaining with any block cipher is undone by chaining with its
inverse (`cbcDecrypt_cbcEncrypt`, `cbcEncrypt_cbcDecrypt`).
-/

namespace Basis

variable {α : Type} [XorOp α]

/-! ### Feistel networks -/

/-- The round of a Feistel network with key `k`: the second half takes up the first half
through the round function, and the halves change places. -/
def feistelRound (F : α → α) (k : α) (p : α × α) : α × α := (p.2 ^^^ (F p.1 ^^^ k), p.1)

/-- The rounds with the keys `ks` in order. -/
def feistelRounds (F : α → α) (ks : List α) (p : α × α) : α × α :=
  ks.foldl (fun p k => feistelRound F k p) p

section

variable (xor_cancel : ∀ a b : α, a ^^^ b ^^^ b = a)

include xor_cancel

theorem feistelRound_swap (F : α → α) (k : α) (p : α × α) :
  feistelRound F k (feistelRound F k p).swap = p.swap
  := by
  obtain ⟨a, b⟩ := p
  simp only [feistelRound, Prod.swap_prod_mk]
  rw [xor_cancel]

/-- The same keys in reverse order undo the rounds. -/
theorem feistelRounds_reverse (F : α → α) (ks : List α) (p : α × α) :
  feistelRounds F ks.reverse (feistelRounds F ks p).swap = p.swap
  := by
  induction ks generalizing p with
  | nil => rfl
  | cons k ks ih =>
    calc
      _ = feistelRound F k
            (feistelRounds F ks.reverse (feistelRounds F ks (feistelRound F k p)).swap) := by
        rw [feistelRounds, List.reverse_cons, List.foldl_append]
        rfl
      _ = feistelRound F k (feistelRound F k p).swap := by rw [ih]
      _ = p.swap := feistelRound_swap xor_cancel F k p

end

/-! ### Cipher block chaining -/

/-- Each block takes up the cipher text of the one before it. -/
def cbcEncrypt (E : α → α) : (iv : α) → List α → List α
  | _, [] => []
  | iv, b :: bs => E (b ^^^ iv) :: cbcEncrypt E (E (b ^^^ iv)) bs

/-- Chaining with the inverse `D` of the block cipher. -/
def cbcDecrypt (D : α → α) : (iv : α) → List α → List α
  | _, [] => []
  | iv, c :: cs => (D c ^^^ iv) :: cbcDecrypt D c cs

theorem cbcEncrypt_length (E : α → α) (iv : α) (bs : List α) :
  (cbcEncrypt E iv bs).length = bs.length
  := by
  induction bs generalizing iv with
  | nil => rfl
  | cons b bs ih => rw [cbcEncrypt, List.length_cons, List.length_cons, ih]

/-- An inverse of the block cipher undoes the chaining. -/
theorem cbcDecrypt_cbcEncrypt {E D : α → α} (xor_cancel : ∀ a b : α, a ^^^ b ^^^ b = a)
    (hD : ∀ b, D (E b) = b) (iv : α) (bs : List α) :
  cbcDecrypt D iv (cbcEncrypt E iv bs) = bs
  := by
  induction bs generalizing iv with
  | nil => rfl
  | cons b bs ih => rw [cbcEncrypt, cbcDecrypt, hD, xor_cancel, ih]

theorem cbcDecrypt_length (D : α → α) (iv : α) (cs : List α) :
  (cbcDecrypt D iv cs).length = cs.length
  := by
  induction cs generalizing iv with
  | nil => rfl
  | cons c cs ih => rw [cbcDecrypt, List.length_cons, List.length_cons, ih]

/-- Chaining undoes the chaining with an inverse of the block cipher. -/
theorem cbcEncrypt_cbcDecrypt {E D : α → α} (xor_cancel : ∀ a b : α, a ^^^ b ^^^ b = a)
    (hE : ∀ c, E (D c) = c) (iv : α) (cs : List α) :
  cbcEncrypt E iv (cbcDecrypt D iv cs) = cs
  := by
  induction cs generalizing iv with
  | nil => rfl
  | cons c cs ih => rw [cbcDecrypt, cbcEncrypt, xor_cancel, hE, ih]

/-- A block depends on its cipher text and on that of the block before it. -/
theorem cbcDecrypt_eq_zipWith (D : α → α) (iv : α) (cs : List α) :
  cbcDecrypt D iv cs = List.zipWith (fun c prev => D c ^^^ prev) cs (iv :: cs)
  := by
  induction cs generalizing iv with
  | nil => rfl
  | cons c cs ih => rw [cbcDecrypt, ih, List.zipWith_cons_cons]

/-- Where two cipher texts differ in one block only, the texts differ in that block and in the one
after it only. -/
theorem cbcDecrypt_getElem?_congr (D : α → α) (iv : α) {cs cs' : List α} {i : Nat}
    (h : ∀ j ≠ i, cs[j]? = cs'[j]?) {j : Nat} (hj : j ≠ i) (hj' : j ≠ i + 1) :
  (cbcDecrypt D iv cs)[j]? = (cbcDecrypt D iv cs')[j]?
  := by
  have hprev : (iv :: cs)[j]? = (iv :: cs')[j]? := by
    cases j with
    | zero => rfl
    | succ j =>
      rw [List.getElem?_cons_succ, List.getElem?_cons_succ]
      apply h
      omega
  rw [cbcDecrypt_eq_zipWith, cbcDecrypt_eq_zipWith, List.getElem?_zipWith, List.getElem?_zipWith,
    h j hj, hprev]

end Basis
