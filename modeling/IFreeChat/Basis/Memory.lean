import Mathlib.Algebra.BigOperators.Group.List.Basic
import Mathlib.Algebra.Order.Ring.Nat
import Mathlib.Data.List.Range

/-!
# Byte memory and 64-bit sizes

`sizeT n` is the value of a 64-bit unsigned size that arithmetic has brought to `n`.

A memory assigns a byte to every address.  `Memory.write` stores a list of bytes from an
address on, `Memory.read` reads so many bytes from an address on; a read sees the last
write to its range and none outside it.  A size is stored as eight bytes, the least
significant one first.
-/

namespace Basis

/-! ### Sizes -/

/-- The number of values of a 64-bit size. -/
def sizeModulus : Nat := 2 ^ 64

/-- The 64-bit size that arithmetic has brought to `n`. -/
def sizeT (n : Nat) : Nat := n % sizeModulus

theorem sizeT_lt (n : Nat) :
  sizeT n < sizeModulus
  := Nat.mod_lt n (by decide)

theorem sizeT_of_lt {n : Nat} (h : n < sizeModulus) :
  sizeT n = n
  := Nat.mod_eq_of_lt h

/-! ### Ranges -/

/-- The `m` addresses from `a` on and the `n` addresses from `b` on have none in common. -/
def Apart (a m b n : Nat) : Prop := a + m ≤ b ∨ b + n ≤ a

instance (a m b n : Nat) : Decidable (Apart a m b n) :=
  inferInstanceAs (Decidable (_ ∨ _))

theorem Apart.symm {a m b n : Nat} (h : Apart a m b n) :
  Apart b n a m
  := Or.symm h

/-- Ranges inside ranges that are apart are apart. -/
theorem Apart.mono {a m b n a' m' b' n' : Nat} (h : Apart a m b n)
    (ha : a ≤ a') (ham : a' + m' ≤ a + m) (hb : b ≤ b') (hbn : b' + n' ≤ b + n) :
  Apart a' m' b' n'
  := by
  rcases h with h | h
  · left
    omega
  · right
    omega

/-! ### Memory -/

/-- A byte at every address. -/
abbrev Memory := Nat → UInt8

namespace Memory

/-- The `n` bytes from the address `a` on. -/
def read (mem : Memory) (a n : Nat) : List UInt8 :=
  (List.range n).map fun i => mem (a + i)

/-- The memory with `bytes` stored from the address `a` on. -/
def write (mem : Memory) (a : Nat) (bytes : List UInt8) : Memory :=
  fun x => if a ≤ x then bytes.getD (x - a) (mem x) else mem x

@[simp]
theorem read_length (mem : Memory) (a n : Nat) :
  (mem.read a n).length = n
  := by
  simp [read]

theorem read_getElem (mem : Memory) (a n i : Nat) (h : i < (mem.read a n).length) :
  (mem.read a n)[i] = mem (a + i)
  := by
  simp [read]

theorem write_apply_of_mem {mem : Memory} {a i : Nat} {bytes : List UInt8}
    (h : i < bytes.length) :
  mem.write a bytes (a + i) = bytes[i]
  := by
  simp [write, List.getD_eq_getElem?_getD, h]

theorem write_apply_of_not_mem {mem : Memory} {a x : Nat} {bytes : List UInt8}
    (h : x < a ∨ a + bytes.length ≤ x) :
  mem.write a bytes x = mem x
  := by
  rw [write]
  split
  · rw [List.getD_eq_getElem?_getD, List.getElem?_eq_none (by omega), Option.getD_none]
  · rfl

/-- A write to an address depends on what the address had. -/
theorem write_congr {mem mem' : Memory} {x : Nat} (a : Nat) (bytes : List UInt8)
    (h : mem' x = mem x) :
  mem'.write a bytes x = mem.write a bytes x
  := by
  rw [write, write, h]

/-- Reading back what was written. -/
@[simp]
theorem read_write_self (mem : Memory) (a : Nat) (bytes : List UInt8) :
  (mem.write a bytes).read a bytes.length = bytes
  := by
  apply List.ext_getElem
  · simp
  · intro i _ hi
    rw [read_getElem, write_apply_of_mem hi]

/-- A write leaves the reads of disjoint ranges alone. -/
theorem read_write_of_apart {mem : Memory} {a b n : Nat} {bytes : List UInt8}
    (h : Apart a bytes.length b n) :
  (mem.write a bytes).read b n = mem.read b n
  := by
  apply List.map_congr_left
  intro i hi
  rw [List.mem_range] at hi
  apply write_apply_of_not_mem
  rcases h with h | h
  · right
    omega
  · left
    omega

theorem read_append (mem : Memory) (a m n : Nat) :
  mem.read a (m + n) = mem.read a m ++ mem.read (a + m) n
  := by
  rw [read, List.range_add, List.map_append, List.map_map]
  congr 1
  apply List.map_congr_left
  intro i _
  simp only [Function.comp, Nat.add_assoc]

/-- Reading a part of what was written. -/
theorem read_write_part {mem : Memory} {a k n : Nat} {bytes : List UInt8}
    (h : k + n ≤ bytes.length) :
  (mem.write a bytes).read (a + k) n = (bytes.drop k).take n
  := by
  apply List.ext_getElem
  · rw [read_length, List.length_take, List.length_drop]
    omega
  · intro i hi _
    rw [read_length] at hi
    rw [read_getElem, Nat.add_assoc, write_apply_of_mem (by omega), List.getElem_take,
      List.getElem_drop]

/-- Two writes one after the other. -/
theorem write_write_append {mem : Memory} {a : Nat} {s t : List UInt8} :
  (mem.write a s).write (a + s.length) t = mem.write a (s ++ t)
  := by
  funext x
  simp only [write]
  by_cases hx : a + s.length ≤ x
  · have hlow : a ≤ x := by omega
    rw [if_pos hx, if_pos hlow, if_pos hlow, List.getD_eq_getElem?_getD,
      List.getD_eq_getElem?_getD, List.getD_eq_getElem?_getD,
      List.getElem?_append_right (by omega), List.getElem?_eq_none (l := s) (by omega),
      Option.getD_none]
    congr 2
    omega
  · rw [if_neg hx]
    split
    · rw [List.getD_eq_getElem?_getD, List.getD_eq_getElem?_getD,
        List.getElem?_append_left (by omega)]
    · rfl

/-- Writing over the start of what was written. -/
theorem write_write {mem : Memory} {a : Nat} {s t : List UInt8} :
  (mem.write a s).write a t = mem.write a (t ++ s.drop t.length)
  := by
  funext x
  simp only [write]
  split
  · rw [List.getD_eq_getElem?_getD, List.getD_eq_getElem?_getD, List.getD_eq_getElem?_getD,
      List.getElem?_append, List.getElem?_drop]
    split
    · rename_i hx
      rw [List.getElem?_eq_getElem hx, Option.getD_some, Option.getD_some]
    · rename_i hx
      rw [List.getElem?_eq_none (by omega), Option.getD_none, Nat.add_sub_of_le (by omega)]
  · rfl

/-- A part of what is read. -/
theorem read_part {mem : Memory} {a k m n : Nat} (h : k + m ≤ n) :
  mem.read (a + k) m = ((mem.read a n).drop k).take m
  := by
  obtain ⟨r, rfl⟩ : ∃ r, n = k + (m + r) := ⟨n - (k + m), by omega⟩
  rw [read_append, read_append, List.drop_left' (read_length mem a k),
    List.take_left' (read_length mem (a + k) m)]

/-- A read depends on the bytes of its range only. -/
theorem read_congr {mem mem' : Memory} {a n : Nat}
    (h : ∀ x, a ≤ x → x < a + n → mem' x = mem x) :
  mem'.read a n = mem.read a n
  := by
  apply List.map_congr_left
  intro i hi
  rw [List.mem_range] at hi
  apply h <;> omega

/-! ### Stored numbers -/

/-- The `k` low bytes of a number, the least significant one first. -/
def bytesOf (k n : Nat) : List UInt8 :=
  (List.range k).map fun i => UInt8.ofNat (n / 256 ^ i)

/-- The number whose bytes are `bytes`, the least significant one first. -/
def ofBytes (bytes : List UInt8) : Nat :=
  bytes.foldr (fun b n => b.toNat + 256 * n) 0

@[simp]
theorem bytesOf_length (k n : Nat) :
  (bytesOf k n).length = k
  := by
  simp [bytesOf]

theorem bytesOf_succ (k n : Nat) :
  bytesOf (k + 1) n = UInt8.ofNat n :: bytesOf k (n / 256)
  := by
  rw [bytesOf, List.range_succ_eq_map, List.map_cons, List.map_map, Nat.pow_zero, Nat.div_one]
  congr 1
  apply List.map_congr_left
  intro i _
  simp only [Function.comp, Nat.div_div_eq_div_mul, Nat.pow_succ']

theorem ofBytes_cons (b : UInt8) (bytes : List UInt8) :
  ofBytes (b :: bytes) = b.toNat + 256 * ofBytes bytes
  := rfl

theorem ofBytes_append (s t : List UInt8) :
  ofBytes (s ++ t) = ofBytes s + 256 ^ s.length * ofBytes t
  := by
  induction s with
  | nil => simp [ofBytes]
  | cons b s ih =>
    rw [List.cons_append, ofBytes_cons, ih, ofBytes_cons, List.length_cons,
      Nat.pow_succ', Nat.mul_assoc]
    omega

theorem ofBytes_lt (bytes : List UInt8) :
  ofBytes bytes < 256 ^ bytes.length
  := by
  induction bytes with
  | nil => simp [ofBytes]
  | cons b bytes ih =>
    have hb := b.toNat_lt
    rw [List.length_cons, Nat.pow_succ, ofBytes_cons]
    omega

/-- The bytes of a number give it back up to the power of 256 they are the digits of. -/
theorem ofBytes_bytesOf (k n : Nat) :
  ofBytes (bytesOf k n) = n % 256 ^ k
  := by
  induction k generalizing n with
  | zero =>
    rw [Nat.pow_zero, Nat.mod_one]
    rfl
  | succ k ih =>
    rw [bytesOf_succ, ofBytes_cons, ih, Nat.pow_succ', Nat.mod_mul, UInt8.toNat_ofNat']

/-- A number made up of bytes has these bytes. -/
theorem bytesOf_ofBytes (bytes : List UInt8) :
  bytesOf bytes.length (ofBytes bytes) = bytes
  := by
  induction bytes with
  | nil => rfl
  | cons b bytes ih =>
    have hb := b.toNat_lt
    have hlow : UInt8.ofNat (b.toNat + 256 * ofBytes bytes) = b := by
      apply UInt8.toNat_inj.mp
      rw [UInt8.toNat_ofNat']
      omega
    have hhigh : (b.toNat + 256 * ofBytes bytes) / 256 = ofBytes bytes := by omega
    rw [List.length_cons, bytesOf_succ, ofBytes_cons, hlow, hhigh, ih]

theorem ofBytes_eq_zero_iff {bytes : List UInt8} :
  ofBytes bytes = 0 ↔ ∀ b ∈ bytes, b = 0
  := by
  induction bytes with
  | nil => simp [ofBytes]
  | cons b bytes ih =>
    have hb : b.toNat = 0 ↔ b = 0 := UInt8.toNat_inj (b := 0)
    rw [ofBytes_cons, List.forall_mem_cons, ← ih, ← hb]
    omega

/-- The eight bytes of a 64-bit size. -/
def sizeBytes (n : Nat) : List UInt8 := bytesOf 8 n

/-- The size stored at the address `a`. -/
def loadSize (mem : Memory) (a : Nat) : Nat := ofBytes (mem.read a 8)

/-- The memory with a size stored at the address `a`. -/
def storeSize (mem : Memory) (a n : Nat) : Memory := mem.write a (sizeBytes n)

@[simp]
theorem sizeBytes_length (n : Nat) :
  (sizeBytes n).length = 8
  := bytesOf_length 8 n

/-- Loading a stored size. -/
theorem loadSize_storeSize {mem : Memory} {a n : Nat} (h : n < sizeModulus) :
  (mem.storeSize a n).loadSize a = n
  := by
  have hread := read_write_self mem a (sizeBytes n)
  rw [sizeBytes_length] at hread
  rw [loadSize, storeSize, hread, sizeBytes, ofBytes_bytesOf]
  apply Nat.mod_eq_of_lt h

theorem loadSize_lt (mem : Memory) (a : Nat) :
  mem.loadSize a < sizeModulus
  := by
  have hlt := ofBytes_lt (mem.read a 8)
  rw [read_length] at hlt
  apply hlt

theorem loadSize_eq_zero_iff {mem : Memory} {a : Nat} :
  mem.loadSize a = 0 ↔ ∀ i < 8, mem (a + i) = 0
  := by
  rw [loadSize, ofBytes_eq_zero_iff, read, List.forall_mem_map]
  simp only [List.mem_range]

theorem loadSize_congr {mem mem' : Memory} {a : Nat}
    (h : ∀ x, a ≤ x → x < a + 8 → mem' x = mem x) :
  mem'.loadSize a = mem.loadSize a
  := congrArg ofBytes (read_congr h)

theorem loadSize_write_of_apart {mem : Memory} {a b : Nat} {bytes : List UInt8}
    (h : Apart a bytes.length b 8) :
  (mem.write a bytes).loadSize b = mem.loadSize b
  := congrArg ofBytes (read_write_of_apart h)

theorem loadSize_storeSize_of_apart {mem : Memory} {a b n : Nat} (h : Apart a 8 b 8) :
  (mem.storeSize a n).loadSize b = mem.loadSize b
  := loadSize_write_of_apart (by rw [sizeBytes_length]; apply h)

/-- Memory set to zero holds the size zero. -/
theorem loadSize_write_zeros {mem : Memory} {a b n : Nat} (ha : a ≤ b) (hb : b + 8 ≤ a + n) :
  (mem.write a (List.replicate n 0)).loadSize b = 0
  := by
  have hread : (mem.write a (List.replicate n 0)).read b 8 = List.replicate 8 0 := by
    apply List.ext_getElem
    · simp
    · intro i hi _
      rw [read_length] at hi
      obtain ⟨k, rfl⟩ := Nat.le.dest ha
      rw [read_getElem, Nat.add_assoc, write_apply_of_mem (by simp; omega),
        List.getElem_replicate, List.getElem_replicate]
  rw [loadSize, hread]
  rfl

/-- The first byte of a stored size is its lowest one. -/
theorem storeSize_apply_self (mem : Memory) (a n : Nat) :
  mem.storeSize a n a = UInt8.ofNat n
  := by
  have hzero : 0 < (sizeBytes n).length := by simp
  have hwrite : mem.write a (sizeBytes n) (a + 0) = (sizeBytes n)[0] := write_apply_of_mem hzero
  rw [Nat.add_zero] at hwrite
  rw [storeSize, hwrite]
  simp [sizeBytes, bytesOf]

/-- A stored size leaves the bytes outside its eight alone. -/
theorem storeSize_apply_of_not_mem {mem : Memory} {a n x : Nat} (h : x < a ∨ a + 8 ≤ x) :
  mem.storeSize a n x = mem x
  := write_apply_of_not_mem (by rw [sizeBytes_length]; apply h)

end Memory

end Basis
