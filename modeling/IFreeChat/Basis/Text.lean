import Mathlib.Data.Nat.Digits.Lemmas

/-!
# Text in bytes

The searches of C strings: `strchr` looks for a byte up to the terminator of a string that
lies in a block, `strrchr` for its last occurrence.  The numerals: `numeral b n` is the text
of the number `n` in base `b`, and `readDigits` reads the digits a text starts with.
-/

namespace Basis

/-- The bytes of a text all of whose characters are ASCII ones. -/
def ascii (s : String) : List UInt8 := s.toList.map fun c => UInt8.ofNat c.toNat

/-! ### Searches -/

/-- The first `c` of the string that starts with the bytes `p` of a block: the bytes before
it and after it, `some none` when the string has no `c`, and `none` when the search leaves
the block. -/
def strchr (c : UInt8) : (p : List UInt8) → Option (Option (List UInt8 × List UInt8))
  | [] => none
  | x :: p =>
      if x = c then some (some ([], p))
      else if x = 0 then some none
      else (strchr c p).map fun found => found.map fun r => (x :: r.1, r.2)

/-- What follows the last `c` of a string. -/
def strrchr (c : UInt8) : (s : List UInt8) → Option (List UInt8)
  | [] => none
  | x :: s =>
      match strrchr c s with
      | some p => some p
      | none => if x = c then some s else none

/-- A search ends at the first occurrence that comes before any terminator. -/
theorem strchr_append {c : UInt8} {before : List UInt8} (hnot : c ∉ before)
    (hnul : c = 0 ∨ 0 ∉ before) (after : List UInt8) :
  strchr c (before ++ c :: after) = some (some (before, after))
  := by
  induction before with
  | nil => rw [List.nil_append, strchr, if_pos rfl]
  | cons x before ih =>
    have hx : x ≠ c := (List.ne_of_not_mem_cons hnot).symm
    have hrest : c ∉ before := List.not_mem_of_not_mem_cons hnot
    have hzero : x ≠ 0 := by
      rcases hnul with rfl | hnul
      · exact hx
      · exact (List.ne_of_not_mem_cons hnul).symm
    rw [List.cons_append, strchr, if_neg hx, if_neg hzero,
      ih hrest (hnul.imp id List.not_mem_of_not_mem_cons)]
    rfl

/-- A search finds the first occurrence, before any terminator. -/
theorem strchr_eq_some_iff {c : UInt8} {p before after : List UInt8} :
  strchr c p = some (some (before, after))
    ↔ p = before ++ c :: after ∧ c ∉ before ∧ (c = 0 ∨ 0 ∉ before)
  := by
  constructor
  · intro h
    induction p generalizing before with
    | nil => cases h
    | cons x p ih =>
      rw [strchr] at h
      split at h
      · rename_i hx
        cases h
        simp [hx]
      · rename_i hx
        split at h
        · cases h
        · rename_i hzero
          obtain ⟨found, hfound, hsome⟩ := Option.map_eq_some_iff.mp h
          obtain ⟨⟨before', after'⟩, rfl, heq⟩ := Option.map_eq_some_iff.mp hsome
          cases heq
          obtain ⟨rfl, hnot, hnul⟩ := ih hfound
          refine ⟨rfl, ?_, hnul.imp id ?_⟩
          · simp [hnot, Ne.symm hx]
          · intro hnul
            simp [hnul, Ne.symm hzero]
  · rintro ⟨rfl, hnot, hnul⟩
    apply strchr_append hnot hnul

theorem strrchr_eq_none_iff {c : UInt8} {s : List UInt8} :
  strrchr c s = none ↔ c ∉ s
  := by
  induction s with
  | nil => simp [strrchr]
  | cons x s ih =>
    rw [strrchr]
    cases h : strrchr c s with
    | some p =>
      have hmem : c ∈ s := by
        by_contra hnot
        rw [ih.mpr hnot] at h
        cases h
      simp [hmem]
    | none =>
      have hnot := ih.mp h
      by_cases hx : x = c
      · simp [hx]
      · simp [hx, Ne.symm hx, hnot]

/-- The search for the last occurrence. -/
theorem strrchr_append {c : UInt8} {s t : List UInt8} (h : c ∉ t) :
  strrchr c (s ++ c :: t) = some t
  := by
  induction s with
  | nil =>
    rw [List.nil_append, strrchr, strrchr_eq_none_iff.mpr h]
    simp
  | cons x s ih =>
    rw [List.cons_append, strrchr, ih]

/-- A text without some byte starts a block exactly when it starts what lies before that
byte. -/
theorem isPrefixOf_append_cons {c : UInt8} {s t rest : List UInt8} (hs : c ∉ s) :
  s.isPrefixOf (t ++ c :: rest) = s.isPrefixOf t
  := by
  induction t generalizing s with
  | nil =>
    cases s with
    | nil => rfl
    | cons x s =>
      rw [List.mem_cons, not_or] at hs
      simp [List.isPrefixOf, Ne.symm hs.1]
  | cons x t ih =>
    cases s with
    | nil => rfl
    | cons y s =>
      rw [List.mem_cons, not_or] at hs
      rw [List.cons_append, List.isPrefixOf, List.isPrefixOf, ih hs.2]

/-! ### Numerals -/

/-- The character of a digit. -/
def digitChar (d : Nat) : UInt8 := UInt8.ofNat (if d < 10 then 48 + d else 87 + d)

/-- The digit a character stands for. -/
def charDigit (c : UInt8) : Option Nat :=
  if 48 ≤ c ∧ c ≤ 57 then some (c.toNat - 48)
  else if 97 ≤ c ∧ c ≤ 122 then some (c.toNat - 87)
  else if 65 ≤ c ∧ c ≤ 90 then some (c.toNat - 55)
  else none

/-- The digit of base `b` a character stands for. -/
def digitValue (b : Nat) (c : UInt8) : Option Nat := (charDigit c).filter fun d => d < b

/-- The text of the number `n` in base `b`. -/
def numeral (b n : Nat) : List UInt8 :=
  if n = 0 then [digitChar 0] else (Nat.digits b n).reverse.map digitChar

/-- The number the digits at the start of a text continue `n` to. -/
def readDigits (b : Nat) : (n : Nat) → List UInt8 → Nat
  | n, [] => n
  | n, c :: s =>
      match digitValue b c with
      | none => n
      | some d => readDigits b (n * b + d) s

theorem charDigit_digitChar {d : Nat} (h : d < 36) :
  charDigit (digitChar d) = some d
  := by
  have hall : ∀ d : Fin 36, charDigit (digitChar d) = some d.val := by decide
  apply hall ⟨d, h⟩

theorem digitValue_digitChar {b d : Nat} (hb : b ≤ 36) (hd : d < b) :
  digitValue b (digitChar d) = some d
  := by
  rw [digitValue, charDigit_digitChar (by omega)]
  simp [hd]

/-- The digits of a numeral make up its number. -/
theorem numeral_eq_digits {b : Nat} (hb : 2 ≤ b) (n : Nat) :
  ∃ ds : List Nat, numeral b n = ds.map digitChar ∧ ds ≠ [] ∧ (∀ d ∈ ds, d < b)
    ∧ ds.foldl (fun m d => m * b + d) 0 = n
  := by
  rw [numeral]
  split
  · rename_i hn
    use [0]
    simp only [List.map_singleton, List.mem_singleton, List.foldl_cons, List.foldl_nil]
    refine ⟨trivial, by simp, ?_, by omega⟩
    rintro d rfl
    omega
  · rename_i hn
    refine ⟨(Nat.digits b n).reverse, rfl, ?_, ?_, ?_⟩
    · simpa using Nat.digits_ne_nil_iff_ne_zero.mpr hn
    · intro d hd
      apply Nat.digits_lt_base (by omega) (List.mem_reverse.mp hd)
    · have hof := Nat.ofDigits_digits b n
      rw [Nat.ofDigits_eq_foldr] at hof
      rw [List.foldl_reverse]
      calc
        _ = List.foldr (fun x y => x + b * y) 0 (Nat.digits b n) := by
          congr 1
          funext d m
          rw [Nat.mul_comm, Nat.add_comm]
        _ = n := hof

theorem readDigits_map {b : Nat} (hb : b ≤ 36) {rest : List UInt8}
    (hrest : ∀ c ∈ rest.head?, digitValue b c = none) :
  ∀ (ds : List Nat) (n : Nat), (∀ d ∈ ds, d < b) →
    readDigits b n (ds.map digitChar ++ rest) = ds.foldl (fun m d => m * b + d) n
  | [], n, _ => by
      cases rest with
      | nil => rfl
      | cons c rest =>
        rw [List.map_nil, List.nil_append, readDigits, hrest c rfl, List.foldl_nil]
  | d :: ds, n, hds => by
      have hd := digitValue_digitChar hb (hds d List.mem_cons_self)
      rw [List.map_cons, List.cons_append, readDigits, hd]
      apply readDigits_map hb hrest ds
      intro d' hd'
      apply hds d' (List.mem_cons_of_mem d hd')

/-- Reading back a numeral that no further digit follows. -/
theorem readDigits_numeral {b : Nat} (hb : 2 ≤ b) (hb' : b ≤ 36) (n : Nat)
    {rest : List UInt8} (hrest : ∀ c ∈ rest.head?, digitValue b c = none) :
  readDigits b 0 (numeral b n ++ rest) = n
  := by
  obtain ⟨ds, hds, -, hlt, hfold⟩ := numeral_eq_digits hb n
  rw [hds, readDigits_map hb' hrest ds 0 hlt, hfold]

/-- The characters of a numeral are digits. -/
theorem digitValue_of_mem_numeral {b n : Nat} (hb : 2 ≤ b) (hb' : b ≤ 36) {c : UInt8}
    (hc : c ∈ numeral b n) :
  ∃ d < b, digitValue b c = some d ∧ c = digitChar d
  := by
  obtain ⟨ds, hds, -, hlt, -⟩ := numeral_eq_digits hb n
  rw [hds] at hc
  obtain ⟨d, hd, rfl⟩ := List.mem_map.mp hc
  use d, hlt d hd, digitValue_digitChar hb' (hlt d hd)

theorem not_mem_numeral {b n : Nat} (hb : 2 ≤ b) (hb' : b ≤ 36) {c : UInt8}
    (hc : digitValue b c = none) :
  c ∉ numeral b n
  := by
  intro hmem
  obtain ⟨d, -, hd, -⟩ := digitValue_of_mem_numeral hb hb' hmem
  rw [hc] at hd
  cases hd

theorem numeral_ne_nil {b : Nat} (hb : 2 ≤ b) (n : Nat) :
  numeral b n ≠ []
  := by
  obtain ⟨ds, hds, hne, -⟩ := numeral_eq_digits hb n
  rw [hds]
  simpa using hne

/-- A number below `b ^ k` has at most `k` digits. -/
theorem numeral_length_le {b k n : Nat} (hb : 2 ≤ b) (hk : 1 ≤ k) (hn : n < b ^ k) :
  (numeral b n).length ≤ k
  := by
  rw [numeral]
  split
  · apply hk
  · rw [List.length_map, List.length_reverse]
    apply (Nat.digits_length_le_iff (by omega) n).mpr hn

/-- A text of digits, of which the first is not `0` unless it is the only one, is the numeral of
its number. -/
theorem numeral_foldl {b : Nat} (hb : 2 ≤ b) {ds : List Nat} (hne : ds ≠ [])
    (hlt : ∀ d ∈ ds, d < b) (hzero : ds.head? = some 0 → ds = [0]) :
  numeral b (ds.foldl (fun m d => m * b + d) 0) = ds.map digitChar
  := by
  have hof : ds.foldl (fun m d => m * b + d) 0 = Nat.ofDigits b ds.reverse := by
    rw [Nat.ofDigits_eq_foldr, List.foldr_reverse]
    congr 1
    funext m d
    rw [Nat.mul_comm, Nat.add_comm]
    rfl
  by_cases hds : ds = [0]
  · subst hds
    simp [numeral]
  · have hdigits : Nat.digits b (Nat.ofDigits b ds.reverse) = ds.reverse := by
      apply Nat.digits_ofDigits b (by omega)
      · intro d hd
        apply hlt d (List.mem_reverse.mp hd)
      · intro hne' hlast
        apply hds (hzero _)
        rw [List.getLast_reverse] at hlast
        rw [List.head?_eq_some_head hne, hlast]
    rw [numeral, hof, if_neg, hdigits, List.reverse_reverse]
    intro h
    rw [h, Nat.digits_zero] at hdigits
    apply hne (List.reverse_eq_nil_iff.mp hdigits.symm)

/-- The text of an integer in base ten. -/
def decimal (n : Int) : List UInt8 :=
  if n < 0 then 45 :: numeral 10 n.natAbs else numeral 10 n.natAbs

theorem not_mem_decimal {c : UInt8} (n : Int) (hminus : c ≠ 45) (hc : digitValue 10 c = none) :
  c ∉ decimal n
  := by
  have hnat : c ∉ numeral 10 n.natAbs := not_mem_numeral (by decide) (by decide) hc
  rw [decimal]
  split
  · rw [List.mem_cons, not_or]
    use hminus
  · apply hnat

/-- The text of an `int` has at most 11 characters. -/
theorem decimal_length_le {n : Int} (h : n.natAbs ≤ 2 ^ 31) :
  (decimal n).length ≤ 11
  := by
  have hnat : (numeral 10 n.natAbs).length ≤ 10 := by
    apply numeral_length_le (by decide) (by decide)
    omega
  rw [decimal]
  split
  · rw [List.length_cons]
    omega
  · omega

/-! ### Integers -/

/-- `isspace`. -/
def isSpace (c : UInt8) : Bool := c = 32 || (9 ≤ c && c ≤ 13)

/-- The integer a text starts with in base `b`, after blanks and a sign. -/
def readInteger (b : Nat) (s : List UInt8) : Int :=
  match s.dropWhile isSpace with
  | 45 :: s => -(readDigits b 0 s : Int)
  | 43 :: s => readDigits b 0 s
  | s => readDigits b 0 s

/-- `atoi`, which goes through a `long` of 64 bits. -/
def atoi (s : List UInt8) : Int :=
  (max (-2 ^ 63) (min (2 ^ 63 - 1) (readInteger 10 s))).bmod (2 ^ 32)

theorem atoi_natAbs_le (s : List UInt8) :
  (atoi s).natAbs ≤ 2 ^ 31
  := by
  have hlow := @Int.le_bmod (max (-2 ^ 63) (min (2 ^ 63 - 1) (readInteger 10 s))) (2 ^ 32)
    (by decide)
  have hhigh := @Int.bmod_le (max (-2 ^ 63) (min (2 ^ 63 - 1) (readInteger 10 s))) (2 ^ 32)
    (by decide)
  rw [atoi]
  omega

/-- A text without a sign is read as it is. -/
theorem match_sign {α : Type} {c : UInt8} {s : List UInt8} (hminus : c ≠ 45) (hplus : c ≠ 43)
    (minus plus digits : List UInt8 → α) :
  (match c :: s with
    | 45 :: s => minus s
    | 43 :: s => plus s
    | s => digits s) = digits (c :: s)
  := by
  split
  · rename_i heq
    cases heq
    apply absurd rfl hminus
  · rename_i heq
    cases heq
    apply absurd rfl hplus
  · rfl

/-- A text that starts with a numeral starts with its number. -/
theorem readInteger_numeral {b : Nat} (hb : 2 ≤ b) (hb' : b ≤ 36) (n : Nat)
    {rest : List UInt8} (hrest : ∀ c ∈ rest.head?, digitValue b c = none) :
  readInteger b (numeral b n ++ rest) = n
  := by
  obtain ⟨c, s, hcs⟩ := List.exists_cons_of_ne_nil (numeral_ne_nil hb n)
  obtain ⟨d, hd, -, hc⟩ := digitValue_of_mem_numeral hb hb' (hcs ▸ List.mem_cons_self)
  have hall : ∀ d : Fin 36, isSpace (digitChar d) = false ∧ digitChar d ≠ 45
      ∧ digitChar d ≠ 43 := by decide
  obtain ⟨hspace, hminus, hplus⟩ := hall ⟨d, by omega⟩
  rw [← hc] at hspace hminus hplus
  have hread := readDigits_numeral hb hb' n hrest
  rw [hcs, List.cons_append] at hread ⊢
  rw [readInteger, List.dropWhile_cons_of_neg (by rw [hspace]; decide), match_sign hminus hplus,
    hread]

theorem atoi_numeral {n : Nat} (hn : n < 2 ^ 31) {rest : List UInt8}
    (hrest : ∀ c ∈ rest.head?, digitValue 10 c = none) :
  atoi (numeral 10 n ++ rest) = n
  := by
  rw [atoi, readInteger_numeral (by decide) (by decide) n hrest]
  rw [Int.bmod_eq_of_le] <;> omega

theorem readDigits_append_nul (b n : Nat) (s rest : List UInt8) :
  readDigits b n (s ++ 0 :: rest) = readDigits b n s
  := by
  have hzero : digitValue b 0 = none := rfl
  induction s generalizing n with
  | nil => simp [readDigits, hzero]
  | cons c s ih =>
    rw [List.cons_append, readDigits, readDigits]
    cases digitValue b c with
    | none => rfl
    | some d => apply ih

/-- A number is read up to the terminator at most. -/
theorem atoi_append_nul (s rest : List UInt8) :
  atoi (s ++ 0 :: rest) = atoi s
  := by
  have hdrop : (s ++ 0 :: rest).dropWhile isSpace = s.dropWhile isSpace ++ 0 :: rest := by
    induction s with
    | nil => rfl
    | cons c s ih =>
      rw [List.cons_append, List.dropWhile_cons, List.dropWhile_cons, ih]
      split
      · rfl
      · rfl
  have hread : readInteger 10 (s ++ 0 :: rest) = readInteger 10 s := by
    rw [readInteger, readInteger, hdrop]
    cases s.dropWhile isSpace with
    | nil => rfl
    | cons c t =>
      by_cases hminus : c = 45
      · subst hminus
        simp [readDigits_append_nul]
      · by_cases hplus : c = 43
        · subst hplus
          simp [readDigits_append_nul]
        · have hdigits := readDigits_append_nul 10 0 (c :: t) rest
          rw [List.cons_append] at hdigits ⊢
          rw [match_sign hminus hplus, match_sign hminus hplus, hdigits]
  rw [atoi, atoi, hread]

/-- `strtoul` in base 16, where a `long` has 32 bits: after blanks, a sign and `0x`, the number,
the largest one where it is too large. -/
def strtoul (s : List UInt8) : UInt32 :=
  let (minus, s) : Bool × List UInt8 :=
    match s.dropWhile isSpace with
    | 45 :: s => (true, s)
    | 43 :: s => (false, s)
    | s => (false, s)
  let s :=
    match s with
    | 48 :: 120 :: s => s
    | 48 :: 88 :: s => s
    | s => s
  let n := readDigits 16 0 s
  if 2 ^ 32 ≤ n then UInt32.ofNat (2 ^ 32 - 1)
  else if minus then -UInt32.ofNat n
  else UInt32.ofNat n

theorem strtoul_numeral (n : UInt32) :
  strtoul (numeral 16 n.toNat) = n
  := by
  have hdigit : ∀ c ∈ numeral 16 n.toNat, isSpace c = false ∧ c ≠ 45 ∧ c ≠ 43 ∧ c ≠ 120
      ∧ c ≠ 88 := by
    intro c hc
    obtain ⟨d, hd, -, rfl⟩ := digitValue_of_mem_numeral (by decide) (by decide) hc
    have hall : ∀ d : Fin 16, isSpace (digitChar d) = false ∧ digitChar d ≠ 45
      ∧ digitChar d ≠ 43 ∧ digitChar d ≠ 120 ∧ digitChar d ≠ 88 := by decide
    apply hall ⟨d, hd⟩
  obtain ⟨c, s, hcs⟩ := List.exists_cons_of_ne_nil
    (numeral_ne_nil (by decide : 2 ≤ 16) n.toNat)
  have hread := readDigits_numeral (by decide : 2 ≤ 16) (by decide) n.toNat
    (by simp : ∀ c ∈ ([] : List UInt8).head?, digitValue 16 c = none)
  rw [List.append_nil] at hread
  have hlt := n.toNat_lt
  rw [hcs] at hdigit hread ⊢
  obtain ⟨hspace, hminus, hplus, -, -⟩ := hdigit c List.mem_cons_self
  have hdrop : (c :: s).dropWhile isSpace = c :: s :=
    List.dropWhile_cons_of_neg (by rw [hspace]; decide)
  have hsign : (match c :: s with
      | 45 :: s => (true, s)
      | 43 :: s => (false, s)
      | s => (false, s)) = (false, c :: s) := by
    rw [match_sign hminus hplus]
  have hskip : (match c :: s with
      | 48 :: 120 :: s => s
      | 48 :: 88 :: s => s
      | s => s) = c :: s := by
    split
    · rename_i heq
      cases heq
      apply absurd rfl (hdigit 120 (by simp)).2.2.2.1
    · rename_i heq
      cases heq
      apply absurd rfl (hdigit 88 (by simp)).2.2.2.2
    · rfl
  rw [strtoul, hdrop, hsign]
  simp only
  rw [hskip, hread, if_neg (by omega), if_neg (by decide), UInt32.ofNat_toNat]

/-! ### UTF-8 -/

/-- The bytes are the UTF-8 encoding of characters. -/
def IsUtf8 (s : List UInt8) : Prop := ∃ chars : List Char, s = chars.flatMap String.utf8EncodeChar

theorem IsUtf8.append {s t : List UInt8} (hs : IsUtf8 s) (ht : IsUtf8 t) :
  IsUtf8 (s ++ t)
  := by
  obtain ⟨chars, rfl⟩ := hs
  obtain ⟨chars', rfl⟩ := ht
  use chars ++ chars'
  rw [List.flatMap_append]

/-- A character below 128 is encoded by one byte. -/
theorem utf8EncodeChar_ofNat {n : Nat} (h : n < 128) :
  String.utf8EncodeChar (Char.ofNat n) = [UInt8.ofNat n]
  := by
  have hvalid : n.isValidChar := Or.inl (by omega)
  have hval : (Char.ofNat n).val.toNat = n := by
    rw [Char.ofNat, dif_pos hvalid]
    rfl
  simp only [String.utf8EncodeChar, hval]
  rw [if_pos (by omega)]

theorem isUtf8_of_ascii {s : List UInt8} (h : ∀ c ∈ s, c < 128) :
  IsUtf8 s
  := by
  induction s with
  | nil =>
    use []
    rfl
  | cons c s ih =>
    obtain ⟨chars, hs⟩ := ih fun c' hc' => h c' (List.mem_cons_of_mem c hc')
    have hc := UInt8.lt_iff_toNat_lt.mp (h c List.mem_cons_self)
    have hencode := utf8EncodeChar_ofNat hc
    rw [UInt8.ofNat_toNat] at hencode
    use Char.ofNat c.toNat :: chars
    rw [List.flatMap_cons, hencode, ← hs]
    rfl

theorem numeral_ascii {b n : Nat} (hb : 2 ≤ b) (hb' : b ≤ 36) :
  ∀ c ∈ numeral b n, c < 128
  := by
  intro c hc
  obtain ⟨d, hd, -, rfl⟩ := digitValue_of_mem_numeral hb hb' hc
  have hall : ∀ d : Fin 36, digitChar d < 128 := by decide
  apply hall ⟨d, by omega⟩

end Basis
