import IFreeChat.Ifc.Feiq

/-!
# Addresses as text

`ip2str` prints the four bytes of an address as decimal numbers with dots between them, and
`str2ip` scans four numbers with `sscanf` and puts them together.  A number that is scanned may
have blanks, a sign and zeros before it, and be larger than a byte; on the texts that `ip2str`
prints, which are the dotted quads without leading zeros, the two are inverse to each other
(`address_text`).
-/

open Basis

namespace IFreeChat

namespace Feiq

/-! ### Scanning -/

/-- The characters `0` to `9`. -/
def isDigit (c : UInt8) : Bool := (digitValue 10 c).isSome

/-- Whether a text starts with a minus, and what follows the sign it may start with. -/
def scanSign (s : List UInt8) : Bool × List UInt8 :=
  match s with
  | 45 :: s => (true, s)
  | 43 :: s => (false, s)
  | s => (false, s)

/-- `%u` of `sscanf`: after blanks and a sign, a number of at least one digit, and what follows
it.  The number goes through an `unsigned long` of 64 bits, the largest one where it is too
large. -/
def scanUnsigned (s : List UInt8) : Option (UInt32 × List UInt8) :=
  let (minus, s) := scanSign (s.dropWhile isSpace)
  if s.takeWhile isDigit = [] then none
  else
    let n := readDigits 10 0 s
    let value : UInt32 :=
      if 2 ^ 64 ≤ n then UInt32.ofNat (2 ^ 64 - 1)
      else if minus then -UInt32.ofNat n
      else UInt32.ofNat n
    some (value, s.dropWhile isDigit)

/-- The numbers that `sscanf` stores for `count` directives `%u` with dots between them: it
ends at the first directive or dot that does not match. -/
def scanNumbers : (count : Nat) → List UInt8 → List UInt32
  | 0, _ => []
  | count + 1, s =>
      match scanUnsigned s with
      | none => []
      | some (p, 46 :: s) => p :: scanNumbers count s
      | some (p, _) => [p]

/-- The variables of `str2ip`. -/
structure Numbers where
  p1 : UInt32
  p2 : UInt32
  p3 : UInt32
  p4 : UInt32

/-- `str2ip`, where `unset` has what the variables hold before they are scanned. -/
def str2ip (unset : Numbers) : (ip : Option (List UInt8)) → UInt32
  | none => 0
  | some ip =>
      let p := scanNumbers 4 ip
      let p1 := p[0]?.getD unset.p1
      let p2 := p[1]?.getD unset.p2
      let p3 := p[2]?.getD unset.p3
      let p4 := p[3]?.getD unset.p4
      (p1 <<< 24) ||| (p2 <<< 16) ||| (p3 <<< 8) ||| p4

/-- A numeral that no further digit follows is scanned as its number. -/
theorem scanUnsigned_numeral {n : Nat} (hn : n < 2 ^ 64) {rest : List UInt8}
    (hrest : ∀ c ∈ rest.head?, digitValue 10 c = none) :
  scanUnsigned (numeral 10 n ++ rest) = some (UInt32.ofNat n, rest)
  := by
  obtain ⟨c, s, hcs⟩ := List.exists_cons_of_ne_nil (@numeral_ne_nil 10 (by decide) n)
  have hdigits : ∀ c ∈ numeral 10 n, isDigit c = true := by
    intro c hc
    obtain ⟨d, -, hd, -⟩ := digitValue_of_mem_numeral (by decide) (by decide) hc
    rw [isDigit, hd, Option.isSome_some]
  have hstop : rest.dropWhile isDigit = rest := by
    cases rest with
    | nil => rfl
    | cons c rest =>
      rw [List.dropWhile_cons_of_neg]
      rw [isDigit, hrest c rfl]
      decide
  obtain ⟨d, hd, -, hc⟩ :=
    digitValue_of_mem_numeral (by decide) (by decide) (hcs ▸ List.mem_cons_self)
  have hall : ∀ d : Fin 10, isSpace (digitChar d) = false ∧ digitChar d ≠ 45
      ∧ digitChar d ≠ 43 := by decide
  obtain ⟨hspace, hminus, hplus⟩ := hall ⟨d, hd⟩
  rw [← hc] at hspace hminus hplus
  have hread := readDigits_numeral (by decide) (by decide) n hrest
  have htake : (numeral 10 n ++ rest).takeWhile isDigit ≠ [] := by
    rw [hcs, List.cons_append, List.takeWhile_cons_of_pos (hdigits c (hcs ▸ List.mem_cons_self))]
    apply List.cons_ne_nil
  have hdrop : (numeral 10 n ++ rest).dropWhile isDigit = rest := by
    rw [List.dropWhile_append_of_pos hdigits, hstop]
  rw [hcs, List.cons_append] at hread htake hdrop ⊢
  have hsign : scanSign (c :: (s ++ rest)) = (false, c :: (s ++ rest)) := by
    apply match_sign hminus hplus
  rw [scanUnsigned, List.dropWhile_cons_of_neg (by rw [hspace]; decide), hsign]
  simp only [if_neg htake, hread, hdrop, if_neg (Nat.not_le.mpr hn), Bool.false_eq_true, if_false]

/-- A numeral before a dot is scanned as its number, and the scan goes on behind the dot. -/
theorem scanNumbers_dot {n : Nat} (hn : n < 2 ^ 64) (count : Nat) (rest : List UInt8) :
  scanNumbers (count + 1) (numeral 10 n ++ (ascii "." ++ rest))
    = UInt32.ofNat n :: scanNumbers count rest
  := by
  have hdot : ∀ c ∈ (ascii "." ++ rest).head?, digitValue 10 c = none := by
    rintro c ⟨⟩
    rfl
  rw [scanNumbers, scanUnsigned_numeral hn hdot]
  rfl

theorem scanNumbers_last {n : Nat} (hn : n < 2 ^ 64) (count : Nat) :
  scanNumbers (count + 1) (numeral 10 n) = [UInt32.ofNat n]
  := by
  have hend : ∀ c ∈ ([] : List UInt8).head?, digitValue 10 c = none := by
    rintro c ⟨⟩
  have hscan := scanUnsigned_numeral hn hend
  rw [List.append_nil] at hscan
  rw [scanNumbers, hscan]

/-- Four bytes are put together to the number whose digits in base 256 they are. -/
theorem toNat_quad {a b c d : Nat} (ha : a < 256) (hb : b < 256) (hc : c < 256) (hd : d < 256) :
  ((UInt32.ofNat a <<< 24) ||| (UInt32.ofNat b <<< 16) ||| (UInt32.ofNat c <<< 8)
      ||| UInt32.ofNat d).toNat
    = a * 2 ^ 24 + b * 2 ^ 16 + c * 2 ^ 8 + d
  := by
  have hnat : ∀ n < 256, (UInt32.ofNat n).toNat = n := by
    intro n hn
    apply UInt32.toNat_ofNat_of_lt'
    simp only [UInt32.size]
    omega
  have hor : ∀ m n k : Nat, n < 2 ^ k → m * 2 ^ k ||| n = m * 2 ^ k + n := by
    intro m n k hn
    rw [← Nat.shiftLeft_eq, Nat.shiftLeft_add_eq_or_of_lt hn]
  have hshift : ∀ n < 256, ∀ k : UInt32, k.toNat ≤ 24 →
      (UInt32.ofNat n <<< k).toNat = n * 2 ^ k.toNat := by
    intro n hn k hk
    have hlt : n * 2 ^ k.toNat < 2 ^ 32 := by
      calc
        n * 2 ^ k.toNat ≤ n * 2 ^ 24 := by
          apply Nat.mul_le_mul_left n (Nat.pow_le_pow_right (by decide) hk)
        _ < 2 ^ 32 := by omega
    have hk' : k.toNat % 32 = k.toNat := by omega
    rw [UInt32.toNat_shiftLeft, hnat n hn, hk', Nat.shiftLeft_eq, Nat.mod_eq_of_lt hlt]
  have h₁ : a * 2 ^ 24 ||| b * 2 ^ 16 = (a * 2 ^ 8 + b) * 2 ^ 16 := by
    rw [hor a (b * 2 ^ 16) 24 (by omega)]
    omega
  have h₂ : (a * 2 ^ 8 + b) * 2 ^ 16 ||| c * 2 ^ 8 = ((a * 2 ^ 8 + b) * 2 ^ 8 + c) * 2 ^ 8 := by
    rw [hor (a * 2 ^ 8 + b) (c * 2 ^ 8) 16 (by omega)]
    omega
  calc
    _ = a * 2 ^ 24 ||| b * 2 ^ 16 ||| c * 2 ^ 8 ||| d := by
      rw [UInt32.toNat_or, UInt32.toNat_or, UInt32.toNat_or, hshift a ha 24 (by decide),
        hshift b hb 16 (by decide), hshift c hc 8 (by decide), hnat d hd]
      rfl
    _ = ((a * 2 ^ 8 + b) * 2 ^ 8 + c) * 2 ^ 8 + d := by
      rw [h₁, h₂, hor _ d 8 (by omega)]
    _ = a * 2 ^ 24 + b * 2 ^ 16 + c * 2 ^ 8 + d := by
      omega

/-- The text of four bytes is read as the number whose digits in base 256 they are. -/
theorem str2ip_quad (unset : Numbers) {a b c d : Nat} (ha : a < 256) (hb : b < 256)
    (hc : c < 256) (hd : d < 256) :
  (str2ip unset (some (numeral 10 a ++ ascii "." ++ numeral 10 b ++ ascii "." ++ numeral 10 c
      ++ ascii "." ++ numeral 10 d))).toNat
    = a * 2 ^ 24 + b * 2 ^ 16 + c * 2 ^ 8 + d
  := by
  have hscan : scanNumbers 4 (numeral 10 a ++ ascii "." ++ numeral 10 b ++ ascii "."
      ++ numeral 10 c ++ ascii "." ++ numeral 10 d)
        = [UInt32.ofNat a, UInt32.ofNat b, UInt32.ofNat c, UInt32.ofNat d] := by
    simp only [List.append_assoc]
    rw [scanNumbers_dot (by omega), scanNumbers_dot (by omega), scanNumbers_dot (by omega),
      scanNumbers_last (by omega)]
  rw [str2ip]
  simp only [hscan]
  apply toNat_quad ha hb hc hd

/-! ### Round trips -/

/-- The decimal numbers from 0 to 255 without leading zeros. -/
structure IsOctet (s : List UInt8) : Prop where
  nonempty : s ≠ []
  digits : ∀ c ∈ s, 48 ≤ c ∧ c ≤ 57
  leading : s.head? = some 48 → s = [48]
  value : readDigits 10 0 s ≤ 255

/-- Four of these numbers with dots between them. -/
def IsDottedQuad (s : List UInt8) : Prop :=
  ∃ a b c d, IsOctet a ∧ IsOctet b ∧ IsOctet c ∧ IsOctet d
    ∧ s = a ++ ascii "." ++ b ++ ascii "." ++ c ++ ascii "." ++ d

/-- Such a number is the numeral of its value. -/
theorem IsOctet.exists_numeral {s : List UInt8} (h : IsOctet s) :
  ∃ n < 256, s = numeral 10 n
  := by
  have hdigit : ∀ c ∈ s, digitChar (c.toNat - 48) = c ∧ c.toNat - 48 < 10 := by
    intro c hc
    obtain ⟨hlow, hhigh⟩ := h.digits c hc
    rw [UInt8.le_iff_toNat_le] at hlow hhigh
    have hlow' : 48 ≤ c.toNat := hlow
    have hhigh' : c.toNat ≤ 57 := hhigh
    constructor
    · rw [digitChar, if_pos (by omega)]
      have hc' : 48 + (c.toNat - 48) = c.toNat := by omega
      rw [hc', UInt8.ofNat_toNat]
    · omega
  obtain ⟨ds, hds⟩ : ∃ ds, ds = s.map fun c => c.toNat - 48 := ⟨_, rfl⟩
  have hmap : ds.map digitChar = s := by
    rw [hds, List.map_map]
    calc
      _ = s.map id := List.map_congr_left fun c hc => (hdigit c hc).1
      _ = s := List.map_id s
  have hlt : ∀ d ∈ ds, d < 10 := by
    intro d hd
    obtain ⟨c, hc, rfl⟩ := List.mem_map.mp (hds ▸ hd)
    exact (hdigit c hc).2
  have hne : ds ≠ [] := by
    rintro rfl
    apply h.nonempty hmap.symm
  have hzero : ds.head? = some 0 → ds = [0] := by
    intro hhead
    have hs := h.leading (by rw [← hmap, List.head?_map, hhead]; rfl)
    rw [hds, hs]
    rfl
  have hend : ∀ c ∈ ([] : List UInt8).head?, digitValue 10 c = none := by
    rintro c ⟨⟩
  have hread := readDigits_map (by decide) hend ds 0 hlt
  rw [hmap, List.append_nil] at hread
  refine ⟨readDigits 10 0 s, Nat.lt_succ_of_le h.value, ?_⟩
  rw [hread, numeral_foldl (by decide) hne hlt hzero, hmap]

/-- An address is read back from its text, so that no two have the same one, and every dotted
quad is the text of the address it is read as. -/
theorem address_text (unset : Numbers) :
  (∀ ip : UInt32, str2ip unset (some (ip2str ip.toNat)) = ip)
    ∧ (∀ ip ip' : UInt32, ip ≠ ip' → ip2str ip.toNat ≠ ip2str ip'.toNat)
    ∧ ∀ s, IsDottedQuad s → ip2str (str2ip unset (some s)).toNat = s
  := by
  have hround : ∀ ip : UInt32, str2ip unset (some (ip2str ip.toNat)) = ip := by
    intro ip
    have hip := ip.toNat_lt
    apply UInt32.toNat_inj.mp
    rw [ip2str, str2ip_quad]
    all_goals omega
  refine ⟨hround, ?_, ?_⟩
  · intro ip ip' hne htext
    apply hne
    rw [← hround ip, htext, hround ip']
  · rintro s ⟨_, _, _, _, ha, hb, hc, hd, rfl⟩
    obtain ⟨a, hlta, rfl⟩ := ha.exists_numeral
    obtain ⟨b, hltb, rfl⟩ := hb.exists_numeral
    obtain ⟨c, hltc, rfl⟩ := hc.exists_numeral
    obtain ⟨d, hltd, rfl⟩ := hd.exists_numeral
    have h₁ : (a * 2 ^ 24 + b * 2 ^ 16 + c * 2 ^ 8 + d) / 2 ^ 24 % 256 = a := by omega
    have h₂ : (a * 2 ^ 24 + b * 2 ^ 16 + c * 2 ^ 8 + d) / 2 ^ 16 % 256 = b := by omega
    have h₃ : (a * 2 ^ 24 + b * 2 ^ 16 + c * 2 ^ 8 + d) / 2 ^ 8 % 256 = c := by omega
    have h₄ : (a * 2 ^ 24 + b * 2 ^ 16 + c * 2 ^ 8 + d) % 256 = d := by omega
    rw [str2ip_quad unset hlta hltb hltc hltd, ip2str, h₁, h₂, h₃, h₄]

theorem address_text_lan :
  str2ip ⟨0, 0, 0, 0⟩ (some (ip2str (3232235777 : UInt32).toNat)) = 3232235777
    ∧ ip2str (3232235777 : UInt32).toNat ≠ ip2str (3232235778 : UInt32).toNat
    ∧ ip2str (str2ip ⟨0, 0, 0, 0⟩ (some (ascii "192.168.0.10"))).toNat = ascii "192.168.0.10"
  := by
  obtain ⟨hround, hne, hquad⟩ := address_text ⟨0, 0, 0, 0⟩
  refine ⟨hround _, hne _ _ (by decide), hquad _ ?_⟩
  have hoctet : ∀ s ∈ [ascii "192", ascii "168", ascii "0", ascii "10"],
      s ≠ [] ∧ (s.all fun c => 48 ≤ c && c ≤ 57) ∧ (s.head? = some 48 → s = [48])
        ∧ readDigits 10 0 s ≤ 255 := by decide +kernel
  have hoctets : ∀ s ∈ [ascii "192", ascii "168", ascii "0", ascii "10"], IsOctet s := by
    intro s hs
    obtain ⟨hnil, hdigits, hleading, hvalue⟩ := hoctet s hs
    exact ⟨hnil, by simpa using hdigits, hleading, hvalue⟩
  refine ⟨ascii "192", ascii "168", ascii "0", ascii "10", ?_, ?_, ?_, ?_, rfl⟩
  all_goals
    apply hoctets
    simp

end Feiq

end IFreeChat
