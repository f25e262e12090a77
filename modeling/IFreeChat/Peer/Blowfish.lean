import IFreeChat.Basis.Block
import IFreeChat.Basis.Feistel
import IFreeChat.Basis.Memory
import IFreeChat.Peer.BlowfishTables

/-!
# Blowfish

The cipher of group messages, on a little-endian machine whose `DWORD` has 32 bits: its
network, its key schedule, and the encryption and decryption of buffers with chaining and
padding.  Decrypting the cipher text of a buffer gives the buffer back
(`decrypt_encrypt`).
-/

open Basis

namespace IFreeChat

namespace Blowfish

/-! ### Words -/

/-- The `byte`s of a `DWORD`, in memory order. -/
def dwordBytes (x : UInt32) : List UInt8 := Memory.bytesOf 4 x.toNat

/-- The `DWORD` with these bytes in memory. -/
def dwordOf (bytes : List UInt8) : UInt32 := UInt32.ofNat (Memory.ofBytes bytes)

/-- `w.byte0` to `w.byte3` of a `DWORD`, the most significant one first. -/
def wByte (i : Fin 4) (x : UInt32) : UInt8 := UInt8.ofNat (x.toNat / 256 ^ (3 - i.val))

/-- `change_order`. -/
def changeOrder (x : UInt32) : UInt32 := dwordOf (dwordBytes x).reverse

/-- An `_int64` in its two `DWORD`s. -/
structure Qword where
  low : UInt32
  high : UInt32

instance : XorOp Qword := ⟨fun a b => ⟨a.low ^^^ b.low, a.high ^^^ b.high⟩⟩

/-- The `_int64` whose memory starts with these bytes. -/
def Qword.load (bytes : List UInt8) : Qword :=
  ⟨dwordOf (bytes.take 4), dwordOf ((bytes.drop 4).take 4)⟩

/-- The eight bytes of an `_int64`. -/
def Qword.store (q : Qword) : List UInt8 := dwordBytes q.low ++ dwordBytes q.high

/-! ### The network -/

/-- `NPASS`. -/
def NPASS : Nat := 16

/-- The arrays of a `CBlowFish`. -/
structure CBlowFish where
  PArray : Vector UInt32 (NPASS + 2)
  SBoxes : Vector (Vector UInt32 256) 4

/-- `S(x,i)`. -/
def S (bf : CBlowFish) (x : UInt32) (i : Fin 4) : UInt32 :=
  (bf.SBoxes.get i).get ⟨(wByte i x).toNat, UInt8.toNat_lt _⟩

/-- `bf_F`. -/
def bfF (bf : CBlowFish) (x : UInt32) : UInt32 :=
  ((S bf x 0 + S bf x 1) ^^^ S bf x 2) + S bf x 3

/-- `ROUND(a,b,n)`: the new value of `a`. -/
def ROUND (bf : CBlowFish) (a b : UInt32) (n : Fin (NPASS + 2)) : UInt32 :=
  a ^^^ (bfF bf b ^^^ bf.PArray.get n)

/-- `Blowfish_encipher`. -/
def blowfishEncipher (bf : CBlowFish) (xl xr : UInt32) : UInt32 × UInt32 :=
  let Xl := xl ^^^ bf.PArray.get 0
  let Xr := ROUND bf xr Xl 1
  let Xl := ROUND bf Xl Xr 2
  let Xr := ROUND bf Xr Xl 3
  let Xl := ROUND bf Xl Xr 4
  let Xr := ROUND bf Xr Xl 5
  let Xl := ROUND bf Xl Xr 6
  let Xr := ROUND bf Xr Xl 7
  let Xl := ROUND bf Xl Xr 8
  let Xr := ROUND bf Xr Xl 9
  let Xl := ROUND bf Xl Xr 10
  let Xr := ROUND bf Xr Xl 11
  let Xl := ROUND bf Xl Xr 12
  let Xr := ROUND bf Xr Xl 13
  let Xl := ROUND bf Xl Xr 14
  let Xr := ROUND bf Xr Xl 15
  let Xl := ROUND bf Xl Xr 16
  (Xr ^^^ bf.PArray.get 17, Xl)

/-- `Blowfish_decipher`. -/
def blowfishDecipher (bf : CBlowFish) (xl xr : UInt32) : UInt32 × UInt32 :=
  let Xl := xl ^^^ bf.PArray.get 17
  let Xr := ROUND bf xr Xl 16
  let Xl := ROUND bf Xl Xr 15
  let Xr := ROUND bf Xr Xl 14
  let Xl := ROUND bf Xl Xr 13
  let Xr := ROUND bf Xr Xl 12
  let Xl := ROUND bf Xl Xr 11
  let Xr := ROUND bf Xr Xl 10
  let Xl := ROUND bf Xl Xr 9
  let Xr := ROUND bf Xr Xl 8
  let Xl := ROUND bf Xl Xr 7
  let Xr := ROUND bf Xr Xl 6
  let Xl := ROUND bf Xl Xr 5
  let Xr := ROUND bf Xr Xl 4
  let Xl := ROUND bf Xl Xr 3
  let Xr := ROUND bf Xr Xl 2
  let Xl := ROUND bf Xl Xr 1
  (Xr ^^^ bf.PArray.get 0, Xl)

/-! ### The key schedule -/

/-- The `DWORD` that four bytes of the key from `key[j % keybytes]` on make up. -/
def keyWord (key : List UInt8) (j : Nat) : UInt32 :=
  let byte i := key.getD ((j + i) % key.length) 0
  dwordOf [byte 3, byte 2, byte 1, byte 0]

/-- The arrays while the schedule enciphers into them, with `datal` and `datar`. -/
abbrev Schedule := CBlowFish × UInt32 × UInt32

/-- The step of the loop that fills `PArray`. -/
def fillPArray (s : Schedule) (i : Nat) : Schedule :=
  let (datal, datar) := blowfishEncipher s.1 s.2.1 s.2.2
  ({ s.1 with
    PArray := (s.1.PArray.setIfInBounds (2 * i) datal).setIfInBounds (2 * i + 1) datar },
    datal, datar)

/-- The step of the loops that fill `SBoxes`, on the box `i`. -/
def fillSBoxes (i : Fin 4) (s : Schedule) (j : Nat) : Schedule :=
  let (datal, datar) := blowfishEncipher s.1 s.2.1 s.2.2
  let box := (s.1.SBoxes.get i).setIfInBounds (2 * j) datal
  ({ s.1 with SBoxes := s.1.SBoxes.set i (box.setIfInBounds (2 * j + 1) datar) },
    datal, datar)

/-- `CreateBlowFish` with `Initialize`: a division by zero where there is no key. -/
def createBlowFish (key : List UInt8) : Except Fault CBlowFish :=
  if key.length = 0 then .error .divisionByZero
  else
    let bf : CBlowFish :=
      { PArray := bfP.mapIdx fun i p => p ^^^ keyWord key (4 * i), SBoxes := bfS }
    let s : Schedule := (List.range (NPASS / 2 + 1)).foldl fillPArray (bf, 0, 0)
    let s := (List.finRange 4).foldl (fun s i => (List.range 128).foldl (fillSBoxes i) s) s
    .ok s.1

/-! ### Buffers -/

/-- `BF_CBC`. -/
def BF_CBC : Nat := 0x0002

/-- `BF_PKCS5`. -/
def BF_PKCS5 : Nat := 0x0020

/-- `BF_BLKSIZE`. -/
def BF_BLKSIZE : Nat := 8

/-- `GetOutputLength`. -/
def getOutputLength (lInputLong mode : Nat) : Nat :=
  let lInputLong := if mode &&& BF_PKCS5 ≠ 0 then lInputLong + 1 else lInputLong
  (lInputLong + BF_BLKSIZE - 1) / BF_BLKSIZE * BF_BLKSIZE

/-- The block `q` enciphered in place. -/
def encipherBlock (bf : CBlowFish) (q : Qword) : Qword :=
  let (xl, xr) := blowfishEncipher bf (changeOrder q.low) (changeOrder q.high)
  ⟨changeOrder xl, changeOrder xr⟩

/-- The block `q` deciphered in place. -/
def decipherBlock (bf : CBlowFish) (q : Qword) : Qword :=
  let (xl, xr) := blowfishDecipher bf (changeOrder q.low) (changeOrder q.high)
  ⟨changeOrder xl, changeOrder xr⟩

/-- The loop of `Encrypt` over the next `n` blocks of the buffer. -/
def encryptLoop (bf : CBlowFish) (mode : Nat) : (n : Nat) → (IV : Qword) →
    (out : List UInt8) → List UInt8
  | 0, _, out => out
  | n + 1, IV, out =>
      let q := Qword.load (out.take BF_BLKSIZE)
      let q := encipherBlock bf (if mode &&& BF_CBC ≠ 0 then q ^^^ IV else q)
      let IV := if mode &&& BF_CBC ≠ 0 then q else IV
      q.store ++ encryptLoop bf mode n IV (out.drop BF_BLKSIZE)

/-- `Encrypt` into the buffer `pOutput`: the buffer and the output size. -/
def encrypt (bf : CBlowFish) (pInput pOutput : List UInt8) (lSize mode : Nat) (IV : Qword) :
    Except Fault (List UInt8 × Nat) :=
  let lOutSize := getOutputLength lSize mode
  if pInput.length < lSize then .error .readOutside
  else if pOutput.length < lOutSize then .error .writeOutside
  else
    let pad := if mode &&& BF_PKCS5 ≠ 0 then UInt8.ofNat (lOutSize - lSize) else 0
    let out := pInput.take lSize ++ List.replicate (lOutSize - lSize) pad
    .ok (encryptLoop bf mode (lOutSize / BF_BLKSIZE) IV (out ++ pOutput.drop lOutSize),
      lOutSize)

/-- The loop of `Decrypt` over the next `n` blocks of the buffer. -/
def decryptLoop (bf : CBlowFish) (mode : Nat) : (n : Nat) → (IV : Qword) →
    (out : List UInt8) → List UInt8
  | 0, _, out => out
  | n + 1, IV, out =>
      let c := Qword.load (out.take BF_BLKSIZE)
      let q := decipherBlock bf c
      let q := if mode &&& BF_CBC ≠ 0 then q ^^^ IV else q
      let IV := if mode &&& BF_CBC ≠ 0 then c else IV
      q.store ++ decryptLoop bf mode n IV (out.drop BF_BLKSIZE)

/-- `Decrypt` into the buffer `pOutput`: the buffer and the output size, which is `0` on a
wrong padding. -/
def decrypt (bf : CBlowFish) (pInput pOutput : List UInt8) (lSize mode : Nat) (IV : Qword) :
    Except Fault (List UInt8 × Nat) :=
  let n := (lSize + BF_BLKSIZE - 1) / BF_BLKSIZE
  let lCount := n * BF_BLKSIZE
  if pInput.length < lSize then .error .readOutside
  else if pOutput.length < lCount then .error .writeOutside
  else
    let out := decryptLoop bf mode n IV (pInput.take lSize ++ pOutput.drop lSize)
    if mode &&& BF_PKCS5 = 0 then .ok (out, lCount)
    else if lCount = 0 then .error .readOutside
    else
      let paddingLen := out.getD (lCount - 1) 0
      if paddingLen = 0 ∨ BF_BLKSIZE < paddingLen.toNat
          ∨ out.getD (lCount - paddingLen.toNat) 0 ≠ paddingLen then .ok (out, 0)
      else .ok (out.set (lCount - paddingLen.toNat) 0, lCount - paddingLen.toNat)

/-- `BlowFish_Encrypt`. -/
def blowFishEncrypt (bf : CBlowFish) (pInput pOutput : List UInt8) (size : Nat) :
    Except Fault (List UInt8 × Nat) :=
  encrypt bf pInput pOutput size (BF_CBC ||| BF_PKCS5) ⟨0, 0⟩

/-- `BlowFish_Decrypt`. -/
def blowFishDecrypt (bf : CBlowFish) (pInput pOutput : List UInt8) (size : Nat) :
    Except Fault (List UInt8 × Nat) :=
  decrypt bf pInput pOutput size (BF_CBC ||| BF_PKCS5) ⟨0, 0⟩

/-! ### Words and blocks -/

theorem dwordOf_dwordBytes (x : UInt32) :
  dwordOf (dwordBytes x) = x
  := by
  apply UInt32.toNat_inj.mp
  have hx := x.toNat_lt
  rw [dwordOf, dwordBytes, Memory.ofBytes_bytesOf, UInt32.toNat_ofNat']
  omega

theorem dwordBytes_dwordOf {bytes : List UInt8} (h : bytes.length = 4) :
  dwordBytes (dwordOf bytes) = bytes
  := by
  have hlt := Memory.ofBytes_lt bytes
  rw [h] at hlt
  have hbytes := Memory.bytesOf_ofBytes bytes
  rw [h] at hbytes
  rw [dwordBytes, dwordOf, UInt32.toNat_ofNat', Nat.mod_eq_of_lt (by omega), hbytes]

theorem dwordBytes_length (x : UInt32) :
  (dwordBytes x).length = 4
  := Memory.bytesOf_length 4 x.toNat

theorem changeOrder_changeOrder (x : UInt32) :
  changeOrder (changeOrder x) = x
  := by
  have h : (dwordBytes x).reverse.length = 4 := by
    rw [List.length_reverse, dwordBytes_length]
  rw [changeOrder, changeOrder, dwordBytes_dwordOf h, List.reverse_reverse,
    dwordOf_dwordBytes]

theorem Qword.store_length (q : Qword) :
  q.store.length = BF_BLKSIZE
  := by
  rw [Qword.store, List.length_append, dwordBytes_length, dwordBytes_length]
  rfl

theorem Qword.load_store (q : Qword) :
  Qword.load q.store = q
  := by
  have hlow := dwordBytes_length q.low
  have hhigh := dwordBytes_length q.high
  rw [Qword.load, Qword.store, List.take_left' hlow, List.drop_left' hlow,
    List.take_of_length_le (by omega), dwordOf_dwordBytes, dwordOf_dwordBytes]

theorem Qword.store_load {bytes : List UInt8} (h : bytes.length = BF_BLKSIZE) :
  (Qword.load bytes).store = bytes
  := by
  rw [BF_BLKSIZE] at h
  have hhigh : (bytes.drop 4).length ≤ 4 := by
    rw [List.length_drop]
    omega
  rw [Qword.store, Qword.load, List.take_of_length_le hhigh,
    dwordBytes_dwordOf (by rw [List.length_take]; omega),
    dwordBytes_dwordOf (by rw [List.length_drop]; omega), List.take_append_drop]

theorem xor_cancel (a b : UInt32) :
  a ^^^ b ^^^ b = a
  := by
  rw [UInt32.xor_assoc, UInt32.xor_self, UInt32.xor_zero]

theorem Qword.xor_cancel (a b : Qword) :
  a ^^^ b ^^^ b = a
  := congrArg₂ Qword.mk (Blowfish.xor_cancel a.low b.low) (Blowfish.xor_cancel a.high b.high)

/-! ### The inverse of the network -/

/-- The keys of the sixteen rounds. -/
def roundKeys (bf : CBlowFish) : List UInt32 :=
  ([1, 2, 3, 4, 5, 6, 7, 8, 9, 10, 11, 12, 13, 14, 15, 16] : List (Fin (NPASS + 2))).map
    bf.PArray.get

theorem blowfishEncipher_eq (bf : CBlowFish) (xl xr : UInt32) :
  blowfishEncipher bf xl xr
    = let p := feistelRounds (bfF bf) (roundKeys bf) (xl ^^^ bf.PArray.get 0, xr)
      (p.2 ^^^ bf.PArray.get 17, p.1)
  := rfl

theorem blowfishDecipher_eq (bf : CBlowFish) (xl xr : UInt32) :
  blowfishDecipher bf xl xr
    = let p := feistelRounds (bfF bf) (roundKeys bf).reverse (xl ^^^ bf.PArray.get 17, xr)
      (p.2 ^^^ bf.PArray.get 0, p.1)
  := rfl

/-- Deciphering undoes enciphering, whatever the arrays hold. -/
theorem blowfishDecipher_encipher (bf : CBlowFish) (xl xr : UInt32) :
  blowfishDecipher bf (blowfishEncipher bf xl xr).1 (blowfishEncipher bf xl xr).2 = (xl, xr)
  := by
  rw [blowfishEncipher_eq, blowfishDecipher_eq]
  simp only [xor_cancel]
  have h := feistelRounds_reverse xor_cancel (bfF bf) (roundKeys bf)
    (xl ^^^ bf.PArray.get 0, xr)
  have hswap : ∀ p : UInt32 × UInt32, p.swap = (p.2, p.1) := fun _ => rfl
  rw [hswap] at h
  rw [h]
  simp only [hswap, xor_cancel]

theorem decipherBlock_encipherBlock (bf : CBlowFish) (q : Qword) :
  decipherBlock bf (encipherBlock bf q) = q
  := by
  simp only [decipherBlock, encipherBlock, changeOrder_changeOrder,
    blowfishDecipher_encipher]

/-! ### The loops over the blocks -/

section

variable {bf : CBlowFish} {mode : Nat} (hcbc : mode &&& BF_CBC ≠ 0)

include hcbc

/-- The loop of `Encrypt` chains the blocks. -/
theorem encryptLoop_flatMap (IV : Qword) (bs : List Qword) (rest : List UInt8) :
  encryptLoop bf mode bs.length IV (bs.flatMap Qword.store ++ rest)
    = (cbcEncrypt (encipherBlock bf) IV bs).flatMap Qword.store ++ rest
  := by
  induction bs generalizing IV with
  | nil => rfl
  | cons b bs ih =>
    have hlength := b.store_length
    rw [List.length_cons, List.flatMap_cons, List.append_assoc, encryptLoop]
    simp only [if_pos hcbc]
    rw [List.take_left' hlength, List.drop_left' hlength, Qword.load_store, ih, cbcEncrypt,
      List.flatMap_cons, List.append_assoc]

/-- The loop of `Decrypt` undoes the chaining. -/
theorem decryptLoop_flatMap (IV : Qword) (cs : List Qword) (rest : List UInt8) :
  decryptLoop bf mode cs.length IV (cs.flatMap Qword.store ++ rest)
    = (cbcDecrypt (decipherBlock bf) IV cs).flatMap Qword.store ++ rest
  := by
  induction cs generalizing IV with
  | nil => rfl
  | cons c cs ih =>
    have hlength := c.store_length
    rw [List.length_cons, List.flatMap_cons, List.append_assoc, decryptLoop]
    simp only [if_pos hcbc]
    rw [List.take_left' hlength, List.drop_left' hlength, Qword.load_store, ih, cbcDecrypt,
      List.flatMap_cons, List.append_assoc]

end

theorem flatMap_store_length (bs : List Qword) :
  (bs.flatMap Qword.store).length = bs.length * BF_BLKSIZE
  := by
  induction bs with
  | nil => rfl
  | cons b bs ih =>
    rw [List.flatMap_cons, List.length_append, ih, b.store_length, List.length_cons,
      Nat.succ_mul, Nat.add_comm]

/-- Bytes of a whole number of blocks are those of a list of blocks. -/
theorem exists_blocks {n : Nat} {bytes : List UInt8} (h : bytes.length = n * BF_BLKSIZE) :
  ∃ bs : List Qword, bs.length = n ∧ bs.flatMap Qword.store = bytes
  := by
  induction n generalizing bytes with
  | zero =>
    rw [Nat.zero_mul] at h
    use [], rfl, (List.eq_nil_of_length_eq_zero h).symm
  | succ n ih =>
    rw [Nat.succ_mul] at h
    obtain ⟨bs, hbs, hbytes⟩ := ih (by rw [List.length_drop, h, Nat.add_sub_cancel] :
      (bytes.drop BF_BLKSIZE).length = n * BF_BLKSIZE)
    use Qword.load (bytes.take BF_BLKSIZE) :: bs
    constructor
    · rw [List.length_cons, hbs]
    · have htake : (bytes.take BF_BLKSIZE).length = BF_BLKSIZE := by
        rw [List.length_take, h]
        apply Nat.min_eq_left
        apply Nat.le_add_left
      rw [List.flatMap_cons, hbytes, Qword.store_load htake, List.take_append_drop]

/-! ### The padding -/

/-- What the padding brings a size to. -/
theorem getOutputLength_pkcs5 (size : Nat) :
  getOutputLength size (BF_CBC ||| BF_PKCS5) = (size / BF_BLKSIZE + 1) * BF_BLKSIZE
  := by
  have hmode : (BF_CBC ||| BF_PKCS5) &&& BF_PKCS5 ≠ 0 := by decide
  rw [getOutputLength]
  simp only [if_pos hmode, BF_BLKSIZE]
  omega

/-- The padding of a buffer is taken off again. -/
theorem unpad {plain rest : List UInt8} {k : Nat} (hk : 1 ≤ k) (hk' : k ≤ 8) :
  let out := plain ++ List.replicate k (UInt8.ofNat k) ++ rest
  out.getD (plain.length + k - 1) 0 = UInt8.ofNat k
    ∧ out.getD plain.length 0 = UInt8.ofNat k
    ∧ out.set plain.length 0
      = plain ++ 0 :: (List.replicate (k - 1) (UInt8.ofNat k) ++ rest)
  := by
  have hget : ∀ i < k, (plain ++ List.replicate k (UInt8.ofNat k) ++ rest).getD
      (plain.length + i) 0 = UInt8.ofNat k := by
    intro i hi
    rw [List.getD_eq_getElem?_getD, List.append_assoc, List.getElem?_append_right (by omega),
      List.getElem?_append_left (by rw [List.length_replicate]; omega), Nat.add_sub_cancel_left,
      List.getElem?_replicate, if_pos hi, Option.getD_some]
  refine ⟨?_, ?_, ?_⟩
  · have h := hget (k - 1) (by omega)
    rw [← Nat.add_sub_assoc hk] at h
    apply h
  · apply hget 0 hk
  · obtain ⟨m, rfl⟩ := Nat.exists_eq_succ_of_ne_zero (by omega : k ≠ 0)
    rw [List.append_assoc, List.set_append_right _ _ (by omega), Nat.sub_self,
      List.replicate_succ, List.cons_append, List.set_cons_zero]
    rfl

/-- The blocks of a buffer and its padding: `k` times the byte `k`. -/
structure Padded (plain : List UInt8) (k : Nat) (bs : List Qword) : Prop where
  count : bs.length = plain.length / BF_BLKSIZE + 1
  size : plain.length + k = bs.length * BF_BLKSIZE
  pos : 1 ≤ k
  le : k ≤ 8
  bytes : bs.flatMap Qword.store = plain ++ List.replicate k (UInt8.ofNat k)

theorem exists_padded (plain : List UInt8) :
  ∃ k bs, Padded plain k bs
  := by
  obtain ⟨n, hn⟩ : ∃ n, n = plain.length / BF_BLKSIZE + 1 := ⟨_, rfl⟩
  obtain ⟨k, hk⟩ : ∃ k, k = n * BF_BLKSIZE - plain.length := ⟨_, rfl⟩
  have hbounds : plain.length + k = n * BF_BLKSIZE ∧ 1 ≤ k ∧ k ≤ 8 := by
    rw [BF_BLKSIZE] at hk hn ⊢
    omega
  obtain ⟨hsize, hpos, hle⟩ := hbounds
  have hlength : (plain ++ List.replicate k (UInt8.ofNat k)).length = n * BF_BLKSIZE := by
    rw [List.length_append, List.length_replicate, hsize]
  obtain ⟨bs, hbs, hbytes⟩ := exists_blocks hlength
  use k, bs, hbs.trans hn, by rw [hbs, hsize], hpos, hle, hbytes

/-! ### The round trip of a buffer -/

/-- What is encrypted is the blocks of the padded buffer. -/
theorem blowFishEncrypt_padded (bf : CBlowFish) {plain pOutput : List UInt8} {k : Nat}
    {bs : List Qword} (h : Padded plain k bs) (more : List UInt8)
    (hlength : bs.length * BF_BLKSIZE ≤ pOutput.length) :
  blowFishEncrypt bf (plain ++ more) pOutput plain.length
    = .ok ((cbcEncrypt (encipherBlock bf) ⟨0, 0⟩ bs).flatMap Qword.store
      ++ pOutput.drop (bs.length * BF_BLKSIZE), bs.length * BF_BLKSIZE)
  := by
  have hcbc : (BF_CBC ||| BF_PKCS5) &&& BF_CBC ≠ 0 := by decide
  have hpkcs : (BF_CBC ||| BF_PKCS5) &&& BF_PKCS5 ≠ 0 := by decide
  have hk : bs.length * BF_BLKSIZE - plain.length = k := by
    rw [← h.size, Nat.add_sub_cancel_left]
  have hdiv : bs.length * BF_BLKSIZE / BF_BLKSIZE = bs.length :=
    Nat.mul_div_cancel bs.length (by decide)
  rw [blowFishEncrypt, encrypt, getOutputLength_pkcs5, ← h.count]
  simp only [List.length_append, if_pos hpkcs]
  rw [if_neg (by omega), if_neg (by omega), hk, List.take_left, hdiv, ← h.bytes,
    encryptLoop_flatMap hcbc]

/-- The blocks of a padded buffer are decrypted to the buffer with a terminator. -/
theorem blowFishDecrypt_padded (bf : CBlowFish) {plain : List UInt8} {k : Nat}
    {bs : List Qword} (h : Padded plain k bs) (rest : List UInt8) {buffer : List UInt8}
    (hbuffer : bs.length * BF_BLKSIZE ≤ buffer.length) :
  ∃ tail, blowFishDecrypt bf
      ((cbcEncrypt (encipherBlock bf) ⟨0, 0⟩ bs).flatMap Qword.store ++ rest) buffer
      (bs.length * BF_BLKSIZE)
    = .ok (plain ++ 0 :: tail, plain.length)
  := by
  have hcbc : (BF_CBC ||| BF_PKCS5) &&& BF_CBC ≠ 0 := by decide
  have hpkcs : (BF_CBC ||| BF_PKCS5) &&& BF_PKCS5 ≠ 0 := by decide
  have hpos := h.pos
  have hle := h.le
  have hsize := h.size
  have hcount : (bs.length * BF_BLKSIZE + BF_BLKSIZE - 1) / BF_BLKSIZE = bs.length := by
    rw [BF_BLKSIZE]
    omega
  have hinput : ((cbcEncrypt (encipherBlock bf) ⟨0, 0⟩ bs).flatMap Qword.store).length
      = bs.length * BF_BLKSIZE := by
    rw [flatMap_store_length, cbcEncrypt_length]
  have hloop : decryptLoop bf (BF_CBC ||| BF_PKCS5) bs.length ⟨0, 0⟩
      ((cbcEncrypt (encipherBlock bf) ⟨0, 0⟩ bs).flatMap Qword.store
        ++ buffer.drop (bs.length * BF_BLKSIZE))
      = plain ++ List.replicate k (UInt8.ofNat k) ++ buffer.drop (bs.length * BF_BLKSIZE) := by
    have hundone := @decryptLoop_flatMap bf _ hcbc ⟨0, 0⟩
      (cbcEncrypt (encipherBlock bf) ⟨0, 0⟩ bs) (buffer.drop (bs.length * BF_BLKSIZE))
    rw [cbcEncrypt_length, cbcDecrypt_cbcEncrypt Qword.xor_cancel
      (decipherBlock_encipherBlock bf), h.bytes] at hundone
    apply hundone
  obtain ⟨hlast, hfirst, hset⟩ :=
    @unpad plain (buffer.drop (bs.length * BF_BLKSIZE)) k hpos hle
  rw [hsize] at hlast
  have hpad : (UInt8.ofNat k).toNat = k := by
    rw [UInt8.toNat_ofNat']
    omega
  have hpad_ne : UInt8.ofNat k ≠ 0 := by
    intro hzero
    rw [hzero] at hpad
    rw [← hpad] at hpos
    cases hpos
  have hstart : bs.length * BF_BLKSIZE - k = plain.length := by omega
  use List.replicate (k - 1) (UInt8.ofNat k) ++ buffer.drop (bs.length * BF_BLKSIZE)
  rw [blowFishDecrypt, decrypt]
  simp only [hcount]
  rw [if_neg (by rw [List.length_append, hinput]; omega), if_neg (by omega),
    if_neg hpkcs, if_neg (by omega), List.take_left' hinput, hloop, hlast, hpad, hstart,
    hfirst, hset, if_neg]
  rintro (hzero | hlarge | hother)
  · apply hpad_ne hzero
  · rw [BF_BLKSIZE] at hlarge
    omega
  · apply hother rfl

/-- Encryption fills the buffer with the cipher text of the input, padded to whole blocks,
and its decryption, whatever follows it, is the input with a terminator. -/
theorem decrypt_encrypt (bf : CBlowFish) (plain more : List UInt8) {pOutput : List UInt8}
    (hlength : (plain.length / BF_BLKSIZE + 1) * BF_BLKSIZE ≤ pOutput.length) :
  ∃ cipher, cipher.length = (plain.length / BF_BLKSIZE + 1) * BF_BLKSIZE
    ∧ blowFishEncrypt bf (plain ++ more) pOutput plain.length
      = .ok (cipher ++ pOutput.drop cipher.length, cipher.length)
    ∧ ∀ rest buffer, cipher.length ≤ buffer.length →
      ∃ tail, blowFishDecrypt bf (cipher ++ rest) buffer cipher.length
        = .ok (plain ++ 0 :: tail, plain.length)
  := by
  obtain ⟨k, bs, h⟩ := exists_padded plain
  rw [← h.count] at hlength ⊢
  use (cbcEncrypt (encipherBlock bf) ⟨0, 0⟩ bs).flatMap Qword.store
  rw [flatMap_store_length, cbcEncrypt_length]
  use rfl, blowFishEncrypt_padded bf h more hlength
  intro rest buffer hbuffer
  apply blowFishDecrypt_padded bf h rest hbuffer

end Blowfish

end IFreeChat
