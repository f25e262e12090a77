import IFreeChat.Peer.Blowfish

/-!
# The modes of the cipher

`Encrypt` and `Decrypt` take a mode, with or without chaining and padding, and an initial vector.
For every mode and vector decryption undoes encryption (`decrypt_encrypt_mode`), and without
padding every buffer of whole blocks is the cipher text of exactly one buffer
(`exists_unique_plain`).  A cipher text that is damaged in one block is decrypted with damage in
that block and, with chaining, in the one after it (`decrypt_damaged`).
-/

open Basis

namespace IFreeChat

namespace Blowfish

variable (bf : CBlowFish) (mode : Nat) (IV : Qword)

/-! ### Blocks -/

/-- Enciphering undoes deciphering as well. -/
theorem blowfishEncipher_decipher (xl xr : UInt32) :
  blowfishEncipher bf (blowfishDecipher bf xl xr).1 (blowfishDecipher bf xl xr).2 = (xl, xr)
  := by
  rw [blowfishEncipher_eq, blowfishDecipher_eq]
  simp only [xor_cancel]
  have h := feistelRounds_reverse xor_cancel (bfF bf) (roundKeys bf).reverse
    (xl ^^^ bf.PArray.get 17, xr)
  have hswap : ∀ p : UInt32 × UInt32, p.swap = (p.2, p.1) := fun _ => rfl
  rw [List.reverse_reverse, hswap] at h
  rw [h]
  simp only [hswap, xor_cancel]

theorem encipherBlock_decipherBlock (q : Qword) :
  encipherBlock bf (decipherBlock bf q) = q
  := by
  simp only [decipherBlock, encipherBlock, changeOrder_changeOrder, blowfishEncipher_decipher]

/-- The blocks that the loop of `Encrypt` puts out. -/
def encryptBlocks (bs : List Qword) : List Qword :=
  if mode &&& BF_CBC ≠ 0 then cbcEncrypt (encipherBlock bf) IV bs else bs.map (encipherBlock bf)

/-- The blocks that the loop of `Decrypt` puts out. -/
def decryptBlocks (cs : List Qword) : List Qword :=
  if mode &&& BF_CBC ≠ 0 then cbcDecrypt (decipherBlock bf) IV cs else cs.map (decipherBlock bf)

theorem encryptBlocks_length (bs : List Qword) :
  (encryptBlocks bf mode IV bs).length = bs.length
  := by
  rw [encryptBlocks]
  split
  · apply cbcEncrypt_length
  · apply List.length_map

theorem decryptBlocks_length (cs : List Qword) :
  (decryptBlocks bf mode IV cs).length = cs.length
  := by
  rw [decryptBlocks]
  split
  · apply cbcDecrypt_length
  · apply List.length_map

theorem decryptBlocks_encryptBlocks (bs : List Qword) :
  decryptBlocks bf mode IV (encryptBlocks bf mode IV bs) = bs
  := by
  rw [decryptBlocks, encryptBlocks]
  split
  · apply cbcDecrypt_cbcEncrypt Qword.xor_cancel (decipherBlock_encipherBlock bf)
  · have hid : decipherBlock bf ∘ encipherBlock bf = id := funext (decipherBlock_encipherBlock bf)
    rw [List.map_map, hid, List.map_id]

theorem encryptBlocks_decryptBlocks (cs : List Qword) :
  encryptBlocks bf mode IV (decryptBlocks bf mode IV cs) = cs
  := by
  rw [decryptBlocks, encryptBlocks]
  split
  · apply cbcEncrypt_cbcDecrypt Qword.xor_cancel (encipherBlock_decipherBlock bf)
  · have hid : encipherBlock bf ∘ decipherBlock bf = id := funext (encipherBlock_decipherBlock bf)
    rw [List.map_map, hid, List.map_id]

/-! ### The loops -/

/-- The loop of `Encrypt` puts the blocks out. -/
theorem encryptLoop_blocks (bs : List Qword) (rest : List UInt8) :
  encryptLoop bf mode bs.length IV (bs.flatMap Qword.store ++ rest)
    = (encryptBlocks bf mode IV bs).flatMap Qword.store ++ rest
  := by
  by_cases hcbc : mode &&& BF_CBC ≠ 0
  · rw [encryptBlocks, if_pos hcbc, encryptLoop_flatMap hcbc]
  · rw [encryptBlocks, if_neg hcbc]
    induction bs with
    | nil => rfl
    | cons b bs ih =>
      have hlength := b.store_length
      rw [List.length_cons, List.flatMap_cons, List.append_assoc, encryptLoop]
      simp only [if_neg hcbc]
      rw [List.take_left' hlength, List.drop_left' hlength, Qword.load_store, ih, List.map_cons,
        List.flatMap_cons, List.append_assoc]

/-- The loop of `Decrypt` does. -/
theorem decryptLoop_blocks (cs : List Qword) (rest : List UInt8) :
  decryptLoop bf mode cs.length IV (cs.flatMap Qword.store ++ rest)
    = (decryptBlocks bf mode IV cs).flatMap Qword.store ++ rest
  := by
  by_cases hcbc : mode &&& BF_CBC ≠ 0
  · rw [decryptBlocks, if_pos hcbc, decryptLoop_flatMap hcbc]
  · rw [decryptBlocks, if_neg hcbc]
    induction cs with
    | nil => rfl
    | cons c cs ih =>
      have hlength := c.store_length
      rw [List.length_cons, List.flatMap_cons, List.append_assoc, decryptLoop]
      simp only [if_neg hcbc]
      rw [List.take_left' hlength, List.drop_left' hlength, Qword.load_store, ih, List.map_cons,
        List.flatMap_cons, List.append_assoc]

/-! ### Buffers -/

/-- The byte that fills the last block up. -/
def padByte (k : Nat) : UInt8 := if mode &&& BF_PKCS5 ≠ 0 then UInt8.ofNat k else 0

/-- The blocks of a buffer and of the `k` bytes that fill the last one up. -/
structure Filled (plain : List UInt8) (k : Nat) (bs : List Qword) : Prop where
  output : getOutputLength plain.length mode = bs.length * BF_BLKSIZE
  size : plain.length + k = bs.length * BF_BLKSIZE
  pos : mode &&& BF_PKCS5 ≠ 0 → 1 ≤ k
  le : k ≤ 8
  bytes : bs.flatMap Qword.store = plain ++ List.replicate k (padByte mode k)

theorem exists_filled (plain : List UInt8) :
  ∃ k bs, Filled mode plain k bs
  := by
  obtain ⟨n, k, houtput, hsize, hpos, hle⟩ : ∃ n k,
      getOutputLength plain.length mode = n * BF_BLKSIZE ∧ plain.length + k = n * BF_BLKSIZE
        ∧ (mode &&& BF_PKCS5 ≠ 0 → 1 ≤ k) ∧ k ≤ 8 := by
    rw [getOutputLength]
    refine ⟨_, _ - plain.length, rfl, Nat.add_sub_of_le ?_, ?_, ?_⟩
    · simp only [BF_BLKSIZE]
      split <;> omega
    · intro hpkcs
      simp only [if_pos hpkcs, BF_BLKSIZE]
      omega
    · simp only [BF_BLKSIZE]
      split <;> omega
  have hlength : (plain ++ List.replicate k (padByte mode k)).length = n * BF_BLKSIZE := by
    rw [List.length_append, List.length_replicate, hsize]
  obtain ⟨bs, hbs, hbytes⟩ := exists_blocks hlength
  subst hbs
  exact ⟨k, bs, houtput, hsize, hpos, hle, hbytes⟩

/-- The bytes of the block at a place. -/
theorem getElem?_flatMap_store (bs : List Qword) (i : Nat) {r : Nat} (hr : r < BF_BLKSIZE) :
  (bs.flatMap Qword.store)[i * BF_BLKSIZE + r]? = bs[i]?.bind fun q => q.store[r]?
  := by
  induction bs generalizing i with
  | nil => simp
  | cons b bs ih =>
    have hlength := b.store_length
    rw [List.flatMap_cons]
    cases i with
    | zero =>
      rw [Nat.zero_mul, Nat.zero_add, List.getElem?_append_left (by rwa [hlength])]
      rfl
    | succ i =>
      have hplace : (i + 1) * BF_BLKSIZE + r - b.store.length = i * BF_BLKSIZE + r := by
        rw [hlength, Nat.succ_mul]
        omega
      have hbehind : b.store.length ≤ (i + 1) * BF_BLKSIZE + r := by
        rw [hlength, Nat.succ_mul]
        omega
      rw [List.getElem?_append_right hbehind, hplace, ih, List.getElem?_cons_succ]

/-- Two buffers have the same bytes in a block if they have the same block there. -/
theorem getElem?_blocks_iff (bs bs' : List Qword) (i : Nat) :
  (∀ r < BF_BLKSIZE, (bs.flatMap Qword.store)[i * BF_BLKSIZE + r]?
      = (bs'.flatMap Qword.store)[i * BF_BLKSIZE + r]?) ↔ bs[i]? = bs'[i]?
  := by
  constructor
  · intro h
    have hstore : bs[i]?.map Qword.store = bs'[i]?.map Qword.store := by
      have hbytes : ∀ r < BF_BLKSIZE, (bs[i]?.bind fun q => q.store[r]?)
          = bs'[i]?.bind fun q => q.store[r]? := by
        intro r hr
        rw [← getElem?_flatMap_store bs i hr, h r hr, getElem?_flatMap_store bs' i hr]
      have hfirst := hbytes 0 (by decide)
      cases hb : bs[i]? with
      | none =>
        cases hb' : bs'[i]? with
        | none => rfl
        | some q' =>
          rw [hb, hb', Option.bind_none, Option.bind_some, eq_comm,
            List.getElem?_eq_none_iff, q'.store_length] at hfirst
          cases hfirst
      | some q =>
        cases hb' : bs'[i]? with
        | none =>
          rw [hb, hb', Option.bind_none, Option.bind_some, List.getElem?_eq_none_iff,
            q.store_length] at hfirst
          cases hfirst
        | some q' =>
          rw [Option.map_some, Option.map_some, Option.some_inj]
          apply List.ext_getElem?
          intro r
          by_cases hr : r < BF_BLKSIZE
          · have hr := hbytes r hr
            rwa [hb, hb'] at hr
          · rw [List.getElem?_eq_none (by rw [q.store_length]; omega),
              List.getElem?_eq_none (by rw [q'.store_length]; omega)]
    apply Option.map_injective _ hstore
    intro q q' hq
    rw [← q.load_store, hq, q'.load_store]
  · intro h r hr
    rw [getElem?_flatMap_store bs i hr, h, getElem?_flatMap_store bs' i hr]

theorem flatMap_store_inj {bs bs' : List Qword}
    (h : bs.flatMap Qword.store = bs'.flatMap Qword.store) :
  bs = bs'
  := by
  apply List.ext_getElem?
  intro i
  rw [← getElem?_blocks_iff, h]
  intro _ _
  rfl

variable {mode}

/-- What is encrypted is the blocks of the filled buffer. -/
theorem Filled.encrypt {plain pOutput : List UInt8} {k : Nat} {bs : List Qword}
    (h : Filled mode plain k bs) (more : List UInt8)
    (hlength : bs.length * BF_BLKSIZE ≤ pOutput.length) :
  Blowfish.encrypt bf (plain ++ more) pOutput plain.length mode IV
    = .ok ((encryptBlocks bf mode IV bs).flatMap Qword.store
      ++ pOutput.drop (bs.length * BF_BLKSIZE), bs.length * BF_BLKSIZE)
  := by
  have hk : bs.length * BF_BLKSIZE - plain.length = k := by
    rw [← h.size, Nat.add_sub_cancel_left]
  have hdiv : bs.length * BF_BLKSIZE / BF_BLKSIZE = bs.length :=
    Nat.mul_div_cancel bs.length (by decide)
  have hbytes := h.bytes
  rw [padByte] at hbytes
  rw [Blowfish.encrypt, h.output]
  simp only [List.length_append]
  rw [if_neg (by omega), if_neg (by omega), hk, List.take_left, hdiv, ← hbytes,
    encryptLoop_blocks]

/-- What the loop of `Decrypt` puts out for whole blocks, when they are copied to the buffer. -/
theorem decryptLoop_buffer (cs : List Qword) (rest buffer : List UInt8) :
  decryptLoop bf mode cs.length IV
      ((cs.flatMap Qword.store ++ rest).take (cs.length * BF_BLKSIZE)
        ++ buffer.drop (cs.length * BF_BLKSIZE))
    = (decryptBlocks bf mode IV cs).flatMap Qword.store ++ buffer.drop (cs.length * BF_BLKSIZE)
  := by
  rw [List.take_left' (flatMap_store_length cs), decryptLoop_blocks]

theorem blocks_count (n : Nat) :
  (n * BF_BLKSIZE + BF_BLKSIZE - 1) / BF_BLKSIZE = n
  := by
  rw [BF_BLKSIZE]
  omega

/-- Without padding whole blocks are decrypted to blocks. -/
theorem decrypt_blocks (hmode : mode &&& BF_PKCS5 = 0) (cs : List Qword)
    (rest : List UInt8) {buffer : List UInt8} (hbuffer : cs.length * BF_BLKSIZE ≤ buffer.length) :
  decrypt bf (cs.flatMap Qword.store ++ rest) buffer (cs.length * BF_BLKSIZE) mode IV
    = .ok ((decryptBlocks bf mode IV cs).flatMap Qword.store
      ++ buffer.drop (cs.length * BF_BLKSIZE), cs.length * BF_BLKSIZE)
  := by
  rw [decrypt]
  simp only [blocks_count]
  rw [if_neg (by rw [List.length_append, flatMap_store_length]; omega), if_neg (by omega),
    decryptLoop_buffer, if_pos hmode]

/-- With padding the blocks of a padded buffer are decrypted to the buffer with a terminator. -/
theorem Filled.decrypt {plain : List UInt8} {k : Nat} {bs : List Qword}
    (h : Filled mode plain k bs) (hmode : mode &&& BF_PKCS5 ≠ 0) (rest : List UInt8)
    {buffer : List UInt8} (hbuffer : bs.length * BF_BLKSIZE ≤ buffer.length) :
  ∃ tail, Blowfish.decrypt bf ((encryptBlocks bf mode IV bs).flatMap Qword.store ++ rest) buffer
      (bs.length * BF_BLKSIZE) mode IV
    = .ok (plain ++ 0 :: tail, plain.length)
  := by
  have hpos := h.pos hmode
  have hle := h.le
  have hsize := h.size
  have hloop := @decryptLoop_buffer bf mode IV (encryptBlocks bf mode IV bs) rest buffer
  have hbytes := h.bytes
  rw [encryptBlocks_length, decryptBlocks_encryptBlocks, hbytes, padByte, if_pos hmode] at hloop
  obtain ⟨hlast, hfirst, hset⟩ :=
    @unpad plain (buffer.drop (bs.length * BF_BLKSIZE)) k hpos hle
  rw [hsize] at hlast
  have hpad : (UInt8.ofNat k).toNat = k := by
    rw [UInt8.toNat_ofNat']
    omega
  have hstart : bs.length * BF_BLKSIZE - k = plain.length := by omega
  use List.replicate (k - 1) (UInt8.ofNat k) ++ buffer.drop (bs.length * BF_BLKSIZE)
  rw [Blowfish.decrypt]
  simp only [blocks_count]
  rw [if_neg (by rw [List.length_append, flatMap_store_length, encryptBlocks_length]; omega),
    if_neg (by omega), if_neg hmode, if_neg (by omega), hloop, hlast, hpad, hstart, hfirst, hset,
    if_neg]
  rintro (hzero | hlarge | hother)
  · rw [hzero] at hpad
    rw [← hpad] at hpos
    cases hpos
  · rw [BF_BLKSIZE] at hlarge
    omega
  · apply hother rfl

/-- For every mode and initial vector: encryption fills the buffer with the cipher text of the
input, and its decryption, whatever follows it, is the input again, with a terminator where there
is padding, and with the zeros of the last block where there is none. -/
theorem decrypt_encrypt_mode (mode : Nat) (plain more : List UInt8) {pOutput : List UInt8}
    (hlength : getOutputLength plain.length mode ≤ pOutput.length) :
  ∃ cipher, cipher.length = getOutputLength plain.length mode
    ∧ encrypt bf (plain ++ more) pOutput plain.length mode IV
      = .ok (cipher ++ pOutput.drop cipher.length, cipher.length)
    ∧ ∀ rest buffer, cipher.length ≤ buffer.length →
      (mode &&& BF_PKCS5 ≠ 0 → ∃ tail, decrypt bf (cipher ++ rest) buffer cipher.length mode IV
        = .ok (plain ++ 0 :: tail, plain.length))
      ∧ (mode &&& BF_PKCS5 = 0 → decrypt bf (cipher ++ rest) buffer cipher.length mode IV
        = .ok (plain ++ List.replicate (cipher.length - plain.length) 0
          ++ buffer.drop cipher.length, cipher.length))
  := by
  obtain ⟨k, bs, h⟩ := exists_filled mode plain
  rw [h.output] at hlength
  refine ⟨(encryptBlocks bf mode IV bs).flatMap Qword.store, ?_⟩
  rw [flatMap_store_length, encryptBlocks_length]
  refine ⟨h.output.symm, h.encrypt bf IV more hlength, ?_⟩
  intro rest buffer hbuffer
  refine ⟨fun hmode => h.decrypt bf IV hmode rest hbuffer, ?_⟩
  intro hmode
  have hdecrypt := decrypt_blocks bf IV hmode (encryptBlocks bf mode IV bs) rest
    (by rwa [encryptBlocks_length])
  have hbytes := h.bytes
  have hk : bs.length * BF_BLKSIZE - plain.length = k := by
    rw [← h.size, Nat.add_sub_cancel_left]
  rw [padByte, if_neg (not_not_intro hmode)] at hbytes
  rw [encryptBlocks_length, decryptBlocks_encryptBlocks, hbytes] at hdecrypt
  rw [hdecrypt, hk]

/-- The arrays before a key is set up. -/
def emptyKey : CBlowFish where
  PArray := Vector.replicate (NPASS + 2) 0
  SBoxes := Vector.replicate 4 (Vector.replicate 256 0)

/-- Five bytes, with chaining and padding. -/
theorem decrypt_encrypt_mode_five :
  ∃ cipher, cipher.length = getOutputLength 5 (BF_CBC ||| BF_PKCS5)
    ∧ encrypt emptyKey ([1, 2, 3, 4, 5] ++ []) (List.replicate 8 0) 5 (BF_CBC ||| BF_PKCS5) ⟨6, 7⟩
      = .ok (cipher ++ (List.replicate 8 0).drop cipher.length, cipher.length)
    ∧ ∀ rest buffer, cipher.length ≤ buffer.length →
      ((BF_CBC ||| BF_PKCS5) &&& BF_PKCS5 ≠ 0 → ∃ tail,
        decrypt emptyKey (cipher ++ rest) buffer cipher.length (BF_CBC ||| BF_PKCS5) ⟨6, 7⟩
          = .ok ([1, 2, 3, 4, 5] ++ 0 :: tail, 5))
      ∧ ((BF_CBC ||| BF_PKCS5) &&& BF_PKCS5 = 0 →
        decrypt emptyKey (cipher ++ rest) buffer cipher.length (BF_CBC ||| BF_PKCS5) ⟨6, 7⟩
          = .ok ([1, 2, 3, 4, 5] ++ List.replicate (cipher.length - 5) 0
            ++ buffer.drop cipher.length, cipher.length))
  := decrypt_encrypt_mode emptyKey ⟨6, 7⟩ (BF_CBC ||| BF_PKCS5) [1, 2, 3, 4, 5] [] (by decide)

/-- Without padding every buffer of whole blocks is the cipher text of exactly one buffer. -/
theorem exists_unique_plain (hmode : mode &&& BF_PKCS5 = 0) {cipher : List UInt8} {n : Nat}
    (hlength : cipher.length = n * BF_BLKSIZE) :
  ∃! plain : List UInt8, plain.length = cipher.length
    ∧ ∀ more pOutput, cipher.length ≤ pOutput.length →
      encrypt bf (plain ++ more) pOutput cipher.length mode IV
        = .ok (cipher ++ pOutput.drop cipher.length, cipher.length)
  := by
  have hfilled : ∀ {plain : List UInt8} {bs : List Qword}, bs.flatMap Qword.store = plain →
      Filled mode plain 0 bs := by
    rintro plain bs rfl
    refine ⟨?_, (flatMap_store_length bs), fun h => absurd hmode h, Nat.zero_le _, ?_⟩
    · rw [getOutputLength, if_neg (not_not_intro hmode), flatMap_store_length, blocks_count]
    · rw [List.replicate_zero, List.append_nil]
  obtain ⟨cs, hcs, rfl⟩ := exists_blocks hlength
  refine ⟨(decryptBlocks bf mode IV cs).flatMap Qword.store, ⟨?_, ?_⟩, ?_⟩
  · rw [flatMap_store_length, flatMap_store_length, decryptBlocks_length]
  · intro more pOutput hbuffer
    rw [flatMap_store_length] at hbuffer
    have hencrypt := @Filled.encrypt bf mode IV _ pOutput 0 (decryptBlocks bf mode IV cs)
      (hfilled rfl) more (by rwa [decryptBlocks_length])
    rw [flatMap_store_length, encryptBlocks_decryptBlocks, decryptBlocks_length] at hencrypt
    rw [flatMap_store_length]
    exact hencrypt
  · rintro plain ⟨hplain, hencrypt⟩
    rw [flatMap_store_length] at hplain
    obtain ⟨bs, hbs, rfl⟩ := exists_blocks hplain
    have hsize : (List.replicate (cs.length * BF_BLKSIZE) (0 : UInt8)).length
        = cs.length * BF_BLKSIZE := List.length_replicate
    have hencrypt := hencrypt [] (List.replicate (cs.length * BF_BLKSIZE) 0)
      (by rw [hsize, flatMap_store_length])
    have hencrypt' := @Filled.encrypt bf mode IV _ (List.replicate (cs.length * BF_BLKSIZE) 0) 0 bs
      (hfilled rfl) [] (by rw [hsize, hbs])
    rw [flatMap_store_length, hbs] at hencrypt'
    rw [flatMap_store_length, hencrypt', Except.ok.injEq, Prod.mk.injEq] at hencrypt
    have hcipher := flatMap_store_inj (List.append_cancel_right hencrypt.1)
    rw [← hcipher, decryptBlocks_encryptBlocks]

theorem exists_unique_plain_two :
  ∃! plain : List UInt8, plain.length = (List.replicate 16 (1 : UInt8)).length
    ∧ ∀ more pOutput, (List.replicate 16 (1 : UInt8)).length ≤ pOutput.length →
      encrypt emptyKey (plain ++ more) pOutput (List.replicate 16 (1 : UInt8)).length BF_CBC ⟨0, 0⟩
        = .ok (List.replicate 16 1 ++ pOutput.drop (List.replicate 16 (1 : UInt8)).length,
          (List.replicate 16 (1 : UInt8)).length)
  := exists_unique_plain emptyKey ⟨0, 0⟩ (by decide) (n := 2) (by decide)

/-! ### Damage -/

/-- With chaining a damaged block damages the one after it as well. -/
theorem decryptBlocks_congr {cs cs' : List Qword} {i : Nat} (h : ∀ j ≠ i, cs[j]? = cs'[j]?)
    {j : Nat} (hj : j ≠ i) (hj' : mode &&& BF_CBC ≠ 0 → j ≠ i + 1) :
  (decryptBlocks bf mode IV cs)[j]? = (decryptBlocks bf mode IV cs')[j]?
  := by
  rw [decryptBlocks, decryptBlocks]
  split
  · rename_i hcbc
    apply cbcDecrypt_getElem?_congr _ IV h hj (hj' hcbc)
  · rw [List.getElem?_map, List.getElem?_map, h j hj]

/-- What `Decrypt` does with the buffer that its loop leaves. -/
theorem decrypt_eq {n : Nat} {cipher buffer : List UInt8} (hlength : cipher.length = n * BF_BLKSIZE)
    (hbuffer : n * BF_BLKSIZE ≤ buffer.length) (hn : mode &&& BF_PKCS5 ≠ 0 → 0 < n) :
  decrypt bf cipher buffer (n * BF_BLKSIZE) mode IV
    = let out := decryptLoop bf mode n IV (cipher ++ buffer.drop (n * BF_BLKSIZE))
      let paddingLen := out.getD (n * BF_BLKSIZE - 1) 0
      .ok (if mode &&& BF_PKCS5 = 0 then (out, n * BF_BLKSIZE)
        else if paddingLen = 0 ∨ BF_BLKSIZE < paddingLen.toNat
          ∨ out.getD (n * BF_BLKSIZE - paddingLen.toNat) 0 ≠ paddingLen then (out, 0)
        else (out.set (n * BF_BLKSIZE - paddingLen.toNat) 0,
          n * BF_BLKSIZE - paddingLen.toNat))
  := by
  rw [decrypt]
  simp only [blocks_count]
  rw [if_neg (by omega), if_neg (by omega), List.take_of_length_le hlength.le]
  by_cases hmode : mode &&& BF_PKCS5 = 0
  · rw [if_pos hmode, if_pos hmode]
  · have hpos := hn hmode
    rw [if_neg hmode, if_neg hmode, if_neg (by rw [BF_BLKSIZE]; omega)]
    split <;> rfl

/-- The bytes of the buffer that lie in no damaged block are the same. -/
theorem decryptLoop_congr {n i : Nat} {cipher cipher' : List UInt8} (tail : List UInt8)
    (hlength : cipher.length = n * BF_BLKSIZE) (hlength' : cipher'.length = n * BF_BLKSIZE)
    (hsame : ∀ j, j / BF_BLKSIZE ≠ i → cipher[j]? = cipher'[j]?) {j : Nat}
    (hj : j / BF_BLKSIZE ≠ i) (hj' : mode &&& BF_CBC ≠ 0 → j / BF_BLKSIZE ≠ i + 1) :
  (decryptLoop bf mode n IV (cipher ++ tail))[j]? = (decryptLoop bf mode n IV (cipher' ++ tail))[j]?
  := by
  obtain ⟨cs, hcs, rfl⟩ := exists_blocks hlength
  obtain ⟨cs', hcs', rfl⟩ := exists_blocks hlength'
  have hblocks : ∀ k ≠ i, cs[k]? = cs'[k]? := by
    intro k hk
    rw [← getElem?_blocks_iff]
    intro r hr
    apply hsame
    rw [BF_BLKSIZE] at hr ⊢
    omega
  have hplain := @decryptBlocks_congr bf mode IV cs cs' i hblocks _ hj hj'
  have hloop := decryptLoop_blocks bf mode IV cs tail
  have hloop' := decryptLoop_blocks bf mode IV cs' tail
  rw [hcs] at hloop
  rw [hcs'] at hloop'
  rw [hloop, hloop']
  have hsize : ((decryptBlocks bf mode IV cs).flatMap Qword.store).length = n * BF_BLKSIZE := by
    rw [flatMap_store_length, decryptBlocks_length, hcs]
  have hsize' : ((decryptBlocks bf mode IV cs').flatMap Qword.store).length = n * BF_BLKSIZE := by
    rw [flatMap_store_length, decryptBlocks_length, hcs']
  by_cases hlt : j < n * BF_BLKSIZE
  · have hr : j % BF_BLKSIZE < BF_BLKSIZE := Nat.mod_lt j (by decide)
    rw [List.getElem?_append_left (by rwa [hsize]), List.getElem?_append_left (by rwa [hsize']),
      ← Nat.div_add_mod' j BF_BLKSIZE, getElem?_flatMap_store _ _ hr, hplain,
      ← getElem?_flatMap_store _ _ hr]
  · rw [List.getElem?_append_right (by omega), List.getElem?_append_right (by omega), hsize, hsize']

/-- A cipher text that is damaged in one block, and not in the padding, is decrypted to the same
size, and with damage in that block and, with chaining, in the one after it only. -/
theorem decrypt_damaged {n i : Nat} {cipher cipher' buffer : List UInt8}
    (hlength : cipher.length = n * BF_BLKSIZE) (hlength' : cipher'.length = n * BF_BLKSIZE)
    (hsame : ∀ j, j / BF_BLKSIZE ≠ i → cipher[j]? = cipher'[j]?)
    (hbuffer : n * BF_BLKSIZE ≤ buffer.length) (hpad : mode &&& BF_PKCS5 ≠ 0 → i + 2 < n) :
  ∃ out out' size, decrypt bf cipher buffer (n * BF_BLKSIZE) mode IV = .ok (out, size)
    ∧ decrypt bf cipher' buffer (n * BF_BLKSIZE) mode IV = .ok (out', size)
    ∧ ∀ j, j / BF_BLKSIZE ≠ i → (mode &&& BF_CBC ≠ 0 → j / BF_BLKSIZE ≠ i + 1) →
      out[j]? = out'[j]?
  := by
  have hn : mode &&& BF_PKCS5 ≠ 0 → 0 < n := fun h => Nat.zero_lt_of_lt (hpad h)
  have hagree := fun j hj hj' =>
    @decryptLoop_congr bf mode IV n i cipher cipher' (buffer.drop (n * BF_BLKSIZE)) hlength hlength'
      hsame j hj hj'
  rw [decrypt_eq bf IV hlength hbuffer hn, decrypt_eq bf IV hlength' hbuffer hn]
  dsimp only
  generalize decryptLoop bf mode n IV (cipher ++ buffer.drop (n * BF_BLKSIZE)) = out at hagree ⊢
  generalize decryptLoop bf mode n IV (cipher' ++ buffer.drop (n * BF_BLKSIZE)) = out' at hagree ⊢
  by_cases hmode : mode &&& BF_PKCS5 = 0
  · rw [if_pos hmode, if_pos hmode]
    exact ⟨out, out', _, rfl, rfl, hagree⟩
  · rw [if_neg hmode, if_neg hmode]
    have hlast := hpad hmode
    -- the padding lies in the last block, which is not damaged
    have hbyte : ∀ k, 1 ≤ k → k ≤ BF_BLKSIZE →
        out.getD (n * BF_BLKSIZE - k) 0 = out'.getD (n * BF_BLKSIZE - k) 0 := by
      intro k hk hk'
      rw [List.getD_eq_getElem?_getD, List.getD_eq_getElem?_getD, hagree]
      · rw [BF_BLKSIZE] at hk' ⊢
        omega
      · intro _
        rw [BF_BLKSIZE] at hk' ⊢
        omega
    rw [hbyte 1 (le_refl 1) (by decide)]
    generalize out'.getD (n * BF_BLKSIZE - 1) 0 = paddingLen
    by_cases hzero : paddingLen = 0
    · rw [if_pos (Or.inl hzero), if_pos (Or.inl hzero)]
      exact ⟨out, out', 0, rfl, rfl, hagree⟩
    by_cases hlarge : BF_BLKSIZE < paddingLen.toNat
    · rw [if_pos (Or.inr (Or.inl hlarge)), if_pos (Or.inr (Or.inl hlarge))]
      exact ⟨out, out', 0, rfl, rfl, hagree⟩
    have hpos : 1 ≤ paddingLen.toNat := by
      apply Nat.one_le_iff_ne_zero.mpr
      intro h
      apply hzero (UInt8.toNat_inj.mp h)
    rw [hbyte paddingLen.toNat hpos (Nat.not_lt.mp hlarge)]
    split
    · exact ⟨out, out', 0, rfl, rfl, hagree⟩
    · refine ⟨_, _, _, rfl, rfl, ?_⟩
      intro j hj hj'
      rw [List.getElem?_set, List.getElem?_set]
      have hbyte := hagree j hj hj'
      have hlt : j < out.length ↔ j < out'.length := by
        rw [← not_iff_not, Nat.not_lt, Nat.not_lt, ← List.getElem?_eq_none_iff, hbyte,
          List.getElem?_eq_none_iff]
      split
      · rename_i hset
        rw [hset]
        simp only [hlt]
      · exact hbyte

/-- The second one of four blocks is damaged. -/
theorem decrypt_damaged_four :
  ∃ out out' size,
    decrypt emptyKey (List.replicate 32 1) (List.replicate 32 0) (4 * BF_BLKSIZE)
        (BF_CBC ||| BF_PKCS5) ⟨0, 0⟩ = .ok (out, size)
    ∧ decrypt emptyKey ((List.replicate 32 1).set 9 2) (List.replicate 32 0) (4 * BF_BLKSIZE)
        (BF_CBC ||| BF_PKCS5) ⟨0, 0⟩ = .ok (out', size)
    ∧ ∀ j, j / BF_BLKSIZE ≠ 1 →
      ((BF_CBC ||| BF_PKCS5) &&& BF_CBC ≠ 0 → j / BF_BLKSIZE ≠ 1 + 1) → out[j]? = out'[j]?
  := by
  have hsame : ∀ j, j / BF_BLKSIZE ≠ 1 →
      (List.replicate 32 (1 : UInt8))[j]? = ((List.replicate 32 1).set 9 2)[j]? := by
    intro j hj
    rw [List.getElem?_set_ne]
    rintro rfl
    apply hj rfl
  exact decrypt_damaged emptyKey ⟨0, 0⟩ (by decide) (by decide) hsame (by decide)
    (fun _ => by decide)

end Blowfish

end IFreeChat
