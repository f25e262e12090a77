import IFreeChat.Basis.Block

/-!
# Strings packed in a block

Strings may lie one after another in slots of one block.  Those that are copied to their
slots in some order are all there in the end, with those that were there before, as long as
there is one block that has them all (`strcpyAll_hasString`).  There is one when every string
fits its slot, or goes on after it as the string of the next slot (`hasStrings_overlay`), and
not otherwise (`tiled_of_hasStrings`).
-/

namespace Basis

/-- `strcpy` to the offset `dest` of a block. -/
def strcpy (bytes : List UInt8) (dest : Nat) (s : List UInt8) : Except Fault (List UInt8) :=
  if dest + s.length < bytes.length then
    .ok (bytes.take dest ++ (s ++ 0 :: bytes.drop (dest + (s.length + 1))))
  else .error .writeOutside

/-- `memcpy` of `n` bytes to the offset `dest` of a block. -/
def memcpy (bytes : List UInt8) (dest : Nat) (src : List UInt8) (n : Nat) :
    Except Fault (List UInt8) :=
  if src.length < n then .error .readOutside
  else if bytes.length < dest + n then .error .writeOutside
  else .ok (bytes.take dest ++ (src.take n ++ bytes.drop (dest + n)))

/-- The string at the offset `a` of a block. -/
def stringAt (bytes : List UInt8) (a : Nat) : Except Fault (List UInt8) := do
  let (s, _) ← cString (bytes.drop a)
  .ok s

/-- The block has the string `s` and its terminator at the offset `a`. -/
def HasString (bytes : List UInt8) (a : Nat) (s : List UInt8) : Prop := s ++ [0] <+: bytes.drop a

/-! ### Reading -/

theorem stringAt_eq_ok_iff {bytes s : List UInt8} {a : Nat} :
  stringAt bytes a = .ok s ↔ HasString bytes a s ∧ 0 ∉ s
  := by
  simp only [stringAt, cString, bind_eq_ok]
  constructor
  · rintro ⟨⟨s', rest⟩, hsearch, h⟩
    cases h
    obtain ⟨heq, hnul, -⟩ := search_eq_ok_iff.mp hsearch
    refine ⟨⟨rest, ?_⟩, hnul⟩
    rw [heq, List.append_assoc]
    rfl
  · rintro ⟨⟨rest, heq⟩, hnul⟩
    refine ⟨(s, rest), ?_, rfl⟩
    rw [← heq, List.append_assoc]
    apply search_append hnul hnul

theorem HasString.lt {bytes s : List UInt8} {a : Nat} (h : HasString bytes a s) :
  a + s.length < bytes.length
  := by
  have := h.length_le
  rw [List.length_append, List.length_singleton, List.length_drop] at this
  omega

theorem hasString_iff {bytes s : List UInt8} {a : Nat} :
  HasString bytes a s ↔ ∀ i, i < s.length + 1 → bytes[a + i]? = (s ++ [0])[i]?
  := by
  rw [HasString, List.prefix_iff_getElem?]
  constructor
  · intro h i hi
    have hlt : i < (s ++ [0]).length := by
      rwa [List.length_append, List.length_singleton]
    rw [← List.getElem?_drop, h i hlt, List.getElem?_eq_getElem hlt]
  · intro h i hi
    rw [List.length_append, List.length_singleton] at hi
    rw [List.getElem?_drop, h i hi, List.getElem?_eq_getElem]

/-- Of two strings in one block, the first ends before the second starts, or goes on as the
second. -/
theorem HasString.fits_or_continues {bytes s t : List UInt8} {a n : Nat}
    (hs : HasString bytes a s) (ht : HasString bytes (a + n) t) (hnul : 0 ∉ s) (hnul' : 0 ∉ t) :
  s.length < n ∨ s.drop n = t
  := by
  rcases Nat.lt_or_ge s.length n with hlt | hge
  · left
    apply hlt
  · right
    have hdrop : HasString bytes (a + n) (s.drop n) := by
      have := List.IsPrefix.drop hs n
      rw [List.drop_append_of_le_length hge, List.drop_drop] at this
      apply this
    have hread := stringAt_eq_ok_iff.mpr ⟨hdrop, fun h => hnul (List.mem_of_mem_drop h)⟩
    rw [stringAt_eq_ok_iff.mpr ⟨ht, hnul'⟩] at hread
    cases hread
    rfl

/-! ### Copying -/

theorem strcpy_getElem? {bytes bytes' s : List UInt8} {dest : Nat}
    (h : strcpy bytes dest s = .ok bytes') (x : Nat) :
  bytes'[x]? = if dest ≤ x ∧ x < dest + (s.length + 1) then (s ++ [0])[x - dest]? else bytes[x]?
  := by
  rw [strcpy] at h
  split at h
  · rename_i hlt
    cases h
    have hdest : (bytes.take dest).length = dest := by
      rw [List.length_take]
      omega
    have hs : (s ++ [0]).length = s.length + 1 := List.length_append
    rw [List.append_cons s]
    rcases Nat.lt_or_ge x dest with hx | hx
    · rw [if_neg (by omega), List.getElem?_append_left (by omega), List.getElem?_take, if_pos hx]
    · rw [List.getElem?_append_right (by omega), hdest]
      rcases Nat.lt_or_ge x (dest + (s.length + 1)) with hx' | hx'
      · rw [if_pos ⟨hx, hx'⟩, List.getElem?_append_left (by omega)]
      · rw [if_neg (by omega), List.getElem?_append_right (by omega), List.getElem?_drop, hs]
        congr 1
        omega
  · cases h

theorem strcpy_length {bytes bytes' s : List UInt8} {dest : Nat}
    (h : strcpy bytes dest s = .ok bytes') :
  bytes'.length = bytes.length
  := by
  rw [strcpy] at h
  split at h
  · cases h
    simp only [List.length_append, List.length_take, List.length_cons, List.length_drop]
    omega
  · cases h

/-- A string is copied to where the zeros of a block begin. -/
theorem strcpy_zeros {done s : List UInt8} {k : Nat} (h : s.length < k) :
  strcpy (done ++ List.replicate k 0) done.length s
    = .ok (done ++ (s ++ 0 :: List.replicate (k - (s.length + 1)) 0))
  := by
  rw [strcpy, if_pos, List.take_left, List.drop_length_add_append, List.drop_replicate]
  rw [List.length_append, List.length_replicate]
  omega

/-- Bytes are copied to where the zeros of a block begin. -/
theorem memcpy_zeros {done src : List UInt8} {dest k n : Nat} (hdest : done.length = dest)
    (hsrc : n ≤ src.length) (h : n ≤ k) :
  memcpy (done ++ List.replicate k 0) dest src n
    = .ok (done ++ (src.take n ++ List.replicate (k - n) 0))
  := by
  subst hdest
  rw [memcpy, if_neg (by omega), if_neg, List.take_left, List.drop_length_add_append,
    List.drop_replicate]
  rw [List.length_append, List.length_replicate]
  omega

/-- A copied string is there. -/
theorem hasString_strcpy {bytes bytes' s : List UInt8} {dest : Nat}
    (h : strcpy bytes dest s = .ok bytes') :
  HasString bytes' dest s
  := by
  rw [hasString_iff]
  intro i hi
  rw [strcpy_getElem? h, if_pos (by omega), Nat.add_sub_cancel_left]

/-- A string stays when one is copied that the same block can have as well. -/
theorem HasString.strcpy {picture bytes bytes' s t : List UInt8} {a dest : Nat}
    (h : HasString bytes a s) (hs : HasString picture a s) (ht : HasString picture dest t)
    (hcopy : strcpy bytes dest t = .ok bytes') :
  HasString bytes' a s
  := by
  rw [hasString_iff] at *
  intro i hi
  rw [strcpy_getElem? hcopy]
  split
  · rename_i hx
    have hpicture := ht (a + i - dest) (by omega)
    rw [Nat.add_sub_of_le hx.1, hs i hi] at hpicture
    rw [hpicture]
  · apply h i hi

/-- Strings copied one after another. -/
def strcpyAll (bytes : List UInt8) : List (Nat × List UInt8) → Except Fault (List UInt8)
  | [] => .ok bytes
  | (dest, s) :: copies => do
      let bytes ← strcpy bytes dest s
      strcpyAll bytes copies

/-- A string can be read where a terminator follows. -/
theorem stringAt_of_zero {bytes : List UInt8} {a z : Nat} (hz : bytes[z]? = some 0) (ha : a ≤ z) :
  ∃ s, stringAt bytes a = .ok s
  := by
  have hmem : 0 ∈ bytes.drop a := by
    rw [List.mem_iff_getElem?]
    use z - a
    rw [List.getElem?_drop, Nat.add_sub_of_le ha, hz]
  obtain ⟨s, rest, heq, hnul⟩ := List.eq_append_cons_of_mem hmem
  use s
  rw [stringAt, heq, cString_append hnul]
  rfl

/-- A terminator stays, or there is a later one after strings are copied. -/
theorem strcpyAll_zero {bytes bytes' : List UInt8} {copies : List (Nat × List UInt8)} {z : Nat}
    (hz : bytes[z]? = some 0) (h : strcpyAll bytes copies = .ok bytes') :
  ∃ z', z ≤ z' ∧ bytes'[z']? = some 0
  := by
  induction copies generalizing bytes z with
  | nil =>
    cases h
    use z
  | cons copy copies ih =>
    obtain ⟨bytes₁, hcopy, hrest⟩ := bind_eq_ok.mp h
    have hget := strcpy_getElem? hcopy
    obtain ⟨z₁, hle, hz₁⟩ : ∃ z₁, z ≤ z₁ ∧ bytes₁[z₁]? = some 0 := by
      by_cases hx : copy.1 ≤ z ∧ z < copy.1 + (copy.2.length + 1)
      · use copy.1 + copy.2.length, by omega
        rw [hget, if_pos (by omega), Nat.add_sub_cancel_left]
        simp
      · use z, Nat.le_refl z
        rw [hget, if_neg hx, hz]
    obtain ⟨z', hle', hz'⟩ := ih hz₁ hrest
    use z', Nat.le_trans hle hle'

/-- Strings that one block can have are all there once some of them were copied and the
others were there before. -/
theorem strcpyAll_hasString {picture : List UInt8} {copies : List (Nat × List UInt8)}
    (hcopies : ∀ copy ∈ copies, HasString picture copy.1 copy.2) {bytes : List UInt8}
    (hlength : bytes.length = picture.length) :
  ∃ bytes', strcpyAll bytes copies = .ok bytes' ∧ bytes'.length = bytes.length
    ∧ ∀ a s, HasString picture a s → HasString bytes a s ∨ (a, s) ∈ copies →
        HasString bytes' a s
  := by
  induction copies generalizing bytes with
  | nil =>
    use bytes, rfl, rfl
    rintro a s - (h | h)
    · apply h
    · cases h
  | cons copy copies ih =>
    obtain ⟨dest, t⟩ := copy
    have ht : HasString picture dest t := hcopies _ List.mem_cons_self
    obtain ⟨bytes₁, hcopy⟩ : ∃ bytes₁, strcpy bytes dest t = .ok bytes₁ := by
      rw [strcpy, if_pos (by rw [hlength]; apply ht.lt)]
      exact ⟨_, rfl⟩
    have hlength₁ := strcpy_length hcopy
    obtain ⟨bytes', hall, hlength', hholds⟩ :=
      ih (fun copy hcopy => hcopies copy (List.mem_cons_of_mem _ hcopy)) (hlength₁.trans hlength)
    refine ⟨bytes', ?_, hlength'.trans hlength₁, ?_⟩
    · rw [strcpyAll, hcopy]
      apply hall
    · intro a s hs h
      apply hholds a s hs
      rcases h with h | h
      · left
        apply h.strcpy hs ht hcopy
      · rcases List.mem_cons.mp h with heq | h
        · left
          cases heq
          apply hasString_strcpy hcopy
        · right
          apply h

theorem strcpyAll_append (bytes : List UInt8) (copies copies' : List (Nat × List UInt8)) :
  strcpyAll bytes (copies ++ copies')
    = strcpyAll bytes copies >>= fun bytes => strcpyAll bytes copies'
  := by
  induction copies generalizing bytes with
  | nil => rfl
  | cons copy copies ih =>
    simp only [List.cons_append, strcpyAll, ih, bind_assoc]

theorem strcpyAll_length {bytes bytes' : List UInt8} {copies : List (Nat × List UInt8)}
    (h : strcpyAll bytes copies = .ok bytes') :
  bytes'.length = bytes.length
  := by
  induction copies generalizing bytes with
  | nil =>
    cases h
    rfl
  | cons copy copies ih =>
    obtain ⟨bytes₁, hcopy, hrest⟩ := bind_eq_ok.mp h
    rw [ih hrest, strcpy_length hcopy]

/-- The copies that run over the offset `a`. -/
def runsOver (a : Nat) (copies : List (Nat × List UInt8)) : List (Nat × List UInt8) :=
  copies.filter fun copy => copy.1 ≤ a ∧ a ≤ copy.1 + copy.2.length

/-- A string stays when another one ends before it, or starts after it. -/
theorem hasString_of_apart {bytes bytes' s t : List UInt8} {a dest : Nat} (h : HasString bytes a s)
    (hcopy : strcpy bytes dest t = .ok bytes')
    (hapart : dest + t.length < a ∨ a + s.length < dest) :
  HasString bytes' a s
  := by
  rw [hasString_iff] at *
  intro i hi
  rw [strcpy_getElem? hcopy, if_neg (by omega)]
  apply h i hi

/-- A string that is copied goes on at every place in it. -/
theorem hasString_strcpy_drop {bytes bytes' t : List UInt8} {a dest : Nat}
    (hcopy : strcpy bytes dest t = .ok bytes') (hdest : dest ≤ a) (ha : a ≤ dest + t.length) :
  HasString bytes' a (t.drop (a - dest))
  := by
  have hdrop := List.IsPrefix.drop (hasString_strcpy hcopy) (a - dest)
  rw [List.drop_append_of_le_length (by omega), List.drop_drop, Nat.add_sub_of_le hdest] at hdrop
  apply hdrop

/-- A string stays where no copy starts in it, and the last one that runs over it, if any, goes
on there as this string. -/
theorem hasString_strcpyAll {bytes bytes' s : List UInt8} {a : Nat}
    {copies : List (Nat × List UInt8)} (h : HasString bytes a s)
    (houtside : ∀ copy ∈ copies, copy.1 ≤ a ∨ a + s.length < copy.1)
    (hlast : ∀ copy ∈ (runsOver a copies).getLast?, copy.2.drop (a - copy.1) = s)
    (hcopies : strcpyAll bytes copies = .ok bytes') :
  HasString bytes' a s
  := by
  induction copies using List.reverseRecOn generalizing bytes' with
  | nil =>
    cases hcopies
    apply h
  | append_singleton copies copy ih =>
    rw [strcpyAll_append] at hcopies
    obtain ⟨bytes₁, hinit, hfinal⟩ := bind_eq_ok.mp hcopies
    obtain ⟨bytes₂, hcopy, heq⟩ := bind_eq_ok.mp hfinal
    cases heq
    have hout := houtside copy (List.mem_append_right _ (List.mem_singleton_self copy))
    rw [runsOver, List.filter_append] at hlast
    by_cases hover : copy.1 ≤ a ∧ a ≤ copy.1 + copy.2.length
    · rw [← hlast copy (by simp [hover])]
      apply hasString_strcpy_drop hcopy hover.1 hover.2
    · apply hasString_of_apart _ hcopy (by omega)
      apply ih _ _ hinit
      · intro copy' hcopy'
        apply houtside copy' (List.mem_append_left _ hcopy')
      · intro copy' hcopy'
        apply hlast copy'
        rw [List.filter_cons_of_neg (by simpa using hover), List.filter_nil, List.append_nil]
        apply hcopy'

/-! ### Slots -/

/-- The strings are one after another in the slots from the offset `a` on. -/
def HasStrings (bytes : List UInt8) : Nat → List (Nat × List UInt8) → Prop
  | _, [] => True
  | a, (n, s) :: slots => HasString bytes a s ∧ HasStrings bytes (a + n) slots

/-- Every string fits its slot, or goes on after it as the string of the next slot. -/
def Tiled : List (Nat × List UInt8) → Prop
  | [] => True
  | [(n, s)] => s.length < n
  | (n, s) :: (m, t) :: slots => (s.length < n ∨ s.drop n = t) ∧ Tiled ((m, t) :: slots)

/-- The slots filled with the strings. -/
def overlay : List (Nat × List UInt8) → List UInt8
  | [] => []
  | (n, s) :: slots => (s ++ List.replicate n 0).take n ++ overlay slots

theorem overlay_length (slots : List (Nat × List UInt8)) :
  (overlay slots).length = (slots.map Prod.fst).sum
  := by
  induction slots with
  | nil => rfl
  | cons slot slots ih =>
    simp only [overlay, List.length_append, List.length_take, List.length_replicate, ih,
      List.map_cons, List.sum_cons]
    omega

/-- A string that fits its slot is there. -/
theorem hasString_overlay_of_lt {n : Nat} {s rest : List UInt8} (pre : List UInt8)
    (h : s.length < n) :
  HasString (pre ++ ((s ++ List.replicate n 0).take n ++ rest)) pre.length s
  := by
  rw [HasString, List.drop_left]
  obtain ⟨k, rfl⟩ : ∃ k, n = s.length + (k + 1) := ⟨n - s.length - 1, by omega⟩
  rw [List.take_length_add_append, List.take_replicate, Nat.min_eq_left (by omega),
    List.replicate_succ]
  use List.replicate k 0 ++ rest
  simp

/-- The slots filled with the strings have them all. -/
theorem hasStrings_overlay :
  ∀ {slots : List (Nat × List UInt8)} (pre : List UInt8), Tiled slots →
    HasStrings (pre ++ overlay slots) pre.length slots
  | [], _, _ => trivial
  | [(n, s)], pre, h => ⟨hasString_overlay_of_lt pre h, trivial⟩
  | (n, s) :: (m, t) :: slots, pre, ⟨h, hrest⟩ => by
      have ih := hasStrings_overlay (pre ++ (s ++ List.replicate n 0).take n) hrest
      have hlength : (pre ++ (s ++ List.replicate n 0).take n).length = pre.length + n := by
        simp
      rw [hlength, List.append_assoc] at ih
      refine ⟨?_, ih⟩
      rcases Nat.lt_or_ge s.length n with hlt | hge
      · apply hasString_overlay_of_lt pre hlt
      · have htake : (s ++ List.replicate n 0).take n = s.take n :=
          List.take_append_of_le_length hge
        have hdrop := h.resolve_left (Nat.not_lt.mpr hge)
        have ht : t ++ [0] <+: overlay ((m, t) :: slots) := (hasStrings_overlay [] hrest).1
        have hsplit : s ++ [0] = s.take n ++ (t ++ [0]) := by
          rw [← hdrop, ← List.append_assoc, List.take_append_drop]
        rw [HasString, List.drop_left, overlay, htake, hsplit]
        apply (List.prefix_append_right_inj _).mpr ht

/-- Strings that are one after another in slots, the last one in its own, fit them or go on
as the next one. -/
theorem tiled_of_hasStrings {bytes : List UInt8} :
  ∀ {slots : List (Nat × List UInt8)} {a : Nat}, HasStrings bytes a slots →
    (∀ slot ∈ slots, 0 ∉ slot.2) → (∀ slot ∈ slots.getLast?, slot.2.length < slot.1) →
    Tiled slots
  | [], _, _, _, _ => trivial
  | [(n, s)], _, _, _, hlast => hlast _ rfl
  | (n, s) :: (m, t) :: slots, a, ⟨hs, hrest⟩, hnul, hlast => by
      constructor
      · apply hs.fits_or_continues hrest.1
        · apply hnul (n, s) List.mem_cons_self
        · apply hnul (m, t) (List.mem_cons_of_mem _ List.mem_cons_self)
      · apply tiled_of_hasStrings hrest
        · intro slot hslot
          apply hnul slot (List.mem_cons_of_mem _ hslot)
        · intro slot hslot
          apply hlast
          rw [List.getLast?_cons_cons]
          apply hslot

end Basis
