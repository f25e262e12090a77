import IFreeChat.Peer.Message

/-!
# The search for a character set

`string_validate` goes along a list of character sets, of which it asks GLib for one conversion
after another until one succeeds.  Every pass of its loop leaves a name behind, so that it ends
(`stringValidateLoop_eq`).

A set named `utf-8` is passed over by a `continue`, which goes to the condition of the loop, where
the conversion is; and when no conversion has succeeded, the name of the last set is stored all
the same.  The search is the one over the other sets exactly when there is nothing to search, or
some set converts the string and no `utf-8` comes before it (`string_validate_search`).
-/

open Basis

namespace IFreeChat

namespace Peer

/-! ### The loop -/

/-- The lower case of an ASCII letter. -/
def toLower (c : UInt8) : UInt8 := if 65 ≤ c ∧ c ≤ 90 then c + 32 else c

/-- `strcasecmp` of a name with `"utf-8"` answers `0`. -/
def isUtf8Name (cset : List UInt8) : Bool := cset.map toLower = ascii "utf-8"

/-- `strpbrk` for a separator: the string from the first one on. -/
def strpbrk (s : List UInt8) : Option (List UInt8) :=
  match s.dropWhile fun c => !isSeparator c with
  | [] => none
  | c :: s => some (c :: s)

/-- What `string_validate` returns and what it stores in `*encode`, with the character sets of
its calls to `g_convert`. -/
structure Validated where
  string : Option (List UInt8)
  encode : Option (List UInt8)
  calls : List (List UInt8)
deriving DecidableEq

/-- The loop of `string_validate` from `ptr` on, with the name `cset` of the pass before; `none`
when it takes more than `fuel` passes. -/
def stringValidateLoop (glib : Glib) (string : List UInt8) :
    (fuel : Nat) → (ptr : List UInt8) → (cset : Option (List UInt8)) → Option Validated
  | 0, _, _ => none
  | fuel + 1, ptr, cset =>
      let pptr := ptr.dropWhile isSeparator
      if pptr = [] then some { string := none, encode := cset, calls := [] }
      else
        let ptr := (strpbrk pptr).getD []
        let cset := pptr.take (pptr.length - ptr.length)
        -- After `continue` as at the end of the body, the condition of the loop comes next.
        match glib.convert string cset with
        | some tstring => some { string := some tstring, encode := some cset, calls := [cset] }
        | none => (stringValidateLoop glib string fuel ptr (some cset)).map fun v =>
            { v with calls := cset :: v.calls }

/-- `string_validate`, with all that it does. -/
def stringValidateCalls (glib : Glib) (fuel : Nat) (string : List UInt8)
    (codeset : Option (List UInt8)) : Option Validated :=
  if glib.utf8Validate string then some { string := none, encode := none, calls := [] }
  else
    match codeset with
    | none => some { string := none, encode := none, calls := [] }
    | some codeset => stringValidateLoop glib string fuel codeset none

/-! ### Its passes -/

/-- What the loop does on a list of names. -/
def validated (convert : List UInt8 → Option (List UInt8)) :
    (names : List (List UInt8)) → (cset : Option (List UInt8)) → Validated
  | [], cset => { string := none, encode := cset, calls := [] }
  | name :: names, _ =>
      match convert name with
      | some tstring => { string := some tstring, encode := some name, calls := [name] }
      | none =>
          let v := validated convert names (some name)
          { v with calls := name :: v.calls }

theorem charsets_separator {c : UInt8} (hc : isSeparator c = true) (s : List UInt8) :
  charsets (c :: s) = charsets s
  := by
  rw [charsets, List.splitOnP_cons_eq_if_modifyHead, if_pos hc, List.filter_cons_of_neg (by decide)]
  rfl

/-- The name a list starts with, up to a separator or the end, and the rest. -/
theorem charsets_append {name rest : List UInt8} (hne : name ≠ [])
    (hname : ∀ c ∈ name, isSeparator c = false)
    (hrest : ∀ c ∈ rest.head?, isSeparator c = true) :
  charsets (name ++ rest) = name :: charsets rest
  := by
  have hfilter : (!name.isEmpty) = true := by
    simpa using hne
  cases rest with
  | nil =>
    rw [List.append_nil, charsets, List.splitOnP_eq_singleton hname, List.filter_cons,
      if_pos hfilter]
    rfl
  | cons c rest =>
    rw [charsets, List.splitOnP_append_cons_of_forall_mem hname c (hrest c rfl),
      List.filter_cons, if_pos hfilter, charsets_separator (hrest c rfl)]
    rfl

theorem charsets_dropWhile (s : List UInt8) :
  charsets (s.dropWhile isSeparator) = charsets s
  := by
  induction s with
  | nil => rfl
  | cons c s ih =>
    cases hc : isSeparator c with
    | true => rw [List.dropWhile_cons_of_pos hc, ih, charsets_separator hc]
    | false => rw [List.dropWhile_cons_of_neg (by rw [hc]; decide)]

theorem strpbrk_getD (s : List UInt8) :
  (strpbrk s).getD [] = s.dropWhile fun c => !isSeparator c
  := by
  rw [strpbrk]
  cases s.dropWhile fun c => !isSeparator c with
  | nil => rfl
  | cons c s => rfl

/-- The loop goes along the names of the list, and ends. -/
theorem stringValidateLoop_eq (glib : Glib) (string : List UInt8) {fuel : Nat} {ptr : List UInt8}
    (hfuel : ptr.length < fuel) (cset : Option (List UInt8)) :
  stringValidateLoop glib string fuel ptr cset
    = some (validated (glib.convert string) (charsets ptr) cset)
  := by
  induction fuel generalizing ptr cset with
  | zero => cases hfuel
  | succ fuel ih =>
    rw [stringValidateLoop, ← charsets_dropWhile ptr]
    have hlength := (List.dropWhile_suffix isSeparator (l := ptr)).length_le
    have hfirst := List.head?_dropWhile_not isSeparator ptr
    generalize ptr.dropWhile isSeparator = pptr at hlength hfirst
    cases pptr with
    | nil => rfl
    | cons c s =>
      have hc : isSeparator c = false := hfirst
      have happend := @List.takeWhile_append_dropWhile _ (fun c => !isSeparator c) (c :: s)
      have hname : ∀ x ∈ (c :: s).takeWhile (fun c => !isSeparator c), isSeparator x = false := by
        intro x hx
        simpa using List.mem_takeWhile_imp hx
      have hrest : ∀ x ∈ ((c :: s).dropWhile fun c => !isSeparator c).head?,
          isSeparator x = true := by
        intro x hx
        have hnot := List.head?_dropWhile_not (fun c => !isSeparator c) (c :: s)
        rw [hx] at hnot
        simpa using hnot
      have hne : (c :: s).takeWhile (fun c => !isSeparator c) ≠ [] := by
        rw [List.takeWhile_cons_of_pos (by rw [hc]; rfl)]
        apply List.cons_ne_nil
      have hptr := strpbrk_getD (c :: s)
      generalize (c :: s).takeWhile (fun c => !isSeparator c) = name at happend hname hne
      generalize ((c :: s).dropWhile fun c => !isSeparator c) = rest at happend hrest hptr
      have htake : (c :: s).take ((c :: s).length - rest.length) = name := by
        rw [← happend, List.length_append, Nat.add_sub_cancel, List.take_left]
      have hshort : rest.length < fuel := by
        have hpos := List.length_pos_of_ne_nil hne
        have hsum := congrArg List.length happend
        rw [List.length_append] at hsum
        omega
      simp only [if_neg (List.cons_ne_nil c s), hptr, htake]
      rw [← happend, charsets_append hne hname hrest, validated]
      cases glib.convert string name with
      | some tstring => rfl
      | none =>
        simp only [ih hshort, Option.map_some]

/-- The loop finds what `stringValidate` gives. -/
theorem validated_string (convert : List UInt8 → Option (List UInt8)) (names : List (List UInt8))
    (cset : Option (List UInt8)) :
  (validated convert names cset).string = names.findSome? convert
  := by
  induction names generalizing cset with
  | nil => rfl
  | cons name names ih =>
    rw [validated, List.findSome?_cons]
    cases convert name with
    | some tstring => rfl
    | none => apply ih

theorem stringValidateCalls_eq (glib : Glib) {string codeset : List UInt8}
    (hstring : glib.utf8Validate string = false) {fuel : Nat} (hfuel : codeset.length < fuel) :
  stringValidateCalls glib fuel string (some codeset)
    = some (validated (glib.convert string) (charsets codeset) none)
  := by
  rw [stringValidateCalls, hstring]
  apply stringValidateLoop_eq glib string hfuel

theorem stringValidateCalls_string (glib : Glib) (string codeset : List UInt8) {fuel : Nat}
    (hfuel : codeset.length < fuel) :
  (stringValidateCalls glib fuel string (some codeset)).map (·.string)
    = some (stringValidate glib string codeset)
  := by
  rw [stringValidateCalls, stringValidate]
  split
  · rfl
  · simp only [stringValidateLoop_eq glib string hfuel, Option.map_some, validated_string]

/-! ### The search over the other sets -/

/-- The conversion is the one from the first set other than `utf-8` that has one, and that set is
named, and the conversion from `utf-8` is not tried. -/
structure Validated.FromOthers (v : Validated) (convert : List UInt8 → Option (List UInt8))
    (names : List (List UInt8)) : Prop where
  string : v.string = (names.filter fun name => !isUtf8Name name).findSome? convert
  encode : v.encode = (names.filter fun name => !isUtf8Name name).find? fun name =>
    (convert name).isSome
  calls : ∀ name ∈ v.calls, isUtf8Name name = false

/-- Of the sets that are named `utf-8` or convert the string, the first one converts it and is
not named so. -/
def OtherFirst (convert : List UInt8 → Option (List UInt8)) (names : List (List UInt8)) : Prop :=
  ∃ name, (names.find? fun name => isUtf8Name name || (convert name).isSome) = some name
    ∧ isUtf8Name name = false

section

variable {convert : List UInt8 → Option (List UInt8)} {name : List UInt8}
  {names : List (List UInt8)} {cset : Option (List UInt8)}

/-- The first name is tried, whatever it is. -/
theorem mem_calls_validated :
  name ∈ (validated convert (name :: names) cset).calls
  := by
  rw [validated]
  cases convert name with
  | some tstring => exact List.mem_cons_self
  | none => exact List.mem_cons_self

/-- A list that starts with `utf-8` has its conversion tried first. -/
theorem validated_of_utf8 (hname : isUtf8Name name = true) :
  ¬ (validated convert (name :: names) cset).FromOthers convert (name :: names)
    ∧ ¬ OtherFirst convert (name :: names)
  := by
  constructor
  · intro h
    have hnot := h.calls name mem_calls_validated
    rw [hname] at hnot
    cases hnot
  · rintro ⟨name', hfind, hname'⟩
    rw [List.find?_cons_of_pos (by rw [hname]; rfl)] at hfind
    cases hfind
    rw [hname] at hname'
    cases hname'

theorem filter_cons_of_other (hname : isUtf8Name name = false) :
  (name :: names).filter (fun name => !isUtf8Name name)
    = name :: names.filter fun name => !isUtf8Name name
  := by
  rw [List.filter_cons, hname]
  rfl

/-- Another set that converts the string ends the search. -/
theorem validated_of_convert (hname : isUtf8Name name = false) {tstring : List UInt8}
    (hconvert : convert name = some tstring) :
  (validated convert (name :: names) cset).FromOthers convert (name :: names)
    ∧ OtherFirst convert (name :: names)
  := by
  constructor
  · constructor
    · rw [filter_cons_of_other hname, List.findSome?_cons]
      simp only [validated, hconvert]
    · rw [filter_cons_of_other hname, List.find?_cons_of_pos (by rw [hconvert]; rfl)]
      simp only [validated, hconvert]
    · simpa only [validated, hconvert, List.forall_mem_singleton] using hname
  · refine ⟨name, List.find?_cons_of_pos ?_, hname⟩
    rw [hconvert, Option.isSome_some, Bool.or_true]

/-- Another set that does not convert it is passed. -/
theorem validated_of_pass (hname : isUtf8Name name = false) (hconvert : convert name = none) :
  ((validated convert (name :: names) cset).FromOthers convert (name :: names)
      ↔ (validated convert names (some name)).FromOthers convert names)
    ∧ (OtherFirst convert (name :: names) ↔ OtherFirst convert names)
  := by
  have hstep : validated convert (name :: names) cset
      = { validated convert names (some name) with
          calls := name :: (validated convert names (some name)).calls } := by
    simp only [validated, hconvert]
  have hstring : ((name :: names).filter fun name => !isUtf8Name name).findSome? convert
      = (names.filter fun name => !isUtf8Name name).findSome? convert := by
    rw [filter_cons_of_other hname, List.findSome?_cons]
    simp only [hconvert]
  have hencode : (((name :: names).filter fun name => !isUtf8Name name).find? fun name =>
      (convert name).isSome)
        = (names.filter fun name => !isUtf8Name name).find? fun name =>
          (convert name).isSome := by
    rw [filter_cons_of_other hname, List.find?_cons_of_neg]
    rw [hconvert]
    decide
  constructor
  · rw [hstep]
    constructor
    · intro h
      refine ⟨h.string.trans hstring, h.encode.trans hencode, ?_⟩
      intro name' hmem
      apply h.calls name' (List.mem_cons_of_mem name hmem)
    · intro h
      refine ⟨h.string.trans hstring.symm, h.encode.trans hencode.symm, ?_⟩
      intro name' hmem
      obtain rfl | hmem := List.mem_cons.mp hmem
      · exact hname
      · apply h.calls name' hmem
  · rw [OtherFirst, OtherFirst, List.find?_cons_of_neg]
    rw [hname, hconvert]
    decide

end

/-- On a list of names, the loop searches the other sets when the first set that it does not pass
is another one, or when there are no names and none before them. -/
theorem validated_fromOthers_iff (convert : List UInt8 → Option (List UInt8))
    (names : List (List UInt8)) (cset : Option (List UInt8)) :
  (validated convert names cset).FromOthers convert names
    ↔ names = [] ∧ cset = none ∨ OtherFirst convert names
  := by
  induction names generalizing cset with
  | nil =>
    constructor
    · intro h
      left
      exact ⟨rfl, h.encode⟩
    · rintro (⟨-, rfl⟩ | ⟨name, hname, -⟩)
      · exact ⟨rfl, rfl, by simp [validated]⟩
      · cases hname
  | cons name names ih =>
    cases hname : isUtf8Name name with
    | true =>
      have hutf8 := @validated_of_utf8 convert name names cset hname
      simp [hutf8]
    | false =>
      cases hconvert : convert name with
      | some tstring =>
        have hfound := @validated_of_convert convert name names cset hname tstring hconvert
        simp [hfound]
      | none =>
        have hpass := @validated_of_pass convert name names cset hname hconvert
        rw [hpass.1, hpass.2, ih]
        simp

/-- A string that is not UTF-8 is looked for a conversion in finitely many passes; it is the one
from the first listed set other than `utf-8` that has one, with that set in `*encode` or `NULL`
when there is none, and without a conversion from `utf-8`, exactly when no set is listed, or the
first listed set that is `utf-8` or converts the string is not `utf-8`. -/
theorem string_validate_search (glib : Glib) {string : List UInt8} (codeset : List UInt8)
    (hstring : glib.utf8Validate string = false) :
  ∃ v, (∀ fuel, codeset.length < fuel →
      stringValidateCalls glib fuel string (some codeset) = some v)
    ∧ (v.FromOthers (glib.convert string) (charsets codeset)
      ↔ charsets codeset = [] ∨ OtherFirst (glib.convert string) (charsets codeset))
  := by
  refine ⟨validated (glib.convert string) (charsets codeset) none, ?_, ?_⟩
  · intro fuel hfuel
    apply stringValidateCalls_eq glib hstring hfuel
  · rw [validated_fromOthers_iff]
    simp

/-- GLib where one byte is not UTF-8, and is converted from one character set at most. -/
def oneByteGlib (cset : Option (List UInt8)) : Glib where
  utf8Validate string := string != [255]
  convert string name :=
    if string = [255] ∧ cset = some name then some (ascii "?") else none

/-- The search by two sets of which the second one converts the string. -/
theorem string_validate_search_latin :
  ∃ v, (∀ fuel, 10 < fuel → stringValidateCalls (oneByteGlib (some (ascii "latin1"))) fuel [255]
      (some (ascii "gbk;latin1")) = some v)
    ∧ v.FromOthers ((oneByteGlib (some (ascii "latin1"))).convert [255])
      (charsets (ascii "gbk;latin1"))
  := by
  obtain ⟨v, hrun, hiff⟩ :=
    string_validate_search (oneByteGlib (some (ascii "latin1"))) (ascii "gbk;latin1")
      (by decide : (oneByteGlib (some (ascii "latin1"))).utf8Validate [255] = false)
  refine ⟨v, hrun, hiff.mpr (Or.inr ⟨ascii "latin1", ?_, ?_⟩)⟩
  · decide +kernel
  · decide

/-- The search by `gbk` of a string that it does not convert, and one by two sets of which the
first is `utf-8`. -/
theorem string_validate_search_gbk :
  (∃ v, (∀ fuel, 3 < fuel →
      stringValidateCalls (oneByteGlib none) fuel [255] (some (ascii "gbk")) = some v)
    ∧ ¬ v.FromOthers ((oneByteGlib none).convert [255]) (charsets (ascii "gbk")))
    ∧ ∃ v, (∀ fuel, 9 < fuel →
      stringValidateCalls (oneByteGlib (some (ascii "gbk"))) fuel [255]
        (some (ascii "UTF-8,gbk")) = some v)
      ∧ ¬ v.FromOthers ((oneByteGlib (some (ascii "gbk"))).convert [255])
        (charsets (ascii "UTF-8,gbk"))
  := by
  constructor
  · refine ⟨validated ((oneByteGlib none).convert [255]) (charsets (ascii "gbk")) none, ?_, ?_⟩
    · intro fuel hfuel
      apply stringValidateCalls_eq _ (by decide) hfuel
    · intro h
      have hencode := h.encode
      revert hencode
      decide +kernel
  · refine ⟨validated ((oneByteGlib (some (ascii "gbk"))).convert [255])
      (charsets (ascii "UTF-8,gbk")) none, ?_, ?_⟩
    · intro fuel hfuel
      apply stringValidateCalls_eq _ (by decide) hfuel
    · intro h
      have hcalls := h.calls (ascii "UTF-8") (by decide +kernel)
      revert hcalls
      decide

end Peer

end IFreeChat
