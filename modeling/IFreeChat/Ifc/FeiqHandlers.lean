import IFreeChat.Peer.Message

/-!
# FeiQ handlers

`feiqOnEntry` derives the avatar, the nickname and the category of an entry from the message
it was parsed into, and `feiqOnPchat` converts the text of a private message.  Each string is
read where it lies in the message and copied to its array; a copy to an offset may go up to
`limit offset`.  The pointers after the arrays keep the bytes they have.

An entry whose strings fit their arrays gets its names (`onEntry_arrays_iff`).
-/

open Basis

namespace IFreeChat

open Peer (Glib stringValidate)

namespace Feiq

/-! ### The code -/

/-- `offsetof(msg_t, nickname)`. -/
def offsetNickname : Nat := 172

/-- `offsetof(msg_t, avatar)`. -/
def offsetAvatar : Nat := 204

/-- `offsetof(msg_t, category)`. -/
def offsetCategory : Nat := 268

/-- The string at an offset of a message, which the code must find the end of. -/
def Msg.cString (msg : Msg) (offset : Nat) : Except Fault (List UInt8) := do
  let (s, _) ← Basis.cString (msg.bytes.read offset (sizeofMsg - offset))
  .ok s

/-- `strcpy` between two offsets of a message, which must not lie on top of each other. -/
def Msg.strcpyFrom (limit : Nat → Nat) (msg : Msg) (dest src : Nat) : Except Fault Msg := do
  let s ← msg.cString src
  if Apart dest (s.length + 1) src (s.length + 1) then msg.strcpyIn limit dest s
  else .error .writeOutside

/-- The path of an avatar. -/
def avatarPath (avatarId : Nat) : List UInt8 :=
  if avatarId = 0 then ascii "../pixmaps/avatar/default.png"
  else ascii "../pixmaps/avatar/" ++ numeral 10 avatarId ++ ascii ".bmp"

/-- The avatar of `feiq_on_entry`. -/
def onEntryAvatar (limit : Nat → Nat) (msg : Msg) : Except Fault Msg := do
  let version ← msg.cString offsetVersion
  let avatarId ← getAvatarIdFromVersion version
  let msg := { msg with avatarId := toUnsigned 16 avatarId }
  msg.strcpyIn limit offsetAvatar (avatarPath msg.avatarId)

/-- The nickname and the category of `feiq_on_entry`. -/
def onEntryNames (limit : Nat → Nat) (msg : Msg) : Except Fault Msg := do
  let data ← msg.cString offsetData
  let p := offsetData + (data.length + 1)
  let msg ← msg.strcpyFrom limit offsetNickname (if data = [] then offsetUsername else offsetData)
  let category ← msg.cString p
  if category = [] then msg.strcpyIn limit offsetCategory (ascii "no group")
  else msg.strcpyFrom limit offsetCategory p

/-- `string_validate` on a string of a message, with the conversion copied over it. -/
def onEntryValidate (glib : Glib) (limit : Nat → Nat) (msg : Msg) (offset : Nat) :
    Except Fault Msg := do
  let string ← msg.cString offset
  match stringValidate glib string (ascii "GBK") with
  | none => .ok msg
  | some p => msg.strcpyIn limit offset p

/-- `feiq_on_entry`. -/
def feiqOnEntry (glib : Glib) (limit : Nat → Nat) (msg : Msg) : Except Fault Msg := do
  let msg ← onEntryAvatar limit msg
  let msg ← onEntryNames limit msg
  let msg ← onEntryValidate glib limit msg offsetNickname
  onEntryValidate glib limit msg offsetCategory

/-- `feiq_on_pchat`.  The terminator of the conversion is not copied. -/
def feiqOnPchat (glib : Glib) (limit : Nat → Nat) (msg : Msg) : Except Fault Msg := do
  let string ← msg.cString offsetData
  match stringValidate glib string (ascii "GBK") with
  | none => .ok msg
  | some plain => do
      let msg ← msg.storeIn limit offsetData plain
      .ok { msg with dataSize := plain.length }

/-! ### Strings of a message -/

/-- The message has the string `s` at an offset. -/
structure Msg.HasString (msg : Msg) (offset : Nat) (s : List UInt8) : Prop where
  nul : 0 ∉ s
  lt : offset + s.length < sizeofMsg
  read : msg.bytes.read offset (s.length + 1) = s ++ [0]

/-- Where a string lies in the bytes of a message from its offset on. -/
theorem hasString_iff {msg : Msg} {offset : Nat} {s : List UInt8} :
  msg.HasString offset s
    ↔ ∃ rest, Basis.cString (msg.bytes.read offset (sizeofMsg - offset)) = .ok (s, rest)
  := by
  constructor
  · rintro ⟨hnul, hlt, hread⟩
    have hlength : sizeofMsg - offset = s.length + 1 + (sizeofMsg - offset - (s.length + 1)) := by
      omega
    rw [hlength, Memory.read_append, hread, List.append_assoc]
    exact ⟨_, cString_append hnul⟩
  · rintro ⟨rest, h⟩
    obtain ⟨heq, hnul⟩ := Basis.cString_eq_ok_iff.mp h
    have hlength := congrArg List.length heq
    rw [Memory.read_length, List.length_append, List.length_cons] at hlength
    refine ⟨hnul, by omega, ?_⟩
    rw [hlength, ← Nat.add_assoc, Nat.add_right_comm, Memory.read_append, List.append_cons s] at heq
    apply List.append_inj_left heq
    simp

theorem cString_eq_ok_iff {msg : Msg} {offset : Nat} {s : List UInt8} :
  msg.cString offset = .ok s ↔ msg.HasString offset s
  := by
  rw [hasString_iff, Msg.cString, bind_eq_ok]
  constructor
  · rintro ⟨⟨s', rest⟩, h, heq⟩
    cases heq
    use rest, h
  · rintro ⟨rest, h⟩
    exact ⟨(s, rest), h, rfl⟩

/-- A copied string is there. -/
theorem hasString_write {msg : Msg} {offset : Nat} {s : List UInt8} (hnul : 0 ∉ s)
    (hlt : offset + s.length < sizeofMsg) :
  { msg with bytes := msg.bytes.write offset (s ++ [0]) }.HasString offset s
  where
  nul := hnul
  lt := hlt
  read := by
    have h := Memory.read_write_self msg.bytes offset (s ++ [0])
    rw [List.length_append, List.length_singleton] at h
    apply h

/-- Bytes that are written elsewhere leave a string alone. -/
theorem hasString_write_iff {msg msg' : Msg} {offset dest : Nat} {s bytes : List UInt8}
    (hbytes : msg'.bytes = msg.bytes.write dest bytes)
    (hapart : Apart dest bytes.length offset (s.length + 1)) :
  msg'.HasString offset s ↔ msg.HasString offset s
  := by
  have hread := @Memory.read_write_of_apart msg.bytes _ _ _ _ hapart
  rw [← hbytes] at hread
  constructor
  · rintro ⟨hnul, hlt, h⟩
    exact ⟨hnul, hlt, hread ▸ h⟩
  · rintro ⟨hnul, hlt, h⟩
    exact ⟨hnul, hlt, hread.trans h⟩

/-- See `hasString_write_iff`. -/
theorem Msg.HasString.write {msg : Msg} {offset : Nat} {s : List UInt8} (h : msg.HasString offset s)
    {dest : Nat} {bytes : List UInt8} (hapart : Apart dest bytes.length offset (s.length + 1)) :
  { msg with bytes := msg.bytes.write dest bytes }.HasString offset s
  := (hasString_write_iff rfl hapart).mpr h

/-! ### Copies -/

theorem arrays_nickname : arrays offsetNickname = offsetNickname + 32 := rfl

theorem arrays_avatar : arrays offsetAvatar = offsetAvatar + 64 := rfl

theorem arrays_category : arrays offsetCategory = offsetCategory + 32 := rfl

theorem arrays_le_block (offset : Nat) :
  arrays offset ≤ block offset
  := by
  have hall : ∀ e ∈ [60, 92, 108, 140, 172, 204, 268, 300, 1324], e ≤ sizeofMsg := by decide
  rw [arrays, block]
  cases hfind : [60, 92, 108, 140, 172, 204, 268, 300, 1324].find? fun e => offset < e with
  | none => simp
  | some e => apply hall e (List.mem_of_find?_eq_some hfind)

section

variable {limit : Nat → Nat} {msg msg' : Msg} {s : List UInt8}

/-- A string of the message is copied to where there is room for it. -/
theorem strcpyFrom_of_hasString {dest src : Nat} (h : msg.HasString src s)
    (hapart : Apart dest (s.length + 1) src (s.length + 1)) (hlt : dest + s.length < limit dest) :
  msg.strcpyFrom limit dest src
    = .ok { msg with bytes := msg.bytes.write dest (s ++ [0]) }
  := by
  refine bind_eq_ok.mpr ⟨s, cString_eq_ok_iff.mpr h, ?_⟩
  rw [if_pos hapart, strcpyIn_eq_ok_iff]
  exact ⟨hlt, rfl⟩

theorem strcpyFrom_eq_ok {dest src : Nat} (h : msg.strcpyFrom limit dest src = .ok msg') :
  ∃ s, msg.HasString src s ∧ dest + s.length < limit dest
    ∧ msg' = { msg with bytes := msg.bytes.write dest (s ++ [0]) }
  := by
  obtain ⟨s, hstring, h⟩ := bind_eq_ok.mp h
  split at h
  · obtain ⟨hlt, rfl⟩ := strcpyIn_eq_ok_iff.mp h
    exact ⟨s, cString_eq_ok_iff.mp hstring, hlt, rfl⟩
  · cases h

theorem Msg.HasString.unique {offset : Nat} {t : List UInt8} (hs : msg.HasString offset s)
    (ht : msg.HasString offset t) :
  s = t
  := by
  have h := cString_eq_ok_iff.mpr hs
  rw [cString_eq_ok_iff.mpr ht] at h
  cases h
  rfl

end

/-! ### Entries -/

theorem avatarPath_length_lt {avatarId : Nat} (h : avatarId < 2 ^ 16) :
  (avatarPath avatarId).length < 64
  := by
  rw [avatarPath]
  split
  · decide
  · have hnumeral : (numeral 10 avatarId).length ≤ 5 := by
      apply numeral_length_le (by decide) (by decide)
      omega
    have htexts : (ascii "../pixmaps/avatar/").length = 18 ∧ (ascii ".bmp").length = 4 := by
      decide
    obtain ⟨h₁, h₂⟩ := htexts
    simp only [List.length_append, h₁, h₂]
    omega

theorem toUnsigned_lt (w : Nat) (n : Int) :
  toUnsigned w n < 2 ^ w
  := by
  have hpos : (0 : Int) < 2 ^ w := by positivity
  have hlt := Int.emod_lt_of_pos n hpos
  have hnonneg := Int.emod_nonneg n (Int.ne_of_gt hpos)
  rw [toUnsigned]
  zify
  rw [Int.toNat_of_nonneg hnonneg]
  apply hlt

/-- The avatar is always found and always fits. -/
theorem onEntryAvatar_eq {limit : Nat → Nat} (hlimit : arrays offsetAvatar ≤ limit offsetAvatar)
    {msg : Msg} {version : List UInt8} {avatarId : Int} (h : msg.HasString offsetVersion version)
    (havatar : getAvatarIdFromVersion version = .ok avatarId) :
  onEntryAvatar limit msg = .ok { msg with
    avatarId := toUnsigned 16 avatarId
    bytes := msg.bytes.write offsetAvatar (avatarPath (toUnsigned 16 avatarId) ++ [0]) }
  := by
  have hlength := avatarPath_length_lt (toUnsigned_lt 16 avatarId)
  rw [arrays_avatar] at hlimit
  refine bind_eq_ok.mpr ⟨version, cString_eq_ok_iff.mpr h, ?_⟩
  refine bind_eq_ok.mpr ⟨avatarId, havatar, ?_⟩
  apply strcpyIn_eq_ok_iff.mpr ⟨?_, rfl⟩
  simp only
  omega

/-- The nickname of an entry with these strings. -/
def entryNickname (username data : List UInt8) : List UInt8 :=
  if data = [] then username else data

/-- The category of an entry with this string after the first one of its data. -/
def entryCategory (category : List UInt8) : List UInt8 :=
  if category = [] then ascii "no group" else category

/-- What `string_validate` makes of a string. -/
def converted (glib : Glib) (string : List UInt8) : List UInt8 :=
  (stringValidate glib string (ascii "GBK")).getD string

/-- The names an entry gets fit their arrays, before the conversion and after it. -/
structure NamesFit (glib : Glib) (username data category : List UInt8) : Prop where
  nickname_lt : (entryNickname username data).length < 32
  category_lt : (entryCategory category).length < 32
  nickname_converted : (converted glib (entryNickname username data)).length < 32
  category_converted : (converted glib (entryCategory category)).length < 32

section

variable {glib : Glib} {limit : Nat → Nat} (hlimit : ∀ offset, arrays offset ≤ limit offset)
  {msg : Msg} {username data category : List UInt8}
  (husername : msg.HasString offsetUsername username)
  (hdata : msg.HasString offsetData data)
  (hcategory : msg.HasString (offsetData + (data.length + 1)) category)

include husername hdata in
theorem entryNickname_hasString :
  msg.HasString (if data = [] then offsetUsername else offsetData) (entryNickname username data)
  := by
  rw [entryNickname]
  split
  · apply husername
  · apply hdata

theorem entryCategory_nul {category : List UInt8} (h : 0 ∉ category) :
  0 ∉ entryCategory category
  := by
  rw [entryCategory]
  split
  · decide
  · apply h

include hlimit husername hdata hcategory

/-- Names that fit are copied to their arrays. -/
theorem onEntryNames_eq (hnickname : (entryNickname username data).length < 32)
    (hcategory_length : (entryCategory category).length < 32) :
  onEntryNames limit msg = .ok { msg with
    bytes := (msg.bytes.write offsetNickname (entryNickname username data ++ [0])).write
      offsetCategory (entryCategory category ++ [0]) }
  := by
  have hnickname_limit := hlimit offsetNickname
  have hcategory_limit := hlimit offsetCategory
  rw [arrays_nickname] at hnickname_limit
  rw [arrays_category] at hcategory_limit
  have hsource := entryNickname_hasString husername hdata
  have hkept : { msg with
      bytes := msg.bytes.write offsetNickname (entryNickname username data ++ [0]) }.HasString
        (offsetData + (data.length + 1)) category := by
    apply hcategory.write
    left
    simp only [List.length_append, List.length_singleton, offsetNickname, offsetData]
    omega
  refine bind_eq_ok.mpr ⟨data, cString_eq_ok_iff.mpr hdata, ?_⟩
  refine bind_eq_ok.mpr ⟨_, strcpyFrom_of_hasString hsource ?_ (by omega), ?_⟩
  · by_cases hempty : data = []
    · right
      rw [entryNickname, if_pos hempty] at hnickname
      simp only [entryNickname, if_pos hempty, offsetUsername, offsetNickname]
      omega
    · left
      rw [entryNickname, if_neg hempty] at hnickname
      simp only [entryNickname, if_neg hempty, offsetData, offsetNickname]
      omega
  · refine bind_eq_ok.mpr ⟨category, cString_eq_ok_iff.mpr hkept, ?_⟩
    rw [entryCategory] at hcategory_length ⊢
    split
    · rename_i hempty
      rw [if_pos hempty] at hcategory_length
      apply strcpyIn_eq_ok_iff.mpr ⟨by omega, rfl⟩
    · rename_i hempty
      rw [if_neg hempty] at hcategory_length
      apply strcpyFrom_of_hasString hkept
      · left
        simp only [offsetCategory, offsetData]
        omega
      · omega

/-- Names that fit are there then. -/
theorem onEntryNames_spec (hnickname : (entryNickname username data).length < 32)
    (hcategory_length : (entryCategory category).length < 32) :
  ∃ msg', onEntryNames limit msg = .ok msg'
    ∧ msg'.HasString offsetNickname (entryNickname username data)
    ∧ msg'.HasString offsetCategory (entryCategory category)
  := by
  have hnul := (entryNickname_hasString husername hdata).nul
  refine ⟨_, onEntryNames_eq hlimit husername hdata hcategory hnickname hcategory_length, ?_, ?_⟩
  · have hlt : offsetNickname + (entryNickname username data).length < sizeofMsg := by
      simp only [offsetNickname, sizeofMsg]
      omega
    apply (@hasString_write msg _ _ hnul hlt).write
    right
    simp only [offsetNickname, offsetCategory]
    omega
  · have hlt : offsetCategory + (entryCategory category).length < sizeofMsg := by
      simp only [offsetCategory, sizeofMsg]
      omega
    apply @hasString_write { msg with
      bytes := msg.bytes.write offsetNickname (entryNickname username data ++ [0]) } _ _
      (entryCategory_nul hcategory.nul) hlt

end

section

variable {glib : Glib} {limit : Nat → Nat} {msg msg' : Msg} {offset : Nat} {s : List UInt8}

/-- A conversion that fits is copied over its string, and leaves the strings elsewhere alone. -/
theorem onEntryValidate_of_fits (h : msg.HasString offset s)
    (hlt : offset + (converted glib s).length < limit offset) :
  ∃ msg', onEntryValidate glib limit msg offset = .ok msg'
    ∧ (stringValidate glib s (ascii "GBK") = none → msg' = msg)
    ∧ ∀ offset' t, Apart offset ((converted glib s).length + 1) offset' (t.length + 1) →
      msg.HasString offset' t → msg'.HasString offset' t
  := by
  cases hvalidate : stringValidate glib s (ascii "GBK") with
  | none =>
    refine ⟨msg, bind_eq_ok.mpr ⟨s, cString_eq_ok_iff.mpr h, ?_⟩, fun _ => rfl, fun _ _ _ h => h⟩
    rw [hvalidate]
  | some p =>
    have hconverted : converted glib s = p := by rw [converted, hvalidate, Option.getD_some]
    rw [hconverted] at hlt ⊢
    refine ⟨{ msg with bytes := msg.bytes.write offset (p ++ [0]) },
      bind_eq_ok.mpr ⟨s, cString_eq_ok_iff.mpr h, ?_⟩, ?_, ?_⟩
    · rw [hvalidate]
      apply strcpyIn_eq_ok_iff.mpr ⟨hlt, rfl⟩
    · rintro ⟨⟩
    · intro offset' t hapart ht
      apply ht.write
      rw [List.length_append, List.length_singleton]
      apply hapart

/-- A conversion that is made fits. -/
theorem converted_fits (h : msg.HasString offset s) (hlt : offset + s.length < limit offset)
    (hok : onEntryValidate glib limit msg offset = .ok msg') :
  offset + (converted glib s).length < limit offset
  := by
  obtain ⟨s', hs, hok⟩ := bind_eq_ok.mp hok
  cases h.unique (cString_eq_ok_iff.mp hs)
  rw [converted]
  split at hok
  · rename_i hvalidate
    rw [hvalidate]
    apply hlt
  · rename_i p hvalidate
    rw [hvalidate]
    apply (strcpyIn_eq_ok_iff.mp hok).1

/-- The conversions of both names fit their arrays where they are made one after the other. -/
theorem converted_names_fit {msg₃ msg₄ : Msg} {nickname category : List UInt8}
    (hnickname : msg.HasString offsetNickname nickname)
    (hcategory : msg.HasString offsetCategory category)
    (hnickname_lt : nickname.length < 32) (hcategory_lt : category.length < 32)
    (h : onEntryValidate glib arrays msg offsetNickname = .ok msg₃)
    (h' : onEntryValidate glib arrays msg₃ offsetCategory = .ok msg₄) :
  (converted glib nickname).length < 32 ∧ (converted glib category).length < 32
  := by
  have hnickname' := converted_fits hnickname (by rw [arrays_nickname]; omega) h
  obtain ⟨_, hvalidate, -, hkept⟩ := onEntryValidate_of_fits hnickname hnickname'
  rw [h] at hvalidate
  cases hvalidate
  rw [arrays_nickname] at hnickname'
  have hcategory₃ : msg₃.HasString offsetCategory category := by
    apply hkept _ _ ?_ hcategory
    left
    simp only [offsetNickname, offsetCategory]
    omega
  have hcategory' := converted_fits hcategory₃ (by rw [arrays_category]; omega) h'
  rw [arrays_category] at hcategory'
  constructor
  · omega
  · omega

/-- The names that are copied to their arrays fit them. -/
theorem names_of_onEntryNames {username : List UInt8}
    (husername : msg.HasString offsetUsername username)
    (h : onEntryNames arrays msg = .ok msg') :
  ∃ data category, msg.HasString offsetData data
    ∧ msg.HasString (offsetData + (data.length + 1)) category
    ∧ (entryNickname username data).length < 32 ∧ (entryCategory category).length < 32
  := by
  obtain ⟨data, hdata, h⟩ := bind_eq_ok.mp h
  rw [cString_eq_ok_iff] at hdata
  -- the nickname
  obtain ⟨msg₁, hnickname, h⟩ := bind_eq_ok.mp h
  obtain ⟨nickname, hsource, hnickname_lt, rfl⟩ := strcpyFrom_eq_ok hnickname
  cases hsource.unique (entryNickname_hasString husername hdata)
  rw [arrays_nickname] at hnickname_lt
  -- the category
  obtain ⟨category, hcategory, h⟩ := bind_eq_ok.mp h
  rw [cString_eq_ok_iff] at hcategory
  refine ⟨data, category, hdata, ?_, by omega, ?_⟩
  · apply (hasString_write_iff rfl ?_).mp hcategory
    left
    simp only [List.length_append, List.length_singleton, offsetNickname, offsetData]
    omega
  · rw [entryCategory]
    split at h
    · rename_i hempty
      rw [if_pos hempty]
      decide
    · rename_i hempty
      obtain ⟨category', hsource', hlt', -⟩ := strcpyFrom_eq_ok h
      cases hsource'.unique hcategory
      rw [arrays_category] at hlt'
      rw [if_neg hempty]
      omega

end

section

variable {glib : Glib} {limit : Nat → Nat} {msg : Msg} {version username data category : List UInt8}
  (hversion : msg.HasString offsetVersion version)
  (husername : msg.HasString offsetUsername username) (hlt : username.length < 32)

include hversion

/-- The avatar leaves the username and the strings in the data alone. -/
theorem onEntryAvatar_spec (hlimit : arrays offsetAvatar ≤ limit offsetAvatar) :
  ∃ msg', onEntryAvatar limit msg = .ok msg'
    ∧ (∀ s, s.length < 32 → (msg'.HasString offsetUsername s ↔ msg.HasString offsetUsername s))
    ∧ ∀ k s, msg'.HasString (offsetData + k) s ↔ msg.HasString (offsetData + k) s
  := by
  obtain ⟨avatarId, havatar, -⟩ := getAvatarId_total version
  have hlength := avatarPath_length_lt (toUnsigned_lt 16 avatarId)
  refine ⟨_, onEntryAvatar_eq hlimit hversion havatar, ?_, ?_⟩
  · intro s hs
    apply hasString_write_iff rfl
    right
    simp only [offsetUsername, offsetAvatar]
    omega
  · intro k s
    apply hasString_write_iff rfl
    left
    simp only [List.length_append, List.length_singleton, offsetData, offsetAvatar]
    omega

include husername hlt

/-- An entry whose names fit gets them, where there is room for the arrays. -/
theorem onEntry_of_fits (hlimit : ∀ offset, arrays offset ≤ limit offset)
    (hdata : msg.HasString offsetData data)
    (hcategory : msg.HasString (offsetData + (data.length + 1)) category)
    (hfit : NamesFit glib username data category) :
  ∃ msg', feiqOnEntry glib limit msg = .ok msg'
    ∧ (stringValidate glib (entryNickname username data) (ascii "GBK") = none →
      stringValidate glib (entryCategory category) (ascii "GBK") = none →
      msg'.HasString offsetNickname (entryNickname username data)
        ∧ msg'.HasString offsetCategory (entryCategory category))
  := by
  obtain ⟨hnickname, hcategory_lt, hnickname', hcategory'⟩ := hfit
  have hnickname_limit := hlimit offsetNickname
  have hcategory_limit := hlimit offsetCategory
  rw [arrays_nickname] at hnickname_limit
  rw [arrays_category] at hcategory_limit
  -- the avatar
  obtain ⟨msg₁, havatar, husername_iff, hdata_iff⟩ :=
    onEntryAvatar_spec hversion (hlimit offsetAvatar)
  -- the names
  obtain ⟨msg₂, hnames, hnickname₂, hcategory₂⟩ := onEntryNames_spec hlimit
    ((husername_iff _ hlt).mpr husername) ((hdata_iff 0 _).mpr hdata)
    ((hdata_iff _ _).mpr hcategory) hnickname hcategory_lt
  -- their conversions
  obtain ⟨msg₃, hvalidate, hsame, hkept₃⟩ := @onEntryValidate_of_fits glib limit _ _ _
    hnickname₂ (by omega)
  have hcategory₃ : msg₃.HasString offsetCategory (entryCategory category) := by
    apply hkept₃ _ _ ?_ hcategory₂
    left
    simp only [offsetNickname, offsetCategory]
    omega
  obtain ⟨msg₄, hvalidate', hsame', -⟩ := @onEntryValidate_of_fits glib limit _ _ _
    hcategory₃ (by omega)
  refine ⟨msg₄, ?_, ?_⟩
  · refine bind_eq_ok.mpr ⟨msg₁, havatar, ?_⟩
    refine bind_eq_ok.mpr ⟨msg₂, hnames, ?_⟩
    refine bind_eq_ok.mpr ⟨msg₃, hvalidate, hvalidate'⟩
  · intro hnone hnone'
    rw [hsame' hnone', hsame hnone]
    exact ⟨hnickname₂, hcategory₂⟩

/-- An entry gets names in their arrays exactly when these fit. -/
theorem onEntry_arrays_iff :
  (∃ msg', feiqOnEntry glib arrays msg = .ok msg')
    ↔ ∃ data category, msg.HasString offsetData data
      ∧ msg.HasString (offsetData + (data.length + 1)) category
      ∧ NamesFit glib username data category
  := by
  constructor
  · rintro ⟨msg', h⟩
    obtain ⟨msg₁, havatar, h⟩ := bind_eq_ok.mp h
    obtain ⟨msg₂, hnames, h⟩ := bind_eq_ok.mp h
    obtain ⟨msg₃, hvalidate, hvalidate'⟩ := bind_eq_ok.mp h
    obtain ⟨_, havatar', husername_iff, hdata_iff⟩ :=
      onEntryAvatar_spec hversion (Nat.le_refl (arrays offsetAvatar))
    rw [havatar] at havatar'
    cases havatar'
    have husername₁ := (husername_iff _ hlt).mpr husername
    obtain ⟨data, category, hdata, hcategory, hnickname_lt, hcategory_lt⟩ :=
      names_of_onEntryNames husername₁ hnames
    obtain ⟨_, hnames', hnickname₂, hcategory₂⟩ := onEntryNames_spec
      (fun offset => Nat.le_refl (arrays offset)) husername₁ hdata hcategory hnickname_lt
      hcategory_lt
    rw [hnames] at hnames'
    cases hnames'
    obtain ⟨hnickname', hcategory'⟩ := converted_names_fit hnickname₂ hcategory₂ hnickname_lt
      hcategory_lt hvalidate hvalidate'
    exact ⟨data, category, (hdata_iff 0 _).mp hdata, (hdata_iff _ _).mp hcategory, hnickname_lt,
      hcategory_lt, hnickname', hcategory'⟩
  · rintro ⟨data, category, hdata, hcategory, hfit⟩
    obtain ⟨msg', h, -⟩ := onEntry_of_fits hversion husername hlt
      (fun offset => Nat.le_refl (arrays offset)) hdata hcategory hfit
    exact ⟨msg', h⟩

end

end Feiq

end IFreeChat
