import IFreeChat.Peer.UserBlock

/-!
# Keys

The cipher of a group message is initialized with the address that is stored of its sender,
which the entries of the sender have put there, and divides by the length of that key.

Along any datagrams, every key has a byte exactly when the last entry of every sender of a
group message has left it one (`run_keys_iff`): an entry takes the text between the second
and the third sharp of its version as the address, also where there is none.
-/

open Basis

namespace IFreeChat

namespace Peer

namespace Blocks

/-! ### Keys and entries -/

/-- The sender of a group message, where `on_buddy_sendgpmsg` comes to the cipher. -/
def keyUser (cfg : Config) (ulist : List UserBlock) (e : Receipt) : Except Fault (Option Nat) := do
  let msg ← e.msg
  if msg.command &&& 0xff ≠ CMD_GPMSG ∨ msg.username = cfg.username.text then .ok none
  else
    match ← findUser msg.ip ulist with
    | none => .ok none
    | some i => do
        let _ ← getGpmsgSize (msg.versionBlock e.beyond)
        .ok (some i)

/-- The key that `Initialize` is called with, if it is. -/
def initializeKey (cfg : Config) (ulist : List UserBlock) (e : Receipt) :
    Except Fault (Option (List UInt8)) := do
  match ← keyUser cfg ulist e with
  | none => .ok none
  | some i =>
      match ulist[i]? with
      | none => .error .readOutside
      | some b => do
          let key ← stringAt b.bytes b.macaddr
          .ok (some key)

/-- A call of `Initialize` has a key of at least one byte, and returns. -/
def KeyLong (cfg : Config) (ulist : List UserBlock) (e : Receipt) : Prop :=
  ∀ key, initializeKey cfg ulist e = .ok (some key) →
    1 ≤ key.length ∧ ∃ bf, Blowfish.createBlowFish key = .ok bf

/-- An entry leaves the user of a block a key: the address it has, unless the path of the
avatar, which is copied after it, reaches it. -/
def leavesKey (b : UserBlock) (user : User) : Bool :=
  if user.avatar.length < b.macaddr - b.avatar then user.macaddr ≠ []
  else user.avatar.length ≠ b.macaddr - b.avatar

/-- Whether the last entry of each user of a list has left it a key, after a datagram. -/
def recordKey (glib : Glib) (keyed : List Bool) (ulist : List UserBlock) (e : Receipt) :
    List Bool :=
  match e.entry glib with
  | none => keyed
  | some user =>
      match findUser e.ip.text ulist with
      | .error _ => keyed
      | .ok none => keyed ++ [decide (user.macaddr ≠ [])]
      | .ok (some i) => (ulist[i]?).elim keyed fun b => keyed.set i (leavesKey b user)

/-- The sender of a group message that comes to the cipher has a key from its last entry. -/
def KeyGiven (cfg : Config) (s : List UserBlock × List Bool) (e : Receipt) : Prop :=
  ∀ i, keyUser cfg s.1 e = .ok (some i) → s.2[i]? = some true

instance (cfg : Config) (s : List UserBlock × List Bool) (e : Receipt) :
    Decidable (KeyGiven cfg s e) :=
  match h : keyUser cfg s.1 e with
  | .error _ => .isTrue (by simp [KeyGiven, h])
  | .ok none => .isTrue (by simp [KeyGiven, h])
  | .ok (some i) => decidable_of_iff (s.2[i]? = some true) (by simp [KeyGiven, h])

/-- The machine that receives datagrams, with the record of the keys. -/
def keyMachine (glib : Glib) (cfg : Config) :
    Machine (List UserBlock × List Bool) Receipt (Option (List UInt8)) :=
  (machine glib cfg).withHistory (recordKey glib)

/-! ### The byte at the address -/

/-- The record of a key says whether the string at the address has a byte. -/
structure Keyed (b : UserBlock) (keyed : Bool) : Prop where
  avatar : b.avatar ≤ b.macaddr
  category : b.macaddr < b.category
  byte : ∃ c, b.bytes[b.macaddr]? = some c ∧ (keyed = true ↔ c ≠ 0)

/-- The bytes of a string are not zero before its terminator. -/
theorem byte_iff {s : List UInt8} {i : Nat} (hnul : 0 ∉ s) (hle : i ≤ s.length) :
  ∃ c, (s ++ [0])[i]? = some c ∧ (i ≠ s.length ↔ c ≠ 0)
  := by
  rcases Nat.lt_or_eq_of_le hle with hlt | rfl
  · refine ⟨s[i], ?_, ?_⟩
    · rw [List.getElem?_append_left hlt, List.getElem?_eq_getElem hlt]
    · have hne : s[i] ≠ 0 := fun h => hnul (h ▸ List.getElem_mem hlt)
      simp only [hne, ne_eq, not_false_eq_true, iff_true]
      omega
  · exact ⟨0, List.getElem?_concat_length, by simp⟩

/-- A string is empty exactly when its first byte is its terminator. -/
theorem first_byte_iff {s : List UInt8} (hnul : 0 ∉ s) :
  ∃ c, (s ++ [0])[0]? = some c ∧ (s ≠ [] ↔ c ≠ 0)
  := by
  obtain ⟨c, hc, hbyte⟩ := byte_iff hnul (Nat.zero_le s.length)
  refine ⟨c, hc, ?_⟩
  rw [← hbyte, ← List.length_pos_iff]
  omega

section

variable {b b' : UserBlock} {keyed : Bool} {user : User}

/-- The key of a block has a byte exactly when the record says so. -/
theorem Keyed.length_iff (h : Keyed b keyed) {key : List UInt8}
    (hkey : stringAt b.bytes b.macaddr = .ok key) :
  1 ≤ key.length ↔ keyed = true
  := by
  obtain ⟨c, hc, hkeyed⟩ := h.byte
  obtain ⟨hstring, hnul⟩ := stringAt_eq_ok_iff.mp hkey
  obtain ⟨c', hc', hbyte⟩ := first_byte_iff hnul
  have hfirst := hasString_iff.mp hstring 0 (Nat.succ_pos _)
  rw [Nat.add_zero, hc, hc', Option.some.injEq] at hfirst
  rw [hkeyed, hfirst, ← hbyte]
  apply List.length_pos_iff

/-- Without a key the string at the address is empty. -/
theorem Keyed.stringAt_eq (h : Keyed b false) :
  stringAt b.bytes b.macaddr = .ok []
  := by
  obtain ⟨c, hc, hkeyed⟩ := h.byte
  have hzero : c = 0 := by
    by_contra hne
    cases hkeyed.mpr hne
  rw [stringAt_eq_ok_iff, hasString_iff]
  refine ⟨?_, by simp⟩
  rintro i hi
  obtain rfl : i = 0 := Nat.lt_one_iff.mp hi
  rw [Nat.add_zero, hc, hzero]
  rfl

/-- An update leaves a key exactly when its entry does. -/
theorem Keyed.update (h : Keyed b keyed) (hupdate : b.update user = .ok b')
    (hmacaddr : 0 ∉ user.macaddr) (havatar : 0 ∉ user.avatar) :
  Keyed b' (leavesKey b user)
  := by
  obtain ⟨bytes₁, -, hupdate⟩ := bind_eq_ok.mp hupdate
  obtain ⟨bytes₂, -, hupdate⟩ := bind_eq_ok.mp hupdate
  obtain ⟨bytes₃, -, hupdate⟩ := bind_eq_ok.mp hupdate
  obtain ⟨bytes₄, hcopy₄, hupdate⟩ := bind_eq_ok.mp hupdate
  obtain ⟨bytes₅, hcopy₅, hupdate⟩ := bind_eq_ok.mp hupdate
  obtain ⟨bytes₆, hcopy₆, hupdate⟩ := bind_eq_ok.mp hupdate
  cases hupdate
  obtain ⟨hle, hlt, -⟩ := h
  refine ⟨hle, hlt, ?_⟩
  -- the address is copied first, then the category behind it and the avatar before it
  have h₄ := strcpy_getElem? hcopy₄ b.macaddr
  have h₅ := strcpy_getElem? hcopy₅ b.macaddr
  have h₆ := strcpy_getElem? hcopy₆ b.macaddr
  rw [if_pos (by omega), Nat.sub_self] at h₄
  rw [if_neg (by omega), h₄] at h₅
  rw [h₅] at h₆
  rw [leavesKey]
  split
  · rename_i hshort
    rw [if_neg (by omega)] at h₆
    obtain ⟨c, hc, hbyte⟩ := first_byte_iff hmacaddr
    refine ⟨c, h₆.trans hc, ?_⟩
    rw [← hbyte, decide_eq_true_eq]
  · rename_i hlong
    rw [if_pos (by omega)] at h₆
    obtain ⟨c, hc, hbyte⟩ := byte_iff havatar (Nat.le_of_not_lt hlong)
    refine ⟨c, h₆.trans hc, ?_⟩
    rw [← hbyte, decide_eq_true_eq, ne_comm]

/-- A new user has a key exactly when its address is not empty. -/
theorem newUser_keyed {junk : Nat → UInt8} (hnew : newUser junk user = .ok b)
    (hnul : user.NulFree) :
  Keyed b (decide (user.macaddr ≠ []))
  := by
  obtain ⟨b', hb', hordered, hread, -, hsignature, -⟩ := newUser_represents junk hnul
  rw [hnew] at hb'
  cases hb'
  have havatar := hordered.avatar
  have hipaddr := hordered.ipaddr
  have hmacaddr := hordered.macaddr
  have hslot := hordered.signature
  refine ⟨by omega, by omega, ?_⟩
  have hstring := (UserBlock.read_eq_ok_iff.mp hread).1 (b.macaddr, user.macaddr)
    (by simp [UserBlock.strings])
  obtain ⟨c, hc, hbyte⟩ := first_byte_iff hnul.macaddr
  have hfirst := hasString_iff.mp hstring 0 (Nat.succ_pos _)
  refine ⟨c, hfirst.trans hc, ?_⟩
  rw [← hbyte, decide_eq_true_eq]

end

/-! ### Runs -/

theorem findUser_lt {ip : List UInt8} {ulist : List UserBlock} {i : Nat}
    (h : findUser ip ulist = .ok (some i)) :
  i < ulist.length
  := by
  induction ulist generalizing i with
  | nil => cases h
  | cons b ulist ih =>
    obtain ⟨ipaddr, -, h⟩ := bind_eq_ok.mp h
    split at h
    · cases h
      apply Nat.succ_pos
    · obtain ⟨found, hfound, h⟩ := bind_eq_ok.mp h
      cases found with
      | none => cases h
      | some j =>
        cases h
        apply Nat.succ_lt_succ (ih hfound)

theorem keyUser_lt {cfg : Config} {ulist : List UserBlock} {e : Receipt} {i : Nat}
    (h : keyUser cfg ulist e = .ok (some i)) :
  i < ulist.length
  := by
  obtain ⟨msg, -, h⟩ := bind_eq_ok.mp h
  split at h
  · cases h
  · obtain ⟨found, hfound, h⟩ := bind_eq_ok.mp h
    cases found with
    | none => cases h
    | some j =>
      obtain ⟨size, -, h⟩ := bind_eq_ok.mp h
      cases h
      apply findUser_lt hfound

/-- Where an entry is taken, the search for its sender returns. -/
theorem findUser_of_entry {glib : Glib} {cfg : Config} {ulist : List UserBlock} {e : Receipt}
    {user : User} {r : List UserBlock × Option (List UInt8)} (hentry : e.entry glib = some user)
    (h : processEntry glib cfg ulist e = .ok r) :
  ∃ found, findUser e.ip.text ulist = .ok found
  := by
  obtain ⟨msg, hmsg, hcommand, hversion, huser⟩ := Receipt.entry_eq_some hentry
  obtain ⟨hip, -⟩ := parseMessage_strings hmsg
  rw [processEntry, hmsg] at h
  change (if isEntryCommand msg.command then _ else _) = _ at h
  rw [if_pos hcommand, onBuddyEntry, hversion, huser] at h
  obtain ⟨user', -, h⟩ := bind_eq_ok.mp h
  obtain ⟨found, hfound, -⟩ := bind_eq_ok.mp h
  rw [← hip]
  exact ⟨found, hfound⟩

/-- The record stays true. -/
theorem step_keyed {glib : Glib} (hglib : GivesStrings glib) {cfg : Config}
    {ulist ulist' : List UserBlock} {keyed : List Bool} {e : Receipt}
    {reply : Option (List UInt8)} (h : List.Forall₂ Keyed ulist keyed)
    (hstep : (machine glib cfg).step ulist e = some (reply, ulist')) :
  List.Forall₂ Keyed ulist' (recordKey glib keyed ulist e)
  := by
  rw [step_eq_some_iff] at hstep
  cases hentry : e.entry glib with
  | none =>
    obtain ⟨rfl, -⟩ := processEntry_of_none hentry hstep []
    rw [recordKey, hentry]
    exact h
  | some user =>
    obtain ⟨hnul, -⟩ := Receipt.entry_strings hglib hentry
    obtain ⟨found, hfound⟩ := findUser_of_entry hentry hstep
    obtain ⟨msg, -, hprocess⟩ := processEntry_of_entry cfg hentry hfound
    rw [hprocess] at hstep
    rw [recordKey, hentry]
    simp only [hfound]
    cases found with
    | none =>
      obtain ⟨b, hb, hstep⟩ := bind_eq_ok.mp hstep
      cases hstep
      apply List.rel_append h
      apply List.Forall₂.cons (newUser_keyed hb hnul) .nil
    | some i =>
      have hlt := findUser_lt hfound
      simp only [List.getElem?_eq_getElem hlt, Option.elim_some] at hstep ⊢
      obtain ⟨b', hupdate, hstep⟩ := bind_eq_ok.mp hstep
      cases hstep
      apply forall₂_set h
      have hlt' : i < keyed.length := by
        rw [← h.length_eq]
        exact hlt
      apply Keyed.update (h.get hlt hlt') hupdate hnul.macaddr hnul.avatar

/-- A key has a byte exactly when its user was left one. -/
theorem keyLong_iff {cfg : Config} {ulist : List UserBlock} {keyed : List Bool} {e : Receipt}
    (h : List.Forall₂ Keyed ulist keyed) :
  KeyLong cfg ulist e ↔ KeyGiven cfg (ulist, keyed) e
  := by
  have hlookup : ∀ {i}, keyUser cfg ulist e = .ok (some i) →
      ∃ b k, ulist[i]? = some b ∧ keyed[i]? = some k ∧ Keyed b k := by
    intro i hi
    have hlt := keyUser_lt hi
    have hlt' : i < keyed.length := by
      rw [← h.length_eq]
      exact hlt
    exact ⟨ulist[i], keyed[i], List.getElem?_eq_getElem hlt, List.getElem?_eq_getElem hlt',
      h.get hlt hlt'⟩
  constructor
  · intro hlong i hi
    obtain ⟨b, k, hb, hk, hkeyed⟩ := hlookup hi
    cases k with
    | true => exact hk
    | false =>
      have hkey : initializeKey cfg ulist e = .ok (some []) := by
        refine bind_eq_ok.mpr ⟨_, hi, ?_⟩
        simp only [hb, hkeyed.stringAt_eq]
        rfl
      cases (hlong [] hkey).1
  · intro hgiven key hkey
    obtain ⟨found, hi, hkey⟩ := bind_eq_ok.mp hkey
    cases found with
    | none => cases hkey
    | some i =>
      obtain ⟨b, k, hb, hk, hkeyed⟩ := hlookup hi
      have hk' := hgiven i hi
      rw [hk, Option.some.injEq] at hk'
      simp only [hb] at hkey
      obtain ⟨key', hstring, hkey⟩ := bind_eq_ok.mp hkey
      cases hkey
      have hlength := (hkeyed.length_iff hstring).mpr hk'
      use hlength
      rw [Blowfish.createBlowFish, if_neg (by omega)]
      exact ⟨_, rfl⟩

/-- Along any datagrams, every call of `Initialize` has a key of at least one byte exactly when
every sender of a group message has been left one by its last entry. -/
theorem run_keys_iff {glib : Glib} (hglib : GivesStrings glib) (cfg : Config)
    (es : List Receipt) :
  (machine glib cfg).Meets (KeyLong cfg) [] es
    ↔ (keyMachine glib cfg).Meets (KeyGiven cfg) ([], []) es
  := by
  have hiff : ∀ (s : List UserBlock × List Bool) (e : Receipt), List.Forall₂ Keyed s.1 s.2 →
      True → (KeyLong cfg s.1 e ↔ KeyGiven cfg s e) := by
    intro s e hs _
    apply keyLong_iff hs
  have hall : (keyMachine glib cfg).Meets (fun _ _ => True) ([], []) es :=
    (keyMachine glib cfg).meets_of_forall (fun _ _ => trivial) ([], []) es
  rw [← (machine glib cfg).meets_withHistory (recordKey glib) []]
  apply (keyMachine glib cfg).meets_iff hiff _ .nil hall
  rintro s e reply s' hs - - hstep
  obtain ⟨⟨reply', ulist'⟩, hstep', heq⟩ := Option.map_eq_some_iff.mp hstep
  cases heq
  apply step_keyed hglib hs hstep'

/-- An entry of a user with this address in its version. -/
def addressEntry (macaddr : List UInt8) : Receipt :=
  { sampleEntry [] with
    datagram := ascii "1_lbt4_1#128#" ++ macaddr ++ ascii "#0#0#0:1:u:h:257:n"
      ++ 0 :: ascii "g" }

/-- A group message of that user. -/
def sampleGpmsg : Receipt :=
  { sampleEntry [] with
    datagram := ascii "1_lbt4_1#128#a#0#0#16:2:u:h:4194339:0123456789abcdef" }

theorem run_keys_address :
  (machine asciiGlib configA).Meets (KeyLong configA) [] [addressEntry (ascii "a"), sampleGpmsg]
  := by
  apply (run_keys_iff asciiGlib_givesStrings configA _).mpr
  decide +kernel

/-- An address of no characters is taken as the key, and its length divides. -/
theorem emptyAddress_divides :
  ¬ (machine asciiGlib configA).Meets (KeyLong configA) [] [addressEntry [], sampleGpmsg]
  := by
  rintro ⟨-, hrest⟩
  obtain ⟨⟨reply, ulist⟩, hstep⟩ : ∃ r, (machine asciiGlib configA).step [] (addressEntry [])
      = some r := Option.isSome_iff_exists.mp (by decide +kernel)
  have hkey : ((machine asciiGlib configA).step [] (addressEntry [])).map
      (fun r => (initializeKey configA r.2 sampleGpmsg).toOption) = some (some (some [])) := by
    decide +kernel
  rw [hstep, Option.map_some, Option.some.injEq] at hkey
  obtain ⟨hlong, -⟩ := hrest reply ulist hstep
  cases hfound : initializeKey configA ulist sampleGpmsg with
  | error fault =>
    rw [hfound] at hkey
    cases hkey
  | ok key =>
    rw [hfound] at hkey
    cases hkey
    cases (hlong [] hfound).1

end Blocks

end Peer

end IFreeChat
