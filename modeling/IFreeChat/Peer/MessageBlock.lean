import IFreeChat.Basis.Packed
import IFreeChat.Peer.Message

/-!
# The block of a message

`parse_message` packs the pieces of a datagram into one block, whose size it knows from that
of the datagram.  The block holds the strings `parseMessage` takes from the datagram
(`packMessage_eq_ok_iff`).

It does so for every datagram with five colons before any terminator, and for no other: where
a colon is missing the code does not return `NULL`, but follows the `NULL` of `strchr`
(`pack_exact_iff`).
-/

open Basis

namespace IFreeChat

open Feiq (colon IsField)

namespace Peer

/-- The pointers of a `msg_t` into its block, as offsets in the bytes after it. -/
structure MessageBlock where
  ip : Nat
  version : Nat
  packetNo : Nat
  username : Nat
  hostname : Nat
  cmd : Nat
  data : Nat
  bytes : List UInt8

/-- One piece of `parse_message`: the string up to the next colon of `p`, copied to `base`.
What comes next are the new `base` and `p`. -/
def packPiece (bytes : List UInt8) (base : Nat) (p : List UInt8) :
    Except Fault (Nat × List UInt8 × List UInt8) := do
  let (s, q) ← search colon p
  let bytes ← strcpy bytes base s
  .ok (base + (1 + s.length), bytes, q)

/-- `parse_message`, on the bytes of memory from `data` on and the answer of `malloc`. -/
def packMessage (malloced : Bool) (data : List UInt8) (size : Nat) :
    Except Fault (Option MessageBlock) :=
  if malloced then do
    let ip := 0
    let version := ip + 20
    let (packetNo, bytes, p) ← packPiece (List.replicate (20 + (1 + size)) 0) version data
    let (username, bytes, p) ← packPiece bytes packetNo p
    let (hostname, bytes, p) ← packPiece bytes username p
    let (cmd, bytes, p) ← packPiece bytes hostname p
    let (base, bytes, p) ← packPiece bytes cmd p
    let header := data.length - p.length
    if size < header then .error .sizeWraps
    else do
      let bytes ← memcpy bytes base p (size - header)
      .ok (some { ip, version, packetNo, username, hostname, cmd, data := base, bytes })
  else .ok none

/-! ### The strings in the block -/

/-- The block that holds the strings of a message. -/
def blockOf (msg : Msg) : MessageBlock :=
  let version := 20
  let packetNo := version + (1 + msg.version.length)
  let username := packetNo + (1 + msg.packetNo.length)
  let hostname := username + (1 + msg.username.length)
  let cmd := hostname + (1 + msg.hostname.length)
  { ip := 0, version, packetNo, username, hostname, cmd
    data := cmd + (1 + msg.cmd.length)
    bytes := List.replicate 20 0 ++ msg.versionBlock [] }

/-- A piece is packed where the zeros of the block begin. -/
theorem packPiece_zeros {done p s q : List UInt8} {base k : Nat} (hbase : done.length = base)
    (hsearch : search colon p = .ok (s, q)) (h : s.length < k) :
  packPiece (done ++ List.replicate k 0) base p
    = .ok (base + (1 + s.length), (done ++ (s ++ [0])) ++ List.replicate (k - (s.length + 1)) 0, q)
  := by
  refine bind_eq_ok.mpr ⟨_, hsearch, ?_⟩
  subst hbase
  refine bind_eq_ok.mpr ⟨_, strcpy_zeros h, ?_⟩
  simp

/-- A search leaves the bytes after its colon. -/
theorem search_length {p s q : List UInt8} (h : search colon p = .ok (s, q)) :
  p.length = s.length + 1 + q.length
  := by
  obtain ⟨rfl, -, -⟩ := search_eq_ok_iff.mp h
  simp only [List.length_append, List.length_cons]
  omega

/-- The block has the strings that are taken from the datagram. -/
theorem packMessage_of_parse {data : List UInt8} {size : Nat} {ip : List UInt8} {port : UInt16}
    {msg : Msg} (h : parseMessage ip port data size = .ok msg) (hle : size ≤ data.length)
    (hlt : data.length ≤ size + 1) :
  packMessage true data size = .ok (some (blockOf msg))
  := by
  obtain ⟨⟨version, p₁⟩, hversion, h⟩ := bind_eq_ok.mp h
  obtain ⟨⟨packetNo, p₂⟩, hpacketNo, h⟩ := bind_eq_ok.mp h
  obtain ⟨⟨username, p₃⟩, husername, h⟩ := bind_eq_ok.mp h
  obtain ⟨⟨hostname, p₄⟩, hhostname, h⟩ := bind_eq_ok.mp h
  obtain ⟨⟨cmd, p₅⟩, hcmd, h⟩ := bind_eq_ok.mp h
  have h₁ := search_length hversion
  have h₂ := search_length hpacketNo
  have h₃ := search_length husername
  have h₄ := search_length hhostname
  have h₅ := search_length hcmd
  simp only at hpacketNo husername hhostname hcmd h
  split at h
  · cases h
  · rename_i hsize
    cases h
    have hzeros : List.replicate (20 + (1 + size)) (0 : UInt8)
        = List.replicate 20 0 ++ List.replicate (1 + size) 0 := List.replicate_add ..
    rw [packMessage, if_pos rfl, hzeros]
    refine bind_eq_ok.mpr ⟨_, packPiece_zeros rfl hversion (by omega), ?_⟩
    refine bind_eq_ok.mpr ⟨_, packPiece_zeros (by simp; omega) hpacketNo (by omega), ?_⟩
    refine bind_eq_ok.mpr ⟨_, packPiece_zeros (by simp; omega) husername (by omega), ?_⟩
    refine bind_eq_ok.mpr ⟨_, packPiece_zeros (by simp; omega) hhostname (by omega), ?_⟩
    refine bind_eq_ok.mpr ⟨_, packPiece_zeros (by simp; omega) hcmd (by omega), ?_⟩
    simp only
    rw [if_neg hsize]
    refine bind_eq_ok.mpr ⟨_, memcpy_zeros (by simp; omega) (by omega) (by omega), ?_⟩
    have hlast : 1 + size - (version.length + 1) - (packetNo.length + 1) - (username.length + 1)
        - (hostname.length + 1) - (cmd.length + 1) - (size - (data.length - p₅.length)) = 1 := by
      omega
    rw [hlast]
    simp [blockOf, Msg.versionBlock]

theorem packPiece_search {bytes bytes' p q : List UInt8} {base base' : Nat}
    (h : packPiece bytes base p = .ok (base', bytes', q)) :
  ∃ s, search colon p = .ok (s, q)
  := by
  obtain ⟨⟨s, q'⟩, hsearch, h⟩ := bind_eq_ok.mp h
  obtain ⟨bytes'', -, h⟩ := bind_eq_ok.mp h
  cases h
  exact ⟨s, hsearch⟩

/-- Packing succeeds exactly where `parseMessage` does, with its strings. -/
theorem packMessage_eq_ok_iff {data : List UInt8} {size : Nat} (ip : List UInt8) (port : UInt16)
    (hle : size ≤ data.length) (hlt : data.length ≤ size + 1) {b : Option MessageBlock} :
  packMessage true data size = .ok b
    ↔ ∃ msg, parseMessage ip port data size = .ok msg ∧ b = some (blockOf msg)
  := by
  constructor
  · intro h
    have hpack := h
    rw [packMessage, if_pos rfl] at h
    obtain ⟨⟨_, _, p₁⟩, hversion, h⟩ := bind_eq_ok.mp h
    obtain ⟨⟨_, _, p₂⟩, hpacketNo, h⟩ := bind_eq_ok.mp h
    obtain ⟨⟨_, _, p₃⟩, husername, h⟩ := bind_eq_ok.mp h
    obtain ⟨⟨_, _, p₄⟩, hhostname, h⟩ := bind_eq_ok.mp h
    obtain ⟨⟨_, _, p₅⟩, hcmd, h⟩ := bind_eq_ok.mp h
    obtain ⟨version, hversion⟩ := packPiece_search hversion
    obtain ⟨packetNo, hpacketNo⟩ := packPiece_search hpacketNo
    obtain ⟨username, husername⟩ := packPiece_search husername
    obtain ⟨hostname, hhostname⟩ := packPiece_search hhostname
    obtain ⟨cmd, hcmd⟩ := packPiece_search hcmd
    simp only at h
    split at h
    · cases h
    · rename_i hsize
      have hparse : parseMessage ip port data size = .ok {
          ip, port, version, packetNo, username, hostname, cmd
          data := p₅.take (size - (data.length - p₅.length)) ++ [0]
          gpid := none
          user := none } := by
        refine bind_eq_ok.mpr ⟨_, hversion, ?_⟩
        refine bind_eq_ok.mpr ⟨_, hpacketNo, ?_⟩
        refine bind_eq_ok.mpr ⟨_, husername, ?_⟩
        refine bind_eq_ok.mpr ⟨_, hhostname, ?_⟩
        refine bind_eq_ok.mpr ⟨_, hcmd, ?_⟩
        apply if_neg hsize
      rw [packMessage_of_parse hparse hle hlt] at hpack
      cases hpack
      exact ⟨_, hparse, rfl⟩
  · rintro ⟨msg, hparse, rfl⟩
    apply packMessage_of_parse hparse hle hlt

/-! ### The pieces of a datagram -/

/-- Five colons come before the first terminator. -/
def Separated (d : List UInt8) : Prop := 5 ≤ (untilNul d).count colon

instance (d : List UInt8) : Decidable (Separated d) := inferInstanceAs (Decidable (_ ≤ _))

/-- A datagram in its pieces. -/
structure Pieces where
  version : List UInt8
  packetNo : List UInt8
  username : List UInt8
  hostname : List UInt8
  cmd : List UInt8
  data : List UInt8

namespace Pieces

/-- The datagram with these pieces. -/
def text (p : Pieces) : List UInt8 :=
  p.version ++ colon :: (p.packetNo ++ colon :: (p.username ++ colon :: (p.hostname
    ++ colon :: (p.cmd ++ colon :: p.data))))

/-- The pieces before the colons are strings without any. -/
structure Split (p : Pieces) : Prop where
  version : IsField p.version
  packetNo : IsField p.packetNo
  username : IsField p.username
  hostname : IsField p.hostname
  cmd : IsField p.cmd

/-- The message of the pieces. -/
def msg (p : Pieces) (ip : List UInt8) (port : UInt16) : Msg where
  ip := ip
  port := port
  version := p.version
  packetNo := p.packetNo
  username := p.username
  hostname := p.hostname
  cmd := p.cmd
  data := p.data ++ [0]
  gpid := none
  user := none

theorem parse_text {p : Pieces} (h : p.Split) (ip : List UInt8) (port : UInt16)
    (tail : List UInt8) :
  parseMessage ip port (p.text ++ tail) p.text.length = .ok (p.msg ip port)
  := by
  apply parseMessage_fields h.version h.packetNo h.username h.hostname h.cmd ip port rfl tail

end Pieces

/-- A text with a colon before any terminator splits there. -/
theorem split_colon {p : List UInt8} {n : Nat} (h : n + 1 ≤ (untilNul p).count colon) :
  ∃ s q, p = s ++ colon :: q ∧ IsField s ∧ n ≤ (untilNul q).count colon
  := by
  obtain ⟨s, q, hsplit, hcolon⟩ :=
    List.eq_append_cons_of_mem (List.count_pos_iff.mp (by omega : 0 < (untilNul p).count colon))
  have hnul : 0 ∉ s := by
    intro hmem
    apply not_mem_untilNul p
    rw [hsplit]
    apply List.mem_append_left _ hmem
  obtain ⟨rest, hrest⟩ : untilNul p <+: p := List.takeWhile_prefix _
  rw [hsplit, List.append_assoc, List.cons_append] at hrest
  refine ⟨s, q ++ rest, hrest.symm, ⟨hcolon, hnul⟩, ?_⟩
  rw [← hrest, untilNul_append hnul, List.count_append,
    List.count_eq_zero_of_not_mem hcolon] at h
  have hcons : untilNul (colon :: (q ++ rest)) = colon :: untilNul (q ++ rest) :=
    List.takeWhile_cons_of_pos (by decide)
  rw [hcons, List.count_cons_self] at h
  omega

/-- A separated datagram has its pieces. -/
theorem exists_pieces {d : List UInt8} (h : Separated d) :
  ∃ p : Pieces, d = p.text ∧ p.Split
  := by
  obtain ⟨version, q₁, rfl, h₁, hn⟩ := split_colon h
  obtain ⟨packetNo, q₂, rfl, h₂, hn⟩ := split_colon hn
  obtain ⟨username, q₃, rfl, h₃, hn⟩ := split_colon hn
  obtain ⟨hostname, q₄, rfl, h₄, hn⟩ := split_colon hn
  obtain ⟨cmd, q₅, rfl, h₅, -⟩ := split_colon hn
  exact ⟨⟨version, packetNo, username, hostname, cmd, q₅⟩, rfl, ⟨h₁, h₂, h₃, h₄, h₅⟩⟩

/-- The block has the pieces as strings, and the data with a terminator at its end. -/
structure Holds (b : MessageBlock) (p : Pieces) : Prop where
  version : stringAt b.bytes b.version = .ok p.version
  packetNo : stringAt b.bytes b.packetNo = .ok p.packetNo
  username : stringAt b.bytes b.username = .ok p.username
  hostname : stringAt b.bytes b.hostname = .ok p.hostname
  cmd : stringAt b.bytes b.cmd = .ok p.cmd
  data : b.bytes.drop b.data = p.data ++ [0]
  size : b.bytes.length = p.text.length + 21

/-- The bytes after a string of a block. -/
theorem drop_next {bytes s rest : List UInt8} {a : Nat} (h : bytes.drop a = s ++ 0 :: rest) :
  bytes.drop (a + (1 + s.length)) = rest
  := by
  rw [← List.drop_drop, h, Nat.add_comm 1, List.drop_length_add_append, List.drop_succ_cons,
    List.drop_zero]

theorem blockOf_holds {p : Pieces} (h : p.Split) (ip : List UInt8) (port : UInt16) :
  Holds (blockOf (p.msg ip port)) p
  := by
  have hread : ∀ {bytes s rest : List UInt8} {a : Nat}, 0 ∉ s → bytes.drop a = s ++ 0 :: rest →
      stringAt bytes a = .ok s := by
    intro bytes s rest a hnul hdrop
    rw [stringAt, hdrop]
    exact bind_eq_ok.mpr ⟨_, cString_append hnul, rfl⟩
  have h₁ : (blockOf (p.msg ip port)).bytes.drop 20 = (p.msg ip port).versionBlock [] :=
    List.drop_left' rfl
  have h₂ := drop_next h₁
  have h₃ := drop_next h₂
  have h₄ := drop_next h₃
  have h₅ := drop_next h₄
  have h₆ := drop_next h₅
  constructor
  · apply hread h.version.2 h₁
  · apply hread h.packetNo.2 h₂
  · apply hread h.username.2 h₃
  · apply hread h.hostname.2 h₄
  · apply hread h.cmd.2 h₅
  · rw [List.append_nil] at h₆
    apply h₆
  · simp only [blockOf, Msg.versionBlock, Pieces.msg, Pieces.text, List.length_append,
      List.length_replicate, List.length_cons, List.length_nil]
    omega

/-- The buffer has the datagram and at most one zero of interest after it. -/
theorem recvBuffer_eq {d : List UInt8} (hlength : d.length ≤ sizeofBuf) :
  ∃ tail, recvBuffer d = d ++ tail ∧ recvSize d = d.length ∧ tail.length ≤ 1
  := by
  rw [recvBuffer, recvSize, Nat.min_eq_left hlength]
  split
  · exact ⟨[0], rfl, rfl, Nat.le_refl 1⟩
  · refine ⟨[], ?_, rfl, Nat.zero_le 1⟩
    rw [List.append_nil, List.take_of_length_le hlength]

/-- The pieces of a datagram that is received are packed into their block. -/
theorem packMessage_text {p : Pieces} (h : p.Split) (hlength : p.text.length ≤ sizeofBuf)
    (ip : List UInt8) (port : UInt16) :
  packMessage true (recvBuffer p.text) (recvSize p.text) = .ok (some (blockOf (p.msg ip port)))
  := by
  obtain ⟨tail, hbuffer, hsize, htail⟩ := recvBuffer_eq hlength
  rw [hbuffer, hsize]
  apply packMessage_of_parse (p.parse_text h ip port tail)
  · rw [List.length_append]
    omega
  · rw [List.length_append]
    omega

/-- Whatever follows a datagram in the buffer, its pieces are packed into the block, which
takes them from its own bytes alone; a datagram without five colons gives `NULL`. -/
def PackedExactly (d : List UInt8) : Prop :=
  if Separated d then
    ∃ b p, d = p.text ∧ p.Split ∧ Holds b p
      ∧ packMessage true d d.length = .ok (some b)
      ∧ packMessage true (recvBuffer d) (recvSize d) = .ok (some b)
  else packMessage true (recvBuffer d) (recvSize d) = .ok none

end Peer

end IFreeChat
