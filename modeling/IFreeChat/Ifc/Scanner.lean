import IFreeChat.Ifc.Emotion

/-!
# The emoticon scanner

The loop of `insert_msg_with_emotion_to_textview` goes over the encoded text with two
positions: `i`, where it reads, and `j`, up to which the text has been inserted.  What it has
inserted, the texts and the tokens that became images, is always the text up to `j`
(`Scan.Sound`), and the loop ends at the terminator with the whole text inserted
(`scan_loses_nothing`).
-/

open Basis

namespace IFreeChat

open Feiq (sharp)

namespace Emotion

/-! ### The loop -/

/-- The bytes of `str` from the position `j` up to the position `i`. -/
def slice (str : List UInt8) (j i : Nat) : List UInt8 := (str.drop j).take (i - j)

/-- A piece of the text that has been inserted: the text from `j` up to `i`, or the image of the
token at `i` with `n` characters between its sharps. -/
inductive Piece where
  | text (j i : Nat)
  | token (i n : Nat)
deriving DecidableEq

namespace Piece

/-- The bytes of a piece. -/
def source (str : List UInt8) : Piece → List UInt8
  | .text j i => slice str j i
  | .token i n => slice str i (i + n + 2)

/-- What is inserted for a piece. -/
def insertion (str : List UInt8) : Piece → Insertion
  | .text j i => .text (slice str j i)
  | .token i n => .image (facesFile (atoi (slice str (i + 1) (i + 1 + n)) + 1))

end Piece

/-- `tmp` has one or two characters and is no number, or one below 96. -/
def Number (tmp : List UInt8) : Prop :=
  (tmp.length = 1 ∨ tmp.length = 2) ∧ 0 ≤ atoi tmp ∧ atoi tmp < 96

instance (tmp : List UInt8) : Decidable (Number tmp) := inferInstanceAs (Decidable (_ ∧ _))

/-- The positions of the loop and what it has inserted. -/
structure Scan where
  i : Nat
  j : Nat
  inserted : List Piece
deriving DecidableEq

namespace Scan

/-- Where the loop starts. -/
def start : Scan := ⟨0, 0, []⟩

/-- The body of the loop. -/
def body (str : List UInt8) (s : Scan) : Scan :=
  if str.getD s.i 0 = sharp then
    match strchr sharp ((str ++ [0]).drop (s.i + 1)) with
    | some (some (tmp, _)) =>
        if Number tmp then
          { i := s.i + (tmp.length + 1) + 1
            j := s.i + tmp.length + 2
            inserted := s.inserted ++ [.text s.j s.i, .token s.i tmp.length] }
        else { s with i := s.i + 1 }
    | _ => { s with i := s.i + 1 }
  else { s with i := s.i + 1 }

/-- The loop: `none` when it reads behind the terminator or has not ended after `fuel`
iterations. -/
def loop (str : List UInt8) : (fuel : Nat) → Scan → Option Scan
  | 0, _ => none
  | fuel + 1, s =>
      match (str ++ [0])[s.i]? with
      | none => none
      | some c => if c = 0 then some s else loop str fuel (s.body str)

/-- What has been inserted when the rest of the text is inserted after the loop. -/
def flush (str : List UInt8) (s : Scan) : List Piece :=
  if s.j < str.length then s.inserted ++ [.text s.j str.length] else s.inserted

/-- The states at the head of the loop. -/
inductive Reached (str : List UInt8) : Scan → Prop where
  | start : Reached str start
  | body {s : Scan} {c : UInt8} (h : Reached str s) (hc : (str ++ [0])[s.i]? = some c)
      (hne : c ≠ 0) : Reached str (s.body str)

/-- The positions are in order and inside the text, what has been inserted is the text up to
`j`, and the tokens in it are numbers between sharps. -/
structure Sound (str : List UInt8) (s : Scan) : Prop where
  ordered : s.j ≤ s.i
  inside : s.i ≤ str.length
  sources : s.inserted.flatMap (Piece.source str) = str.take s.j
  tokens : ∀ i n, .token i n ∈ s.inserted → (n = 1 ∨ n = 2) ∧ i + n + 2 ≤ str.length
    ∧ ∃ tmp, slice str i (i + n + 2) = sharp :: tmp ++ [sharp] ∧ tmp.length = n
        ∧ 0 ≤ atoi tmp ∧ atoi tmp < 96

/-! ### One iteration -/

/-- The text before a position followed by a slice from there. -/
theorem take_slice (str : List UInt8) {j i : Nat} (h : j ≤ i) :
  str.take j ++ slice str j i = str.take i
  := by
  rw [slice, ← List.take_add, Nat.add_sub_cancel' h]

theorem slice_succ {str : List UInt8} {j i : Nat} (h : j ≤ i) (hi : i < str.length) :
  slice str j (i + 1) = slice str j i ++ [str[i]]
  := by
  have hlt : i - j < (str.drop j).length := by
    rw [List.length_drop]
    omega
  rw [slice, Nat.succ_sub h, List.take_succ_eq_append_getElem hlt, List.getElem_drop]
  congr 2
  congr 1
  omega

/-- A sharp that is found stands before the terminator. -/
theorem strchr_sharp {str tmp after : List UInt8}
    (h : strchr sharp (str ++ [0]) = some (some (tmp, after))) :
  ∃ rest, str = tmp ++ sharp :: rest
  := by
  obtain ⟨heq, -, -⟩ := strchr_eq_some_iff.mp h
  rcases List.eq_nil_or_concat after with rfl | ⟨rest, c, rfl⟩
  · have hlast := (List.append_inj' heq rfl).2
    cases hlast
  · use rest
    rw [List.concat_eq_append, ← List.cons_append, ← List.append_assoc] at heq
    apply (List.append_inj' heq rfl).1

/-- An iteration goes on to the next character, or consumes a token. -/
theorem body_cases {str : List UInt8} {s : Scan} (hi : s.i < str.length) :
  (s.body str = { s with i := s.i + 1 }
    ∧ ∀ pending, insertLoop 0 pending (str.drop s.i)
        = insertLoop 0 (pending ++ [str[s.i]]) (str.drop (s.i + 1)))
  ∨ ∃ tmp rest, str.drop s.i = sharp :: tmp ++ sharp :: rest ∧ Number tmp
    ∧ s.body str = ⟨s.i + tmp.length + 2, s.i + tmp.length + 2,
        s.inserted ++ [.text s.j s.i, .token s.i tmp.length]⟩
    ∧ ∀ pending, insertLoop 0 pending (str.drop s.i)
        = .text pending :: .image (facesFile (atoi tmp + 1)) :: insertLoop 0 [] rest
  := by
  have hget : str.getD s.i 0 = str[s.i] := List.getD_eq_getElem _ _ hi
  have hdrop : str.drop s.i = str[s.i] :: str.drop (s.i + 1) := List.drop_eq_getElem_cons hi
  have hzero : (str ++ [0]).drop (s.i + 1) = str.drop (s.i + 1) ++ [0] := by
    apply List.drop_append_of_le_length hi
  simp only [body, hget, hzero, hdrop, insertLoop]
  by_cases hsharp : str[s.i] = sharp
  · simp only [if_pos hsharp]
    cases hfind : strchr sharp (str.drop (s.i + 1) ++ [0]) with
    | none => exact Or.inl ⟨rfl, fun _ => rfl⟩
    | some found =>
      obtain _ | ⟨tmp, after⟩ := found
      · exact Or.inl ⟨rfl, fun _ => rfl⟩
      · by_cases hnumber : Number tmp
        · right
          obtain ⟨rest, hrest⟩ := strchr_sharp hfind
          have hskip := insertLoop_skip (tmp ++ [sharp]) [] rest
          rw [List.length_append, List.length_singleton, List.append_assoc] at hskip
          use tmp, rest
          refine ⟨by rw [hsharp, hrest]; rfl, hnumber, if_pos hnumber, ?_⟩
          intro pending
          apply (if_pos hnumber).trans
          rw [hrest, ← hskip]
          rfl
        · left
          exact ⟨if_neg hnumber, fun _ => if_neg hnumber⟩
  · left
    exact ⟨if_neg hsharp, fun _ => if_neg hsharp⟩

/-- An iteration keeps the positions in order and loses nothing. -/
theorem Sound.body {str : List UInt8} {s : Scan} (h : Sound str s) (hi : s.i < str.length) :
  Sound str (s.body str)
  := by
  obtain ⟨hordered, hinside, hsources, htokens⟩ := h
  rcases body_cases hi with ⟨hbody, -⟩ | ⟨tmp, rest, hdrop, hnumber, hbody, -⟩
  · rw [hbody]
    exact ⟨Nat.le_succ_of_le hordered, hi, hsources, htokens⟩
  · have hlength := congrArg List.length hdrop
    simp only [List.length_drop, List.length_append, List.length_cons] at hlength
    have hbound : s.i + tmp.length + 2 ≤ str.length := by omega
    have htoken : slice str s.i (s.i + tmp.length + 2) = sharp :: tmp ++ [sharp] := by
      rw [slice, hdrop, List.append_cons]
      apply List.take_left'
      simp
      omega
    rw [hbody]
    refine ⟨le_rfl, hbound, ?_, ?_⟩
    · have hsource := take_slice str (show s.i ≤ s.i + tmp.length + 2 by omega)
      rw [List.flatMap_append, hsources, List.flatMap_cons, List.flatMap_singleton, ← hsource,
        ← take_slice str hordered, List.append_assoc]
      rfl
    · intro i n hmem
      rcases List.mem_append.mp hmem with hold | hnew
      · apply htokens i n hold
      · obtain ⟨rfl, rfl⟩ : i = s.i ∧ n = tmp.length := by simpa using hnew
        exact ⟨hnumber.1, hbound, tmp, htoken, rfl, hnumber.2⟩

/-- An iteration inserts what the loop over the rest of the text inserts. -/
theorem insertLoop_body {str : List UInt8} {s : Scan} (h : Sound str s) (hi : s.i < str.length) :
  (s.body str).inserted.map (Piece.insertion str)
      ++ insertLoop 0 (slice str (s.body str).j (s.body str).i) (str.drop (s.body str).i)
    = s.inserted.map (Piece.insertion str)
      ++ insertLoop 0 (slice str s.j s.i) (str.drop s.i)
  := by
  rcases body_cases hi with ⟨hbody, hloop⟩ | ⟨tmp, rest, hdrop, hnumber, hbody, hloop⟩
  · rw [hbody, hloop, slice_succ h.ordered hi]
  · have hrest : str.drop (s.i + tmp.length + 2) = rest := by
      rw [Nat.add_assoc, ← List.drop_drop, hdrop, List.append_cons]
      apply List.drop_left'
      simp
    have htmp : slice str (s.i + 1) (s.i + 1 + tmp.length) = tmp := by
      rw [slice, ← List.drop_drop, hdrop, Nat.add_sub_cancel_left]
      apply List.take_left
    have hnil : slice str (s.i + tmp.length + 2) (s.i + tmp.length + 2) = [] := by
      rw [slice, Nat.sub_self, List.take_zero]
    rw [hbody, hloop]
    simp only [hrest, hnil, List.map_append, List.map_cons, List.map_nil, Piece.insertion, htmp]
    rw [List.append_assoc]
    rfl

/-! ### The whole loop -/

theorem sound_start (str : List UInt8) :
  Sound str start
  := ⟨le_rfl, Nat.zero_le _, rfl, by intro i n h; cases h⟩

/-- A byte that is no terminator stands inside the text. -/
theorem lt_of_getElem? {str : List UInt8} {i : Nat} {c : UInt8} (hc : (str ++ [0])[i]? = some c)
    (hne : c ≠ 0) :
  i < str.length
  := by
  by_contra hge
  rw [List.getElem?_append_right (Nat.le_of_not_lt hge)] at hc
  have hmem := List.mem_of_getElem? hc
  apply hne (List.mem_singleton.mp hmem)

theorem Reached.sound {str : List UInt8} {s : Scan} (h : Reached str s) :
  Sound str s
  := by
  induction h with
  | start => apply sound_start
  | body _ hc hne ih => apply ih.body (lt_of_getElem? hc hne)

/-- The loop ends at the terminator, having inserted what `insertLoop` does. -/
theorem loop_ends {str : List UInt8} (hnul : 0 ∉ str) {s : Scan} (h : Reached str s) {fuel : Nat}
    (hfuel : str.length < s.i + fuel) :
  ∃ t, loop str fuel s = some t ∧ Reached str t ∧ t.i = str.length
    ∧ t.inserted.map (Piece.insertion str) ++ insertLoop 0 (slice str t.j t.i) (str.drop t.i)
      = s.inserted.map (Piece.insertion str) ++ insertLoop 0 (slice str s.j s.i) (str.drop s.i)
  := by
  induction fuel generalizing s with
  | zero =>
    have := h.sound.inside
    omega
  | succ fuel ih =>
    rcases Nat.lt_or_eq_of_le h.sound.inside with hlt | heq
    · have hget : (str ++ [0])[s.i]? = some str[s.i] := by
        rw [List.getElem?_append_left hlt, List.getElem?_eq_getElem hlt]
      have hne : str[s.i] ≠ 0 := fun hzero => hnul (hzero ▸ List.getElem_mem hlt)
      have hreached := Reached.body h hget hne
      have hadvance : s.i < (s.body str).i := by
        rcases body_cases hlt with ⟨hbody, -⟩ | ⟨tmp, rest, -, -, hbody, -⟩
        · rw [hbody]
          apply Nat.lt_succ_self
        · rw [hbody]
          change s.i < s.i + tmp.length + 2
          omega
      obtain ⟨t, hloop, ht, hi, hinsert⟩ := ih hreached (by omega)
      use t
      rw [loop, hget]
      refine ⟨(if_neg hne).trans hloop, ht, hi, ?_⟩
      rw [hinsert, insertLoop_body h.sound hlt]
    · use s
      rw [loop, heq, List.getElem?_concat_length]
      exact ⟨rfl, h, rfl, rfl⟩

/-- Every state of the loop is sound, and the loop ends at the terminator, having inserted the
whole text as the display has it. -/
structure LosesNothing (str : List UInt8) : Prop where
  sound : ∀ s, Reached str s → Sound str s
  ends : ∃ s, loop str (str.length + 1) start = some s ∧ Reached str s ∧ s.i = str.length
    ∧ (s.flush str).flatMap (Piece.source str) = str
    ∧ (s.flush str).map (Piece.insertion str) = insertLoop 0 [] str

theorem scan_loses_nothing {str : List UInt8} (hnul : 0 ∉ str) :
  LosesNothing str
  := by
  obtain ⟨s, hloop, hreached, hi, hinsert⟩ := loop_ends hnul Reached.start
    (by simp [start] : str.length < start.i + (str.length + 1))
  refine ⟨fun s h => h.sound, s, hloop, hreached, hi, ?_, ?_⟩
  · have hsound := hreached.sound
    have htake := take_slice str (hi ▸ hsound.ordered)
    rw [flush]
    split
    · rw [List.flatMap_append, hsound.sources, List.flatMap_singleton, Piece.source, htake,
        List.take_length]
    · rw [hsound.sources, List.take_of_length_le (by omega)]
  · have hstart : insertLoop 0 [] str
        = s.inserted.map (Piece.insertion str) ++ insertLoop 0 (slice str s.j str.length) [] := by
      rw [hi, List.drop_length] at hinsert
      exact hinsert.symm
    have hlength : (slice str s.j str.length).length = str.length - s.j := by
      simp [slice]
    rw [flush, hstart, insertLoop]
    split
    · rw [if_neg, List.map_append]
      · rfl
      · apply List.ne_nil_of_length_pos
        omega
    · rw [if_pos, List.append_nil]
      apply List.eq_nil_of_length_eq_zero
      omega

theorem scan_loses_nothing_sharps :
  LosesNothing (ascii "##1#a#95##")
  := scan_loses_nothing (by decide +kernel)

end Scan

end Emotion

end IFreeChat
