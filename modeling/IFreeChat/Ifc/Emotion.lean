import IFreeChat.Basis.Codes
import IFreeChat.Ifc.Feiq

/-!
# Emoticons

A message is shown in a chatbox with images in the place of its emoticon codes: every code is
replaced by its number between two sharps, and the text that comes out is searched for numbers
between sharps.

What is shown is the message with its codes as images exactly when no sharp of the message
itself is taken for the start of a number (`display_faithful_iff`).
-/

open Basis

namespace IFreeChat

open Feiq (sharp)

namespace Emotion

/-! ### Codes -/

/-- The `desc` of the entries of `emotion_list`. -/
def emotionList : List (List UInt8) :=
  [ascii "/:)", ascii "/:~", ascii "/:*", ascii "/:|", ascii "/8-)", ascii "/:<", ascii "/:$",
    ascii "/:X", ascii "/:Z", ascii "/:'(", ascii "/:-|", ascii "/:-@", ascii "/:P", ascii "/:D",
    ascii "/:O", ascii "/<rotate>", ascii "/:(", ascii "/:+", ascii "/:lenhan", ascii "/:Q",
    ascii "/:T", ascii "/;P", ascii "/;-D", ascii "/;d", ascii "/;o", ascii "/:g", ascii "/|-)",
    ascii "/:!", ascii "/:L", ascii "/:>", ascii "/;bin", ascii "/:fw", ascii "/;fd",
    ascii "/:-S", ascii "/;?", ascii "/;x", ascii "/;@", ascii "/:8", ascii "/;!", ascii "/!!!",
    ascii "/:xx", ascii "/:bye", ascii "/:csweat", ascii "/:knose", ascii "/:applause",
    ascii "/:cdale", ascii "/:huaixiao", ascii "/:shake", ascii "/:lhenhen", ascii "/:rhenhen",
    ascii "/:yawn", ascii "/:snooty", ascii "/:chagrin", ascii "/:kcry", ascii "/:yinxian",
    ascii "/:qinqin", ascii "/:xiaren", ascii "/:kelin", ascii "/:caidao", ascii "/:xig",
    ascii "/:bj", ascii "/:basketball", ascii "/:pingpong", ascii "/:jump", ascii "/:coffee",
    ascii "/:eat", ascii "/:pig", ascii "/:rose", ascii "/:fade", ascii "/:kiss",
    ascii "/:heart", ascii "/:break", ascii "/:cake", ascii "/:shd", ascii "/:bomb",
    ascii "/:dao", ascii "/:footb", ascii "/:piaocon", ascii "/:shit", ascii "/:oh",
    ascii "/:moon", ascii "/:sun", ascii "/;gift", ascii "/:hug", ascii "/:strong",
    ascii "/;weak", ascii "/:share", ascii "/:shl", ascii "/:baoquan", ascii "/:cajole",
    ascii "/:quantou", ascii "/:chajin", ascii "/:aini", ascii "/:sayno", ascii "/:sayok",
    ascii "/:love"]

/-- `str_replace`. -/
def strReplace (str oldstr newstr : List UInt8) : List UInt8 := replace oldstr newstr str

/-- `sprintf(emo, "#%d#", i)`. -/
def emo (i : Nat) : List UInt8 := ascii "#" ++ decimal i ++ ascii "#"

/-- `replace_emotion`. -/
def replaceEmotion (str : List UInt8) : List UInt8 :=
  (List.range 96).foldl (fun str i =>
    if emotionList.getD i [] <:+: str then strReplace str (emotionList.getD i []) (emo i)
    else str) str

/-- `replace_emotion` with the table in this order. -/
def replaceEmotionIn (order : List Nat) (str : List UInt8) : List UInt8 :=
  order.foldl (fun str i =>
    if emotionList.getD i [] <:+: str then strReplace str (emotionList.getD i []) (emo i)
    else str) str

/-! ### The display -/

/-- What is inserted into the text buffer. -/
inductive Insertion where
  | text (str : List UInt8)
  | image (file : List UInt8)
deriving DecidableEq

/-- The file of an image. -/
def facesFile (n : Int) : List UInt8 := ascii "../pixmaps/faces/" ++ decimal n ++ ascii ".gif"

/-- The loop of `insert_msg_with_emotion_to_textview` from `str + i` on, where `pending` are the
characters from `str + j` to there, and `i` has still to go over the next `n`. -/
def insertLoop : (n : Nat) → (pending str : List UInt8) → List Insertion
  | _, pending, [] => if pending = [] then [] else [.text pending]
  | n + 1, pending, _ :: str => insertLoop n pending str
  | 0, pending, c :: str =>
      if c = sharp then
        match strchr sharp (str ++ [0]) with
        | some (some (tmp, _)) =>
            if (tmp.length = 1 ∨ tmp.length = 2) ∧ 0 ≤ atoi tmp ∧ atoi tmp < 96 then
              .text pending :: .image (facesFile (atoi tmp + 1))
                :: insertLoop (tmp.length + 1) [] str
            else insertLoop 0 (pending ++ [c]) str
        | _ => insertLoop 0 (pending ++ [c]) str
      else insertLoop 0 (pending ++ [c]) str

/-- `insert_msg_with_emotion_to_textview`. -/
def insertMsgWithEmotionToTextview (msg : List UInt8) : List Insertion :=
  insertLoop 0 [] (replaceEmotion msg) ++ [.text [10]]

/-- A character or an image in a text buffer. -/
inductive Shown where
  | char (c : UInt8)
  | image (file : List UInt8)
deriving DecidableEq

/-- What insertions show. -/
def shown : List Insertion → List Shown
  | [] => []
  | .text str :: insertions => str.map .char ++ shown insertions
  | .image file :: insertions => .image file :: shown insertions

/-! ### What should be shown -/

/-- A number for a code and the power of 256 above it, by which the codes are told apart. -/
def codeKey (code : List UInt8) : Nat × Nat := (Memory.ofBytes code, 256 ^ code.length)

theorem not_prefix_of_key {code code' : List UInt8}
    (h : (codeKey code').1 % (codeKey code).2 ≠ (codeKey code).1) :
  ¬ code <+: code'
  := by
  rintro ⟨s, rfl⟩
  apply h
  simp only [codeKey, Memory.ofBytes_append, Nat.add_mul_mod_self_left]
  apply Nat.mod_eq_of_lt (Memory.ofBytes_lt code)

theorem emotionList_prefixFree :
  emotionList.Pairwise fun code code' => ¬ code <+: code' ∧ ¬ code' <+: code
  := by
  have hkeys : (emotionList.map codeKey).Pairwise fun key key' =>
      key'.1 % key.2 ≠ key.1 ∧ key.1 % key'.2 ≠ key'.1 := by
    decide +kernel
  rw [List.pairwise_map] at hkeys
  apply hkeys.imp
  rintro code code' ⟨h, h'⟩
  exact ⟨not_prefix_of_key h, not_prefix_of_key h'⟩

/-- The emoticons as codes of messages. -/
def emotions : Codebook UInt8 where
  mark := 47
  codes := emotionList
  marked := by decide +kernel
  prefixFree := emotionList_prefixFree

/-- One pass from the left that replaces the codes. -/
def replaceOnce (str : List UInt8) : List UInt8 := render emo (emotions.items 0 str)

/-- A character, or the image of a code. -/
def itemShown : Item UInt8 → Shown
  | .char c => .char c
  | .code k => .image (facesFile (k + 1))

/-- A message is shown with its codes as images, and a newline after it. -/
def Faithful (msg : List UInt8) : Prop :=
  shown (insertMsgWithEmotionToTextview msg)
    = (emotions.items 0 msg).map itemShown ++ [.char 10]

instance (msg : List UInt8) : Decidable (Faithful msg) := inferInstanceAs (Decidable (_ = _))

/-- The characters before the next sharp, of the message or before the number of a code. -/
def beforeSharp : List (Item UInt8) → Option (List UInt8)
  | [] => none
  | .code _ :: _ => some []
  | .char c :: items => if c = sharp then some [] else (beforeSharp items).map fun s => c :: s

/-- One or two characters come before the next sharp, and are no number, or one below 96. -/
def Numbered (items : List (Item UInt8)) : Prop :=
  ∃ s ∈ beforeSharp items, (s.length = 1 ∨ s.length = 2) ∧ 0 ≤ atoi s ∧ atoi s < 96

instance (items : List (Item UInt8)) : Decidable (Numbered items) :=
  inferInstanceAs (Decidable (∃ s ∈ beforeSharp items, _))

/-- No sharp of a message stands before what is taken for the number of a code. -/
def Clear : List (Item UInt8) → Prop
  | [] => True
  | .code _ :: items => Clear items
  | .char c :: items => (c = sharp → ¬ Numbered items) ∧ Clear items

instance Clear.decidable : (items : List (Item UInt8)) → Decidable (Clear items)
  | [] => inferInstanceAs (Decidable True)
  | .code _ :: items => Clear.decidable items
  | .char c :: items =>
      have := Clear.decidable items
      inferInstanceAs (Decidable ((c = sharp → ¬ Numbered items) ∧ Clear items))

/-! ### The encoded text -/

/-- The numbers between sharps. -/
theorem decimal_spec {k : Nat} (hk : k < 96) :
  ((decimal k).length = 1 ∨ (decimal k).length = 2) ∧ atoi (decimal k) = k
    ∧ sharp ∉ decimal k ∧ 0 ∉ decimal k
  := by
  have hdecimal : decimal k = numeral 10 k := by
    rw [decimal, if_neg (by omega), Int.natAbs_natCast]
  have hlength := numeral_length_le (b := 10) (k := 2) (n := k) (by decide) (by decide) (by omega)
  have hpos := List.length_pos_of_ne_nil (numeral_ne_nil (by decide : 2 ≤ 10) k)
  have hatoi := atoi_numeral (by omega : k < 2 ^ 31)
    (by simp : ∀ c ∈ ([] : List UInt8).head?, digitValue 10 c = none)
  rw [List.append_nil] at hatoi
  rw [hdecimal]
  refine ⟨by omega, hatoi, ?_, ?_⟩
  · apply not_mem_numeral (by decide) (by decide) (by decide)
  · apply not_mem_numeral (by decide) (by decide) (by decide)

theorem emo_eq (k : Nat) :
  emo k = sharp :: (decimal k ++ [sharp])
  := rfl

theorem mark_not_mem_emo (k : Nat) :
  emotions.mark ∉ emo k
  := by
  have hdecimal : emotions.mark ∉ decimal k := not_mem_decimal _ (by decide) (by decide)
  rw [emo_eq, List.mem_cons, List.mem_append, List.mem_singleton, not_or, not_or]
  exact ⟨by decide, hdecimal, by decide⟩

theorem emo_start (k : Nat) :
  ∃ a ∈ (emo k).head?, ∀ code ∈ emotions.codes, a ∉ code
  := by
  use sharp, rfl
  change ∀ code ∈ emotionList, sharp ∉ code
  decide +kernel

/-- A code that does not occur is replaced nowhere. -/
theorem replaceEmotionIn_eq (order : List Nat) (str : List UInt8) :
  replaceEmotionIn order str = emotions.replaceIn emo order str
  := by
  rw [replaceEmotionIn, Codebook.replaceIn]
  congr 1
  funext str i
  split
  · rfl
  · rename_i hinfix
    apply (replace_of_absent hinfix _).symm

/-- The codes of a message are replaced by their numbers. -/
theorem replaceEmotion_eq (msg : List UInt8) :
  replaceEmotion msg = render emo (emotions.items 0 msg)
  := by
  rw [← Codebook.replaceAll_eq mark_not_mem_emo emo_start]
  apply replaceEmotionIn_eq

/-- What `replace_emotion` makes of a text does not depend on the order of the table: it is
one pass from the left, and at every stage in every order, the codes that are still to be
replaced are found where they were and nowhere else, and those that are replaced nowhere. -/
structure OrderFree (str : List UInt8) : Prop where
  once : replaceEmotion str = replaceOnce str
  permuted : ∀ order, order.Perm (List.range 96) → replaceEmotionIn order str = replaceEmotion str
  found : ∀ done rest, (done ++ rest).Perm (List.range 96) → ∀ k ∈ rest, ∀ before after,
    replaceEmotionIn done str = before ++ emotionList.getD k [] ++ after
      ↔ ∃ t u, str = t ++ emotionList.getD k [] ++ u ∧ replaceEmotionIn done t = before
          ∧ replaceEmotionIn done u = after
  gone : ∀ done rest, (done ++ rest).Perm (List.range 96) → ∀ k ∈ done,
    ¬ emotionList.getD k [] <:+: replaceEmotionIn done str

theorem mem_order_iff {order : List Nat} (h : order.Perm (List.range 96)) {k : Nat} :
  k ∈ order ↔ k < emotions.codes.length
  := h.mem_iff.trans List.mem_range

/-- The characters of the items are no terminators, and the codes are those of the list. -/
structure Text (items : List (Item UInt8)) : Prop where
  nul : ∀ c, .char c ∈ items → c ≠ 0
  code : ∀ k, .code k ∈ items → k < 96

theorem Text.tail {item : Item UInt8} {items : List (Item UInt8)} (h : Text (item :: items)) :
  Text items
  where
  nul c hc := h.nul c (List.mem_cons_of_mem _ hc)
  code k hk := h.code k (List.mem_cons_of_mem _ hk)

theorem mem_render {code : Nat → List UInt8} {items : List (Item UInt8)} {c : UInt8}
    (h : .char c ∈ items) :
  c ∈ render code items
  := by
  induction items with
  | nil => cases h
  | cons item items ih =>
    rcases List.mem_cons.mp h with rfl | htail
    · apply List.mem_cons_self
    · cases item with
      | char a => apply List.mem_cons_of_mem _ (ih htail)
      | code k => apply List.mem_append_right _ (ih htail)

/-- A message is read into such items. -/
theorem items_text {msg : List UInt8} (hnul : 0 ∉ msg) :
  Text (emotions.items 0 msg)
  := by
  obtain ⟨hrender, hread⟩ := Codebook.items_spec (C := emotions) msg
  constructor
  · rintro c hc rfl
    apply hnul
    rw [← hrender]
    apply mem_render hc
  · intro k hk
    apply hread.lt hk

/-- The next sharp is found after the characters before it. -/
theorem render_of_beforeSharp {items : List (Item UInt8)} (h : Text items) {s : List UInt8}
    (hs : beforeSharp items = some s) :
  ∃ after, strchr sharp (render emo items ++ [0]) = some (some (s, after))
  := by
  suffices ∃ rest, render emo items = s ++ sharp :: rest ∧ sharp ∉ s ∧ 0 ∉ s by
    obtain ⟨rest, hrender, hsharp, hnul⟩ := this
    use rest ++ [0]
    rw [strchr_eq_some_iff, hrender]
    exact ⟨by simp, hsharp, Or.inr hnul⟩
  induction items generalizing s with
  | nil => cases hs
  | cons item items ih =>
    cases item with
    | code k =>
      cases hs
      use decimal k ++ [sharp] ++ render emo items
      exact ⟨rfl, by simp, by simp⟩
    | char c =>
      rw [beforeSharp] at hs
      split at hs
      · rename_i hc
        cases hs
        subst hc
        use render emo items
        exact ⟨rfl, by simp, by simp⟩
      · rename_i hc
        obtain ⟨s', hs', rfl⟩ := Option.map_eq_some_iff.mp hs
        obtain ⟨rest, hrender, hsharp, hnul⟩ := ih h.tail hs'
        use rest
        rw [render, hrender]
        refine ⟨rfl, ?_, ?_⟩
        · rw [List.mem_cons, not_or]
          exact ⟨Ne.symm hc, hsharp⟩
        · rw [List.mem_cons, not_or]
          exact ⟨Ne.symm (h.nul c List.mem_cons_self), hnul⟩

/-- Where none comes, none is found. -/
theorem not_mem_of_beforeSharp {items : List (Item UInt8)} (hs : beforeSharp items = none) :
  sharp ∉ render emo items
  := by
  induction items with
  | nil => simp [render]
  | cons item items ih =>
    cases item with
    | code k => cases hs
    | char c =>
      rw [beforeSharp] at hs
      split at hs
      · cases hs
      · rename_i hc
        rw [render, List.mem_cons, not_or]
        exact ⟨Ne.symm hc, ih (Option.map_eq_none_iff.mp hs)⟩

/-! ### The loop -/

theorem insertLoop_skip (s pending t : List UInt8) :
  insertLoop s.length pending (s ++ t) = insertLoop 0 pending t
  := by
  induction s with
  | nil => cases t <;> rfl
  | cons c s ih => apply ih

/-- The number of a code becomes its image. -/
theorem insertLoop_emo {k : Nat} (hk : k < 96) (pending str : List UInt8) :
  insertLoop 0 pending (emo k ++ str)
    = .text pending :: .image (facesFile (k + 1)) :: insertLoop 0 [] str
  := by
  obtain ⟨hlength, hatoi, hsharp, hnul⟩ := decimal_spec hk
  have hfind : strchr sharp (decimal k ++ [sharp] ++ str ++ [0])
      = some (some (decimal k, str ++ [0])) := by
    rw [strchr_eq_some_iff]
    exact ⟨by simp, hsharp, Or.inr hnul⟩
  have hskip := insertLoop_skip (decimal k ++ [sharp]) [] str
  rw [List.length_append, List.length_singleton] at hskip
  rw [emo_eq, List.cons_append, insertLoop, if_pos rfl, hfind]
  simp only [hatoi]
  rw [if_pos ⟨hlength, by omega, by omega⟩, hskip]

/-- A sharp of the message stays one exactly when no number comes after it. -/
theorem insertLoop_sharp {items : List (Item UInt8)} (h : Text items) (pending : List UInt8) :
  (¬ Numbered items → insertLoop 0 pending (sharp :: render emo items)
      = insertLoop 0 (pending ++ [sharp]) (render emo items))
    ∧ (Numbered items → ∃ file insertions, insertLoop 0 pending (sharp :: render emo items)
      = .text pending :: .image file :: insertions)
  := by
  rw [insertLoop, if_pos rfl]
  cases hs : beforeSharp items with
  | none =>
    have hnot := not_mem_of_beforeSharp hs
    constructor
    · intro _
      split
      · rename_i tmp after hfind
        obtain ⟨heq, -⟩ := strchr_eq_some_iff.mp hfind
        have hmem : sharp ∈ render emo items ++ [0] := by
          rw [heq]
          simp
        rcases List.mem_append.mp hmem with hmem | hmem
        · apply absurd hmem hnot
        · simp [sharp] at hmem
      · rfl
    · rintro ⟨s, hmem, -⟩
      rw [hs] at hmem
      cases hmem
  | some s =>
    obtain ⟨after, hfind⟩ := render_of_beforeSharp h hs
    rw [hfind]
    constructor
    · intro hnot
      apply if_neg
      intro hnumber
      apply hnot ⟨s, hs, hnumber⟩
    · rintro ⟨s', hmem, hnumber⟩
      rw [hs] at hmem
      cases hmem
      use facesFile (atoi s + 1), insertLoop (s.length + 1) [] (render emo items)
      apply if_pos hnumber

/-- What the loop shows is the rest of the message, with its codes as images, exactly when no
sharp of it is taken for the start of a number. -/
theorem shown_insertLoop_iff {items : List (Item UInt8)} (h : Text items)
    (pending : List UInt8) :
  shown (insertLoop 0 pending (render emo items))
      = pending.map .char ++ items.map itemShown
    ↔ Clear items
  := by
  induction items generalizing pending with
  | nil =>
    rw [render, insertLoop]
    split
    · rename_i hpending
      simp [hpending, shown, Clear]
    · simp [shown, Clear]
  | cons item items ih =>
    cases item with
    | code k =>
      rw [render, insertLoop_emo (h.code k List.mem_cons_self), shown, shown, List.map_cons,
        itemShown, Clear, List.append_cancel_left_eq, List.cons.injEq, ← ih h.tail []]
      simp
    | char c =>
      have hpending : pending.map .char ++ (.char c :: items).map itemShown
          = (pending ++ [c]).map .char ++ items.map itemShown := by
        simp [itemShown]
      rw [render, Clear]
      by_cases hc : c = sharp
      · subst hc
        obtain ⟨hliteral, himage⟩ := insertLoop_sharp h.tail pending
        by_cases hnumbered : Numbered items
        · obtain ⟨file, insertions, hloop⟩ := himage hnumbered
          rw [hloop, shown, shown, List.map_cons, itemShown, List.append_cancel_left_eq]
          simp [hnumbered]
        · rw [hliteral hnumbered, hpending, ih h.tail]
          simp [hnumbered]
      · have hloop : insertLoop 0 pending (c :: render emo items)
            = insertLoop 0 (pending ++ [c]) (render emo items) := by
          rw [insertLoop, if_neg hc]
        rw [hloop, hpending, ih h.tail]
        simp [hc]

/-- A message is shown with its codes as images, in order, and all its other characters,
exactly when no sharp of the message stands before what is taken for the number of a code. -/
theorem display_faithful_iff {msg : List UInt8} (hnul : 0 ∉ msg) :
  Faithful msg ↔ Clear (emotions.items 0 msg)
  := by
  have hshown : ∀ insertions : List Insertion,
      shown (insertions ++ [.text [10]]) = shown insertions ++ [.char 10] := by
    intro insertions
    induction insertions with
    | nil => rfl
    | cons insertion insertions ih =>
      cases insertion with
      | text str => rw [List.cons_append, shown, ih, shown, List.append_assoc]
      | image file => rw [List.cons_append, shown, ih, shown, List.cons_append]
  rw [Faithful, insertMsgWithEmotionToTextview, hshown, List.append_cancel_right_eq,
    replaceEmotion_eq, ← shown_insertLoop_iff (items_text hnul) []]
  rfl

theorem display_faithful_smile :
  Faithful (ascii "No. #1: /:)/:sun")
  := by
  apply (display_faithful_iff (by decide +kernel)).mpr
  decide +kernel

/-- A text between sharps is shown as an image. -/
theorem sharps_not_faithful :
  ¬ Faithful (ascii "C#a#b")
  := by
  decide +kernel

end Emotion

end IFreeChat
