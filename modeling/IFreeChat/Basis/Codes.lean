import Mathlib.Data.List.GetD
import Mathlib.Data.List.Infix

/-!
# Codes in texts

`replace old new s` is the text `s` with the occurrences of `old`, read from the left, replaced
by `new`.

A codebook has codes that start with a mark they do not have again, none of which starts
another one.  A text is read from the left into codes and the characters between them
(`Codebook.items`).  Replacing the codes one after another, everywhere in the text, replaces
the codes it is read into (`Codebook.replaceAll_eq`), as long as what they are replaced by
starts with no character of a code and has no mark.  The order of the codes does not matter
(`Codebook.replaceIn_eq`), and no replacement hides a code or makes one
(`Codebook.replaceIn_occurs_iff`).
-/

namespace Basis

variable {α : Type*}

/-! ### Codebooks -/

/-- Codes that start with a mark, and have it there only.  None starts another one. -/
structure Codebook (α : Type*) where
  mark : α
  codes : List (List α)
  marked : ∀ code ∈ codes, code.head? = some mark ∧ mark ∉ code.tail
  prefixFree : codes.Pairwise fun code code' => ¬ code <+: code' ∧ ¬ code' <+: code

/-- A piece of a text: a character, or the code of a number. -/
inductive Item (α : Type*) where
  | char (a : α)
  | code (k : Nat)
deriving DecidableEq

/-- The text of items whose codes have these texts. -/
def render (code : Nat → List α) : List (Item α) → List α
  | [] => []
  | .char a :: items => a :: render code items
  | .code k :: items => code k ++ render code items

theorem render_congr {f g : Nat → List α} {items : List (Item α)}
    (h : ∀ k, .code k ∈ items → f k = g k) :
  render f items = render g items
  := by
  induction items with
  | nil => rfl
  | cons item items ih =>
    have ih := ih fun k hk => h k (List.mem_cons_of_mem _ hk)
    cases item with
    | char a => rw [render, render, ih]
    | code k => rw [render, render, ih, h k List.mem_cons_self]

theorem render_append (code : Nat → List α) (items items' : List (Item α)) :
  render code (items ++ items') = render code items ++ render code items'
  := by
  induction items with
  | nil => rfl
  | cons item items ih =>
    cases item with
    | char a => rw [List.cons_append, render, ih, render, List.cons_append]
    | code k => rw [List.cons_append, render, ih, render, List.append_assoc]

theorem render_chars (code : Nat → List α) (s : List α) :
  render code (s.map .char) = s
  := by
  induction s with
  | nil => rfl
  | cons a s ih => rw [List.map_cons, render, ih]

/-- A text that meets no start of a code starts with the same characters whatever the codes are
replaced by. -/
theorem prefix_render {f g : Nat → List α} {s : List α} {items : List (Item α)}
    (hf : ∀ k, .code k ∈ items → ∃ a ∈ (f k).head?, a ∉ s) (h : s <+: render f items) :
  s <+: render g items
  := by
  induction items generalizing s with
  | nil => apply h
  | cons item items ih =>
    cases s with
    | nil => apply List.nil_prefix
    | cons b s =>
      cases item with
      | char a =>
        rw [render, List.cons_prefix_cons] at h ⊢
        use h.1
        apply ih _ h.2
        intro k hk
        obtain ⟨a, ha, hnot⟩ := hf k (List.mem_cons_of_mem _ hk)
        use a, ha
        intro hmem
        apply hnot (List.mem_cons_of_mem _ hmem)
      | code k =>
        obtain ⟨a, ha, hnot⟩ := hf k List.mem_cons_self
        obtain ⟨t, ht⟩ := List.head?_eq_some_iff.mp ha
        rw [render, ht, List.cons_append, List.cons_prefix_cons] at h
        rw [h.1] at hnot
        apply absurd List.mem_cons_self hnot

namespace Codebook

variable (C : Codebook α)

/-- The code of a number. -/
def code (k : Nat) : List α := C.codes.getD k []

/-- The texts of the codes where those `done` holds of are replaced. -/
def replaced (new : Nat → List α) (done : Nat → Prop) [DecidablePred done]
    (k : Nat) : List α :=
  if done k then new k else C.code k

/-- Items a text is read into: a character is one at which no code starts. -/
def Read : List (Item α) → Prop
  | [] => True
  | .char a :: items => (∀ code ∈ C.codes, ¬ code <+: a :: render C.code items) ∧ Read items
  | .code k :: items => k < C.codes.length ∧ Read items

variable {C}

theorem code_eq {k : Nat} (hk : k < C.codes.length) :
  ∃ body, C.code k = C.mark :: body ∧ C.mark ∉ body
  := by
  have hcode : C.code k = C.codes[k] := List.getD_eq_getElem _ _ hk
  obtain ⟨hhead, htail⟩ := C.marked _ (List.getElem_mem hk)
  rw [← hcode] at hhead htail
  obtain ⟨body, hbody⟩ := List.head?_eq_some_iff.mp hhead
  use body, hbody
  rwa [hbody, List.tail_cons] at htail

/-- A code starts no other one. -/
theorem eq_of_starts {i k : Nat} (hi : i < C.codes.length) (hk : k < C.codes.length)
    (h : C.code i <+: C.code k) :
  i = k
  := by
  rw [code, code, List.getD_eq_getElem _ _ hi, List.getD_eq_getElem _ _ hk] at h
  have hpair := List.pairwise_iff_getElem.mp C.prefixFree
  rcases Nat.lt_trichotomy i k with hlt | heq | hgt
  · apply absurd h (hpair i k hi hk hlt).1
  · apply heq
  · apply absurd h (hpair k i hk hi hgt).2

theorem Read.lt {items : List (Item α)} (h : C.Read items) {k : Nat} (hk : .code k ∈ items) :
  k < C.codes.length
  := by
  induction items with
  | nil => cases hk
  | cons item items ih =>
    rcases List.mem_cons.mp hk with rfl | htail
    · apply h.1
    · cases item with
      | char a => apply ih h.2 htail
      | code k' => apply ih h.2 htail

/-- Characters that are no marks start no code. -/
theorem Read.chars {items : List (Item α)} (h : C.Read items) {s : List α} (hs : C.mark ∉ s) :
  C.Read (s.map .char ++ items)
  := by
  induction s with
  | nil => apply h
  | cons a s ih =>
    rw [List.mem_cons, not_or] at hs
    refine ⟨?_, ih hs.2⟩
    intro code hcode hstarts
    obtain ⟨hhead, -⟩ := C.marked code hcode
    obtain ⟨body, rfl⟩ := List.head?_eq_some_iff.mp hhead
    apply hs.1 (List.cons_prefix_cons.mp hstarts).1

theorem Read.of_append {items items' : List (Item α)} (h : C.Read (items ++ items')) :
  C.Read items ∧ C.Read items'
  := by
  induction items with
  | nil => exact ⟨trivial, h⟩
  | cons item items ih =>
    cases item with
    | char a =>
      rw [List.cons_append] at h
      obtain ⟨hread, hread'⟩ := ih h.2
      refine ⟨⟨?_, hread⟩, hread'⟩
      intro code hcode hstarts
      apply h.1 code hcode
      rw [render_append, ← List.cons_append]
      apply hstarts.trans (List.prefix_append _ _)
    | code k =>
      obtain ⟨hread, hread'⟩ := ih h.2
      exact ⟨⟨h.1, hread⟩, hread'⟩

/-- A code that starts in the text before a mark ends there. -/
theorem prefix_of_prefix_mark {code s t : List α} (hcode : code ∈ C.codes) (hs : s ≠ [])
    (h : code <+: s ++ C.mark :: t) :
  code <+: s
  := by
  rcases List.prefix_or_prefix_of_prefix h (List.prefix_append s _) with hstarts | ⟨rest, rfl⟩
  · apply hstarts
  · rw [List.prefix_append_right_inj] at h
    cases rest with
    | nil => simp
    | cons a rest =>
      obtain ⟨b, s, rfl⟩ := List.exists_cons_of_ne_nil hs
      obtain ⟨-, hnot⟩ := C.marked _ hcode
      obtain ⟨rfl, -⟩ := List.cons_prefix_cons.mp h
      simp at hnot

/-- Where no code starts at a character, none starts there after replacements. -/
theorem Read.not_starts {new : Nat → List α}
    (hstart : ∀ k, ∃ a ∈ (new k).head?, ∀ code ∈ C.codes, a ∉ code)
    {a : α} {items : List (Item α)} (hread : C.Read (.char a :: items))
    (done : Nat → Prop) [DecidablePred done] :
  ∀ code ∈ C.codes, ¬ code <+: a :: render (C.replaced new done) items
  := by
  intro code hmem hstarts
  obtain ⟨hhead, hnot⟩ := C.marked code hmem
  obtain ⟨body, rfl⟩ := List.head?_eq_some_iff.mp hhead
  apply hread.1 _ hmem
  rw [List.cons_prefix_cons] at hstarts ⊢
  use hstarts.1
  apply prefix_render _ hstarts.2
  intro k hk
  rw [replaced]
  split
  · obtain ⟨a, ha, hcodes⟩ := hstart k
    use a, ha
    intro hin
    apply hcodes _ hmem (List.mem_cons_of_mem _ hin)
  · obtain ⟨body', hbody', -⟩ := code_eq (hread.2.lt hk)
    use C.mark
    rw [hbody']
    exact ⟨rfl, hnot⟩

/-- The items of a text after replacements, one item of it before them. -/
def spelled (new : Nat → List α) (done : Nat → Prop) [DecidablePred done] :
    Item α → List (Item α)
  | .char a => [.char a]
  | .code k => if done k then (new k).map .char else [.code k]

theorem render_spelled (new : Nat → List α) (done : Nat → Prop) [DecidablePred done]
    (items : List (Item α)) :
  render C.code (items.flatMap (spelled new done)) = render (C.replaced new done) items
  := by
  induction items with
  | nil => rfl
  | cons item items ih =>
    rw [List.flatMap_cons, render_append, ih]
    cases item with
    | char a => rfl
    | code k =>
      rw [spelled, render, replaced]
      split
      · rw [render_chars]
      · rw [render, render, List.append_nil]

/-- The replaced text is read with what is new as characters. -/
theorem Read.spelled {new : Nat → List α} (hmark : ∀ k, C.mark ∉ new k)
    (hstart : ∀ k, ∃ a ∈ (new k).head?, ∀ code ∈ C.codes, a ∉ code)
    {items : List (Item α)} (hread : C.Read items) {done : Nat → Prop} [DecidablePred done] :
  C.Read (items.flatMap (spelled new done))
  := by
  induction items with
  | nil => trivial
  | cons item items ih =>
    rw [List.flatMap_cons]
    cases item with
    | char a =>
      refine ⟨?_, ih hread.2⟩
      intro code hcode
      change ¬ code <+: a :: render C.code (items.flatMap _)
      rw [render_spelled]
      apply hread.not_starts hstart done code hcode
    | code k =>
      have ih := ih hread.2
      rw [Codebook.spelled]
      split
      · apply ih.chars (hmark k)
      · exact ⟨hread.1, ih⟩

theorem spelled_eq_append {new : Nat → List α} {done : Nat → Prop} [DecidablePred done]
    {k : Nat} (hk : ¬ done k) {item : Item α} {before after : List (Item α)}
    (h : spelled new done item = before ++ .code k :: after) :
  item = .code k ∧ before = [] ∧ after = []
  := by
  have hmem : .code k ∈ spelled new done item := by simp [h]
  have heq : item = .code k := by
    cases item with
    | char a => simp [spelled] at hmem
    | code i =>
      rw [spelled] at hmem
      split at hmem
      · simp at hmem
      · rw [List.mem_singleton.mp hmem]
  subst heq
  rw [spelled, if_neg hk, eq_comm, List.append_eq_singleton_iff] at h
  simpa using h

/-- A code in the spelled items is one of the items, between those that spell the others. -/
theorem split_spelled {new : Nat → List α} {done : Nat → Prop} [DecidablePred done] {k : Nat}
    (hk : ¬ done k) {items before after : List (Item α)}
    (h : items.flatMap (spelled new done) = before ++ .code k :: after) :
  ∃ items₁ items₂, items = items₁ ++ .code k :: items₂
    ∧ items₁.flatMap (spelled new done) = before ∧ items₂.flatMap (spelled new done) = after
  := by
  induction items generalizing before with
  | nil => simp at h
  | cons item items ih =>
    rw [List.flatMap_cons] at h
    rcases List.append_eq_append_iff.mp h with ⟨between, rfl, hrest⟩ | ⟨between, heq, hrest⟩
    · obtain ⟨items₁, items₂, rfl, rfl, hafter⟩ := ih hrest
      use item :: items₁, items₂, rfl, List.flatMap_cons, hafter
    · cases between with
      | nil =>
        obtain ⟨items₁, items₂, rfl, hnil, hafter⟩ := @ih [] hrest.symm
        use item :: items₁, items₂, rfl
        rw [List.flatMap_cons, hnil, heq]
        exact ⟨by simp, hafter⟩
      | cons item' between =>
        rw [List.cons_append, List.cons.injEq] at hrest
        obtain ⟨rfl, rfl⟩ := hrest
        -- only a code that stays spells a code
        obtain ⟨rfl, rfl, rfl⟩ := spelled_eq_append hk heq
        use [], items, rfl, rfl
        rfl

end Codebook

/-! ### Replacing -/

theorem intercalate_modifyHead (new : List α) (a : α) {pieces : List (List α)}
    (h : pieces ≠ []) :
  new.intercalate (pieces.modifyHead fun piece => a :: piece) = a :: new.intercalate pieces
  := by
  obtain ⟨piece, pieces, rfl⟩ := List.exists_cons_of_ne_nil h
  cases pieces with
  | nil => simp
  | cons piece' pieces => simp

variable [DecidableEq α]

/-- The pieces of a text between the occurrences of `old`, where the first `n` characters of
the text are those left of an occurrence. -/
def cut (old : List α) : (n : Nat) → List α → List (List α)
  | _, [] => [[]]
  | n + 1, _ :: s => cut old n s
  | 0, a :: s =>
      if old.isPrefixOf (a :: s) then [] :: cut old (old.length - 1) s
      else (cut old 0 s).modifyHead fun piece => a :: piece

/-- The text with `new` in the place of `old`. -/
def replace (old new s : List α) : List α := new.intercalate (cut old 0 s)

theorem cut_ne_nil (old : List α) (n : Nat) (s : List α) :
  cut old n s ≠ []
  := by
  induction s generalizing n with
  | nil => simp [cut]
  | cons a s ih =>
    cases n with
    | succ n => apply ih
    | zero =>
      rw [cut]
      split
      · simp
      · obtain ⟨piece, pieces, h⟩ := List.exists_cons_of_ne_nil (ih 0)
        simp [h]

theorem cut_skip (old s t : List α) :
  cut old s.length (s ++ t) = cut old 0 t
  := by
  induction s with
  | nil => rfl
  | cons a s ih => apply ih

theorem replace_nil (old new : List α) :
  replace old new [] = []
  := by
  simp [replace, cut]

/-- An occurrence at the start is replaced. -/
theorem replace_append {old : List α} (h : old ≠ []) (new s : List α) :
  replace old new (old ++ s) = new ++ replace old new s
  := by
  obtain ⟨a, t, rfl⟩ := List.exists_cons_of_ne_nil h
  have hstarts : (a :: t).isPrefixOf (a :: (t ++ s)) = true := by
    rw [List.isPrefixOf_iff_prefix]
    apply List.prefix_append
  obtain ⟨piece, pieces, hcut⟩ := List.exists_cons_of_ne_nil (cut_ne_nil (a :: t) 0 s)
  rw [replace, replace, List.cons_append, cut, if_pos hstarts, List.length_cons,
    Nat.add_sub_cancel, cut_skip, hcut, List.intercalate_cons_cons, List.nil_append]

/-- A character at which no occurrence starts stays. -/
theorem replace_cons {old s : List α} {a : α} (h : ¬ old <+: a :: s) (new : List α) :
  replace old new (a :: s) = a :: replace old new s
  := by
  rw [← List.isPrefixOf_iff_prefix] at h
  rw [replace, cut, if_neg h, intercalate_modifyHead new a (cut_ne_nil old 0 s), replace]

/-- Characters other than the first one of `old` stay. -/
theorem replace_of_not_mem {mark : α} {body s : List α} (h : mark ∉ s) (new t : List α) :
  replace (mark :: body) new (s ++ t) = s ++ replace (mark :: body) new t
  := by
  induction s with
  | nil => rfl
  | cons a s ih =>
    rw [List.mem_cons, not_or] at h
    rw [List.cons_append, replace_cons, ih h.2, List.cons_append]
    intro hstarts
    apply h.1 (List.cons_prefix_cons.mp hstarts).1

theorem replace_of_absent {old s : List α} (h : ¬ old <:+: s) (new : List α) :
  replace old new s = s
  := by
  induction s with
  | nil => apply replace_nil
  | cons a s ih =>
    rw [List.infix_cons_iff, not_or] at h
    rw [replace_cons h.1, ih h.2]

/-! ### Reading a text -/

namespace Codebook

variable (C : Codebook α)

/-- The number of the code a text starts with. -/
def find (s : List α) : Option Nat := C.codes.findIdx? fun code => code.isPrefixOf s

/-- The items a text is read into, where the first `n` characters of the text are those left
of a code. -/
def items : (n : Nat) → List α → List (Item α)
  | _, [] => []
  | n + 1, _ :: s => items n s
  | 0, a :: s =>
      match C.find (a :: s) with
      | some k => .code k :: items ((C.code k).length - 1) s
      | none => .char a :: items 0 s

/-- The text with codes replaced one after another, in this order. -/
def replaceIn (new : Nat → List α) (order : List Nat) (s : List α) : List α :=
  order.foldl (fun s k => replace (C.code k) (new k) s) s

/-- The text with the codes replaced one after another. -/
def replaceAll (new : Nat → List α) (s : List α) : List α :=
  (List.range C.codes.length).foldl (fun s k => replace (C.code k) (new k) s) s

variable {C}

theorem items_skip (s t : List α) :
  C.items s.length (s ++ t) = C.items 0 t
  := by
  induction s with
  | nil => cases t <;> rfl
  | cons a s ih => apply ih

/-- A text is read into items that make it up. -/
theorem items_spec (s : List α) :
  render C.code (C.items 0 s) = s ∧ C.Read (C.items 0 s)
  := by
  induction hn : s.length using Nat.strong_induction_on generalizing s with
  | _ n ih =>
    cases s with
    | nil => exact ⟨rfl, trivial⟩
    | cons a s =>
      rw [items]
      cases hfind : C.find (a :: s) with
      | none =>
        obtain ⟨hrender, hread⟩ := ih s.length (by rw [← hn]; simp) s rfl
        refine ⟨by rw [render, hrender], ?_, hread⟩
        rw [hrender]
        intro code hcode hstarts
        have hnone := List.findIdx?_eq_none_iff.mp hfind code hcode
        rw [List.isPrefixOf_iff_prefix.mpr hstarts] at hnone
        cases hnone
      | some k =>
        obtain ⟨hk, hstarts, -⟩ := List.findIdx?_eq_some_iff_getElem.mp hfind
        obtain ⟨body, hbody, -⟩ := code_eq hk
        rw [List.isPrefixOf_iff_prefix, ← List.getD_eq_getElem _ [] hk] at hstarts
        change C.code k <+: _ at hstarts
        rw [hbody, List.cons_prefix_cons] at hstarts
        obtain ⟨rfl, t, rfl⟩ := hstarts
        have hlt : t.length < n := by
          rw [← hn, List.length_cons, List.length_append]
          omega
        obtain ⟨hrender, hread⟩ := ih t.length hlt t rfl
        simp only [hbody, List.length_cons, Nat.add_sub_cancel, items_skip, render, hrender]
        exact ⟨rfl, hk, hread⟩

theorem find_code {k : Nat} (hk : k < C.codes.length) (s : List α) :
  C.find (C.code k ++ s) = some k
  := by
  rw [find, List.findIdx?_eq_some_iff_getElem]
  use hk
  have hget : ∀ {i : Nat} (hi : i < C.codes.length), C.codes[i] = C.code i := by
    intro i hi
    apply (List.getD_eq_getElem _ _ hi).symm
  constructor
  · rw [hget hk, List.isPrefixOf_iff_prefix]
    apply List.prefix_append
  · intro i hlt hstarts
    have hi := hlt.trans hk
    rw [hget hi, List.isPrefixOf_iff_prefix] at hstarts
    rcases List.prefix_or_prefix_of_prefix hstarts (List.prefix_append _ _) with h | h
    · have := eq_of_starts hi hk h
      omega
    · have := eq_of_starts hk hi h
      omega

/-- There is one way to read a text. -/
theorem items_render {items : List (Item α)} (h : C.Read items) :
  C.items 0 (render C.code items) = items
  := by
  induction items with
  | nil => rfl
  | cons item items ih =>
    cases item with
    | char a =>
      have hfind : C.find (a :: render C.code items) = none := by
        rw [find, List.findIdx?_eq_none_iff]
        intro code hcode
        rw [Bool.eq_false_iff, ne_eq, List.isPrefixOf_iff_prefix]
        apply h.1 code hcode
      rw [render, Codebook.items, hfind, ih h.2]
    | code k =>
      have hfind := find_code h.1 (render C.code items)
      obtain ⟨body, hbody, -⟩ := code_eq h.1
      rw [hbody, List.cons_append] at hfind
      rw [render, hbody, List.cons_append, Codebook.items, hfind]
      simp only [hbody, List.length_cons, Nat.add_sub_cancel, items_skip, ih h.2]

/-- A code is read wherever it occurs. -/
theorem items_append_code {k : Nat} (hk : k < C.codes.length) (s t : List α) :
  C.items 0 (s ++ C.code k ++ t) = C.items 0 s ++ .code k :: C.items 0 t
  := by
  obtain ⟨hrender, hread⟩ := items_spec (C := C) s
  obtain ⟨hrender', hread'⟩ := items_spec (C := C) t
  have hboth : C.Read (C.items 0 s ++ .code k :: C.items 0 t) := by
    generalize C.items 0 s = items at hread
    induction items with
    | nil => exact ⟨hk, hread'⟩
    | cons item items ih =>
      cases item with
      | char a =>
        rw [List.cons_append]
        refine ⟨?_, ih hread.2⟩
        intro code hcode hstarts
        obtain ⟨body, hbody, -⟩ := code_eq hk
        rw [render_append, render, hbody, List.cons_append, ← List.cons_append] at hstarts
        apply hread.1 code hcode (prefix_of_prefix_mark hcode (List.cons_ne_nil _ _) hstarts)
      | code k' => exact ⟨hread.1, ih hread.2⟩
  rw [← items_render hboth, render_append, render, hrender, hrender', List.append_assoc]

/-! ### Replacing all codes -/

/-- The items of a text with the codes below `i` replaced. -/
def stage (C : Codebook α) (new : Nat → List α) (i k : Nat) : List α :=
  if k < i then new k else C.code k

section

variable {new : Nat → List α} (hmark : ∀ k, C.mark ∉ new k)
  (hstart : ∀ k, ∃ a ∈ (new k).head?, ∀ code ∈ C.codes, a ∉ code)

include hmark hstart

/-- Replacing one more code. -/
theorem replace_replaced {items : List (Item α)} (hread : C.Read items) {i : Nat}
    (hi : i < C.codes.length) (done : Nat → Prop) [DecidablePred done] :
  replace (C.code i) (new i) (render (C.replaced new done) items)
    = render (C.replaced new fun k => done k ∨ k = i) items
  := by
  obtain ⟨body, hbody, hnot⟩ := code_eq hi
  have hmem : C.code i ∈ C.codes := by
    rw [code, List.getD_eq_getElem _ _ hi]
    apply List.getElem_mem
  induction items with
  | nil => apply replace_nil
  | cons item items ih =>
    cases item with
    | char a => rw [render, render, replace_cons (hread.not_starts hstart done _ hmem), ih hread.2]
    | code k =>
      have ih := ih hread.2
      rw [render, render]
      by_cases hdone : done k
      · have hold : C.replaced new done k = new k := if_pos hdone
        have hnew : C.replaced new (fun k => done k ∨ k = i) k = new k := if_pos (Or.inl hdone)
        rw [hold, hnew, hbody, replace_of_not_mem (hmark k), ← hbody, ih]
      · have hold : C.replaced new done k = C.code k := if_neg hdone
        by_cases heq : k = i
        · have hnew : C.replaced new (fun k => done k ∨ k = i) k = new k := if_pos (Or.inr heq)
          rw [hold, hnew, heq, replace_append (by simp [hbody]), ih]
        · have hnew : C.replaced new (fun k => done k ∨ k = i) k = C.code k := by
            apply if_neg
            rw [not_or]
            exact ⟨hdone, heq⟩
          obtain ⟨body', hbody', hnot'⟩ := code_eq hread.1
          rw [hold, hnew, hbody', List.cons_append, replace_cons, hbody,
            replace_of_not_mem hnot', ← hbody, ih, List.cons_append]
          -- neither of two codes starts the other one
          rw [← List.cons_append, ← hbody']
          intro hstarts
          apply heq
          rcases List.prefix_or_prefix_of_prefix hstarts (List.prefix_append _ _) with h | h
          · apply (eq_of_starts hi hread.1 h).symm
          · apply eq_of_starts hread.1 hi h

/-- Replacing the next code. -/
theorem replace_stage {items : List (Item α)} (hread : C.Read items) {i : Nat}
    (hi : i < C.codes.length) :
  replace (C.code i) (new i) (render (C.stage new i) items)
    = render (C.stage new (i + 1)) items
  := by
  apply (replace_replaced hmark hstart hread hi fun k => k < i).trans
  apply render_congr
  intro k _
  simp only [replaced, stage, Nat.lt_succ_iff_lt_or_eq]

/-- Replacing codes one after another, everywhere, replaces those of them the text is read
into. -/
theorem replaceIn_eq {order : List Nat} (horder : ∀ i ∈ order, i < C.codes.length) (s : List α) :
  C.replaceIn new order s = render (C.replaced new fun k => k ∈ order) (C.items 0 s)
  := by
  obtain ⟨hrender, hread⟩ := items_spec (C := C) s
  induction order using List.reverseRecOn with
  | nil => exact hrender.symm
  | append_singleton order i ih =>
    rw [replaceIn, List.foldl_append]
    change replace (C.code i) (new i) (C.replaceIn new order s) = _
    rw [ih fun k hk => horder k (List.mem_append_left _ hk),
      replace_replaced hmark hstart hread (horder i (by simp))]
    apply render_congr
    intro k _
    simp only [replaced, List.mem_append, List.mem_singleton]

/-- The codes that are not replaced are found where they were, and nowhere else. -/
theorem replaceIn_occurs_iff {order : List Nat} (horder : ∀ i ∈ order, i < C.codes.length)
    {k : Nat} (hk : k < C.codes.length) (hnot : k ∉ order) {s before after : List α} :
  C.replaceIn new order s = before ++ C.code k ++ after
    ↔ ∃ t u, s = t ++ C.code k ++ u ∧ C.replaceIn new order t = before
        ∧ C.replaceIn new order u = after
  := by
  have hspelled : ∀ s, C.items 0 (C.replaceIn new order s)
      = (C.items 0 s).flatMap (spelled new fun k => k ∈ order) := by
    intro s
    rw [replaceIn_eq hmark hstart horder, ← render_spelled, items_render]
    apply (items_spec s).2.spelled hmark hstart
  have hstay : spelled new (fun k => k ∈ order) (.code k) = [.code k] := if_neg hnot
  constructor
  · intro h
    have hitems := hspelled s
    rw [h, items_append_code hk, eq_comm] at hitems
    obtain ⟨p, q, hpq, hp, hq⟩ := split_spelled hnot hitems
    obtain ⟨hrender, hread⟩ := items_spec (C := C) s
    rw [hpq] at hrender hread
    obtain ⟨hreadp, -, hreadq⟩ := hread.of_append
    use render C.code p, render C.code q
    refine ⟨?_, ?_, ?_⟩
    · rw [← hrender, render_append, render, List.append_assoc]
    · rw [replaceIn_eq hmark hstart horder, items_render hreadp, ← render_spelled, hp,
        (items_spec before).1]
    · rw [replaceIn_eq hmark hstart horder, items_render hreadq, ← render_spelled, hq,
        (items_spec after).1]
  · rintro ⟨t, u, rfl, rfl, rfl⟩
    rw [replaceIn_eq hmark hstart horder, items_append_code hk, render_append, render,
      ← replaceIn_eq hmark hstart horder, ← replaceIn_eq hmark hstart horder,
      List.append_assoc]
    congr 2
    apply if_neg hnot

/-- The codes that are replaced are found nowhere. -/
theorem replaceIn_absent {order : List Nat} (horder : ∀ i ∈ order, i < C.codes.length)
    {k : Nat} (hk : k ∈ order) (s : List α) :
  ¬ C.code k <:+: C.replaceIn new order s
  := by
  rintro ⟨t, u, h⟩
  have hitems := items_append_code (horder k hk) t u
  rw [h, replaceIn_eq hmark hstart horder, ← render_spelled,
    items_render ((items_spec s).2.spelled hmark hstart)] at hitems
  have hmem : .code k ∈ (C.items 0 s).flatMap (spelled new fun k => k ∈ order) := by
    rw [hitems]
    simp
  obtain ⟨item, -, hin⟩ := List.mem_flatMap.mp hmem
  cases item with
  | char a => simp [spelled] at hin
  | code i =>
    rw [spelled] at hin
    split at hin
    · simp at hin
    · rename_i hnot
      obtain rfl : k = i := by simpa using hin
      apply hnot hk

/-- Replacing the codes one after another, everywhere, replaces those the text is read into. -/
theorem replaceAll_eq (s : List α) :
  C.replaceAll new s = render new (C.items 0 s)
  := by
  obtain ⟨hrender, hread⟩ := items_spec (C := C) s
  have hstages : ∀ i ≤ C.codes.length,
      (List.range i).foldl (fun s k => replace (C.code k) (new k) s) s
        = render (C.stage new i) (C.items 0 s) := by
    intro i hi
    induction i with
    | zero =>
      have hcode : C.stage new 0 = C.code := by
        funext k
        apply if_neg (Nat.not_lt_zero k)
      rw [hcode, hrender]
      rfl
    | succ i ih =>
      rw [List.range_succ, List.foldl_append, ih (by omega), List.foldl_cons, List.foldl_nil,
        replace_stage hmark hstart hread hi]
  rw [replaceAll, hstages _ le_rfl]
  apply render_congr
  intro k hk
  apply if_pos (hread.lt hk)

end

end Codebook

end Basis
