import IFreeChat.Hash.Rings
import IFreeChat.Ifc.Config

/-!
# The groups of the configuration

`read_cfg` has one name, one info and one number for all groups.  A section `group` overwrites
those of its children, and the group is made from what the variables have then; the strings are
placed where the entry has its nodes.  So a group is read from its own children exactly when it
has all three of them, and its strings end before the nodes (`loads_own_iff`).
-/

open Basis

namespace IFreeChat

open Chatboxes (sizeofGroup offsetGroupId offsetGnode offsetUlist)
open GroupEntry (sizeofGroupEntry entrySize fillEntry StringAt SelfLinked)

namespace Config

/-! ### What a group should be -/

/-- The name, the info and the number of a group. -/
structure View where
  name : List UInt8
  info : List UInt8
  id : UInt32

/-- The entry reads as a group. -/
structure Reads (mem : Memory) (entry : Nat) (v : View) : Prop where
  name : StringAt mem (mem.loadSize entry) v.name
  name_nul : 0 ∉ v.name
  info : StringAt mem (mem.loadSize (entry + 8)) v.info
  info_nul : 0 ∉ v.info
  id : mem.read (entry + offsetGroupId) 4 = Memory.bytesOf 4 v.id.toNat

/-- The blocks lie in the address space, and apart from each other and from `glist`. -/
structure Fresh (glist : Nat) (added : List (Nat × Nat)) : Prop where
  fits : ∀ b ∈ added, b.1 + b.2 ≤ sizeModulus
  glist : ∀ b ∈ added, Apart b.1 b.2 glist 16
  apart : added.Pairwise fun b c => Apart b.1 b.2 c.1 c.2

/-- The pool has a block for every group, `hash_insert` does not fail, and `glist` is empty. -/
structure Env.Ready (env : Env) : Prop where
  alloc : ∀ n, ∃ entry, env.alloc n = some entry
  insert : ∀ n, 0 ≤ env.hashInsert n
  glist : SelfLinked env.mem env.glist
  fits : env.glist + 16 ≤ sizeModulus

/-- The walk along `glist` visits the groups that have been added, which read as these. -/
structure Holds (env : Env) (g : Groups) (views : List View) : Prop where
  walk : ∃ fuel, (Dlist.links g.mem).walk env.glist fuel ((Dlist.links g.mem).next env.glist)
    = some (g.added.map fun b => b.1 + offsetGnode)
  reads : List.Forall₂ (fun b v => Reads g.mem b.1 v) g.added views

/-- The element alone makes a group that reads so. -/
def Own (curNode : Section) (v : View) : Prop :=
  ∀ env : Env, env.Ready → ∃ t, readCfg env (some [curNode]) = some (0, t)
    ∧ (Fresh env.glist t.groups.added → Holds env t.groups [v])

/-- The elements that should make a group. -/
def groupElements (sections : List Section) : List Section :=
  sections.filter fun curNode => curNode.isElement ∧ curNode.name = ascii "group"

/-- The document is read with one group for every element, in their order, each of which reads
as the element makes it alone. -/
def LoadsOwn (sections : List Section) : Prop :=
  ∃ views, List.Forall₂ Own (groupElements sections) views
    ∧ ∀ env : Env, env.Ready → ∃ t, readCfg env (some sections) = some (0, t)
        ∧ t.groups.added.length = views.length
        ∧ (Fresh env.glist t.groups.added → Holds env t.groups views)

/-! ### The children of a group -/

/-- The last child of a name. -/
def lastOf (name : List UInt8) (children : List Item) : Option XmlText :=
  ((children.filter fun p => p.isElement ∧ p.name = name).map Item.content).getLast?

/-- A name or an info that fits its array. -/
def ItemFits (p : Item) : Prop :=
  p.isElement → p.name = ascii "name" ∨ p.name = ascii "info" → p.content.val.length < 128

/-- The variables once the children have been read. -/
structure ItemsRead (g : Groups) (children : List Item) (g' : Groups) : Prop where
  name : g'.gpname.map CArray.text
    = ((lastOf (ascii "name") children).map XmlText.val).or (g.gpname.map CArray.text)
  info : g'.gpinfo.map CArray.text
    = ((lastOf (ascii "info") children).map XmlText.val).or (g.gpinfo.map CArray.text)
  id : g'.gpid = ((lastOf (ascii "id") children).map fun c => strtoulId c.val).getD g.gpid
  mem : g'.mem = g.mem
  calls : g'.calls = g.calls
  added : g'.added = g.added

theorem lastOf_cons (name : List UInt8) (p : Item) (ps : List Item) :
  lastOf name (p :: ps) = (lastOf name ps).or (lastOf name [p])
  := by
  rw [lastOf, ← List.singleton_append, List.filter_append, List.map_append, List.getLast?_append,
    lastOf, lastOf]

theorem lastOf_singleton (name : List UInt8) (p : Item) :
  lastOf name [p] = if p.isElement ∧ p.name = name then some p.content else none
  := by
  by_cases h : p.isElement ∧ p.name = name
  · simp [lastOf, h]
  · simp [lastOf, h]

theorem ItemsRead.nil (g : Groups) :
  ItemsRead g [] g
  := ⟨rfl, rfl, rfl, rfl, rfl, rfl⟩

theorem ItemsRead.trans {g g₁ g' : Groups} {p : Item} {ps : List Item}
    (h : ItemsRead g [p] g₁) (h' : ItemsRead g₁ ps g') :
  ItemsRead g (p :: ps) g'
  := by
  constructor
  · rw [h'.name, h.name, lastOf_cons (ascii "name") p ps, Option.map_or, Option.or_assoc]
  · rw [h'.info, h.info, lastOf_cons (ascii "info") p ps, Option.map_or, Option.or_assoc]
  · rw [h'.id, h.id, lastOf_cons (ascii "id") p ps]
    cases lastOf (ascii "id") ps with
    | none => rfl
    | some c => rfl
  · rw [h'.mem, h.mem]
  · rw [h'.calls, h.calls]
  · rw [h'.added, h.added]

/-- One child sets the variable of its name. -/
theorem readGroupItem_read {g g' : Groups} {p : Item} (h : readGroupItem g p = some g') :
  ItemFits p ∧ ItemsRead g [p] g'
  := by
  have hid : ascii "id" ≠ ascii "name" := by decide
  have hinfo : ascii "info" ≠ ascii "name" := by decide
  have hinfo' : ascii "info" ≠ ascii "id" := by decide
  rw [readGroupItem] at h
  by_cases helement : p.isElement
  · rw [if_pos helement] at h
    by_cases hname : p.name = ascii "name"
    · rw [if_pos hname] at h
      obtain ⟨a, ha, rfl⟩ := Option.map_eq_some_iff.mp h
      obtain ⟨hfits, htext⟩ := strcpy_eq_some ha
      refine ⟨fun _ _ => hfits, ?_, ?_, ?_, rfl, rfl, rfl⟩
      · simp [lastOf_singleton, helement, hname, htext]
      · simp [lastOf_singleton, hname, hinfo.symm]
      · simp [lastOf_singleton, hname, hid.symm]
    rw [if_neg hname] at h
    by_cases hpid : p.name = ascii "id"
    · rw [if_pos hpid] at h
      cases h
      refine ⟨?_, ?_, ?_, ?_, rfl, rfl, rfl⟩
      · rw [ItemFits, hpid]
        tauto
      · simp [lastOf_singleton, hpid, hid]
      · simp [lastOf_singleton, hpid, hinfo'.symm]
      · simp [lastOf_singleton, helement, hpid]
    rw [if_neg hpid] at h
    by_cases hpinfo : p.name = ascii "info"
    · rw [if_pos hpinfo] at h
      obtain ⟨a, ha, rfl⟩ := Option.map_eq_some_iff.mp h
      obtain ⟨hfits, htext⟩ := strcpy_eq_some ha
      refine ⟨fun _ _ => hfits, ?_, ?_, ?_, rfl, rfl, rfl⟩
      · simp [lastOf_singleton, hpinfo, hinfo]
      · simp [lastOf_singleton, helement, hpinfo, htext]
      · simp [lastOf_singleton, hpinfo, hinfo']
    · rw [if_neg hpinfo] at h
      cases h
      refine ⟨?_, ?_, ?_, ?_, rfl, rfl, rfl⟩
      · rw [ItemFits]
        tauto
      · simp [lastOf_singleton, hname]
      · simp [lastOf_singleton, hpinfo]
      · simp [lastOf_singleton, hpid]
  · rw [if_neg helement] at h
    cases h
    refine ⟨fun h => absurd h helement, ?_⟩
    constructor <;> simp [lastOf_singleton, helement]

/-- The children are read exactly if their texts fit. -/
theorem readGroupItem_foldlM {children : List Item} {g g' : Groups}
    (h : children.foldlM readGroupItem g = some g') :
  (∀ p ∈ children, ItemFits p) ∧ ItemsRead g children g'
  := by
  induction children generalizing g with
  | nil =>
    cases h
    exact ⟨by simp, ItemsRead.nil _⟩
  | cons p ps ih =>
    rw [List.foldlM_cons] at h
    obtain ⟨g₁, hp, hps⟩ := Option.bind_eq_some_iff.mp h
    obtain ⟨hfits, hread⟩ := readGroupItem_read hp
    obtain ⟨hrest, hread'⟩ := ih hps
    exact ⟨List.forall_mem_cons.mpr ⟨hfits, hrest⟩, hread.trans hread'⟩

/-- Children whose texts fit are read. -/
theorem readGroupItem_returns {children : List Item} (hfits : ∀ p ∈ children, ItemFits p)
    (g : Groups) :
  ∃ g', children.foldlM readGroupItem g = some g'
  := by
  induction children generalizing g with
  | nil => exact ⟨g, rfl⟩
  | cons p ps ih =>
    obtain ⟨hp, hps⟩ := List.forall_mem_cons.mp hfits
    obtain ⟨g₁, hg₁⟩ : ∃ g₁, readGroupItem g p = some g₁ := by
      rw [readGroupItem]
      by_cases helement : p.isElement
      · rw [if_pos helement]
        split
        · rename_i hname
          rw [strcpy, dif_pos (hp helement (.inl hname))]
          exact ⟨_, rfl⟩
        · split
          · exact ⟨_, rfl⟩
          · split
            · rename_i hinfo
              rw [strcpy, dif_pos (hp helement (.inr hinfo))]
              exact ⟨_, rfl⟩
            · exact ⟨_, rfl⟩
      · rw [if_neg helement]
        exact ⟨_, rfl⟩
    obtain ⟨g', hg'⟩ := ih hps g₁
    use g'
    rw [List.foldlM_cons, hg₁]
    exact hg'

/-! ### Adding a group -/

/-- Where memory is granted, a group is made from the variables and added. -/
theorem addGroup_eq_some_iff {env : Env} (henv : env.Ready) {g g' : Groups} :
  addGroup env g = some g'
    ↔ ∃ gpname gpinfo entry, g.gpname = some gpname ∧ g.gpinfo = some gpinfo
        ∧ env.alloc g.calls = some entry
        ∧ g' = { g with
            mem := Dlist.addTail (fillEntry g.mem entry gpname.text gpinfo.text g.gpid)
              (entry + offsetGnode) env.glist
            calls := g.calls + 1
            added := g.added ++ [(entry, entrySize gpname.text gpinfo.text)] }
  := by
  obtain ⟨entry, hentry⟩ := henv.alloc g.calls
  have hinsert := henv.insert g.calls
  rw [addGroup, hentry]
  cases g.gpname with
  | none => simp
  | some gpname =>
    cases g.gpinfo with
    | none => simp
    | some gpinfo =>
      simp only [groupAddEntry, if_neg (Int.not_lt.mpr hinsert), Option.some_inj]
      constructor
      · rintro rfl
        exact ⟨gpname, gpinfo, entry, rfl, rfl, rfl, rfl⟩
      · rintro ⟨_, _, _, rfl, rfl, rfl, rfl⟩
        rfl

/-- The strings of the entry end before its nodes, and are there. -/
structure Entry (mem : Memory) (b : Nat × Nat) (v : View) : Prop where
  size : sizeofGroupEntry ≤ b.2
  short : v.name.length + v.info.length ≤ 6
  name_nul : 0 ∉ v.name
  info_nul : 0 ∉ v.info
  groupName : mem.loadSize b.1 = b.1 + sizeofGroup
  groupInfo : mem.loadSize (b.1 + 8) = b.1 + sizeofGroup + (1 + v.name.length)
  strings : mem.read (b.1 + sizeofGroup) (v.name.length + v.info.length + 2)
    = v.name ++ 0 :: (v.info ++ [0])
  id : mem.read (b.1 + offsetGroupId) 4 = Memory.bytesOf 4 v.id.toNat

theorem Entry.reads {mem : Memory} {b : Nat × Nat} {v : View} (h : Entry mem b v) :
  Reads mem b.1 v
  := by
  refine ⟨?_, h.name_nul, ?_, h.info_nul, h.id⟩
  · rw [StringAt, h.groupName]
    have hpart : mem.read (b.1 + sizeofGroup + 0) (v.name.length + 1)
        = ((mem.read (b.1 + sizeofGroup) (v.name.length + v.info.length + 2)).drop 0).take
          (v.name.length + 1) := Memory.read_part (by omega)
    rw [Nat.add_zero, h.strings, List.drop_zero, List.append_cons,
      List.take_left' (by simp)] at hpart
    exact hpart
  · rw [StringAt, h.groupInfo]
    have hpart : mem.read (b.1 + sizeofGroup + (1 + v.name.length)) (v.info.length + 1)
        = ((mem.read (b.1 + sizeofGroup) (v.name.length + v.info.length + 2)).drop
          (1 + v.name.length)).take (v.info.length + 1) := Memory.read_part (by omega)
    rw [h.strings, List.append_cons, List.drop_left' (by simp [Nat.add_comm]),
      List.take_of_length_le (by simp)] at hpart
    exact hpart

/-- An entry is in the bytes of its block before `gnode`. -/
theorem Entry.congr {mem mem' : Memory} {b : Nat × Nat} {v : View} (h : Entry mem b v)
    (hmem : ∀ x, b.1 ≤ x → x < b.1 + offsetGnode → mem' x = mem x) :
  Entry mem' b v
  := by
  have hshort := h.short
  simp only [offsetGnode] at hmem
  refine ⟨h.size, h.short, h.name_nul, h.info_nul, ?_, ?_, ?_, ?_⟩
  · rw [← h.groupName]
    apply Memory.loadSize_congr
    intro x hx hx'
    apply hmem x <;> omega
  · rw [← h.groupInfo]
    apply Memory.loadSize_congr
    intro x hx hx'
    apply hmem x <;> omega
  · rw [← h.strings]
    apply Memory.read_congr
    intro x hx hx'
    simp only [sizeofGroup] at hx hx'
    apply hmem x <;> omega
  · rw [← h.id]
    apply Memory.read_congr
    intro x hx hx'
    simp only [offsetGroupId] at hx hx'
    apply hmem x <;> omega

/-- The size of an entry is that of its fields and its strings. -/
theorem entrySize_eq {gpname gpinfo : List UInt8} (hname : gpname.length < 128)
    (hinfo : gpinfo.length < 128) :
  entrySize gpname gpinfo = 74 + gpname.length + gpinfo.length
  := by
  rw [entrySize, sizeofGroupEntry, sizeT_of_lt]
  · omega
  · rw [sizeModulus]
    omega

/-- An entry with short strings that is filled is an entry. -/
theorem fillEntry_entry (mem : Memory) {entry : Nat} {v : View}
    (hshort : v.name.length + v.info.length ≤ 6) (hname : 0 ∉ v.name) (hinfo : 0 ∉ v.info)
    (hfits : entry + entrySize v.name v.info ≤ sizeModulus) :
  Entry (fillEntry mem entry v.name v.info v.id) (entry, entrySize v.name v.info) v
  := by
  have hsize : entrySize v.name v.info = 74 + v.name.length + v.info.length :=
    entrySize_eq (by omega) (by omega)
  have hlength : (v.name ++ 0 :: (v.info ++ [0])).length = v.name.length + v.info.length + 2 := by
    simp only [List.length_append, List.length_cons, List.length_nil]
    omega
  constructor
  · simp only [sizeofGroupEntry, hsize]
    omega
  · exact hshort
  · exact hname
  · exact hinfo
  · apply GroupEntry.fillEntry_name
    rw [sizeofGroup]
    omega
  · apply GroupEntry.fillEntry_info
    rw [sizeofGroup]
    omega
  · rw [← hlength]
    apply (Memory.read_congr _).trans (Memory.read_write_self mem (entry + sizeofGroup) _)
    intro x hx hx'
    rw [hlength] at hx'
    apply GroupEntry.fillEntry_apply_strings hx
    simp only [sizeofGroup, offsetGnode] at hx' ⊢
    omega
  · apply GroupEntry.fillEntry_id

/-! ### The groups of a document -/

/-- `glist` is a ring of the entries, which are these groups. -/
structure GroupsHold (glist : Nat) (mem : Memory) (added : List (Nat × Nat))
    (views : List View) : Prop where
  ring : (Dlist.links mem).Ring glist (added.map fun b => b.1 + offsetGnode)
  entries : List.Forall₂ (Entry mem) added views

section

variable {glist : Nat} {mem : Memory} {added : List (Nat × Nat)} {views : List View}

theorem GroupsHold.holds {env : Env} {g : Groups}
    (h : GroupsHold env.glist g.mem g.added views) :
  Holds env g views
  := by
  refine ⟨⟨(g.added.map fun b => b.1 + offsetGnode).length + 1, ?_⟩, ?_⟩
  · apply h.ring.walk (Nat.lt_succ_self _)
  · apply h.entries.imp
    intro b v
    apply Entry.reads

/-- The blocks of the entries are large enough. -/
theorem GroupsHold.size (h : GroupsHold glist mem added views) :
  ∀ b ∈ added, sizeofGroupEntry ≤ b.2
  := by
  have hand : List.Forall₂ (fun b v => sizeofGroupEntry ≤ b.2 ∧ Entry mem b v) added views :=
    h.entries.imp fun _ _ hentry => ⟨hentry.size, hentry⟩
  apply ((List.forall₂_and_left _ _).mp hand).1

theorem Fresh.apart_of_mem (h : Fresh glist added) {b c : Nat × Nat} (hb : b ∈ added)
    (hc : c ∈ added) (hne : b ≠ c) :
  Apart b.1 b.2 c.1 c.2
  := by
  have : Std.Symm fun b c : Nat × Nat => Apart b.1 b.2 c.1 c.2 := ⟨fun _ _ => Apart.symm⟩
  apply h.apart.forall hb hc hne

/-- The nodes of blocks that lie apart do. -/
theorem Fresh.spaced (h : Fresh glist added) (hglist : glist + 16 ≤ sizeModulus)
    (hsize : ∀ b ∈ added, sizeofGroupEntry ≤ b.2) :
  Dlist.Spaced (glist :: added.map fun b => b.1 + offsetGnode)
  := by
  simp only [sizeofGroupEntry] at hsize
  simp only [offsetGnode]
  have hhead : ∀ b ∈ added, Apart (b.1 + 40) 16 glist 16 := by
    intro b hb
    have := hsize b hb
    apply (h.glist b hb).mono <;> omega
  constructor
  · rw [List.forall_mem_cons, List.forall_mem_map]
    refine ⟨hglist, ?_⟩
    intro b hb
    have := hsize b hb
    have := h.fits b hb
    omega
  · simp only [List.forall_mem_cons, List.forall_mem_map]
    refine ⟨⟨fun hne => absurd rfl hne, fun b hb _ => (hhead b hb).symm⟩, ?_⟩
    intro b hb
    refine ⟨fun _ => hhead b hb, ?_⟩
    intro c hc hne
    have hbc : b ≠ c := by
      rintro rfl
      apply hne rfl
    have := hsize b hb
    have := hsize c hc
    apply (h.apart_of_mem hb hc hbc).mono <;> omega

/-- The groups are there in a memory that agrees on `glist` and on the blocks. -/
theorem GroupsHold.congr {mem' : Memory} (h : GroupsHold glist mem added views)
    (hglist : ∀ x, glist ≤ x → x < glist + 16 → mem' x = mem x)
    (hblocks : ∀ b ∈ added, ∀ x, b.1 ≤ x → x < b.1 + b.2 → mem' x = mem x) :
  GroupsHold glist mem' added views
  := by
  constructor
  · apply h.ring.congr
    simp only [List.forall_mem_cons, List.forall_mem_map]
    use Dlist.links_congr hglist
    intro b hb
    have hsize := h.size b hb
    simp only [sizeofGroupEntry] at hsize
    apply Dlist.links_congr
    intro x hx hx'
    simp only [offsetGnode] at hx hx'
    apply hblocks b hb <;> omega
  · have hentries := (List.forall₂_and_left added views).mpr ⟨fun b hb => hb, h.entries⟩
    apply hentries.imp
    rintro b v ⟨hb, hentry⟩
    have hsize := h.size b hb
    simp only [sizeofGroupEntry] at hsize
    apply hentry.congr
    intro x hx hx'
    simp only [offsetGnode] at hx'
    apply hblocks b hb <;> omega

section

variable {entry : Nat} {v : View} (hshort : v.name.length + v.info.length ≤ 6)
  (hfresh : Fresh glist (added ++ [(entry, entrySize v.name v.info)]))

include hfresh

/-- A new block lies apart from the others. -/
theorem Fresh.apart_new {b : Nat × Nat} (hb : b ∈ added) :
  Apart b.1 b.2 entry (entrySize v.name v.info)
  := (List.pairwise_append.mp hfresh.apart).2.2 b hb _ (List.mem_singleton_self _)

theorem Fresh.glist_new :
  Apart entry (entrySize v.name v.info) glist 16
  := hfresh.glist _ (List.mem_append_right added (List.mem_singleton_self _))

include hshort

/-- Filling a new block changes no other one, nor `glist`. -/
theorem GroupsHold.fill (h : GroupsHold glist mem added views) :
  GroupsHold glist (fillEntry mem entry v.name v.info v.id) added views
  := by
  have hsize : entrySize v.name v.info = 74 + v.name.length + v.info.length :=
    entrySize_eq (by omega) (by omega)
  have hfill : ∀ x, x < entry ∨ entry + entrySize v.name v.info ≤ x →
      fillEntry mem entry v.name v.info v.id x = mem x := by
    intro x hx
    apply GroupEntry.fillEntry_apply_of_not_mem
    simp only [sizeofGroupEntry, sizeofGroup]
    omega
  apply h.congr
  · intro x hx hx'
    have hapart := hfresh.glist_new
    simp only [Apart] at hapart
    apply hfill
    omega
  · intro b hb x hx hx'
    have hapart := hfresh.apart_new hb
    simp only [Apart] at hapart
    apply hfill
    omega

/-- Linking a new entry in changes no entry before its node. -/
theorem GroupsHold.addTail_frame (h : GroupsHold glist mem added views) {b : Nat × Nat}
    (hb : b ∈ added ++ [(entry, entrySize v.name v.info)]) {x : Nat} (hx : b.1 ≤ x)
    (hx' : x < b.1 + offsetGnode) :
  Dlist.addTail mem (entry + offsetGnode) glist x = mem x
  := by
  have hsize : entrySize v.name v.info = 74 + v.name.length + v.info.length :=
    entrySize_eq (by omega) (by omega)
  have hsizes : ∀ b ∈ added ++ [(entry, entrySize v.name v.info)], 72 ≤ b.2 := by
    simp only [List.forall_mem_append, List.forall_mem_singleton]
    exact ⟨h.size, by omega⟩
  have hbsize := hsizes b hb
  -- The node of any block is not before that of `b`.
  have hnode : ∀ c ∈ added ++ [(entry, entrySize v.name v.info)],
      x < c.1 + offsetGnode ∨ c.1 + offsetGnode + 16 ≤ x := by
    intro c hc
    have hcsize := hsizes c hc
    by_cases hne : b = c
    · rw [← hne]
      exact Or.inl hx'
    · have hapart := hfresh.apart_of_mem hb hc hne
      simp only [Apart, offsetGnode] at hapart hx' ⊢
      omega
  have hhead := hfresh.glist b hb
  simp only [Apart, offsetGnode] at hhead hx'
  apply Dlist.addTail_apply_of_not_mem
  · apply hnode (entry, _) (List.mem_append_right _ (List.mem_singleton_self _))
  · omega
  · obtain hlast | hlast := List.mem_cons.mp h.ring.prev_head_mem
    · rw [hlast]
      omega
    · obtain ⟨c, hc, hlast⟩ := List.mem_map.mp hlast
      have := hnode c (List.mem_append_left _ hc)
      rw [← hlast]
      omega

/-- A new entry that is linked in stands behind the others. -/
theorem GroupsHold.addTail (h : GroupsHold glist mem added views)
    (hglist : glist + 16 ≤ sizeModulus)
    (hentry : Entry mem (entry, entrySize v.name v.info) v) :
  GroupsHold glist (Dlist.addTail mem (entry + offsetGnode) glist)
    (added ++ [(entry, entrySize v.name v.info)]) (views ++ [v])
  := by
  have hframe : ∀ b ∈ added ++ [(entry, entrySize v.name v.info)], ∀ x, b.1 ≤ x →
      x < b.1 + offsetGnode → Dlist.addTail mem (entry + offsetGnode) glist x = mem x :=
    fun b hb x hx hx' => h.addTail_frame hshort hfresh hb hx hx'
  constructor
  · simp only [List.map_append, List.map_singleton]
    apply Dlist.ring_addTail _ _ h.ring
    · have hsizes : ∀ b ∈ added ++ [(entry, entrySize v.name v.info)],
          sizeofGroupEntry ≤ b.2 := by
        simp only [List.forall_mem_append, List.forall_mem_singleton]
        exact ⟨h.size, hentry.size⟩
      apply (hfresh.spaced hglist hsizes).mono
      intro x hx
      simp only [List.mem_cons, List.map_append, List.mem_append, List.map_singleton,
        List.not_mem_nil, or_false] at hx ⊢
      tauto
    · have hhead := hfresh.glist_new
      have hsize := hentry.size
      simp only [List.mem_cons, List.mem_map, not_or, not_exists, not_and]
      simp only [Apart, offsetGnode, sizeofGroupEntry] at hhead hsize ⊢
      refine ⟨by omega, ?_⟩
      intro b hb heq
      have hapart := hfresh.apart_new hb
      have := h.size b hb
      simp only [Apart, sizeofGroupEntry] at hapart this
      omega
  · have hentries := (List.forall₂_and_left added views).mpr ⟨fun b hb => hb, h.entries⟩
    apply List.rel_append
    · apply hentries.imp
      rintro b v' ⟨hb, hentry'⟩
      apply hentry'.congr (hframe b (List.mem_append_left _ hb))
    · apply List.Forall₂.cons _ List.Forall₂.nil
      apply hentry.congr (hframe _ (List.mem_append_right _ (List.mem_singleton_self _)))

/-- A group with short strings that is added stands behind the others. -/
theorem GroupsHold.add (h : GroupsHold glist mem added views)
    (hglist : glist + 16 ≤ sizeModulus) (hname : 0 ∉ v.name) (hinfo : 0 ∉ v.info) :
  GroupsHold glist
    (Dlist.addTail (fillEntry mem entry v.name v.info v.id) (entry + offsetGnode) glist)
    (added ++ [(entry, entrySize v.name v.info)]) (views ++ [v])
  := by
  have hfits := hfresh.fits _ (List.mem_append_right added (List.mem_singleton_self _))
  apply (h.fill hshort hfresh).addTail hshort hfresh hglist
  apply fillEntry_entry mem hshort hname hinfo hfits

end

end

/-! ### Documents that load their groups -/

/-- The name, the info and the number of the last children of these names. -/
def viewOf (curNode : Section) : View where
  name := ((lastOf (ascii "name") curNode.children).map XmlText.val).getD []
  info := ((lastOf (ascii "info") curNode.children).map XmlText.val).getD []
  id := ((lastOf (ascii "id") curNode.children).map fun c => strtoulId c.val).getD 0

/-- The section has a name, an info and a number; its texts fit the arrays, and the last name
and info end before the nodes of an entry. -/
structure Complete (curNode : Section) : Prop where
  fits : ∀ p ∈ curNode.children, ItemFits p
  name : (lastOf (ascii "name") curNode.children).isSome
  info : (lastOf (ascii "info") curNode.children).isSome
  id : (lastOf (ascii "id") curNode.children).isSome
  short : (viewOf curNode).name.length + (viewOf curNode).info.length ≤ 6

/-- Every section `group` is an element and complete, and every setting fits its array. -/
structure LoadsSeparately (sections : List Section) : Prop where
  element : ∀ curNode ∈ sections, curNode.name = ascii "group" → curNode.isElement
  complete : ∀ curNode ∈ sections, curNode.name = ascii "group" → Complete curNode
  fits : ∀ f c, (.text f, c) ∈ settingsOf sections → c.val.length < f.size

/-- A variable that a child sets has the text of the last such child. -/
theorem eq_some_of_lastOf {name : List UInt8} {children : List Item}
    {var var' : Option (CArray 128)}
    (h : var'.map CArray.text = ((lastOf name children).map XmlText.val).or (var.map CArray.text))
    (hsome : (lastOf name children).isSome) :
  ∃ a, var' = some a ∧ a.text = ((lastOf name children).map XmlText.val).getD []
  := by
  obtain ⟨c, hc⟩ := Option.isSome_iff_exists.mp hsome
  rw [hc, Option.map_some, Option.some_or] at h
  obtain ⟨a, ha, htext⟩ := Option.map_eq_some_iff.mp h
  refine ⟨a, ha, ?_⟩
  rw [htext, hc, Option.map_some, Option.getD_some]

/-- A complete section is read and added as what it has. -/
theorem readGroup_of_complete {env : Env} (henv : env.Ready) {curNode : Section}
    (h : Complete curNode) (g : Groups) :
  ∃ g' entry, readGroup env g curNode = some g'
    ∧ g'.added
        = g.added ++ [(entry, entrySize (viewOf curNode).name (viewOf curNode).info)]
    ∧ g'.mem = Dlist.addTail (fillEntry g.mem entry (viewOf curNode).name (viewOf curNode).info
        (viewOf curNode).id) (entry + offsetGnode) env.glist
  := by
  obtain ⟨g₁, hg₁⟩ := readGroupItem_returns h.fits g
  obtain ⟨-, hread⟩ := readGroupItem_foldlM hg₁
  obtain ⟨gpname, hname, hnameText⟩ := eq_some_of_lastOf hread.name h.name
  obtain ⟨gpinfo, hinfo, hinfoText⟩ := eq_some_of_lastOf hread.info h.info
  obtain ⟨entry, hentry⟩ := henv.alloc g₁.calls
  have hid : g₁.gpid = (viewOf curNode).id := by
    obtain ⟨c, hc⟩ := Option.isSome_iff_exists.mp h.id
    rw [hread.id, viewOf, hc]
    rfl
  have hadd := (addGroup_eq_some_iff henv).mpr
    ⟨gpname, gpinfo, entry, hname, hinfo, hentry, rfl⟩
  rw [readGroup, hg₁, Option.bind_some]
  refine ⟨_, entry, hadd, ?_, ?_⟩
  · rw [hread.added, hnameText, hinfoText]
    rfl
  · rw [hread.mem, hnameText, hinfoText, hid]
    rfl

theorem viewOf_nul (curNode : Section) :
  0 ∉ (viewOf curNode).name ∧ 0 ∉ (viewOf curNode).info
  := by
  have hnul : ∀ c : Option XmlText, 0 ∉ (c.map XmlText.val).getD [] := by
    intro c
    cases c with
    | none => exact List.not_mem_nil
    | some c => exact c.nul
  exact ⟨hnul _, hnul _⟩

theorem Fresh.of_append {glist : Nat} {added more : List (Nat × Nat)}
    (h : Fresh glist (added ++ more)) :
  Fresh glist added
  := ⟨fun b hb => h.fits b (List.mem_append_left more hb),
    fun b hb => h.glist b (List.mem_append_left more hb), (List.pairwise_append.mp h.apart).1⟩

/-- Complete sections are read one after the other, each as what it has. -/
theorem readGroup_foldlM {env : Env} (henv : env.Ready) {sections : List Section}
    (hcomplete : ∀ curNode ∈ sections, Complete curNode) (g : Groups) :
  ∃ g' more, sections.foldlM (readGroup env) g = some g' ∧ g'.added = g.added ++ more
    ∧ more.length = sections.length
    ∧ ∀ views, GroupsHold env.glist g.mem g.added views → Fresh env.glist g'.added →
        GroupsHold env.glist g'.mem g'.added (views ++ sections.map viewOf)
  := by
  induction sections generalizing g with
  | nil =>
    refine ⟨g, [], rfl, (List.append_nil _).symm, rfl, ?_⟩
    intro views h _
    rw [List.map_nil, List.append_nil]
    exact h
  | cons curNode rest ih =>
    obtain ⟨hcurNode, hrest⟩ := List.forall_mem_cons.mp hcomplete
    obtain ⟨g₁, entry, hread, hadded, hmem⟩ := readGroup_of_complete henv hcurNode g
    obtain ⟨g', more, hfold, hadded', hlength, hholds⟩ := ih hrest g₁
    refine ⟨g', (entry, entrySize (viewOf curNode).name (viewOf curNode).info) :: more,
      ?_, ?_, ?_, ?_⟩
    · rw [List.foldlM_cons, hread]
      exact hfold
    · rw [hadded', hadded, List.append_assoc, List.singleton_append]
    · rw [List.length_cons, List.length_cons, hlength]
    · intro views h hfresh
      obtain ⟨hname, hinfo⟩ := viewOf_nul curNode
      rw [hadded'] at hfresh
      have hadd := h.add hcurNode.short (hadded ▸ hfresh.of_append) henv.fits hname hinfo
      rw [← hadded, ← hmem] at hadd
      rw [← hadded'] at hfresh
      have h' := hholds _ hadd hfresh
      rw [List.append_assoc] at h'
      exact h'

/-- Settings that fit their arrays are copied. -/
theorem Fields.setAll_returns {l : List (Setting × XmlText)}
    (hfits : ∀ f c, (.text f, c) ∈ l → c.val.length < f.size) (fields : Fields) :
  ∃ fields', fields.setAll l = some fields'
  := by
  induction l generalizing fields with
  | nil => exact ⟨fields, rfl⟩
  | cons s l ih =>
    obtain ⟨setting, c⟩ := s
    obtain ⟨fields₁, hset⟩ : ∃ fields₁, fields.set setting c = some fields₁ := by
      cases setting with
      | text f =>
        rw [set, strcpy, dif_pos (hfits f c List.mem_cons_self)]
        exact ⟨_, rfl⟩
      | avatarType => exact ⟨_, rfl⟩
      | avatarId => exact ⟨_, rfl⟩
      | port => exact ⟨_, rfl⟩
    rw [setAll_cons, hset]
    apply ih
    intro f c' hc'
    apply hfits f c' (List.mem_cons_of_mem _ hc')

/-- What is there before the first group. -/
theorem Env.Ready.start {env : Env} (henv : env.Ready) :
  GroupsHold env.glist (start env).groups.mem (start env).groups.added []
  := by
  obtain ⟨hprev, hnext⟩ := henv.glist
  refine ⟨⟨List.nodup_singleton _, List.isChain_pair.mpr ⟨hnext, hprev⟩⟩, List.Forall₂.nil⟩

theorem groupSections_complete {sections : List Section} (h : LoadsSeparately sections) :
  ∀ curNode ∈ groupSections sections, Complete curNode
  := by
  intro curNode hmem
  obtain ⟨hcurNode, hname⟩ := List.mem_filter.mp hmem
  apply h.complete curNode hcurNode (of_decide_eq_true hname)

/-- A document whose groups are complete is read with one group for each of them. -/
theorem LoadsSeparately.reads {sections : List Section} (h : LoadsSeparately sections) {env : Env}
    (henv : env.Ready) :
  ∃ t, readCfg env (some sections) = some (0, t)
    ∧ t.groups.added.length = (groupSections sections).length
    ∧ (Fresh env.glist t.groups.added →
        Holds env t.groups ((groupSections sections).map viewOf))
  := by
  obtain ⟨fields, hfields⟩ := Fields.setAll_returns h.fits env.fields
  obtain ⟨groups, more, hgroups, hadded, hlength, hholds⟩ :=
    readGroup_foldlM henv (groupSections_complete h) (start env).groups
  refine ⟨⟨fields, groups⟩, readCfg_eq_some_iff.mpr ⟨hfields, hgroups⟩, ?_, ?_⟩
  · rw [hadded]
    exact hlength
  · intro hfresh
    apply (hholds [] henv.start hfresh).holds

theorem groupElements_eq {sections : List Section}
    (h : ∀ curNode ∈ sections, curNode.name = ascii "group" → curNode.isElement) :
  groupElements sections = groupSections sections
  := by
  apply List.filter_congr
  intro curNode hmem
  have helement := h curNode hmem
  simp only [decide_eq_decide]
  tauto

/-- A complete element makes its group alone. -/
theorem Complete.own {curNode : Section} (h : Complete curNode)
    (hname : curNode.name = ascii "group") (helement : curNode.isElement) :
  Own curNode (viewOf curNode)
  := by
  have hsettings : settingsOf [curNode] = [] := by
    rw [settingsOf, List.flatMap_singleton, hname]
    have hnone : sectionSettings (ascii "group") = [] := by decide
    rw [hnone, settingOf_nil, List.filterMap_none]
  have halone : LoadsSeparately [curNode] := by
    refine ⟨?_, ?_, ?_⟩
    · simpa using fun _ => helement
    · simpa using fun _ => h
    · rw [hsettings]
      rintro f c ⟨⟩
  intro env henv
  obtain ⟨t, hread, -, hholds⟩ := halone.reads henv
  rw [groupSections_singleton, if_pos hname] at hholds
  exact ⟨t, hread, hholds⟩

/-- A document whose groups are complete loads each as the element makes it alone. -/
theorem LoadsSeparately.loadsOwn {sections : List Section} (h : LoadsSeparately sections) :
  LoadsOwn sections
  := by
  refine ⟨(groupSections sections).map viewOf, ?_, ?_⟩
  · rw [groupElements_eq h.element, List.forall₂_map_right_iff, List.forall₂_same]
    intro curNode hmem
    obtain ⟨hcurNode, hname⟩ := List.mem_filter.mp hmem
    have hname : curNode.name = ascii "group" := of_decide_eq_true hname
    apply (h.complete curNode hcurNode hname).own hname (h.element curNode hcurNode hname)
  · intro env henv
    rw [List.length_map]
    apply h.reads henv

/-! ### Documents that do not -/

/-- Every section `group` adds a group. -/
theorem readGroup_added {env : Env} (henv : env.Ready) {sections : List Section} {g g' : Groups}
    (h : sections.foldlM (readGroup env) g = some g') :
  g'.added.length = g.added.length + sections.length
  := by
  induction sections generalizing g with
  | nil =>
    cases h
    rfl
  | cons curNode rest ih =>
    rw [List.foldlM_cons] at h
    obtain ⟨g₁, hread, hrest⟩ := Option.bind_eq_some_iff.mp h
    obtain ⟨g₂, hitems, hadd⟩ := Option.bind_eq_some_iff.mp hread
    obtain ⟨-, hitems⟩ := readGroupItem_foldlM hitems
    obtain ⟨gpname, gpinfo, entry, -, -, -, rfl⟩ := (addGroup_eq_some_iff henv).mp hadd
    rw [ih hrest, List.length_append, hitems.added]
    simp only [List.length_cons, List.length_nil]
    omega

/-- Where an element is read alone, its texts fit, and the group is made from its children, or
else from what the variables have before they are set. -/
theorem readCfg_alone {env : Env} (henv : env.Ready) {curNode : Section}
    (hname : curNode.name = ascii "group") {t : Loaded}
    (h : readCfg env (some [curNode]) = some (0, t)) :
  (∀ p ∈ curNode.children, ItemFits p)
    ∧ ∃ (gpname gpinfo : CArray 128) (gpid : UInt32) (entry : Nat),
        some gpname.text = ((lastOf (ascii "name") curNode.children).map XmlText.val).or
          (env.gpname.map CArray.text)
        ∧ some gpinfo.text = ((lastOf (ascii "info") curNode.children).map XmlText.val).or
          (env.gpinfo.map CArray.text)
        ∧ gpid = ((lastOf (ascii "id") curNode.children).map fun c => strtoulId c.val).getD env.gpid
        ∧ env.alloc 0 = some entry
        ∧ t.groups.added = [(entry, entrySize gpname.text gpinfo.text)]
        ∧ t.groups.mem = Dlist.addTail (fillEntry env.mem entry gpname.text gpinfo.text gpid)
            (entry + offsetGnode) env.glist
  := by
  obtain ⟨-, hgroups⟩ := readCfg_eq_some_iff.mp h
  rw [groupSections_singleton, if_pos hname, List.foldlM_cons] at hgroups
  obtain ⟨g₁, hread, hrest⟩ := Option.bind_eq_some_iff.mp hgroups
  cases hrest
  obtain ⟨g₂, hitems, hadd⟩ := Option.bind_eq_some_iff.mp hread
  obtain ⟨hfits, hitems⟩ := readGroupItem_foldlM hitems
  obtain ⟨gpname, gpinfo, entry, hgpname, hgpinfo, halloc, hg₁⟩ :=
    (addGroup_eq_some_iff henv).mp hadd
  refine ⟨hfits, gpname, gpinfo, g₂.gpid, entry, ?_, ?_, hitems.id, ?_, ?_, ?_⟩
  · rw [← Option.map_some, ← hgpname, hitems.name]
    rfl
  · rw [← Option.map_some, ← hgpinfo, hitems.info]
    rfl
  · rw [← halloc, hitems.calls]
    rfl
  · rw [hg₁, hitems.added]
    rfl
  · rw [hg₁, hitems.mem]
    rfl

/-- Variables that have these values before they are set. -/
def probe (glist : Nat) (gpname gpinfo : Option (CArray 128)) (gpid : UInt32) : Env :=
  { Env.blank glist with gpname, gpinfo, gpid }

theorem probe_ready {glist : Nat} (hglist : glist + 16 ≤ sizeModulus)
    (gpname gpinfo : Option (CArray 128)) (gpid : UInt32) :
  (probe glist gpname gpinfo gpid).Ready
  := ⟨fun _ => ⟨8192, rfl⟩, fun _ => Int.le_refl 0,
    GroupEntry.selfLinked_initNode _ hglist, hglist⟩

/-- The memory once a group has been added to an empty `glist` before its block: the entry is as
it was filled up to its node, and there follows the address of `glist`. -/
theorem added_alone {mem : Memory} {entry glist : Nat} (hself : SelfLinked mem glist)
    (hglist : glist + 16 ≤ entry) (gpname gpinfo : List UInt8) (gpid : UInt32) :
  (∀ x, entry ≤ x → x < entry + offsetGnode →
      Dlist.addTail (fillEntry mem entry gpname gpinfo gpid) (entry + offsetGnode) glist x
        = fillEntry mem entry gpname gpinfo gpid x)
    ∧ Dlist.addTail (fillEntry mem entry gpname gpinfo gpid) (entry + offsetGnode) glist
        (entry + offsetGnode) = UInt8.ofNat glist
  := by
  simp only [offsetGnode]
  have hkept : ∀ x, glist ≤ x → x < glist + 16 →
      fillEntry mem entry gpname gpinfo gpid x = mem x := by
    intro x _ hx
    apply GroupEntry.fillEntry_apply_of_not_mem
    left
    omega
  have hprev : (Dlist.links (fillEntry mem entry gpname gpinfo gpid)).prev glist = glist :=
    (Dlist.links_congr hkept).2.trans hself.1
  constructor
  · intro x hx hx'
    apply Dlist.addTail_apply_of_not_mem
    · left
      exact hx'
    · right
      omega
    · rw [hprev]
      right
      omega
  · have hload : (fillEntry mem entry gpname gpinfo gpid).loadSize (glist + Dlist.offsetPrev)
        = glist := hprev
    rw [Dlist.addTail, Dlist.addBetween, hload]
    simp only [Dlist.offsetPrev, Dlist.offsetNext, Nat.add_zero]
    rw [Memory.storeSize_apply_of_not_mem (by omega), Memory.storeSize_apply_self]

/-- The bytes of a string and of its `NUL`. -/
theorem stringAt_getElem? {mem : Memory} {a : Nat} {s : List UInt8} (h : StringAt mem a s) {k : Nat}
    (hk : k < s.length + 1) :
  (s ++ [0])[k]? = some (mem (a + k))
  := by
  have hlength : k < (mem.read a (s.length + 1)).length := by
    rw [Memory.read_length]
    exact hk
  rw [← h, List.getElem?_eq_getElem hlength, Memory.read_getElem]

/-- Behind a string is a `NUL`. -/
theorem stringAt_end {mem : Memory} {a : Nat} {s : List UInt8} (h : StringAt mem a s) :
  mem (a + s.length) = 0
  := by
  have hend := stringAt_getElem? h (Nat.lt_succ_self s.length)
  rw [List.getElem?_concat_length, Option.some_inj] at hend
  exact hend.symm

/-- A string ends at its first `NUL`. -/
theorem stringAt_length {mem : Memory} {a n : Nat} {s : List UInt8} (h : StringAt mem a s)
    (hnul : 0 ∉ s) (hbefore : ∀ k < n, mem (a + k) ≠ 0) (hend : mem (a + n) = 0) :
  s.length = n
  := by
  rcases Nat.lt_trichotomy s.length n with hlt | heq | hgt
  · exact absurd (stringAt_end h) (hbefore _ hlt)
  · exact heq
  · have hmem := stringAt_getElem? h (Nat.lt_succ_of_lt hgt)
    rw [List.getElem?_append_left hgt, hend] at hmem
    exact absurd (List.mem_of_getElem? hmem) hnul

/-- What the memory has of a group that is made in the block of a probe. -/
structure Probed (mem : Memory) (glist : Nat) (gpname gpinfo : List UInt8) (gpid : UInt32) :
    Prop where
  groupName : mem.loadSize 8192 = 8224
  groupInfo : mem.loadSize 8200 = 8224 + (1 + gpname.length)
  id : mem.read 8208 4 = Memory.bytesOf 4 gpid.toNat
  strings : ∀ k < 8, k < (gpname ++ 0 :: (gpinfo ++ [0])).length →
    (gpname ++ 0 :: (gpinfo ++ [0]))[k]? = some (mem (8224 + k))
  node : mem 8232 = UInt8.ofNat glist

theorem probed {mem : Memory} {glist : Nat} (hself : SelfLinked mem glist)
    (hglist : glist + 16 ≤ 8192) {gpname : List UInt8} (hname : gpname.length < 128)
    (gpinfo : List UInt8) (gpid : UInt32) :
  Probed (Dlist.addTail (fillEntry mem 8192 gpname gpinfo gpid) (8192 + offsetGnode) glist) glist
    gpname gpinfo gpid
  := by
  obtain ⟨hfill, hnode⟩ := added_alone hself hglist gpname gpinfo gpid
  have hoffset : 8192 + offsetGnode = 8232 := rfl
  rw [hoffset] at hfill hnode ⊢
  constructor
  · rw [Memory.loadSize_congr fun x hx hx' => hfill x (by omega) (by omega)]
    apply GroupEntry.fillEntry_name
    decide
  · rw [Memory.loadSize_congr fun x hx hx' => hfill x (by omega) (by omega)]
    apply GroupEntry.fillEntry_info
    rw [sizeofGroup, sizeModulus]
    omega
  · rw [Memory.read_congr fun x hx hx' => hfill x (by omega) (by omega)]
    apply GroupEntry.fillEntry_id
  · intro k hk hlength
    rw [hfill _ (by omega) (by omega), GroupEntry.fillEntry_apply_strings]
    · rw [List.getElem?_eq_getElem hlength, sizeofGroup, Memory.write_apply_of_mem hlength]
    · rw [sizeofGroup]
      omega
    · rw [offsetGnode]
      omega
  · exact hnode

/-- What an element that makes its own group is read as alone, whatever the variables have before
they are set and wherever `glist` is. -/
theorem Own.probed {curNode : Section} {v : View} (h : Own curNode v)
    (hname : curNode.name = ascii "group") {glist : Nat} (hglist : glist + 16 ≤ 8192)
    (gpname gpinfo : Option (CArray 128)) (gpid : UInt32) :
  (∀ p ∈ curNode.children, ItemFits p)
    ∧ ∃ name info mem,
        some name = ((lastOf (ascii "name") curNode.children).map XmlText.val).or
          (gpname.map CArray.text)
        ∧ some info = ((lastOf (ascii "info") curNode.children).map XmlText.val).or
          (gpinfo.map CArray.text)
        ∧ Reads mem 8192 v
        ∧ Probed mem glist name info
            (((lastOf (ascii "id") curNode.children).map fun c => strtoulId c.val).getD gpid)
  := by
  have hready := probe_ready (Nat.le_trans hglist (by decide)) gpname gpinfo gpid
  obtain ⟨t, hread, hholds⟩ := h _ hready
  obtain ⟨hfits, name, info, id, entry, hgpname, hgpinfo, rfl, halloc, hadded, hmem⟩ :=
    readCfg_alone hready hname hread
  cases halloc
  have hsize := entrySize_eq name.fits info.fits
  have hnameFits := name.fits
  have hinfoFits := info.fits
  have hfresh : Fresh glist t.groups.added := by
    rw [hadded]
    refine ⟨?_, ?_, List.pairwise_singleton _ _⟩
    · rw [List.forall_mem_singleton, hsize, sizeModulus]
      omega
    · rw [List.forall_mem_singleton]
      right
      exact hglist
  have hreads := (hholds hfresh).reads
  rw [hadded] at hreads
  obtain ⟨hreads, -⟩ := List.forall₂_cons.mp hreads
  rw [hmem] at hreads
  exact ⟨hfits, name.text, info.text, _, hgpname, hgpinfo, hreads,
    Config.probed hready.glist hglist name.fits _ _⟩

section

variable {mem mem' : Memory} {glist : Nat} {gpname gpinfo : List UInt8} {gpid gpid' : UInt32}

theorem Probed.name_ne (h : Probed mem glist gpname gpinfo gpid) (hnul : 0 ∉ gpname) {k : Nat}
    (hk : k < 8) (hlength : k < gpname.length) :
  mem (8224 + k) ≠ 0
  := by
  have hget := h.strings k hk (by rw [List.length_append]; omega)
  rw [List.getElem?_append_left hlength] at hget
  intro hzero
  rw [hzero] at hget
  apply hnul (List.mem_of_getElem? hget)

theorem Probed.info_ne (h : Probed mem glist gpname gpinfo gpid) (hnul : 0 ∉ gpinfo) {k : Nat}
    (hk : 1 + gpname.length + k < 8) (hlength : k < gpinfo.length) :
  mem (8224 + (1 + gpname.length) + k) ≠ 0
  := by
  have hget := h.strings (1 + gpname.length + k) hk (by simp; omega)
  have hindex : 1 + gpname.length + k = (gpname ++ [0]).length + k := by simp [Nat.add_comm]
  rw [List.append_cons, hindex, List.getElem?_append_right (Nat.le_add_right _ _),
    Nat.add_sub_cancel_left, List.getElem?_append_left hlength, ← hindex, ← Nat.add_assoc] at hget
  intro hzero
  rw [hzero] at hget
  apply hnul (List.mem_of_getElem? hget)

/-- Strings that reach to the node of the entry read differently for lists of groups whose
addresses differ in the lowest byte. -/
theorem Probed.short (h : Probed mem 4096 gpname gpinfo gpid)
    (h' : Probed mem' 4104 gpname gpinfo gpid') {v : View} (hreads : Reads mem 8192 v)
    (hreads' : Reads mem' 8192 v) (hname : 0 ∉ gpname) (hinfo : 0 ∉ gpinfo) :
  gpname.length + gpinfo.length ≤ 6
  := by
  have hnode : mem 8232 = 0 := h.node
  have hnode' : mem' 8232 = 8 := h'.node
  by_contra hlong
  by_cases hlength : 8 ≤ gpname.length
  · have hstring := hreads.name
    have hstring' := hreads'.name
    rw [h.groupName] at hstring
    rw [h'.groupName] at hstring'
    have height : v.name.length = 8 := by
      apply stringAt_length hstring hreads.name_nul _ hnode
      intro k hk
      apply h.name_ne hname hk (by omega)
    have hend := stringAt_end hstring'
    rw [height, hnode'] at hend
    cases hend
  · have hstring := hreads.info
    have hstring' := hreads'.info
    rw [h.groupInfo] at hstring
    rw [h'.groupInfo] at hstring'
    have hsum : 8224 + (1 + gpname.length) + (7 - gpname.length) = 8232 := by omega
    have hseven : v.info.length = 7 - gpname.length := by
      apply stringAt_length hstring hreads.info_nul _ (by rw [hsum, hnode])
      intro k hk
      apply h.info_ne hinfo (by omega) (by omega)
    have hend := stringAt_end hstring'
    rw [hseven, hsum, hnode'] at hend
    cases hend

end

/-- An element that makes its own group is complete. -/
theorem Own.complete {curNode : Section} {v : View} (h : Own curNode v)
    (hname : curNode.name = ascii "group") :
  Complete curNode
  := by
  have hlow : 4096 + 16 ≤ 8192 := by decide
  have hhigh : 4104 + 16 ≤ 8192 := by decide
  obtain ⟨hfits, name, info, mem, hgpname, hgpinfo, hreads, hprobed⟩ :=
    h.probed hname hlow none none 0
  obtain ⟨-, name', info', mem', hgpname', hgpinfo', hreads', hprobed'⟩ :=
    h.probed hname hhigh none none 1
  rw [Option.map_none, Option.or_none] at hgpname hgpinfo hgpname' hgpinfo'
  obtain rfl : name' = name := Option.some_inj.mp (hgpname'.trans hgpname.symm)
  obtain rfl : info' = info := Option.some_inj.mp (hgpinfo'.trans hgpinfo.symm)
  have hviewName : (viewOf curNode).name = name' := by
    rw [viewOf, ← hgpname]
    rfl
  have hviewInfo : (viewOf curNode).info = info' := by
    rw [viewOf, ← hgpinfo]
    rfl
  obtain ⟨hnulName, hnulInfo⟩ := viewOf_nul curNode
  refine ⟨hfits, ?_, ?_, ?_, ?_⟩
  · rw [← Option.isSome_map, ← hgpname]
    rfl
  · rw [← Option.isSome_map, ← hgpinfo]
    rfl
  · -- Without a number the entry has that of the variable, which can be any.
    by_contra hnone
    rw [Option.not_isSome_iff_eq_none] at hnone
    have hid := hprobed.id
    have hid' := hprobed'.id
    rw [hnone, Option.map_none, Option.getD_none] at hid hid'
    have hv := hid.symm.trans hreads.id
    have hv' := hid'.symm.trans hreads'.id
    have heq := hv.trans hv'.symm
    revert heq
    decide
  · rw [hviewName, hviewInfo]
    rw [hviewName] at hnulName
    rw [hviewInfo] at hnulInfo
    apply hprobed.short hprobed' hreads hreads' hnulName hnulInfo

/-- Settings that are copied fit their arrays. -/
theorem Fields.fits_of_setAll {l : List (Setting × XmlText)} {fields fields' : Fields}
    (h : fields.setAll l = some fields') (f : TextField) (c : XmlText) (hc : (.text f, c) ∈ l) :
  c.val.length < f.size
  := by
  obtain ⟨l₁, l₂, rfl⟩ := List.append_of_mem hc
  obtain ⟨fields₁, b, -, hcopy, -⟩ := Fields.setAll_changed h
  apply (strcpy_eq_some hcopy).1

/-- A document that loads its groups as the elements make them alone is one whose groups are
complete. -/
theorem LoadsOwn.loadsSeparately {sections : List Section} (h : LoadsOwn sections) :
  LoadsSeparately sections
  := by
  obtain ⟨views, hown, hreads⟩ := h
  have hready : (probe 4096 none none 0).Ready := probe_ready (by decide) none none 0
  obtain ⟨t, hread, hlength, -⟩ := hreads _ hready
  obtain ⟨hfields, hgroups⟩ := readCfg_eq_some_iff.mp hread
  have helement : ∀ curNode ∈ sections, curNode.name = ascii "group" → curNode.isElement := by
    have helements : groupElements sections
        = (groupSections sections).filter fun curNode => curNode.isElement := by
      rw [groupSections, List.filter_filter, groupElements]
      simp only [Bool.decide_and, Bool.decide_eq_true]
    have hcount := readGroup_added hready hgroups
    have hviews := hown.length_eq
    rw [hlength, ← hviews, helements] at hcount
    have hall := List.length_filter_eq_length_iff.mp (hcount.trans (Nat.zero_add _))
    intro curNode hmem hname
    apply hall curNode (List.mem_filter.mpr ⟨hmem, decide_eq_true hname⟩)
  refine ⟨helement, ?_, ?_⟩
  · intro curNode hmem hname
    have hexists := ((List.forall₂_and_left _ _).mp
      (hown.imp fun c v hc => And.intro (Exists.intro v hc) hc)).1
    obtain ⟨v, hv⟩ := hexists curNode
      (List.mem_filter.mpr ⟨hmem, decide_eq_true ⟨helement curNode hmem hname, hname⟩⟩)
    apply hv.complete hname
  · apply Fields.fits_of_setAll hfields

/-- A document is read with one group for every element, each as the element makes it alone,
exactly when its sections `group` are elements with a name, an info and a number, the strings of
which end before the nodes of an entry, and all texts fit their arrays. -/
theorem loads_own_iff (sections : List Section) :
  LoadsOwn sections ↔ LoadsSeparately sections
  := ⟨LoadsOwn.loadsSeparately, LoadsSeparately.loadsOwn⟩

/-- A group without an info has that of the group before it. -/
theorem info_of_group_before :
  ∃ sections, ¬ LoadsOwn sections
    ∧ ∃ t entry, readCfg { Env.blank 4096 with alloc := fun n => some (8192 + 512 * n) }
          (some sections) = some (0, t)
        ∧ t.groups.added.getLast?.map Prod.fst = some entry
        ∧ Reads t.groups.mem entry ⟨ascii "c", ascii "b", 2⟩
        ∧ (sections.map fun curNode => lastOf (ascii "info") curNode.children)
            = [some ⟨ascii "b", by decide⟩, none]
  := by
  refine ⟨[⟨true, ascii "group", [⟨true, ascii "name", ⟨ascii "a", by decide⟩⟩,
      ⟨true, ascii "id", ⟨ascii "1", by decide⟩⟩, ⟨true, ascii "info", ⟨ascii "b", by decide⟩⟩]⟩,
    ⟨true, ascii "group", [⟨true, ascii "name", ⟨ascii "c", by decide⟩⟩,
      ⟨true, ascii "id", ⟨ascii "2", by decide⟩⟩]⟩], ?_, _, _, rfl, rfl, ?_, by decide⟩
  · intro h
    have hcomplete := h.loadsSeparately.complete _
      (List.mem_cons_of_mem _ (List.mem_singleton_self _)) rfl
    have hinfo := hcomplete.info
    revert hinfo
    decide
  · constructor
    · decide +kernel
    · decide
    · decide +kernel
    · decide
    · decide +kernel

end Config

end IFreeChat
