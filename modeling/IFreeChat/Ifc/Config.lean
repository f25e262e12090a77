import IFreeChat.Basis.Block
import IFreeChat.Ifc.GroupEntry

/-!
# The configuration file

`read_cfg` copies the settings of the file into an `ifreechat_t`, and makes a group for every
section that is named so; `update_cfg` changes one setting in the file.  A document is the list
of the sections below its root, a section the list of what is below it.

The reader copies every setting with the name of a field, so that the last one stays; the writer
changes the first one.  What is saved is read back exactly when libxml reads the value as it is,
it fits its array, and no other setting of the name comes after it (`saved_reads_back_iff`).
-/

open Basis

namespace IFreeChat

open Chatboxes (offsetGnode)
open GroupEntry (fillEntry entrySize)

namespace Config

/-! ### Documents -/

/-- The strings of a document. -/
@[ext]
structure XmlText where
  val : List UInt8
  nul : 0 ∉ val
deriving DecidableEq

/-- A node of a section: whether it is an element, its name, and what `xmlNodeGetContent`
answers for it. -/
structure Item where
  isElement : Bool
  name : List UInt8
  content : XmlText

/-- A node below the root, and the nodes below it. -/
structure Section where
  isElement : Bool
  name : List UInt8
  children : List Item

/-! ### Fields -/

/-- The fields of an `ifreechat_t` that have a text of the configuration. -/
inductive TextField where
  | nickname
  | username
  | hostname
  | customAvatar
  | signature
  | category
  | ipaddr
  | macaddr
  | multicastIp
deriving DecidableEq

/-- The size of the array. -/
def TextField.size : TextField → Nat
  | .nickname | .username | .hostname | .category => 64
  | .customAvatar | .signature => 128
  | .ipaddr | .macaddr | .multicastIp => 20

/-- The fields of an `ifreechat_t` that `read_cfg` sets. -/
structure Fields where
  text : (f : TextField) → CArray f.size
  avatarType : Int
  avatarId : Int
  port : UInt16

/-- What a setting is copied to. -/
inductive Setting where
  | text (f : TextField)
  | avatarType
  | avatarId
  | port
deriving DecidableEq

/-- `strcpy` into an array of `n` characters. -/
def strcpy (n : Nat) (s : XmlText) : Option (CArray n) :=
  if h : s.val.length < n then some ⟨s.val, s.nul, h⟩ else none

/-- The fields with a text in one of the arrays. -/
def Fields.setText (fields : Fields) (f : TextField) (a : CArray f.size) : Fields :=
  { fields with text := Function.update fields.text f a }

/-- The fields once a setting has been copied. -/
def Fields.set (fields : Fields) (setting : Setting) (szKey : XmlText) : Option Fields :=
  match setting with
  | .text f => (strcpy f.size szKey).map (fields.setText f)
  | .avatarType => some { fields with avatarType := atoi szKey.val }
  | .avatarId => some { fields with avatarId := atoi szKey.val }
  | .port => some { fields with port := UInt16.ofInt (atoi szKey.val) }

/-- The settings of a section `user`. -/
def userSettings : List (List UInt8 × Setting) :=
  [(ascii "nickname", .text .nickname), (ascii "username", .text .username),
    (ascii "hostname", .text .hostname), (ascii "avatar_type", .avatarType),
    (ascii "avatar_id", .avatarId), (ascii "custom_avatar", .text .customAvatar),
    (ascii "signature", .text .signature), (ascii "category", .text .category)]

/-- The settings of a section `network`. -/
def networkSettings : List (List UInt8 × Setting) :=
  [(ascii "listen_ip", .text .ipaddr), (ascii "mac", .text .macaddr),
    (ascii "multicast_ip", .text .multicastIp), (ascii "port", .port)]

/-- The fields once a node of a section has been read. -/
def readSetting (settings : List (List UInt8 × Setting)) (fields : Fields) (p : Item) :
    Option Fields :=
  if p.isElement then
    match settings.lookup p.name with
    | some setting => fields.set setting p.content
    | none => some fields
  else some fields

/-! ### Groups -/

/-- What `read_cfg` does not choose: the fields before it, what its variables have before they
are set, with no string where the array has no `NUL`, the memory with `glist`, the blocks of the
pool, and what `hash_insert` answers. -/
structure Env where
  fields : Fields
  gpname : Option (CArray 128)
  gpinfo : Option (CArray 128)
  gpid : UInt32
  mem : Memory
  glist : Nat
  alloc : Nat → Option Nat
  hashInsert : Nat → Int

/-- Variables and fields with empty strings, one block, and a ring of its own for `glist`. -/
def Env.blank (glist : Nat) : Env where
  fields :=
    { text := fun f => ⟨[], List.not_mem_nil, by cases f <;> decide⟩, avatarType := 0,
      avatarId := 0, port := 0 }
  gpname := some ⟨[], List.not_mem_nil, by decide⟩
  gpinfo := some ⟨[], List.not_mem_nil, by decide⟩
  gpid := 0
  mem := Dlist.initNode (fun _ => 0) glist
  glist
  alloc _ := some 8192
  hashInsert _ := 0

/-- The variables of `read_cfg`, the memory, how many groups have been made, and the blocks of
those that have been added, with their sizes. -/
structure Groups where
  gpname : Option (CArray 128)
  gpinfo : Option (CArray 128)
  gpid : UInt32
  mem : Memory
  calls : Nat
  added : List (Nat × Nat)

/-- `strtoul` in base 16, cut to the 32 bits of `gpid`. -/
def strtoulId (s : List UInt8) : UInt32 :=
  let (minus, s) : Bool × List UInt8 :=
    match s.dropWhile isSpace with
    | 45 :: s => (true, s)
    | 43 :: s => (false, s)
    | s => (false, s)
  let s :=
    match s with
    | 48 :: 120 :: s => s
    | 48 :: 88 :: s => s
    | s => s
  let n := readDigits 16 0 s
  if 2 ^ 64 ≤ n then UInt32.ofNat (2 ^ 64 - 1)
  else if minus then -UInt32.ofNat n
  else UInt32.ofNat n

/-- The variables once a node of a section `group` has been read. -/
def readGroupItem (g : Groups) (p : Item) : Option Groups :=
  if p.isElement then
    if p.name = ascii "name" then
      (strcpy 128 p.content).map fun gpname => { g with gpname := some gpname }
    else if p.name = ascii "id" then some { g with gpid := strtoulId p.content.val }
    else if p.name = ascii "info" then
      (strcpy 128 p.content).map fun gpinfo => { g with gpinfo := some gpinfo }
    else some g
  else some g

/-- `group_add_entry`. -/
def groupAddEntry (env : Env) (g : Groups) (entry size : Nat) : Groups :=
  if env.hashInsert g.calls < 0 then g
  else { g with
    mem := Dlist.addTail g.mem (entry + offsetGnode) env.glist
    added := g.added ++ [(entry, size)] }

/-- A group is made from the variables and added to `glist`. -/
def addGroup (env : Env) (g : Groups) : Option Groups :=
  match g.gpname, g.gpinfo with
  | some gpname, some gpinfo =>
      match env.alloc g.calls with
      | none => some { g with calls := g.calls + 1 }
      | some gpentry =>
          some { groupAddEntry env
              { g with mem := fillEntry g.mem gpentry gpname.text gpinfo.text g.gpid } gpentry
              (entrySize gpname.text gpinfo.text) with
            calls := g.calls + 1 }
  | _, _ => none

/-- The groups once a section `group` has been read. -/
def readGroup (env : Env) (g : Groups) (curNode : Section) : Option Groups :=
  (curNode.children.foldlM readGroupItem g).bind (addGroup env)

/-! ### Reading and writing -/

/-- What `read_cfg` has loaded. -/
structure Loaded where
  fields : Fields
  groups : Groups

/-- What there is before the first section. -/
def start (env : Env) : Loaded where
  fields := env.fields
  groups :=
    { gpname := env.gpname, gpinfo := env.gpinfo, gpid := env.gpid, mem := env.mem, calls := 0,
      added := [] }

/-- What is loaded once a section has been read. -/
def readSection (env : Env) (s : Loaded) (curNode : Section) : Option Loaded :=
  if curNode.name = ascii "user" then
    (curNode.children.foldlM (readSetting userSettings) s.fields).map fun fields =>
      { s with fields }
  else if curNode.name = ascii "network" then
    (curNode.children.foldlM (readSetting networkSettings) s.fields).map fun fields =>
      { s with fields }
  else if curNode.name = ascii "group" then
    (readGroup env s.groups curNode).map fun groups => { s with groups }
  else some s

/-- `read_cfg` of a document that has a root, or of none: the return code, and what it has
loaded. -/
def readCfg (env : Env) (doc : Option (List Section)) : Option (Int × Loaded) :=
  match doc with
  | none => some (-1, start env)
  | some sections => (sections.foldlM (readSection env) (start env)).map fun s => (0, s)

/-- The nodes with the first element of a name changed, if there is one. -/
def setContent (name : List UInt8) (content : XmlText) : List Item → Option (List Item)
  | [] => none
  | p :: ps =>
      if p.isElement ∧ p.name = name then some ({ p with content } :: ps)
      else (setContent name content ps).map (p :: ·)

/-- The sections with the first element of a name changed, in the first section of the category
that has one. -/
def updateSections (category name : List UInt8) (content : XmlText) :
    List Section → List Section
  | [] => []
  | curNode :: rest =>
      if curNode.name = category then
        match setContent name content curNode.children with
        | some children => { curNode with children } :: rest
        | none => curNode :: updateSections category name content rest
      else curNode :: updateSections category name content rest

/-- `update_cfg`: the return code and the document that is saved.  Once it is set with
`xmlNodeSetContent`, a value has the content `parsed value`. -/
def updateCfg (parsed : XmlText → XmlText) (doc : Option (List Section))
    (category name : List UInt8) (value : XmlText) : Int × Option (List Section) :=
  match doc with
  | none => (-1, none)
  | some sections => (0, some (updateSections category name (parsed value) sections))

/-! ### The settings of a document -/

/-- The settings a section can have. -/
def sectionSettings (name : List UInt8) : List (List UInt8 × Setting) :=
  if name = ascii "user" then userSettings
  else if name = ascii "network" then networkSettings
  else []

/-- The setting of a node. -/
def settingOf (settings : List (List UInt8 × Setting)) (p : Item) : Option (Setting × XmlText) :=
  if p.isElement then (settings.lookup p.name).map fun setting => (setting, p.content) else none

/-- The settings of the sections, in the order in which they are read. -/
def settingsOf (sections : List Section) : List (Setting × XmlText) :=
  sections.flatMap fun curNode =>
    curNode.children.filterMap (settingOf (sectionSettings curNode.name))

/-- The sections that make a group. -/
def groupSections (sections : List Section) : List Section :=
  sections.filter fun curNode => curNode.name = ascii "group"

/-- The fields once settings have been copied one after the other. -/
def Fields.setAll (fields : Fields) (settings : List (Setting × XmlText)) : Option Fields :=
  settings.foldlM (fun fields s => fields.set s.1 s.2) fields

theorem Fields.setAll_append (fields : Fields) (l l' : List (Setting × XmlText)) :
  fields.setAll (l ++ l') = (fields.setAll l).bind fun fields => fields.setAll l'
  := List.foldlM_append

theorem Fields.setAll_cons (fields : Fields) (s : Setting × XmlText)
    (l : List (Setting × XmlText)) :
  fields.setAll (s :: l) = (fields.set s.1 s.2).bind fun fields => fields.setAll l
  := List.foldlM_cons

/-- The nodes of a section are read as its settings. -/
theorem readSetting_foldlM (settings : List (List UInt8 × Setting)) (children : List Item)
    (fields : Fields) :
  children.foldlM (readSetting settings) fields
    = fields.setAll (children.filterMap (settingOf settings))
  := by
  induction children generalizing fields with
  | nil => rfl
  | cons p ps ih =>
    have hih : (fun fields => ps.foldlM (readSetting settings) fields)
        = fun fields : Fields => fields.setAll (ps.filterMap (settingOf settings)) := funext ih
    rw [List.foldlM_cons, List.filterMap_cons, readSetting, settingOf]
    split
    · cases settings.lookup p.name with
      | none => apply ih
      | some setting =>
        rw [Option.map_some]
        simp only [Fields.setAll_cons, Option.bind_eq_bind, ← hih]
    · apply ih

theorem settingOf_nil :
  settingOf [] = fun _ => none
  := by
  funext p
  simp [settingOf]

theorem groupSections_singleton (curNode : Section) :
  groupSections [curNode] = if curNode.name = ascii "group" then [curNode] else []
  := by
  simp [groupSections, List.filter_cons]

/-- The settings and the groups of a section are read apart. -/
theorem readSection_eq (env : Env) (s : Loaded) (curNode : Section) :
  readSection env s curNode
    = (s.fields.setAll (settingsOf [curNode])).bind fun fields =>
        ((groupSections [curNode]).foldlM (readGroup env) s.groups).map fun groups =>
          { fields, groups }
  := by
  rw [readSection, settingsOf, List.flatMap_singleton, groupSections_singleton, sectionSettings]
  by_cases huser : curNode.name = ascii "user"
  · have hgroup : curNode.name ≠ ascii "group" := by
      rw [huser]
      decide
    rw [if_pos huser, if_pos huser, if_neg hgroup, readSetting_foldlM, Option.map_eq_bind]
    rfl
  by_cases hnetwork : curNode.name = ascii "network"
  · have hgroup : curNode.name ≠ ascii "group" := by
      rw [hnetwork]
      decide
    rw [if_neg huser, if_pos hnetwork, if_neg huser, if_pos hnetwork, if_neg hgroup,
      readSetting_foldlM, Option.map_eq_bind]
    rfl
  rw [if_neg huser, if_neg hnetwork, if_neg huser, if_neg hnetwork, settingOf_nil,
    List.filterMap_none]
  by_cases hgroup : curNode.name = ascii "group"
  · rw [if_pos hgroup, if_pos hgroup, List.foldlM_cons]
    cases readGroup env s.groups curNode with
    | none => rfl
    | some groups => rfl
  · rw [if_neg hgroup, if_neg hgroup]
    rfl

/-- The settings and the groups of a document are read apart. -/
theorem readSection_foldlM (env : Env) (sections : List Section) (s : Loaded) :
  sections.foldlM (readSection env) s
    = (s.fields.setAll (settingsOf sections)).bind fun fields =>
        ((groupSections sections).foldlM (readGroup env) s.groups).map fun groups =>
          { fields, groups }
  := by
  induction sections generalizing s with
  | nil => rfl
  | cons curNode rest ih =>
    have hsettings : settingsOf (curNode :: rest) = settingsOf [curNode] ++ settingsOf rest :=
      @List.flatMap_append _ _ [curNode] rest _
    have hgroups : groupSections (curNode :: rest)
        = groupSections [curNode] ++ groupSections rest := List.filter_append [curNode] rest
    rw [List.foldlM_cons, readSection_eq, hsettings, hgroups, Fields.setAll_append,
      List.foldlM_append]
    cases s.fields.setAll (settingsOf [curNode]) with
    | none => rfl
    | some fields =>
      cases (groupSections [curNode]).foldlM (readGroup env) s.groups with
      | none =>
        simp only [Option.bind_some, Option.map_none]
        cases fields.setAll (settingsOf rest) with
        | none => rfl
        | some fields' => rfl
      | some groups => apply ih

/-! ### The settings of a field -/

/-- The name of the sections that have the field. -/
def TextField.sectionName : TextField → List UInt8
  | .nickname | .username | .hostname | .customAvatar | .signature | .category => ascii "user"
  | .ipaddr | .macaddr | .multicastIp => ascii "network"

/-- The name of the elements that have the field. -/
def TextField.elementName : TextField → List UInt8
  | .nickname => ascii "nickname"
  | .username => ascii "username"
  | .hostname => ascii "hostname"
  | .customAvatar => ascii "custom_avatar"
  | .signature => ascii "signature"
  | .category => ascii "category"
  | .ipaddr => ascii "listen_ip"
  | .macaddr => ascii "mac"
  | .multicastIp => ascii "multicast_ip"

theorem mem_of_lookup {settings : List (List UInt8 × Setting)} {name : List UInt8}
    {setting : Setting} (h : settings.lookup name = some setting) :
  (name, setting) ∈ settings
  := by
  obtain ⟨l₁, l₂, rfl, -⟩ := List.lookup_eq_some_iff.mp h
  simp

/-- A field is set by the elements of its name in the sections of its category. -/
theorem lookup_eq_text_iff (f : TextField) (category name : List UInt8) :
  (sectionSettings category).lookup name = some (.text f)
    ↔ category = f.sectionName ∧ name = f.elementName
  := by
  constructor
  · intro h
    have hmem := mem_of_lookup h
    have huser : ∀ s ∈ userSettings, s.2 = .text f →
        f.sectionName = ascii "user" ∧ s.1 = f.elementName := by
      cases f <;> decide
    have hnetwork : ∀ s ∈ networkSettings, s.2 = .text f →
        f.sectionName = ascii "network" ∧ s.1 = f.elementName := by
      cases f <;> decide
    rw [sectionSettings] at hmem
    split at hmem
    · rename_i hcategory
      obtain ⟨hf, hname⟩ := huser _ hmem rfl
      exact ⟨hcategory.trans hf.symm, hname⟩
    · split at hmem
      · rename_i hcategory
        obtain ⟨hf, hname⟩ := hnetwork _ hmem rfl
        exact ⟨hcategory.trans hf.symm, hname⟩
      · cases hmem
  · rintro ⟨rfl, rfl⟩
    cases f <;> decide

/-- The contents that are copied to the field, in their order. -/
def contentsOf (f : TextField) (settings : List (Setting × XmlText)) : List XmlText :=
  (settings.filter fun s => s.1 = .text f).map Prod.snd

theorem contentsOf_append (f : TextField) (l l' : List (Setting × XmlText)) :
  contentsOf f (l ++ l') = contentsOf f l ++ contentsOf f l'
  := by
  rw [contentsOf, List.filter_append, List.map_append, contentsOf, contentsOf]

theorem contentsOf_cons_self (f : TextField) (c : XmlText) (l : List (Setting × XmlText)) :
  contentsOf f ((.text f, c) :: l) = c :: contentsOf f l
  := by
  simp [contentsOf]

/-- The settings `l'` are `l` with the first one of the field changed to `content`. -/
def FirstChanged (f : TextField) (content : XmlText) (l l' : List (Setting × XmlText)) : Prop :=
  ∃ l₁ c l₂, contentsOf f l₁ = [] ∧ l = l₁ ++ (.text f, c) :: l₂
    ∧ l' = l₁ ++ (.text f, content) :: l₂

theorem FirstChanged.append_right {f : TextField} {content : XmlText}
    {l l' : List (Setting × XmlText)} (h : FirstChanged f content l l')
    (r : List (Setting × XmlText)) :
  FirstChanged f content (l ++ r) (l' ++ r)
  := by
  obtain ⟨l₁, c, l₂, hnone, rfl, rfl⟩ := h
  refine ⟨l₁, c, l₂ ++ r, hnone, ?_, ?_⟩
  · rw [List.append_assoc, List.cons_append]
  · rw [List.append_assoc, List.cons_append]

theorem FirstChanged.append_left {f : TextField} {content : XmlText}
    {l l' r : List (Setting × XmlText)} (h : FirstChanged f content l l')
    (hr : contentsOf f r = []) :
  FirstChanged f content (r ++ l) (r ++ l')
  := by
  obtain ⟨l₁, c, l₂, hnone, rfl, rfl⟩ := h
  refine ⟨r ++ l₁, c, l₂, ?_, ?_, ?_⟩
  · rw [contentsOf_append, hr, hnone, List.append_nil]
  · rw [List.append_assoc]
  · rw [List.append_assoc]

theorem filterMap_cons_eq (settings : List (List UInt8 × Setting)) (p : Item) (ps : List Item) :
  (p :: ps).filterMap (settingOf settings)
    = (settingOf settings p).toList ++ ps.filterMap (settingOf settings)
  := by
  rw [List.filterMap_cons]
  cases settingOf settings p with
  | none => rfl
  | some s => rfl

/-- A node that is no element of the field's name is no setting of the field. -/
theorem contentsOf_settingOf (f : TextField) {category : List UInt8} {p : Item}
    (h : ¬ (category = f.sectionName ∧ p.isElement ∧ p.name = f.elementName)) :
  contentsOf f (settingOf (sectionSettings category) p).toList = []
  := by
  rw [settingOf]
  split
  · rename_i helement
    cases hlookup : (sectionSettings category).lookup p.name with
    | none => rfl
    | some setting =>
      have hne : setting ≠ .text f := by
        rintro rfl
        obtain ⟨hcategory, hname⟩ := (lookup_eq_text_iff f category p.name).mp hlookup
        apply h ⟨hcategory, helement, hname⟩
      simp [contentsOf, hne]
  · rfl

/-- The writer changes the first setting of a section. -/
theorem setContent_cases (f : TextField) (content : XmlText) (children : List Item) :
  match setContent f.elementName content children with
  | none =>
      contentsOf f (children.filterMap (settingOf (sectionSettings f.sectionName))) = []
  | some children' =>
      FirstChanged f content
        (children.filterMap (settingOf (sectionSettings f.sectionName)))
        (children'.filterMap (settingOf (sectionSettings f.sectionName)))
  := by
  induction children with
  | nil => rfl
  | cons p ps ih =>
    rw [setContent]
    by_cases h : p.isElement ∧ p.name = f.elementName
    · have hlookup := (lookup_eq_text_iff f f.sectionName p.name).mpr ⟨rfl, h.2⟩
      have hsetting : ∀ c : XmlText,
          settingOf (sectionSettings f.sectionName) { p with content := c }
            = some (.text f, c) := by
        intro c
        rw [settingOf, if_pos h.1, hlookup, Option.map_some]
      rw [if_pos h]
      refine ⟨[], p.content, ps.filterMap (settingOf (sectionSettings f.sectionName)), rfl, ?_, ?_⟩
      · rw [filterMap_cons_eq, hsetting p.content]
        rfl
      · rw [filterMap_cons_eq, hsetting content]
        rfl
    · have hnone : contentsOf f (settingOf (sectionSettings f.sectionName) p).toList = [] :=
        contentsOf_settingOf f (mt And.right h)
      rw [if_neg h]
      cases hset : setContent f.elementName content ps with
      | none =>
        rw [hset] at ih
        simp only [Option.map_none]
        rw [filterMap_cons_eq, contentsOf_append, hnone, ih, List.append_nil]
      | some ps' =>
        rw [hset] at ih
        simp only [Option.map_some]
        rw [filterMap_cons_eq, filterMap_cons_eq]
        apply ih.append_left hnone

/-- A section of another name has no setting of the field. -/
theorem contentsOf_of_ne (f : TextField) {category : List UInt8} (h : category ≠ f.sectionName)
    (children : List Item) :
  contentsOf f (children.filterMap (settingOf (sectionSettings category))) = []
  := by
  induction children with
  | nil => rfl
  | cons p ps ih =>
    rw [filterMap_cons_eq, contentsOf_append, ih, contentsOf_settingOf f (mt And.left h),
      List.append_nil]

theorem settingsOf_cons (curNode : Section) (rest : List Section) :
  settingsOf (curNode :: rest)
    = curNode.children.filterMap (settingOf (sectionSettings curNode.name)) ++ settingsOf rest
  := rfl

/-- The writer changes the first setting of the field in the document. -/
theorem updateSections_cases (f : TextField) (content : XmlText) (sections : List Section) :
  contentsOf f (settingsOf sections) = []
      ∧ updateSections f.sectionName f.elementName content sections = sections
    ∨ FirstChanged f content (settingsOf sections)
        (settingsOf (updateSections f.sectionName f.elementName content sections))
  := by
  induction sections with
  | nil =>
    left
    exact ⟨rfl, rfl⟩
  | cons curNode rest ih =>
    rw [updateSections]
    by_cases hname : curNode.name = f.sectionName
    · rw [if_pos hname]
      have hcases := setContent_cases f content curNode.children
      cases hset : setContent f.elementName content curNode.children with
      | none =>
        rw [hset] at hcases
        simp only [settingsOf_cons, contentsOf_append, hname, hcases, List.nil_append]
        refine ih.imp (fun ⟨hnone, hsame⟩ => ⟨hnone, by rw [hsame]⟩) ?_
        intro hchanged
        apply hchanged.append_left hcases
      | some children' =>
        rw [hset] at hcases
        right
        simp only [settingsOf_cons, hname]
        apply hcases.append_right
    · rw [if_neg hname]
      have hnone := contentsOf_of_ne f hname curNode.children
      simp only [settingsOf_cons, contentsOf_append, hnone, List.nil_append]
      refine ih.imp (fun ⟨hnone', hsame⟩ => ⟨hnone', by rw [hsame]⟩) ?_
      intro hchanged
      apply hchanged.append_left hnone

/-! ### What is read -/

theorem Fields.setText_setText (fields : Fields) (f : TextField) (a b : CArray f.size) :
  (fields.setText f a).setText f b = fields.setText f b
  := by
  simp only [setText, Function.update_idem]

theorem Fields.setText_self (fields : Fields) (f : TextField) :
  fields.setText f (fields.text f) = fields
  := by
  simp only [setText, Function.update_eq_self]

/-- A setting of another field and a text are copied in any order. -/
theorem Fields.set_setText (fields : Fields) {f : TextField} (a : CArray f.size)
    {setting : Setting} (hne : setting ≠ .text f) (szKey : XmlText) :
  (fields.setText f a).set setting szKey
    = (fields.set setting szKey).map fun fields => fields.setText f a
  := by
  cases setting with
  | text g =>
    have hgf : f ≠ g := by
      rintro rfl
      apply hne rfl
    simp only [set, Option.map_map]
    congr 1
    funext b
    simp only [Function.comp, setText, Function.update_comm hgf]
  | avatarType => rfl
  | avatarId => rfl
  | port => rfl

/-- Settings without one of the field leave what it has. -/
theorem Fields.setAll_setText {f : TextField} {l : List (Setting × XmlText)}
    (hnone : contentsOf f l = []) (fields : Fields) (a : CArray f.size) :
  (fields.setText f a).setAll l = (fields.setAll l).map fun fields => fields.setText f a
  := by
  induction l generalizing fields with
  | nil => rfl
  | cons s l ih =>
    have hne : s.1 ≠ .text f := by
      intro heq
      simp [contentsOf, heq] at hnone
    have hrest : contentsOf f l = [] := by simpa [contentsOf, hne] using hnone
    rw [setAll_cons, setAll_cons, set_setText fields a hne]
    cases fields.set s.1 s.2 with
    | none => rfl
    | some fields' => apply ih hrest

/-- Settings with one of the field do not depend on what it had. -/
theorem Fields.setAll_setText_of_ne_nil {f : TextField} {l : List (Setting × XmlText)}
    (hsome : contentsOf f l ≠ []) (fields : Fields) (a : CArray f.size) :
  (fields.setText f a).setAll l = fields.setAll l
  := by
  induction l generalizing fields with
  | nil => exact absurd rfl hsome
  | cons s l ih =>
    obtain ⟨setting, c⟩ := s
    rw [setAll_cons, setAll_cons]
    by_cases hne : setting = .text f
    · subst hne
      simp only [set]
      cases strcpy f.size c with
      | none => rfl
      | some b => simp only [Option.map_some, Option.bind_some, setText_setText]
    · have hrest : contentsOf f l ≠ [] := by simpa [contentsOf, hne] using hsome
      simp only [set_setText fields a hne]
      cases fields.set setting c with
      | none => rfl
      | some fields' => apply ih hrest

theorem Fields.setText_text (fields : Fields) (f : TextField) (a : CArray f.size) :
  (fields.setText f a).text f = a
  := by
  simp only [setText, Function.update_self]

/-- A field has the last of its settings. -/
theorem Fields.setAll_text {f : TextField} {l : List (Setting × XmlText)} {fields fields' : Fields}
    (h : fields.setAll l = some fields') {c : XmlText}
    (hlast : (contentsOf f l).getLast? = some c) :
  (fields'.text f).text = c.val
  := by
  induction l generalizing fields with
  | nil => cases hlast
  | cons s l ih =>
    obtain ⟨setting, c'⟩ := s
    rw [setAll_cons] at h
    obtain ⟨fields₁, hset, hrest⟩ := Option.bind_eq_some_iff.mp h
    rw [← List.singleton_append, contentsOf_append, List.getLast?_append] at hlast
    cases hnone : (contentsOf f l).getLast? with
    | some c'' =>
      rw [hnone, Option.some_or] at hlast
      apply ih hrest
      rw [hnone, hlast]
    | none =>
      rw [hnone, Option.none_or] at hlast
      rw [List.getLast?_eq_none_iff] at hnone
      by_cases hne : setting = .text f
      · subst hne
        obtain rfl : c' = c := by simpa [contentsOf] using hlast
        obtain ⟨a, ha, rfl⟩ := Option.map_eq_some_iff.mp hset
        rw [setAll_setText hnone] at hrest
        obtain ⟨fields₂, -, rfl⟩ := Option.map_eq_some_iff.mp hrest
        rw [setText_text]
        rw [strcpy] at ha
        split at ha
        · cases ha
          rfl
        · cases ha
      · simp [contentsOf, hne] at hlast

/-- The settings and the groups of a document that is read. -/
theorem readCfg_eq_some_iff {env : Env} {sections : List Section} {t : Loaded} :
  readCfg env (some sections) = some (0, t)
    ↔ env.fields.setAll (settingsOf sections) = some t.fields
        ∧ (groupSections sections).foldlM (readGroup env) (start env).groups = some t.groups
  := by
  rw [readCfg, readSection_foldlM]
  constructor
  · intro h
    obtain ⟨t', ht', heq⟩ := Option.map_eq_some_iff.mp h
    obtain ⟨fields, hfields, hmap⟩ := Option.bind_eq_some_iff.mp ht'
    obtain ⟨groups, hgroups, rfl⟩ := Option.map_eq_some_iff.mp hmap
    cases heq
    exact ⟨hfields, hgroups⟩
  · rintro ⟨hfields, hgroups⟩
    have hstart : (start env).fields = env.fields := rfl
    rw [hstart, hfields, Option.bind_some, hgroups]
    rfl

/-- The writer changes no section that makes a group. -/
theorem groupSections_update (f : TextField) (content : XmlText) (sections : List Section) :
  groupSections (updateSections f.sectionName f.elementName content sections)
    = groupSections sections
  := by
  have hgroup : f.sectionName ≠ ascii "group" := by
    cases f <;> decide
  induction sections with
  | nil => rfl
  | cons curNode rest ih =>
    rw [updateSections]
    split
    · rename_i hname
      have hne : curNode.name ≠ ascii "group" := by
        rw [hname]
        exact hgroup
      cases setContent f.elementName content curNode.children with
      | none => simpa [groupSections, hne] using ih
      | some children' => simp [groupSections, hne]
    · simp only [groupSections, List.filter_cons] at ih ⊢
      rw [ih]

/-! ### Saved settings -/

section

variable (parsed : XmlText → XmlText) (sections : List Section) (f : TextField) (value : XmlText)

/-- Once a value has been saved for the field, the document is read as before, with the value in
the field. -/
def SavesValue : Prop :=
  ∀ saved, updateCfg parsed (some sections) f.sectionName f.elementName value = (0, saved) →
    ∀ env t, readCfg env (some sections) = some (0, t) →
      ∃ a : CArray f.size, a.text = value.val
        ∧ readCfg env saved = some (0, { t with fields := t.fields.setText f a })

/-- The document has settings of the field; the first one is read as the value and fits the
array, if it is the only one, or the last one is the value already. -/
def LastIsValue : Prop :=
  ∃ first rest, contentsOf f (settingsOf sections) = first :: rest
    ∧ (parsed value).val.length < f.size
    ∧ (rest = [] → parsed value = value)
    ∧ ∀ c ∈ rest.getLast?, c = value

end

variable {parsed : XmlText → XmlText} {sections : List Section} {f : TextField} {value : XmlText}

theorem strcpy_eq_some {n : Nat} {s : XmlText} {a : CArray n} (h : strcpy n s = some a) :
  s.val.length < n ∧ a.text = s.val
  := by
  rw [strcpy] at h
  split at h
  · rename_i hfits
    cases h
    exact ⟨hfits, rfl⟩
  · cases h

/-- The settings before and after a change are copied around that of the field. -/
theorem Fields.setAll_changed {fields fields' : Fields} {l₁ l₂ : List (Setting × XmlText)}
    {c : XmlText} (h : fields.setAll (l₁ ++ (.text f, c) :: l₂) = some fields') :
  ∃ fields₁ b, fields.setAll l₁ = some fields₁ ∧ strcpy f.size c = some b
    ∧ (fields₁.setText f b).setAll l₂ = some fields'
  := by
  rw [setAll_append] at h
  obtain ⟨fields₁, hfields₁, h⟩ := Option.bind_eq_some_iff.mp h
  rw [setAll_cons] at h
  obtain ⟨fields₂, hset, h⟩ := Option.bind_eq_some_iff.mp h
  obtain ⟨b, hb, rfl⟩ := Option.map_eq_some_iff.mp hset
  exact ⟨fields₁, b, hfields₁, hb, h⟩

theorem contentsOf_changed {l l₁ l₂ : List (Setting × XmlText)} {c : XmlText}
    (hnone : contentsOf f l₁ = []) (hl : l = l₁ ++ (.text f, c) :: l₂) :
  contentsOf f l = c :: contentsOf f l₂
  := by
  rw [hl, contentsOf_append, hnone, List.nil_append, contentsOf_cons_self]

/-- A value is saved if the last setting of the field becomes the value or is it already. -/
theorem LastIsValue.savesValue (h : LastIsValue parsed sections f value) :
  SavesValue parsed sections f value
  := by
  obtain ⟨first, rest, hcontents, hfits, honly, hlast⟩ := h
  rintro saved hupdate env t hread
  cases hupdate
  obtain ⟨hfields, hgroups⟩ := readCfg_eq_some_iff.mp hread
  obtain ⟨hnone, -⟩ | ⟨l₁, c, l₂, hnone, hl, hl'⟩ :=
    updateSections_cases f (parsed value) sections
  · rw [hnone] at hcontents
    cases hcontents
  obtain ⟨rfl, rfl⟩ := List.cons_eq_cons.mp ((contentsOf_changed hnone hl).symm.trans hcontents)
  rw [hl] at hfields
  obtain ⟨fields₁, b, hfields₁, -, hrest⟩ := Fields.setAll_changed hfields
  have hcopy : strcpy f.size (parsed value) = some ⟨_, (parsed value).nul, hfits⟩ :=
    dif_pos hfits
  have hsaved : ∀ fields', (fields₁.setText f ⟨_, (parsed value).nul, hfits⟩).setAll l₂
      = some fields' →
      readCfg env (some (updateSections f.sectionName f.elementName (parsed value) sections))
        = some (0, { t with fields := fields' }) := by
    intro fields' hset
    rw [readCfg_eq_some_iff, hl', groupSections_update, Fields.setAll_append, hfields₁]
    refine ⟨?_, hgroups⟩
    rw [Option.bind_some, Fields.setAll_cons, Fields.set, hcopy]
    exact hset
  by_cases hl₂ : contentsOf f l₂ = []
  · -- The changed setting is the last one.
    rw [Fields.setAll_setText hl₂] at hrest
    obtain ⟨fields₂, hfields₂, ht⟩ := Option.map_eq_some_iff.mp hrest
    refine ⟨⟨_, (parsed value).nul, hfits⟩, ?_, ?_⟩
    · exact congrArg XmlText.val (honly hl₂)
    · apply hsaved
      rw [Fields.setAll_setText hl₂, hfields₂, ← ht, Fields.setText_setText, Option.map_some]
  · -- A later one is, and it is the value.
    rw [Fields.setAll_setText_of_ne_nil hl₂] at hrest
    have hc := List.getLast?_eq_some_getLast hl₂
    refine ⟨t.fields.text f, ?_, ?_⟩
    · rw [Fields.setAll_text hrest hc, hlast _ hc]
    · apply hsaved
      rw [Fields.setAll_setText_of_ne_nil hl₂, hrest, Fields.setText_self]

theorem TextField.one_lt_size (f : TextField) :
  1 < f.size
  := by
  cases f <;> decide

/-- An array can have another string than a given one. -/
theorem exists_text_ne (f : TextField) (value : List UInt8) :
  ∃ b : CArray f.size, b.text ≠ value
  := by
  have hsize := f.one_lt_size
  by_cases hvalue : value = []
  · use ⟨[1], by decide, hsize⟩
    simp [hvalue]
  · use ⟨[], List.not_mem_nil, Nat.zero_lt_of_lt hsize⟩
    exact Ne.symm hvalue

/-- A value that is saved for a document that can be read becomes the last setting of the field,
or is it already. -/
theorem SavesValue.lastIsValue (h : SavesValue parsed sections f value)
    (hread : ∃ env t, readCfg env (some sections) = some (0, t)) :
  LastIsValue parsed sections f value
  := by
  obtain ⟨env, t, hread⟩ := hread
  obtain ⟨hfields, hgroups⟩ := readCfg_eq_some_iff.mp hread
  obtain ⟨hnone, hsame⟩ | ⟨l₁, c, l₂, hnone, hl, hl'⟩ :=
    updateSections_cases f (parsed value) sections
  · -- No setting is changed: what the field had before stays, which can be anything.
    exfalso
    obtain ⟨b, hb⟩ := exists_text_ne f value.val
    have hread' : readCfg { env with fields := env.fields.setText f b } (some sections)
        = some (0, { t with fields := t.fields.setText f b }) := by
      rw [readCfg_eq_some_iff, Fields.setAll_setText hnone, hfields]
      exact ⟨rfl, hgroups⟩
    have hupdate : updateCfg parsed (some sections) f.sectionName f.elementName value
        = (0, some sections) := by
      rw [updateCfg, hsame]
    obtain ⟨a, ha, hsaved⟩ := h _ hupdate _ _ hread'
    rw [hread', Fields.setText_setText] at hsaved
    have htext := congrArg (fun t : Option (Int × Loaded) => t.map fun t => t.2.fields.text f)
      hsaved
    simp only [Option.map_some, Fields.setText_text, Option.some_inj] at htext
    rw [htext] at hb
    exact hb ha
  · obtain ⟨a, ha, hsaved⟩ := h _ rfl env t hread
    obtain ⟨hfields', -⟩ := readCfg_eq_some_iff.mp hsaved
    rw [hl'] at hfields'
    obtain ⟨fields₁, b, -, hcopy, hrest⟩ := Fields.setAll_changed hfields'
    obtain ⟨hfits, hb⟩ := strcpy_eq_some hcopy
    refine ⟨c, contentsOf f l₂, contentsOf_changed hnone hl, hfits, ?_, ?_⟩
    · intro hl₂
      rw [Fields.setAll_setText hl₂] at hrest
      obtain ⟨fields₂, -, heq⟩ := Option.map_eq_some_iff.mp hrest
      have htext := congrArg (fun fields => fields.text f) heq
      simp only [Fields.setText_text] at htext
      apply XmlText.ext
      rw [← hb, htext, ha]
    · intro c' hc'
      have htext := Fields.setAll_text hrest hc'
      rw [Fields.setText_text, ha] at htext
      apply XmlText.ext htext.symm

/-- Of a document that can be read, a value is saved for a field exactly if the first setting of
the field is read as the value and is the only one, or the last one is the value. -/
theorem saved_reads_back_iff (parsed : XmlText → XmlText) {sections : List Section}
    (hread : ∃ env t, readCfg env (some sections) = some (0, t)) (f : TextField)
    (value : XmlText) :
  SavesValue parsed sections f value ↔ LastIsValue parsed sections f value
  := ⟨fun h => h.lastIsValue hread, LastIsValue.savesValue⟩

theorem saved_reads_back_nickname :
  SavesValue id
    [⟨true, ascii "user", [⟨true, ascii "nickname", ⟨ascii "youngtrips", by decide⟩⟩]⟩]
    .nickname ⟨ascii "trips", by decide⟩
  := by
  apply (saved_reads_back_iff id ⟨Env.blank 4096, _, rfl⟩ _ _).mpr
  refine ⟨⟨ascii "youngtrips", by decide⟩, [], by decide, by decide, fun _ => rfl, ?_⟩
  rintro c ⟨⟩

/-- A document without the element is saved as it was. -/
theorem missing_element_not_saved :
  ∃ sections, (∃ env t, readCfg env (some sections) = some (0, t))
    ∧ ¬ SavesValue id sections .nickname ⟨ascii "trips", by decide⟩
  := by
  refine ⟨[⟨true, ascii "user", [⟨true, ascii "username", ⟨ascii "pals", by decide⟩⟩]⟩],
    ⟨Env.blank 4096, _, rfl⟩, ?_⟩
  intro h
  obtain ⟨first, rest, hcontents, -⟩ := h.lastIsValue ⟨Env.blank 4096, _, rfl⟩
  cases hcontents

end Config

end IFreeChat
