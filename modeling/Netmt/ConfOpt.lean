/-
This file models `CConfOpt`, which sets and looks up the items of a configuration.

`SetValue` formats the names and copies the value to an array of its own, and there
it ends: the value is not stored in the section, and the configuration is not
marked changed. The integer lookup copies the stored text to an array without
looking at its length, and reads it with `sscanf` without looking at the result.

`CSection` and the chain of sections are only declared in the repository, so they
are parameters here.
-/
import Mathlib.Data.Nat.Digits.Lemmas
import Netmt.ConfFormat

namespace Netmt

open CMem Words

/-! ### Integers as texts -/

/-- The decimal digits of a number. -/
def decimal (number : Nat) : List UInt8 :=
  if number = 0 then [48]
  else (Nat.digits 10 number).reverse.map fun digit => UInt8.ofNat (48 + digit)

/-- `sprintf(target, "%d", value)`: the text. -/
def sprintfInt (value : Int32) : List UInt8 :=
  if value.toInt < 0 then 45 :: decimal value.toInt.natAbs else decimal value.toInt.natAbs

/-- `sscanf(text, "%d", &value)`: what is assigned to `value`, if anything is. -/
def sscanfInt (text : List UInt8) : Option Int :=
  let digits :=
    match text.dropWhile (isSpace ·) with
    | [] => []
    | sign :: rest => if sign = 45 ∨ sign = 43 then rest else sign :: rest
  match digits with
  | [] => none
  | digit :: _ => if isDigit digit then some (atoi text) else none

/-! ### The sections -/

/-- `CSection` and the chain of sections. -/
structure SectionClass (Section : Type) where
  /-- `m_strSection`. -/
  title : Section → List UInt8
  /-- `CSection(section, column)`. -/
  construct : List UInt8 → Int → Section
  /-- `GetValue(name)`. -/
  getValue : Section → List UInt8 → Option CText
  /-- `SetValue(section, name, value, comment)`. -/
  setValue : Section → List UInt8 → List UInt8 → Option (List UInt8) → Option (List UInt8) → Section
  /-- `SetComment(comment)`. -/
  setComment : Section → List UInt8 → Section
  /-- `m_dcmSection->Push`: the sections in the order of `Begin` and `Next`. -/
  push : List Section → Section → List Section

variable {Section : Type}

/-- A `CConfOpt`. The section `m_cSection` points to is the first with that title. -/
structure ConfOpt (Section : Type) where
  dcmSection : List Section
  cSection : List UInt8
  bConfigChange : Int
  bDisplayConfigValue : Bool
  bDisplayDefaultPrompt : Bool
  bItemExist : Int

/-- `SearchSection`. -/
def searchSection (cls : SectionClass Section) (sections : List Section) (title : List UInt8) :
    Option Section :=
  sections.find? fun item => cls.title item = title

/-- A method called through `m_cSection`. -/
def ConfOpt.update (cls : SectionClass Section) (conf : ConfOpt Section)
    (method : Section → Section) : ConfOpt Section :=
  { conf with
    dcmSection := conf.dcmSection.modify
      (conf.dcmSection.findIdx fun item => cls.title item = conf.cSection) method }

/-- `m_cSection = new CSection(section, column)` and `m_dcmSection->Push(m_cSection)`. -/
def ConfOpt.pushNew (cls : SectionClass Section) (conf : ConfOpt Section) (title : List UInt8)
    (column : Int) : ConfOpt Section :=
  { conf with
    dcmSection := cls.push conf.dcmSection (cls.construct title column)
    cSection := title }

/-- `AddSection`. -/
def addSection (cls : SectionClass Section) (conf : ConfOpt Section) (title : List UInt8)
    (column : Int) : ConfOpt Section :=
  ({ conf.pushNew cls title column with bConfigChange := 1 }).update cls
    (cls.setComment · (List.replicate 57 35))

/-! ### The operations -/

/-- `SetValue` of a text. -/
def setValueText (cls : SectionClass Section) (junk : Nat → UInt8) (conf : ConfOpt Section)
    (sectionArg nameArg : Option (Ptr ConfObject)) (value : Option (List UInt8))
    (_comment : Option (List UInt8)) : Exec ConfObject (ConfOpt Section) := do
  match ← formatNames junk sectionArg nameArg with
  | none => .ok conf
  | some (strSection, _) => do
    match value with
    | none => pure ()
    | some value => do
      let _ ← strcpy (malloc ConfObject.strValue junk 128) value
    let title ← stringAt strSection
    match searchSection cls conf.dcmSection title with
    | some _ => .ok { conf with cSection := title }
    | none => .ok (conf.pushNew cls title 0)

/-- `SetValue` of an integer. -/
def setValueInt (cls : SectionClass Section) (junk : Nat → UInt8) (conf : ConfOpt Section)
    (sectionArg nameArg : Option (Ptr ConfObject)) (value : Int32)
    (comment : Option (List UInt8)) : Exec ConfObject (ConfOpt Section) := do
  if !(← isStrValid sectionArg) then .ok conf
  else if !(← isStrValid nameArg) then .ok conf
  else do
    let strTemp ← strcpy (malloc ConfObject.strTemp junk 32) (sprintfInt value)
    let text ← stringAt strTemp
    setValueText cls junk conf sectionArg nameArg (some text) comment

/-- `SetDefaultPrompt`. -/
def setDefaultPrompt (cls : SectionClass Section) (junk : Nat → UInt8) (conf : ConfOpt Section)
    (nameArg : Option (Ptr ConfObject)) (defv : List UInt8) :
    Exec ConfObject (ConfOpt Section) :=
  if conf.bItemExist ≠ 0 then .ok conf
  else
    match nameArg with
    | none => .error .null
    | some nameArg => do
      let name ← stringAt nameArg
      let strComment ← strcpy (malloc ConfObject.strComment junk 128)
        (text " " ++ name ++ text " default is \"" ++ defv ++ text "\"")
      let comment ← stringAt strComment
      .ok (conf.update cls (cls.setComment · comment))

/-- `GetValue` of a text: what it returns, and the array `value` points to. -/
def getValueText (cls : SectionClass Section) (junk : Nat → UInt8) (conf : ConfOpt Section)
    (sectionArg nameArg : Option (Ptr ConfObject)) (value : Ptr ConfObject)
    (comment : Option (List UInt8)) :
    Exec ConfObject (Int × Ptr ConfObject × ConfOpt Section) := do
  match ← formatNames junk sectionArg nameArg with
  | none => .ok (0, value, conf)
  | some (strSection, strName) => do
    let title ← stringAt strSection
    let name ← stringAt strName
    let found := searchSection cls conf.dcmSection title
    let conf :=
      if found.isSome then { conf with cSection := title } else addSection cls conf title 0
    let pTemp := found.bind (cls.getValue · name)
    let conf := { conf with bItemExist := 1 }
    match pTemp with
    | none =>
      let conf := { conf with bConfigChange := 1, bItemExist := 0 }
      let comment := comment.filter (· ≠ [])
      .ok (0, value, conf.update cls (cls.setValue · title name none comment))
    | some pTemp =>
      if pTemp.bytes = [] then .ok (0, value, conf)
      else do
        let value ← strcpy value pTemp.bytes
        .ok (1, value, conf)

/-- What `GET_CONF_VALUE` does when there is no value, apart from using the default. -/
def missingValue (cls : SectionClass Section) (junk : Nat → UInt8) (conf : ConfOpt Section)
    (sectionArg nameArg : Option (Ptr ConfObject)) (strValue : Ptr ConfObject) (defv : Int32) :
    Exec ConfObject (ConfOpt Section) := do
  let conf ←
    if conf.bDisplayConfigValue ∧ conf.bItemExist = 0 then
      setValueInt cls junk conf sectionArg nameArg defv none
    else .ok conf
  if conf.bDisplayDefaultPrompt then do
    let strValue ← strcpy strValue (sprintfInt defv)
    let prompt ← stringAt strValue
    setDefaultPrompt cls junk conf nameArg prompt
  else .ok conf

/-- `GetValue` of an integer: what it returns, and what it assigns to `value`, if anything. -/
def getValueInt (cls : SectionClass Section) (junk : Nat → UInt8) (conf : ConfOpt Section)
    (sectionArg nameArg : Option (Ptr ConfObject)) (defv : Int32) (comment : Option (List UInt8)) :
    Exec ConfObject (Int × Option Int × ConfOpt Section) := do
  let (found, strValue, conf) ← getValueText cls junk conf sectionArg nameArg
    (malloc .strValue junk 128) comment
  if found = 0 then do
    let conf ← missingValue cls junk conf sectionArg nameArg strValue defv
    .ok (0, some defv.toInt, conf)
  else do
    let stored ← stringAt strValue
    .ok (1, sscanfInt stored, conf)

/-! ### What the operations do -/

/-- The names of an item, which are not empty, have a word in them and fit into the arrays. -/
structure ItemName where
  sectionArg : ConfString
  nameArg : ConfString
  sectionFits : Fits 256 sectionArg.text
  nameFits : Fits 128 nameArg.text

/-- The title of the section an item is looked up in. -/
def ItemName.title (item : ItemName) : List UInt8 := tidied isDelimiter item.sectionArg.text

/-- The name an item is looked up by. -/
def ItemName.key (item : ItemName) : List UInt8 := tidied isDelimiter item.nameArg.text

/-- The pointers the operations get. -/
def ItemName.sectionPtr (item : ItemName) : Option (Ptr ConfObject) :=
  some (item.sectionArg.ptr .sectionArg)

def ItemName.namePtr (item : ItemName) : Option (Ptr ConfObject) :=
  some (item.nameArg.ptr .nameArg)

/-- The text of an item, if there is one. -/
def lookup (cls : SectionClass Section) (conf : ConfOpt Section) (title key : List UInt8) :
    Option CText :=
  (searchSection cls conf.dcmSection title).bind (cls.getValue · key)

theorem ItemName.title_clean (item : ItemName) : 0 ∉ item.title :=
  fun nul => item.sectionArg.noNUL ((tidied_sublist isDelimiter _).subset nul)

theorem ItemName.key_clean (item : ItemName) : 0 ∉ item.key :=
  fun nul => item.nameArg.noNUL ((tidied_sublist isDelimiter _).subset nul)

theorem formatNames_item (junk : Nat → UInt8) (item : ItemName) :
    ∃ behindSection behindName, formatNames junk item.sectionPtr item.namePtr =
      .ok (some (⟨.strSection, item.title ++ 0 :: behindSection⟩,
        ⟨.strName, item.key ++ 0 :: behindName⟩)) := by
  rw [ItemName.sectionPtr, ItemName.namePtr, formatNames_valid]
  rcases format_ptr item.sectionArg .sectionArg .strSection junk 256 with
    ⟨-, behindSection, writes⟩ | ⟨overrun, -⟩
  · rcases format_ptr item.nameArg .nameArg .strName junk 128 with
      ⟨-, behindName, others⟩ | ⟨overrun, -⟩
    · exact ⟨behindSection, behindName, by rw [writes, ok_bind, others, ok_bind]; rfl⟩
    · exact absurd item.nameFits overrun
  · exact absurd item.sectionFits overrun

/-- The digits of an `int` fit into any of the arrays. -/
theorem length_sprintfInt_le (value : Int32) : (sprintfInt value).length ≤ 11 := by
  have small : value.toInt.natAbs < 10 ^ 10 := by
    have low := value.le_toInt
    have high := value.toInt_lt
    omega
  have digits : (decimal value.toInt.natAbs).length ≤ 10 := by
    rw [decimal]
    split
    · decide
    · rw [List.length_map, List.length_reverse]
      exact (Nat.digits_length_le_iff (by decide) _).mpr small
  rw [sprintfInt]
  split
  · rw [List.length_cons]
    omega
  · omega

/-- What is left of a `SetValue`: the section is looked for, and made if there is none. -/
def ConfOpt.settled (cls : SectionClass Section) (conf : ConfOpt Section) (title : List UInt8) :
    ConfOpt Section :=
  match searchSection cls conf.dcmSection title with
  | some _ => { conf with cSection := title }
  | none => conf.pushNew cls title 0

theorem setValueText_eq (cls : SectionClass Section) (junk : Nat → UInt8) (conf : ConfOpt Section)
    (item : ItemName) (value : List UInt8) (comment : Option (List UInt8))
    (short : value.length < 128) :
    setValueText cls junk conf item.sectionPtr item.namePtr (some value) comment =
      .ok (conf.settled cls item.title) := by
  obtain ⟨behindSection, behindName, formatted⟩ := formatNames_item junk item
  rw [setValueText, formatted, ok_bind]
  simp only []
  rw [strcpy_of_lt _ _ (by rw [malloc_length]; exact short), ok_bind,
    stringAt_append_nul _ _ _ item.title_clean, ok_bind, ConfOpt.settled]
  cases searchSection cls conf.dcmSection item.title with
  | none => rfl
  | some found => rfl

/-- `SetValue` of an integer looks for the section, and does nothing else. -/
theorem setValueInt_eq (cls : SectionClass Section) (junk : Nat → UInt8) (conf : ConfOpt Section)
    (item : ItemName) (value : Int32) (comment : Option (List UInt8)) :
    setValueInt cls junk conf item.sectionPtr item.namePtr value comment =
      .ok (conf.settled cls item.title) := by
  have length := length_sprintfInt_le value
  have shorter := (List.takeWhile_sublist (l := sprintfInt value) (· ≠ 0)).length_le
  have sectionValid : isStrValid item.sectionPtr = .ok true :=
    isStrValid_text _ _ _ item.sectionArg.noNUL item.sectionArg.nonempty
  have nameValid : isStrValid item.namePtr = .ok true :=
    isStrValid_text _ _ _ item.nameArg.noNUL item.nameArg.nonempty
  rw [setValueInt, sectionValid, ok_bind, nameValid, ok_bind]
  simp only [Bool.not_true, Bool.false_eq_true, if_false]
  rw [strcpy_of_lt _ _ (by rw [malloc_length]; omega), ok_bind, stringAt, cString_append_stop]
  exact setValueText_eq cls junk conf item _ comment (by omega)

/-- The state a `GetValue` that finds the item leaves. -/
def ConfOpt.visited (conf : ConfOpt Section) (title : List UInt8) : ConfOpt Section :=
  { conf with cSection := title, bItemExist := 1 }

theorem getValueText_some (cls : SectionClass Section) (junk : Nat → UInt8)
    (conf : ConfOpt Section) (item : ItemName) (value : Ptr ConfObject)
    (comment : Option (List UInt8)) (stored : CText)
    (found : lookup cls conf item.title item.key = some stored) :
    getValueText cls junk conf item.sectionPtr item.namePtr value comment =
      if stored.bytes = [] then .ok (0, value, conf.visited item.title)
      else strcpy value stored.bytes >>= fun value =>
        .ok (1, value, conf.visited item.title) := by
  obtain ⟨behindSection, behindName, formatted⟩ := formatNames_item junk item
  obtain ⟨held, searched, kept⟩ := Option.bind_eq_some_iff.mp found
  rw [getValueText, formatted, ok_bind]
  simp only []
  rw [stringAt_append_nul _ _ _ item.title_clean, ok_bind,
    stringAt_append_nul _ _ _ item.key_clean, ok_bind, searched]
  simp only [Option.bind_some, Option.isSome_some, if_true]
  rw [kept]
  rfl

/-- A missing item is not found, whatever becomes of the configuration. -/
theorem getValueText_none (cls : SectionClass Section) (junk : Nat → UInt8)
    (conf : ConfOpt Section) (item : ItemName) (value : Ptr ConfObject)
    (comment : Option (List UInt8)) (missing : lookup cls conf item.title item.key = none) :
    ∃ later, getValueText cls junk conf item.sectionPtr item.namePtr value comment =
      .ok (0, value, later) := by
  obtain ⟨behindSection, behindName, formatted⟩ := formatNames_item junk item
  rw [lookup] at missing
  rw [getValueText, formatted, ok_bind]
  simp only []
  rw [stringAt_append_nul _ _ _ item.title_clean, ok_bind,
    stringAt_append_nul _ _ _ item.key_clean, ok_bind, missing]
  exact ⟨_, rfl⟩

/-- A lookup that returns one number does not return another. -/
theorem returned_ne {first second : Int} (different : first ≠ second)
    (assigned other : Option Int) (conf after : ConfOpt Section) :
    (.ok (first, assigned, conf) : Exec ConfObject (Int × Option Int × ConfOpt Section)) ≠
      .ok (second, other, after) :=
  fun same => different (congrArg Prod.fst (Except.ok.inj same))

/-- What is not found is not returned as found. -/
theorem getValueInt_not_found (cls : SectionClass Section) (junk : Nat → UInt8)
    (conf later : ConfOpt Section) (item : ItemName) (defv : Int32)
    (comment : Option (List UInt8)) (value : Ptr ConfObject)
    (missing : getValueText cls junk conf item.sectionPtr item.namePtr
      (malloc .strValue junk 128) comment = .ok (0, value, later)) (assigned : Option Int)
    (after : ConfOpt Section) :
    getValueInt cls junk conf item.sectionPtr item.namePtr defv comment ≠
      .ok (1, assigned, after) := by
  rw [getValueInt, missing, ok_bind]
  simp only [if_true]
  intro returned
  obtain ⟨conf, -, result⟩ := (bind_eq_ok_iff _ _ _).mp returned
  exact returned_ne (by decide) _ _ _ _ result

/-- A text that fits is read, and the result of the reading not looked at. -/
theorem getValueInt_found (cls : SectionClass Section) (junk : Nat → UInt8)
    (conf : ConfOpt Section) (item : ItemName) (defv : Int32) (comment : Option (List UInt8))
    (stored : CText) (found : lookup cls conf item.title item.key = some stored)
    (nonempty : stored.bytes ≠ []) (short : stored.bytes.length < 128) :
    getValueInt cls junk conf item.sectionPtr item.namePtr defv comment =
      .ok (1, sscanfInt stored.bytes, conf.visited item.title) := by
  rw [getValueInt, getValueText_some cls junk conf item _ comment stored found, if_neg nonempty,
    strcpy_of_lt _ _ (by rw [malloc_length]; exact short), ok_bind, ok_bind]
  simp only []
  rw [if_neg (by decide), malloc_object, stringAt_append_nul _ _ _ stored.noNUL, ok_bind]

/-- A longer one overruns `strValue`. -/
theorem getValueInt_overrun (cls : SectionClass Section) (junk : Nat → UInt8)
    (conf : ConfOpt Section) (item : ItemName) (defv : Int32) (comment : Option (List UInt8))
    (stored : CText) (found : lookup cls conf item.title item.key = some stored)
    (long : 128 ≤ stored.bytes.length) :
    getValueInt cls junk conf item.sectionPtr item.namePtr defv comment =
      .error (.outOfBounds .strValue) := by
  have nonempty : stored.bytes ≠ [] := List.ne_nil_of_length_pos (by omega)
  have overrun := strcpy_of_ge (malloc ConfObject.strValue junk 128) stored.bytes
    (by rw [malloc_length]; exact long)
  rw [getValueInt, getValueText_some cls junk conf item _ comment stored found, if_neg nonempty,
    overrun, error_bind, error_bind, malloc_object]

/-- For an empty text the default is used, and nothing else is done. -/
theorem getValueInt_empty (cls : SectionClass Section) (junk : Nat → UInt8)
    (conf : ConfOpt Section) (item : ItemName) (defv : Int32) (comment : Option (List UInt8))
    (stored : CText) (found : lookup cls conf item.title item.key = some stored)
    (empty : stored.bytes = []) :
    getValueInt cls junk conf item.sectionPtr item.namePtr defv comment =
      .ok (0, some defv.toInt, conf.visited item.title) := by
  have length := length_sprintfInt_le defv
  have nothing : missingValue cls junk (conf.visited item.title) item.sectionPtr item.namePtr
      (malloc .strValue junk 128) defv = .ok (conf.visited item.title) := by
    rw [missingValue, if_neg fun shown => absurd shown.2 (by decide : (1 : Int) ≠ 0), ok_bind]
    simp only []
    split
    · rw [strcpy_of_lt _ _ (by rw [malloc_length]; omega), ok_bind, stringAt, cString_append_stop]
      rfl
    · rfl
  rw [getValueInt, getValueText_some cls junk conf item _ comment stored found, if_pos empty,
    ok_bind]
  simp only [if_true]
  rw [nothing, ok_bind]

/-! ### Setting and getting -/

/-- What is relied on of the sections: a pushed one is found by its title, and a new one has no
items. -/
structure SectionClass.Lawful (cls : SectionClass Section) : Prop where
  title_construct : ∀ title column, cls.title (cls.construct title column) = title
  search_push : ∀ sections item, searchSection cls sections (cls.title item) = none →
    searchSection cls (cls.push sections item) (cls.title item) = some item
  getValue_construct : ∀ title column name, cls.getValue (cls.construct title column) name = none

/-- A value that is set is returned by every later lookup, the configuration is marked changed, and
the other items have the values they had. -/
def SetThenGet (cls : SectionClass Section) (junk : Nat → UInt8) (conf : ConfOpt Section)
    (item : ItemName) (value : Int32) (comment : Option (List UInt8)) : Prop :=
  ∃ after, setValueInt cls junk conf item.sectionPtr item.namePtr value comment = .ok after ∧
    after.bConfigChange ≠ 0 ∧
    (∀ defv, ∃ later, getValueInt cls junk after item.sectionPtr item.namePtr defv comment =
      .ok (1, some value.toInt, later)) ∧
    ∀ title key, (title, key) ≠ (item.title, item.key) →
      lookup cls after title key = lookup cls conf title key

/-- The text stored for the item is read as that value. -/
def HoldsValue (cls : SectionClass Section) (conf : ConfOpt Section) (item : ItemName)
    (value : Int32) : Prop :=
  ∃ stored, lookup cls conf item.title item.key = some stored ∧ stored.bytes ≠ [] ∧
    stored.bytes.length < 128 ∧ sscanfInt stored.bytes = some value.toInt

/-- A lookup that returns 1 with a value has read it from the stored text. -/
theorem getValueInt_one_iff (cls : SectionClass Section) (junk : Nat → UInt8)
    (conf : ConfOpt Section) (item : ItemName) (defv value : Int32)
    (comment : Option (List UInt8)) :
    (∃ later, getValueInt cls junk conf item.sectionPtr item.namePtr defv comment =
      .ok (1, some value.toInt, later)) ↔ HoldsValue cls conf item value := by
  constructor
  · rintro ⟨later, returned⟩
    cases found : lookup cls conf item.title item.key with
    | none =>
      obtain ⟨conf', missing⟩ := getValueText_none cls junk conf item
        (malloc ConfObject.strValue junk 128) comment found
      exact absurd returned
        (getValueInt_not_found cls junk conf conf' item defv comment _ missing _ _)
    | some stored =>
      by_cases empty : stored.bytes = []
      · rw [getValueInt_empty cls junk conf item defv comment stored found empty] at returned
        exact absurd returned (returned_ne (by decide) _ _ _ _)
      · by_cases short : stored.bytes.length < 128
        · rw [getValueInt_found cls junk conf item defv comment stored found empty short]
            at returned
          exact ⟨stored, found, empty, short,
            congrArg (fun result => result.2.1) (Except.ok.inj returned)⟩
        · rw [getValueInt_overrun cls junk conf item defv comment stored found (by omega)]
            at returned
          exact nomatch returned
  · rintro ⟨stored, found, nonempty, short, read⟩
    exact ⟨_, by rw [getValueInt_found cls junk conf item defv comment stored found nonempty short,
      read]⟩

/-- The section `SetValue` makes has no items. -/
theorem lookup_settled (cls : SectionClass Section) (lawful : cls.Lawful)
    (conf : ConfOpt Section) (title key : List UInt8) :
    lookup cls (conf.settled cls title) title key = lookup cls conf title key := by
  rw [ConfOpt.settled]
  cases searched : searchSection cls conf.dcmSection title with
  | some held => rfl
  | none =>
    have named := lawful.title_construct title 0
    have pushed := lawful.search_push conf.dcmSection (cls.construct title 0)
      (by rw [named]; exact searched)
    rw [named] at pushed
    rw [lookup, lookup, searched, ConfOpt.pushNew, pushed]
    exact lawful.getValue_construct title 0 key

theorem settled_bConfigChange (cls : SectionClass Section) (conf : ConfOpt Section)
    (title : List UInt8) : (conf.settled cls title).bConfigChange = conf.bConfigChange := by
  rw [ConfOpt.settled]
  cases searchSection cls conf.dcmSection title with
  | none => rfl
  | some held => rfl

/-- A value that is set is returned later exactly when it is what the configuration, already marked
changed, holds before.

`SetValue` stores nothing and marks nothing: it looks for the section and makes an empty one where
there is none. `Lawful` is what is relied on of the list of sections. -/
theorem set_then_get_iff (cls : SectionClass Section) (lawful : cls.Lawful) (junk : Nat → UInt8)
    (conf : ConfOpt Section) (item : ItemName) (value : Int32) (comment : Option (List UInt8)) :
    SetThenGet cls junk conf item value comment ↔
      conf.bConfigChange ≠ 0 ∧ HoldsValue cls conf item value := by
  constructor
  · rintro ⟨after, set, changed, got, -⟩
    rw [setValueInt_eq] at set
    rw [← Except.ok.inj set, settled_bConfigChange] at changed
    obtain ⟨stored, found, holds⟩ :=
      (getValueInt_one_iff cls junk after item value value comment).mp (got value)
    rw [← Except.ok.inj set, lookup_settled cls lawful] at found
    exact ⟨changed, stored, found, holds⟩
  · rintro ⟨changed, stored, found, holds⟩
    obtain ⟨held, searched, -⟩ := Option.bind_eq_some_iff.mp found
    have settled : conf.settled cls item.title = { conf with cSection := item.title } := by
      rw [ConfOpt.settled, searched]
    refine ⟨_, setValueInt_eq cls junk conf item value comment, ?_, fun defv => ?_, ?_⟩
    · rw [settled_bConfigChange]
      exact changed
    · rw [getValueInt_one_iff]
      exact ⟨stored, by rw [lookup_settled cls lawful, found], holds⟩
    · rw [settled]
      exact fun title key other => rfl

/-- A section that keeps its items in a list. -/
structure PlainSection where
  title : List UInt8
  items : List (List UInt8 × CText)
  deriving DecidableEq

/-- Sections kept in the order they come. -/
def plainSections : SectionClass PlainSection where
  title held := held.title
  construct title _ := ⟨title, []⟩
  getValue held name := (held.items.find? fun item => item.1 = name).map Prod.snd
  setValue held _ name value _ :=
    match value with
    | none => held
    | some value => { held with items := (name, ⟨value.takeWhile (· ≠ 0), fun nul => by
        simpa using List.mem_takeWhile_imp nul⟩) :: held.items }
  setComment held _ := held
  push sections held := sections ++ [held]

theorem plainSections_lawful : plainSections.Lawful where
  title_construct _ _ := rfl
  search_push sections item missing := by
    rw [searchSection] at missing ⊢
    show List.find? _ (sections ++ [item]) = some item
    rw [List.find?_append, missing, List.find?_singleton]
    exact if_pos (decide_eq_true rfl)
  getValue_construct _ _ _ := rfl

/-- The item `a` of the section `a`. -/
def letterItem : ItemName where
  sectionArg := letterString
  nameArg := letterString
  sectionFits := ⟨⟨97, by decide, by decide⟩, by decide⟩
  nameFits := ⟨⟨97, by decide, by decide⟩, by decide⟩

/-- A configuration whose only item has a text. -/
def letterConf (stored : CText) (bConfigChange : Int) : ConfOpt PlainSection where
  dcmSection := [⟨text "a", [(text "a", stored)]⟩]
  cSection := text "a"
  bConfigChange := bConfigChange
  bDisplayConfigValue := false
  bDisplayDefaultPrompt := false
  bItemExist := 0

/-- The item holds that value already, and something else was changed before. -/
theorem set_then_get_iff_same :
    SetThenGet plainSections (fun _ => 0) (letterConf ⟨text "7", by decide⟩ 1) letterItem 7 none :=
  (set_then_get_iff plainSections plainSections_lawful (fun _ => 0) _ letterItem 7 none).mpr
    ⟨by decide, ⟨text "7", by decide⟩, by decide, by decide, by decide, by decide⟩

/-- The value 7, set in a configuration without sections, is not there afterwards. -/
theorem set_then_get_forgets :
    ¬ SetThenGet plainSections (fun _ => 0) ⟨[], [], 1, false, false, 0⟩ letterItem 7 none := by
  rintro ⟨after, set, -, got, -⟩
  rw [setValueInt_eq] at set
  obtain ⟨stored, found, -⟩ := (getValueInt_one_iff _ _ _ _ 0 7 none).mp (got 0)
  rw [← Except.ok.inj set, lookup_settled _ plainSections_lawful] at found
  exact nomatch found

/-! ### The integer lookup -/

/-- The number some digits denote. -/
def digitsValue (digits : List UInt8) : Nat :=
  Nat.ofDigits 10 (digits.reverse.map fun digit => digit.toNat - 48)

/-- An integer as it is written: digits, and a sign before them or none. -/
inductive Signed : List UInt8 → Int → Prop
  | plain (digits : List UInt8) (nonempty : digits ≠ []) (all : ∀ byte ∈ digits, isDigit byte) :
      Signed digits (digitsValue digits)
  | plus (digits : List UInt8) (nonempty : digits ≠ []) (all : ∀ byte ∈ digits, isDigit byte) :
      Signed (43 :: digits) (digitsValue digits)
  | minus (digits : List UInt8) (nonempty : digits ≠ []) (all : ∀ byte ∈ digits, isDigit byte) :
      Signed (45 :: digits) (-(digitsValue digits))

/-- The whole text is that integer, blanks before it apart. -/
def Numeral (text : List UInt8) (number : Int) : Prop :=
  ∃ blanks written, (∀ byte ∈ blanks, isSpace byte) ∧ Signed written number ∧
    text = blanks ++ written

/-- The text begins with that integer. -/
def Begins (text : List UInt8) (number : Int) : Prop :=
  ∃ front rest, Numeral front number ∧ (∀ byte ∈ rest.head?, ¬ isDigit byte) ∧
    text = front ++ rest

theorem Numeral.begins {text : List UInt8} {number : Int} (whole : Numeral text number) :
    Begins text number :=
  ⟨text, [], whole, nofun, (List.append_nil text).symm⟩

/-- The digits that begin a text are read to their end. -/
theorem readDigits_append (digits rest : List UInt8) (read : Nat)
    (all : ∀ byte ∈ digits, isDigit byte) (stops : ∀ byte ∈ rest.head?, ¬ isDigit byte) :
    readDigits read (digits ++ rest) = digitsValue digits + 10 ^ digits.length * read := by
  induction digits generalizing read with
  | nil =>
    have halt : readDigits read rest = read := by
      cases rest with
      | nil => rfl
      | cons byte rest => rw [readDigits, if_neg (stops byte rfl)]
    rw [List.nil_append, halt, List.length_nil, pow_zero, one_mul]
    exact (Nat.zero_add read).symm
  | cons digit digits inductionHypothesis =>
    have value : digitsValue (digit :: digits) =
        digitsValue digits + 10 ^ digits.length * (digit.toNat - 48) := by
      rw [digitsValue, List.reverse_cons, List.map_append, Nat.ofDigits_append, List.length_map,
        List.length_reverse, List.map_singleton, Nat.ofDigits_singleton, digitsValue]
    rw [List.cons_append, readDigits, if_pos (all digit List.mem_cons_self),
      inductionHypothesis _ fun byte member => all byte (List.mem_cons_of_mem digit member),
      value, List.length_cons, pow_succ]
    ring

theorem not_isSpace_of_isDigit {byte : UInt8} (digit : isDigit byte) : ¬ isSpace byte := by
  rw [isDigit, decide_eq_true_iff, UInt8.le_iff_toNat_le, UInt8.le_iff_toNat_le] at digit
  rw [isSpace, decide_eq_true_iff, UInt8.le_iff_toNat_le, UInt8.le_iff_toNat_le]
  rintro (rfl | blank)
  · exact absurd digit (by decide)
  · have low : 48 ≤ byte.toNat := digit.1
    have high : byte.toNat ≤ 13 := blank.2
    omega

theorem dropWhile_blanks (blanks rest : List UInt8) (byte : UInt8)
    (all : ∀ byte ∈ blanks, isSpace byte) (other : ¬ isSpace byte) :
    (blanks ++ byte :: rest).dropWhile (isSpace ·) = byte :: rest := by
  rw [List.dropWhile_append_of_pos fun byte member => all byte member,
    List.dropWhile_cons_of_neg other]

/-- `sscanf` reads the integer a text begins with, as an `int`. -/
theorem sscanfInt_of_begins {text : List UInt8} {number : Int} (begins : Begins text number) :
    sscanfInt text = some (toInt32 (max (-2 ^ 63) (min (2 ^ 63 - 1) number))) := by
  obtain ⟨_, rest, ⟨blanks, written, blank, signed, rfl⟩, stops, rfl⟩ := begins
  rw [List.append_assoc, sscanfInt, atoi, strtol]
  cases signed with
  | plain _ nonempty all =>
    obtain ⟨digit, digits, rfl⟩ := List.exists_cons_of_ne_nil nonempty
    have first : isDigit digit := all digit List.mem_cons_self
    have notMinus : digit ≠ 45 := fun same => absurd (same ▸ first) (by decide)
    have notPlus : digit ≠ 43 := fun same => absurd (same ▸ first) (by decide)
    have read := readDigits_append (digit :: digits) rest 0 all stops
    rw [List.cons_append] at read ⊢
    rw [dropWhile_blanks blanks _ digit blank (not_isSpace_of_isDigit first)]
    simp only []
    rw [if_neg (not_or.mpr ⟨notMinus, notPlus⟩), if_neg notMinus, if_neg notPlus]
    simp only []
    rw [if_pos first, read, Nat.mul_zero, Nat.add_zero, max_eq_right (by omega)]
  | plus digits nonempty all =>
    obtain ⟨digit, digits, rfl⟩ := List.exists_cons_of_ne_nil nonempty
    have first : isDigit digit := all digit List.mem_cons_self
    have read := readDigits_append (digit :: digits) rest 0 all stops
    rw [List.cons_append, dropWhile_blanks blanks _ 43 blank (by decide)]
    simp only []
    rw [if_pos (Or.inr trivial), if_neg (by decide), if_pos trivial, read, List.cons_append]
    simp only []
    rw [if_pos first, Nat.mul_zero, Nat.add_zero, max_eq_right (by omega)]
  | minus digits nonempty all =>
    obtain ⟨digit, digits, rfl⟩ := List.exists_cons_of_ne_nil nonempty
    have first : isDigit digit := all digit List.mem_cons_self
    have read := readDigits_append (digit :: digits) rest 0 all stops
    rw [List.cons_append, dropWhile_blanks blanks _ 45 blank (by decide)]
    simp only []
    rw [if_pos (Or.inl trivial), if_pos trivial, read, List.cons_append]
    simp only []
    rw [if_pos first, Nat.mul_zero, Nat.add_zero, min_eq_right (by omega)]

/-- A lookup returns 1 and the integer the stored text denotes, or 0 and the default. -/
def LookupTotal (reading : List UInt8 → Int → Prop) (cls : SectionClass Section)
    (junk : Nat → UInt8) (conf : ConfOpt Section) (item : ItemName) (stored : CText)
    (comment : Option (List UInt8)) : Prop :=
  ∀ defv : Int32, ∃ later,
    (∃ number, reading stored.bytes number ∧
      getValueInt cls junk conf item.sectionPtr item.namePtr defv comment =
        .ok (1, some number, later)) ∨
    getValueInt cls junk conf item.sectionPtr item.namePtr defv comment =
      .ok (0, some defv.toInt, later)

/-- The text is empty, or it fits into `strValue` and denotes an `int`. -/
def Readable (reading : List UInt8 → Int → Prop) (stored : List UInt8) : Prop :=
  stored = [] ∨
    stored.length < 128 ∧ ∃ number, reading stored number ∧ -2 ^ 31 ≤ number ∧ number < 2 ^ 31

/-- What it is for a text to denote an integer may be any part of what `sscanf` reads. -/
theorem lookupTotal_iff (reading : List UInt8 → Int → Prop)
    (begins : ∀ text number, reading text number → Begins text number)
    (cls : SectionClass Section) (junk : Nat → UInt8) (conf : ConfOpt Section) (item : ItemName)
    (stored : CText) (comment : Option (List UInt8))
    (found : lookup cls conf item.title item.key = some stored) :
    LookupTotal reading cls junk conf item stored comment ↔ Readable reading stored.bytes := by
  by_cases empty : stored.bytes = []
  · refine iff_of_true (fun defv => ⟨conf.visited item.title, Or.inr ?_⟩) (Or.inl empty)
    exact getValueInt_empty cls junk conf item defv comment stored found empty
  · by_cases short : stored.bytes.length < 128
    · rw [Readable, or_iff_right empty, and_iff_right short]
      constructor
      · intro total
        obtain ⟨later, ⟨number, read, returned⟩ | returned⟩ := total 0
        · rw [getValueInt_found cls junk conf item 0 comment stored found empty short,
            sscanfInt_of_begins (begins _ _ read)] at returned
          have same : toInt32 (max (-2 ^ 63) (min (2 ^ 63 - 1) number)) = number :=
            Option.some.inj (congrArg (fun result => result.2.1) (Except.ok.inj returned))
          refine ⟨number, read, ?_⟩
          rw [← same]
          exact toInt32_range _
        · rw [getValueInt_found cls junk conf item 0 comment stored found empty short] at returned
          exact absurd returned (returned_ne (by decide) _ _ _ _)
      · rintro ⟨number, read, low, high⟩ defv
        refine ⟨conf.visited item.title, Or.inl ⟨number, read, ?_⟩⟩
        rw [getValueInt_found cls junk conf item defv comment stored found empty short,
          sscanfInt_of_begins (begins _ _ read), min_eq_right (by omega), max_eq_right (by omega),
          toInt32_of_range number low high]
    · refine iff_of_false (fun total => ?_) ?_
      · obtain ⟨later, ⟨number, -, returned⟩ | returned⟩ := total 0
        all_goals
          rw [getValueInt_overrun cls junk conf item 0 comment stored found (by omega)] at returned
          exact nomatch returned
      · rintro (none | ⟨fits, -⟩)
        · exact empty none
        · exact short fits

/-- An integer lookup is total exactly for an empty text and for a text that fits into `strValue`
and denotes an `int`, be it as a whole or with what follows it left unread.

The result of `sscanf` is not looked at, so for a text that is no number the value is whatever the
variable held; a text of 128 bytes or more is copied behind the end of the array. -/
theorem lookup_total_iff (cls : SectionClass Section) (junk : Nat → UInt8)
    (conf : ConfOpt Section) (item : ItemName) (stored : CText) (comment : Option (List UInt8))
    (found : lookup cls conf item.title item.key = some stored) :
    (LookupTotal Begins cls junk conf item stored comment ↔ Readable Begins stored.bytes) ∧
      (LookupTotal Numeral cls junk conf item stored comment ↔ Readable Numeral stored.bytes) :=
  ⟨lookupTotal_iff Begins (fun _ _ begins => begins) cls junk conf item stored comment found,
    lookupTotal_iff Numeral (fun _ _ whole => whole.begins) cls junk conf item stored comment found⟩

/-- The text `7` is such a text. -/
theorem lookup_total_iff_seven :
    (LookupTotal Begins plainSections (fun _ => 0) (letterConf ⟨text "7", by decide⟩ 1)
        letterItem ⟨text "7", by decide⟩ none ↔ Readable Begins (text "7")) ∧
      (LookupTotal Numeral plainSections (fun _ => 0) (letterConf ⟨text "7", by decide⟩ 1)
        letterItem ⟨text "7", by decide⟩ none ↔ Readable Numeral (text "7")) :=
  lookup_total_iff plainSections (fun _ => 0) _ letterItem ⟨text "7", by decide⟩ none (by decide)

/-- For the text `abc` the lookup returns 1 and leaves `value` unassigned. -/
theorem lookup_unassigned :
    ¬ LookupTotal Begins plainSections (fun _ => 0) (letterConf ⟨text "abc", by decide⟩ 1)
      letterItem ⟨text "abc", by decide⟩ none := by
  intro total
  have found : lookup plainSections (letterConf ⟨text "abc", by decide⟩ 1) letterItem.title
      letterItem.key = some ⟨text "abc", by decide⟩ := by decide
  have returned := getValueInt_found plainSections (fun _ => 0) _ letterItem 0 none _ found
    (by decide) (by decide)
  have nothing : sscanfInt (text "abc") = none := by decide
  rw [nothing] at returned
  obtain ⟨later, ⟨number, -, one⟩ | zero⟩ := total 0
  · rw [returned] at one
    exact nomatch congrArg (fun result => result.2.1) (Except.ok.inj one)
  · rw [returned] at zero
    exact nomatch congrArg (fun result => result.2.1) (Except.ok.inj zero)

end Netmt
