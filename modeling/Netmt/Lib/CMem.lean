/-
This file models the part of the C memory and of the C string library that
programs over byte buffers use.

A pointer carries the object it points into and the bytes from the pointer to
the end of that object; reading past them is a fault that names the object.
Memory is therefore strict: what lies behind an object is never read, and a
program whose run faults has undefined behaviour from there on. A C string at a
pointer is the bytes before the first NUL of its object, if there is one.

The string functions are specified by that reading: each of them depends on the
bytes up to the first NUL alone, and faults when there is none to stop it.
-/
import Mathlib.Algebra.Ring.Int.Defs
import Mathlib.Algebra.Ring.Nat
import Mathlib.Data.List.Infix
import Mathlib.Data.List.TakeDrop

namespace CMem

/-! ### Faults and computations that may fault -/

/-- The ways in which a run can end before it returns: the undefined behaviours it can meet, and
the end of the process. Objects are named by the program's own type. -/
inductive Fault (Object : Type) where
  /-- A read or a write past the end of an object. -/
  | outOfBounds (object : Object)
  /-- An access to an object that is not allocated (any more). -/
  | dangling (object : Object)
  /-- An access through the null pointer. -/
  | null
  /-- A loop over a linked structure that never comes back to its start. -/
  | endless
  /-- A sum that its signed type cannot hold. -/
  | overflow
  /-- The process ends itself, as it does when the allocator refuses a block. -/
  | exits
  deriving DecidableEq, Repr

/-- A computation that returns a value or meets a fault. -/
abbrev Exec (Object Value : Type) := Except (Fault Object) Value

variable {Object Value Result : Type}

@[simp] theorem ok_bind (value : Value) (next : Value → Exec Object Result) :
    ((Except.ok value : Exec Object Value) >>= next) = next value := rfl

@[simp] theorem error_bind (fault : Fault Object) (next : Value → Exec Object Result) :
    ((Except.error fault : Exec Object Value) >>= next) = Except.error fault := rfl

@[simp] theorem pure_eq_ok (value : Value) : (pure value : Exec Object Value) = .ok value := rfl

@[simp] theorem map_ok (value : Value) (function : Value → Result) :
    (function <$> (Except.ok value : Exec Object Value)) = .ok (function value) := rfl

@[simp] theorem map_error (fault : Fault Object) (function : Value → Result) :
    (function <$> (Except.error fault : Exec Object Value)) = .error fault := rfl

/-- The fault of a part of the program that names its own objects. -/
def Fault.map {Other : Type} (embed : Object → Other) : Fault Object → Fault Other
  | .outOfBounds object => .outOfBounds (embed object)
  | .dangling object => .dangling (embed object)
  | .null => .null
  | .endless => .endless
  | .overflow => .overflow
  | .exits => .exits

/-- A run of a part of the program that names its own objects. -/
def Exec.embed {Other : Type} (embed : Object → Other) : Exec Object Value → Exec Other Value
  | .ok value => .ok value
  | .error fault => .error (fault.map embed)

/-- A sequence succeeds exactly when its first part does and the rest does on its value. -/
theorem bind_eq_ok_iff (first : Exec Object Value) (next : Value → Exec Object Result)
    (result : Result) :
    (first >>= next) = .ok result ↔ ∃ value, first = .ok value ∧ next value = .ok result := by
  cases first with
  | ok value => simp
  | error fault => simp

/-- The run does not read or write past the end of a given object. -/
def WithinBounds (object : Object) (run : Exec Object Value) : Prop :=
  run ≠ .error (.outOfBounds object)

theorem WithinBounds.ok {object : Object} (value : Value) :
    WithinBounds object (.ok value : Exec Object Value) := nofun

theorem WithinBounds.bind {object : Object} {first : Exec Object Value}
    {next : Value → Exec Object Result} (start : WithinBounds object first)
    (rest : ∀ value, WithinBounds object (next value)) : WithinBounds object (first >>= next) := by
  cases first with
  | ok value => exact rest value
  | error fault => exact fun overrun => start (congrArg Except.error (Except.error.inj overrun))

theorem WithinBounds.map {object : Object} {first : Exec Object Value}
    (start : WithinBounds object first) (function : Value → Result) :
    WithinBounds object (function <$> first) := by
  cases first with
  | ok value => exact .ok (function value)
  | error fault => exact fun overrun => start (congrArg Except.error (Except.error.inj overrun))

/-- A check that guards against an overrun, as a condition. -/
theorem withinBounds_ite_iff {overrun : Prop} [Decidable overrun] (object : Object)
    {run : Exec Object Value} (inside : WithinBounds object run) :
    WithinBounds object (if overrun then .error (.outOfBounds object) else run) ↔ ¬ overrun := by
  by_cases past : overrun
  · rw [if_pos past]
    exact ⟨fun within => absurd rfl within, fun not => absurd past not⟩
  · rw [if_neg past]
    exact ⟨fun _ => past, fun _ => inside⟩

/-! ### Pointers -/

/-- A `char *`: the object it points into, and the bytes from it to the object's end. -/
structure Ptr (Object : Type) where
  object : Object
  bytes : List UInt8
  deriving DecidableEq, Repr

/-- `pointer + offset`. -/
def Ptr.add (pointer : Ptr Object) (offset : Nat) : Ptr Object :=
  { pointer with bytes := pointer.bytes.drop offset }

@[simp] theorem Ptr.add_object (pointer : Ptr Object) (offset : Nat) :
    (pointer.add offset).object = pointer.object := rfl

@[simp] theorem Ptr.add_bytes (pointer : Ptr Object) (offset : Nat) :
    (pointer.add offset).bytes = pointer.bytes.drop offset := rfl

/-- `pointer == other`: whether both point to the same byte, whatever is there. -/
def Ptr.same [DecidableEq Object] (pointer other : Ptr Object) : Bool :=
  pointer.object = other.object ∧ pointer.bytes.length = other.bytes.length

theorem Ptr.same_of_ne [DecidableEq Object] {pointer other : Ptr Object}
    (apart : pointer.object ≠ other.object) : pointer.same other = false :=
  decide_eq_false fun same => apart same.1

/-- `pointer[index]`. -/
def load (pointer : Ptr Object) (index : Nat) : Exec Object UInt8 :=
  match pointer.bytes[index]? with
  | some byte => .ok byte
  | none => .error (.outOfBounds pointer.object)

/-- `pointer[index] = byte`. -/
def store (pointer : Ptr Object) (index : Nat) (byte : UInt8) : Exec Object (Ptr Object) :=
  if index < pointer.bytes.length then
    .ok { pointer with bytes := pointer.bytes.set index byte }
  else
    .error (.outOfBounds pointer.object)

theorem load_of_lt (pointer : Ptr Object) (index : Nat) (inside : index < pointer.bytes.length) :
    load pointer index = .ok pointer.bytes[index] := by
  rw [load, List.getElem?_eq_getElem inside]

theorem store_of_lt (pointer : Ptr Object) (index : Nat) (byte : UInt8)
    (inside : index < pointer.bytes.length) :
    store pointer index byte = .ok { pointer with bytes := pointer.bytes.set index byte } :=
  if_pos inside

theorem store_of_ge (pointer : Ptr Object) (index : Nat) (byte : UInt8)
    (outside : pointer.bytes.length ≤ index) :
    store pointer index byte = .error (.outOfBounds pointer.object) :=
  if_neg (by omega)

/-- A block fresh from `malloc`: its bytes are whatever `junk` says they are. -/
def malloc (object : Object) (junk : Nat → UInt8) (size : Nat) : Ptr Object :=
  { object, bytes := (List.range size).map junk }

@[simp] theorem malloc_object (object : Object) (junk : Nat → UInt8) (size : Nat) :
    (malloc object junk size).object = object := rfl

@[simp] theorem malloc_length (object : Object) (junk : Nat → UInt8) (size : Nat) :
    (malloc object junk size).bytes.length = size := by
  simp [malloc]

/-- `malloc` of a size computed as an `int`. A negative one converts to a `size_t` that no
allocator serves; the run faults at the block's first use, which is through `NULL`. -/
def mallocInt (object : Object) (junk : Nat → UInt8) (size : Int) : Exec Object (Ptr Object) :=
  if size < 0 then .error .null else .ok (malloc object junk size.toNat)

theorem mallocInt_natCast (object : Object) (junk : Nat → UInt8) (size : Nat) :
    mallocInt object junk size = .ok (malloc object junk size) := by
  rw [mallocInt, if_neg (by omega), Int.toNat_natCast]

/-- `memcpy(target, source, count)`. A negative `count` converts to a `size_t` larger than
any object, so it faults on the first object it would overrun. -/
def memcpy (target source : Ptr Object) (count : Int) : Exec Object (Ptr Object) :=
  if count < 0 ∨ source.bytes.length < count then
    .error (.outOfBounds source.object)
  else if target.bytes.length < count then
    .error (.outOfBounds target.object)
  else
    .ok { target with
      bytes := source.bytes.take count.toNat ++ target.bytes.drop count.toNat }

theorem memcpy_of_le (target source : Ptr Object) (count : Nat)
    (readable : count ≤ source.bytes.length) (writable : count ≤ target.bytes.length) :
    memcpy target source count =
      .ok { target with bytes := source.bytes.take count ++ target.bytes.drop count } := by
  rw [memcpy, if_neg (by omega), if_neg (by omega), Int.toNat_natCast]

/-- A fresh block filled from the front keeps the junk behind. -/
theorem mallocInt_memcpy (object : Object) (junk : Nat → UInt8) (source : Ptr Object)
    (size count : Nat) (fits : count ≤ size) (readable : count ≤ source.bytes.length) :
    (mallocInt object junk size >>= fun item => memcpy item source count) =
      .ok ⟨object, source.bytes.take count ++ ((List.range size).map junk).drop count⟩ := by
  rw [mallocInt_natCast, ok_bind, memcpy_of_le _ _ _ readable (by rw [malloc_length]; exact fits)]
  rfl

/-- `free(block)`: the blocks that stay allocated. Freeing a block twice is a fault. -/
def free [DecidableEq Object] (block : Object) (allocated : List Object) :
    Exec Object (List Object) :=
  if block ∈ allocated then .ok (allocated.erase block) else .error (.dangling block)

theorem free_append_cons [DecidableEq Object] (block : Object) (front back : List Object)
    (fresh : block ∉ front) : free block (front ++ block :: back) = .ok (front ++ back) := by
  rw [free, if_pos (by simp), List.erase_append_right _ fresh, List.erase_cons_head]

/-- The value an `int` holds after an assignment. -/
def toInt32 (value : Int) : Int := value.bmod (2 ^ 32)

theorem toInt32_range (value : Int) : -2 ^ 31 ≤ toInt32 value ∧ toInt32 value < 2 ^ 31 := by
  have low : -((2 ^ 32 : Nat) / 2 : Int) ≤ toInt32 value := Int.le_bmod (by decide)
  have high : toInt32 value < ((2 ^ 32 : Nat) + 1) / 2 := Int.bmod_lt (by decide)
  omega

theorem toInt32_of_range (value : Int) (low : -2 ^ 31 ≤ value) (high : value < 2 ^ 31) :
    toInt32 value = value :=
  Int.bmod_eq_of_le (by omega) (by omega)

theorem toInt32_le (value : Int) (positive : 0 ≤ value) : toInt32 value ≤ value := by
  rw [toInt32, Int.bmod_eq_emod]
  split <;> omega

/-! ### C strings -/

/-- The C string a stretch of memory starts with: its bytes before the first NUL. -/
def cString : List UInt8 → Option (List UInt8)
  | [] => none
  | byte :: rest => if byte = 0 then some [] else (cString rest).map (byte :: ·)

theorem cString_append_nul (text tail : List UInt8) (clean : 0 ∉ text) :
    cString (text ++ 0 :: tail) = some text := by
  induction text with
  | nil => rfl
  | cons byte rest inductionHypothesis =>
    rw [List.mem_cons, not_or] at clean
    rw [List.cons_append, cString, if_neg (Ne.symm clean.1), inductionHypothesis clean.2]
    rfl

/-- Whatever stands before a NUL, the string there ends at the first one. -/
theorem cString_append_stop (bytes tail : List UInt8) :
    cString (bytes ++ 0 :: tail) = some (bytes.takeWhile (· ≠ 0)) := by
  induction bytes with
  | nil => rfl
  | cons byte rest inductionHypothesis =>
    by_cases nul : byte = 0
    · simp [cString, nul]
    · rw [List.cons_append, cString, if_neg nul, inductionHypothesis, Option.map_some,
        List.takeWhile_cons_of_pos (by simp [nul])]

theorem cString_eq_none_iff (bytes : List UInt8) : cString bytes = none ↔ 0 ∉ bytes := by
  induction bytes with
  | nil => simp [cString]
  | cons byte rest inductionHypothesis =>
    by_cases nul : byte = 0
    · simp [cString, nul]
    · rw [cString, if_neg nul, Option.map_eq_none_iff, inductionHypothesis, List.mem_cons, not_or]
      exact ⟨fun rest => ⟨Ne.symm nul, rest⟩, And.right⟩

theorem cString_eq_some_iff (bytes text : List UInt8) :
    cString bytes = some text ↔ 0 ∉ text ∧ ∃ tail, bytes = text ++ 0 :: tail := by
  constructor
  · induction bytes generalizing text with
    | nil => simp [cString]
    | cons byte rest inductionHypothesis =>
      intro found
      by_cases nul : byte = 0
      · rw [cString, if_pos nul, Option.some_inj] at found
        subst found nul
        exact ⟨List.not_mem_nil, rest, rfl⟩
      · rw [cString, if_neg nul, Option.map_eq_some_iff] at found
        obtain ⟨inner, innerFound, rfl⟩ := found
        obtain ⟨clean, tail, rfl⟩ := inductionHypothesis inner innerFound
        exact ⟨by simp [clean, Ne.symm nul], tail, rfl⟩
  · rintro ⟨clean, tail, rfl⟩
    exact cString_append_nul text tail clean

/-- A zeroed block filled from the front reads as what it was filled with exactly when that has no
NUL and leaves room. -/
theorem cString_zeroed_iff (text : List UInt8) (room : Nat) :
    cString (text ++ List.replicate room 0) = some text ↔ 0 ∉ text ∧ 0 < room := by
  rw [cString_eq_some_iff]
  refine and_congr_right fun _ => ⟨?_, fun positive => ⟨List.replicate (room - 1) 0, ?_⟩⟩
  · rintro ⟨tail, same⟩
    have length := congrArg List.length same
    simp only [List.length_append, List.length_replicate, List.length_cons] at length
    omega
  · rw [← List.replicate_succ, Nat.sub_add_cancel positive]

theorem length_le_of_cString_zeroed {text line : List UInt8} {room : Nat}
    (found : cString (text ++ List.replicate room 0) = some line) :
    line.length ≤ text.length := by
  obtain ⟨clean, tail, same⟩ := (cString_eq_some_iff _ _).mp found
  rcases List.append_eq_append_iff.mp same with ⟨more, rfl, zeros⟩ | ⟨more, rfl, -⟩
  · cases more with
    | nil => simp
    | cons byte others =>
      have member : byte ∈ List.replicate room 0 := by simp [zeros]
      exact absurd (by simp [List.eq_of_mem_replicate member]) clean
  · simp

/-- `strlen(pointer)`. -/
def strlen (pointer : Ptr Object) : Exec Object Nat :=
  match cString pointer.bytes with
  | some text => .ok text.length
  | none => .error (.outOfBounds pointer.object)

theorem strlen_append_nul (object : Object) (text tail : List UInt8) (clean : 0 ∉ text) :
    strlen ⟨object, text ++ 0 :: tail⟩ = .ok text.length := by
  rw [strlen, cString_append_nul text tail clean]

theorem strlen_unterminated (object : Object) (bytes : List UInt8) (clean : 0 ∉ bytes) :
    strlen ⟨object, bytes⟩ = .error (.outOfBounds object) := by
  rw [strlen, (cString_eq_none_iff bytes).mpr clean]

/-- `strncmp(left, right, count) == 0`, comparing byte by byte as the library does. -/
def strncmpLoop (left right : Object) : Nat → List UInt8 → List UInt8 → Exec Object Bool
  | 0, _, _ => .ok true
  | _ + 1, [], _ => .error (.outOfBounds left)
  | _ + 1, _ :: _, [] => .error (.outOfBounds right)
  | count + 1, first :: rest, other :: others =>
    if first ≠ other then .ok false
    else if first = 0 then .ok true
    else strncmpLoop left right count rest others

/-- `strncmp(left, right, count) == 0`. -/
def strncmpEq (left right : Ptr Object) (count : Nat) : Exec Object Bool :=
  strncmpLoop left.object right.object count left.bytes right.bytes

/-- A word without the byte that ends a text is a prefix of the memory there exactly when it is
one of the text. -/
theorem prefix_append_stop_iff (word text tail : List UInt8) (stop : UInt8)
    (clean : stop ∉ word) : word <+: text ++ stop :: tail ↔ word <+: text := by
  constructor
  · intro found
    rcases List.prefix_or_prefix_of_prefix found (List.prefix_append text (stop :: tail)) with
      short | ⟨rest, rfl⟩
    · exact short
    · rw [List.prefix_append_right_inj] at found
      cases rest with
      | nil => simp
      | cons byte others =>
        rw [List.cons_prefix_cons] at found
        exact absurd (by simp [found.1]) clean
  · exact fun found => found.trans (List.prefix_append text (stop :: tail))

theorem strncmpLoop_word (left right : Object) (word tail bytes : List UInt8)
    (clean : 0 ∉ word) :
    strncmpLoop left right word.length bytes (word ++ 0 :: tail) =
      if word <+: bytes then .ok true
      else if bytes <+: word then .error (.outOfBounds left)
      else .ok false := by
  induction word generalizing bytes with
  | nil => simp [strncmpLoop]
  | cons byte rest inductionHypothesis =>
    rw [List.mem_cons, not_or] at clean
    cases bytes with
    | nil => simp [strncmpLoop]
    | cons first others =>
      by_cases same : first = byte
      · subst same
        simp only [List.length_cons, List.cons_append, strncmpLoop, ne_eq, not_true_eq_false,
          if_false, if_neg (Ne.symm clean.1), List.cons_prefix_cons, true_and]
        exact inductionHypothesis others clean.2
      · simp [strncmpLoop, List.cons_prefix_cons, same, Ne.symm same]

/-- Comparing against the whole of a word asks whether the memory starts with it; the
comparison runs off the left object exactly when that ends inside the word. -/
theorem strncmpEq_word (left right : Ptr Object) (word tail : List UInt8) (clean : 0 ∉ word)
    (holds : right.bytes = word ++ 0 :: tail) :
    strncmpEq left right word.length =
      if word <+: left.bytes then .ok true
      else if left.bytes <+: word then .error (.outOfBounds left.object)
      else .ok false := by
  rw [strncmpEq, holds, strncmpLoop_word left.object right.object word tail left.bytes clean]

/-- On a C string the comparison never leaves the object. -/
theorem strncmpEq_word_of_nul (left right : Ptr Object) (word tail : List UInt8) (clean : 0 ∉ word)
    (holds : right.bytes = word ++ 0 :: tail) (text rest : List UInt8)
    (leftHolds : left.bytes = text ++ 0 :: rest) :
    strncmpEq left right word.length = .ok (decide (word <+: text)) := by
  have inside : ¬ left.bytes <+: word := by
    intro shorter
    refine clean (shorter.subset ?_)
    simp [leftHolds]
  have same : word <+: left.bytes ↔ word <+: text := by
    rw [leftHolds, prefix_append_stop_iff word text rest 0 clean]
  rw [strncmpEq_word left right word tail clean holds, if_neg inside]
  by_cases found : word <+: text
  · rw [if_pos (same.mpr found), decide_eq_true found]
  · rw [if_neg (mt same.mp found), decide_eq_false found]

/-! ### Copying strings -/

/-- A string of C: bytes without a NUL. -/
structure CText where
  bytes : List UInt8
  noNUL : 0 ∉ bytes
  deriving DecidableEq

/-- The string an array holds, for a reader that goes on to its terminator. -/
def stringAt (array : Ptr Object) : Exec Object (List UInt8) :=
  match cString array.bytes with
  | some text => .ok text
  | none => .error (.outOfBounds array.object)

theorem stringAt_append_nul (object : Object) (text tail : List UInt8) (clean : 0 ∉ text) :
    stringAt ⟨object, text ++ 0 :: tail⟩ = .ok text := by
  rw [stringAt, cString_append_nul text tail clean]

theorem stringAt_unterminated (object : Object) (bytes : List UInt8) (clean : 0 ∉ bytes) :
    stringAt ⟨object, bytes⟩ = .error (.outOfBounds object) := by
  rw [stringAt, (cString_eq_none_iff bytes).mpr clean]

/-- A string and its terminator, written into an array from an offset on. -/
def writeString (target : Ptr Object) (offset : Nat) (source : List UInt8) :
    Exec Object (Ptr Object) :=
  if offset + source.length < target.bytes.length then
    .ok { target with bytes := target.bytes.take offset ++ (source ++
      0 :: target.bytes.drop (offset + source.length + 1)) }
  else .error (.outOfBounds target.object)

/-- What is written behind a stretch of the array leaves that stretch as it is. -/
theorem writeString_append (object : Object) (front tail source : List UInt8)
    (fits : source.length < tail.length) :
    writeString ⟨object, front ++ tail⟩ front.length source =
      .ok ⟨object, front ++ (source ++ 0 :: tail.drop (source.length + 1))⟩ := by
  rw [writeString, if_pos (by rw [List.length_append]; omega), List.take_left, Nat.add_assoc,
    List.drop_length_add_append]

/-- `strcpy(target, source)`. -/
def strcpy (target : Ptr Object) (source : List UInt8) : Exec Object (Ptr Object) :=
  writeString target 0 source

theorem strcpy_of_lt (target : Ptr Object) (source : List UInt8)
    (fits : source.length < target.bytes.length) :
    strcpy target source =
      .ok { target with bytes := source ++ 0 :: target.bytes.drop (source.length + 1) } :=
  writeString_append target.object [] target.bytes source fits

theorem strcpy_of_ge (target : Ptr Object) (source : List UInt8)
    (long : target.bytes.length ≤ source.length) :
    strcpy target source = .error (.outOfBounds target.object) :=
  if_neg (by omega)

/-- `strcat(target, source)`. -/
def strcat (target : Ptr Object) (source : List UInt8) : Exec Object (Ptr Object) := do
  let length ← strlen target
  writeString target length source

theorem strcat_append_nul (object : Object) (text tail source : List UInt8) (clean : 0 ∉ text)
    (fits : source.length ≤ tail.length) :
    strcat ⟨object, text ++ 0 :: tail⟩ source =
      .ok ⟨object, text ++ source ++ 0 :: tail.drop source.length⟩ := by
  rw [strcat, strlen_append_nul object text tail clean, ok_bind,
    writeString_append object text (0 :: tail) source (by rw [List.length_cons]; omega),
    List.drop_succ_cons, List.append_assoc]

/-- `strncpy(target, source, count)`, which fills up with NULs and leaves out the terminator of a
long source. -/
def strncpy (target : Ptr Object) (source : List UInt8) (count : Nat) : Exec Object (Ptr Object) :=
  if count ≤ target.bytes.length then
    .ok { target with bytes := source.take count ++
      (List.replicate (count - source.length) 0 ++ target.bytes.drop count) }
  else .error (.outOfBounds target.object)

/-- `memset(target, byte, count)`. -/
def memset (target : Ptr Object) (byte : UInt8) (count : Nat) : Exec Object (Ptr Object) :=
  if count ≤ target.bytes.length then
    .ok { target with bytes := List.replicate count byte ++ target.bytes.drop count }
  else .error (.outOfBounds target.object)

/-! ### Fixed arrays of characters -/

/-- A `char name[size]` that a string was copied into: the bytes before the first NUL. When they
take up the whole array there is no NUL. -/
structure CharArray (size : Nat) where
  bytes : List UInt8
  fits : bytes.length ≤ size
  deriving DecidableEq, Repr

/-- `strncpy(array, source, size)`, which leaves out the terminator of a long source. -/
def CharArray.strncpy (size : Nat) (source : List UInt8) : CharArray size where
  bytes := source.take size
  fits := by
    rw [List.length_take]
    exact Nat.min_le_left _ _

/-- The string in the array, for a reader that goes on to its terminator. -/
def CharArray.string {size : Nat} (array : CharArray size) (object : Object) :
    Exec Object (List UInt8) :=
  if array.bytes.length < size then .ok array.bytes else .error (.outOfBounds object)

/-- A copy can be read back exactly when the source left room for the terminator. -/
theorem CharArray.string_strncpy (size : Nat) (source : List UInt8) (object : Object) :
    (CharArray.strncpy size source).string object =
      if source.length < size then .ok source else .error (.outOfBounds object) := by
  have length : (CharArray.strncpy size source).bytes.length = min size source.length :=
    List.length_take
  unfold CharArray.string
  by_cases short : source.length < size
  · have whole : (CharArray.strncpy size source).bytes = source := List.take_of_length_le short.le
    rw [if_pos (by omega), if_pos short, whole]
  · rw [if_neg (by omega), if_neg short]

end CMem
