/-
This file models `Format`, which `CConfOpt` puts section and item names through
before it looks them up.

It skips the blanks in front, copies the rest with the first blank of each run of
blanks, and then steps back over a blank at the end. It has no notion of the size
of its result, and on a string of blanks only it steps back over what is not
there.
-/
import Netmt.Lib.Words
import Netmt.Text

namespace Netmt

open CMem Words

/-! ### The function -/

variable {Object : Type}

/-- `IS_DELIMITER`. -/
def isDelimiter (byte : UInt8) : Bool := byte = 32 ∨ byte = 9 ∨ byte = 10 ∨ byte = 13

/-- `IS_STR_VALID`: the pointer is not `NULL` and the string not empty. -/
def isStrValid : Option (Ptr Object) → Exec Object Bool
  | none => .ok false
  | some string => do
    let first ← load string 0
    .ok (first ≠ 0)

/-- The copying loop: `flag` is `nFlag`, `written` is how far `result` has moved, and the bytes are
those from `p` on. -/
def formatCopy (string : Object) (flag : Bool) (result : Ptr Object) (written : Nat) :
    List UInt8 → Exec Object (Ptr Object × Nat)
  | [] => .error (.outOfBounds string)
  | byte :: rest =>
    if byte = 0 then .ok (result, written)
    else if isDelimiter byte && flag then formatCopy string flag result written rest
    else do
      let result ← store result written byte
      formatCopy string (isDelimiter byte) result (written + 1) rest

/-- The loop that steps back: `while (IS_DELIMITER(*(result - 1))) result--`. -/
def formatTrim (result : Ptr Object) : Nat → Exec Object Nat
  | 0 => .error (.outOfBounds result.object)
  | written + 1 => do
    let last ← load result written
    if isDelimiter last then formatTrim result written else .ok (written + 1)

/-- `Format`: the bytes of `result` after it. -/
def format (string : Option (Ptr Object)) (result : Ptr Object) : Exec Object (Ptr Object) :=
  match string with
  | none => .ok result
  | some string => do
    let valid ← isStrValid (some string)
    if valid then do
      let (result, written) ← formatCopy string.object false result 0
        (string.bytes.dropWhile (isDelimiter ·))
      let written ← formatTrim result written
      store result written 0
    else .ok result

/-! ### What it writes -/

/-- The loop copies the squeezed text, if there is room for it. -/
theorem formatCopy_eq (string object : Object) (flag : Bool) (written free text tail : List UInt8)
    (clean : 0 ∉ text) :
    formatCopy string flag ⟨object, written ++ free⟩ written.length (text ++ 0 :: tail) =
      if (squeeze isDelimiter flag text).length ≤ free.length then
        .ok (⟨object, written ++ squeeze isDelimiter flag text ++
            free.drop (squeeze isDelimiter flag text).length⟩,
          written.length + (squeeze isDelimiter flag text).length)
      else .error (.outOfBounds object) := by
  induction text generalizing flag written free with
  | nil => simp [formatCopy, squeeze]
  | cons byte rest inductionHypothesis =>
    rw [List.mem_cons, not_or] at clean
    rw [List.cons_append, formatCopy, if_neg (Ne.symm clean.1), squeeze]
    by_cases skipped : (isDelimiter byte && flag) = true
    · rw [if_pos skipped, if_pos skipped]
      exact inductionHypothesis flag written free clean.2
    · rw [if_neg skipped, if_neg skipped]
      cases free with
      | nil =>
        rw [store_of_ge _ _ _ (by simp), error_bind, if_neg (by simp)]
      | cons first others =>
        have next := inductionHypothesis (isDelimiter byte) (written ++ [byte]) others clean.2
        rw [List.length_append, List.length_singleton, List.append_assoc, List.singleton_append]
          at next
        rw [store_of_lt _ _ _ (by simp), ok_bind]
        simp only [List.set_append_right _ _ (Nat.le_refl _), Nat.sub_self, List.set_cons_zero]
        rw [next]
        simp only [List.length_cons, Nat.add_le_add_iff_right, List.append_assoc,
          List.cons_append, List.nil_append, List.drop_succ_cons, Nat.add_assoc, Nat.add_comm 1]

/-- Stepping back finds the last byte that is not blank, if there is one. -/
theorem formatTrim_eq (object : Object) (written free : List UInt8) :
    formatTrim ⟨object, written ++ free⟩ written.length =
      if written.rdropWhile (isDelimiter ·) = [] then .error (.outOfBounds object)
      else .ok (written.rdropWhile (isDelimiter ·)).length := by
  induction written using List.reverseRecOn generalizing free with
  | nil => rfl
  | append_singleton front last inductionHypothesis =>
    have inside : front.length < (front ++ [last] ++ free).length := by simp
    rw [List.length_append, List.length_singleton, formatTrim, load_of_lt _ _ inside, ok_bind]
    simp only [List.append_assoc, List.singleton_append, List.getElem_append_right (Nat.le_refl _),
      Nat.sub_self, List.getElem_cons_zero]
    by_cases skipped : isDelimiter last = true
    · rw [if_pos skipped, List.rdropWhile_concat_pos _ _ _ skipped]
      exact inductionHypothesis (last :: free)
    · rw [if_neg skipped, List.rdropWhile_concat_neg _ _ _ skipped, if_neg (by simp),
        List.length_append, List.length_singleton]

theorem formatTrim_squeezed (object : Object) (text free : List UInt8) :
    formatTrim ⟨object, squeeze isDelimiter false (text.dropWhile (isDelimiter ·)) ++ free⟩
        (squeeze isDelimiter false (text.dropWhile (isDelimiter ·))).length =
      if tidied isDelimiter text = [] then .error (.outOfBounds object)
      else .ok (tidied isDelimiter text).length :=
  formatTrim_eq object _ free

theorem dropWhile_append_nul (text tail : List UInt8) :
    (text ++ 0 :: tail).dropWhile (isDelimiter ·) =
      text.dropWhile (isDelimiter ·) ++ 0 :: tail := by
  induction text with
  | nil => exact List.dropWhile_cons_of_neg (by decide)
  | cons byte rest inductionHypothesis =>
    by_cases skipped : isDelimiter byte = true
    · rw [List.cons_append, List.dropWhile_cons_of_pos skipped,
        List.dropWhile_cons_of_pos skipped, inductionHypothesis]
    · rw [List.cons_append, List.dropWhile_cons_of_neg skipped,
        List.dropWhile_cons_of_neg skipped, List.cons_append]

theorem isStrValid_text (string : Object) (text tail : List UInt8) (clean : 0 ∉ text)
    (nonempty : text ≠ []) : isStrValid (some ⟨string, text ++ 0 :: tail⟩) = .ok true := by
  cases text with
  | nil => exact absurd rfl nonempty
  | cons first rest =>
    rw [List.mem_cons, not_or] at clean
    rw [isStrValid, load_of_lt _ _ (by simp), ok_bind]
    simpa using Ne.symm clean.1

/-- `Format` up to the step back. -/
theorem format_copied (string object : Object) (text tail buffer : List UInt8) (clean : 0 ∉ text)
    (nonempty : text ≠ []) :
    format (some ⟨string, text ++ 0 :: tail⟩) ⟨object, buffer⟩ = (do
      let squeezed := squeeze isDelimiter false (text.dropWhile (isDelimiter ·))
      if squeezed.length ≤ buffer.length then do
        let result : Ptr Object := ⟨object, squeezed ++ buffer.drop squeezed.length⟩
        let written ← formatTrim result squeezed.length
        store result written 0
      else .error (.outOfBounds object)) := by
  have noNUL : 0 ∉ text.dropWhile (isDelimiter ·) :=
    fun nul => clean ((List.dropWhile_sublist _).subset nul)
  have copied := formatCopy_eq string object false [] buffer _ tail noNUL
  rw [List.nil_append, List.length_nil, List.nil_append, Nat.zero_add] at copied
  rw [format]
  simp only []
  rw [isStrValid_text string text tail clean nonempty, ok_bind, if_pos rfl, dropWhile_append_nul,
    copied]
  by_cases room : (squeeze isDelimiter false (text.dropWhile (isDelimiter ·))).length ≤
      buffer.length
  · rw [if_pos room, if_pos room]
    rfl
  · rw [if_neg room, if_neg room]
    rfl

theorem nonempty_of_tidied {text : List UInt8} (word : tidied isDelimiter text ≠ []) :
    text ≠ [] := by
  rintro rfl
  exact word rfl

theorem tidied_ne_nil_iff {text : List UInt8} :
    tidied isDelimiter text ≠ [] ↔ ∃ byte ∈ text, isDelimiter byte = false := by
  rw [ne_eq, tidied_eq_nil_iff]
  push Not
  simp only [Bool.not_eq_true]

/-- With a word in the text and room for the tidied text, `Format` writes that and a NUL. -/
theorem format_of_room (string object : Object) (text tail buffer : List UInt8) (clean : 0 ∉ text)
    (word : tidied isDelimiter text ≠ [])
    (room : (tidied isDelimiter text).length < buffer.length) :
    ∃ rest, format (some ⟨string, text ++ 0 :: tail⟩) ⟨object, buffer⟩ =
        .ok ⟨object, tidied isDelimiter text ++ 0 :: rest⟩ ∧
      (tidied isDelimiter text ++ 0 :: rest).length = buffer.length := by
  have shorter := length_squeeze_le isDelimiter text
  rw [format_copied string object text tail buffer clean (nonempty_of_tidied word),
    if_pos (by omega)]
  simp only []
  rw [formatTrim_squeezed, if_neg word, ok_bind]
  obtain ⟨blanks, whole⟩ :
      tidied isDelimiter text <+: squeeze isDelimiter false (text.dropWhile (isDelimiter ·)) :=
    List.rdropWhile_prefix _ _
  have length : (squeeze isDelimiter false (text.dropWhile (isDelimiter ·)) ++
      buffer.drop (squeeze isDelimiter false (text.dropWhile (isDelimiter ·))).length).length =
        buffer.length := by
    rw [List.length_append, List.length_drop]
    omega
  generalize buffer.drop (squeeze isDelimiter false (text.dropWhile (isDelimiter ·))).length = free
    at length
  rw [← whole, List.append_assoc] at length ⊢
  have inside : (tidied isDelimiter text).length <
      (tidied isDelimiter text ++ (blanks ++ free)).length := by
    rw [length]
    exact room
  rw [store_of_lt _ _ _ inside, List.set_append_right _ _ (Nat.le_refl _), Nat.sub_self]
  cases behind : blanks ++ free with
  | nil =>
    rw [behind, List.append_nil] at inside
    exact absurd inside (Nat.lt_irrefl _)
  | cons first rest =>
    refine ⟨rest, rfl, ?_⟩
    rw [← length, behind, List.length_append, List.length_append, List.length_cons,
      List.length_cons]

/-- Otherwise it goes out of bounds of its result. -/
theorem format_overrun (string object : Object) (text tail buffer : List UInt8) (clean : 0 ∉ text)
    (nonempty : text ≠ [])
    (short : tidied isDelimiter text = [] ∨ buffer.length ≤ (tidied isDelimiter text).length) :
    format (some ⟨string, text ++ 0 :: tail⟩) ⟨object, buffer⟩ =
      .error (.outOfBounds object) := by
  rw [format_copied string object text tail buffer clean nonempty]
  by_cases room : (squeeze isDelimiter false (text.dropWhile (isDelimiter ·))).length ≤
      buffer.length
  · rw [if_pos room]
    simp only []
    rw [formatTrim_squeezed]
    by_cases none : tidied isDelimiter text = []
    · rw [if_pos none, error_bind]
    · rw [if_neg none, ok_bind, store_of_ge]
      rw [List.length_append, List.length_drop]
      have full := short.resolve_left none
      omega
  · rw [if_neg room]

/-! ### Blanks -/

/-- `Format` keeps the words of a text and leaves one blank between each two, and it leaves its own
results alone.

The text has a word, and the array has room for the tidied text and its terminator; `Format` is
not told how long the array is. -/
theorem format_normalises (string object : Object) (text tail buffer : List UInt8)
    (clean : 0 ∉ text) (word : ∃ byte ∈ text, isDelimiter byte = false)
    (room : (tidied isDelimiter text).length < buffer.length) :
    ∃ result rest, format (some ⟨string, text ++ 0 :: tail⟩) ⟨object, buffer⟩ =
        .ok ⟨object, result ++ 0 :: rest⟩ ∧
      0 ∉ result ∧ words isDelimiter result = words isDelimiter text ∧ Tidy isDelimiter result ∧
      result.length ≤ text.length ∧
      ∀ other free, result.length < free.length → ∃ behind,
        format (some ⟨string, result ++ 0 :: other⟩) ⟨object, free⟩ =
          .ok ⟨object, result ++ 0 :: behind⟩ := by
  have some := tidied_ne_nil_iff.mpr word
  have sublist := tidied_sublist isDelimiter text
  have tidy := tidied_tidy isDelimiter text
  have again : tidied isDelimiter (tidied isDelimiter text) = tidied isDelimiter text :=
    tidy.tidied_eq
  obtain ⟨rest, writes, -⟩ := format_of_room string object text tail buffer clean some room
  refine ⟨tidied isDelimiter text, rest, writes, fun nul => clean (sublist.subset nul),
    words_tidied isDelimiter text, tidy, sublist.length_le, fun other free fits => ?_⟩
  have second := format_of_room string object (tidied isDelimiter text) other free
    (fun nul => clean (sublist.subset nul)) (by rw [again]; exact some) (by rw [again]; exact fits)
  rw [again] at second
  obtain ⟨behind, kept, -⟩ := second
  exact ⟨behind, kept⟩

theorem format_normalises_two_words :
    ∃ result rest, format (some ⟨false, text " two \t words\n" ++ [0]⟩)
        ⟨true, List.replicate 16 0⟩ = .ok ⟨true, result ++ 0 :: rest⟩ ∧
      0 ∉ result ∧ words isDelimiter result = words isDelimiter (text " two \t words\n") ∧
      Tidy isDelimiter result ∧ result.length ≤ (text " two \t words\n").length ∧
      ∀ other free, result.length < free.length → ∃ behind,
        format (some ⟨false, result ++ 0 :: other⟩) ⟨true, free⟩ =
          .ok ⟨true, result ++ 0 :: behind⟩ :=
  format_normalises false true (text " two \t words\n") [] (List.replicate 16 0) (by decide)
    ⟨116, by decide, rfl⟩ (by decide)

/-! ### The callers -/

/-- The arguments and the local arrays of `CConfOpt`. -/
inductive ConfObject where
  | sectionArg
  | nameArg
  | strSection
  | strName
  | strValue
  | strTemp
  | strComment
  deriving DecidableEq, Repr

/-- A string that passes `IS_STR_VALID`, with what stands behind it in memory. -/
structure ConfString where
  text : List UInt8
  behind : List UInt8
  noNUL : 0 ∉ text
  nonempty : text ≠ []

/-- The argument that points to the string. -/
def ConfString.ptr (string : ConfString) (object : ConfObject) : Ptr ConfObject :=
  ⟨object, string.text ++ 0 :: string.behind⟩

/-- How `SetValue` and `GetValue` begin: they return at once for a missing or empty name, and
otherwise format both into `char strSection[256], strName[128]`. -/
def formatNames (junk : Nat → UInt8) (sectionArg nameArg : Option (Ptr ConfObject)) :
    Exec ConfObject (Option (Ptr ConfObject × Ptr ConfObject)) := do
  if !(← isStrValid sectionArg) then .ok none
  else if !(← isStrValid nameArg) then .ok none
  else do
    let strSection ← format sectionArg (malloc .strSection junk 256)
    let strName ← format nameArg (malloc .strName junk 128)
    .ok (some (strSection, strName))

/-- `Format` stays inside both arrays and leaves a string in each. -/
def FormatFits (junk : Nat → UInt8) (sectionArg nameArg : ConfString) : Prop :=
  ∃ strSection strName, formatNames junk (some (sectionArg.ptr .sectionArg))
      (some (nameArg.ptr .nameArg)) = .ok (some (strSection, strName)) ∧
    (cString strSection.bytes).isSome = true ∧ (cString strName.bytes).isSome = true

/-- There is a word in the text, and the tidied text leaves room for a NUL in so many bytes. -/
def Fits (size : Nat) (text : List UInt8) : Prop :=
  (∃ byte ∈ text, isDelimiter byte = false) ∧ (tidied isDelimiter text).length < size

theorem formatNames_valid (junk : Nat → UInt8) (sectionArg nameArg : ConfString) :
    formatNames junk (some (sectionArg.ptr .sectionArg)) (some (nameArg.ptr .nameArg)) = (do
      let strSection ← format (some (sectionArg.ptr .sectionArg)) (malloc .strSection junk 256)
      let strName ← format (some (nameArg.ptr .nameArg)) (malloc .strName junk 128)
      .ok (some (strSection, strName))) := by
  rw [formatNames, ConfString.ptr, ConfString.ptr,
    isStrValid_text _ _ _ sectionArg.noNUL sectionArg.nonempty,
    isStrValid_text _ _ _ nameArg.noNUL nameArg.nonempty]
  rfl

/-- A string that fits is formatted into its array, and one that does not runs out of it. -/
theorem format_ptr (string : ConfString) (source target : ConfObject) (junk : Nat → UInt8)
    (size : Nat) :
    (Fits size string.text ∧ ∃ rest,
        format (some (string.ptr source)) (malloc target junk size) =
          .ok ⟨target, tidied isDelimiter string.text ++ 0 :: rest⟩) ∨
      ¬ Fits size string.text ∧
        format (some (string.ptr source)) (malloc target junk size) =
          .error (.outOfBounds target) := by
  have length : (malloc target junk size).bytes.length = size := malloc_length _ _ _
  by_cases fits : Fits size string.text
  · obtain ⟨rest, writes, -⟩ := format_of_room source target string.text string.behind
      (malloc target junk size).bytes string.noNUL (tidied_ne_nil_iff.mpr fits.1)
      (by rw [length]; exact fits.2)
    exact Or.inl ⟨fits, rest, writes⟩
  · refine Or.inr ⟨fits, format_overrun source target string.text string.behind
      (malloc target junk size).bytes string.noNUL string.nonempty ?_⟩
    rw [length]
    by_contra room
    rw [not_or, Nat.not_le] at room
    exact fits ⟨tidied_ne_nil_iff.mp room.1, room.2⟩

/-- `Format` fits its callers exactly when each name has a word in it and, tidied, is shorter than
its array.

For a name without a word the loop that takes the blanks off the end looks in front of the
array. -/
theorem format_fits_iff (junk : Nat → UInt8) (sectionArg nameArg : ConfString) :
    FormatFits junk sectionArg nameArg ↔
      Fits 256 sectionArg.text ∧ Fits 128 nameArg.text := by
  rw [FormatFits, formatNames_valid]
  rcases format_ptr sectionArg .sectionArg .strSection junk 256 with
    ⟨fits, rest, writes⟩ | ⟨fits, overrun⟩
  · rw [writes, and_iff_right fits]
    rcases format_ptr nameArg .nameArg .strName junk 128 with
      ⟨fits, behind, writes⟩ | ⟨fits, overrun⟩
    · rw [writes]
      refine iff_of_true ⟨_, _, rfl, ?_, ?_⟩ fits
      · rw [cString_append_stop, Option.isSome_some]
      · rw [cString_append_stop, Option.isSome_some]
    · rw [overrun]
      exact iff_of_false nofun fits
  · rw [overrun]
    exact iff_of_false nofun fun both => fits both.1

/-- The string of one blank. -/
def blankString : ConfString where
  text := [32]
  behind := []
  noNUL := by decide
  nonempty := by decide

/-- The name `a`. -/
def letterString : ConfString where
  text := [97]
  behind := []
  noNUL := by decide
  nonempty := by decide

/-- For a section name of one blank, `Format` looks at the byte before its array. -/
theorem format_blank_section : ¬ FormatFits (fun _ => 0) blankString letterString := by
  rw [FormatFits, formatNames_valid]
  rcases format_ptr blankString .sectionArg .strSection (fun _ => 0) 256 with
    ⟨fits, -⟩ | ⟨-, overrun⟩
  · obtain ⟨byte, member, other⟩ := fits.1
    rw [List.mem_singleton.mp member] at other
    exact absurd other (by decide)
  · rw [overrun]
    exact nofun

end Netmt
