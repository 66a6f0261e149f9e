/-
This file models `my_cat`, which copies a file to standard output.

Each read goes into a zeroed buffer of a hundred bytes, and the buffer is then
printed with `printf("%s")`. So a read that fills the buffer leaves no terminator
in it, and a NUL in the file ends what is printed of its read.
-/
import Netmt.Receive

namespace Netmt

open CMem

/-! ### The function -/

/-- The array `my_cat` reads into. -/
inductive CatObject where
  | buf
  deriving DecidableEq, Repr

/-- `sizeof(buf)`. -/
def catBufsize : Nat := 100

/-- What a `read` that does not fail or meet the end of the file delivers. -/
structure Chunk where
  bytes : List UInt8
  nonempty : bytes ≠ []
  fits : bytes.length ≤ catBufsize

/-- `printf("%s", str)`: the bytes that are printed. -/
def printfStr {Object : Type} (str : Ptr Object) : Exec Object (List UInt8) :=
  match cString str.bytes with
  | some bytes => .ok bytes
  | none => .error (.outOfBounds str.object)

/-- The loop of `my_cat`: what it prints when `read` delivers these chunks before it returns `0` or
fails. -/
def catLoop : List Chunk → Exec CatObject (List UInt8)
  | [] => .ok []
  | chunk :: rest => do
    let buf := List.replicate catBufsize 0
    let line ← printfStr ⟨.buf, readInto buf chunk.bytes⟩
    let others ← catLoop rest
    .ok (line ++ others)

/-- `my_cat`: its result, and what it prints; `opened` is `none` when the file cannot be opened. -/
def myCat (opened : Option (List Chunk)) : Exec CatObject (Int × List UInt8) :=
  match opened with
  | none => .ok (-1, [])
  | some chunks => do
    let printed ← catLoop chunks
    .ok (0, printed)

/-! ### What is printed -/

theorem readInto_zeroed (chunk : Chunk) :
    readInto (List.replicate catBufsize 0) chunk.bytes =
      chunk.bytes ++ List.replicate (catBufsize - chunk.bytes.length) 0 := by
  rw [readInto, List.drop_replicate]

/-- A chunk is printed as it is exactly when it has no NUL and does not fill the buffer. -/
theorem printfStr_chunk_iff (chunk : Chunk) :
    printfStr ⟨CatObject.buf, readInto (List.replicate catBufsize 0) chunk.bytes⟩ =
        .ok chunk.bytes ↔
      0 ∉ chunk.bytes ∧ chunk.bytes.length < catBufsize := by
  have room : 0 < catBufsize - chunk.bytes.length ↔ chunk.bytes.length < catBufsize := by omega
  rw [← room, ← cString_zeroed_iff, ← readInto_zeroed, printfStr]
  cases cString (readInto (List.replicate catBufsize 0) chunk.bytes) with
  | none => simp
  | some line => simp

/-- Never more is printed of a chunk than it has. -/
theorem length_le_of_printfStr (chunk : Chunk) (line : List UInt8)
    (ran : printfStr ⟨CatObject.buf, readInto (List.replicate catBufsize 0) chunk.bytes⟩ =
      .ok line) : line.length ≤ chunk.bytes.length := by
  rw [printfStr] at ran
  cases found : cString (readInto (List.replicate catBufsize 0) chunk.bytes) with
  | none =>
    rw [found] at ran
    cases ran
  | some text =>
    rw [found] at ran
    cases ran
    rw [readInto_zeroed] at found
    exact length_le_of_cString_zeroed found

theorem length_le_of_catLoop (chunks : List Chunk) (printed : List UInt8)
    (ran : catLoop chunks = .ok printed) :
    printed.length ≤ (chunks.flatMap Chunk.bytes).length := by
  induction chunks generalizing printed with
  | nil =>
    cases ran
    exact Nat.le_refl 0
  | cons chunk rest inductionHypothesis =>
    obtain ⟨line, lineRan, ran⟩ := (bind_eq_ok_iff _ _ _).mp ran
    obtain ⟨others, othersRan, ran⟩ := (bind_eq_ok_iff _ _ _).mp ran
    cases ran
    rw [List.flatMap_cons, List.length_append, List.length_append]
    exact Nat.add_le_add (length_le_of_printfStr chunk line lineRan)
      (inductionHypothesis others othersRan)

/-- The loop prints the file exactly when every read leaves room for the terminator and holds no
NUL. No line is longer than its read, so a line that comes out short is not made up for by a later
one. -/
theorem catLoop_eq_ok_iff (chunks : List Chunk) :
    catLoop chunks = .ok (chunks.flatMap Chunk.bytes) ↔
      ∀ chunk ∈ chunks, 0 ∉ chunk.bytes ∧ chunk.bytes.length < catBufsize := by
  induction chunks with
  | nil => simp [catLoop]
  | cons chunk rest inductionHypothesis =>
    rw [List.forall_mem_cons, ← inductionHypothesis, ← printfStr_chunk_iff, List.flatMap_cons]
    constructor
    · intro ran
      obtain ⟨line, lineRan, ran⟩ := (bind_eq_ok_iff _ _ _).mp ran
      obtain ⟨others, othersRan, ran⟩ := (bind_eq_ok_iff _ _ _).mp ran
      have lineLength := length_le_of_printfStr chunk line lineRan
      have othersLength := length_le_of_catLoop rest others othersRan
      have same : line ++ others = chunk.bytes ++ rest.flatMap Chunk.bytes := Except.ok.inj ran
      have total := congrArg List.length same
      rw [List.length_append, List.length_append] at total
      obtain ⟨rfl, rfl⟩ := List.append_inj same (by omega)
      exact ⟨lineRan, othersRan⟩
    · rintro ⟨lineRan, othersRan⟩
      rw [catLoop, lineRan, ok_bind, othersRan, ok_bind]

theorem myCat_eq_ok_iff (chunks : List Chunk) (printed : List UInt8) :
    myCat (some chunks) = .ok (0, printed) ↔ catLoop chunks = .ok printed := by
  show (catLoop chunks >>= fun printed => .ok ((0 : Int), printed)) = _ ↔ _
  rw [bind_eq_ok_iff]
  simp

/-- The file is printed byte for byte exactly when it has no NUL and no read fills the buffer.

The reads may cut the file anywhere. What is read is printed as a string: it ends at a NUL, and in
a full buffer there is none behind it. -/
theorem myCat_prints_iff (file : List UInt8) (reads : List Chunk)
    (whole : reads.flatMap Chunk.bytes = file) :
    myCat (some reads) = .ok (0, file) ↔
      0 ∉ file ∧ ∀ chunk ∈ reads, chunk.bytes.length < catBufsize := by
  subst whole
  rw [myCat_eq_ok_iff, catLoop_eq_ok_iff, List.mem_flatMap]
  constructor
  · intro each
    exact ⟨fun ⟨chunk, member, nul⟩ => (each chunk member).1 nul,
      fun chunk member => (each chunk member).2⟩
  · rintro ⟨clean, short⟩ chunk member
    exact ⟨fun nul => clean ⟨chunk, member, nul⟩, short chunk member⟩

/-- A file that comes in two reads. -/
theorem myCat_prints_iff_two_reads :
    myCat (some [⟨text "hel", by decide, by decide⟩, ⟨text "lo\n", by decide, by decide⟩]) =
      .ok (0, text "hello\n") :=
  (myCat_prints_iff (text "hello\n") _ rfl).mpr
    ⟨by decide, List.forall_mem_cons.mpr ⟨by decide, List.forall_mem_singleton.mpr (by decide)⟩⟩

/-- A hundred letters, in one read. -/
def fullChunk : Chunk where
  bytes := List.replicate catBufsize 97
  nonempty := by simp [catBufsize]
  fits := by simp

/-- A file of a hundred bytes leaves no room for a terminator. -/
theorem myCat_full_buffer :
    myCat (some [fullChunk]) ≠ .ok (0, [fullChunk].flatMap Chunk.bytes) := by
  rw [ne_eq, myCat_eq_ok_iff, catLoop_eq_ok_iff]
  intro each
  have short := (each fullChunk List.mem_cons_self).2
  rw [fullChunk, List.length_replicate] at short
  exact Nat.lt_irrefl _ short

end Netmt
