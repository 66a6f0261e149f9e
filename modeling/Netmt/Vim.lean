/-
This file models `my_vim`, which copies the lines typed at it to a file until one
of them starts with `exit`.

`fgets` returns a line with its line end, or the next 1023 bytes of a longer
line; the test that would strip the line end looks at the last byte of the array,
which is never one; and each line is written with a line end of its own. At the
end of the input `fgets` leaves the array as the last iteration did, zeroed, so
empty lines are written for ever.
-/
import Netmt.Lib.Loop
import Netmt.Cat

namespace Netmt

open CMem

/-! ### The loop -/

/-- The objects `my_vim` reads and writes. -/
inductive VimObject where
  | str
  | literal
  deriving DecidableEq, Repr

/-- `LEN`. -/
def LEN : Nat := 1024

/-- What `fgets` reads of a stream: at most so many bytes, and nothing behind a line end. -/
def fgetsLine : Nat → List UInt8 → List UInt8
  | 0, _ => []
  | _ + 1, [] => []
  | limit + 1, byte :: rest => if byte = LF then [byte] else byte :: fgetsLine limit rest

/-- `fgets(target, size, stdin)`: the array and what is left of the stream. At the end of the
stream the array keeps its bytes. -/
def fgets {Object : Type} (target : Ptr Object) (size : Nat) (stdin : List UInt8) :
    Exec Object (Ptr Object × List UInt8) :=
  let line := fgetsLine (size - 1) stdin
  if line = [] then .ok (target, stdin)
  else if line.length < target.bytes.length then
    .ok ({ target with bytes := line ++ 0 :: target.bytes.drop (line.length + 1) },
      stdin.drop line.length)
  else .error (.outOfBounds target.object)

/-- What `my_vim` reads and what it writes: the rest of the input, and the file so far. -/
structure VimFiles where
  stdin : List UInt8
  file : List UInt8
  deriving DecidableEq, Repr

/-- The state of the loop. -/
structure Vim extends VimFiles where
  str : List UInt8
  deriving DecidableEq, Repr

/-- `"exit"`. -/
def exitWord : Ptr VimObject := ⟨.literal, text "exit" ++ [0]⟩

/-- The test that would take a line end off: `if (str[LEN - 1] == '\n') str[LEN - 1] = '\0'`. -/
def stripLast (str : Ptr VimObject) : Exec VimObject (Ptr VimObject) := do
  let last ← load str (LEN - 1)
  if last = LF then store str (LEN - 1) 0 else .ok str

/-- The body of the loop of `my_vim`; `opened` says whether `fopen` returned a file. Where it did
not, `fprintf` is called with a null pointer. -/
def vimBody (opened : Bool) (vim : Vim) : Exec VimObject (Loop.Next Vim VimFiles) := do
  let (str, stdin) ← fgets ⟨.str, vim.str⟩ LEN vim.stdin
  let str ← stripLast str
  let ends ← strncmpEq str exitWord 4
  if ends then
    .ok (.leave { stdin, file := vim.file })
  else if opened then do
    let line ← printfStr str
    .ok (.again { stdin, file := vim.file ++ line ++ [LF], str := List.replicate LEN 0 })
  else
    .error .null

/-- The state the loop starts in: the array is not initialised. -/
def vimStart (junk : Nat → UInt8) (stdin : List UInt8) : Vim :=
  { stdin, file := [], str := (malloc VimObject.str junk LEN).bytes }

/-- `my_vim`, when its loop takes at most so many iterations: what it leaves of the input, and the
file. Where `fopen` returned none, `fclose` is called with a null pointer. -/
def myVim (opened : Bool) (junk : Nat → UInt8) (bound : Nat) (stdin : List UInt8) :
    Exec VimObject (Option VimFiles) := do
  let left ← Loop.run (vimBody opened) bound (vimStart junk stdin)
  if left.isSome ∧ ¬ opened then .error .null else .ok left

theorem vimStart_str (junk : Nat → UInt8) (stdin : List UInt8) :
    (vimStart junk stdin).str = (malloc VimObject.str junk LEN).bytes := by
  rw [vimStart]

/-! ### Reading a line -/

theorem fgetsLine_front (limit : Nat) (stream : List UInt8) :
    fgetsLine limit stream <+: stream := by
  induction limit generalizing stream with
  | zero => exact List.nil_prefix
  | succ limit inductionHypothesis =>
    cases stream with
    | nil => exact List.nil_prefix
    | cons byte rest =>
      rw [fgetsLine]
      split
      · exact List.prefix_append [byte] rest
      · exact List.cons_prefix_cons.mpr ⟨rfl, inductionHypothesis rest⟩

theorem length_fgetsLine_le (limit : Nat) (stream : List UInt8) :
    (fgetsLine limit stream).length ≤ limit := by
  induction limit generalizing stream with
  | zero => exact Nat.le_refl 0
  | succ limit inductionHypothesis =>
    cases stream with
    | nil => exact Nat.zero_le _
    | cons byte rest =>
      rw [fgetsLine]
      split
      · exact Nat.succ_le_succ (Nat.zero_le limit)
      · exact Nat.succ_le_succ (inductionHypothesis rest)

/-- A line end is the last byte that is read. -/
theorem LF_not_mem_dropLast_fgetsLine (limit : Nat) (stream : List UInt8) :
    LF ∉ (fgetsLine limit stream).dropLast := by
  induction limit generalizing stream with
  | zero => exact List.not_mem_nil
  | succ limit inductionHypothesis =>
    cases stream with
    | nil => exact List.not_mem_nil
    | cons byte rest =>
      rw [fgetsLine]
      split
      · exact List.not_mem_nil
      · rename_i other
        cases same : fgetsLine limit rest with
        | nil => exact List.not_mem_nil
        | cons first others =>
          rw [List.dropLast_cons_cons, List.mem_cons, not_or]
          have shorter := inductionHypothesis rest
          rw [same] at shorter
          exact ⟨fun same => other same.symm, shorter⟩

theorem fgetsLine_eq_nil_iff (limit : Nat) (stream : List UInt8) (positive : 0 < limit) :
    fgetsLine limit stream = [] ↔ stream = [] := by
  cases limit with
  | zero => omega
  | succ limit =>
    cases stream with
    | nil => simp [fgetsLine]
    | cons byte rest =>
      rw [fgetsLine]
      split <;> simp

/-- A short line is read whole, with its line end. -/
theorem fgetsLine_append_LF (line rest : List UInt8) (limit : Nat) (clean : LF ∉ line)
    (short : line.length < limit) : fgetsLine limit (line ++ LF :: rest) = line ++ [LF] := by
  induction line generalizing limit with
  | nil =>
    cases limit with
    | zero => cases short
    | succ limit => rw [List.nil_append, fgetsLine, if_pos rfl, List.nil_append]
  | cons byte others inductionHypothesis =>
    rw [List.mem_cons, not_or] at clean
    cases limit with
    | zero => cases short
    | succ limit =>
      rw [List.cons_append, fgetsLine, if_neg (Ne.symm clean.1),
        inductionHypothesis limit clean.2 (Nat.lt_of_succ_lt_succ short), List.cons_append]

/-! ### One iteration -/

theorem printfStr_append_nul {Object : Type} (object : Object) (bytes tail : List UInt8) :
    printfStr ⟨object, bytes ++ 0 :: tail⟩ = .ok (bytes.takeWhile (· ≠ 0)) := by
  rw [printfStr, cString_append_stop]

/-- The last byte of the array is behind the string, so stripping it strips nothing. -/
theorem stripLast_eq (line tail : List UInt8) (fits : (line ++ 0 :: tail).length = LEN) :
    ∃ rest, stripLast ⟨.str, line ++ 0 :: tail⟩ = .ok ⟨.str, line ++ 0 :: rest⟩ := by
  have inside : LEN - 1 < (line ++ 0 :: tail).length := by
    rw [fits]
    decide
  rw [stripLast, load_of_lt _ _ inside, ok_bind]
  by_cases strip : (line ++ 0 :: tail)[LEN - 1] = LF
  · have behind : line.length < LEN - 1 := by
      rw [List.length_append, List.length_cons] at fits
      by_contra outside
      have last : LEN - 1 - line.length = 0 := by omega
      rw [List.getElem_append_right (by omega)] at strip
      simp [last, LF] at strip
    obtain ⟨gap, apart⟩ := Nat.exists_eq_add_of_lt behind
    refine ⟨tail.set gap 0, ?_⟩
    rw [if_pos strip, store_of_lt _ _ _ inside, List.set_append_right _ _ behind.le,
      show LEN - 1 - line.length = gap + 1 by omega, List.set_cons_succ]
  · exact ⟨tail, if_neg strip⟩

theorem strncmpEq_exit (line rest : List UInt8) :
    strncmpEq ⟨.str, line ++ 0 :: rest⟩ exitWord 4 = .ok (decide (text "exit" <+: line)) :=
  strncmpEq_word_of_nul ⟨.str, line ++ 0 :: rest⟩ exitWord (text "exit") [] (by decide) rfl line
    rest rfl

/-- What the body does with a string in the array, wherever that came from. -/
def vimLine (opened : Bool) (line stdin file : List UInt8) :
    Exec VimObject (Loop.Next Vim VimFiles) :=
  if text "exit" <+: line then .ok (.leave { stdin, file })
  else if opened then
    .ok (.again { stdin, file := file ++ line.takeWhile (· ≠ 0) ++ [LF],
                  str := List.replicate LEN 0 })
  else .error .null

theorem vimBody_of_fgets (opened : Bool) (vim : Vim) (line tail stdin : List UInt8)
    (fits : (line ++ 0 :: tail).length = LEN)
    (got : fgets ⟨VimObject.str, vim.str⟩ LEN vim.stdin = .ok (⟨.str, line ++ 0 :: tail⟩, stdin)) :
    vimBody opened vim = vimLine opened line stdin vim.file := by
  obtain ⟨rest, stripped⟩ := stripLast_eq line tail fits
  rw [vimBody, got, ok_bind]
  simp only []
  rw [stripped, ok_bind, strncmpEq_exit, ok_bind, printfStr_append_nul, ok_bind, vimLine]
  by_cases found : text "exit" <+: line
  · rw [decide_eq_true found, if_pos rfl, if_pos found]
  · rw [decide_eq_false found, if_neg Bool.false_ne_true, if_neg found]

/-- A line of the input replaces the string in the array. -/
theorem vimBody_line (opened : Bool) (vim : Vim) (whole : vim.str.length = LEN)
    (more : vim.stdin ≠ []) :
    vimBody opened vim =
      vimLine opened (fgetsLine (LEN - 1) vim.stdin)
        (vim.stdin.drop (fgetsLine (LEN - 1) vim.stdin).length) vim.file := by
  have short := length_fgetsLine_le (LEN - 1) vim.stdin
  have read := mt (fgetsLine_eq_nil_iff (LEN - 1) vim.stdin (by decide)).mp more
  have fits : (fgetsLine (LEN - 1) vim.stdin).length < vim.str.length := by
    rw [whole]
    exact Nat.lt_of_le_of_lt short (by decide)
  refine vimBody_of_fgets opened vim _
    (vim.str.drop ((fgetsLine (LEN - 1) vim.stdin).length + 1)) _ ?_ ?_
  · rw [List.length_append, List.length_cons, List.length_drop]
    omega
  · rw [fgets, if_neg read, if_pos fits]

/-- At the end of the input the array keeps its string. -/
theorem vimBody_end (opened : Bool) (vim : Vim) (line tail : List UInt8)
    (fits : (line ++ 0 :: tail).length = LEN) (holds : vim.str = line ++ 0 :: tail)
    (drained : vim.stdin = []) :
    vimBody opened vim = vimLine opened line [] vim.file := by
  refine vimBody_of_fgets opened vim line tail [] fits ?_
  rw [fgets, holds, drained]
  simp [fgetsLine, LEN]

/-- The first bytes of the array decide about the end of the loop, stripped or not. -/
theorem stripLast_exit (str : List UInt8) (whole : str.length = LEN) :
    ∃ kept, stripLast ⟨.str, str⟩ = .ok ⟨.str, kept⟩ ∧
      strncmpEq ⟨.str, kept⟩ exitWord 4 = .ok (decide (text "exit" <+: str)) := by
  have inside : LEN - 1 < str.length := by
    rw [whole]
    decide
  have compared (kept : List UInt8) (length : kept.length = LEN)
      (front : kept.take 4 = str.take 4) :
      strncmpEq ⟨.str, kept⟩ exitWord 4 = .ok (decide (text "exit" <+: str)) := by
    have same : text "exit" <+: kept ↔ text "exit" <+: str := by
      rw [List.prefix_iff_eq_take, List.prefix_iff_eq_take]
      exact Eq.congr_right front
    have longer : ¬ kept <+: text "exit" := by
      intro inWord
      have short := inWord.length_le
      rw [length] at short
      exact absurd short (by decide)
    have word := strncmpEq_word ⟨.str, kept⟩ exitWord (text "exit") [] (by decide) rfl
    rw [if_neg longer] at word
    refine Eq.trans word ?_
    by_cases found : text "exit" <+: str
    · rw [if_pos (same.mpr found), decide_eq_true found]
    · rw [if_neg (mt same.mp found), decide_eq_false found]
  rw [stripLast, load_of_lt _ _ inside, ok_bind]
  by_cases strip : str[LEN - 1] = LF
  · refine ⟨str.set (LEN - 1) 0, ?_, compared _ ?_ ?_⟩
    · rw [if_pos strip, store_of_lt _ _ _ inside]
    · rw [List.length_set, whole]
    · exact List.take_set_of_le (by decide)
  · exact ⟨str, if_neg strip, compared str whole rfl⟩

/-- With no input left the array decides, whatever is in it. -/
theorem vimBody_drained (opened : Bool) (vim : Vim) (whole : vim.str.length = LEN)
    (drained : vim.stdin = []) :
    (text "exit" <+: vim.str ∧
        vimBody opened vim = .ok (.leave { stdin := [], file := vim.file })) ∨
      ¬ text "exit" <+: vim.str ∧
        ((∃ fault, vimBody opened vim = .error fault) ∨
          opened = true ∧ ∃ line, vimBody opened vim =
            .ok (.again { stdin := [], file := vim.file ++ line ++ [LF],
                          str := List.replicate LEN 0 })) := by
  obtain ⟨kept, stripped, compared⟩ := stripLast_exit vim.str whole
  have got : fgets ⟨VimObject.str, vim.str⟩ LEN vim.stdin = .ok (⟨.str, vim.str⟩, []) := by
    rw [fgets, drained]
    exact if_pos rfl
  rw [vimBody, got, ok_bind]
  simp only []
  rw [stripped, ok_bind, compared, ok_bind]
  by_cases found : text "exit" <+: vim.str
  · exact Or.inl ⟨found, by rw [decide_eq_true found, if_pos rfl]⟩
  · refine Or.inr ⟨found, ?_⟩
    rw [decide_eq_false found, if_neg Bool.false_ne_true]
    cases opened with
    | false => exact Or.inl ⟨.null, rfl⟩
    | true =>
      rw [if_pos rfl]
      cases printfStr (⟨.str, kept⟩ : Ptr VimObject) with
      | error fault => exact Or.inl ⟨fault, rfl⟩
      | ok line => exact Or.inr ⟨rfl, line, rfl⟩

/-! ### When the loop ends -/

/-- The pieces `fgets` cuts an input into: its lines with their line ends, long ones in parts. -/
def fgetsLines (stdin : List UInt8) : List (List UInt8) :=
  if more : stdin = [] then []
  else
    fgetsLine (LEN - 1) stdin :: fgetsLines (stdin.drop (fgetsLine (LEN - 1) stdin).length)
termination_by stdin.length
decreasing_by
  have read := mt (fgetsLine_eq_nil_iff (LEN - 1) stdin (by decide)).mp more
  have positive := List.length_pos_iff.mpr read
  have input := List.length_pos_iff.mpr more
  rw [List.length_drop]
  omega

theorem fgetsLines_nil : fgetsLines [] = [] := by
  rw [fgetsLines, dif_pos rfl]

theorem fgetsLines_of_more (stdin : List UInt8) (more : stdin ≠ []) :
    fgetsLines stdin = fgetsLine (LEN - 1) stdin ::
      fgetsLines (stdin.drop (fgetsLine (LEN - 1) stdin).length) := by
  rw [fgetsLines, dif_neg more]

/-- On a zeroed array at the end of the input the loop writes empty lines for ever. -/
theorem vim_endless (vim : Vim) (drained : vim.stdin = [])
    (zeroed : vim.str = List.replicate LEN 0) :
    ¬ Loop.Ends (vimBody true) vim := by
  refine Loop.not_ends_of_invariant
    (fun vim => vim.stdin = [] ∧ vim.str = List.replicate LEN 0) ?_ ⟨drained, zeroed⟩
  rintro vim ⟨drained, zeroed⟩
  refine ⟨⟨⟨[], vim.file ++ [] ++ [LF]⟩, List.replicate LEN 0⟩, ?_, rfl, rfl⟩
  have fits : ([] ++ (0 : UInt8) :: List.replicate (LEN - 1) 0).length = LEN := by
    rw [List.nil_append, List.length_cons, List.length_replicate]
    rfl
  rw [Loop.Step, vimBody_end true vim [] (List.replicate (LEN - 1) 0) fits zeroed drained,
    vimLine, if_neg (by decide), if_pos rfl]
  rfl

/-- With a file, the loop ends with the first piece that begins with `exit`. -/
theorem vim_ends_opened_iff (vim : Vim) (whole : vim.str.length = LEN)
    (fresh : vim.stdin = [] → vim.str = List.replicate LEN 0) :
    Loop.Ends (vimBody true) vim ↔ ∃ line ∈ fgetsLines vim.stdin, text "exit" <+: line := by
  induction stdin : vim.stdin using fgetsLines.induct generalizing vim with
  | case1 =>
    rw [fgetsLines_nil]
    exact iff_of_false (vim_endless vim stdin (fresh stdin)) (by simp)
  | case2 input more inductionHypothesis =>
    have goes := vimBody_line true vim whole (by rw [stdin]; exact more)
    rw [stdin, vimLine] at goes
    rw [fgetsLines_of_more input more, List.exists_mem_cons_iff]
    by_cases found : text "exit" <+: fgetsLine (LEN - 1) input
    · rw [if_pos found] at goes
      exact iff_of_true (Loop.ends_leave goes) (Or.inl found)
    · rw [if_neg found, if_pos rfl] at goes
      rw [Loop.ends_again_iff goes, or_iff_right found]
      exact inductionHypothesis _ List.length_replicate (fun _ => rfl) rfl

/-- Without a file, only the first piece can end the loop. -/
theorem vim_ends_unopened_iff (vim : Vim) (whole : vim.str.length = LEN) (more : vim.stdin ≠ []) :
    Loop.Ends (vimBody false) vim ↔ text "exit" <+: fgetsLine (LEN - 1) vim.stdin := by
  have goes := vimBody_line false vim whole more
  rw [vimLine] at goes
  by_cases found : text "exit" <+: fgetsLine (LEN - 1) vim.stdin
  · rw [if_pos found] at goes
    exact iff_of_true (Loop.ends_leave goes) found
  · rw [if_neg found, if_neg Bool.false_ne_true] at goes
    exact iff_of_false (Loop.not_ends_error goes) found

/-- Some piece that is read begins with `exit`; where nothing is read, the array does by chance. -/
def VimTerminated (opened : Bool) (junk : Nat → UInt8) (stdin : List UInt8) : Prop :=
  match fgetsLines stdin with
  | [] => text "exit" <+: (malloc VimObject.str junk LEN).bytes
  | first :: others =>
    text "exit" <+: first ∨ opened = true ∧ ∃ line ∈ others, text "exit" <+: line

theorem vim_ends_iff (opened : Bool) (junk : Nat → UInt8) (stdin : List UInt8) :
    Loop.Ends (vimBody opened) (vimStart junk stdin) ↔ VimTerminated opened junk stdin := by
  have whole : (vimStart junk stdin).str.length = LEN := by
    rw [vimStart_str, malloc_length]
  by_cases more : stdin = []
  · subst more
    rw [VimTerminated, fgetsLines_nil]
    simp only []
    rw [← vimStart_str junk []]
    rcases vimBody_drained opened _ whole rfl with ⟨found, goes⟩ | ⟨missing, ⟨fault, goes⟩ |
      ⟨rfl, line, goes⟩⟩
    · exact iff_of_true (Loop.ends_leave goes) found
    · exact iff_of_false (Loop.not_ends_error goes) missing
    · rw [Loop.ends_again_iff goes]
      exact iff_of_false (vim_endless _ rfl rfl) missing
  · rw [VimTerminated, fgetsLines_of_more stdin more]
    cases opened with
    | false =>
      rw [vim_ends_unopened_iff _ whole more]
      simp [vimStart]
    | true =>
      rw [vim_ends_opened_iff _ whole fun drained => absurd drained more]
      simp [vimStart, fgetsLines_of_more stdin more]

/-! ### What the file holds -/

/-- A line typed before the end. -/
structure TypedLine where
  bytes : List UInt8
  noLF : LF ∉ bytes
  noNUL : 0 ∉ bytes
  notExit : bytes ≠ text "exit"

/-- The lines as they are typed, and as they should be in the file. -/
def typedLines (lines : List TypedLine) : List UInt8 := lines.flatMap (·.bytes ++ [LF])

/-- The typed lines, the line `exit`, and whatever is typed behind it. -/
def vimInput (lines : List TypedLine) (rest : List UInt8) : List UInt8 :=
  typedLines lines ++ (text "exit" ++ [LF]) ++ rest

/-- `my_vim` ends at the line `exit`, and the file then contains the lines typed before it. -/
def WritesLines (junk : Nat → UInt8) (lines : List TypedLine) (rest : List UInt8) : Prop :=
  ∃ bound, myVim true junk bound (vimInput lines rest) =
    .ok (some { stdin := rest, file := typedLines lines })

theorem writesLines_iff_returns (junk : Nat → UInt8) (lines : List TypedLine)
    (rest : List UInt8) :
    WritesLines junk lines rest ↔
      Loop.Returns (vimBody true) (vimStart junk (vimInput lines rest))
        { stdin := rest, file := typedLines lines } := by
  refine exists_congr fun bound => ?_
  rw [myVim]
  cases Loop.run (vimBody true) bound (vimStart junk (vimInput lines rest)) with
  | error fault => simp
  | ok left => simp

/-- When the loop goes on it has written more than it has read, unless that has a NUL: each piece
gets a line end of its own. -/
def Overfull (start vim : Vim) : Prop :=
  vim.str.length = LEN ∧ ∃ consumed, start.stdin = consumed ++ vim.stdin ∧
    (0 ∉ consumed → vim = start ∨ consumed.length < vim.file.length)

theorem takeWhile_of_clean (line : List UInt8) (clean : 0 ∉ line) :
    line.takeWhile (· ≠ 0) = line := by
  rw [List.takeWhile_eq_self_iff]
  intro byte member
  simpa using ne_of_mem_of_not_mem member clean

theorem Overfull.step (start vim next : Vim) (overfull : Overfull start vim)
    (step : Loop.Step (vimBody true) vim next) : Overfull start next := by
  obtain ⟨whole, consumed, split, more⟩ := overfull
  have noLess (clean : 0 ∉ consumed) : consumed.length ≤ vim.file.length := by
    rcases more clean with rfl | more
    · have read := congrArg List.length split
      rw [List.length_append] at read
      omega
    · exact more.le
  unfold Loop.Step at step
  by_cases drained : vim.stdin = []
  · rcases vimBody_drained true vim whole drained with ⟨-, goes⟩ | ⟨-, ⟨fault, goes⟩ |
      ⟨-, line, goes⟩⟩
    · rw [goes] at step
      cases step
    · rw [goes] at step
      cases step
    · rw [goes] at step
      cases step
      refine ⟨List.length_replicate, consumed, by rw [split, drained], fun clean => Or.inr ?_⟩
      have before := noLess clean
      simp only [List.length_append, List.length_singleton]
      omega
  · rw [vimBody_line true vim whole drained, vimLine] at step
    by_cases found : text "exit" <+: fgetsLine (LEN - 1) vim.stdin
    · rw [if_pos found] at step
      cases step
    · rw [if_neg found, if_pos rfl] at step
      cases step
      refine ⟨List.length_replicate, consumed ++ fgetsLine (LEN - 1) vim.stdin, ?_, fun clean => ?_⟩
      · rw [split, List.append_assoc, List.append_cancel_left_eq]
        exact (List.prefix_iff_eq_append.mp (fgetsLine_front (LEN - 1) vim.stdin)).symm
      · rw [List.mem_append, not_or] at clean
        have before := noLess clean.1
        refine Or.inr ?_
        simp only [takeWhile_of_clean _ clean.2, List.length_append, List.length_singleton]
        omega

theorem typedLines_clean (lines : List TypedLine) : 0 ∉ typedLines lines := by
  rw [typedLines, List.mem_flatMap]
  rintro ⟨line, -, member⟩
  rw [List.mem_append, List.mem_singleton] at member
  rcases member with inside | lineEnd
  · exact line.noNUL inside
  · exact absurd lineEnd (by decide)

theorem typedLines_ends (lines : List TypedLine) (some : lines ≠ []) :
    ∃ front, typedLines lines = front ++ [LF] := by
  obtain ⟨before, last, rfl⟩ := (List.eq_nil_or_concat lines).resolve_left some
  refine ⟨typedLines before ++ last.bytes, ?_⟩
  simp [typedLines]

/-- A piece that ends where the line `exit` ends begins no earlier than that line. -/
theorem length_before_exit (lines : List TypedLine) (consumed line : List UInt8)
    (oneLine : LF ∉ line.dropLast)
    (split : consumed ++ line = typedLines lines ++ (text "exit" ++ [LF])) :
    (typedLines lines).length ≤ consumed.length := by
  by_cases some : lines = []
  · rw [some]
    exact Nat.zero_le _
  · obtain ⟨front, ends⟩ := typedLines_ends lines some
    rw [ends, List.append_assoc] at split
    rw [ends, List.length_append, List.length_singleton]
    by_contra early
    rcases List.append_eq_append_iff.mp split with ⟨between, rfl, rfl⟩ | ⟨between, rfl, behind⟩
    · refine oneLine ?_
      rw [List.singleton_append, List.dropLast_append_of_ne_nil (List.cons_ne_nil _ _)]
      simp [text]
    · have none : between = [] := by
        rw [← List.length_eq_zero_iff]
        rw [List.length_append] at early
        omega
      rw [none, List.nil_append] at behind
      rw [← behind] at oneLine
      exact oneLine (by decide)

/-- What the loop is left with: the file as it was, and the input behind the last piece. -/
theorem vimBody_leaves (vim : Vim) (whole : vim.str.length = LEN) (files : VimFiles)
    (leaves : vimBody true vim = .ok (.leave files)) :
    files.file = vim.file ∧ ∃ line, LF ∉ line.dropLast ∧ vim.stdin = line ++ files.stdin := by
  by_cases drained : vim.stdin = []
  · rcases vimBody_drained true vim whole drained with ⟨-, goes⟩ | ⟨-, ⟨fault, goes⟩ |
      ⟨-, line, goes⟩⟩
    · rw [goes] at leaves
      cases leaves
      exact ⟨rfl, [], List.not_mem_nil, drained⟩
    · rw [goes] at leaves
      cases leaves
    · rw [goes] at leaves
      cases leaves
  · rw [vimBody_line true vim whole drained, vimLine] at leaves
    by_cases found : text "exit" <+: fgetsLine (LEN - 1) vim.stdin
    · rw [if_pos found] at leaves
      cases leaves
      exact ⟨rfl, fgetsLine (LEN - 1) vim.stdin, LF_not_mem_dropLast_fgetsLine _ _,
        (List.prefix_iff_eq_append.mp (fgetsLine_front (LEN - 1) vim.stdin)).symm⟩
    · rw [if_neg found, if_pos rfl] at leaves
      cases leaves

/-- `my_vim` writes the typed lines to the file exactly when there are none: each line that is
written comes with its own line end and gets another one.

The lines hold no line end and no NUL and are not the word that ends the input; what stands in the
array before the first read does not matter. -/
theorem writes_lines_iff (junk : Nat → UInt8) (lines : List TypedLine) (rest : List UInt8) :
    WritesLines junk lines rest ↔ lines = [] := by
  rw [writesLines_iff_returns]
  have whole : (vimStart junk (vimInput lines rest)).str.length = LEN := by
    rw [vimStart_str, malloc_length]
  constructor
  · intro returns
    obtain ⟨last, ⟨lastWhole, consumed, split, more⟩, leaves⟩ := returns.exists_last
      (Overfull (vimStart junk (vimInput lines rest)))
      (Overfull.step (vimStart junk (vimInput lines rest)))
      ⟨whole, [], rfl, fun _ => Or.inl rfl⟩
    obtain ⟨file, line, oneLine, left⟩ := vimBody_leaves last lastWhole _ leaves
    have upTo : consumed ++ line = typedLines lines ++ (text "exit" ++ [LF]) := by
      rw [left, ← List.append_assoc] at split
      exact (List.append_cancel_right split).symm
    have clean : 0 ∉ consumed := by
      intro nul
      have member : 0 ∈ consumed ++ line := List.mem_append_left line nul
      rw [upTo, List.mem_append] at member
      exact member.elim (typedLines_clean lines) (by decide)
    have before := length_before_exit lines consumed line oneLine upTo
    rcases more clean with rfl | more
    · by_contra some
      obtain ⟨front, ends⟩ := typedLines_ends lines some
      rw [ends] at file
      exact absurd file (by simp [vimStart])
    · rw [← file] at more
      exact absurd before (Nat.not_le_of_lt more)
  · rintro rfl
    have goes := vimBody_line true (vimStart junk (vimInput [] rest)) whole (List.cons_ne_nil _ _)
    have read : fgetsLine (LEN - 1) (vimStart junk (vimInput [] rest)).stdin =
        text "exit" ++ [LF] :=
      fgetsLine_append_LF (text "exit") rest (LEN - 1) (by decide) (by decide)
    rw [read, vimLine, if_pos (by decide)] at goes
    exact (Loop.returns_leave_iff goes _).mpr rfl

/-- The line `hello`. -/
def helloLine : TypedLine where
  bytes := text "hello"
  noLF := by decide
  noNUL := by decide
  notExit := by decide

/-- Behind the line `hello` the file has an empty line. -/
theorem hello_written_twice : ¬ WritesLines (fun _ => 0) [helloLine] [] := by
  rw [writesLines_iff_returns]
  have first := vimBody_line true (vimStart (fun _ => 0) (vimInput [helloLine] []))
    (by rw [vimStart_str, malloc_length]) (List.cons_ne_nil _ _)
  have hello : fgetsLine (LEN - 1) (vimStart (fun _ => 0) (vimInput [helloLine] [])).stdin =
      text "hello" ++ [LF] :=
    fgetsLine_append_LF (text "hello") (text "exit" ++ [LF]) (LEN - 1) (by decide) (by decide)
  rw [hello, vimLine, if_neg (by decide), if_pos rfl] at first
  have second := vimBody_line true
    ⟨⟨text "exit" ++ [LF], text "hello" ++ [LF, LF]⟩, List.replicate LEN 0⟩
    List.length_replicate (List.cons_ne_nil _ _)
  rw [fgetsLine_append_LF (text "exit") [] (LEN - 1) (by decide) (by decide), vimLine,
    if_pos (by decide)] at second
  rw [Loop.returns_again_iff first]
  intro returns
  have left := (Loop.returns_leave_iff second _).mp returns
  exact absurd left (by decide)

end Netmt
