/-
This file settles what `on_stdin` of `Client.c` sends on: the line ends it
rewrites, the lines it takes for commands, and the stream that comes of its
reads.

The rewrite of a trailing CR or LF, which `on_stdin` shares with the two
`on_recv`, makes the data one byte longer in place, so it needs a byte behind
them. It looks at the end of a read only and keeps nothing from one read to the
next; so what it does to a stream depends on where the reads cut it.
-/
import Netmt.Lib.LineEnd
import Netmt.Stale

namespace Netmt

open CMem

/-! ### The rewrite of the line end -/

/-- The data end in CR or LF. -/
def EndsLine (chunk : List UInt8) : Prop :=
  chunk.getLast? = some LF ∨ chunk.getLast? = some CR

instance (chunk : List UInt8) : Decidable (EndsLine chunk) := inferInstanceAs (Decidable (_ ∨ _))

/-- The data before the line end they end in, which is CR LF, LF or CR. -/
def lineBody (chunk : List UInt8) : List UInt8 :=
  if chunk.dropLast.getLast? = some CR ∧ chunk.getLast? = some LF then chunk.dropLast.dropLast
  else chunk.dropLast

theorem crlfBytes_eq (chunk : List UInt8) :
    crlfBytes chunk = if EndsLine chunk then lineBody chunk ++ [CR, LF] else chunk := by
  unfold crlfBytes lineBody
  by_cases ends : EndsLine chunk
  · by_cases already : chunk.dropLast.getLast? = some CR ∧ chunk.getLast? = some LF
    · have notLone : ¬ LoneEol chunk := fun lone => lone.2 already
      have last := List.dropLast_append_getLast? LF (by rw [already.2]; rfl)
      have before := List.dropLast_append_getLast? CR (by rw [already.1]; rfl)
      rw [if_neg notLone, if_pos ends, if_pos already]
      nth_rewrite 1 [← last]
      nth_rewrite 1 [← before]
      rw [List.append_assoc]
      rfl
    · rw [if_pos ⟨ends, already⟩, if_pos ends, if_neg already]
  · rw [if_neg (fun lone => ends lone.1), if_neg ends]

theorem not_loneEol_crlfBytes (chunk : List UInt8) : ¬ LoneEol (crlfBytes chunk) := by
  rw [crlfBytes_eq]
  by_cases ends : EndsLine chunk
  · rw [if_pos ends]
    have split : lineBody chunk ++ [CR, LF] = (lineBody chunk ++ [CR]) ++ [LF] := by simp
    rw [split, loneEol_concat]
    simp
  · rw [if_neg ends]
    exact fun lone => ends lone.1

theorem crlfBytes_nonempty {chunk : List UInt8} (nonempty : chunk ≠ []) :
    crlfBytes chunk ≠ [] := by
  unfold crlfBytes
  split
  · simp
  · exact nonempty

/-- The rewrite of the line end does what it is for: it stays inside the buffer; data that end a
line end it with CR LF afterwards; and a second rewrite changes nothing. -/
def RewritesLineEnd (chunk tail : List UInt8) : Prop :=
  ∃ buf readbytes, crlf ⟨.readBuffer, chunk ++ tail⟩ chunk.length = .ok (buf, readbytes) ∧
    buf.bytes.length = (chunk ++ tail).length ∧
    (EndsLine chunk → buf.bytes.take readbytes = lineBody chunk ++ [CR, LF] ∧
      crlf buf readbytes = .ok (buf, readbytes))

theorem rewritesLineEnd_iff (chunk tail : List UInt8) (nonempty : chunk ≠ []) :
    RewritesLineEnd chunk tail ↔ ¬ (LoneEol chunk ∧ tail = []) := by
  unfold RewritesLineEnd
  rw [crlf_eq .readBuffer chunk tail nonempty]
  constructor
  · rintro ⟨buf, readbytes, ran, -⟩ overrun
    rw [if_pos overrun] at ran
    cases ran
  · intro inside
    rw [if_neg inside]
    refine ⟨_, _, rfl, rewritten_length chunk tail inside, fun ends => ⟨?_, ?_⟩⟩
    · dsimp only
      rw [rewritten_eq, List.take_left, crlfBytes_eq, if_pos ends]
    · have again := not_loneEol_crlfBytes chunk
      have bytes : crlfBytes (crlfBytes chunk) = crlfBytes chunk := if_neg again
      rw [rewritten_eq, crlf_eq .readBuffer _ _ (crlfBytes_nonempty nonempty),
        if_neg (fun both => again both.1), rewritten_eq, if_neg again, bytes]

/-! ### Commands and data on standard input -/

/-- `on_stdin` takes the string its buffer starts with for one of its commands. -/
def Client.Commands (sockio : IoId) (bytes : List UInt8) : Prop :=
  ∃ num calls, commandNum ⟨.readBuffer, bytes⟩ splitstr = .ok num ∧
    Client.recogniseStdin sockio ⟨.readBuffer, bytes⟩ num = .ok (some calls)

/-- What is no command is sent on, with its line end rewritten in place. -/
theorem Client.onStdin_data (sockio : IoId) (chunk tail : List UInt8) (nonempty : chunk ≠ [])
    (nul : 0 ∈ chunk ++ tail) (data : ¬ Client.Commands sockio (chunk ++ tail)) :
    Client.onStdin sockio ⟨.readBuffer, chunk ++ tail⟩ chunk.length =
      if LoneEol chunk ∧ tail = [] then .error (.outOfBounds .readBuffer)
      else .ok ([.write sockio (crlfBytes chunk)], ⟨.readBuffer, rewritten chunk tail⟩) := by
  obtain ⟨line, behind, bytes, clean⟩ := List.eq_append_cons_of_mem nul
  have counted := commandNum_append_nul .readBuffer line behind splitstr clean
  have recognised := Client.recogniseStdin_eq line sockio behind
  unfold Client.Commands at data
  rw [← bytes] at counted recognised
  rw [Client.onStdin, counted, ok_bind]
  cases found : if splitstr ∈ line then none else firstWord (Client.keywords sockio) line with
  | some calls =>
    rw [found] at recognised
    exact absurd ⟨_, _, counted, recognised⟩ data
  | none =>
    rw [recognised, found, ok_bind]
    dsimp only
    rw [crlf_eq .readBuffer chunk tail nonempty]
    by_cases overrun : LoneEol chunk ∧ tail = []
    · rw [if_pos overrun, if_pos overrun, error_bind]
    · rw [if_neg overrun, if_neg overrun, ok_bind]
      dsimp only
      rw [rewritten_eq, List.take_left]

theorem Client.onStdin_unterminated (sockio : IoId) (bytes : List UInt8) (readbytes : Nat)
    (clean : 0 ∉ bytes) :
    Client.onStdin sockio ⟨.readBuffer, bytes⟩ readbytes =
      .error (.outOfBounds .readBuffer) := by
  rw [Client.onStdin, commandNum_unterminated .readBuffer bytes splitstr clean, error_bind]

/-- The rewrite does what it is for, and the callbacks that make it stay inside the read buffer,
unless the data fill the buffer and end in a lone CR or LF.

The CR LF that takes the place of a lone line end is one byte longer. For standard input the buffer
must hold a NUL and no command, since it is searched for one before. -/
theorem rewrite_inside_iff (os : WriteResult) (server : Server) (io sockio : IoId) (fd : Nat)
    (chunk tail : List UInt8) (nonempty : chunk ≠ [])
    (full : (chunk ++ tail).length = bufsize) :
    (RewritesLineEnd chunk tail ↔ ¬ (chunk.length = bufsize ∧ LoneEol chunk)) ∧
    (WithinBounds .readBuffer (Client.onRecv io fd ⟨.readBuffer, chunk ++ tail⟩ chunk.length) ↔
      ¬ (chunk.length = bufsize ∧ LoneEol chunk)) ∧
    (WithinBounds .readBuffer (onRecv os server io ⟨.readBuffer, chunk ++ tail⟩ chunk.length) ↔
      ¬ (chunk.length = bufsize ∧ LoneEol chunk)) ∧
    (0 ∈ chunk ++ tail → ¬ Client.Commands sockio (chunk ++ tail) →
      (WithinBounds .readBuffer
          (Client.onStdin sockio ⟨.readBuffer, chunk ++ tail⟩ chunk.length) ↔
        ¬ (chunk.length = bufsize ∧ LoneEol chunk))) := by
  have long : 4 < (chunk ++ tail).length := by
    rw [full]
    decide
  have overruns : LoneEol chunk ∧ tail = [] ↔ chunk.length = bufsize ∧ LoneEol chunk := by
    rw [List.length_append] at full
    rw [← List.length_eq_zero_iff, and_comm]
    exact and_congr_left fun _ => by omega
  rw [← overruns]
  refine ⟨rewritesLineEnd_iff chunk tail nonempty, ?_, ?_, fun nul data => ?_⟩
  · rw [Client.onRecv_eq io fd chunk tail nonempty long]
    exact withinBounds_ite_iff Object.readBuffer (.ok _)
  · rw [onRecv_eq os server io chunk tail nonempty long]
    refine withinBounds_ite_iff Object.readBuffer ?_
    split
    · exact (withinBounds_hioWrite .readBuffer _ os io pong).bind fun _ => .ok _
    · exact .ok _
  · rw [Client.onStdin_data sockio chunk tail nonempty nul data]
    exact withinBounds_ite_iff Object.readBuffer (.ok _)

/-- A line that ends in a lone LF, with room behind it. -/
theorem rewrite_inside_iff_room :
    RewritesLineEnd (text "list\n") (List.replicate (bufsize - 5) 0) := by
  have lines := rewrite_inside_iff .again Server.init 5 1 3 (text "list\n")
    (List.replicate (bufsize - 5) 0) (by decide)
    (by rw [List.length_append, List.length_replicate]; rfl)
  exact lines.1.mpr fun both => absurd both.1 (by decide)

/-- A read that fills the buffer and ends in a lone LF. -/
theorem rewrite_full_buffer :
    ¬ RewritesLineEnd (List.replicate (bufsize - 1) 97 ++ [LF]) [] := by
  rw [rewritesLineEnd_iff _ _ (by simp), not_not]
  refine ⟨(loneEol_concat _ _).mpr ⟨Or.inl rfl, fun both => ?_⟩, rfl⟩
  rw [List.getLast?_replicate] at both
  exact absurd both.1 (by decide)

/-! ### Typed data -/

/-- The commands of `on_stdin`. -/
def Client.controlWords : List String := ["start", "stop", "close", "quit"]

/-- A command and nothing else, up to its line end. -/
def Client.ControlLine (chunk : List UInt8) : Prop :=
  ∃ word ∈ Client.controlWords, ∃ terminator ∈ [[], [CR], [LF], [CR, LF]],
    chunk = text word ++ terminator

/-- The data begin with the letters of a command. -/
def Client.StartsWithControl (chunk : List UInt8) : Prop :=
  ∃ word ∈ Client.controlWords, text word <+: chunk

instance (chunk : List UInt8) : Decidable (Client.ControlLine chunk) :=
  inferInstanceAs (Decidable (∃ word ∈ _, ∃ terminator ∈ _, _))

instance (chunk : List UInt8) : Decidable (Client.StartsWithControl chunk) :=
  inferInstanceAs (Decidable (∃ word ∈ _, _))

/-- The bytes are those of the data, with the line end they end in changed at most. -/
def SameData (chunk bytes : List UInt8) : Prop :=
  bytes = chunk ∨ EndsLine chunk ∧ bytes = lineBody chunk ++ [CR, LF]

/-- `on_stdin` makes no call but to send the data on, read into a zeroed buffer. -/
def Client.SendsOn (sockio : IoId) (chunk : List UInt8) : Prop :=
  ∃ bytes, Prod.fst <$> Client.onStdin sockio (zeroed chunk) chunk.length =
      .ok [.write sockio bytes] ∧
    SameData chunk bytes

theorem firstWord_eq_none_iff {Action : Type} (words : List (String × Action))
    (line : List UInt8) :
    firstWord words line = none ↔ ∀ word ∈ words, ¬ text word.1 <+: line := by
  simp [firstWord]

theorem Client.firstWord_keywords_iff (sockio : IoId) (line : List UInt8) :
    firstWord (Client.keywords sockio) line = none ↔ ¬ Client.StartsWithControl line := by
  rw [firstWord_eq_none_iff]
  simp [Client.StartsWithControl, Client.controlWords, Client.keywords]

theorem sameData_crlfBytes (chunk : List UInt8) : SameData chunk (crlfBytes chunk) := by
  rw [crlfBytes_eq]
  by_cases ends : EndsLine chunk
  · rw [if_pos ends]
    exact Or.inr ⟨ends, rfl⟩
  · rw [if_neg ends]
    exact Or.inl rfl

theorem firstWord_mem {Action : Type} {words : List (String × Action)} {line : List UInt8}
    {action : Action} (found : firstWord words line = some action) :
    ∃ word, (word, action) ∈ words := by
  unfold firstWord at found
  obtain ⟨entry, isFirst, rfl⟩ := Option.map_eq_some_iff.mp found
  obtain ⟨word, member, rfl⟩ := List.mem_map.mp (List.mem_of_find?_eq_some isFirst)
  exact ⟨word.1, member⟩

/-- The calls of a command are never a single write. -/
theorem Client.keywords_no_write (sockio io : IoId) (bytes : List UInt8) (word : String) :
    (word, [Event.write io bytes]) ∉ Client.keywords sockio := by
  simp [Client.keywords]

/-- A line is sent on unless it is one word that begins like a command. -/
theorem Client.sendsOn_iff (sockio : IoId) (chunk : List UInt8) (nonempty : chunk ≠ [])
    (short : chunk.length < bufsize) (clean : 0 ∉ chunk) :
    Client.SendsOn sockio chunk ↔ splitstr ∈ chunk ∨ ¬ Client.StartsWithControl chunk := by
  obtain ⟨room, lengthEq⟩ := Nat.exists_eq_add_of_lt short
  have zeros : List.replicate (bufsize - chunk.length) (0 : UInt8) =
      0 :: List.replicate room 0 := by
    rw [lengthEq, Nat.add_assoc, Nat.add_sub_cancel_left, List.replicate_succ]
  unfold Client.SendsOn zeroed
  rw [zeros, Client.onStdin_eq sockio chunk _ _ clean rfl nonempty,
    ← Client.firstWord_keywords_iff sockio]
  cases found : if splitstr ∈ chunk then none else firstWord (Client.keywords sockio) chunk with
  | none =>
    have data : splitstr ∈ chunk ∨ firstWord (Client.keywords sockio) chunk = none := by
      by_cases blank : splitstr ∈ chunk
      · exact Or.inl blank
      · rw [if_neg blank] at found
        exact Or.inr found
    dsimp only
    rw [if_neg (fun both => List.cons_ne_nil _ _ both.2)]
    exact ⟨fun _ => data, fun _ => ⟨_, rfl, sameData_crlfBytes chunk⟩⟩
  | some calls =>
    have blank : splitstr ∉ chunk := fun member => by rw [if_pos member] at found; cases found
    rw [if_neg blank] at found
    constructor
    · rintro ⟨bytes, sent, -⟩
      obtain ⟨word, member⟩ := firstWord_mem found
      rw [Except.ok.inj sent] at member
      exact absurd member (Client.keywords_no_write sockio sockio bytes word)
    · rintro (member | none)
      · exact absurd member blank
      · rw [found] at none
        cases none

/-- Data that are no command line are sent on exactly when they hold a blank or do not begin with
the letters of a command.

The words of commands are compared with as many letters as they have, so a longer word that begins
with one is taken for it; a blank makes more than one word of the data, and these are not
compared. -/
theorem typed_data_sent_iff (sockio : IoId) (chunk : List UInt8) (nonempty : chunk ≠ [])
    (short : chunk.length < bufsize) (clean : 0 ∉ chunk) :
    (¬ Client.ControlLine chunk → Client.SendsOn sockio chunk) ↔
      Client.ControlLine chunk ∨ splitstr ∈ chunk ∨ ¬ Client.StartsWithControl chunk := by
  rw [Client.sendsOn_iff sockio chunk nonempty short clean, ← or_iff_not_imp_left]

theorem typed_data_sent_iff_hello : Client.SendsOn 1 (text "hello\n") :=
  (typed_data_sent_iff 1 (text "hello\n") (by decide) (by decide) (by decide)).mpr
    (by decide) (by decide)

/-- A line of data behind a command, in one read. -/
theorem start_and_data :
    ¬ Client.ControlLine (text "start\nGET\n") ∧ ¬ Client.SendsOn 1 (text "start\nGET\n") := by
  refine ⟨by decide, ?_⟩
  rw [Client.sendsOn_iff 1 _ (by decide) (by decide) (by decide)]
  decide

/-! ### A stream in reads -/

/-- The read buffer after a read that was sent on. -/
def afterRead (buffer chunk : List UInt8) : List UInt8 :=
  rewritten chunk (buffer.drop chunk.length)

/-- The reads of standard input, into the loop's read buffer. -/
def Client.stdinInto (sockio : IoId) :
    List UInt8 → List (List UInt8) → Exec Object (List Event × List UInt8)
  | buffer, [] => .ok ([], buffer)
  | buffer, chunk :: rest => do
    let (events, buf) ← Client.onStdin sockio ⟨.readBuffer, readInto buffer chunk⟩ chunk.length
    let (others, buffer) ← Client.stdinInto sockio buf.bytes rest
    .ok (events ++ others, buffer)

/-- None of the reads is taken for a command. -/
def Client.AllData (sockio : IoId) : List UInt8 → List (List UInt8) → Prop
  | _, [] => True
  | buffer, chunk :: rest =>
    ¬ Client.Commands sockio (readInto buffer chunk) ∧
      Client.AllData sockio (afterRead buffer chunk) rest

/-- At every read the buffer holds a NUL, in the bytes read or behind them. -/
def Terminated : List UInt8 → List (List UInt8) → Prop
  | _, [] => True
  | buffer, chunk :: rest => 0 ∈ readInto buffer chunk ∧ Terminated (afterRead buffer chunk) rest

/-- The bytes written to a connection. -/
def writtenTo (io : IoId) (events : List Event) : List UInt8 :=
  events.flatMap fun event =>
    match event with
    | .write other bytes => if other = io then bytes else []
    | _ => []

/-- The reads are sent on as the stream they are cut from, with CR LF for every line end. -/
def Client.Forwards (sockio : IoId) (buffer : List UInt8) (reads : List (List UInt8)) : Prop :=
  ∃ events after, Client.stdinInto sockio buffer reads = .ok (events, after) ∧
    writtenTo sockio events = LineEnd.normalise CR LF false reads.flatten

/-- A read has no lone CR or LF but perhaps its last byte. -/
def InnerPaired (chunk : List UInt8) : Prop :=
  ∃ body, LineEnd.Paired CR LF body ∧
    (chunk = body ∨ chunk = body ++ [LF] ∨ chunk = body ++ [CR])

theorem cr_ne_lf : CR ≠ LF := by decide

/-- The rewrite keeps the line ends of a read. -/
theorem normalise_crlfBytes (chunk : List UInt8) :
    LineEnd.normalise CR LF false (crlfBytes chunk) = LineEnd.normalise CR LF false chunk := by
  unfold crlfBytes
  by_cases lone : LoneEol chunk
  · obtain ⟨init, eol, rfl⟩ : ∃ init eol, chunk = init ++ [eol] :=
      ⟨_, _, (List.dropLast_append_getLast lone.nonempty).symm⟩
    obtain ⟨isEol, fresh⟩ := (loneEol_concat init eol).mp lone
    rw [if_pos lone, List.dropLast_concat, LineEnd.normalise_append cr_ne_lf,
      LineEnd.normalise_append cr_ne_lf]
    rcases isEol with rfl | rfl
    · have state : LineEnd.endsInCR CR false init = false := by
        unfold LineEnd.endsInCR
        cases last : init.getLast? with
        | none => rfl
        | some byte => exact decide_eq_false fun same => fresh ⟨by rw [last, same], rfl⟩
      rw [state]
      rfl
    · cases LineEnd.endsInCR CR false init <;> rfl
  · rw [if_neg lone]

theorem getLast?_crlfBytes (chunk : List UInt8) : (crlfBytes chunk).getLast? ≠ some CR := by
  intro last
  refine not_loneEol_crlfBytes chunk ⟨Or.inr last, fun both => ?_⟩
  rw [last] at both
  exact absurd (Option.some.inj both.2) cr_ne_lf

theorem paired_crlfBytes_iff (chunk : List UInt8) :
    LineEnd.Paired CR LF (crlfBytes chunk) ↔ InnerPaired chunk := by
  by_cases lone : LoneEol chunk
  · have bytes : crlfBytes chunk = chunk.dropLast ++ [CR, LF] := if_pos lone
    have longer : (crlfBytes chunk).length = chunk.length + 1 := by
      have positive := List.length_pos_iff.mpr lone.nonempty
      rw [bytes, List.length_append, List.length_dropLast]
      simp only [List.length_cons, List.length_nil]
      omega
    constructor
    · intro paired
      rw [bytes, LineEnd.paired_append_lineEnd_iff cr_ne_lf] at paired
      obtain ⟨init, eol, rfl⟩ : ∃ init eol, chunk = init ++ [eol] :=
        ⟨_, _, (List.dropLast_append_getLast lone.nonempty).symm⟩
      rw [List.dropLast_concat] at paired
      refine ⟨init, paired, Or.inr ?_⟩
      rcases ((loneEol_concat init eol).mp lone).1 with rfl | rfl
      · exact Or.inl rfl
      · exact Or.inr rfl
    · rintro ⟨body, paired, rfl | rfl | rfl⟩
      · have shorter := LineEnd.length_le_normalise CR LF false (crlfBytes chunk)
        rw [normalise_crlfBytes, paired.normalise_eq cr_ne_lf, longer] at shorter
        exact absurd shorter (by simp)
      · rw [bytes, List.dropLast_concat]
        exact (LineEnd.paired_append_lineEnd_iff cr_ne_lf _).mpr paired
      · rw [bytes, List.dropLast_concat]
        exact (LineEnd.paired_append_lineEnd_iff cr_ne_lf _).mpr paired
  · have bytes : crlfBytes chunk = chunk := if_neg lone
    rw [bytes]
    refine ⟨fun paired => ⟨chunk, paired, Or.inl rfl⟩, ?_⟩
    rintro ⟨body, paired, rfl | rfl | rfl⟩
    · exact paired
    · have fresh : ¬ (body.getLast? = some CR ∧ LF = LF) :=
        fun both => paired.getLast?_ne cr_ne_lf both.1
      exact absurd ((loneEol_concat body LF).mpr ⟨Or.inl rfl, fresh⟩) lone
    · have fresh : ¬ (body.getLast? = some CR ∧ CR = LF) := fun both => cr_ne_lf both.2
      exact absurd ((loneEol_concat body CR).mpr ⟨Or.inr rfl, fresh⟩) lone

section Forward

variable (sockio : IoId)

/-- Reads of data are sent on one by one, up to the first read that leaves the buffer without a
NUL. -/
theorem Client.stdinInto_eq (reads : List (List UInt8)) (buffer : List UInt8)
    (full : buffer.length = bufsize) (nonempty : ∀ chunk ∈ reads, chunk ≠ [])
    (short : ∀ chunk ∈ reads, chunk.length < bufsize) (data : Client.AllData sockio buffer reads) :
    (Terminated buffer reads ∧ ∃ after, Client.stdinInto sockio buffer reads =
        .ok (reads.map fun chunk => .write sockio (crlfBytes chunk), after)) ∨
      (¬ Terminated buffer reads ∧
        Client.stdinInto sockio buffer reads = .error (.outOfBounds .readBuffer)) := by
  induction reads generalizing buffer with
  | nil => exact Or.inl ⟨trivial, buffer, rfl⟩
  | cons chunk rest inductionHypothesis =>
    obtain ⟨chunkNonempty, restNonempty⟩ := List.forall_mem_cons.mp nonempty
    obtain ⟨chunkShort, restShort⟩ := List.forall_mem_cons.mp short
    obtain ⟨chunkData, restData⟩ := data
    by_cases nul : 0 ∈ readInto buffer chunk
    · have behind : ¬ (LoneEol chunk ∧ buffer.drop chunk.length = []) := fun both => by
        rw [List.drop_eq_nil_iff] at both
        omega
      have ran := Client.onStdin_data sockio chunk (buffer.drop chunk.length) chunkNonempty nul
        chunkData
      rw [if_neg behind] at ran
      have length : (afterRead buffer chunk).length = bufsize := by
        rw [afterRead, rewritten_length _ _ behind, List.length_append, List.length_drop]
        omega
      have first : Client.stdinInto sockio buffer (chunk :: rest) = (do
          let (others, after) ← Client.stdinInto sockio (afterRead buffer chunk) rest
          .ok (.write sockio (crlfBytes chunk) :: others, after)) := by
        rw [Client.stdinInto, readInto, ran, ok_bind]
        rfl
      rw [first]
      rcases inductionHypothesis _ length restNonempty restShort restData with
        ⟨terminated, after, sent⟩ | ⟨unterminated, faulted⟩
      · rw [sent]
        exact Or.inl ⟨⟨nul, terminated⟩, after, rfl⟩
      · rw [faulted]
        exact Or.inr ⟨fun both => unterminated both.2, rfl⟩
    · refine Or.inr ⟨fun both => nul both.1, ?_⟩
      rw [Client.stdinInto, Client.onStdin_unterminated sockio _ _ nul, error_bind]

theorem writtenTo_map (reads : List (List UInt8)) :
    writtenTo sockio (reads.map fun chunk => .write sockio (crlfBytes chunk)) =
      reads.flatMap crlfBytes := by
  unfold writtenTo
  rw [List.flatMap_map]
  simp only [if_true]

/-- What the reads of a stream send on is the stream with CR LF for every line end exactly when
every read finds a NUL in the buffer, no read has a lone CR or LF before its last byte, and no
CR LF is broken between two reads.

None of the reads is a command and none fills the buffer. A read leaves its bytes in the buffer, so
the NUL may stand behind the bytes of the next. -/
theorem forwards_iff (reads : List (List UInt8)) (buffer : List UInt8)
    (full : buffer.length = bufsize) (nonempty : ∀ chunk ∈ reads, chunk ≠ [])
    (short : ∀ chunk ∈ reads, chunk.length < bufsize) (data : Client.AllData sockio buffer reads) :
    Client.Forwards sockio buffer reads ↔ Terminated buffer reads ∧
      (∀ chunk ∈ reads, InnerPaired chunk) ∧ LineEnd.Unbroken CR LF reads := by
  have converted := LineEnd.flatMap_eq_normalise_iff cr_ne_lf crlfBytes reads nonempty
    (fun chunk _ => normalise_crlfBytes chunk) (fun chunk _ => getLast?_crlfBytes chunk)
  simp only [paired_crlfBytes_iff] at converted
  rw [← converted]
  unfold Client.Forwards
  rcases Client.stdinInto_eq sockio reads buffer full nonempty short data with
    ⟨terminated, after, sent⟩ | ⟨unterminated, faulted⟩
  · rw [sent]
    constructor
    · rintro ⟨events, last, ran, written⟩
      cases ran
      rw [writtenTo_map] at written
      exact ⟨terminated, written⟩
    · rintro ⟨-, written⟩
      exact ⟨_, after, rfl, (writtenTo_map sockio reads).trans written⟩
  · rw [faulted]
    constructor
    · rintro ⟨events, last, ran, -⟩
      cases ran
    · exact fun both => absurd both.1 unterminated

end Forward

/-- A string that no command's name begins is no command. -/
theorem Client.not_commands (sockio : IoId) {line : List UInt8} (behind : List UInt8)
    (clean : 0 ∉ line) (data : splitstr ∈ line ∨ ¬ Client.StartsWithControl line) :
    ¬ Client.Commands sockio (line ++ 0 :: behind) := by
  rintro ⟨num, calls, counted, recognised⟩
  rw [commandNum_append_nul .readBuffer line behind splitstr clean] at counted
  cases counted
  rw [Client.recogniseStdin_eq] at recognised
  by_cases blank : splitstr ∈ line
  · rw [if_pos blank] at recognised
    cases recognised
  · rw [if_neg blank, (Client.firstWord_keywords_iff sockio line).mpr (data.resolve_left blank)]
      at recognised
    cases recognised

/-- A read of data, in front of the other reads. -/
theorem Client.allData_cons (sockio : IoId) {buffer chunk line behind : List UInt8}
    {rest : List (List UInt8)} (holds : readInto buffer chunk = line ++ 0 :: behind)
    (clean : 0 ∉ line) (data : splitstr ∈ line ∨ ¬ Client.StartsWithControl line)
    (others : Client.AllData sockio (afterRead buffer chunk) rest ∧
      Terminated (afterRead buffer chunk) rest) :
    Client.AllData sockio buffer (chunk :: rest) ∧ Terminated buffer (chunk :: rest) := by
  refine ⟨⟨?_, others.1⟩, ?_, others.2⟩
  · rw [holds]
    exact Client.not_commands sockio behind clean data
  · rw [holds]
    simp

theorem readInto_zeros {chunk : List UInt8} {room : Nat}
    (length : bufsize = chunk.length + room + 1) :
    readInto (List.replicate bufsize 0) chunk = chunk ++ 0 :: List.replicate room 0 := by
  rw [readInto, List.drop_replicate, length, Nat.add_assoc, Nat.add_sub_cancel_left,
    List.replicate_succ]

/-- A single read of data into a fresh buffer. -/
theorem Client.allData_fresh (sockio : IoId) (chunk : List UInt8) (short : chunk.length < bufsize)
    (clean : 0 ∉ chunk) (data : splitstr ∈ chunk ∨ ¬ Client.StartsWithControl chunk) :
    Client.AllData sockio (List.replicate bufsize 0) [chunk] ∧
      Terminated (List.replicate bufsize 0) [chunk] := by
  obtain ⟨room, length⟩ := Nat.exists_eq_add_of_lt short
  exact Client.allData_cons sockio (readInto_zeros length) clean data ⟨trivial, trivial⟩

/-- The buffer after the two lines of the first read, whose line end has grown by a byte. -/
theorem afterRead_two_lines :
    readInto (afterRead (List.replicate bufsize 0) (text "a\r\nb\n")) (text "hi\n") =
      text "hi\nb\r\n" ++ 0 :: List.replicate 8185 0 := by
  have behind : (List.replicate bufsize (0 : UInt8)).drop (text "a\r\nb\n").length =
      0 :: 0 :: List.replicate 8185 0 := by
    rw [List.drop_replicate, show bufsize - (text "a\r\nb\n").length = 8185 + 2 from rfl,
      List.replicate_succ, List.replicate_succ]
  rw [afterRead, behind, rewritten, if_pos (by decide), readInto]
  rfl

/-- Two reads into one buffer: two lines, the first of which ends in CR LF, and then one line that
leaves the end of the second in the buffer. -/
theorem forwards_iff_two_reads :
    Client.Forwards 1 (List.replicate bufsize 0) [text "a\r\nb\n", text "hi\n"] := by
  have second : Client.AllData 1 (afterRead (List.replicate bufsize 0) (text "a\r\nb\n"))
      [text "hi\n"] ∧ Terminated (afterRead (List.replicate bufsize 0) (text "a\r\nb\n"))
      [text "hi\n"] :=
    Client.allData_cons 1 afterRead_two_lines (by decide) (Or.inr (by decide)) ⟨trivial, trivial⟩
  have first : readInto (List.replicate bufsize 0) (text "a\r\nb\n") =
      text "a\r\nb\n" ++ 0 :: List.replicate 8186 0 := readInto_zeros rfl
  obtain ⟨data, terminated⟩ :=
    Client.allData_cons 1 first (by decide) (Or.inr (by decide)) second
  refine (forwards_iff 1 _ _ List.length_replicate (by decide) (by decide) data).mpr
    ⟨terminated, fun chunk member => ?_, .cons_cons (by decide) (.singleton _)⟩
  rcases List.mem_cons.mp member with rfl | second
  · exact ⟨text "a\r\nb",
      .plain (by decide) (by decide) (.lineEnd (.plain (by decide) (by decide) .nil)),
      Or.inr (Or.inl rfl)⟩
  · rw [List.mem_singleton.mp second]
    exact ⟨text "hi", .plain (by decide) (by decide) (.plain (by decide) (by decide) .nil),
      Or.inr (Or.inl rfl)⟩

/-- Of two lines in one read only the last gets its CR LF. -/
theorem forwards_two_lines_one_read :
    Client.AllData 1 (List.replicate bufsize 0) [text "a\nb\n"] ∧
      ¬ Client.Forwards 1 (List.replicate bufsize 0) [text "a\nb\n"] := by
  obtain ⟨data, terminated⟩ := Client.allData_fresh 1 (text "a\nb\n") (by decide)
    (by decide) (Or.inr (by decide))
  refine ⟨data, ?_⟩
  rintro ⟨events, after, ran, written⟩
  rcases Client.stdinInto_eq 1 [text "a\nb\n"] _ List.length_replicate (by decide) (by decide) data
    with ⟨-, last, sent⟩ | ⟨unterminated, -⟩
  · rw [sent] at ran
    cases ran
    rw [writtenTo_map] at written
    revert written
    decide
  · exact unterminated terminated

end Netmt
