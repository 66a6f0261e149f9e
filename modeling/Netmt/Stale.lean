/-
This file models `on_stdin` of `Client.c` and settles which of the four read
callbacks act on the bytes just read alone.

libhv hands a callback its read buffer and a count; behind the counted bytes the
buffer holds what earlier reads left there. `on_send` and `on_stdin` take the
buffer for a C string, so they look past the bytes read whenever these hold no
NUL; the two `on_recv` compare four bytes, so they look past the bytes read when
these end inside `PING`.
-/
import Netmt.Console

namespace Netmt

open CMem

/-! ### The client's standard input -/

/-- The keywords of `on_stdin` with the calls of their branches, in the order it tries them. -/
def Client.keywords (sockio : IoId) : List (String × List Event) :=
  [("start", [.printf "call hio_read_start\n" [], .readStart sockio]),
    ("stop", [.printf "call hio_read_stop\n" [], .readStop sockio]),
    ("close", [.printf "call hio_close\n" [], .close sockio]),
    ("quit", [.printf "call hloop_stop\n" [], .loopStop])]

/-- The dispatch of `on_stdin`, for a line of one word. -/
def Client.recogniseStdin (sockio : IoId) (str : Ptr Object) (num : Nat) :
    Exec Object (Option (List Event)) :=
  if num = 1 then recognise str (Client.keywords sockio) else .ok none

/-- `on_stdin` of `Client.c`: the calls it makes. -/
def Client.onStdin (sockio : IoId) (buf : Ptr Object) (readbytes : Nat) :
    Exec Object (List Event × Ptr Object) := do
  let num ← commandNum buf splitstr
  match ← Client.recogniseStdin sockio buf num with
  | some calls => .ok (calls, buf)
  | none => do
    let (buf, readbytes) ← crlf buf readbytes
    .ok ([.write sockio (buf.bytes.take readbytes)], buf)

/-! ### Acting on the bytes read -/

/-- What a callback does with a read of `chunk` does not depend on what the buffer holds behind
it. -/
def Independent {Outcome : Type} (callback : Ptr Object → Nat → Exec Object Outcome)
    (chunk : List UInt8) : Prop :=
  ∀ first second : List UInt8, (chunk ++ first).length = bufsize →
    (chunk ++ second).length = bufsize →
    callback ⟨.readBuffer, chunk ++ first⟩ chunk.length =
      callback ⟨.readBuffer, chunk ++ second⟩ chunk.length

section Independence

variable {Outcome : Type} {callback : Ptr Object → Nat → Exec Object Outcome} {chunk : List UInt8}

/-- Old contents that fill the same room are both empty or both not. -/
theorem tails_empty_iff {first second : List UInt8} (firstFits : (chunk ++ first).length = bufsize)
    (secondFits : (chunk ++ second).length = bufsize) : first = [] ↔ second = [] := by
  rw [List.length_append] at firstFits secondFits
  rw [← List.length_eq_zero_iff, ← List.length_eq_zero_iff]
  omega

/-- A read that fills the buffer leaves nothing behind it. -/
theorem independent_of_full (full : chunk.length = bufsize) : Independent callback chunk := by
  intro first second firstFits secondFits
  have nothing : (chunk ++ []).length = bufsize := by rw [List.append_nil, full]
  have firstEmpty : first = [] := (tails_empty_iff firstFits nothing).mpr rfl
  rw [firstEmpty, (tails_empty_iff firstFits secondFits).mp firstEmpty]

/-- A callback that reads the string the buffer starts with depends on the bytes read alone
exactly when the string ends among them. With room behind them, there can be a NUL there, or none
in the whole buffer. -/
theorem independent_iff_of_string (fits : chunk.length ≤ bufsize)
    (terminated : 0 ∉ chunk → chunk.length < bufsize → ∀ tail, WithinBounds .readBuffer
      (callback ⟨.readBuffer, chunk ++ 0 :: tail⟩ chunk.length))
    (unterminated : ∀ bytes, 0 ∉ bytes →
      callback ⟨.readBuffer, bytes⟩ chunk.length = .error (.outOfBounds .readBuffer))
    (same : ∀ line rest first second, chunk = line ++ 0 :: rest → 0 ∉ line →
      (chunk ++ first).length = bufsize → (chunk ++ second).length = bufsize →
      callback ⟨.readBuffer, chunk ++ first⟩ chunk.length =
        callback ⟨.readBuffer, chunk ++ second⟩ chunk.length) :
    Independent callback chunk ↔ 0 ∈ chunk ∨ chunk.length = bufsize := by
  constructor
  · refine fun independent => by_contra fun neither => ?_
    obtain ⟨clean, notFull⟩ := not_or.mp neither
    have room : chunk.length < bufsize := lt_of_le_of_ne fits notFull
    obtain ⟨rest, lengthEq⟩ := Nat.exists_eq_add_of_lt room
    refine terminated clean room (List.replicate rest 0) ?_
    rw [independent (0 :: List.replicate rest 0) (List.replicate (rest + 1) 1) (by simp; omega)
      (by simp; omega)]
    exact unterminated _ (by simp [clean])
  · rintro (nul | full)
    · obtain ⟨line, rest, split, clean⟩ := List.eq_append_cons_of_mem nul
      exact fun first second => same line rest first second split clean
    · exact independent_of_full full

end Independence

/-- The bytes written after the rewrite of the line end are the bytes read, with that line end. -/
theorem crlf_written {Result : Type} (object : Object) (chunk tail : List UInt8)
    (nonempty : chunk ≠ []) (next : List UInt8 → Exec Object Result) :
    (crlf ⟨object, chunk ++ tail⟩ chunk.length >>= fun after => next (after.1.bytes.take after.2)) =
      if LoneEol chunk ∧ tail = [] then .error (.outOfBounds object)
      else next (crlfBytes chunk) := by
  have written : (rewritten chunk tail).take (crlfBytes chunk).length = crlfBytes chunk := by
    rw [rewritten_eq, List.take_left]
  rw [crlf_eq object chunk tail nonempty]
  by_cases overrun : LoneEol chunk ∧ tail = []
  · rw [if_pos overrun, if_pos overrun, error_bind]
  · rw [if_neg overrun, if_neg overrun, ok_bind]
    dsimp only
    rw [written]

/-! ### Runs that stay inside the read buffer -/

section Bounds

variable (object : Object) (server : Server)

/-- The list operations fault on nodes only. -/
theorem withinBounds_node (node : Node) : WithinBounds object (server.node node) := by
  unfold Server.node
  cases node with
  | null => nofun
  | head => nofun
  | conn addr =>
    dsimp only
    split <;> nofun

theorem withinBounds_setNode (node : Node) (value : ListNode) :
    WithinBounds object (server.setNode node value) := by
  unfold Server.setNode
  cases node with
  | null => nofun
  | head => nofun
  | conn addr =>
    dsimp only
    split <;> nofun

theorem withinBounds_listEntry (node : Node) : WithinBounds object (server.listEntry node) := by
  unfold Server.listEntry
  cases node with
  | null => nofun
  | head => nofun
  | conn addr =>
    dsimp only
    split <;> nofun

theorem withinBounds_readNext (node : Node) : WithinBounds object (server.readNext node) :=
  (withinBounds_node object server node).map ListNode.next

theorem withinBounds_listDel (node : Node) : WithinBounds object (listDel server node) := by
  refine ((withinBounds_node object server node).map ListNode.prev).bind fun before => ?_
  refine (withinBounds_readNext object server node).bind fun after => ?_
  have unlinked : WithinBounds object (server.writePrev after before) :=
    (withinBounds_node object server after).bind fun _ => withinBounds_setNode object server _ _
  refine unlinked.bind fun next => ?_
  exact (withinBounds_node object next before).bind fun _ => withinBounds_setNode object next _ _

theorem withinBounds_onClose (io : IoId) : WithinBounds object (onClose server io) := by
  unfold onClose
  dsimp only
  split
  · exact .ok _
  · refine (withinBounds_listDel object _ _).bind fun after => ?_
    unfold Server.freeConn
    split <;> nofun

theorem withinBounds_hioClose (io : IoId) : WithinBounds object (hioClose server io) := by
  unfold hioClose
  dsimp only
  split
  · exact .ok _
  · split
    · exact .ok _
    · split
      · exact withinBounds_onClose object _ io
      · exact .ok _

theorem withinBounds_hioWrite (os : WriteResult) (io : IoId) (bytes : List UInt8) :
    WithinBounds object (hioWrite os server io bytes) := by
  unfold hioWrite
  dsimp only
  split
  · exact .ok _
  · split
    · cases os with
      | failed errno => exact withinBounds_hioClose object _ io
      | again => exact .ok _
      | wrote count =>
        dsimp only
        split
        · exact withinBounds_hioClose object _ io
        · split <;> exact .ok _
    · exact .ok _

theorem withinBounds_listForEach (body : Server → Node → Exec Object Server)
    (bodyInside : ∀ server node, WithinBounds object (body server node)) :
    WithinBounds object (listForEach id body server) := by
  have loop (fuel : Nat) :
      ∀ server pos, WithinBounds object (listLoop id body fuel server pos) := by
    induction fuel with
    | zero => exact fun _ _ => nofun
    | succ fuel inductionHypothesis =>
      intro server pos
      refine (withinBounds_readNext object server pos).bind fun _ => ?_
      split
      · exact .ok _
      · refine (bodyInside server pos).bind fun after => ?_
        exact (withinBounds_readNext object after pos).bind fun next =>
          inductionHypothesis after next
  exact (withinBounds_readNext object server .head).bind fun first => loop _ server first

/-- A broadcast reads its string only, up to the terminator. -/
theorem withinBounds_sendStr (os : IoId → WriteResult) (str : Ptr Object)
    (strInside : WithinBounds object (strlen str)) :
    WithinBounds object (sendStr os server str) := by
  refine withinBounds_listForEach object server _ fun server node => ?_
  refine (withinBounds_listEntry object server node).bind fun conn => ?_
  exact strInside.bind fun length => withinBounds_hioWrite object server _ _ _

theorem withinBounds_listFD : WithinBounds object (listFD server) :=
  withinBounds_listForEach object server _ fun server node =>
    (withinBounds_listEntry object server node).bind fun _ => .ok _

theorem withinBounds_runKeyword (env : Env) (io : IoId) (str : Ptr Object)
    (strInside : WithinBounds object (strlen str)) (keyword : Keyword) :
    WithinBounds object (runKeyword env server io str keyword) := by
  cases keyword with
  | start => exact .ok _
  | stop => exact .ok _
  | close => exact withinBounds_hioClose object _ io
  | quit => exact .ok _
  | ping => exact withinBounds_sendStr object _ env.write str strInside
  | list => exact withinBounds_listFD object _

end Bounds

/-! ### The callbacks of standard input -/

section Lines

variable (env : Env) (server : Server) (io : IoId) {line : List UInt8}

theorem fst_bind_pair {Value Other : Type} (run : Exec Object Value) (other : Other) :
    Prod.fst <$> (run >>= fun value => .ok (value, other)) = run := by
  cases run <;> rfl

/-- The bytes read are written back. -/
theorem onSend_echo (chunk tail : List UInt8) (read : chunk ≠ []) :
    (Prod.fst <$> do
      let (buf, readbytes) ← crlf ⟨.readBuffer, chunk ++ tail⟩ chunk.length
      let server ← hioWrite (env.write io) server io (buf.bytes.take readbytes)
      .ok (server, buf)) =
      if LoneEol chunk ∧ tail = [] then .error (.outOfBounds .readBuffer)
      else hioWrite (env.write io) server io (crlfBytes chunk) := by
  rw [← crlf_written .readBuffer chunk tail read (hioWrite (env.write io) server io), map_bind]
  congr 1
  funext after
  exact fst_bind_pair (hioWrite _ _ _ _) after.1

/-- A line of three words or more is written back. -/
theorem onSend_many (chunk tail behind : List UInt8) (clean : 0 ∉ line) (nonempty : line ≠ [])
    (short : line.length < bufsize) (bytes : chunk ++ tail = line ++ 0 :: behind)
    (read : chunk ≠ []) (many : 2 ≤ line.count splitstr) :
    Prod.fst <$> onSend env server io ⟨.readBuffer, chunk ++ tail⟩ chunk.length =
      if LoneEol chunk ∧ tail = [] then .error (.outOfBounds .readBuffer)
      else hioWrite (env.write io) server io (crlfBytes chunk) := by
  unfold bufsize at short
  have counted : commandNum ⟨.readBuffer, chunk ++ tail⟩ splitstr =
      .ok (1 + line.count splitstr) := by
    rw [bytes, commandNum_append_nul .readBuffer line behind splitstr clean]
  have split : strsplit env.junk ⟨.readBuffer, chunk ++ tail⟩ splitstr =
      .ok (some (splitCells env.junk line splitstr)) := by
    rw [bytes, strsplit_eq env.junk .readBuffer splitstr behind clean nonempty (by omega)]
  rw [onSend, counted, ok_bind, split, ok_bind, if_neg (by omega), if_neg (by omega),
    onSend_echo env server io chunk tail read]

/-- With a NUL behind it, a line is all that `on_send` reads. -/
theorem withinBounds_onSend (tail : List UInt8) (clean : 0 ∉ line) (nonempty : line ≠ [])
    (short : line.length < bufsize) :
    WithinBounds .readBuffer
      (Prod.fst <$> onSend env server io ⟨.readBuffer, line ++ 0 :: tail⟩ line.length) := by
  have ends : WithinBounds .readBuffer
      (strlen (⟨.readBuffer, line ++ 0 :: tail⟩ : Ptr Object)) := by
    rw [strlen_append_nul Object.readBuffer line tail clean]
    exact .ok _
  by_cases one : splitstr ∉ line
  · rw [onSend_one env server io line.length tail clean nonempty short one]
    refine WithinBounds.map ?_ Prod.fst
    cases firstWord keywords line with
    | none => exact .ok _
    | some keyword =>
      exact (withinBounds_runKeyword .readBuffer _ env io _ ends keyword).bind fun _ => .ok _
  · obtain ⟨front, back, rfl, oneFront⟩ := List.eq_append_cons_of_mem (not_not.mp one)
    by_cases two : splitstr ∉ back
    · rw [onSend_two env server io _ tail front back clean short oneFront two]
      refine WithinBounds.map ?_ Prod.fst
      split
      · refine WithinBounds.bind ?_ fun _ => .ok _
        refine withinBounds_sendStr .readBuffer _ env.write _ ?_
        unfold strlen
        split <;> nofun
      · split <;> nofun
    · have many : 2 ≤ (front ++ splitstr :: back).count splitstr := by
        have more := List.count_pos_iff.mpr (not_not.mp two)
        rw [List.count_append, List.count_cons_self]
        omega
      rw [onSend_many env server io _ _ tail clean nonempty short rfl nonempty many,
        if_neg (fun both => List.cons_ne_nil _ _ both.2)]
      exact withinBounds_hioWrite .readBuffer server _ io _

theorem strsplit_congr (first second : List UInt8) (clean : 0 ∉ line)
    (short : line.length < bufsize) :
    strsplit env.junk ⟨.readBuffer, line ++ 0 :: first⟩ splitstr =
      strsplit env.junk ⟨.readBuffer, line ++ 0 :: second⟩ splitstr := by
  unfold bufsize at short
  cases line with
  | nil => rfl
  | cons byte rest =>
    rw [strsplit_eq env.junk .readBuffer splitstr first clean (List.cons_ne_nil _ _) (by omega),
      strsplit_eq env.junk .readBuffer splitstr second clean (List.cons_ne_nil _ _) (by omega)]

theorem runKeyword_congr (first second : List UInt8) (clean : 0 ∉ line) (keyword : Keyword) :
    runKeyword env server io ⟨.readBuffer, line ++ 0 :: first⟩ keyword =
      runKeyword env server io ⟨.readBuffer, line ++ 0 :: second⟩ keyword := by
  cases keyword with
  | ping =>
    show listForEach id (sendOne _ _) server = listForEach id (sendOne _ _) server
    rw [sendOne_of_terminated (cString_append_nul line first clean),
      sendOne_of_terminated (cString_append_nul line second clean)]
  | _ => rfl

/-- With a NUL among the bytes read, `on_send` does not see what is behind them. -/
theorem onSend_congr (rest first second : List UInt8) (clean : 0 ∉ line)
    (short : line.length < bufsize) (length : first.length = second.length) :
    Prod.fst <$> onSend env server io ⟨.readBuffer, (line ++ 0 :: rest) ++ first⟩
        (line ++ 0 :: rest).length =
      Prod.fst <$> onSend env server io ⟨.readBuffer, (line ++ 0 :: rest) ++ second⟩
        (line ++ 0 :: rest).length := by
  have behind (tail : List UInt8) : (line ++ 0 :: rest) ++ tail = line ++ 0 :: (rest ++ tail) := by
    simp
  have same : first = [] ↔ second = [] := by
    rw [← List.length_eq_zero_iff, length, List.length_eq_zero_iff]
  have echoFirst := onSend_echo env server io (line ++ 0 :: rest) first (by simp)
  have echoSecond := onSend_echo env server io (line ++ 0 :: rest) second (by simp)
  simp only [same] at echoFirst
  rw [← echoSecond, behind, behind] at echoFirst
  rw [behind, behind]
  rw [onSend, onSend, commandNum_append_nul .readBuffer line _ splitstr clean, ok_bind,
    commandNum_append_nul .readBuffer line _ splitstr clean, ok_bind,
    strsplit_congr env (rest ++ first) (rest ++ second) clean short]
  cases strsplit env.junk ⟨.readBuffer, line ++ 0 :: (rest ++ second)⟩ splitstr with
  | error fault => rfl
  | ok command =>
    rw [ok_bind, ok_bind]
    by_cases one : 1 + line.count splitstr = 1
    · rw [if_pos one, if_pos one, recognise_eq _ .readBuffer keywords keywords_plain,
        recognise_eq _ .readBuffer keywords keywords_plain, ok_bind, ok_bind]
      cases firstWord keywords line with
      | none => rfl
      | some keyword =>
        dsimp only
        rw [fst_bind_pair, fst_bind_pair, runKeyword_congr env _ io _ _ clean keyword]
    · rw [if_neg one, if_neg one]
      by_cases two : 1 + line.count splitstr = 2
      · rw [if_pos two, if_pos two]
        cases entry command 0 with
        | error fault => rfl
        | ok item =>
          rw [ok_bind, ok_bind]
          cases strncmpEq item (literal "send") 4 with
          | error fault => rfl
          | ok isSend =>
            cases isSend with
            | false => rfl
            | true =>
              cases entry command 1 with
              | error fault => rfl
              | ok word => exact (fst_bind_pair (sendStr _ _ _) _).trans (fst_bind_pair _ _).symm
      · rw [if_neg two, if_neg two]
        exact echoFirst

theorem onSend_independent_iff (chunk : List UInt8) (nonempty : chunk ≠ [])
    (fits : chunk.length ≤ bufsize) :
    Independent (fun buf readbytes => Prod.fst <$> onSend env server io buf readbytes) chunk ↔
      0 ∈ chunk ∨ chunk.length = bufsize := by
  refine independent_iff_of_string fits ?_ ?_ ?_
  · exact fun clean room tail => withinBounds_onSend env server io tail clean nonempty room
  · intro bytes clean
    rw [onSend, commandNum_unterminated .readBuffer _ splitstr clean, error_bind, map_error]
  · rintro line rest first second rfl clean firstFits secondFits
    rw [List.length_append] at firstFits secondFits
    rw [List.length_append, List.length_cons] at fits
    exact onSend_congr env server io rest first second clean (by omega) (by omega)

theorem Client.keywords_plain (sockio : IoId) :
    ∀ word ∈ Client.keywords sockio, (0 : UInt8) ∉ text word.1 := by
  simp only [Client.keywords, List.forall_mem_cons]
  decide

/-- Only a line of one word is looked up. -/
theorem Client.recogniseStdin_eq (line : List UInt8) (sockio : IoId) (behind : List UInt8) :
    Client.recogniseStdin sockio ⟨.readBuffer, line ++ 0 :: behind⟩ (1 + line.count splitstr) =
      .ok (if splitstr ∈ line then none else firstWord (Client.keywords sockio) line) := by
  unfold Client.recogniseStdin
  by_cases oneWord : splitstr ∈ line
  · have more := List.count_pos_iff.mpr oneWord
    rw [if_pos oneWord, if_neg (by omega)]
  · rw [if_neg oneWord, if_pos (by rw [List.count_eq_zero.mpr oneWord]),
      recognise_eq behind .readBuffer _ (Client.keywords_plain sockio)]

/-- What `on_stdin` does with a string the buffer starts with. -/
theorem Client.onStdin_eq (sockio : IoId) (chunk tail behind : List UInt8) (clean : 0 ∉ line)
    (bytes : chunk ++ tail = line ++ 0 :: behind) (read : chunk ≠ []) :
    Prod.fst <$> Client.onStdin sockio ⟨.readBuffer, chunk ++ tail⟩ chunk.length =
      match if splitstr ∈ line then none else firstWord (Client.keywords sockio) line with
      | some calls => .ok calls
      | none =>
        if LoneEol chunk ∧ tail = [] then .error (.outOfBounds .readBuffer)
        else .ok [.write sockio (crlfBytes chunk)] := by
  have written := crlf_written .readBuffer chunk tail read
    fun bytes => .ok [Event.write sockio bytes]
  rw [bytes] at written ⊢
  rw [Client.onStdin, commandNum_append_nul .readBuffer line behind splitstr clean, ok_bind,
    Client.recogniseStdin_eq, ok_bind]
  cases if splitstr ∈ line then none else firstWord (Client.keywords sockio) line with
  | some calls => rfl
  | none =>
    dsimp only
    rw [← written, map_bind]
    rfl

theorem Client.onStdin_independent_iff (sockio : IoId) (chunk : List UInt8) (nonempty : chunk ≠ [])
    (fits : chunk.length ≤ bufsize) :
    Independent (fun buf readbytes => Prod.fst <$> Client.onStdin sockio buf readbytes) chunk ↔
      0 ∈ chunk ∨ chunk.length = bufsize := by
  refine independent_iff_of_string fits ?_ ?_ ?_
  · intro clean _ tail
    rw [Client.onStdin_eq sockio chunk (0 :: tail) tail clean rfl nonempty]
    split
    · exact .ok _
    · rw [if_neg (fun both => List.cons_ne_nil _ _ both.2)]
      exact .ok _
  · intro bytes clean
    rw [Client.onStdin, commandNum_unterminated .readBuffer _ splitstr clean, error_bind, map_error]
  · rintro line rest first second rfl clean firstFits secondFits
    rw [Client.onStdin_eq sockio _ first (rest ++ first) clean (by simp) nonempty,
      Client.onStdin_eq sockio _ second (rest ++ second) clean (by simp) nonempty]
    simp only [tails_empty_iff firstFits secondFits]

end Lines

/-! ### The callbacks of the connections -/

section Recv

/-- The bytes read end inside `PING`. -/
def EndsInPing (chunk : List UInt8) : Prop := chunk <+: text "PING" ∧ chunk.length < 4

instance (chunk : List UInt8) : Decidable (EndsInPing chunk) :=
  inferInstanceAs (Decidable (_ ∧ _))

variable {Outcome : Type} {callback : Ptr Object → Nat → Exec Object Outcome} {chunk : List UInt8}

/-- Unless the bytes read end inside `PING`, they alone say whether the buffer starts with it. -/
theorem ping_prefix_iff (whole : ¬ EndsInPing chunk) (tail : List UInt8) :
    text "PING" <+: chunk ++ tail ↔ text "PING" <+: chunk := by
  refine ⟨fun found => ?_, fun found => found.trans (List.prefix_append chunk tail)⟩
  rcases List.prefix_or_prefix_of_prefix found (List.prefix_append chunk tail) with inside | short
  · exact inside
  · have long : 4 ≤ chunk.length := Nat.le_of_not_lt fun less => whole ⟨short, less⟩
    rw [short.eq_of_length_le long]

/-- A callback that compares the buffer with `PING` and otherwise goes by the bytes read depends
on these alone exactly when they do not end inside `PING`. -/
theorem independent_iff_of_ping
    (same : ∀ first second, 4 < (chunk ++ first).length → 4 < (chunk ++ second).length →
      (first = [] ↔ second = []) →
      (text "PING" <+: chunk ++ first ↔ text "PING" <+: chunk ++ second) →
      callback ⟨.readBuffer, chunk ++ first⟩ chunk.length =
        callback ⟨.readBuffer, chunk ++ second⟩ chunk.length)
    (differ : ∀ first second, 4 < (chunk ++ first).length → 4 < (chunk ++ second).length →
      first ≠ [] → second ≠ [] → text "PING" <+: chunk ++ first →
      ¬ text "PING" <+: chunk ++ second →
      callback ⟨.readBuffer, chunk ++ first⟩ chunk.length ≠
        callback ⟨.readBuffer, chunk ++ second⟩ chunk.length) :
    Independent callback chunk ↔ ¬ EndsInPing chunk := by
  constructor
  · rintro independent ⟨begun, short⟩
    have ping : chunk ++ (text "PING").drop chunk.length = text "PING" :=
      List.prefix_iff_eq_append.mp begun
    have room : (text "PING").drop chunk.length ≠ [] := by
      intro empty
      rw [empty, List.append_nil] at ping
      rw [ping] at short
      exact absurd short (by decide)
    have pingLength : (text "PING").length = 4 := rfl
    have firstFits : (chunk ++ ((text "PING").drop chunk.length ++
        List.replicate (bufsize - 4) 0)).length = bufsize := by
      rw [← List.append_assoc, ping, List.length_append, List.length_replicate, pingLength]
      rfl
    have secondFits : (chunk ++ 0 :: List.replicate (bufsize - chunk.length - 1) 0).length =
        bufsize := by
      have bound : 4 < bufsize := by decide
      rw [List.length_append, List.length_cons, List.length_replicate]
      omega
    refine differ _ _ (by rw [firstFits]; decide) (by rw [secondFits]; decide)
      (by simp [room]) (List.cons_ne_nil _ _) ?_ ?_ (independent _ _ firstFits secondFits)
    · rw [← List.append_assoc, ping]
      exact List.prefix_append _ _
    · rw [prefix_append_stop_iff (text "PING") chunk _ 0 (by decide)]
      exact fun inside => absurd inside.length_le (by rw [pingLength]; omega)
  · intro whole first second firstFits secondFits
    refine same first second (by rw [firstFits]; decide) (by rw [secondFits]; decide)
      (tails_empty_iff firstFits secondFits) ?_
    rw [ping_prefix_iff whole, ping_prefix_iff whole]

theorem onRecv_independent_iff {server : Server} {entries : List (IoId × Addr)}
    (registered : Registered server entries) (connected : Connected server entries)
    (os : WriteResult) (io : IoId) (nonempty : chunk ≠ []) :
    Independent (fun buf readbytes => Prod.fst <$> onRecv os server io buf readbytes) chunk ↔
      ¬ EndsInPing chunk := by
  refine independent_iff_of_ping ?_ ?_
  · intro first second firstLong secondLong empty ping
    rw [onRecv_eq os server io chunk first nonempty firstLong,
      onRecv_eq os server io chunk second nonempty secondLong]
    simp only [empty, ping]
    split
    · rfl
    · split
      · cases hioWrite os (server.printRecv io chunk) io pong <;> rfl
      · rfl
  · intro first second firstLong secondLong firstFull secondFull found absent
    have printing : Registered (server.printRecv io chunk) entries :=
      registered.congr rfl (fun _ => rfl) (fun _ => rfl)
    obtain ⟨after, remaining, diagnostics, written, -, -, trace, -⟩ :=
      hioWrite_registered printing connected os io pong
    rw [onRecv_eq os server io chunk first nonempty firstLong,
      if_neg (fun both => firstFull both.2), if_pos found, written,
      onRecv_eq os server io chunk second nonempty secondLong,
      if_neg (fun both => secondFull both.2), if_neg absent]
    intro same
    have traces := congrArg Server.trace (Except.ok.inj same)
    rw [trace] at traces
    simp at traces

theorem Client.onRecv_independent_iff (io : IoId) (fd : Nat) (nonempty : chunk ≠ []) :
    Independent (fun buf readbytes => Prod.fst <$> Client.onRecv io fd buf readbytes) chunk ↔
      ¬ EndsInPing chunk := by
  refine independent_iff_of_ping ?_ ?_
  · intro first second firstLong secondLong empty ping
    rw [Client.onRecv_eq io fd chunk first nonempty firstLong,
      Client.onRecv_eq io fd chunk second nonempty secondLong]
    simp only [empty, ping]
    split <;> rfl
  · intro first second firstLong secondLong firstFull secondFull found absent
    rw [Client.onRecv_eq io fd chunk first nonempty firstLong,
      if_neg (fun both => firstFull both.2), if_pos found,
      Client.onRecv_eq io fd chunk second nonempty secondLong,
      if_neg (fun both => secondFull both.2), if_neg absent]
    intro same
    simpa using Except.ok.inj same

end Recv

/-! ### All four callbacks -/

/-- The callbacks of standard input act on the bytes read alone exactly when these hold a NUL or
fill the buffer; those of the connections, exactly when these do not end inside `PING`.

Behind the bytes read stand the bytes of earlier reads. Standard input is taken as a string, which
goes on behind the bytes read unless one of them ends it; a read from a connection is compared
with the four letters, so only one that stops among them needs a byte from behind. -/
theorem callbacks_independent_iff {server : Server} {entries : List (IoId × Addr)}
    (registered : Registered server entries) (connected : Connected server entries) (env : Env)
    (os : WriteResult) (io sockio : IoId) (fd : Nat) (chunk : List UInt8) (nonempty : chunk ≠ [])
    (fits : chunk.length ≤ bufsize) :
    (Independent (fun buf readbytes => Prod.fst <$> onSend env server io buf readbytes) chunk ↔
      0 ∈ chunk ∨ chunk.length = bufsize) ∧
    (Independent (fun buf readbytes => Prod.fst <$> Client.onStdin sockio buf readbytes) chunk ↔
      0 ∈ chunk ∨ chunk.length = bufsize) ∧
    (Independent (fun buf readbytes => Prod.fst <$> onRecv os server io buf readbytes) chunk ↔
      ¬ EndsInPing chunk) ∧
    (Independent (fun buf readbytes => Prod.fst <$> Client.onRecv sockio fd buf readbytes) chunk ↔
      ¬ EndsInPing chunk) :=
  ⟨onSend_independent_iff env server io chunk nonempty fits,
    Client.onStdin_independent_iff sockio chunk nonempty fits,
    onRecv_independent_iff registered connected os io nonempty,
    Client.onRecv_independent_iff sockio fd nonempty⟩

/-- A line on the console, and the same bytes from a client. -/
theorem callbacks_independent_iff_list :
    ¬ Independent (fun buf readbytes => Prod.fst <$>
      onSend ⟨fun _ _ => 0, fun _ => .again⟩ Server.init 0 buf readbytes) (text "list\n") ∧
    Independent (fun buf readbytes => Prod.fst <$> onRecv .again Server.init 5 buf readbytes)
      (text "list\n") := by
  obtain ⟨send, -, -, -⟩ := callbacks_independent_iff init_session.registered init_session.connected
    ⟨fun _ _ => 0, fun _ => .again⟩ .again 0 1 3 (text "list\n") (by decide) (by decide)
  obtain ⟨-, -, recv, -⟩ := callbacks_independent_iff init_session.registered init_session.connected
    ⟨fun _ _ => 0, fun _ => .again⟩ .again 5 1 3 (text "list\n") (by decide) (by decide)
  exact ⟨fun independent => absurd (send.mp independent) (by decide), recv.mpr (by decide)⟩

/-- `list` lists the clients, unless an earlier read left a blank and a NUL behind the line. -/
theorem onSend_stale_blank :
    ¬ Independent (fun buf readbytes => Prod.fst <$>
      onSend ⟨fun _ _ => 0, fun _ => .again⟩ Server.init 0 buf readbytes) (text "list\n") := by
  intro independent
  have listed := onSend_list init_session.registered ⟨fun _ _ => 0, fun _ => .again⟩ 0 5
    (List.replicate (bufsize - 6) 0) (by decide : (0 : UInt8) ∉ text "list\n") (by decide)
    (by decide) (by decide) (firstWord_keyword .list [])
  have ignored := onSend_two ⟨fun _ _ => 0, fun _ => .again⟩ Server.init 0 5
    (List.replicate (bufsize - 8) 0) (text "list\n") (text "a") (by decide) (by decide) (by decide)
    (by decide)
  have length : (text "list\n").length = 5 := rfl
  have same := independent (0 :: List.replicate (bufsize - 6) 0)
    (splitstr :: (text "a" ++ 0 :: List.replicate (bufsize - 8) 0))
    (by rw [List.length_append, List.length_cons, List.length_replicate]; rfl)
    (by rw [List.length_append, List.length_cons, List.length_append, List.length_cons,
          List.length_replicate]; rfl)
  rw [List.append_assoc, List.cons_append] at ignored
  dsimp only at same
  rw [length, listed, ignored, if_neg (by decide), if_neg (by decide)] at same
  have traces := congrArg Server.trace (Except.ok.inj same)
  revert traces
  decide

end Netmt
