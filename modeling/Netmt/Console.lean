/-
This file models `on_send`, the callback of the server's standard input, and
relates it to the script an operator types.

The callback does not look at the bytes just read but at the C string the read
buffer starts with: it counts the words of that string, compares it with the
keywords by prefix, and sends or writes the rest. The buffer belongs to the loop,
so behind the bytes just read it holds what was read before, from any connection.
-/
import Netmt.Receive
import Netmt.StringIni

namespace Netmt

open CMem

/-! ### The callback -/

/-- What a callback cannot choose: the contents of fresh blocks, and what `write` answers on each
descriptor. -/
structure Env where
  junk : Nat → Nat → UInt8
  write : IoId → WriteResult

/-- A chain of `if (strncmp(str, word, strlen(word)) == 0)`, in order. -/
def recognise {Action : Type} (str : Ptr Object) :
    List (String × Action) → Exec Object (Option Action)
  | [] => .ok none
  | (word, action) :: rest => do
    let same ← strncmpEq str (literal word) (text word).length
    if same then .ok (some action) else recognise str rest

/-- The keywords of `on_send`, in the order it tries them. -/
def keywords : List (String × Keyword) :=
  [("start", .start), ("stop", .stop), ("close", .close), ("quit", .quit), ("PING", .ping),
    ("list", .list)]

/-- `hio_read_stop(io)`, which is `hio_del(io, HV_READ)`. -/
def hioReadStop (server : Server) (io : IoId) : Server :=
  server.updateHio io fun hio => { hio with evRead := false }

/-- The branch of a keyword. -/
def runKeyword (env : Env) (server : Server) (io : IoId) (str : Ptr Object) :
    Keyword → Exec Object Server
  | .start =>
    .ok (hioRead (server.logAll [.printf "call hio_read_start\n" [], .readStart io]) io)
  | .stop =>
    .ok (hioReadStop (server.logAll [.printf "call hio_read_stop\n" [], .readStop io]) io)
  | .close => hioClose (server.logAll [.printf "call hio_close\n" [], .close io]) io
  | .quit =>
    .ok { server.logAll [.printf "call hloop_stop\n" [], .loopStop] with running := false }
  | .ping => sendStr env.write server str
  | .list => listFD (server.log (.printf "客户端的FD:\n" []))

/-- `command[index]`, where `command` is what `strsplit` returned. -/
def entry (command : Option Cells) (index : Nat) : Exec Object (Ptr Object) :=
  match command with
  | none => .error .null
  | some cells =>
    match cells[index]? with
    | none => .error (.outOfBounds .splitArray)
    | some none => .error .null
    | some (some item) => .ok item

/-- `on_send`. -/
def onSend (env : Env) (server : Server) (io : IoId) (buf : Ptr Object) (readbytes : Nat) :
    Exec Object (Server × Ptr Object) := do
  let num ← commandNum buf splitstr
  let command ← strsplit env.junk buf splitstr
  if num = 1 then do
    match ← recognise buf keywords with
    | some keyword => do
      let server ← runKeyword env (server.log (.command (.keyword keyword))) io buf keyword
      .ok (server, buf)
    | none => .ok (server.log (.printf "command invalid\n" []), buf)
  else if num = 2 then do
    let first ← entry command 0
    let isSend ← strncmpEq first (literal "send") 4
    if isSend then do
      let second ← entry command 1
      let server ← sendStr env.write (server.log (.command .send)) second
      .ok (server, buf)
    else .ok (server, buf)
  else do
    let (buf, readbytes) ← crlf buf readbytes
    let server ← hioWrite (env.write io) server io (buf.bytes.take readbytes)
    .ok (server, buf)

/-! ### On a terminated buffer -/

section Terminated

variable (env : Env) (server : Server) (io : IoId) (readbytes : Nat) {line : List UInt8}
  (tail : List UInt8)

/-- The first word of the chain that the line starts with. -/
def firstWord {Action : Type} (words : List (String × Action)) (line : List UInt8) :
    Option Action :=
  ((words.map fun word => (text word.1, word.2)).find? fun word =>
    decide (word.1 <+: line)).map Prod.snd

theorem recognise_eq {Action : Type} (object : Object) (words : List (String × Action))
    (plain : ∀ word ∈ words, (0 : UInt8) ∉ text word.1) :
    recognise ⟨object, line ++ 0 :: tail⟩ words = .ok (firstWord words line) := by
  induction words with
  | nil => rfl
  | cons word rest inductionHypothesis =>
    rcases word with ⟨name, action⟩
    have compared := strncmpEq_word_of_nul ⟨object, line ++ 0 :: tail⟩ (literal name) (text name) []
      (plain _ List.mem_cons_self) (literal_bytes name) line tail rfl
    have others := inductionHypothesis fun other member =>
      plain other (List.mem_cons_of_mem _ member)
    rw [recognise, compared, ok_bind, others]
    unfold firstWord
    rw [List.map_cons, List.find?_cons]
    by_cases found : text name <+: line
    · simp [found]
    · simp [found]

theorem keywords_plain : ∀ word ∈ keywords, (0 : UInt8) ∉ text word.1 := by
  decide

/-- A line of one word: a keyword it starts with, or nothing. -/
theorem onSend_one (clean : 0 ∉ line) (nonempty : line ≠ []) (short : line.length < bufsize)
    (oneWord : splitstr ∉ line) :
    onSend env server io ⟨.readBuffer, line ++ 0 :: tail⟩ readbytes =
      match firstWord keywords line with
      | some keyword => do
        let server ← runKeyword env (server.log (.command (.keyword keyword))) io
          ⟨.readBuffer, line ++ 0 :: tail⟩ keyword
        .ok (server, ⟨.readBuffer, line ++ 0 :: tail⟩)
      | none => .ok (server.log (.printf "command invalid\n" []),
          ⟨.readBuffer, line ++ 0 :: tail⟩) := by
  unfold bufsize at short
  rw [onSend, commandNum_append_nul .readBuffer line tail splitstr clean, ok_bind,
    strsplit_eq env.junk .readBuffer splitstr tail clean nonempty (by omega), ok_bind,
    List.count_eq_zero.mpr oneWord, if_pos rfl,
    recognise_eq tail .readBuffer keywords keywords_plain, ok_bind]

/-- A line of two words: the second is sent if the first starts with `send`. -/
theorem onSend_two (front back : List UInt8) (clean : 0 ∉ front ++ splitstr :: back)
    (short : (front ++ splitstr :: back).length < bufsize) (oneFront : splitstr ∉ front)
    (oneBack : splitstr ∉ back) :
    onSend env server io ⟨.readBuffer, (front ++ splitstr :: back) ++ 0 :: tail⟩ readbytes =
      if text "send" <+: front then do
        let server ← sendStr env.write (server.log (.command .send)) ⟨.splitItem 1, back⟩
        .ok (server, ⟨.readBuffer, (front ++ splitstr :: back) ++ 0 :: tail⟩)
      else if front <+: text "send" then .error (.outOfBounds (.splitItem 0))
      else .ok (server, ⟨.readBuffer, (front ++ splitstr :: back) ++ 0 :: tail⟩) := by
  unfold bufsize at short
  have twoWords : (front ++ splitstr :: back).count splitstr = 1 := by
    rw [List.count_append, List.count_cons_self, List.count_eq_zero.mpr oneFront,
      List.count_eq_zero.mpr oneBack]
  have compared := strncmpEq_word ⟨.splitItem 0, front⟩ (literal "send") (text "send") []
    (by decide) (literal_bytes "send")
  rw [onSend, commandNum_append_nul .readBuffer _ tail splitstr clean, ok_bind,
    strsplit_eq env.junk .readBuffer splitstr tail clean (by simp) (by omega), ok_bind,
    twoWords, if_neg (by decide), if_pos rfl, splitCells_two env.junk splitstr front back oneFront
      oneBack]
  show strncmpEq ⟨.splitItem 0, front⟩ (literal "send") (text "send").length >>= _ = _
  rw [compared]
  by_cases found : text "send" <+: front
  · rw [if_pos found, if_pos found]
    rfl
  · rw [if_neg found, if_neg found]
    by_cases short : front <+: text "send"
    · rw [if_pos short, if_pos short]
      rfl
    · rw [if_neg short, if_neg short]
      rfl

end Terminated

/-! ### Scripts -/

/-- A word an operator can send. -/
structure Word where
  bytes : List UInt8
  nonempty : bytes ≠ []
  plain : ∀ byte ∈ bytes, byte ≠ 0 ∧ byte ≠ splitstr ∧ byte ≠ LF ∧ byte ≠ CR

/-- A line of a script, each one command of the console. -/
inductive Line where
  | keyword (keyword : Keyword)
  | send (word : Word)

/-- The name of a keyword, as it is typed. -/
def Keyword.name : Keyword → String
  | .start => "start\n"
  | .stop => "stop\n"
  | .close => "close\n"
  | .quit => "quit\n"
  | .ping => "PING\n"
  | .list => "list\n"

/-- A line as it is typed. -/
def Line.bytes : Line → List UInt8
  | .keyword command => text command.name
  | .send word => text "send" ++ splitstr :: (word.bytes ++ [LF])

/-- The lines that end a script. -/
def Line.Ends : Line → Prop
  | .keyword .quit => True
  | .keyword .close => True
  | _ => False

instance (line : Line) : Decidable line.Ends := by
  unfold Line.Ends
  split <;> infer_instance

/-- The script up to the first `quit` or `close`. -/
def untilEnd : List Line → List Line
  | [] => []
  | line :: rest => if line.Ends then [line] else line :: untilEnd rest

/-- What a line asks for, with the given clients connected. -/
def Line.actions (server : Server) (entries : List (IoId × Addr)) (io : IoId) : Line → List Event
  | .keyword .start =>
    [.command (.keyword .start), .printf "call hio_read_start\n" [], .readStart io]
  | .keyword .stop =>
    [.command (.keyword .stop), .printf "call hio_read_stop\n" [], .readStop io]
  | .keyword .close => [.command (.keyword .close), .printf "call hio_close\n" [], .close io]
  | .keyword .quit => [.command (.keyword .quit), .printf "call hloop_stop\n" [], .loopStop]
  | .keyword .ping =>
    .command (.keyword .ping) :: entries.map fun entry => .write entry.1 (text "PING\n")
  | .keyword .list =>
    [.command (.keyword .list), .printf "客户端的FD:\n" []] ++ rows server entries
  | .send word =>
    .command .send :: entries.map fun entry => .write entry.1 (word.bytes ++ [LF])

/-- One read on standard input: the lines it brings, and what the buffer holds behind them. -/
structure Read where
  lines : List Line
  stale : List UInt8
  env : Env

/-- The bytes a read brings. -/
def Read.chunk (read : Read) : List UInt8 := read.lines.flatMap Line.bytes

/-- Standard input is read while the loop runs and its read event is on. -/
def Listening (io : IoId) (server : Server) : Prop :=
  server.running = true ∧ (server.hio io).closed = false ∧ (server.hio io).evRead = true

instance (io : IoId) (server : Server) : Decidable (Listening io server) :=
  inferInstanceAs (Decidable (_ ∧ _))

/-- libhv hands a read to `on_send`, if it still reads. -/
def consoleRead (io : IoId) (server : Server) (read : Read) : Exec Object Server :=
  if Listening io server then
    Prod.fst <$> onSend read.env server io ⟨.readBuffer, read.chunk ++ read.stale⟩
      read.chunk.length
  else
    .ok server

/-- The reads of a session. -/
def consoleRun (io : IoId) (server : Server) (reads : List Read) : Exec Object Server :=
  reads.foldlM (consoleRead io) server

/-- The session did what the script asks for, line by line, up to its end. -/
def Followed (server : Server) (entries : List (IoId × Addr)) (io : IoId) (reads : List Read) :
    Prop :=
  ∃ after, consoleRun io server reads = .ok after ∧
    after.trace = server.trace ++
      (untilEnd (reads.flatMap Read.lines)).flatMap (Line.actions server entries io)

/-! ### Sessions that are followed -/

/-- The state of a session that goes on: the registry is in order, and standard input, which
belongs to no client, is open with nothing left to write. -/
structure Session (server : Server) (entries : List (IoId × Addr)) (io : IoId) : Prop where
  registered : Registered server entries
  connected : Connected server entries
  unlisted : io ∉ entries.map Prod.fst
  closeCb : (server.hio io).closeCb = false
  writeQueue : (server.hio io).writeQueue = []

/-- The lines of a read that `on_send` takes for what they are. The string the buffer starts with
goes on behind the bytes read, up to the first NUL of the old contents. -/
structure Understood (server : Server) (entries : List (IoId × Addr)) (read : Read) (line : Line)
    (more : List Line) (junk tail : List UInt8) : Prop where
  lines : read.lines = line :: more
  stale : read.stale = junk ++ 0 :: tail
  clean : 0 ∉ junk
  fits : (read.chunk ++ read.stale).length = bufsize
  /-- Other lines come in the same read only behind the end of the script. -/
  alone : more ≠ [] → line.Ends
  /-- And neither they nor the old contents have a blank. -/
  oneWord : splitstr ∉ more.flatMap Line.bytes ++ junk
  ping : line = .keyword .ping → entries ≠ [] → junk = [] ∧ ∀ entry ∈ entries,
    ¬ Drops (read.env.write entry.1) (server.hio entry.1) (text "PING\n").length
  /-- The word a `send` cuts out has no terminator, so it can be sent to nobody only. -/
  send : ∀ word, line = .send word → entries = []

/-- Every read of the session comes when the script has ended, or while standard input is read
and is understood. -/
def AllUnderstood (entries : List (IoId × Addr)) (io : IoId) : Server → List Read → Prop
  | _, [] => True
  | server, read :: rest =>
    (server.running = false ∨ (server.hio io).closed = true ∨
      (Listening io server ∧ ∃ line more junk tail,
        Understood server entries read line more junk tail)) ∧
    ∀ next, consoleRead io server read = .ok next → AllUnderstood entries io next rest

section Session

variable {server : Server} {entries : List (IoId × Addr)} {io : IoId}

/-- A session sees of a step what it does to the registry and to standard input. -/
theorem Session.update (session : Session server entries io) (after : Server)
    (heap : after.heap = server.heap) (clients : after.clients = server.clients)
    (others : ∀ other, other ≠ io → after.hio other = server.hio other)
    (userdata : (after.hio io).userdata = (server.hio io).userdata)
    (closeCb : (after.hio io).closeCb = false) (writeQueue : (after.hio io).writeQueue = []) :
    Session after entries io ∧ rows after entries = rows server entries := by
  have listed (entry : IoId × Addr) (member : entry ∈ entries) :
      after.hio entry.1 = server.hio entry.1 :=
    others entry.1 fun same => session.unlisted (same ▸ List.mem_map_of_mem member)
  refine ⟨⟨?_, ?_, session.unlisted, closeCb, writeQueue⟩, ?_⟩
  · refine session.registered.congr ?_ (fun addr => by rw [heap]) fun other => ?_
    · unfold Server.links
      rw [heap, clients]
    · by_cases same : other = io
      · rw [same, userdata]
      · rw [others other same]
  · intro entry member
    rw [listed entry member]
    exact session.connected entry member
  · unfold rows
    refine List.filterMap_congr fun entry member => ?_
    rw [heap, listed entry member]

theorem Session.logAll (session : Session server entries io) (events : List Event) :
    Session (server.logAll events) entries io ∧
      rows (server.logAll events) entries = rows server entries :=
  session.update (server.logAll events) rfl rfl (fun _ _ => rfl) rfl session.closeCb
    session.writeQueue

/-- A keyword's branch does what the keyword asks for. Those that change standard input's own
record do it after their actions are recorded, and leave the clients alone. -/
theorem runKeyword_session (session : Session server entries io)
    (isOpen : (server.hio io).closed = false) (env : Env) (keyword : Keyword) (str : Ptr Object)
    (message : List UInt8) (terminated : cString str.bytes = some message)
    (ping : keyword = .ping → entries ≠ [] → message = text "PING\n" ∧
      ∀ entry ∈ entries, ¬ Drops (env.write entry.1) (server.hio entry.1) message.length) :
    ∃ after, runKeyword env (server.log (.command (.keyword keyword))) io str keyword = .ok after ∧
      after.trace = server.trace ++ (Line.keyword keyword).actions server entries io ∧
      Session after entries io ∧ rows after entries = rows server entries ∧
      (¬ (Line.keyword keyword).Ends → after.running = server.running ∧
        (after.hio io).closed = false ∧
        (keyword ≠ .stop → (server.hio io).evRead = true → (after.hio io).evRead = true)) ∧
      ((Line.keyword keyword).Ends → after.running = false ∨ (after.hio io).closed = true) := by
  have opened : ¬ (server.hio io).closed = true := by simp [isOpen]
  have changed (keyword : Keyword) (change : Hio → Hio)
      (userdata : (change (server.hio io)).userdata = (server.hio io).userdata)
      (closeCb : (change (server.hio io)).closeCb = (server.hio io).closeCb)
      (writeQueue : (change (server.hio io)).writeQueue = []) :=
    session.update
      ((server.logAll ((Line.keyword keyword).actions server entries io)).updateHio io change)
      rfl rfl (fun other different => Function.update_of_ne different _ _)
      ((congrArg Hio.userdata (Function.update_self _ _ _)).trans userdata)
      ((congrArg Hio.closeCb (Function.update_self _ _ _)).trans (closeCb.trans session.closeCb))
      ((congrArg Hio.writeQueue (Function.update_self _ _ _)).trans writeQueue)
  cases keyword with
  | start =>
    obtain ⟨kept, same⟩ := changed .start (fun hio => { hio with evRead := true }) rfl rfl
      session.writeQueue
    refine ⟨_, ?_, rfl, kept, same, fun _ => ⟨rfl, ?_, fun _ _ => ?_⟩, fun ends => absurd ends id⟩
    · rw [runKeyword, Server.log_logAll, hioRead, Server.logAll_hio, if_neg opened]
      rfl
    · rw [Server.updateHio_hio, Function.update_self]
      exact isOpen
    · rw [Server.updateHio_hio, Function.update_self]
  | stop =>
    obtain ⟨kept, same⟩ := changed .stop (fun hio => { hio with evRead := false }) rfl rfl
      session.writeQueue
    refine ⟨_, ?_, rfl, kept, same, fun _ => ⟨rfl, ?_, fun other => absurd rfl other⟩,
      fun ends => absurd ends id⟩
    · rw [runKeyword, Server.log_logAll, hioReadStop]
      rfl
    · rw [Server.updateHio_hio, Function.update_self]
      exact isOpen
  | close =>
    obtain ⟨kept, same⟩ := changed .close (fun hio =>
      { hio with closed := true, evRead := false, evWrite := false, writeQueue := [] }) rfl rfl rfl
    have notPending : ¬ ((server.hio io).writeQueue ≠ [] ∧ (server.hio io).error = 0 ∧
        (server.hio io).close = false) := fun pending => pending.1 session.writeQueue
    have noCallback : ¬ (server.hio io).closeCb = true := by simp [session.closeCb]
    refine ⟨_, ?_, rfl, kept, same, fun goesOn => absurd trivial goesOn, fun _ => Or.inr ?_⟩
    · rw [runKeyword, Server.log_logAll, hioClose, Server.logAll_hio, if_neg opened,
        if_neg notPending, if_neg noCallback]
      rfl
    · rw [Server.updateHio_hio, Function.update_self]
  | quit =>
    obtain ⟨kept, same⟩ := session.update
      { server.logAll ((Line.keyword .quit).actions server entries io) with running := false }
      rfl rfl (fun _ _ => rfl) rfl session.closeCb session.writeQueue
    refine ⟨_, ?_, rfl, kept, same, fun goesOn => absurd trivial goesOn, fun _ => Or.inl rfl⟩
    rw [runKeyword, Server.log_logAll]
    rfl
  | ping =>
    have logged := (session.logAll [.command (.keyword .ping)]).1
    have kept (entry : IoId × Addr) (member : entry ∈ entries) :
        ¬ Drops (env.write entry.1) (server.hio entry.1) message.length :=
      (ping rfl (List.ne_nil_of_mem member)).2 entry member
    obtain ⟨after, sent, quiet, trace, others⟩ := sendStr_kept logged.registered terminated kept
    have untouched : after.hio io = server.hio io := others io session.unlisted
    refine ⟨after, sent, ?_, ⟨quiet.registered logged.registered, quiet.connected logged.connected,
      session.unlisted, ?_, ?_⟩, ?_,
      fun _ => ⟨quiet.running, ?_, fun _ evRead => ?_⟩, fun ends => absurd ends id⟩
    · have wanted : entries.map (fun entry => Event.write entry.1 message) =
          entries.map fun entry => .write entry.1 (text "PING\n") :=
        List.map_congr_left fun entry member => by
          rw [(ping rfl (List.ne_nil_of_mem member)).1]
      rw [trace, wanted, Line.actions, Server.logAll, List.append_assoc]
      rfl
    · rw [untouched, session.closeCb]
    · rw [untouched, session.writeQueue]
    · unfold rows
      simp only [quiet.heap, quiet.fd]
      rfl
    · rw [untouched, isOpen]
    · rw [untouched, evRead]
  | list =>
    obtain ⟨kept, same⟩ := session.logAll ((Line.keyword .list).actions server entries io)
    have logged := (session.logAll [.command (.keyword .list), .printf "客户端的FD:\n" []]).1
    refine ⟨_, ?_, rfl, kept, same, fun _ => ⟨rfl, isOpen, fun _ evRead => evRead⟩,
      fun ends => absurd ends id⟩
    have printing : (server.log (.command (.keyword .list))).log (.printf "客户端的FD:\n" []) =
        server.logAll [.command (.keyword .list), .printf "客户端的FD:\n" []] := by
      simp [Server.log, Server.logAll]
    rw [runKeyword, printing, listFD_registered logged.registered, Server.logAll_logAll]
    rfl

theorem firstWord_keyword (keyword : Keyword) (rest : List UInt8) :
    firstWord keywords (text keyword.name ++ rest) = some keyword := by
  have words : keywords.map (fun word => (text word.1, word.2)) =
      [([115, 116, 97, 114, 116], .start), ([115, 116, 111, 112], .stop),
        ([99, 108, 111, 115, 101], .close), ([113, 117, 105, 116], .quit),
        ([80, 73, 78, 71], .ping), ([108, 105, 115, 116], .list)] := by decide
  unfold firstWord
  rw [words]
  cases keyword with
  | start =>
    rw [show text Keyword.start.name = [115, 116, 97, 114, 116, 10] by decide]
    simp [List.find?]
  | stop =>
    rw [show text Keyword.stop.name = [115, 116, 111, 112, 10] by decide]
    simp [List.find?]
  | close =>
    rw [show text Keyword.close.name = [99, 108, 111, 115, 101, 10] by decide]
    simp [List.find?]
  | quit =>
    rw [show text Keyword.quit.name = [113, 117, 105, 116, 10] by decide]
    simp [List.find?]
  | ping =>
    rw [show text Keyword.ping.name = [80, 73, 78, 71, 10] by decide]
    simp [List.find?]
  | list =>
    rw [show text Keyword.list.name = [108, 105, 115, 116, 10] by decide]
    simp [List.find?]

theorem Keyword.name_plain (keyword : Keyword) :
    (0 : UInt8) ∉ text keyword.name ∧ splitstr ∉ text keyword.name := by
  cases keyword <;> decide

theorem Line.bytes_clean (line : Line) : (0 : UInt8) ∉ line.bytes := by
  cases line with
  | keyword command => exact command.name_plain.1
  | send word =>
    have wordClean : (0 : UInt8) ∉ word.bytes := fun member => (word.plain 0 member).1 rfl
    have sendClean : (0 : UInt8) ∉ text "send" := by decide
    unfold Line.bytes
    simp [wordClean, sendClean, splitstr, LF]

/-- A read that is understood does what its line asks for. -/
theorem consoleRead_understood (session : Session server entries io)
    (listening : Listening io server) (read : Read) (line : Line) (more : List Line)
    (junk tail : List UInt8) (understood : Understood server entries read line more junk tail) :
    ∃ after, consoleRead io server read = .ok after ∧
      after.trace = server.trace ++ line.actions server entries io ∧
      Session after entries io ∧ rows after entries = rows server entries ∧
      (¬ line.Ends → after.running = true ∧ (after.hio io).closed = false ∧
        (line ≠ .keyword .stop → (after.hio io).evRead = true)) ∧
      (line.Ends → after.running = false ∨ (after.hio io).closed = true) := by
  obtain ⟨lines, stale, clean, fits, alone, oneWord, ping, send⟩ := understood
  have moreClean : (0 : UInt8) ∉ more.flatMap Line.bytes := by
    rw [List.mem_flatMap]
    rintro ⟨other, -, member⟩
    exact other.bytes_clean member
  have buffer : read.chunk ++ read.stale =
      (line.bytes ++ (more.flatMap Line.bytes ++ junk)) ++ 0 :: tail := by
    simp [Read.chunk, lines, stale, List.append_assoc]
  have wholeClean : (0 : UInt8) ∉ line.bytes ++ (more.flatMap Line.bytes ++ junk) := by
    simp only [List.mem_append, not_or]
    exact ⟨line.bytes_clean, moreClean, clean⟩
  have short : (line.bytes ++ (more.flatMap Line.bytes ++ junk)).length < bufsize := by
    rw [buffer, List.length_append, List.length_cons] at fits
    omega
  rw [consoleRead, if_pos listening, buffer]
  cases line with
  | keyword command =>
    have nonempty : (Line.keyword command).bytes ++ (more.flatMap Line.bytes ++ junk) ≠ [] := by
      cases command <;> exact List.cons_ne_nil _ _
    have oneWhole : splitstr ∉ (Line.keyword command).bytes ++ (more.flatMap Line.bytes ++ junk) :=
      fun member => (List.mem_append.mp member).elim command.name_plain.2 oneWord
    rw [onSend_one read.env server io _ tail wholeClean nonempty short oneWhole]
    have recognised : firstWord keywords
        ((Line.keyword command).bytes ++ (more.flatMap Line.bytes ++ junk)) = some command :=
      firstWord_keyword command _
    rw [recognised]
    have pinged (isPing : command = .ping) (filled : entries ≠ []) :
        (Line.keyword command).bytes ++ (more.flatMap Line.bytes ++ junk) = text "PING\n" ∧
        ∀ entry ∈ entries, ¬ Drops (read.env.write entry.1) (server.hio entry.1)
          ((Line.keyword command).bytes ++ (more.flatMap Line.bytes ++ junk)).length := by
      subst isPing
      obtain ⟨rfl, taken⟩ := ping rfl filled
      have single : more = [] := by_contra fun others => alone others
      subst single
      rw [List.flatMap_nil, List.append_nil, List.append_nil]
      exact ⟨rfl, taken⟩
    obtain ⟨after, ran, trace, kept, same, goesOn, ends⟩ := runKeyword_session session listening.2.1
      read.env command ⟨.readBuffer, (Line.keyword command).bytes ++
        (more.flatMap Line.bytes ++ junk) ++ 0 :: tail⟩ _ (cString_append_nul _ tail wholeClean)
      pinged
    refine ⟨after, ?_, trace, kept, same, fun still => ?_, ends⟩
    · show Prod.fst <$> (runKeyword _ _ _ _ _ >>= _) = _
      rw [ran]
      rfl
    · obtain ⟨running, stillOpen, reads⟩ := goesOn still
      refine ⟨running.trans listening.1, stillOpen, fun other => ?_⟩
      exact reads (fun isStop => other (congrArg Line.keyword isStop)) listening.2.2
  | send word =>
    have nobody := send word rfl
    have single : more = [] := by_contra fun others => alone others
    subst nobody single
    have split : (Line.send word).bytes ++ (([] : List Line).flatMap Line.bytes ++ junk) =
        text "send" ++ splitstr :: (word.bytes ++ [LF] ++ junk) := by
      simp [Line.bytes]
    have backPlain : splitstr ∉ word.bytes ++ [LF] ++ junk := by
      have wordPlain : splitstr ∉ word.bytes := fun member => (word.plain _ member).2.1 rfl
      rw [List.flatMap_nil, List.nil_append] at oneWord
      simp [wordPlain, oneWord]
      decide
    obtain ⟨kept, same⟩ := session.logAll [.command .send]
    rw [split] at wholeClean short ⊢
    rw [onSend_two read.env server io _ tail _ _ wholeClean short (by decide) backPlain,
      if_pos (List.prefix_refl _)]
    have sent := sendStr_nobody kept.registered read.env.write
      ⟨.splitItem 1, word.bytes ++ [LF] ++ junk⟩
    refine ⟨_, ?_, rfl, kept, same, fun _ => ⟨listening.1, listening.2.1, fun _ => listening.2.2⟩,
      fun ends => absurd ends id⟩
    show Prod.fst <$> (sendStr _ (server.logAll [.command .send]) _ >>= _) = _
    rw [sent]
    rfl

/-- When the script has ended nothing is read any more. -/
theorem consoleRun_ended (reads : List Read)
    (ended : server.running = false ∨ (server.hio io).closed = true) :
    consoleRun io server reads = .ok server := by
  have silent : ¬ Listening io server := by
    rintro ⟨running, isOpen, -⟩
    rcases ended with stopped | closed
    · rw [running] at stopped
      cases stopped
    · rw [isOpen] at closed
      cases closed
  induction reads with
  | nil => rfl
  | cons read rest inductionHypothesis =>
    show consoleRead io server read >>= _ = _
    rw [consoleRead, if_neg silent, ok_bind]
    exact inductionHypothesis

theorem actions_congr {after : Server} (same : rows after entries = rows server entries) :
    Line.actions after entries io = Line.actions server entries io := by
  funext line
  cases line with
  | keyword command => cases command <;> simp only [Line.actions, same]
  | send word => rfl

/-- A session whose reads are all understood does what its script asks for, line by line, up to the
line that ends it.

A read is understood when the string that the buffer starts with is its line and bytes that hold
no blank, a `send` is one to nobody, and a `ping` is refused by no client; lines behind the first
in one read come only at the end of the script. What stands in the buffer behind the bytes read is
given with each read. -/
theorem script_followed (session : Session server entries io) (running : server.running = true)
    (isOpen : (server.hio io).closed = false) (reads : List Read)
    (understood : AllUnderstood entries io server reads) :
    Followed server entries io reads := by
  induction reads generalizing server with
  | nil => exact ⟨server, rfl, by simp [untilEnd]⟩
  | cons read rest inductionHypothesis =>
    obtain ⟨arrives, later⟩ := understood
    rcases arrives with stopped | closed | ⟨listening, line, more, junk, tail, understood⟩
    · rw [running] at stopped
      cases stopped
    · rw [isOpen] at closed
      cases closed
    · obtain ⟨next, ran, trace, kept, same, goesOn, ends⟩ :=
        consoleRead_understood session listening read line more junk tail understood
      have script : (read :: rest).flatMap Read.lines =
          line :: (more ++ rest.flatMap Read.lines) := by
        rw [List.flatMap_cons, understood.lines, List.cons_append]
      by_cases last : line.Ends
      · refine ⟨next, ?_, ?_⟩
        · show consoleRead io server read >>= _ = _
          rw [ran, ok_bind]
          exact consoleRun_ended rest (ends last)
        · rw [script, untilEnd, if_pos last, trace]
          simp
      · have single : more = [] := by_contra fun others => last (understood.alone others)
        obtain ⟨stillRunning, stillOpen, -⟩ := goesOn last
        obtain ⟨after, followed, traceAfter⟩ :=
          inductionHypothesis kept stillRunning stillOpen (later next ran)
        refine ⟨after, ?_, ?_⟩
        · show consoleRead io server read >>= _ = _
          rw [ran, ok_bind]
          exact followed
        · rw [script, single, List.nil_append, untilEnd, if_neg last, List.flatMap_cons, traceAfter,
            trace, actions_congr same, List.append_assoc]

end Session

/-- A read of some lines into a zeroed buffer, in a process whose writes all succeed. -/
def freshRead (lines : List Line) : Read where
  lines := lines
  stale := List.replicate (bufsize - (lines.flatMap Line.bytes).length) 0
  env := { junk := fun _ _ => 0, write := fun _ => .wrote bufsize }

theorem init_session : Session Server.init [] 0 where
  registered := (run_registered (.init .init (fun _ => rfl) rfl rfl)).1
  connected _ member := absurd member List.not_mem_nil
  unlisted := List.not_mem_nil
  closeCb := rfl
  writeQueue := rfl

/-- A read of one line that does not end the script, with others behind it. -/
theorem allUnderstood_cons {server : Server} {entries : List (IoId × Addr)} {io : IoId}
    {read : Read} {rest : List Read} {line : Line} {more : List Line} {junk tail : List UInt8}
    (session : Session server entries io) (listening : Listening io server)
    (understood : Understood server entries read line more junk tail)
    (goesOn : ¬ line.Ends) (stays : line ≠ .keyword .stop)
    (later : ∀ next, Session next entries io → Listening io next →
      AllUnderstood entries io next rest) :
    AllUnderstood entries io server (read :: rest) := by
  refine ⟨.inr (.inr ⟨listening, line, more, junk, tail, understood⟩), fun next ran => ?_⟩
  obtain ⟨after, same, -, kept, -, still, -⟩ :=
    consoleRead_understood session listening read line more junk tail understood
  cases same.symm.trans ran
  obtain ⟨running, isOpen, reads⟩ := still goesOn
  exact later next kept ⟨running, isOpen, reads stays⟩

theorem oneClient_session : Session oneClient [(5, 100)] 0 where
  registered := oneClient_registered
  connected := oneClient_connected
  unlisted := by decide
  closeCb := rfl
  writeQueue := rfl

/-- A keyword in a buffer that holds the end of the line before it. -/
def shorterRead (command : Keyword) : Read where
  lines := [.keyword command]
  stale := [LF] ++ 0 :: List.replicate (bufsize - 7) 0
  env := { junk := fun _ _ => 0, write := fun _ => .wrote bufsize }

theorem freshRead_start (server : Server) (entries : List (IoId × Addr)) :
    Understood server entries (freshRead [.keyword .start]) (.keyword .start) [] []
      (List.replicate (bufsize - 7) 0) where
  lines := rfl
  stale := List.replicate_succ
  clean := List.not_mem_nil
  fits := by
    show (text Keyword.start.name ++ [] ++ List.replicate (bufsize - 6) 0).length = bufsize
    rw [List.append_nil, List.length_append, List.length_replicate]
    rfl
  alone := fun others => absurd rfl others
  oneWord := List.not_mem_nil
  ping := fun isPing => by cases isPing
  send := fun _ isSend => by cases isSend

theorem shorterRead_understood (server : Server) (entries : List (IoId × Addr))
    {command : Keyword} (other : command ≠ .ping) (length : (text command.name).length = 5) :
    Understood server entries (shorterRead command) (.keyword command) [] [LF]
      (List.replicate (bufsize - 7) 0) where
  lines := rfl
  stale := rfl
  clean := by decide
  fits := by
    show (text command.name ++ [] ++ ([LF] ++ 0 :: List.replicate (bufsize - 7) 0)).length = bufsize
    rw [List.append_nil, List.length_append, length, List.singleton_append, List.length_cons,
      List.length_cons, List.length_replicate]
    rfl
  alone := fun others => absurd rfl others
  oneWord := by decide
  ping := fun isPing => absurd (Line.keyword.inj isPing) other
  send := fun _ isSend => by cases isSend

/-- Three reads with a client connected: `start`, and then `list` and `quit`, which leave the last
byte of `start` in the buffer. -/
theorem script_followed_three_reads :
    Followed oneClient [(5, 100)] 0
      [freshRead [.keyword .start], shorterRead .list, shorterRead .quit] :=
  script_followed oneClient_session rfl rfl _
    (allUnderstood_cons oneClient_session (by decide) (freshRead_start _ _) id (by simp)
      fun _ session listening =>
        allUnderstood_cons session listening (shorterRead_understood _ _ (by decide) rfl) id
          (by simp) fun _ _ listening =>
            ⟨.inr (.inr ⟨listening, _, _, _, _, shorterRead_understood _ _ (by decide) rfl⟩),
              fun _ _ => trivial⟩)

/-- What a string that starts with `list` makes `on_send` do. -/
theorem onSend_list {server : Server} {entries : List (IoId × Addr)}
    (registered : Registered server entries) (env : Env) (io : IoId) (readbytes : Nat)
    {line : List UInt8} (tail : List UInt8) (clean : 0 ∉ line) (nonempty : line ≠ [])
    (short : line.length < bufsize) (oneWord : splitstr ∉ line)
    (isList : firstWord keywords line = some .list) :
    Prod.fst <$> onSend env server io ⟨.readBuffer, line ++ 0 :: tail⟩ readbytes =
      .ok (server.logAll
        ([.command (.keyword .list), .printf "客户端的FD:\n" []] ++ rows server entries)) := by
  have headed : Registered
      (server.logAll [.command (.keyword .list), .printf "客户端的FD:\n" []]) entries :=
    registered.congr rfl (fun _ => rfl) (fun _ => rfl)
  have listed := listFD_registered headed
  rw [onSend_one env server io readbytes tail clean nonempty short oneWord, isList]
  dsimp only
  rw [runKeyword, Server.log, Server.log]
  rw [Server.logAll] at listed
  dsimp only at listed ⊢
  rw [List.append_assoc, List.singleton_append, listed]
  show Except.ok (Server.logAll (Server.logAll _ _) _) = _
  rw [Server.logAll_logAll]
  rfl

/-- Two lines in one read: the second is lost. -/
theorem script_two_lines_one_read :
    ¬ Followed Server.init [] 0 [freshRead [.keyword .list, .keyword .list]] := by
  rintro ⟨after, ran, trace⟩
  have buffer : (freshRead [.keyword .list, .keyword .list]).chunk ++
      (freshRead [.keyword .list, .keyword .list]).stale =
      text "list\nlist\n" ++ 0 :: List.replicate (bufsize - 11) 0 :=
    congrArg (text "list\nlist\n" ++ ·) List.replicate_succ
  have listedOnce := onSend_list init_session.registered
    (freshRead [.keyword .list, .keyword .list]).env 0 10 (List.replicate (bufsize - 11) 0)
    (by decide : (0 : UInt8) ∉ text "list\nlist\n") (by decide) (by decide) (by decide)
    (firstWord_keyword .list (text "list\n"))
  have once : consoleRun 0 Server.init [freshRead [.keyword .list, .keyword .list]] =
      .ok (Server.init.logAll [.command (.keyword .list), .printf "客户端的FD:\n" []]) := by
    show consoleRead 0 Server.init _ >>= pure = _
    rw [consoleRead, if_pos (by decide), buffer]
    show (Prod.fst <$> onSend _ Server.init 0 _ 10) >>= pure = _
    rw [listedOnce]
    rfl
  rw [once] at ran
  cases ran
  revert trace
  decide

end Netmt
