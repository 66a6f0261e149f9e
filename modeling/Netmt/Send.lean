/-
This file relates `send` on the server's console to what the clients get.

A text with a blank makes the line one of three words or more, which is written
back to the console. A text without one is cut out of the line as the second item
of `strsplit`, and that item has no terminator where `SendStr` looks for it. So
`send` delivers only where there is nobody to deliver to.
-/
import Netmt.Stale

namespace Netmt

open CMem

/-! ### What is written -/

/-- The calls of `hio_write`: each connection, with its bytes. -/
def writes (events : List Event) : List (IoId × List UInt8) :=
  events.filterMap fun event =>
    match event with
    | .write io bytes => some (io, bytes)
    | _ => none

/-- The ends of a line. -/
def lineEnds : List (List UInt8) := [[LF], [CR], [CR, LF]]

/-- The line of an operator, as it is typed. -/
def sendLine (message lineEnd : List UInt8) : List UInt8 :=
  text "send" ++ splitstr :: (message ++ lineEnd)

/-- The line makes the server write the message with its line end once to every client, and nothing
else. -/
def SendDelivers (env : Env) (server : Server) (entries : List (IoId × Addr)) (io : IoId)
    (message lineEnd : List UInt8) : Prop :=
  ∃ after events,
    Prod.fst <$> onSend env server io (zeroed (sendLine message lineEnd))
      (sendLine message lineEnd).length = .ok after ∧
    after.trace = server.trace ++ events ∧
    (writes events).Perm (entries.map fun entry => (entry.1, message ++ lineEnd))

theorem lineEnds_plain : ∀ lineEnd ∈ lineEnds, 0 ∉ lineEnd ∧ splitstr ∉ lineEnd := by
  decide

theorem length_le_crlfBytes (chunk : List UInt8) : chunk.length ≤ (crlfBytes chunk).length := by
  unfold crlfBytes
  split
  · simp only [List.length_append, List.length_dropLast, List.length_cons, List.length_nil]
    omega
  · exact Nat.le_refl _

theorem Registered.log {server : Server} {entries : List (IoId × Addr)}
    (registered : Registered server entries) (event : Event) :
    Registered (server.log event) entries :=
  registered.congr rfl (fun _ => rfl) fun _ => rfl

/-- A string without a terminator stops the loop of `SendStr` at the first client. -/
theorem sendStr_unterminated {server : Server} {entries : List (IoId × Addr)}
    (registered : Registered server entries) (some_client : entries ≠ [])
    (os : IoId → WriteResult) (object : Object) (bytes : List UInt8) (clean : 0 ∉ bytes) :
    sendStr os server ⟨object, bytes⟩ = .error (.outOfBounds object) := by
  have faults (entry : IoId × Addr) (member : entry ∈ entries) :
      sendOne os ⟨object, bytes⟩ server (.conn entry.2) = .error (.outOfBounds object) := by
    obtain ⟨conn, found, -⟩ := registered.listEntry member
    rw [sendOne, found, ok_bind, strlen_unterminated object bytes clean, error_bind]
  have walked := listForEach_eq_foldlM id (sendOne os ⟨object, bytes⟩) registered.ring
    (fun state (same : state = server) => same ▸ registered.steady)
    (fun state node after member same ran => by
      obtain ⟨entry, listed, rfl⟩ := List.mem_map.mp member
      rw [same, faults entry listed] at ran
      cases ran) server rfl rfl registered.length_le
  obtain ⟨first, rest, rfl⟩ := List.exists_cons_of_ne_nil some_client
  rw [sendStr, walked, List.map_cons, List.foldlM_cons, faults first List.mem_cons_self, error_bind]

section Send

variable (env : Env) {server : Server} {entries : List (IoId × Addr)} (io : IoId)
  {message lineEnd : List UInt8}

theorem sendLine_clean (clean : 0 ∉ message) (ends : lineEnd ∈ lineEnds) :
    0 ∉ sendLine message lineEnd := by
  have plain := (lineEnds_plain lineEnd ends).1
  unfold sendLine
  simp only [List.mem_append, List.mem_cons, not_or]
  exact ⟨by decide, by decide, clean, plain⟩

theorem sendLine_ne_nil (message lineEnd : List UInt8) : sendLine message lineEnd ≠ [] := by
  simp [sendLine]

/-- A short line has a terminator behind it in a zeroed buffer. -/
theorem zeroed_short {chunk : List UInt8} (short : chunk.length < bufsize) :
    ∃ tail, zeroed chunk = ⟨.readBuffer, chunk ++ 0 :: tail⟩ := by
  refine ⟨List.replicate (bufsize - chunk.length - 1) 0, ?_⟩
  rw [zeroed, ← List.replicate_succ, Nat.sub_add_cancel (Nat.sub_pos_of_lt short)]

/-- A line that fills the buffer is read past its end. -/
theorem onSend_full (clean : 0 ∉ message) (ends : lineEnd ∈ lineEnds)
    (full : (sendLine message lineEnd).length = bufsize) :
    onSend env server io (zeroed (sendLine message lineEnd)) (sendLine message lineEnd).length =
      .error (.outOfBounds .readBuffer) := by
  rw [zeroed, full, Nat.sub_self, List.replicate_zero, List.append_nil, onSend,
    commandNum_unterminated .readBuffer _ splitstr (sendLine_clean clean ends), error_bind]

/-- A message with a blank is written back with the whole line. -/
theorem onSend_blank (clean : 0 ∉ message) (ends : lineEnd ∈ lineEnds)
    (short : (sendLine message lineEnd).length < bufsize) (blank : splitstr ∈ message) :
    Prod.fst <$> onSend env server io (zeroed (sendLine message lineEnd))
        (sendLine message lineEnd).length =
      hioWrite (env.write io) server io (crlfBytes (sendLine message lineEnd)) := by
  obtain ⟨tail, bytes⟩ := zeroed_short short
  have many : 2 ≤ (sendLine message lineEnd).count splitstr := by
    have more := List.count_pos_iff.mpr blank
    rw [sendLine, List.count_append, List.count_cons_self, List.count_append]
    omega
  rw [bytes, onSend_many env server io _ (0 :: tail) tail (sendLine_clean clean ends)
    (sendLine_ne_nil _ _) short rfl (sendLine_ne_nil _ _) many, if_neg (by simp)]

/-- A message without a blank is sent as the string that its item starts. -/
theorem onSend_word (clean : 0 ∉ message) (ends : lineEnd ∈ lineEnds)
    (short : (sendLine message lineEnd).length < bufsize) (oneWord : splitstr ∉ message) :
    Prod.fst <$> onSend env server io (zeroed (sendLine message lineEnd))
        (sendLine message lineEnd).length =
      sendStr env.write (server.log (.command .send)) ⟨.splitItem 1, message ++ lineEnd⟩ := by
  obtain ⟨tail, bytes⟩ := zeroed_short short
  have oneBack : splitstr ∉ message ++ lineEnd := by
    rw [List.mem_append, not_or]
    exact ⟨oneWord, (lineEnds_plain lineEnd ends).2⟩
  have sent := onSend_two env server io (sendLine message lineEnd).length tail (text "send")
    (message ++ lineEnd) (sendLine_clean clean ends) short (by decide) oneBack
  rw [if_pos (List.prefix_refl _)] at sent
  rw [bytes]
  exact (congrArg (Prod.fst <$> ·) sent).trans (fst_bind_pair _ _)

/-- `send` delivers its text exactly when the line is shorter than the read buffer, the text has no
blank, and no client is connected.

A line as long as the buffer leaves no terminator behind it; a text with a blank makes a third
word, and the line is echoed instead of sent; and the word that is cut out of the line has no
terminator, so it can be sent to nobody only. -/
theorem send_delivers_iff (registered : Registered server entries)
    (connected : Connected server entries) (clean : 0 ∉ message) (ends : lineEnd ∈ lineEnds)
    (fits : (sendLine message lineEnd).length ≤ bufsize) :
    SendDelivers env server entries io message lineEnd ↔
      (sendLine message lineEnd).length < bufsize ∧ splitstr ∉ message ∧ entries = [] := by
  constructor
  · rintro ⟨after, events, ran, trace, delivered⟩
    rcases Nat.lt_or_eq_of_le fits with short | full
    · refine ⟨short, ?_⟩
      by_cases blank : splitstr ∈ message
      · rw [onSend_blank env io clean ends short blank] at ran
        obtain ⟨echoed, -, diagnostics, written, -, -, echoTrace, -⟩ := hioWrite_registered
          registered connected (env.write io) io (crlfBytes (sendLine message lineEnd))
        rw [written] at ran
        cases ran
        rw [echoTrace, List.append_cancel_left_eq] at trace
        subst trace
        obtain ⟨entry, -, same⟩ := List.mem_map.mp (delivered.subset List.mem_cons_self)
        have lengths := length_le_crlfBytes (sendLine message lineEnd)
        rw [← (Prod.mk.inj same).2, sendLine, List.length_append, List.length_cons] at lengths
        omega
      · refine ⟨blank, ?_⟩
        by_contra some_client
        have unterminated : 0 ∉ message ++ lineEnd := by
          rw [List.mem_append, not_or]
          exact ⟨clean, (lineEnds_plain lineEnd ends).1⟩
        rw [onSend_word env io clean ends short blank, sendStr_unterminated
          (registered.log (.command .send)) some_client env.write _ _ unterminated] at ran
        cases ran
    · rw [onSend_full env io clean ends full, map_error] at ran
      cases ran
  · rintro ⟨short, oneWord, rfl⟩
    refine ⟨server.log (.command .send), [.command .send], ?_, rfl, List.Perm.refl _⟩
    rw [onSend_word env io clean ends short oneWord,
      sendStr_nobody (registered.log (.command .send)) env.write _]

end Send

/-- Without clients there is nothing to do. -/
theorem send_delivers_iff_nobody :
    SendDelivers ⟨fun _ _ => 0, fun _ => .again⟩ Server.init [] 0 (text "hi") [LF] :=
  (send_delivers_iff ⟨fun _ _ => 0, fun _ => .again⟩ 0 init_session.registered
    init_session.connected (by decide) (by decide) (by decide)).mpr (by decide)

/-- Two words for one client, who would take them: the line goes back to the console. -/
theorem send_two_words :
    Registered oneClient [(5, 100)] ∧ Connected oneClient [(5, 100)] ∧
      ¬ SendDelivers ⟨fun _ _ => 0, fun _ => .wrote 100⟩ oneClient [(5, 100)] 0
        (text "hi there") [LF] := by
  refine ⟨oneClient_registered, oneClient_connected, ?_⟩
  rintro ⟨after, events, ran, trace, delivered⟩
  rw [onSend_blank _ 0 (by decide) (by decide) (by decide) (by decide)] at ran
  have echoed : hioWrite (.wrote 100) oneClient 0 (crlfBytes (sendLine (text "hi there") [LF])) =
      .ok (oneClient.log (.write 0 (text "send hi there\r\n"))) := by
    rfl
  rw [echoed] at ran
  cases ran
  rw [Server.log_trace, List.append_cancel_left_eq] at trace
  subst trace
  exact absurd delivered (by decide)

end Netmt
