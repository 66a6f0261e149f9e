/-
This file models `my_ftp`, which reads commands from standard input and makes
FTP calls.

`scanf("%s")` reads words and does not see line ends, and how many words an
iteration takes depends on what the first of them begins with. A raw command
always takes a parameter, so one that is typed without any takes the first word
of the next line. At the end of the input `scanf` leaves the arrays alone, and
the last command is carried out again, for as long as it does not end the loop.

The loop over arrays and bytes is refined to one over strings and words, on which
the results are proved.
-/
import Netmt.Lib.Words
import Netmt.Vim

namespace Netmt

open CMem Words

/-! ### The commands -/

/-- The arrays of `my_ftp` and `ftp_exec`. -/
inductive FtpObject where
  | cmd
  | param1
  | param2
  | buf
  | literal
  deriving DecidableEq, Repr

/-- What an iteration does: the text or the FTP call with its parameters, the line that is sent for
a raw command, or the end of the loop. -/
inductive FtpAction where
  | help
  | login (username password : List UInt8)
  | upload (localfile remotefile : List UInt8)
  | download (remotefile localfile : List UInt8)
  | exec (request : List UInt8)
  | quit
  deriving DecidableEq, Repr

/-- `scanf("%s", target)`: the array and what is left of the input. At the end of the input the
array keeps its bytes. -/
def scanfStr {Object : Type} (target : Ptr Object) (stdin : List UInt8) :
    Exec Object (Ptr Object × List UInt8) :=
  match stdin.dropWhile (isSpace ·) with
  | [] => .ok (target, [])
  | first :: rest =>
    let word := (first :: rest).takeWhile (!isSpace ·)
    if word.length < target.bytes.length then
      .ok ({ target with bytes := word ++ 0 :: target.bytes.drop (word.length + 1) },
        (first :: rest).dropWhile (!isSpace ·))
    else .error (.outOfBounds target.object)

/-- The line `ftp_exec` formats for a command and its parameter. -/
def ftpLine (cmd param : List UInt8) : List UInt8 :=
  if param = [] then cmd ++ [CR, LF] else cmd ++ text " " ++ param ++ [CR, LF]

/-- `ftp_exec`: what it sends. `snprintf` fills `char buf[1024]`, and `send` is given the length
the whole line would have. -/
def ftpExec (cmd param : List UInt8) : Exec FtpObject (List UInt8) :=
  let line := ftpLine cmd param
  let buf := line.take 1023 ++ [0]
  if line.length ≤ buf.length then .ok (buf.take line.length) else .error (.outOfBounds .buf)

/-! ### The loop -/

/-- The state of the loop: what is left of standard input, the three arrays, the number of
iterations so far, and what they did. -/
structure Ftp where
  stdin : List UInt8
  cmd : List UInt8
  param1 : List UInt8
  param2 : List UInt8
  calls : Nat
  performed : List FtpAction

/-- An iteration that does this, and then leaves the loop or not. -/
def Ftp.perform (ftp : Ftp) (action : FtpAction) (left : Bool) :
    Loop.Next Ftp (List FtpAction) :=
  if left then .leave (ftp.performed ++ [action])
  else .again { ftp with calls := ftp.calls + 1, performed := ftp.performed ++ [action] }

/-- The branches of `login`, `upload` and `download`: two parameters, a call, and the end of the
loop when that returns something else than `0`. -/
def ftpTransfer (answers : Nat → Int) (action : List UInt8 → List UInt8 → FtpAction) (ftp : Ftp) :
    Exec FtpObject (Loop.Next Ftp (List FtpAction)) := do
  let (param1, stdin) ← scanfStr ⟨.param1, ftp.param1⟩ ftp.stdin
  let (param2, stdin) ← scanfStr ⟨.param2, ftp.param2⟩ stdin
  let first ← printfStr param1
  let second ← printfStr param2
  let ftp := { ftp with stdin, param1 := param1.bytes, param2 := param2.bytes }
  .ok (ftp.perform (action first second) (answers ftp.calls ≠ 0))

/-- The branch of any other command. -/
def ftpRaw (ftp : Ftp) : Exec FtpObject (Loop.Next Ftp (List FtpAction)) := do
  let (param1, stdin) ← scanfStr ⟨.param1, ftp.param1⟩ ftp.stdin
  let cmd ← printfStr (⟨.cmd, ftp.cmd⟩ : Ptr FtpObject)
  let param ← printfStr param1
  let request ← ftpExec cmd param
  let ftp := { ftp with stdin, param1 := param1.bytes }
  .ok (ftp.perform (.exec request) false)

/-- A string literal of `my_ftp`. -/
def ftpLiteral (characters : String) : Ptr FtpObject := ⟨.literal, text characters ++ [0]⟩

/-- The body of the loop of `my_ftp`; `answers` is what the FTP call of each iteration returns. -/
def ftpBody (answers : Nat → Int) (ftp : Ftp) :
    Exec FtpObject (Loop.Next Ftp (List FtpAction)) := do
  let (cmd, stdin) ← scanfStr ⟨.cmd, ftp.cmd⟩ ftp.stdin
  let ftp := { ftp with stdin, cmd := cmd.bytes }
  if ← strncmpEq cmd (ftpLiteral "help") 4 then .ok (ftp.perform .help false)
  else if ← strncmpEq cmd (ftpLiteral "login") 5 then ftpTransfer answers .login ftp
  else if ← strncmpEq cmd (ftpLiteral "upload") 6 then ftpTransfer answers .upload ftp
  else if ← strncmpEq cmd (ftpLiteral "download") 8 then ftpTransfer answers .download ftp
  else if ← strncmpEq cmd (ftpLiteral "quit") 4 then .ok (ftp.perform .quit true)
  else ftpRaw ftp

/-- `char cmd[256] = {0}` and the other two arrays. -/
def ftpStart (stdin : List UInt8) : Ftp where
  stdin
  cmd := List.replicate 256 0
  param1 := List.replicate 256 0
  param2 := List.replicate 256 0
  calls := 0
  performed := []

/-- How `my_ftp` ends. -/
inductive FtpResult where
  | usage
  | connectFailed (ret : Int)
  | quit (performed : List FtpAction)
  deriving DecidableEq, Repr

/-- `FTP_COMMAND_PORT`, or the port on the command line. -/
def ftpPort : List (List UInt8) → Int
  | [] => 21
  | port :: _ => atoi port

/-- `my_ftp`, when its loop takes at most so many iterations. -/
def myFtp (connect : List UInt8 → Int → Int) (answers : Nat → Int) (bound : Nat)
    (stdin : List UInt8) : List (List UInt8) → Exec FtpObject (Option FtpResult)
  | _ :: host :: rest =>
    let ret := connect host (ftpPort rest)
    if ret ≠ 0 then .ok (some (.connectFailed ret))
    else Option.map .quit <$> Loop.run (ftpBody answers) bound (ftpStart stdin)
  | _ => .ok (some .usage)

/-! ### The loop over words -/

/-- A string in an array of 256 characters. -/
structure FtpString where
  bytes : List UInt8
  short : bytes.length < 256
  deriving DecidableEq

/-- What the array reads as in a call: its bytes up to the first NUL. -/
def FtpString.param (string : FtpString) : List UInt8 := string.bytes.takeWhile (· ≠ 0)

/-- The state of the loop, without the bytes behind the strings and the blanks between the words. -/
structure FtpWords where
  words : List (List UInt8)
  cmd : FtpString
  param1 : FtpString
  param2 : FtpString
  calls : Nat
  performed : List FtpAction

/-- An iteration that does this, and then leaves the loop or not. -/
def FtpWords.perform (ftp : FtpWords) (action : FtpAction) (left : Bool) :
    Loop.Next FtpWords (List FtpAction) :=
  if left then .leave (ftp.performed ++ [action])
  else .again { ftp with calls := ftp.calls + 1, performed := ftp.performed ++ [action] }

/-- The next word goes into an array; with no word left the array keeps its string. -/
def takeWord (object : FtpObject) (old : FtpString) :
    List (List UInt8) → Exec FtpObject (FtpString × List (List UInt8))
  | [] => .ok (old, [])
  | word :: rest =>
    if short : word.length < 256 then .ok (⟨word, short⟩, rest) else .error (.outOfBounds object)

/-- The branches of the loop. -/
inductive FtpCommand where
  | help
  | login
  | upload
  | download
  | quit
  | raw
  deriving DecidableEq, Repr

/-- The branch a command takes: which keyword it begins with. -/
def ftpCommand (word : List UInt8) : FtpCommand :=
  if text "help" <+: word then .help
  else if text "login" <+: word then .login
  else if text "upload" <+: word then .upload
  else if text "download" <+: word then .download
  else if text "quit" <+: word then .quit
  else .raw

/-- The branches of `login`, `upload` and `download` on words. -/
def FtpWords.transfer (answers : Nat → Int) (action : List UInt8 → List UInt8 → FtpAction)
    (ftp : FtpWords) : Exec FtpObject (Loop.Next FtpWords (List FtpAction)) := do
  let (param1, words) ← takeWord .param1 ftp.param1 ftp.words
  let (param2, words) ← takeWord .param2 ftp.param2 words
  let ftp := { ftp with words, param1, param2 }
  .ok (ftp.perform (action param1.param param2.param) (answers ftp.calls ≠ 0))

/-- The branch of a raw command on words. -/
def FtpWords.raw (ftp : FtpWords) : Exec FtpObject (Loop.Next FtpWords (List FtpAction)) := do
  let (param1, words) ← takeWord .param1 ftp.param1 ftp.words
  let ftp := { ftp with words, param1 }
  .ok (ftp.perform (.exec (ftpLine ftp.cmd.param param1.param)) false)

/-- The branch of a command that was read, on words. -/
def FtpWords.branch (answers : Nat → Int) (ftp : FtpWords) :
    Exec FtpObject (Loop.Next FtpWords (List FtpAction)) :=
  match ftpCommand ftp.cmd.bytes with
  | .help => .ok (ftp.perform .help false)
  | .login => ftp.transfer answers .login
  | .upload => ftp.transfer answers .upload
  | .download => ftp.transfer answers .download
  | .quit => .ok (ftp.perform .quit true)
  | .raw => ftp.raw

/-- The body of the loop on words. -/
def FtpWords.body (answers : Nat → Int) (ftp : FtpWords) :
    Exec FtpObject (Loop.Next FtpWords (List FtpAction)) := do
  let (cmd, words) ← takeWord .cmd ftp.cmd ftp.words
  FtpWords.branch answers { ftp with words, cmd }

/-- The empty string, which is what the zeroed arrays hold. -/
def emptyString : FtpString := ⟨[], by decide⟩

def wordsStart (words : List (List UInt8)) : FtpWords where
  words
  cmd := emptyString
  param1 := emptyString
  param2 := emptyString
  calls := 0
  performed := []

/-! ### The loop over words abstracts the loop over arrays -/

/-- The array holds the string. -/
def FtpArray (array : List UInt8) (string : FtpString) : Prop :=
  array.length = 256 ∧ ∃ tail, array = string.bytes ++ 0 :: tail

/-- The state over words is what the state over arrays stands for. -/
structure Represents (ftp : Ftp) (asWords : FtpWords) : Prop where
  input : words isSpace ftp.stdin = asWords.words
  cmd : FtpArray ftp.cmd asWords.cmd
  param1 : FtpArray ftp.param1 asWords.param1
  param2 : FtpArray ftp.param2 asWords.param2
  calls : ftp.calls = asWords.calls
  performed : ftp.performed = asWords.performed

theorem printfStr_array (object : FtpObject) (array : List UInt8) (string : FtpString)
    (holds : FtpArray array string) : printfStr ⟨object, array⟩ = .ok string.param := by
  obtain ⟨-, tail, rfl⟩ := holds
  exact printfStr_append_nul object string.bytes tail

theorem strncmpEq_array (array : List UInt8) (string : FtpString) (holds : FtpArray array string)
    (characters : String) (clean : 0 ∉ text characters) :
    strncmpEq ⟨.cmd, array⟩ (ftpLiteral characters) (text characters).length =
      .ok (decide (text characters <+: string.bytes)) := by
  obtain ⟨-, tail, rfl⟩ := holds
  exact strncmpEq_word_of_nul _ (ftpLiteral characters) (text characters) [] clean rfl string.bytes
    tail rfl

/-- `scanf` takes the next word, and both versions fault on the same words. -/
theorem scanfStr_eq (object : FtpObject) (array stdin : List UInt8) (old : FtpString)
    (holds : FtpArray array old) :
    (∃ fault, takeWord object old (words isSpace stdin) = .error fault ∧
        scanfStr ⟨object, array⟩ stdin = .error fault) ∨
      ∃ string rest filled left,
        takeWord object old (words isSpace stdin) = .ok (string, rest) ∧
        scanfStr ⟨object, array⟩ stdin = .ok (⟨object, filled⟩, left) ∧
        FtpArray filled string ∧ words isSpace left = rest := by
  by_cases drained : stdin.dropWhile (isSpace ·) = []
  · refine Or.inr ⟨old, [], array, [], ?_, ?_, holds, rfl⟩
    · rw [(words_eq_nil_iff isSpace stdin).mpr drained, takeWord]
    · rw [scanfStr, drained]
  · rw [words_eq isSpace stdin drained, takeWord, behind]
    cases start : stdin.dropWhile (isSpace ·) with
    | nil => exact absurd start drained
    | cons first rest =>
      rw [scanfStr, start]
      simp only []
      rw [holds.1]
      by_cases short : ((first :: rest).takeWhile (!isSpace ·)).length < 256
      · refine Or.inr ⟨⟨_, short⟩, _, _, _, dif_pos short, if_pos short, ⟨?_, _, rfl⟩, rfl⟩
        rw [List.length_append, List.length_cons, List.length_drop, holds.1]
        omega
      · exact Or.inl ⟨.outOfBounds object, dif_neg short, if_neg short⟩

theorem length_param_le (string : FtpString) : string.param.length ≤ 255 :=
  (List.takeWhile_sublist _).length_le.trans (Nat.le_of_lt_succ string.short)

/-- Two strings of the arrays always fit into the line. -/
theorem ftpExec_eq (cmd param : FtpString) :
    ftpExec cmd.param param.param = .ok (ftpLine cmd.param param.param) := by
  have short : (ftpLine cmd.param param.param).length ≤ 1023 := by
    have first := length_param_le cmd
    have second := length_param_le param
    have blank : (text " ").length = 1 := rfl
    rw [ftpLine]
    split <;> simp only [List.length_append, List.length_cons, List.length_nil, blank] <;> omega
  have fits : (ftpLine cmd.param param.param).length ≤
      ((ftpLine cmd.param param.param).take 1023 ++ [0]).length := by
    rw [List.take_of_length_le short, List.length_append]
    exact Nat.le_add_right _ _
  rw [ftpExec, if_pos fits, List.take_of_length_le short, List.take_left' rfl]

theorem Represents.perform {ftp : Ftp} {asWords : FtpWords} (represents : Represents ftp asWords)
    (action : FtpAction) (left : Bool) :
    Loop.Matches Represents (.ok (ftp.perform action left) : Exec FtpObject _)
      (.ok (asWords.perform action left)) := by
  cases left with
  | true => exact congrArg (· ++ [action]) represents.performed
  | false =>
    exact
      { represents with
        calls := congrArg (· + 1) represents.calls
        performed := congrArg (· ++ [action]) represents.performed }

theorem Represents.transfer {ftp : Ftp} {asWords : FtpWords} (represents : Represents ftp asWords)
    (answers : Nat → Int) (action : List UInt8 → List UInt8 → FtpAction) :
    Loop.Matches Represents (ftpTransfer answers action ftp) (asWords.transfer answers action) := by
  rw [ftpTransfer, FtpWords.transfer, ← represents.input]
  rcases scanfStr_eq .param1 ftp.param1 ftp.stdin asWords.param1 represents.param1 with
    ⟨fault, takes, scans⟩ | ⟨first, rest, param1, stdin, takes, scans, holds1, left⟩
  · rw [takes, scans]
    trivial
  · rw [takes, scans, ok_bind, ok_bind]
    simp only []
    rw [← left]
    rcases scanfStr_eq .param2 ftp.param2 stdin asWords.param2 represents.param2 with
      ⟨fault, takes, scans⟩ | ⟨second, rest, param2, stdin, takes, scans, holds2, left⟩
    · rw [takes, scans]
      trivial
    · rw [takes, scans, ok_bind, ok_bind]
      simp only []
      rw [printfStr_array .param1 param1 first holds1, ok_bind,
        printfStr_array .param2 param2 second holds2, ok_bind, congrArg answers represents.calls]
      have read : Represents { ftp with stdin, param1, param2 }
          { asWords with words := rest, param1 := first, param2 := second } :=
        { represents with input := left, param1 := holds1, param2 := holds2 }
      exact read.perform _ _

theorem Represents.raw {ftp : Ftp} {asWords : FtpWords} (represents : Represents ftp asWords) :
    Loop.Matches Represents (ftpRaw ftp) asWords.raw := by
  rw [ftpRaw, FtpWords.raw, ← represents.input]
  rcases scanfStr_eq .param1 ftp.param1 ftp.stdin asWords.param1 represents.param1 with
    ⟨fault, takes, scans⟩ | ⟨first, rest, param1, stdin, takes, scans, holds1, left⟩
  · rw [takes, scans]
    trivial
  · rw [takes, scans, ok_bind, ok_bind]
    simp only []
    rw [printfStr_array .cmd ftp.cmd asWords.cmd represents.cmd, ok_bind,
      printfStr_array .param1 param1 first holds1, ok_bind, ftpExec_eq, ok_bind]
    have read : Represents { ftp with stdin, param1 }
        { asWords with words := rest, param1 := first } :=
      { represents with input := left, param1 := holds1 }
    exact read.perform _ _

/-- The chain of comparisons is the choice of a branch. -/
theorem ftpBody_matches (answers : Nat → Int) (ftp : Ftp) (asWords : FtpWords)
    (represents : Represents ftp asWords) :
    Loop.Matches Represents (ftpBody answers ftp) (asWords.body answers) := by
  rw [ftpBody, FtpWords.body, ← represents.input]
  rcases scanfStr_eq .cmd ftp.cmd ftp.stdin asWords.cmd represents.cmd with
    ⟨fault, takes, scans⟩ | ⟨string, rest, cmd, stdin, takes, scans, holds, left⟩
  · rw [takes, scans]
    trivial
  · rw [takes, scans, ok_bind, ok_bind]
    simp only []
    have read : Represents { ftp with stdin, cmd } { asWords with words := rest, cmd := string } :=
      { represents with input := left, cmd := holds }
    have help : strncmpEq ⟨.cmd, cmd⟩ (ftpLiteral "help") 4 = _ :=
      strncmpEq_array cmd string holds "help" (by decide)
    have login : strncmpEq ⟨.cmd, cmd⟩ (ftpLiteral "login") 5 = _ :=
      strncmpEq_array cmd string holds "login" (by decide)
    have upload : strncmpEq ⟨.cmd, cmd⟩ (ftpLiteral "upload") 6 = _ :=
      strncmpEq_array cmd string holds "upload" (by decide)
    have download : strncmpEq ⟨.cmd, cmd⟩ (ftpLiteral "download") 8 = _ :=
      strncmpEq_array cmd string holds "download" (by decide)
    have quit : strncmpEq ⟨.cmd, cmd⟩ (ftpLiteral "quit") 4 = _ :=
      strncmpEq_array cmd string holds "quit" (by decide)
    rw [FtpWords.branch, ftpCommand, help, ok_bind]
    by_cases isHelp : text "help" <+: string.bytes
    · rw [decide_eq_true isHelp, if_pos rfl, if_pos isHelp]
      exact read.perform .help false
    rw [decide_eq_false isHelp, if_neg Bool.false_ne_true, if_neg isHelp, login, ok_bind]
    by_cases isLogin : text "login" <+: string.bytes
    · rw [decide_eq_true isLogin, if_pos rfl, if_pos isLogin]
      exact read.transfer answers .login
    rw [decide_eq_false isLogin, if_neg Bool.false_ne_true, if_neg isLogin, upload, ok_bind]
    by_cases isUpload : text "upload" <+: string.bytes
    · rw [decide_eq_true isUpload, if_pos rfl, if_pos isUpload]
      exact read.transfer answers .upload
    rw [decide_eq_false isUpload, if_neg Bool.false_ne_true, if_neg isUpload, download, ok_bind]
    by_cases isDownload : text "download" <+: string.bytes
    · rw [decide_eq_true isDownload, if_pos rfl, if_pos isDownload]
      exact read.transfer answers .download
    rw [decide_eq_false isDownload, if_neg Bool.false_ne_true, if_neg isDownload, quit, ok_bind]
    by_cases isQuit : text "quit" <+: string.bytes
    · rw [decide_eq_true isQuit, if_pos rfl, if_pos isQuit]
      exact read.perform .quit true
    · rw [decide_eq_false isQuit, if_neg Bool.false_ne_true, if_neg isQuit]
      exact read.raw

theorem ftpStart_represents (stdin : List UInt8) :
    Represents (ftpStart stdin) (wordsStart (words isSpace stdin)) := by
  have zeroed : FtpArray (List.replicate 256 0) emptyString :=
    ⟨List.length_replicate, List.replicate 255 0, rfl⟩
  exact ⟨rfl, zeroed, zeroed, zeroed, rfl, rfl⟩

theorem ftp_returns_iff (answers : Nat → Int) (stdin : List UInt8) (result : List FtpAction) :
    Loop.Returns (ftpBody answers) (ftpStart stdin) result ↔
      Loop.Returns (FtpWords.body answers) (wordsStart (words isSpace stdin)) result :=
  Loop.returns_iff_of_matches Represents (ftpBody_matches answers) (ftpStart_represents stdin)
    result

theorem ftp_ends_iff_words (answers : Nat → Int) (stdin : List UInt8) :
    Loop.Ends (ftpBody answers) (ftpStart stdin) ↔
      Loop.Ends (FtpWords.body answers) (wordsStart (words isSpace stdin)) :=
  Loop.ends_iff_of_matches Represents (ftpBody_matches answers) (ftpStart_represents stdin)

/-! ### What an iteration reads -/

/-- How many parameters a branch reads. -/
def FtpCommand.parameters : FtpCommand → Nat
  | .help => 0
  | .login => 2
  | .upload => 2
  | .download => 2
  | .quit => 0
  | .raw => 1

/-- Whether the loop is left after a branch whose call returned this. -/
def FtpCommand.stops (answer : Int) : FtpCommand → Bool
  | .help => false
  | .login => answer ≠ 0
  | .upload => answer ≠ 0
  | .download => answer ≠ 0
  | .quit => true
  | .raw => false

/-- The words of one iteration: the command and its parameters. -/
structure ReadCommand where
  word : List UInt8
  params : List (List UInt8)

/-- The command and the parameters fit into their arrays. -/
def ReadCommand.Short (command : ReadCommand) : Prop :=
  command.word.length < 256 ∧ ∀ param ∈ command.params, param.length < 256

/-- The commands that are read from the words of an input. -/
def ftpCommands : List (List UInt8) → List ReadCommand
  | [] => []
  | word :: rest =>
    { word, params := rest.take (ftpCommand word).parameters } ::
      ftpCommands (rest.drop (ftpCommand word).parameters)
termination_by words => words.length
decreasing_by
  rw [List.length_drop, List.length_cons]
  omega

theorem takeWord_short (object : FtpObject) (old : FtpString) (words : List (List UInt8))
    (short : ∀ word ∈ words.take 1, word.length < 256) :
    ∃ string, takeWord object old words = .ok (string, words.drop 1) := by
  cases words with
  | nil => exact ⟨old, rfl⟩
  | cons word rest => exact ⟨_, dif_pos (short word List.mem_cons_self)⟩

theorem takeWord_long (object : FtpObject) (old : FtpString) (words : List (List UInt8))
    (long : ¬ ∀ word ∈ words.take 1, word.length < 256) :
    takeWord object old words = .error (.outOfBounds object) := by
  cases words with
  | nil => exact absurd nofun long
  | cons word rest =>
    refine dif_neg fun short => long ?_
    intro other member
    rw [List.take_succ_cons, List.take_zero, List.mem_singleton] at member
    rw [member]
    exact short

theorem forall_mem_take_two (words : List (List UInt8)) (holds : List UInt8 → Prop) :
    (∀ word ∈ words.take 2, holds word) ↔
      (∀ word ∈ words.take 1, holds word) ∧ ∀ word ∈ (words.drop 1).take 1, holds word := by
  match words with
  | [] => simp
  | [first] => simp
  | first :: second :: rest => simp

/-- A transfer reads two words. -/
theorem FtpWords.transfer_short (answers : Nat → Int)
    (action : List UInt8 → List UInt8 → FtpAction) (ftp : FtpWords)
    (short : ∀ word ∈ ftp.words.take 2, word.length < 256) :
    ∃ first second, ftp.transfer answers action =
      .ok ({ ftp with words := ftp.words.drop 2, param1 := first, param2 := second }.perform
        (action first.param second.param) (answers ftp.calls ≠ 0)) := by
  rw [forall_mem_take_two] at short
  obtain ⟨first, takes⟩ := takeWord_short .param1 ftp.param1 ftp.words short.1
  obtain ⟨second, others⟩ := takeWord_short .param2 ftp.param2 (ftp.words.drop 1) short.2
  refine ⟨first, second, ?_⟩
  rw [FtpWords.transfer, takes, ok_bind]
  simp only []
  rw [others, ok_bind, List.drop_drop]

theorem FtpWords.transfer_long (answers : Nat → Int)
    (action : List UInt8 → List UInt8 → FtpAction) (ftp : FtpWords)
    (long : ¬ ∀ word ∈ ftp.words.take 2, word.length < 256) :
    ∃ fault, ftp.transfer answers action = .error fault := by
  rw [forall_mem_take_two] at long
  rw [FtpWords.transfer]
  by_cases short : ∀ word ∈ ftp.words.take 1, word.length < 256
  · obtain ⟨first, takes⟩ := takeWord_short .param1 ftp.param1 ftp.words short
    refine ⟨.outOfBounds .param2, ?_⟩
    rw [takes, ok_bind]
    simp only []
    rw [takeWord_long _ _ _ fun others => long ⟨short, others⟩, error_bind]
  · exact ⟨.outOfBounds .param1, by rw [takeWord_long _ _ _ short, error_bind]⟩

/-- A raw command reads one word. -/
theorem FtpWords.raw_short (ftp : FtpWords)
    (short : ∀ word ∈ ftp.words.take 1, word.length < 256) :
    ∃ first, ftp.raw = .ok ({ ftp with words := ftp.words.drop 1, param1 := first }.perform
      (.exec (ftpLine ftp.cmd.param first.param)) false) := by
  obtain ⟨first, takes⟩ := takeWord_short .param1 ftp.param1 ftp.words short
  exact ⟨first, by rw [FtpWords.raw, takes, ok_bind]⟩

theorem FtpWords.raw_long (ftp : FtpWords)
    (long : ¬ ∀ word ∈ ftp.words.take 1, word.length < 256) :
    ∃ fault, ftp.raw = .error fault :=
  ⟨.outOfBounds .param1, by rw [FtpWords.raw, takeWord_long _ _ _ long, error_bind]⟩

/-- The branch an action belongs to. -/
def FtpAction.command : FtpAction → FtpCommand
  | .help => .help
  | .login _ _ => .login
  | .upload _ _ => .upload
  | .download _ _ => .download
  | .exec _ => .raw
  | .quit => .quit

/-- The branch behind the choice reads its parameters, does its action, and stops or not. -/
theorem FtpWords.branch_short (answers : Nat → Int) (ftp : FtpWords)
    (short : ∀ word ∈ ftp.words.take (ftpCommand ftp.cmd.bytes).parameters, word.length < 256) :
    ∃ param1 param2 action, action.command = ftpCommand ftp.cmd.bytes ∧ ftp.branch answers =
      .ok ({ ftp with words := ftp.words.drop (ftpCommand ftp.cmd.bytes).parameters, param1,
                      param2 }.perform action
        ((ftpCommand ftp.cmd.bytes).stops (answers ftp.calls))) := by
  rw [FtpWords.branch]
  cases kind : ftpCommand ftp.cmd.bytes with
  | help => exact ⟨ftp.param1, ftp.param2, .help, rfl, rfl⟩
  | login =>
    rw [kind] at short
    obtain ⟨first, second, goes⟩ := ftp.transfer_short answers .login short
    exact ⟨first, second, .login first.param second.param, rfl, goes⟩
  | upload =>
    rw [kind] at short
    obtain ⟨first, second, goes⟩ := ftp.transfer_short answers .upload short
    exact ⟨first, second, .upload first.param second.param, rfl, goes⟩
  | download =>
    rw [kind] at short
    obtain ⟨first, second, goes⟩ := ftp.transfer_short answers .download short
    exact ⟨first, second, .download first.param second.param, rfl, goes⟩
  | quit => exact ⟨ftp.param1, ftp.param2, .quit, rfl, rfl⟩
  | raw =>
    rw [kind] at short
    obtain ⟨first, goes⟩ := ftp.raw_short short
    exact ⟨first, ftp.param2, .exec (ftpLine ftp.cmd.param first.param), rfl, goes⟩

theorem FtpWords.branch_long (answers : Nat → Int) (ftp : FtpWords)
    (long : ¬ ∀ word ∈ ftp.words.take (ftpCommand ftp.cmd.bytes).parameters, word.length < 256) :
    ∃ fault, ftp.branch answers = .error fault := by
  rw [FtpWords.branch]
  cases kind : ftpCommand ftp.cmd.bytes with
  | help => exact absurd (by rw [kind]; exact nofun) long
  | login => exact ftp.transfer_long answers .login (by rwa [kind] at long)
  | upload => exact ftp.transfer_long answers .upload (by rwa [kind] at long)
  | download => exact ftp.transfer_long answers .download (by rwa [kind] at long)
  | quit => exact absurd (by rw [kind]; exact nofun) long
  | raw => exact ftp.raw_long (by rwa [kind] at long)

/-! ### When the loop ends -/

/-- The command of an iteration: those of the input one after the other, and from its end on the
last one again and again. -/
def commandAt (last : List UInt8) : List ReadCommand → Nat → List UInt8
  | [], _ => last
  | command :: _, 0 => command.word
  | command :: rest, call + 1 => commandAt command.word rest call

/-- In some iteration the loop is left, and no word read up to then is too long. -/
def FtpTerminated (answers : Nat → Int) (last : List UInt8) (commands : List ReadCommand)
    (calls : Nat) : Prop :=
  ∃ call, (∀ command ∈ commands.take (call + 1), command.Short) ∧
    (ftpCommand (commandAt last commands call)).stops (answers (calls + call)) = true

theorem ftpTerminated_cons_iff (answers : Nat → Int) (last : List UInt8) (command : ReadCommand)
    (rest : List ReadCommand) (calls : Nat) :
    FtpTerminated answers last (command :: rest) calls ↔
      command.Short ∧ ((ftpCommand command.word).stops (answers calls) = true ∨
        FtpTerminated answers command.word rest (calls + 1)) := by
  constructor
  · rintro ⟨call, short, stops⟩
    refine ⟨short command List.mem_cons_self, ?_⟩
    cases call with
    | zero => exact Or.inl stops
    | succ call =>
      refine Or.inr ⟨call, fun other member => short other (List.mem_cons_of_mem _ member), ?_⟩
      rw [Nat.add_assoc, Nat.add_comm 1 call]
      exact stops
  · rintro ⟨short, stops | ⟨call, others, stops⟩⟩
    · refine ⟨0, ?_, stops⟩
      intro other member
      rw [List.take_succ_cons, List.take_zero, List.mem_singleton] at member
      rw [member]
      exact short
    · refine ⟨call + 1, ?_, ?_⟩
      · rw [List.take_succ_cons, List.forall_mem_cons]
        exact ⟨short, others⟩
      · rw [Nat.add_assoc, Nat.add_comm 1 call] at stops
        exact stops

/-- With no words left the same command is carried out again. -/
theorem FtpWords.body_drained (answers : Nat → Int) (ftp : FtpWords) (drained : ftp.words = []) :
    ∃ param1 param2 action, ftp.body answers =
      .ok ({ ftp with param1, param2 }.perform action
        ((ftpCommand ftp.cmd.bytes).stops (answers ftp.calls))) := by
  obtain ⟨param1, param2, action, -, goes⟩ := ftp.branch_short answers (by simp [drained])
  have takes : takeWord .cmd ftp.cmd ftp.words = .ok (ftp.cmd, ftp.words) := by
    rw [drained, takeWord]
  have left : ftp.words.drop (ftpCommand ftp.cmd.bytes).parameters = ftp.words := by
    rw [drained, List.drop_nil]
  rw [left] at goes
  exact ⟨param1, param2, action, by rw [FtpWords.body, takes, ok_bind]; exact goes⟩

theorem ftp_ends_drained_iff (answers : Nat → Int) (ftp : FtpWords) (drained : ftp.words = []) :
    Loop.Ends (FtpWords.body answers) ftp ↔
      FtpTerminated answers ftp.cmd.bytes [] ftp.calls := by
  constructor
  · intro ends
    by_contra never
    have goesOn (call : Nat) :
        (ftpCommand ftp.cmd.bytes).stops (answers (ftp.calls + call)) = false := by
      by_contra stops
      exact never ⟨call, nofun, by rw [commandAt]; simpa using stops⟩
    refine Loop.not_ends_of_invariant
      (fun later : FtpWords => later.words = [] ∧ later.cmd = ftp.cmd ∧
        ∃ call, later.calls = ftp.calls + call) ?_ ⟨drained, rfl, 0, rfl⟩ ends
    rintro later ⟨laterOver, cmd, call, calls⟩
    obtain ⟨param1, param2, action, goes⟩ := later.body_drained answers laterOver
    have stays : (ftpCommand later.cmd.bytes).stops (answers later.calls) = false := by
      rw [cmd, calls]
      exact goesOn call
    rw [stays] at goes
    exact ⟨_, goes, laterOver, cmd, call + 1, by rw [← Nat.add_assoc, ← calls]⟩
  · rintro ⟨call, -, stops⟩
    rw [commandAt] at stops
    induction call generalizing ftp with
    | zero =>
      obtain ⟨param1, param2, action, goes⟩ := ftp.body_drained answers drained
      rw [show (ftpCommand ftp.cmd.bytes).stops (answers ftp.calls) = true from stops] at goes
      exact Loop.ends_leave goes
    | succ call inductionHypothesis =>
      obtain ⟨param1, param2, action, goes⟩ := ftp.body_drained answers drained
      cases first : (ftpCommand ftp.cmd.bytes).stops (answers ftp.calls) with
      | true =>
        rw [first] at goes
        exact Loop.ends_leave goes
      | false =>
        rw [first] at goes
        rw [Loop.ends_again_iff goes]
        refine inductionHypothesis _ drained ?_
        rw [Nat.add_assoc, Nat.add_comm 1 call]
        exact stops

/-- A command that fits is carried out, and what is left is behind its parameters. -/
theorem FtpWords.body_short (answers : Nat → Int) (ftp : FtpWords) (word : List UInt8)
    (rest : List (List UInt8)) (input : ftp.words = word :: rest) (short : word.length < 256)
    (others : ∀ param ∈ rest.take (ftpCommand word).parameters, param.length < 256) :
    ∃ param1 param2 action, action.command = ftpCommand word ∧ ftp.body answers =
      .ok ({ ftp with words := rest.drop (ftpCommand word).parameters, cmd := ⟨word, short⟩,
                      param1, param2 }.perform action
        ((ftpCommand word).stops (answers ftp.calls))) := by
  have takes : takeWord .cmd ftp.cmd ftp.words = .ok (⟨word, short⟩, rest) := by
    rw [input]
    exact dif_pos short
  obtain ⟨param1, param2, action, command, goes⟩ :=
    FtpWords.branch_short answers { ftp with words := rest, cmd := ⟨word, short⟩ } others
  exact ⟨param1, param2, action, command, by rw [FtpWords.body, takes, ok_bind]; exact goes⟩

theorem FtpWords.body_long (answers : Nat → Int) (ftp : FtpWords) (word : List UInt8)
    (rest : List (List UInt8)) (input : ftp.words = word :: rest)
    (long : ¬ ReadCommand.Short ⟨word, rest.take (ftpCommand word).parameters⟩) :
    ∃ fault, ftp.body answers = .error fault := by
  by_cases short : word.length < 256
  · have takes : takeWord .cmd ftp.cmd ftp.words = .ok (⟨word, short⟩, rest) := by
      rw [input]
      exact dif_pos short
    obtain ⟨fault, goes⟩ := FtpWords.branch_long answers
      { ftp with words := rest, cmd := ⟨word, short⟩ } fun others => long ⟨short, others⟩
    exact ⟨fault, by rw [FtpWords.body, takes, ok_bind]; exact goes⟩
  · have takes : takeWord .cmd ftp.cmd ftp.words = .error (.outOfBounds .cmd) := by
      rw [input]
      exact dif_neg short
    exact ⟨.outOfBounds .cmd, by rw [FtpWords.body, takes, error_bind]⟩

/-- The loop ends in the first iteration that stops, if no word is too long before. -/
theorem ftp_words_end_iff (answers : Nat → Int) (ftp : FtpWords) :
    Loop.Ends (FtpWords.body answers) ftp ↔
      FtpTerminated answers ftp.cmd.bytes (ftpCommands ftp.words) ftp.calls := by
  induction input : ftp.words using ftpCommands.induct generalizing ftp with
  | case1 =>
    rw [ftpCommands]
    exact ftp_ends_drained_iff answers ftp input
  | case2 word rest inductionHypothesis =>
    rw [ftpCommands, ftpTerminated_cons_iff]
    by_cases short : ReadCommand.Short ⟨word, rest.take (ftpCommand word).parameters⟩
    · obtain ⟨param1, param2, action, -, goes⟩ :=
        ftp.body_short answers word rest input short.1 short.2
      rw [and_iff_right short]
      cases stops : (ftpCommand word).stops (answers ftp.calls) with
      | true =>
        rw [stops] at goes
        exact iff_of_true (Loop.ends_leave goes) (Or.inl rfl)
      | false =>
        rw [stops] at goes
        rw [Loop.ends_again_iff goes, or_iff_right Bool.false_ne_true]
        exact inductionHypothesis _ rfl
    · obtain ⟨fault, goes⟩ := ftp.body_long answers word rest input short
      exact iff_of_false (Loop.not_ends_error goes) fun terminated => short terminated.1

theorem noBlank_of_all {word : List UInt8} (all : word.all (!isSpace ·) = true) :
    ∀ byte ∈ word, isSpace byte = false := by
  simpa using all

/-- `my_vim` ends exactly when some piece that is read begins with `exit`, and `my_ftp` exactly when
some command, or the last one again and again behind the end of the input, ends it.

Neither loop looks at the end of the input. `my_vim` reads pieces that fit its array; a word that
is too long for an array of `my_ftp` is a fault, and `answers` are what the calls of the session
return, in their order. -/
theorem loops_end_iff (opened : Bool) (junk : Nat → UInt8) (answers : Nat → Int)
    (stdin : List UInt8) :
    (Loop.Ends (vimBody opened) (vimStart junk stdin) ↔ VimTerminated opened junk stdin) ∧
      (Loop.Ends (ftpBody answers) (ftpStart stdin) ↔
        FtpTerminated answers [] (ftpCommands (words isSpace stdin)) 0) := by
  refine ⟨vim_ends_iff opened junk stdin, ?_⟩
  rw [ftp_ends_iff_words]
  exact ftp_words_end_iff answers (wordsStart (words isSpace stdin))

/-- Without their last words neither loop ends. -/
theorem loops_without_end :
    ¬ Loop.Ends (vimBody true) (vimStart (fun _ => 0) [97, LF]) ∧
      ¬ Loop.Ends (ftpBody fun _ => 0) (ftpStart (text "help" ++ [LF])) := by
  constructor
  · have line : fgetsLine (LEN - 1) [97, LF] = [97, LF] :=
      fgetsLine_append_LF [97] [] (LEN - 1) (by decide) (by decide)
    rw [vim_ends_iff, VimTerminated, fgetsLines_of_more _ (List.cons_ne_nil _ _), line]
    have drained : fgetsLines (List.drop [97, LF].length [97, LF]) = [] := fgetsLines_nil
    rw [drained]
    decide
  · have input : words isSpace (text "help" ++ [LF]) = [text "help"] :=
      words_append_blank isSpace (text "help") [] LF (by decide) (noBlank_of_all (by decide))
        (by decide)
    have commands : ftpCommands [text "help"] = [⟨text "help", []⟩] := by
      rw [ftpCommands, List.take_nil, List.drop_nil, ftpCommands]
    rw [ftp_ends_iff_words, input, ftp_words_end_iff, wordsStart]
    simp only []
    rw [commands]
    have never : (ftpCommand (text "help")).stops 0 = false := by decide
    rintro ⟨call, -, stops⟩
    cases call with
    | zero => exact Bool.false_ne_true (never.symm.trans stops)
    | succ call => exact Bool.false_ne_true (never.symm.trans stops)

/-! ### Scripts -/

/-- A word of a line: text without blanks that fits into an array. -/
structure FtpWord where
  bytes : List UInt8
  nonempty : bytes ≠ []
  noBlank : ∀ byte ∈ bytes, isSpace byte = false
  noNUL : 0 ∉ bytes
  short : bytes.length < 256

/-- The words a branch of the loop looks for. -/
def ftpKeywords : List (List UInt8) :=
  [text "help", text "login", text "upload", text "download", text "quit"]

/-- A line of a script: a command of the program, or a command for the server. -/
inductive FtpLine where
  | help
  | quit
  | login (username password : FtpWord)
  | upload (localfile remotefile : FtpWord)
  | download (remotefile localfile : FtpWord)
  | raw (command : FtpWord) (other : command.bytes ∉ ftpKeywords) (param : Option FtpWord)

/-- The words of a line. -/
def FtpLine.words : FtpLine → List (List UInt8)
  | .help => [text "help"]
  | .quit => [text "quit"]
  | .login username password => [text "login", username.bytes, password.bytes]
  | .upload localfile remotefile => [text "upload", localfile.bytes, remotefile.bytes]
  | .download remotefile localfile => [text "download", remotefile.bytes, localfile.bytes]
  | .raw command _ none => [command.bytes]
  | .raw command _ (some param) => [command.bytes, param.bytes]

/-- What a line asks for. -/
def FtpLine.action : FtpLine → FtpAction
  | .help => .help
  | .quit => .quit
  | .login username password => .login username.bytes password.bytes
  | .upload localfile remotefile => .upload localfile.bytes remotefile.bytes
  | .download remotefile localfile => .download remotefile.bytes localfile.bytes
  | .raw command _ none => .exec (ftpLine command.bytes [])
  | .raw command _ (some param) => .exec (ftpLine command.bytes param.bytes)

/-- A line ends the session: `quit`, or a login or a transfer whose call fails. -/
def FtpLine.ends (answer : Int) (line : FtpLine) : Bool := line.action.command.stops answer

/-- The script as it is typed. -/
def scriptText (lines : List FtpLine) : List UInt8 :=
  lines.flatMap fun line => [32].intercalate line.words ++ [LF]

/-- One action for each line, up to the line that ends the session; `call` counts the lines
before. -/
def scriptActions (answers : Nat → Int) (call : Nat) : List FtpLine → List FtpAction
  | [] => []
  | line :: rest =>
    line.action :: if line.ends (answers call) then [] else scriptActions answers (call + 1) rest

/-- `my_ftp` performs exactly the actions of the script, in order, and ends. -/
def OneActionPerLine (connect : List UInt8 → Int → Int) (answers : Nat → Int)
    (argv : List (List UInt8)) (lines : List FtpLine) : Prop :=
  ∃ bound, myFtp connect answers bound (scriptText lines) argv =
    .ok (some (.quit (scriptActions answers 0 lines)))

/-- A line whose words are all read, and no others: a raw command has a parameter and does not begin
with a word a branch looks for. -/
def FtpLine.Aligned : FtpLine → Prop
  | .raw command _ param => param.isSome ∧ ∀ keyword ∈ ftpKeywords, ¬ keyword <+: command.bytes
  | _ => True

/-- Some line ends the session, and the lines up to it are aligned. -/
def ScriptAligned (answers : Nat → Int) (call : Nat) : List FtpLine → Prop
  | [] => False
  | line :: rest =>
    line.Aligned ∧ (line.ends (answers call) = true ∨ ScriptAligned answers (call + 1) rest)

/-! ### What the words of a script are -/

theorem FtpLine.words_whole (line : FtpLine) :
    ∀ word ∈ line.words, word ≠ [] ∧ (∀ byte ∈ word, isSpace byte = false) ∧ 0 ∉ word ∧
      word.length < 256 := by
  have typed (word : FtpWord) : word.bytes ≠ [] ∧ (∀ byte ∈ word.bytes, isSpace byte = false) ∧
      0 ∉ word.bytes ∧ word.bytes.length < 256 :=
    ⟨word.nonempty, word.noBlank, word.noNUL, word.short⟩
  have keyword (word : List UInt8) (all : word.all (!isSpace ·) = true)
      (rest : word ≠ [] ∧ 0 ∉ word ∧ word.length < 256) :
      word ≠ [] ∧ (∀ byte ∈ word, isSpace byte = false) ∧ 0 ∉ word ∧ word.length < 256 :=
    ⟨rest.1, noBlank_of_all all, rest.2⟩
  match line with
  | .help =>
    simp only [FtpLine.words, List.forall_mem_singleton]
    exact keyword (text "help") (by decide) (by decide)
  | .quit =>
    simp only [FtpLine.words, List.forall_mem_singleton]
    exact keyword (text "quit") (by decide) (by decide)
  | .login username password =>
    simp only [FtpLine.words, List.forall_mem_cons]
    exact ⟨keyword (text "login") (by decide) (by decide), typed username, typed password, nofun⟩
  | .upload localfile remotefile =>
    simp only [FtpLine.words, List.forall_mem_cons]
    exact ⟨keyword (text "upload") (by decide) (by decide), typed localfile, typed remotefile,
      nofun⟩
  | .download remotefile localfile =>
    simp only [FtpLine.words, List.forall_mem_cons]
    exact ⟨keyword (text "download") (by decide) (by decide), typed remotefile, typed localfile,
      nofun⟩
  | .raw command _ none =>
    simp only [FtpLine.words, List.forall_mem_cons]
    exact ⟨typed command, nofun⟩
  | .raw command _ (some param) =>
    simp only [FtpLine.words, List.forall_mem_cons]
    exact ⟨typed command, typed param, nofun⟩

theorem words_scriptText (lines : List FtpLine) :
    words isSpace (scriptText lines) = lines.flatMap FtpLine.words := by
  induction lines with
  | nil => rfl
  | cons line rest inductionHypothesis =>
    have whole (word : List UInt8) (member : word ∈ line.words) :
        word ≠ [] ∧ ∀ byte ∈ word, isSpace byte = false :=
      ⟨(line.words_whole word member).1, (line.words_whole word member).2.1⟩
    rw [List.flatMap_cons, ← inductionHypothesis,
      ← words_intercalate isSpace 32 LF (by decide) (by decide) line.words whole]
    simp [scriptText]

/-- A word in its array. -/
def FtpWord.string (word : FtpWord) : FtpString := ⟨word.bytes, word.short⟩

theorem FtpWord.param_string (word : FtpWord) : word.string.param = word.bytes :=
  takeWhile_of_clean word.bytes word.noNUL

theorem takeWord_cons (object : FtpObject) (old : FtpString) (word : FtpWord)
    (rest : List (List UInt8)) :
    takeWord object old (word.bytes :: rest) = .ok (word.string, rest) :=
  dif_pos word.short

theorem ftpCommand_eq_raw_iff (word : List UInt8) :
    ftpCommand word = .raw ↔ ∀ keyword ∈ ftpKeywords, ¬ keyword <+: word := by
  simp only [ftpKeywords, List.forall_mem_cons, ftpCommand]
  constructor
  · intro raw
    split at raw
    · cases raw
    split at raw
    · cases raw
    split at raw
    · cases raw
    split at raw
    · cases raw
    split at raw
    · cases raw
    · rename_i help login upload download quit
      exact ⟨help, login, upload, download, quit, nofun⟩
  · rintro ⟨help, login, upload, download, quit, -⟩
    rw [if_neg help, if_neg login, if_neg upload, if_neg download, if_neg quit]

/-! ### What an iteration adds -/

/-- An iteration does one action, whatever it reads. -/
theorem FtpWords.body_cases (answers : Nat → Int) (ftp : FtpWords) :
    (∃ fault, ftp.body answers = .error fault) ∨
      ∃ later : FtpWords, ∃ action left, later.performed = ftp.performed ∧
        ftp.body answers = .ok (later.perform action left) := by
  cases input : ftp.words with
  | nil =>
    obtain ⟨param1, param2, action, goes⟩ := ftp.body_drained answers input
    exact Or.inr ⟨{ ftp with param1, param2 }, action, _, rfl, goes⟩
  | cons word rest =>
    by_cases short : ReadCommand.Short ⟨word, rest.take (ftpCommand word).parameters⟩
    · obtain ⟨param1, param2, action, -, goes⟩ :=
        ftp.body_short answers word rest input short.1 short.2
      exact Or.inr ⟨{ ftp with
        words := rest.drop (ftpCommand word).parameters, cmd := ⟨word, short.1⟩, param1, param2 },
        action, _, rfl, goes⟩
    · exact Or.inl (ftp.body_long answers word rest input short)

/-- The actions so far stay, and one is added at least. -/
theorem FtpWords.returns_extends (answers : Nat → Int) (ftp : FtpWords) (result : List FtpAction)
    (returns : Loop.Returns (FtpWords.body answers) ftp result) :
    ∃ action more, result = ftp.performed ++ action :: more := by
  obtain ⟨last, before, leaves⟩ := returns.exists_last
    (fun later => ftp.performed <+: later.performed)
    (fun later next before step => by
      rcases later.body_cases answers with ⟨fault, goes⟩ | ⟨then_, action, left, kept, goes⟩
      · rw [Loop.Step, goes] at step
        cases step
      · rw [Loop.Step, goes] at step
        cases left with
        | true => cases step
        | false =>
          cases step
          refine before.trans ?_
          rw [← kept]
          exact List.prefix_append _ _)
    (List.prefix_refl _)
  rcases last.body_cases answers with ⟨fault, goes⟩ | ⟨later, action, left, kept, goes⟩
  · rw [goes] at leaves
    cases leaves
  · rw [goes] at leaves
    cases left with
    | false => cases leaves
    | true =>
      cases leaves
      obtain ⟨more, extended⟩ := before
      rw [kept, ← extended]
      cases more with
      | nil => exact ⟨action, [], by rw [List.append_nil]⟩
      | cons first others => exact ⟨first, others ++ [action], by simp⟩

/-- The action of the first iteration comes first, and another one if it goes on. -/
theorem FtpWords.returns_first (answers : Nat → Int) (ftp later : FtpWords) (action : FtpAction)
    (left : Bool) (kept : later.performed = ftp.performed)
    (goes : ftp.body answers = .ok (later.perform action left)) (result : List FtpAction)
    (returns : Loop.Returns (FtpWords.body answers) ftp result) :
    ∃ more, result = ftp.performed ++ action :: more ∧ (left = false → more ≠ []) := by
  cases left with
  | true =>
    rw [Loop.returns_leave_iff goes] at returns
    exact ⟨[], by rw [returns, kept], nofun⟩
  | false =>
    rw [Loop.returns_again_iff goes] at returns
    obtain ⟨second, more, extends_⟩ := FtpWords.returns_extends answers _ result returns
    refine ⟨second :: more, ?_, fun _ => List.cons_ne_nil _ _⟩
    rw [extends_, ← kept]
    exact List.append_assoc _ [action] (second :: more)

/-! ### One line at a time -/

/-- A transfer with its parameters at hand. -/
theorem FtpWords.transfer_line (answers : Nat → Int)
    (action : List UInt8 → List UInt8 → FtpAction) (ftp : FtpWords) (first second : FtpWord)
    (rest : List (List UInt8)) (input : ftp.words = first.bytes :: second.bytes :: rest) :
    ftp.transfer answers action =
      .ok ({ ftp with words := rest, param1 := first.string, param2 := second.string }.perform
        (action first.bytes second.bytes) (answers ftp.calls ≠ 0)) := by
  rw [FtpWords.transfer, input, takeWord_cons, ok_bind]
  simp only []
  rw [takeWord_cons, ok_bind, first.param_string, second.param_string]

/-- A raw command with its parameter at hand. -/
theorem FtpWords.raw_line (ftp : FtpWords) (param : FtpWord) (rest : List (List UInt8))
    (input : ftp.words = param.bytes :: rest) :
    ftp.raw = .ok ({ ftp with words := rest, param1 := param.string }.perform
      (.exec (ftpLine ftp.cmd.param param.bytes)) false) := by
  rw [FtpWords.raw, input, takeWord_cons, ok_bind]
  simp only []
  rw [param.param_string]

/-- The first word is read and its branch taken. -/
theorem FtpWords.body_eq (answers : Nat → Int) (ftp : FtpWords) (word : List UInt8)
    (short : word.length < 256) (rest : List (List UInt8)) (input : ftp.words = word :: rest) :
    ftp.body answers =
      FtpWords.branch answers { ftp with words := rest, cmd := ⟨word, short⟩ } := by
  have takes : takeWord .cmd ftp.cmd ftp.words = .ok (⟨word, short⟩, rest) := by
    rw [input]
    exact dif_pos short
  rw [FtpWords.body, takes, ok_bind]

/-- A word that no branch looks for is sent. -/
theorem FtpWords.branch_raw (answers : Nat → Int) (ftp : FtpWords)
    (other : ∀ keyword ∈ ftpKeywords, ¬ keyword <+: ftp.cmd.bytes) :
    ftp.branch answers = ftp.raw := by
  rw [FtpWords.branch, (ftpCommand_eq_raw_iff ftp.cmd.bytes).mpr other]

/-- An aligned line is carried out as it stands. -/
theorem FtpWords.body_aligned (answers : Nat → Int) (ftp : FtpWords) (line : FtpLine)
    (aligned : line.Aligned) (rest : List (List UInt8)) (input : ftp.words = line.words ++ rest) :
    ∃ later : FtpWords, later.words = rest ∧ later.calls = ftp.calls ∧
      later.performed = ftp.performed ∧
      ftp.body answers = .ok (later.perform line.action (line.ends (answers ftp.calls))) := by
  match line with
  | .help =>
    exact ⟨{ ftp with words := rest, cmd := ⟨text "help", by decide⟩ }, rfl, rfl, rfl,
      ftp.body_eq answers (text "help") (by decide) rest input⟩
  | .quit =>
    exact ⟨{ ftp with words := rest, cmd := ⟨text "quit", by decide⟩ }, rfl, rfl, rfl,
      ftp.body_eq answers (text "quit") (by decide) rest input⟩
  | .login username password =>
    have goes := ftp.body_eq answers (text "login") (by decide) _ input
    refine ⟨_, ?_, ?_, ?_, goes.trans
      (FtpWords.transfer_line answers .login _ username password rest ?_)⟩ <;> rfl
  | .upload localfile remotefile =>
    have goes := ftp.body_eq answers (text "upload") (by decide) _ input
    refine ⟨_, ?_, ?_, ?_, goes.trans
      (FtpWords.transfer_line answers .upload _ localfile remotefile rest ?_)⟩ <;> rfl
  | .download remotefile localfile =>
    have goes := ftp.body_eq answers (text "download") (by decide) _ input
    refine ⟨_, ?_, ?_, ?_, goes.trans
      (FtpWords.transfer_line answers .download _ remotefile localfile rest ?_)⟩ <;> rfl
  | .raw command _ (some param) =>
    have goes := ftp.body_eq answers command.bytes command.short _ input
    rw [FtpWords.branch_raw answers _ aligned.2, FtpWords.raw_line _ param rest rfl,
      show (⟨command.bytes, command.short⟩ : FtpString) = command.string from rfl,
      command.param_string] at goes
    exact ⟨{ ftp with words := rest, cmd := command.string, param1 := param.string }, rfl, rfl, rfl,
      goes⟩
  | .raw command _ none => exact absurd aligned.1 Bool.false_ne_true

/-- With the word of another branch at its start, a raw command is not sent. -/
theorem FtpWords.body_other_branch (answers : Nat → Int) (ftp : FtpWords) (word : List UInt8)
    (rest : List (List UInt8)) (input : ftp.words = word :: rest)
    (whole : ∀ other ∈ word :: rest, other.length < 256) (branch : ftpCommand word ≠ .raw) :
    ∃ later : FtpWords, ∃ action left, later.performed = ftp.performed ∧
      action.command ≠ .raw ∧ ftp.body answers = .ok (later.perform action left) := by
  obtain ⟨param1, param2, action, command, goes⟩ := ftp.body_short answers word rest input
    (whole word List.mem_cons_self)
    fun param member => whole param (List.mem_cons_of_mem _ (List.mem_of_mem_take member))
  refine ⟨{ ftp with words := rest.drop (ftpCommand word).parameters, cmd := ⟨word, _⟩, param1,
                     param2 }, action, _, rfl, ?_, goes⟩
  rw [command]
  exact branch

theorem ftpLine_param_injective (cmd param : List UInt8)
    (same : ftpLine cmd param = ftpLine cmd []) : param = [] := by
  by_contra some
  have length := congrArg List.length same
  rw [ftpLine, if_neg some, ftpLine, if_pos rfl] at length
  simp only [List.length_append] at length
  have blank : (text " ").length = 1 := rfl
  omega

/-- A raw command without a parameter takes the first word of the next line as one. -/
theorem FtpWords.body_next_word (answers : Nat → Int) (ftp : FtpWords) (command : FtpWord)
    (other : ∀ keyword ∈ ftpKeywords, ¬ keyword <+: command.bytes) (word : List UInt8)
    (rest : List (List UInt8)) (input : ftp.words = command.bytes :: word :: rest)
    (nonempty : word ≠ []) (noNUL : 0 ∉ word) (short : word.length < 256) :
    ∃ later : FtpWords, ∃ action, later.performed = ftp.performed ∧
      action ≠ .exec (ftpLine command.bytes []) ∧
      ftp.body answers = .ok (later.perform action false) := by
  have goes := ftp.body_eq answers command.bytes command.short _ input
  rw [FtpWords.branch_raw answers _ other, FtpWords.raw] at goes
  simp only [] at goes
  have takes : takeWord .param1 ftp.param1 (word :: rest) = .ok (⟨word, short⟩, rest) :=
    dif_pos short
  rw [takes, ok_bind] at goes
  refine ⟨{ ftp with words := rest, cmd := command.string, param1 := ⟨word, short⟩ }, _, rfl, ?_,
    goes⟩
  rw [show (⟨command.bytes, command.short⟩ : FtpString) = command.string from rfl,
    command.param_string, FtpString.param, takeWhile_of_clean word noNUL]
  intro same
  exact nonempty (ftpLine_param_injective command.bytes word (FtpAction.exec.inj same))

theorem FtpLine.words_ne_nil (line : FtpLine) : line.words ≠ [] := by
  match line with
  | .help | .quit | .login _ _ | .upload _ _ | .download _ _ | .raw _ _ none
  | .raw _ _ (some _) => exact List.cons_ne_nil _ _

theorem script_words_short (lines : List FtpLine) :
    ∀ word ∈ lines.flatMap FtpLine.words, word.length < 256 := by
  intro word member
  obtain ⟨line, -, inside⟩ := List.mem_flatMap.mp member
  exact (line.words_whole word inside).2.2.2

/-- A line that is not aligned is not carried out as it stands, unless it is the last: then it is
carried out again. -/
theorem FtpWords.body_misaligned (answers : Nat → Int) (ftp : FtpWords) (line : FtpLine)
    (misaligned : ¬ line.Aligned) (rest : List FtpLine)
    (input : ftp.words = line.words ++ rest.flatMap FtpLine.words) :
    ∃ later : FtpWords, ∃ action left, later.performed = ftp.performed ∧
      ftp.body answers = .ok (later.perform action left) ∧
      (action ≠ line.action ∨ left = false ∧ rest = []) := by
  match line with
  | .help | .quit | .login _ _ | .upload _ _ | .download _ _ => exact absurd trivial misaligned
  | .raw command other param =>
    have sent : (FtpLine.raw command other param).action.command = .raw := by
      cases param <;> rfl
    obtain ⟨behind, words⟩ : ∃ behind,
        (FtpLine.raw command other param).words = command.bytes :: behind := by
      cases param with
      | none => exact ⟨[], rfl⟩
      | some param => exact ⟨[param.bytes], rfl⟩
    have short : ∀ word ∈ command.bytes :: (behind ++ rest.flatMap FtpLine.words),
        word.length < 256 := by
      rw [← List.cons_append, ← words, ← List.flatMap_cons]
      exact script_words_short _
    rw [words, List.cons_append] at input
    by_cases plain : ∀ keyword ∈ ftpKeywords, ¬ keyword <+: command.bytes
    · cases param with
      | some param => exact absurd ⟨rfl, plain⟩ misaligned
      | none =>
        cases words
        cases rest with
        | nil =>
          obtain ⟨param1, param2, action, -, goes⟩ :=
            ftp.body_short answers command.bytes [] input command.short (by simp)
          rw [(ftpCommand_eq_raw_iff command.bytes).mpr plain] at goes
          exact ⟨{ ftp with words := [], cmd := command.string, param1, param2 }, action, false,
            rfl, goes, Or.inr ⟨rfl, rfl⟩⟩
        | cons next others =>
          obtain ⟨word, more, first⟩ := List.exists_cons_of_ne_nil next.words_ne_nil
          have whole := next.words_whole word (by rw [first]; exact List.mem_cons_self)
          rw [List.flatMap_cons, first] at input
          obtain ⟨later, action, kept, apart, goes⟩ := ftp.body_next_word answers command plain word
            (more ++ others.flatMap FtpLine.words) input whole.1 whole.2.2.1 whole.2.2.2
          exact ⟨later, action, false, kept, goes, Or.inl apart⟩
    · obtain ⟨later, action, left, kept, branch, goes⟩ := ftp.body_other_branch answers
        command.bytes _ input short (mt (ftpCommand_eq_raw_iff command.bytes).mp plain)
      exact ⟨later, action, left, kept, goes, Or.inl fun same => branch (by rw [same, sent])⟩

/-- On words, the actions are those of the script exactly when the lines are aligned up to the one
that ends it. -/
theorem script_words_iff (answers : Nat → Int) (lines : List FtpLine) (ftp : FtpWords)
    (input : ftp.words = lines.flatMap FtpLine.words) :
    Loop.Returns (FtpWords.body answers) ftp
        (ftp.performed ++ scriptActions answers ftp.calls lines) ↔
      ScriptAligned answers ftp.calls lines := by
  induction lines generalizing ftp with
  | nil =>
    refine iff_of_false (fun returns => ?_) id
    obtain ⟨action, more, extended⟩ := ftp.returns_extends answers _ returns
    exact absurd (List.append_cancel_left extended) (List.cons_ne_nil _ _).symm
  | cons line rest inductionHypothesis =>
    rw [List.flatMap_cons] at input
    rw [scriptActions, ScriptAligned]
    by_cases aligned : line.Aligned
    · obtain ⟨later, words, calls, performed, goes⟩ :=
        ftp.body_aligned answers line aligned _ input
      rw [and_iff_right aligned]
      cases ends : line.ends (answers ftp.calls) with
      | true =>
        rw [ends] at goes
        refine iff_of_true ((Loop.returns_leave_iff goes _).mpr ?_) (Or.inl rfl)
        rw [performed, if_pos rfl]
      | false =>
        rw [ends] at goes
        rw [Loop.returns_again_iff goes, or_iff_right Bool.false_ne_true,
          if_neg Bool.false_ne_true, ← calls, ← performed]
        have next := inductionHypothesis { later with
          calls := later.calls + 1, performed := later.performed ++ [line.action] } words
        rw [List.append_assoc] at next
        exact next
    · refine iff_of_false (fun returns => ?_) fun script => aligned script.1
      obtain ⟨later, action, left, kept, goes, differs⟩ :=
        ftp.body_misaligned answers line aligned rest input
      obtain ⟨more, extended, another⟩ :=
        ftp.returns_first answers later action left kept goes _ returns
      obtain ⟨same, others⟩ := List.cons.inj (List.append_cancel_left extended)
      rcases differs with apart | ⟨goesOn, last⟩
      · exact apart same.symm
      · refine another goesOn ?_
        rw [← others, last, scriptActions, ite_self]

theorem oneActionPerLine_iff_returns (connect : List UInt8 → Int → Int) (answers : Nat → Int)
    (program host : List UInt8) (rest : List (List UInt8)) (lines : List FtpLine)
    (connected : connect host (ftpPort rest) = 0) :
    OneActionPerLine connect answers (program :: host :: rest) lines ↔
      Loop.Returns (FtpWords.body answers) (wordsStart (lines.flatMap FtpLine.words))
        (scriptActions answers 0 lines) := by
  rw [← words_scriptText, ← ftp_returns_iff]
  refine exists_congr fun bound => ?_
  rw [myFtp, connected]
  simp only [ne_eq, not_true_eq_false, if_false]
  cases Loop.run (ftpBody answers) bound (ftpStart (scriptText lines)) with
  | error fault => simp
  | ok left => simp

/-- `my_ftp` performs one action for each line exactly when some line ends the session and no line
before it is a raw command that has no parameter or begins with the word of another branch.

The lines are those of a script that was typed, and the connection to the host was made. A raw
command takes its parameter from the next line when it has none on its own. -/
theorem one_action_per_line_iff (connect : List UInt8 → Int → Int) (answers : Nat → Int)
    (program host : List UInt8) (rest : List (List UInt8)) (lines : List FtpLine)
    (connected : connect host (ftpPort rest) = 0) :
    OneActionPerLine connect answers (program :: host :: rest) lines ↔
      ScriptAligned answers 0 lines := by
  rw [oneActionPerLine_iff_returns connect answers program host rest lines connected]
  exact script_words_iff answers lines (wordsStart (lines.flatMap FtpLine.words)) rfl

/-- The word `PWD`. -/
def pwdWord : FtpWord where
  bytes := text "PWD"
  nonempty := by decide
  noBlank := noBlank_of_all (by decide)
  noNUL := by decide
  short := by decide

/-- A session that logs in, sends a command with a parameter and quits. -/
theorem one_action_per_line_iff_login :
    OneActionPerLine (fun _ _ => 0) (fun _ => 0) [text "ftp", text "host"]
      [.login pwdWord pwdWord, .raw pwdWord (by decide) (some pwdWord), .quit] :=
  (one_action_per_line_iff (fun _ _ => 0) (fun _ => 0) (text "ftp") (text "host") [] _ rfl).mpr
    ⟨trivial, .inr ⟨⟨rfl, by decide⟩, .inr ⟨trivial, .inl rfl⟩⟩⟩

/-- `quit` is taken for the parameter of `PWD`. -/
theorem pwd_takes_quit :
    ¬ OneActionPerLine (fun _ _ => 0) (fun _ => 0) [text "ftp", text "host"]
      [.raw pwdWord (by decide) none, .quit] := by
  rw [oneActionPerLine_iff_returns _ _ _ _ _ _ rfl]
  intro returns
  have aligned := (script_words_iff (fun _ => 0) [.raw pwdWord (by decide) none, .quit]
    (wordsStart _) rfl).mp returns
  exact absurd aligned.1.1 Bool.false_ne_true

end Netmt
