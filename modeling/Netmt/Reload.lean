/-
This file models `parse_confile` of the tool server, which reads the
configuration at start-up and again at every reload, and relates what a reload
leaves to what a fresh start would set.

The numbers of `g_conf_ctx` are computed anew from the file. The log settings are
written only when the file speaks of them, so each file is an update laid over
the settings before it.
-/
import Netmt.Lib.Overlay
import Netmt.Ini
import Netmt.Logger

namespace Netmt

open CMem

/-! ### The process and its configuration -/

/-- `conf_ctx_t`; `parser` is the tree of its `IniParser`. -/
structure ConfCtx where
  parser : Option IniNode
  loglevel : LogLevel
  workerProcesses : Int
  workerThreads : Int
  port : Int
  deriving DecidableEq, Repr

/-- The globals that `parse_confile` writes: `g_conf_ctx`, `g_main_ctx.logfile` and the default
logger. -/
structure Process where
  conf : ConfCtx
  logfile : CharArray 260
  logger : Logger
  deriving DecidableEq, Repr

/-- What a process cannot change: the argument of `-p`, and the number of processors. -/
structure Args where
  szPort : Option (List UInt8)
  ncpu : Int

/-- How `parse_confile` ends. -/
inductive Outcome where
  | returned (process : Process)
  | exited (code : Int) (process : Process)
  deriving DecidableEq, Repr

/-- A process in front of its first `parse_confile`, after `conf_ctx_init`; `logfile` is the path
`main_ctx_init` made up. -/
def Process.init (logfile : CharArray 260) : Process where
  conf :=
    { parser := none, loglevel := .debug, workerProcesses := 0, workerThreads := 0, port := 0 }
  logfile := logfile
  logger := Logger.init

/-- `g_main_ctx.logfile` after its key. -/
def logfileOf (logfile : CharArray 260) (root : Option IniNode) : CharArray 260 :=
  let str := getValue root (text "logfile") []
  if str = [] then logfile else CharArray.strncpy 260 str

/-- The local `worker_processes`. -/
def workerProcessesOf (args : Args) (root : Option IniNode) : Int :=
  let str := getValue root (text "worker_processes") []
  if str = [] then 0 else if str = text "auto" then args.ncpu else atoi str

/-- The local `port`: the argument's, and if that is none or zero the file's. -/
def portOf (args : Args) (root : Option IniNode) : Int :=
  let port :=
    match args.szPort with
    | some szPort => atoi szPort
    | none => 0
  if port = 0 then getInt root (text "port") [] 0 else port

/-- The keys of the logger, from `loglevel` to `log_fsync`. -/
def logKeys (root : Option IniNode) (logger : Logger) : Logger :=
  let str := getValue root (text "loglevel") []
  let logger := if str = [] then logger else logger.setLevelByStr str
  let str := getValue root (text "log_filesize") []
  let logger := if str = [] then logger else logger.setMaxFilesizeByStr str
  let str := getValue root (text "log_remain_days") []
  let logger := if str = [] then logger else logger.setRemainDays (atoi str)
  let str := getValue root (text "log_fsync") []
  if str = [] then logger else logger.setFsync (getboolean str)

/-- `parse_confile`; no contents means that the file cannot be opened. -/
def parseConfile (args : Args) (process : Process) (confile : Option (List UInt8)) :
    Exec LogObject Outcome :=
  let (ret, root) := loadFromFile process.conf.parser confile
  let conf := { process.conf with parser := root }
  if ret ≠ 0 then
    .ok (.exited (-40) { process with conf })
  else do
    let logfile := logfileOf process.logfile root
    let logger ← process.logger.setFile logfile.bytes
    let logger := logKeys root logger
    let conf := { conf with
      workerProcesses := limit 0 (workerProcessesOf args root) 1024
      workerThreads := limit 0 (getInt root (text "worker_threads") [] 0) 16 }
    let port := portOf args root
    if port = 0 then .ok (.exited (-10) { conf, logfile, logger })
    else .ok (.returned { conf := { conf with port }, logfile, logger })

/-- `on_reload`. -/
def onReload (args : Args) (process : Process) (confile : Option (List UInt8)) :
    Exec LogObject Outcome :=
  parseConfile args process confile

/-- Reloads one after the other. A process that exits reads no more files. -/
def reloads (args : Args) : Process → List (Option (List UInt8)) → Exec LogObject Outcome
  | process, [] => .ok (.returned process)
  | process, confile :: rest => do
    match ← onReload args process confile with
    | .returned next => reloads args next rest
    | .exited code next => .ok (.exited code next)

/-- A process that is started with the first file and then reloads the others. -/
def session (args : Args) (logfile : CharArray 260) :
    List (Option (List UInt8)) → Exec LogObject Outcome
  | [] => .ok (.returned (Process.init logfile))
  | first :: rest => do
    match ← parseConfile args (Process.init logfile) first with
    | .returned process => reloads args process rest
    | .exited code process => .ok (.exited code process)

/-- Starting is a first reload. -/
theorem session_eq (args : Args) (logfile : CharArray 260) (files : List (Option (List UInt8))) :
    session args logfile files = reloads args (Process.init logfile) files := by
  cases files <;> rfl

/-! ### A file as an update -/

/-- The settings that `parse_confile` writes only when their key is there. -/
inductive LogSetting where
  | logfile | loglevel | logFilesize | logRemainDays | logFsync
  deriving DecidableEq, Repr

/-- What a setting is set to. -/
abbrev LogSetting.Value : LogSetting → Type
  | .logfile => List UInt8
  | .loglevel => LogLevel
  | .logFilesize => Nat
  | .logRemainDays => Int
  | .logFsync => Bool

/-- What a file gives the settings. A log size is given by a positive number only:
`logger_set_max_filesize_by_str` ignores any other value, `log_filesize = 0` among them, and leaves
the size as it was. -/
def given (root : Option IniNode) : Overlay.Update LogSetting.Value
  | .logfile =>
    let str := getValue root (text "logfile") []
    if str = [] then none else some (removeSuffix str)
  | .loglevel =>
    let str := getValue root (text "loglevel") []
    if str = [] then none else some (logLevelOf str)
  | .logFilesize =>
    let str := getValue root (text "log_filesize") []
    if str = [] then none else filesizeOf str
  | .logRemainDays =>
    let str := getValue root (text "log_remain_days") []
    if str = [] then none else some (atoi str)
  | .logFsync =>
    let str := getValue root (text "log_fsync") []
    if str = [] then none else some (getboolean str)

/-- The settings of a process. -/
def Process.settings (process : Process) : ∀ setting, LogSetting.Value setting
  | .logfile => removeSuffix process.logfile.bytes
  | .loglevel => process.logger.level
  | .logFilesize => process.logger.maxFilesize
  | .logRemainDays => process.logger.remainDays
  | .logFsync => process.logger.enableFsync

/-- The process is as `parse_confile` leaves it after this file: the numbers are the file's, and
the logger's path is the log file's. -/
structure Settled (args : Args) (root : Option IniNode) (process : Process) : Prop where
  workerProcesses :
    process.conf.workerProcesses = limit 0 (workerProcessesOf args root) 1024
  workerThreads :
    process.conf.workerThreads = limit 0 (getInt root (text "worker_threads") [] 0) 16
  port : process.conf.port = portOf args root
  short : process.logfile.bytes.length < 256
  filepath : process.logger.filepath = CharArray.strncpy 256 (process.settings .logfile)

/-- The log file path a file gives, if it gives one, leaves room for a terminator. -/
def ShortLogfile (data : List UInt8) : Prop :=
  (getValue (some (loadFromMem data)) (text "logfile") []).length < 256

instance (data : List UInt8) : Decidable (ShortLogfile data) :=
  inferInstanceAs (Decidable (_ < _))

/-- And so does the one in effect after the file, in a process that had the given one. -/
def Startable (logfile : CharArray 260) (data : List UInt8) : Prop :=
  (logfileOf logfile (some (loadFromMem data))).bytes.length < 256

instance (logfile : CharArray 260) (data : List UInt8) : Decidable (Startable logfile data) :=
  inferInstanceAs (Decidable (_ < _))

section Parse

variable (args : Args) (process : Process) (data : List UInt8)

/-- The process after a file, in front of the check of its port. -/
def configured (root : Option IniNode) : Process where
  conf :=
    { process.conf with
      parser := root
      workerProcesses := limit 0 (workerProcessesOf args root) 1024
      workerThreads := limit 0 (getInt root (text "worker_threads") [] 0) 16 }
  logfile := logfileOf process.logfile root
  logger := logKeys root { process.logger with
    filepath := CharArray.strncpy 256 (removeSuffix (logfileOf process.logfile root).bytes) }

/-- A file that can be opened, and how it ends. -/
theorem parseConfile_some :
    parseConfile args process (some data) =
      let root := some (loadFromMem data)
      let after := configured args process root
      if Startable process.logfile data then
        if portOf args root = 0 then .ok (.exited (-10) after)
        else .ok (.returned { after with conf := { after.conf with port := portOf args root } })
      else .error (.outOfBounds .filepath) := by
  have file : process.logger.setFile (logfileOf process.logfile (some (loadFromMem data))).bytes =
      if Startable process.logfile data then _ else _ := process.logger.setFile_eq _
  dsimp only
  by_cases startable : Startable process.logfile data
  · rw [if_pos startable]
    rw [if_pos startable] at file
    show process.logger.setFile _ >>= _ = _
    rw [file]
    rfl
  · rw [if_neg startable]
    rw [if_neg startable] at file
    show process.logger.setFile _ >>= _ = _
    rw [file]
    rfl

/-- The keys of the logger change what the file gives, and nothing else. -/
theorem logKeys_eq (root : Option IniNode) (logger : Logger) :
    logKeys root logger =
      { level := (given root .loglevel).getD logger.level
        filepath := logger.filepath
        maxFilesize := (given root .logFilesize).getD logger.maxFilesize
        remainDays := (given root .logRemainDays).getD logger.remainDays
        enableFsync := (given root .logFsync).getD logger.enableFsync } := by
  unfold logKeys given
  simp only [Logger.setMaxFilesizeByStr_eq, Logger.setLevelByStr, Logger.setRemainDays,
    Logger.setFsync]
  split_ifs <;> rfl

theorem logfileOf_short_iff (logfile : CharArray 260) (root : Option IniNode) :
    (logfileOf logfile root).bytes.length < 256 ↔
      (getValue root (text "logfile") []).length < 256 ∧
        (getValue root (text "logfile") [] = [] → logfile.bytes.length < 256) := by
  unfold logfileOf
  by_cases absent : getValue root (text "logfile") [] = []
  · simp [absent]
  · simp only [absent, if_false, false_implies, and_true]
    show (List.take 260 _).length < 256 ↔ _
    rw [List.length_take]
    omega

/-- What the log file is after a file, as a setting. -/
theorem removeSuffix_logfileOf (logfile : CharArray 260) (root : Option IniNode)
    (short : (logfileOf logfile root).bytes.length < 256) :
    removeSuffix (logfileOf logfile root).bytes =
      (given root .logfile).getD (removeSuffix logfile.bytes) := by
  have value := ((logfileOf_short_iff logfile root).mp short).1
  unfold logfileOf given
  by_cases absent : getValue root (text "logfile") [] = []
  · simp [absent]
  · simp only [absent, if_false, Option.getD_some]
    show removeSuffix (List.take 260 _) = _
    rw [List.take_of_length_le (by omega)]

/-- A file is an update of the settings. -/
theorem settings_configured (root : Option IniNode)
    (short : (logfileOf process.logfile root).bytes.length < 256) :
    (configured args process root).settings = Overlay.apply process.settings (given root) := by
  funext setting
  cases setting with
  | logfile => exact removeSuffix_logfileOf process.logfile root short
  | _ =>
    show _ = Option.getD _ _
    simp only [Process.settings, configured, logKeys_eq]

/-- With a port, `parse_confile` sets what the file gives. -/
theorem parseConfile_returned
    (startable : Startable process.logfile data)
    (port : portOf args (some (loadFromMem data)) ≠ 0) :
    ∃ after, parseConfile args process (some data) = .ok (.returned after) ∧
      Settled args (some (loadFromMem data)) after ∧
      after.settings = Overlay.apply process.settings (given (some (loadFromMem data))) := by
  refine ⟨{ configured args process (some (loadFromMem data)) with
    conf := { (configured args process (some (loadFromMem data))).conf with
      port := portOf args (some (loadFromMem data)) } }, ?_, ?_,
    settings_configured args process _ startable⟩
  · rw [parseConfile_some]
    dsimp only
    rw [if_pos startable, if_neg port]
  · refine ⟨rfl, rfl, rfl, startable, ?_⟩
    show (logKeys _ _).filepath = _
    rw [logKeys_eq]
    rfl

end Parse

/-! ### One reload -/

section Sessions

variable {args : Args}

/-- The update of each file. -/
def updates (files : List (List UInt8)) : List (Overlay.Update LogSetting.Value) :=
  files.map fun data => given (some (loadFromMem data))

/-- Files with ports are read one after the other unless a log file path has no terminator. -/
theorem reloads_returned_iff (files : List (List UInt8)) (process : Process)
    (ports : ∀ data ∈ files, portOf args (some (loadFromMem data)) ≠ 0) :
    (∃ after, reloads args process (files.map some) = .ok (.returned after)) ↔
      (∀ data ∈ files, ShortLogfile data) ∧
        ∀ data ∈ files.head?, Startable process.logfile data := by
  induction files generalizing process with
  | nil => simp [reloads]
  | cons data rest inductionHypothesis =>
    obtain ⟨port, others⟩ := List.forall_mem_cons.mp ports
    rw [List.map_cons, reloads, List.forall_mem_cons]
    by_cases startable : Startable process.logfile data
    · obtain ⟨next, parsed, settled, -⟩ :=
        parseConfile_returned args process data startable port
      have shortData : ShortLogfile data :=
        ((logfileOf_short_iff process.logfile (some (loadFromMem data))).mp startable).1
      rw [onReload, parsed, ok_bind]
      dsimp only
      rw [inductionHypothesis next others]
      constructor
      · rintro ⟨shortRest, -⟩
        refine ⟨⟨shortData, shortRest⟩, ?_⟩
        rintro first ⟨⟩
        exact startable
      · rintro ⟨⟨-, shortRest⟩, -⟩
        refine ⟨shortRest, fun first isHead => ?_⟩
        refine (logfileOf_short_iff next.logfile (some (loadFromMem first))).mpr ⟨?_, ?_⟩
        · exact shortRest first (List.mem_of_mem_head? isHead)
        · exact fun _ => settled.short
    · constructor
      · rintro ⟨after, ran⟩
        rw [onReload, parseConfile_some] at ran
        dsimp only at ran
        rw [if_neg startable, error_bind] at ran
        cases ran
      · rintro ⟨-, first⟩
        exact absurd (first data rfl) startable

/-- What a run of reloads leaves: the settings of all files laid over each other, and the numbers
of the last. -/
theorem reloads_settings (files : List (List UInt8)) (process after : Process)
    (ports : ∀ data ∈ files, portOf args (some (loadFromMem data)) ≠ 0)
    (ran : reloads args process (files.map some) = .ok (.returned after)) :
    after.settings = (updates files).foldl Overlay.apply process.settings ∧
      ∀ data ∈ files.getLast?, Settled args (some (loadFromMem data)) after := by
  induction files generalizing process with
  | nil =>
    cases ran
    exact ⟨rfl, fun _ none => nomatch none⟩
  | cons data rest inductionHypothesis =>
    obtain ⟨port, others⟩ := List.forall_mem_cons.mp ports
    have startable : Startable process.logfile data :=
      ((reloads_returned_iff (data :: rest) process ports).mp ⟨after, ran⟩).2 data rfl
    obtain ⟨next, parsed, settled, settings⟩ :=
      parseConfile_returned args process data startable port
    rw [List.map_cons, reloads, onReload, parsed, ok_bind] at ran
    obtain ⟨laid, last⟩ := inductionHypothesis next others ran
    refine ⟨?_, ?_⟩
    · rw [laid, settings]
      rfl
    · cases rest with
      | nil =>
        rintro other ⟨⟩
        cases ran
        exact settled
      | cons _ _ => exact last

/-- The settings that the two processes work with are the same. -/
structure SameConfiguration (after fresh : Process) : Prop where
  workerProcesses : after.conf.workerProcesses = fresh.conf.workerProcesses
  workerThreads : after.conf.workerThreads = fresh.conf.workerThreads
  port : after.conf.port = fresh.conf.port
  logfile : after.logger.filepath = fresh.logger.filepath
  loglevel : after.logger.level = fresh.logger.level
  logFilesize : after.logger.maxFilesize = fresh.logger.maxFilesize
  logRemainDays : after.logger.remainDays = fresh.logger.remainDays
  logFsync : after.logger.enableFsync = fresh.logger.enableFsync

/-- After the same last file, processes differ in their log settings if at all. -/
theorem Settled.same_iff {root : Option IniNode} {after fresh : Process}
    (settledAfter : Settled args root after) (settledFresh : Settled args root fresh) :
    SameConfiguration after fresh ↔ after.settings = fresh.settings := by
  have whole {process : Process} (settled : Settled args root process) :
      process.logger.filepath.bytes = process.settings .logfile := by
    have length : (process.settings .logfile).length ≤ process.logfile.bytes.length :=
      removeSuffix_length_le _
    rw [settled.filepath]
    exact List.take_of_length_le (length.trans settled.short.le)
  constructor
  · intro same
    funext setting
    cases setting with
    | logfile => rw [← whole settledAfter, ← whole settledFresh, same.logfile]
    | loglevel => exact same.loglevel
    | logFilesize => exact same.logFilesize
    | logRemainDays => exact same.logRemainDays
    | logFsync => exact same.logFsync
  · intro same
    refine ⟨?_, ?_, ?_, ?_, congrFun same .loglevel, congrFun same .logFilesize,
      congrFun same .logRemainDays, congrFun same .logFsync⟩
    · rw [settledAfter.workerProcesses, settledFresh.workerProcesses]
    · rw [settledAfter.workerThreads, settledFresh.workerThreads]
    · rw [settledAfter.port, settledFresh.port]
    · rw [settledAfter.filepath, settledFresh.filepath, same]

/-- The paths of a sequence of files, and of its last file alone, have room for their
terminators. -/
theorem startable_both_iff (logfile : CharArray 260) (earlier : List (List UInt8))
    (last : List UInt8) :
    ((∀ data ∈ earlier ++ [last], ShortLogfile data) ∧
      ∀ data ∈ (earlier ++ [last]).head?, Startable logfile data) ∧
        ((∀ data ∈ [last], ShortLogfile data) ∧ ∀ data ∈ [last].head?, Startable logfile data) ↔
      Startable logfile last ∧ (∀ data ∈ earlier.head?, Startable logfile data) ∧
        ∀ data ∈ earlier, ShortLogfile data := by
  have short (startable : Startable logfile last) : ShortLogfile last :=
    ((logfileOf_short_iff logfile (some (loadFromMem last))).mp startable).1
  have first (startable : Startable logfile last) :
      (∀ data ∈ (earlier ++ [last]).head?, Startable logfile data) ↔
        ∀ data ∈ earlier.head?, Startable logfile data := by
    cases earlier with
    | nil => simpa using startable
    | cons head rest => rfl
  constructor
  · rintro ⟨⟨shorts, head⟩, -, alone⟩
    have startable : Startable logfile last := alone last rfl
    exact ⟨startable, (first startable).mp head,
      fun data member => shorts data (List.mem_append_left _ member)⟩
  · rintro ⟨startable, head, shorts⟩
    refine ⟨⟨?_, (first startable).mpr head⟩, ?_, ?_⟩
    · rw [List.forall_mem_append, List.forall_mem_singleton]
      exact ⟨shorts, short startable⟩
    · rw [List.forall_mem_singleton]
      exact short startable
    · rintro data ⟨⟩
      exact startable

/-- A session over some files and one started with the last of them both come to run, with the
same configuration. -/
def LikeFresh (args : Args) (logfile : CharArray 260) (earlier : List (List UInt8))
    (last : List UInt8) : Prop :=
  ∃ after fresh,
    session args logfile ((earlier ++ [last]).map some) = .ok (.returned after) ∧
      session args logfile [some last] = .ok (.returned fresh) ∧ SameConfiguration after fresh

/-- Reloads are as good as a fresh start exactly when every log setting is given by the last file,
or was not changed by the earlier ones.

A log setting that a file does not give keeps its value, so one that an earlier file changed is
still there. Both `Startable` and `ShortLogfile` say that a path of a log file leaves room for the
terminator of the logger's array. -/
theorem reload_like_fresh_iff (args : Args) (logfile : CharArray 260)
    (earlier : List (List UInt8)) (last : List UInt8)
    (ports : ∀ data ∈ earlier ++ [last], portOf args (some (loadFromMem data)) ≠ 0) :
    LikeFresh args logfile earlier last ↔
      (Startable logfile last ∧ (∀ data ∈ earlier.head?, Startable logfile data) ∧
        ∀ data ∈ earlier, ShortLogfile data) ∧
      ∀ setting, given (some (loadFromMem last)) setting ≠ none ∨
        ∀ value, Overlay.lastGiven (updates earlier) setting = some value →
          value = (Process.init logfile).settings setting := by
  have lastPort : ∀ data ∈ [last], portOf args (some (loadFromMem data)) ≠ 0 := by
    rintro data (_ | ⟨_, ⟨⟩⟩)
    exact ports last (by simp)
  have started := reloads_returned_iff (earlier ++ [last]) (Process.init logfile) ports
  have startedLast := reloads_returned_iff [last] (Process.init logfile) lastPort
  have same (after fresh : Process)
      (ran : reloads args (Process.init logfile) ((earlier ++ [last]).map some) =
        .ok (.returned after))
      (ranLast : reloads args (Process.init logfile) [some last] = .ok (.returned fresh)) :
      SameConfiguration after fresh ↔
        ∀ setting, given (some (loadFromMem last)) setting ≠ none ∨
          ∀ value, Overlay.lastGiven (updates earlier) setting = some value →
            value = (Process.init logfile).settings setting := by
    obtain ⟨laid, settled⟩ := reloads_settings _ _ _ ports ran
    obtain ⟨laidLast, settledLast⟩ := reloads_settings [last] _ _ lastPort ranLast
    rw [(settled last (by simp)).same_iff (settledLast last rfl), laid, laidLast, updates,
      List.map_append, List.foldl_append]
    exact Overlay.apply_foldl_eq_iff _ _ _
  rw [← startable_both_iff, LikeFresh]
  simp only [session_eq]
  constructor
  · rintro ⟨after, fresh, ran, ranLast, alike⟩
    exact ⟨⟨started.mp ⟨after, ran⟩, startedLast.mp ⟨fresh, ranLast⟩⟩,
      (same after fresh ran ranLast).mp alike⟩
  · rintro ⟨⟨read, readLast⟩, kept⟩
    obtain ⟨after, ran⟩ := started.mpr read
    obtain ⟨fresh, ranLast⟩ := startedLast.mpr readLast
    exact ⟨after, fresh, ran, ranLast, (same after fresh ran ranLast).mpr kept⟩

end Sessions

/-- A reload that changes the log level. -/
theorem reload_like_fresh_iff_level_given :
    LikeFresh ⟨none, 4⟩ (CharArray.strncpy 260 (text "/opt/tool.log"))
      [text "port=1\nloglevel=ERROR\n"] (text "port=1\nloglevel=WARN\n") := by
  refine (reload_like_fresh_iff ⟨none, 4⟩ (CharArray.strncpy 260 (text "/opt/tool.log"))
    [text "port=1\nloglevel=ERROR\n"] (text "port=1\nloglevel=WARN\n") (by decide)).mpr
    ⟨⟨by decide, by decide, by decide⟩, fun setting => ?_⟩
  cases setting with
  | loglevel => exact Or.inl (by decide)
  | _ => exact Or.inr (fun value isGiven => nomatch isGiven)

/-- A level that the file no longer gives stays. -/
theorem reload_keeps_removed_level :
    ¬ LikeFresh ⟨none, 4⟩ (CharArray.strncpy 260 (text "/opt/tool.log"))
      [text "port=1\nloglevel=ERROR\n"] (text "port=1\n") := by
  rintro ⟨after, fresh, ran, ranLast, same⟩
  rw [session_eq] at ran ranLast
  obtain ⟨settings, -⟩ := reloads_settings [text "port=1\nloglevel=ERROR\n", text "port=1\n"] _ _
    (by decide) ran
  obtain ⟨settingsLast, -⟩ := reloads_settings [text "port=1\n"] _ _ (by decide) ranLast
  have level : after.logger.level = .error := (congrFun settings .loglevel).trans (by decide)
  have levelLast : fresh.logger.level = .info := (congrFun settingsLast .loglevel).trans (by decide)
  have levels := same.loglevel
  rw [level, levelLast] at levels
  cases levels

end Netmt
