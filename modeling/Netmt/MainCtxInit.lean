/-
This file models `main_ctx_init`, of which there are two: the one of libhv's
`hmain.cpp`, and the copy in `ping.h` with other paths, which is the one that `_Ping`
calls.

Before the command line is saved, the paths of the log directory, of the
configuration file, of the pid file and of the log file are made with `snprintf`. The
copy in `ping.h` writes two `%s` into the path of the log directory and passes one
argument, so what `snprintf` takes for the other is not there to be read: none of its
runs gets beyond this line.
-/
import Netmt.Logger
import Netmt.SavedArgs

namespace Netmt

open CMem

/-! ### Formats -/

/-- The arrays that `main_ctx_init` can run off. -/
inductive InitObject where
  /-- The arguments behind the format of a call of `snprintf`. -/
  | arguments
  | programName
  | log (object : LogObject)
  | save (object : SaveObject)
  deriving DecidableEq, Repr

/-- A piece of a format. -/
inductive FormatPiece where
  | literal (bytes : List UInt8)
  /-- `%s`. -/
  | str
  deriving DecidableEq, Repr

/-- What the pieces of a format become. A conversion without an argument is undefined behaviour:
there is nothing behind the last argument that may be read. -/
def formatted : List FormatPiece → List (List UInt8) → Exec InitObject (List UInt8)
  | [], _ => .ok []
  | .literal bytes :: pieces, arguments => do
    let rest ← formatted pieces arguments
    .ok (bytes ++ rest)
  | .str :: pieces, argument :: arguments => do
    let rest ← formatted pieces arguments
    .ok (argument ++ rest)
  | .str :: _, [] => .error (.outOfBounds .arguments)

/-- `MAX_PATH`. -/
def maxPath : Nat := 260

/-- `snprintf` into an array of `MAX_PATH` bytes, which keeps the last for the terminator. -/
def snprintfPath (pieces : List FormatPiece) (arguments : List (List UInt8)) :
    Exec InitObject (List UInt8) := do
  let whole ← formatted pieces arguments
  .ok (whole.take (maxPath - 1))

/-! ### The function -/

/-- What the system tells `main_ctx_init`. -/
structure InitEnv where
  /-- What `getcwd` stores in `run_dir`; nothing when the path is too long. -/
  runDir : CText
  /-- The path of the executable, which stands in for an empty `argv`. -/
  executable : CText

/-- `hv_basename`. -/
def hvBasename (filepath : List UInt8) : List UInt8 :=
  match strrchr 47 filepath with
  | some index => filepath.drop (index + 1)
  | none => filepath

/-- The fields of `g_main_ctx` that are set, and the default logger. -/
structure InitCtx where
  confile : List UInt8
  pidfile : List UInt8
  logfile : List UInt8
  logger : Logger
  args : SavedArgs

/-- The formats of the four paths. -/
structure InitPaths where
  logdir : List FormatPiece
  confile : List FormatPiece
  pidfile : List FormatPiece
  logfile : List FormatPiece

/-- `main_ctx_init` up to the saved command line; `none` when the process exits. Both of them pass
`run_dir` alone to the first `snprintf`. -/
def mainCtxInit (paths : InitPaths) (env : InitEnv) (argv : List CText) :
    Exec InitObject (Option InitCtx) := do
  let argv := if argv = [] then [env.executable] else argv
  let runDir := env.runDir.bytes
  let stored := CharArray.strncpy maxPath (hvBasename (argv.headD env.executable).bytes)
  let _ ← snprintfPath paths.logdir [runDir]
  let programName ← stored.string InitObject.programName
  let confile ← snprintfPath paths.confile [runDir, programName]
  let pidfile ← snprintfPath paths.pidfile [runDir, programName]
  let logfile ← snprintfPath paths.logfile [runDir, programName]
  let logger ← (Logger.init.setFile logfile).embed InitObject.log
  let saved ← (saveArgs argv).embed InitObject.save
  .ok (saved.map fun args => { confile, pidfile, logfile, logger, args })

/-- The paths in `ping.h`. -/
def pingPaths : InitPaths where
  logdir := [.str, .literal (text "/out/logs/"), .str, .literal (text ".log")]
  confile := [.str, .literal (text "/out/etc/"), .str, .literal (text ".conf")]
  pidfile := [.str, .literal (text "/out/logs/"), .str, .literal (text ".pid")]
  logfile := [.str, .literal (text "/out/logs/"), .str, .literal (text ".log")]

/-- After `main_ctx_init` the command line is saved, and nothing outside the blocks was written. -/
def SavesCommandLine (paths : InitPaths) (env : InitEnv) (argv : List CText) : Prop :=
  ∃ ctx, mainCtxInit paths env argv = .ok (some ctx) ∧ IsSaved argv ctx.args

/-! ### The copy in `ping.h` -/

/-- The second `%s` in the path of the log directory has no argument. -/
theorem mainCtxInit_pingPaths (env : InitEnv) (argv : List CText) :
    mainCtxInit pingPaths env argv = .error (.outOfBounds .arguments) := rfl

/-- The `main_ctx_init` of `ping.h` saves no command line: whatever the arguments are, the
`snprintf` that makes the path of the log directory reads an argument that it was not given.

The directory and the name of the program do not matter, since the argument is read before either
could be cut short, and the loops that save the command line stand behind this call. -/
theorem never_saves_command_line (env : InitEnv) (program : CText) (arguments : List CText) :
    ¬ SavesCommandLine pingPaths env (program :: arguments) := by
  rintro ⟨ctx, ran, -⟩
  rw [mainCtxInit_pingPaths] at ran
  cases ran

/-- `_Ping` in the directory `/root`, called as `ping`. -/
theorem ping_init_undefined :
    ¬ SavesCommandLine pingPaths ⟨⟨text "/root", by decide⟩, ⟨text "/root/ping", by decide⟩⟩
      [⟨text "ping", by decide⟩] := by
  rintro ⟨ctx, ran, -⟩
  cases ran

/-! ### The one in `hmain.cpp` -/

/-- A path in the current directory, as `snprintf` cuts it. -/
def InitEnv.path (env : InitEnv) (directory name suffix : List UInt8) : List UInt8 :=
  (env.runDir.bytes ++ (directory ++ (name ++ (suffix ++ [])))).take (maxPath - 1)

theorem InitEnv.length_path (env : InitEnv) (directory name suffix : List UInt8) :
    (env.path directory name suffix).length =
      min 259 (env.runDir.bytes.length + (directory.length + (name.length + suffix.length))) := by
  unfold InitEnv.path maxPath
  simp

end Netmt
