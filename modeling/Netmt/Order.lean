/-
This file models `order_main`, the entry of the tool server, from its command line
to the workers, and relates what it does to what `-o` asks for.

The operation and its path are taken from fixed places of `argv`, and the name is
compared with `==`, which asks where two strings are and not what they say. An
argument is never where a literal is, so no operation is ever applied to a path.
The run does not get that far either: `-o` has an optional argument, for which the
parser stores the null pointer.
-/
import Netmt.Reload
import Netmt.Spellings

namespace Netmt

open CMem

/-! ### What order_main does -/

/-- The operations of `-o`. -/
inductive Operation where
  /-- `ls_dir` -/
  | ls
  /-- `hv_mkdir_p` -/
  | mkdir
  /-- `hv_rmdir_p` -/
  | rmdir
  /-- `mytouch` -/
  | touch
  /-- `my_cat` -/
  | cat
  /-- `my_vim` -/
  | vim
  deriving DecidableEq, Repr

/-- The literal an operation is compared with. -/
def Operation.name : Operation → String
  | .ls => "ls"
  | .mkdir => "mkdir"
  | .rmdir => "rmdir"
  | .touch => "touch"
  | .cat => "cat"
  | .vim => "vim"

/-- The operations, in the order of the comparisons. -/
def operations : List Operation := [.ls, .mkdir, .rmdir, .touch, .cat, .vim]

/-- What `order_main` does that can be seen from outside. -/
inductive OrderEvent where
  | printf (call : Printf)
  | operation (operation : Operation) (path : List UInt8)
  /-- `kill_proc`, or `SIGNAL_RELOAD`. -/
  | kill (pid : Int) (reload : Bool)
  /-- `create_pidfile`. -/
  | pidfile
  deriving DecidableEq, Repr

/-- How `order_main` ends: it exits, or it comes to `master_workers_run`. -/
inductive OrderEnd where
  | exited (code : Int)
  | workers (port workerProcesses workerThreads : Int)
  deriving DecidableEq, Repr

/-- A run of `order_main`. -/
structure OrderRun where
  events : List OrderEvent
  ending : OrderEnd
  deriving DecidableEq, Repr

/-- What `main_ctx_init` sets, and what the system answers. -/
structure OrderEnv where
  programName : List UInt8
  oldpid : Int
  confile : CharArray 260
  logfile : CharArray 260
  /-- The files that can be opened, with their contents. -/
  files : List UInt8 → Option (List UInt8)
  ncpu : Int
  /-- The result of `daemon`. -/
  daemon : Int

/-- `default_version`. -/
def defaultVersion : List UInt8 :=
  text "\r\nHello, this is Tool(version V0.0.1).\r\nCopyright 2021-2022 .\r\n"

/-- `options`. -/
def options : List UInt8 := text "hvc:ts:dp:o"

/-- `detail_options`. -/
def detailOptions : List UInt8 := text "
  -h|--help                 Print this information
  -v|--version              Print version
  -c|--confile <confile>    Set configure file, default etc/{program}.conf
  -t|--test                 Test configure file and exit
  -s|--signal <signal>      Send <signal> to process,
                            <signal>=[start,stop,restart,status,reload]
  -d|--daemon               Daemonize
  -p|--port <port>          Set listen port
  -o|--basic command        common command: ls, mkdir, rm, touch
"

/-- `command`. -/
def commandUsage : List UInt8 := text "
    Usage:
        -o ls
           mkdir
           rmdir
           touch
           cat
           vim
"

/-- `print_help`. -/
def printHelp (env : OrderEnv) : List OrderEvent :=
  [.printf ⟨"Usage: %s [%s]\n", [.str env.programName, .str options]⟩,
    .printf ⟨"Options:\n%s\n", [.str detailOptions]⟩]

/-- `print_version`. -/
def printVersion : List OrderEvent := [.printf ⟨"%s\n", [.str defaultVersion]⟩]

/-- `get_arg`. -/
def MainCtx.getArg (ctx : MainCtx) (key : String) : Option (List UInt8) := ctx.argKv (text key)

/-- `signal_handle`: what it does, and the code it exits with if it does not return. -/
def signalHandle (env : OrderEnv) (confile signal : List UInt8) :
    List OrderEvent × Option Int :=
  let running := env.oldpid > 0
  let started : OrderEvent := .printf ⟨"%s start/running\n", [.str env.programName]⟩
  let waiting : OrderEvent := .printf ⟨"%s stop/waiting\n", [.str env.programName]⟩
  if signal = text "start" then
    if running then
      ([.printf ⟨"%s is already running, pid=%d\n", [.str env.programName, .int env.oldpid]⟩],
        some 0)
    else ([started], none)
  else if signal = text "stop" then
    if running then ([.kill env.oldpid false, waiting], some 0)
    else ([.printf ⟨"%s is already stopped\n", [.str env.programName]⟩], some 0)
  else if signal = text "restart" then
    if running then ([.kill env.oldpid false, waiting, started], none)
    else ([started], none)
  else if signal = text "status" then
    if running then
      ([.printf ⟨"%s start/running, pid=%d\n", [.str env.programName, .int env.oldpid]⟩], some 0)
    else ([waiting], some 0)
  else if signal = text "reload" then
    if running then
      ([.printf ⟨"reload confile [%s]\n", [.str confile]⟩, .kill env.oldpid true], some 0)
    else ([], some 0)
  else ([.printf ⟨"Invalid signal: '%s'\n", [.str signal]⟩], some 0)

/-- The signal of the command line, if there is one. -/
def signalArg (env : OrderEnv) (confile : List UInt8) :
    Option (List UInt8) → List OrderEvent × Option Int
  | some signal => signalHandle env confile signal
  | none => ([], none)

/-- `ls_dir`. -/
def lsDir (argv : List (List UInt8)) : OrderEvent :=
  .operation .ls (if 3 < argv.length then argv.getD 3 [] else text ".")

/-- `argv[index]`. -/
def argvPtr (argv : List (List UInt8)) (index : Nat) : Ptr ArgObject :=
  ⟨.argv index, argv.getD index [] ++ [0]⟩

/-- A string literal. -/
def literalPtr (characters : String) : Ptr ArgObject := ⟨.literal, text characters ++ [0]⟩

/-- The branches of `-o`. -/
def dispatch (argv : List (List UInt8)) : List OrderEvent :=
  if argv.length < 3 then
    [.printf ⟨"%s\n, usage:%s", [.str (text "invalid command"), .str commandUsage]⟩]
  else if argv.length = 3 then [lsDir argv]
  else
    (operations.filter fun operation =>
        (argvPtr argv 2).same (literalPtr operation.name)).map fun operation =>
      if operation = .ls then lsDir argv else .operation operation (argv.getD 3 [])

/-- What `parse_confile` prints before it exits. -/
def confileMessage (confile : List UInt8) (code : Int) : OrderEvent :=
  if code = -40 then
    .printf ⟨"Load confile [%s] failed: %d\n", [.str confile, .int errOpenFile]⟩
  else .printf ⟨"Please config listen port!\n", []⟩

/-- `order_main` behind `parse_confile`. -/
def orderConfigured (env : OrderEnv) (ctx : MainCtx) (argv : List (List UInt8))
    (confile : List UInt8) (process : Process) : OrderRun :=
  if (ctx.getArg "t").isSome then
    ⟨[.printf ⟨"Test confile [%s] OK!\n", [.str confile]⟩], .exited 0⟩
  else
    let (signalled, stopped) := signalArg env confile (ctx.getArg "s")
    match stopped with
    | some code => ⟨signalled, .exited code⟩
    | none =>
      if (ctx.getArg "d").isSome ∧ env.daemon ≠ 0 then
        ⟨signalled ++ [.printf ⟨"daemon error: %d\n", [.int env.daemon]⟩], .exited (-10)⟩
      else
        let command := if (ctx.getArg "o").isSome then dispatch argv else []
        ⟨signalled ++ command ++ [.pidfile],
          .workers process.conf.port process.conf.workerProcesses process.conf.workerThreads⟩

/-- `order_main` behind `parse_opt_long`. -/
def orderParsed (env : OrderEnv) (ctx : MainCtx) (argv : List (List UInt8)) :
    Exec ArgObject OrderRun :=
  if (ctx.getArg "h").isSome then .ok ⟨printHelp env, .exited 0⟩
  else if (ctx.getArg "v").isSome then .ok ⟨printVersion, .exited 0⟩
  else do
    let array :=
      match ctx.getArg "c" with
      | some confile => CharArray.strncpy 260 confile
      | none => env.confile
    let confile ← array.string ArgObject.confile
    let args : Args := { szPort := ctx.getArg "p", ncpu := env.ncpu }
    let parsed := parseConfile args (Process.init env.logfile) (env.files confile)
    match ← parsed.embed ArgObject.log with
    | .exited code _ => .ok ⟨[confileMessage confile code], .exited code⟩
    | .returned process => .ok (orderConfigured env ctx argv confile process)

/-- `order_main`, behind `main_ctx_init`. -/
def orderMain (env : OrderEnv) (ctx : MainCtx) (argv : List (List UInt8)) :
    Exec ArgObject OrderRun :=
  if argv.length = 1 then .ok ⟨printHelp env, .exited 10⟩
  else do
    let result ← parseOptLong longOptions ctx argv
    if result.ret ≠ 0 then
      .ok ⟨(result.printed.map OrderEvent.printf).toList ++ printHelp env, .exited result.ret⟩
    else orderParsed env result.ctx argv

/-! ### The operation that is asked for -/

/-- The operations a run applies, each with its path. -/
def operationsOf (events : List OrderEvent) : List (Operation × List UInt8) :=
  events.filterMap fun event =>
    match event with
    | .operation operation path => some (operation, path)
    | _ => none

/-- The run applies the operation to the path, and no other. -/
def RunsNamed (env : OrderEnv) (ctx : MainCtx) (argv : List (List UInt8)) (operation : Operation)
    (path : List UInt8) : Prop :=
  ∃ run, orderMain env ctx argv = .ok run ∧ operationsOf run.events = [(operation, path)]

/-- `prog A -o CMD PATH B`. -/
def commandLine (program : List UInt8) (before : List Request) (operation : Operation)
    (path : List UInt8) (after : List Request) : List (List UInt8) :=
  program :: (before.flatMap Request.render ++
    text "-o" :: text operation.name :: path :: after.flatMap Request.render)

@[simp] theorem operationsOf_append (first second : List OrderEvent) :
    operationsOf (first ++ second) = operationsOf first ++ operationsOf second :=
  List.filterMap_append

theorem operationsOf_printed (printed : Option Printf) :
    operationsOf (printed.map OrderEvent.printf).toList = [] := by
  cases printed with
  | none => rfl
  | some call => rfl

theorem operationsOf_printHelp (env : OrderEnv) : operationsOf (printHelp env) = [] := rfl

theorem operationsOf_signalHandle (env : OrderEnv) (confile signal : List UInt8) :
    operationsOf (signalHandle env confile signal).1 = [] := by
  unfold signalHandle
  dsimp only
  split_ifs <;> rfl

theorem operationsOf_signalArg (env : OrderEnv) (confile : List UInt8)
    (signal : Option (List UInt8)) : operationsOf (signalArg env confile signal).1 = [] := by
  cases signal with
  | none => rfl
  | some signal => exact operationsOf_signalHandle env confile signal

theorem operationsOf_confileMessage (confile : List UInt8) (code : Int) :
    operationsOf [confileMessage confile code] = [] := by
  unfold confileMessage
  split_ifs <;> rfl

/-- An argument is not where a literal is. -/
theorem argvPtr_same_literalPtr (argv : List (List UInt8)) (index : Nat) (characters : String) :
    (argvPtr argv index).same (literalPtr characters) = false :=
  Ptr.same_of_ne nofun

/-- So none of the comparisons succeeds. -/
theorem dispatch_of_long (argv : List (List UInt8)) (long : 3 < argv.length) :
    dispatch argv = [] := by
  unfold dispatch
  rw [if_neg (by omega), if_neg (by omega)]
  simp only [argvPtr_same_literalPtr, List.filter_false, List.map_nil]

theorem operationsOf_orderConfigured (env : OrderEnv) (ctx : MainCtx) (argv : List (List UInt8))
    (long : 3 < argv.length) (confile : List UInt8) (process : Process) :
    operationsOf (orderConfigured env ctx argv confile process).events = [] := by
  unfold orderConfigured
  by_cases test : (ctx.getArg "t").isSome
  · rw [if_pos test]
    rfl
  rw [if_neg test, dispatch_of_long argv long, ite_self]
  dsimp only
  have signalled := operationsOf_signalArg env confile (ctx.getArg "s")
  cases (signalArg env confile (ctx.getArg "s")).2 with
  | some code => exact signalled
  | none =>
    dsimp only
    split_ifs with failed
    · rw [operationsOf_append, signalled]
      rfl
    · rw [operationsOf_append, operationsOf_append, signalled]
      rfl

theorem operationsOf_orderParsed (env : OrderEnv) (ctx : MainCtx) (argv : List (List UInt8))
    (long : 3 < argv.length) (run : OrderRun) (ran : orderParsed env ctx argv = .ok run) :
    operationsOf run.events = [] := by
  unfold orderParsed at ran
  split_ifs at ran with help version
  · cases ran
    exact operationsOf_printHelp env
  · cases ran
    rfl
  · dsimp only at ran
    obtain ⟨confile, -, ran⟩ := (bind_eq_ok_iff _ _ _).mp ran
    obtain ⟨outcome, -, ran⟩ := (bind_eq_ok_iff _ _ _).mp ran
    cases outcome with
    | exited code process =>
      cases ran
      exact operationsOf_confileMessage confile code
    | returned process =>
      cases ran
      exact operationsOf_orderConfigured env ctx argv long confile process

/-- With an argument behind `-o ls`, wherever it stands, no operation is applied. -/
theorem operationsOf_orderMain (env : OrderEnv) (ctx : MainCtx) (argv : List (List UInt8))
    (long : 3 < argv.length) (run : OrderRun) (ran : orderMain env ctx argv = .ok run) :
    operationsOf run.events = [] := by
  unfold orderMain at ran
  rw [if_neg (by omega)] at ran
  obtain ⟨result, -, ran⟩ := (bind_eq_ok_iff _ _ _).mp ran
  split_ifs at ran with failed
  · cases ran
    rw [operationsOf_append, operationsOf_printed, operationsOf_printHelp]
    rfl
  · exact operationsOf_orderParsed env result.ctx argv long run ran

/-- The named operation is not applied to the path, whatever stands around `-o`.

The parser does not come past `-o`, and a run that ends before it runs no operation. -/
theorem never_runs_named (env : OrderEnv) (ctx : MainCtx) (program : List UInt8)
    (before after : List Request) (operation : Operation) (path : List UInt8) :
    ¬ RunsNamed env ctx (commandLine program before operation path after) operation path := by
  rintro ⟨run, ran, applied⟩
  have long : 3 < (commandLine program before operation path after).length := by
    simp only [commandLine, List.length_cons, List.length_append]
    omega
  rw [operationsOf_orderMain env ctx _ long run ran] at applied
  cases applied

/-- A tool server whose configuration file is there. -/
def toolEnv : OrderEnv where
  programName := text "tool"
  oldpid := -1
  confile := CharArray.strncpy 260 (text "/opt/etc/tool.conf")
  logfile := CharArray.strncpy 260 (text "/opt/logs/tool.log")
  files path := if path = text "/opt/etc/tool.conf" then some (text "port=80\n") else none
  ncpu := 4
  daemon := 0

/-- `-p 8080 -o cat /etc/hosts`; without `-o` the workers start. -/
theorem runs_named_cat :
    (∃ run, orderMain toolEnv ⟨fun _ => none, []⟩ [text "tool", text "-p", text "8080"] = .ok run ∧
      run.ending = .workers 8080 0 0) ∧
    ¬ RunsNamed toolEnv ⟨fun _ => none, []⟩
      [text "tool", text "-p", text "8080", text "-o", text "cat", text "/etc/hosts"]
      .cat (text "/etc/hosts") := by
  refine ⟨⟨_, rfl, rfl⟩, ?_⟩
  rintro ⟨run, ran, -⟩
  cases ran

/-! ### The null pointer of -o -/

theorem readArg_command :
    readArg longOptions (text "-o") = .option commandOption [111] .null := by
  decide

/-- Where the options in front are understood, the run faults at `-o`. -/
theorem orderMain_command (env : OrderEnv) (ctx : MainCtx) (program : List UInt8)
    (before after : List Request) (operation : Operation) (path : List UInt8)
    (understood : ∀ request ∈ before, request.Cut → request.SpellsOwnName) :
    orderMain env ctx (commandLine program before operation path after) = .error .null := by
  have long : ¬ (commandLine program before operation path after).length = 1 := by
    simp only [commandLine, List.length_cons, List.length_append]
    omega
  have parsed : parseOptLong longOptions ctx (commandLine program before operation path after) =
      .error .null := by
    rw [parseOptLong, commandLine, List.tail_cons, parseLoop_requests before _ ctx understood,
      parseLoop, readArg_command]
  rw [orderMain, if_neg long, parsed, error_bind]

end Netmt
