/-
This file models the command line of the tool server: the table `long_options`,
`get_option` and `parse_opt_long`.

The parser goes over the arguments once. It strips one or two dashes, looks for a
`=`, and takes the name in front of it for an option of the table; what it stores
under the option's letter depends on the kind of the option, on the spelling, and
on whether another argument follows. An option whose argument is optional, the
kind this table adds to libhv's, gets no value at all, and the null pointer is
stored as a string.
-/
import Mathlib.Data.List.TakeDrop
import Mathlib.Logic.Function.Basic
import Netmt.Logger

namespace Netmt

open CMem

/-! ### The table -/

/-- `arg_type`. -/
inductive ArgType where
  | noArgument
  | requiredArgument
  | optionalArgument
  deriving DecidableEq, Repr

/-- `option_t`. -/
structure OptionT where
  shortOpt : UInt8
  longOpt : List UInt8
  argType : ArgType
  deriving DecidableEq, Repr

/-- `-o`, the option of the table with an optional argument. -/
def commandOption : OptionT := ⟨111, text "command", .optionalArgument⟩

/-- `long_options`. -/
def longOptions : List OptionT :=
  [⟨104, text "help", .noArgument⟩,
    ⟨118, text "version", .noArgument⟩,
    ⟨99, text "confile", .requiredArgument⟩,
    ⟨116, text "test", .noArgument⟩,
    ⟨115, text "signal", .requiredArgument⟩,
    ⟨100, text "daemon", .noArgument⟩,
    ⟨112, text "port", .requiredArgument⟩,
    commandOption]

/-- `OPTION_PREFIX`. -/
def optionPrefix : UInt8 := 45

/-- `OPTION_DELIM`. -/
def optionDelim : UInt8 := 61

/-- `OPTION_ENABLE`. -/
def optionEnable : List UInt8 := text "on"

/-- `MAX_OPTION`. -/
def maxOption : Nat := 32

/-- `get_option`. -/
def getOption (opt : List UInt8) (table : List OptionT) : Option OptionT :=
  match opt with
  | [] => none
  | [letter] => table.find? (·.shortOpt = letter)
  | _ => table.find? (·.longOpt = opt)

/-! ### The parser -/

/-- `opt_type`. -/
inductive OptType where
  | noPrefix
  | short
  | long
  deriving DecidableEq, Repr

/-- The argument without its dashes. -/
def scanPrefix (argument : List UInt8) : OptType × List UInt8 :=
  match argument with
  | [] => (.noPrefix, [])
  | first :: arg =>
    if first = optionPrefix then
      match arg with
      | [] => (.short, [])
      | second :: rest => if second = optionPrefix then (.long, rest) else (.short, arg)
    else (.noPrefix, argument)

theorem scanPrefix_of_ne {first : UInt8} (arg : List UInt8) (notPrefix : first ≠ optionPrefix) :
    scanPrefix (first :: arg) = (.noPrefix, first :: arg) := by
  unfold scanPrefix
  exact if_neg notPrefix

theorem scanPrefix_short {letter : UInt8} (rest : List UInt8) (notPrefix : letter ≠ optionPrefix) :
    scanPrefix (optionPrefix :: letter :: rest) = (.short, letter :: rest) := by
  unfold scanPrefix
  dsimp only
  rw [if_pos rfl, if_neg notPrefix]

theorem scanPrefix_long (rest : List UInt8) :
    scanPrefix (optionPrefix :: optionPrefix :: rest) = (.long, rest) := rfl

/-- The arguments without a dash, with one, and with two. -/
theorem scanPrefix_cases (argument : List UInt8) :
    (argument.head? ≠ some optionPrefix ∧ scanPrefix argument = (.noPrefix, argument)) ∨
      (∃ arg, argument = optionPrefix :: arg ∧ arg.head? ≠ some optionPrefix ∧
        scanPrefix argument = (.short, arg)) ∨
      ∃ arg, argument = optionPrefix :: optionPrefix :: arg ∧
        scanPrefix argument = (.long, arg) := by
  cases argument with
  | nil => exact Or.inl ⟨nofun, rfl⟩
  | cons first arg =>
    by_cases dash : first = optionPrefix
    · subst dash
      cases arg with
      | nil => exact Or.inr (Or.inl ⟨[], rfl, nofun, rfl⟩)
      | cons second rest =>
        by_cases twice : second = optionPrefix
        · subst twice
          exact Or.inr (Or.inr ⟨rest, rfl, scanPrefix_long rest⟩)
        · exact Or.inr (Or.inl ⟨second :: rest, rfl, mt Option.some.inj twice,
            scanPrefix_short rest twice⟩)
    · exact Or.inl ⟨mt Option.some.inj dash, scanPrefix_of_ne arg dash⟩

/-- The array `opt`, and what is behind the `=`; `none` when the `=` stands where none may. The last
byte of `opt` is never written but with a NUL, so a longer name is cut at `MAX_OPTION`. Arguments
are shorter than 2^31 bytes: the source keeps the length in an `int`, as `OptScan` does. -/
def optName (optType : OptType) (arg : List UInt8) : Option (List UInt8 × Option (List UInt8)) :=
  match arg.findIdx? (· = optionDelim) with
  | some delim =>
    if delim = 0 ∨ delim = arg.length - 1 ∨ delim > maxOption then none
    else some (arg.take delim, some (arg.drop (delim + 1)))
  | none =>
    match optType with
    | .short => some (arg.take 1, none)
    | _ => some (arg.take maxOption, none)

/-- Where the value of an option comes from. -/
inductive ArgValue where
  | given (value : List UInt8)
  /-- It is the argument behind the option. -/
  | next
  /-- The variable `value` stays `NULL`. -/
  | null
  deriving DecidableEq, Repr

/-- The `value` of an option. -/
def argValue (pOption : OptionT) (optType : OptType) (arg : List UInt8)
    (delim : Option (List UInt8)) : ArgValue :=
  match pOption.argType with
  | .noArgument => .given optionEnable
  | .requiredArgument =>
    match delim with
    | some value => .given value
    | none =>
      if optType = .short ∧ arg.drop 1 ≠ [] then .given (arg.drop 1) else .next
  | .optionalArgument => .null

/-- What the parser takes an argument for. -/
inductive Reading where
  | invalid (format : String)
  | positional
  | option (pOption : OptionT) (opt : List UInt8) (value : ArgValue)
  deriving DecidableEq, Repr

/-- One argument. -/
def readArg (table : List OptionT) (argument : List UInt8) : Reading :=
  let (optType, arg) := scanPrefix argument
  match optName optType arg with
  | none => .invalid "Invalid option '%s'\n"
  | some (opt, delim) =>
    match getOption opt table with
    | none =>
      if delim = none ∧ optType = .noPrefix then .positional
      else .invalid "Invalid option: '%s'\n"
    | some pOption => .option pOption opt (argValue pOption optType arg delim)

/-- The fields of `main_ctx_t` that the parser writes. -/
structure MainCtx where
  argKv : List UInt8 → Option (List UInt8)
  argList : List (List UInt8)

/-- The key of an option. -/
def OptionT.key (pOption : OptionT) : List UInt8 :=
  if 0 < pOption.shortOpt ∧ pOption.shortOpt < 128 then [pOption.shortOpt] else pOption.longOpt

/-- `g_main_ctx.arg_kv[key] = value`. -/
def MainCtx.store (ctx : MainCtx) (pOption : OptionT) (value : List UInt8) : MainCtx :=
  { ctx with argKv := Function.update ctx.argKv pOption.key (some value) }

/-- An argument of `printf`. -/
inductive PrintArg where
  | str (bytes : List UInt8)
  | int (value : Int)
  deriving DecidableEq, Repr

/-- A call of `printf`. -/
structure Printf where
  format : String
  args : List PrintArg
  deriving DecidableEq, Repr

/-- What `parse_opt_long` returns, prints and leaves. -/
structure ParseResult where
  ret : Int
  printed : Option Printf
  ctx : MainCtx

/-- The arrays and strings of the tool server that its faults can be about. -/
inductive ArgObject where
  /-- An argument, by its place in `argv`. -/
  | argv (index : Nat)
  | literal
  | confile
  | log (object : LogObject)
  deriving DecidableEq, Repr

/-- The loop of `parse_opt_long`, with the arguments that are left. For a value that is null a
`std::string` is assigned from the null pointer. -/
def parseLoop (table : List OptionT) : List (List UInt8) → MainCtx → Exec ArgObject ParseResult
  | [], ctx => .ok { ret := 0, printed := none, ctx }
  | argument :: rest, ctx =>
    match readArg table argument with
    | .invalid format => .ok { ret := -10, printed := some ⟨format, [.str argument]⟩, ctx }
    | .positional => parseLoop table rest { ctx with argList := ctx.argList ++ [argument] }
    | .option pOption opt value =>
      match value with
      | .given value => parseLoop table rest (ctx.store pOption value)
      | .next =>
        match rest with
        | [] =>
          let format := "Option '%s' requires parament\n"
          .ok { ret := -20, printed := some ⟨format, [.str opt]⟩, ctx }
        | value :: others => parseLoop table others (ctx.store pOption value)
      | .null => .error .null

/-- `parse_opt_long`; `argv[0]` is the program. -/
def parseOptLong (table : List OptionT) (ctx : MainCtx) (argv : List (List UInt8)) :
    Exec ArgObject ParseResult :=
  parseLoop table argv.tail ctx

/-! ### Every option gets a value or an error -/

/-- The options the parser takes arguments for, up to the first argument it rejects. -/
def recognised (table : List OptionT) : List (List UInt8) → List OptionT
  | [] => []
  | argument :: rest =>
    match readArg table argument with
    | .invalid _ => []
    | .positional => recognised table rest
    | .option pOption _ value =>
      match value with
      | .next =>
        match rest with
        | [] => [pOption]
        | _ :: others => pOption :: recognised table others
      | _ => pOption :: recognised table rest

/-- Each option has a string stored under its key, but perhaps the last one, which then makes the
parser return an error. -/
def AllStored (options : List OptionT) (result : ParseResult) : Prop :=
  ∃ stored unstored, options = stored ++ unstored ∧
    (∀ pOption ∈ stored, (result.ctx.argKv pOption.key).isSome) ∧
    (unstored = [] ∨ unstored.length = 1 ∧ result.ret ≠ 0)

/-- The parser comes to its end, and each option it recognises has its string or its error. -/
def ValuesStored (table : List OptionT) (ctx : MainCtx) (argv : List (List UInt8)) : Prop :=
  ∃ result, parseOptLong table ctx argv = .ok result ∧
    AllStored (recognised table argv.tail) result

theorem argValue_eq_null_iff (pOption : OptionT) (optType : OptType) (arg : List UInt8)
    (delim : Option (List UInt8)) :
    argValue pOption optType arg delim = .null ↔ pOption.argType = .optionalArgument := by
  unfold argValue
  cases pOption.argType with
  | noArgument => simp
  | requiredArgument =>
    cases delim with
    | some value => simp
    | none =>
      dsimp only
      split <;> simp
  | optionalArgument => simp

theorem getOption_mem {opt : List UInt8} {table : List OptionT} {pOption : OptionT}
    (found : getOption opt table = some pOption) : pOption ∈ table := by
  unfold getOption at found
  split at found
  · cases found
  · exact List.mem_of_find?_eq_some found
  · exact List.mem_of_find?_eq_some found

/-- An argument taken for an option has a name of the table, and its value is that option's. -/
theorem readArg_option {table : List OptionT} {argument : List UInt8} {pOption : OptionT}
    {opt : List UInt8} {value : ArgValue}
    (reading : readArg table argument = .option pOption opt value) :
    getOption opt table = some pOption ∧
      ∃ optType arg delim, value = argValue pOption optType arg delim := by
  unfold readArg at reading
  dsimp only at reading
  split at reading
  · cases reading
  · split at reading
    · split at reading <;> cases reading
    · cases reading
      exact ⟨‹_›, _, _, _, rfl⟩

theorem readArg_mem {table : List OptionT} {argument : List UInt8} {pOption : OptionT}
    {opt : List UInt8} {value : ArgValue}
    (reading : readArg table argument = .option pOption opt value) : pOption ∈ table :=
  getOption_mem (readArg_option reading).1

theorem readArg_null_iff {table : List OptionT} {argument : List UInt8} {pOption : OptionT}
    {opt : List UInt8} {value : ArgValue}
    (reading : readArg table argument = .option pOption opt value) :
    value = .null ↔ pOption.argType = .optionalArgument := by
  obtain ⟨-, optType, arg, delim, rfl⟩ := readArg_option reading
  exact argValue_eq_null_iff pOption optType arg delim

@[simp] theorem MainCtx.store_argList (ctx : MainCtx) (pOption : OptionT) (value : List UInt8) :
    (ctx.store pOption value).argList = ctx.argList := rfl

@[simp] theorem MainCtx.store_argKv (ctx : MainCtx) (pOption : OptionT) (value : List UInt8) :
    (ctx.store pOption value).argKv =
      Function.update ctx.argKv pOption.key (some value) := rfl

theorem MainCtx.isSome_store (ctx : MainCtx) (pOption : OptionT) (value key : List UInt8)
    (stored : (ctx.argKv key).isSome ∨ key = pOption.key) :
    ((ctx.store pOption value).argKv key).isSome := by
  rw [MainCtx.store_argKv]
  by_cases same : key = pOption.key
  · rw [same, Function.update_self]
    rfl
  · rw [Function.update_of_ne same]
    exact stored.resolve_right same

/-- What is stored stays stored, and so does what is stored after an option. -/
theorem AllStored.store {options : List OptionT} {result : ParseResult}
    (all : AllStored options result) (ctx : MainCtx) (pOption : OptionT) (value : List UInt8)
    (kept : ∀ key, ((ctx.store pOption value).argKv key).isSome →
      (result.ctx.argKv key).isSome) :
    (∀ key, (ctx.argKv key).isSome → (result.ctx.argKv key).isSome) ∧
      AllStored (pOption :: options) result := by
  obtain ⟨front, back, rfl, stored, ends⟩ := all
  refine ⟨fun key before => kept key (ctx.isSome_store _ _ _ (Or.inl before)),
    pOption :: front, back, rfl, ?_, ends⟩
  rw [List.forall_mem_cons]
  exact ⟨kept _ (ctx.isSome_store _ _ _ (Or.inr rfl)), stored⟩

section Values

variable (table : List OptionT)

theorem parseLoop_stores (arguments : List (List UInt8)) (ctx : MainCtx)
    (valued : ∀ pOption ∈ recognised table arguments, pOption.argType ≠ .optionalArgument) :
    ∃ result, parseLoop table arguments ctx = .ok result ∧
      (∀ key, (ctx.argKv key).isSome → (result.ctx.argKv key).isSome) ∧
      AllStored (recognised table arguments) result := by
  induction arguments, ctx using parseLoop.induct table with
  | case1 ctx => exact ⟨_, rfl, fun _ => id, [], [], rfl, by simp, Or.inl rfl⟩
  | case2 argument rest ctx format reading =>
    rw [parseLoop, recognised, reading]
    exact ⟨_, rfl, fun _ => id, [], [], rfl, by simp, Or.inl rfl⟩
  | case3 argument rest ctx reading inductionHypothesis =>
    rw [parseLoop]
    rw [recognised] at valued ⊢
    rw [reading] at valued ⊢
    exact inductionHypothesis valued
  | case4 argument rest ctx pOption opt value reading inductionHypothesis =>
    rw [parseLoop]
    rw [recognised] at valued ⊢
    rw [reading] at valued ⊢
    obtain ⟨result, ran, kept, all⟩ := inductionHypothesis (List.forall_mem_cons.mp valued).2
    exact ⟨result, ran, all.store ctx pOption value kept⟩
  | case5 argument ctx pOption opt reading =>
    rw [parseLoop, recognised, reading]
    exact ⟨_, rfl, fun _ => id, [], [pOption], rfl, by simp, Or.inr ⟨rfl, by simp⟩⟩
  | case6 argument ctx pOption opt value others reading inductionHypothesis =>
    rw [parseLoop]
    rw [recognised] at valued ⊢
    rw [reading] at valued ⊢
    obtain ⟨result, ran, kept, all⟩ := inductionHypothesis (List.forall_mem_cons.mp valued).2
    exact ⟨result, ran, all.store ctx pOption value kept⟩
  | case7 argument rest ctx pOption opt reading =>
    rw [recognised, reading] at valued
    exact absurd ((readArg_null_iff reading).mp rfl) (valued pOption List.mem_cons_self)

theorem parseLoop_null (arguments : List (List UInt8)) (ctx : MainCtx) (pOption : OptionT)
    (found : pOption ∈ recognised table arguments)
    (optional : pOption.argType = .optionalArgument) :
    parseLoop table arguments ctx = .error .null := by
  induction arguments, ctx using parseLoop.induct table with
  | case1 ctx => cases found
  | case2 argument rest ctx format reading =>
    rw [recognised, reading] at found
    cases found
  | case3 argument rest ctx reading inductionHypothesis =>
    rw [recognised, reading] at found
    rw [parseLoop, reading]
    exact inductionHypothesis found
  | case4 argument rest ctx other opt value reading inductionHypothesis =>
    rw [recognised, reading] at found
    rw [parseLoop, reading]
    rcases List.mem_cons.mp found with rfl | later
    · cases (readArg_null_iff reading).mpr optional
    · exact inductionHypothesis later
  | case5 argument ctx other opt reading =>
    rw [recognised, reading] at found
    rw [List.mem_singleton.mp found] at optional
    cases (readArg_null_iff reading).mpr optional
  | case6 argument ctx other opt value others reading inductionHypothesis =>
    rw [recognised, reading] at found
    rw [parseLoop, reading]
    rcases List.mem_cons.mp found with rfl | later
    · cases (readArg_null_iff reading).mpr optional
    · exact inductionHypothesis later
  | case7 argument rest ctx other opt reading =>
    rw [parseLoop, reading]

theorem recognised_mem (arguments : List (List UInt8)) :
    ∀ pOption ∈ recognised table arguments, pOption ∈ table := by
  induction arguments using recognised.induct table with
  | case1 => exact fun _ member => absurd member List.not_mem_nil
  | case2 argument rest format reading =>
    rw [recognised, reading]
    exact fun _ member => absurd member List.not_mem_nil
  | case3 argument rest reading inductionHypothesis =>
    rw [recognised, reading]
    exact inductionHypothesis
  | case4 argument pOption opt reading =>
    rw [recognised, reading]
    exact List.forall_mem_cons.mpr ⟨readArg_mem reading, fun _ => nofun⟩
  | case5 argument value others pOption opt reading inductionHypothesis =>
    rw [recognised, reading]
    exact List.forall_mem_cons.mpr ⟨readArg_mem reading, inductionHypothesis⟩
  | case6 argument rest pOption opt value notNext reading inductionHypothesis =>
    rw [recognised, reading]
    cases value with
    | next => exact absurd rfl notNext
    | given _ => exact List.forall_mem_cons.mpr ⟨readArg_mem reading, inductionHypothesis⟩
    | null => exact List.forall_mem_cons.mpr ⟨readArg_mem reading, inductionHypothesis⟩

end Values

/-- Every option of a command line gets a string or an error exactly when the parser does not take
an argument for `-o`.

It is the one option of the table whose argument may be left out, and the parser assigns a null
pointer to its string. Options behind an argument that is rejected are never seen. -/
theorem values_stored_iff (ctx : MainCtx) (argv : List (List UInt8)) :
    ValuesStored longOptions ctx argv ↔ commandOption ∉ recognised longOptions argv.tail := by
  have optional : ∀ pOption ∈ longOptions,
      pOption.argType = .optionalArgument → pOption = commandOption := by decide
  constructor
  · rintro ⟨result, ran, -⟩ found
    rw [parseOptLong, parseLoop_null longOptions _ ctx commandOption found rfl] at ran
    cases ran
  · intro absent
    obtain ⟨result, ran, -, all⟩ := parseLoop_stores longOptions argv.tail ctx
      fun pOption member isOptional =>
        absent (optional pOption (recognised_mem longOptions _ _ member) isOptional ▸ member)
    exact ⟨result, ran, all⟩

/-- `-o ls`, as the help text has it. -/
theorem values_stored_command :
    ¬ ValuesStored longOptions ⟨fun _ => none, []⟩ [text "netmt", text "-o", text "ls"] := by
  rintro ⟨result, ran, -⟩
  cases ran

end Netmt
