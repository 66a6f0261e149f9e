/-
This file settles which ways of spelling an option `parse_opt_long` understands.

An option without an argument is spelled by its letter or its name, and one with a
value in five ways. The parser looks for a `=` in the whole argument before it
knows what the argument is; so a value that is attached to its letter and holds a
`=` itself is cut there, and what is in front of the cut is taken for the name of
an option. All other spellings store the value they were given.
-/
import Netmt.Lib.Overlay
import Netmt.Options

namespace Netmt

open CMem

/-! ### Requests -/

/-- The ways to spell an option on the command line. -/
inductive Spelling where
  /-- `-n` -/
  | short
  /-- `--name` -/
  | long
  /-- `-n value` -/
  | shortNext (value : List UInt8)
  /-- `-nvalue` -/
  | attached (value : List UInt8)
  /-- `-n=value` -/
  | shortDelim (value : List UInt8)
  /-- `--name value` -/
  | longNext (value : List UInt8)
  /-- `--name=value` -/
  | longDelim (value : List UInt8)
  deriving DecidableEq, Repr

/-- A spelling suits the options it can be used for. -/
def Spelling.Suits : Spelling → ArgType → Prop
  | .short, argType => argType = .noArgument
  | .long, argType => argType = .noArgument
  | .attached value, argType =>
    argType = .requiredArgument ∧ value ≠ [] ∧ value.head? ≠ some optionDelim
  | .shortNext value, argType => argType = .requiredArgument ∧ value ≠ []
  | .shortDelim value, argType => argType = .requiredArgument ∧ value ≠ []
  | .longNext value, argType => argType = .requiredArgument ∧ value ≠ []
  | .longDelim value, argType => argType = .requiredArgument ∧ value ≠ []

/-- The value that is asked for. -/
def Spelling.value : Spelling → List UInt8
  | .short => optionEnable
  | .long => optionEnable
  | .shortNext value => value
  | .attached value => value
  | .shortDelim value => value
  | .longNext value => value
  | .longDelim value => value

/-- The arguments on the command line. -/
def Spelling.render (pOption : OptionT) : Spelling → List (List UInt8)
  | .short => [[optionPrefix, pOption.shortOpt]]
  | .long => [optionPrefix :: optionPrefix :: pOption.longOpt]
  | .shortNext value => [[optionPrefix, pOption.shortOpt], value]
  | .attached value => [optionPrefix :: pOption.shortOpt :: value]
  | .shortDelim value => [optionPrefix :: pOption.shortOpt :: optionDelim :: value]
  | .longNext value => [optionPrefix :: optionPrefix :: pOption.longOpt, value]
  | .longDelim value =>
    [optionPrefix :: optionPrefix :: (pOption.longOpt ++ optionDelim :: value)]

/-- A request for an option of the table. -/
structure Request where
  pOption : OptionT
  spelling : Spelling
  listed : pOption ∈ longOptions
  suits : spelling.Suits pOption.argType

/-- The arguments of a request. -/
def Request.render (request : Request) : List (List UInt8) :=
  request.spelling.render request.pOption

/-- What a request asks to be stored, under its option's letter. -/
def Request.wanted (request : Request) : Overlay.Update fun _ : List UInt8 => Option (List UInt8) :=
  fun key => if key = [request.pOption.shortOpt] then some (some request.spelling.value) else none

/-- The requests are understood: the parser returns `0`, keeps the list of arguments, and leaves
under each letter the value of the last request for it, and elsewhere what was there. -/
def ParsedAs (program : List UInt8) (ctx : MainCtx) (requests : List Request) : Prop :=
  ∃ result, parseOptLong longOptions ctx (program :: requests.flatMap Request.render) =
      .ok result ∧
    result.ret = 0 ∧ result.ctx.argList = ctx.argList ∧
    ∀ key, result.ctx.argKv key =
      (Overlay.lastGiven (requests.map Request.wanted) key).getD (ctx.argKv key)

/-- The value of a request is attached to its letter and holds a `=`. -/
def Request.Cut (request : Request) : Prop :=
  ∃ value, request.spelling = .attached value ∧ optionDelim ∈ value

/-- The letter and the value together spell the option's own name, a `=` and something more. -/
def Request.SpellsOwnName (request : Request) : Prop :=
  ∃ rest, rest ≠ [] ∧ request.pOption.shortOpt :: request.spelling.value =
    request.pOption.longOpt ++ optionDelim :: rest

/-! ### One argument -/

theorem findIdx?_delim (name rest : List UInt8) (clean : optionDelim ∉ name) :
    (name ++ optionDelim :: rest).findIdx? (· = optionDelim) = some name.length := by
  induction name with
  | nil => simp [List.findIdx?_cons]
  | cons byte more inductionHypothesis =>
    rw [List.mem_cons, not_or] at clean
    rw [List.cons_append, List.findIdx?_cons, if_neg (by simpa using Ne.symm clean.1),
      inductionHypothesis clean.2]
    rfl

theorem findIdx?_noDelim (arg : List UInt8) (clean : optionDelim ∉ arg) :
    arg.findIdx? (· = optionDelim) = none := by
  rw [List.findIdx?_eq_none_iff]
  intro byte member
  exact decide_eq_false fun same => clean (same ▸ member)

theorem optName_delim (optType : OptType) (name rest : List UInt8) (clean : optionDelim ∉ name)
    (nonempty : name ≠ []) :
    optName optType (name ++ optionDelim :: rest) =
      if rest = [] ∨ name.length > maxOption then none else some (name, some rest) := by
  have positive := List.length_pos_iff.mpr nonempty
  have last : name.length = (name ++ optionDelim :: rest).length - 1 ↔ rest = [] := by
    rw [List.length_append, List.length_cons, ← List.length_eq_zero_iff]
    omega
  have rejected : (name.length = 0 ∨ name.length = (name ++ optionDelim :: rest).length - 1 ∨
      name.length > maxOption) ↔ (rest = [] ∨ name.length > maxOption) := by
    rw [last, or_iff_right (by omega)]
  have behind : (name ++ optionDelim :: rest).drop (name.length + 1) = rest := by
    rw [← List.drop_drop, List.drop_left, List.drop_one, List.tail_cons]
  unfold optName
  rw [findIdx?_delim name rest clean]
  dsimp only
  rw [if_congr rejected rfl rfl, List.take_left, behind]

theorem optName_noDelim (optType : OptType) (arg : List UInt8) (clean : optionDelim ∉ arg) :
    optName optType arg =
      some (arg.take (if optType = .short then 1 else maxOption), none) := by
  unfold optName
  rw [findIdx?_noDelim arg clean]
  cases optType with
  | noPrefix => rfl
  | short => rfl
  | long => rfl

/-- What the parser relies on in its table. -/
theorem longOptions_spelled : ∀ pOption ∈ longOptions,
    pOption.shortOpt ≠ optionPrefix ∧ pOption.shortOpt ≠ optionDelim ∧
      optionDelim ∉ pOption.longOpt ∧ pOption.longOpt ≠ [] ∧
      pOption.longOpt.length ≤ maxOption ∧
      getOption [pOption.shortOpt] longOptions = some pOption ∧
      getOption pOption.longOpt longOptions = some pOption ∧
      pOption.key = [pOption.shortOpt] := by
  decide

theorem longOptions_letters : ∀ pOption ∈ longOptions, ∀ other ∈ longOptions,
    pOption.shortOpt = other.shortOpt → pOption = other := by
  decide

/-- Only `command` starts with the letter of another option that takes a value. -/
theorem longOptions_first : ∀ pOption ∈ longOptions, ∀ other ∈ longOptions,
    pOption.argType = .requiredArgument → other.longOpt.head? = some pOption.shortOpt →
      other = pOption ∨ other = commandOption := by
  decide

/-- An argument whose name is one of the table's. -/
theorem readArg_of_name {table : List OptionT} {argument arg opt : List UInt8} {optType : OptType}
    {delim : Option (List UInt8)} {pOption : OptionT}
    (scanned : scanPrefix argument = (optType, arg))
    (name : optName optType arg = some (opt, delim))
    (found : getOption opt table = some pOption) :
    readArg table argument = .option pOption opt (argValue pOption optType arg delim) := by
  unfold readArg
  rw [scanned]
  dsimp only
  rw [name]
  dsimp only
  rw [found]

section Arguments

variable {pOption : OptionT} (listed : pOption ∈ longOptions)
include listed

/-- The value behind the letter is taken whole when no `=` is in it; it may be none at all. -/
theorem readArg_attached (value : List UInt8) (clean : optionDelim ∉ value) :
    readArg longOptions (optionPrefix :: pOption.shortOpt :: value) =
      .option pOption [pOption.shortOpt]
        (argValue pOption .short (pOption.shortOpt :: value) none) := by
  obtain ⟨notPrefix, notDelim, -, -, -, found, -⟩ := longOptions_spelled pOption listed
  have cleanAll : optionDelim ∉ pOption.shortOpt :: value := by
    rw [List.mem_cons, not_or]
    exact ⟨Ne.symm notDelim, clean⟩
  exact readArg_of_name (scanPrefix_short _ notPrefix) (optName_noDelim .short _ cleanAll) found

theorem readArg_long :
    readArg longOptions (optionPrefix :: optionPrefix :: pOption.longOpt) =
      .option pOption pOption.longOpt (argValue pOption .long pOption.longOpt none) := by
  obtain ⟨-, -, clean, -, bounded, -, found, -⟩ := longOptions_spelled pOption listed
  have name := optName_noDelim .long _ clean
  rw [if_neg nofun, List.take_of_length_le bounded] at name
  exact readArg_of_name (scanPrefix_long _) name found

theorem readArg_shortDelim (value : List UInt8) (nonempty : value ≠ []) :
    readArg longOptions (optionPrefix :: pOption.shortOpt :: optionDelim :: value) =
      .option pOption [pOption.shortOpt] (argValue pOption .short
        (pOption.shortOpt :: optionDelim :: value) (some value)) := by
  obtain ⟨notPrefix, notDelim, -, -, -, found, -⟩ := longOptions_spelled pOption listed
  have clean : optionDelim ∉ [pOption.shortOpt] := by simpa using Ne.symm notDelim
  have name := optName_delim .short [pOption.shortOpt] value clean (List.cons_ne_nil _ _)
  rw [List.length_singleton, if_neg (not_or.mpr ⟨nonempty, by decide⟩)] at name
  exact readArg_of_name (scanPrefix_short _ notPrefix) name found

theorem readArg_longDelim (value : List UInt8) (nonempty : value ≠ []) :
    readArg longOptions
        (optionPrefix :: optionPrefix :: (pOption.longOpt ++ optionDelim :: value)) =
      .option pOption pOption.longOpt (argValue pOption .long
        (pOption.longOpt ++ optionDelim :: value) (some value)) := by
  obtain ⟨-, -, clean, named, bounded, -, found, -⟩ := longOptions_spelled pOption listed
  have name := optName_delim .long pOption.longOpt value clean named
  rw [if_neg (not_or.mpr ⟨nonempty, by omega⟩)] at name
  exact readArg_of_name (scanPrefix_long _) name found

/-- With a `=` in it, what is in front of the `=` has to be the name of an option. -/
theorem readArg_cut (front rest : List UInt8) (clean : optionDelim ∉ front) :
    readArg longOptions
        (optionPrefix :: pOption.shortOpt :: (front ++ optionDelim :: rest)) =
      if rest = [] ∨ front.length + 1 > maxOption then .invalid "Invalid option '%s'\n"
      else match getOption (pOption.shortOpt :: front) longOptions with
        | none => .invalid "Invalid option: '%s'\n"
        | some other => .option other (pOption.shortOpt :: front) (argValue other .short
          (pOption.shortOpt :: (front ++ optionDelim :: rest)) (some rest)) := by
  obtain ⟨notPrefix, notDelim, -⟩ := longOptions_spelled pOption listed
  have cleanAll : optionDelim ∉ pOption.shortOpt :: front := by
    rw [List.mem_cons, not_or]
    exact ⟨Ne.symm notDelim, clean⟩
  have name := optName_delim .short _ rest cleanAll (List.cons_ne_nil _ _)
  rw [List.cons_append, List.length_cons] at name
  unfold readArg
  rw [scanPrefix_short _ notPrefix]
  dsimp only
  rw [name]
  by_cases rejected : rest = [] ∨ front.length + 1 > maxOption
  · rw [if_pos rejected, if_pos rejected]
  · rw [if_neg rejected, if_neg rejected]
    dsimp only
    cases getOption (pOption.shortOpt :: front) longOptions with
    | none => simp
    | some other => rfl

end Arguments

/-! ### One request -/

/-- What is stored for a request that the parser understands. -/
def Request.stored (request : Request) : List UInt8 :=
  match request.spelling with
  | .attached value =>
    if optionDelim ∈ value then
      (request.pOption.shortOpt :: value).drop (request.pOption.longOpt.length + 1)
    else value
  | spelling => spelling.value

section Loop

variable {table : List OptionT} {argument : List UInt8} {pOption : OptionT} {opt : List UInt8}

theorem parseLoop_given {value : List UInt8}
    (reading : readArg table argument = .option pOption opt (.given value))
    (rest : List (List UInt8)) (ctx : MainCtx) :
    parseLoop table (argument :: rest) ctx = parseLoop table rest (ctx.store pOption value) := by
  rw [parseLoop, reading]

theorem parseLoop_next (reading : readArg table argument = .option pOption opt .next)
    (value : List UInt8) (rest : List (List UInt8)) (ctx : MainCtx) :
    parseLoop table (argument :: value :: rest) ctx =
      parseLoop table rest (ctx.store pOption value) := by
  rw [parseLoop, reading]

theorem argValue_noArgument (noArgument : pOption.argType = .noArgument) (optType : OptType)
    (arg : List UInt8) (delim : Option (List UInt8)) :
    argValue pOption optType arg delim = .given optionEnable := by
  unfold argValue
  rw [noArgument]

theorem argValue_delim (required : pOption.argType = .requiredArgument) (optType : OptType)
    (arg value : List UInt8) : argValue pOption optType arg (some value) = .given value := by
  unfold argValue
  rw [required]

theorem argValue_noDelim (required : pOption.argType = .requiredArgument) (optType : OptType)
    (arg : List UInt8) :
    argValue pOption optType arg none =
      if optType = .short ∧ arg.drop 1 ≠ [] then .given (arg.drop 1) else .next := by
  unfold argValue
  rw [required]

end Loop

theorem getOption_longOpt {letter : UInt8} {front : List UInt8} (nonempty : front ≠ [])
    {table : List OptionT} {pOption : OptionT}
    (found : getOption (letter :: front) table = some pOption) :
    pOption.longOpt = letter :: front := by
  obtain ⟨second, more, rfl⟩ := List.exists_cons_of_ne_nil nonempty
  unfold getOption at found
  simpa using List.find?_some found

/-- The letter in front of a value that spells the option's name is the first of that name. -/
theorem longOpt_of_spelled {pOption : OptionT} (listed : pOption ∈ longOptions)
    {value more : List UInt8}
    (spelled : pOption.shortOpt :: value = pOption.longOpt ++ optionDelim :: more) :
    ∃ front, pOption.longOpt = pOption.shortOpt :: front ∧ optionDelim ∉ front ∧
      value = front ++ optionDelim :: more := by
  obtain ⟨-, -, clean, named, -⟩ := longOptions_spelled pOption listed
  rcases List.cons_eq_append_iff.mp spelled with ⟨absurdName, -⟩ | ⟨front, name, tail⟩
  · exact absurd absurdName named
  · rw [name, List.mem_cons, not_or] at clean
    exact ⟨front, name, clean.2, tail⟩

namespace Request

theorem stored_of_not_cut (request : Request) (whole : ¬ request.Cut) :
    request.stored = request.spelling.value := by
  unfold stored
  cases spelled : request.spelling with
  | attached value => exact if_neg fun cut => whole ⟨value, spelled, cut⟩
  | _ => rfl

theorem stored_of_spelled (request : Request) (cut : request.Cut) {more : List UInt8}
    (spelled : request.pOption.shortOpt :: request.spelling.value =
      request.pOption.longOpt ++ optionDelim :: more) :
    request.stored = more := by
  obtain ⟨value, attached, delim⟩ := cut
  rw [attached, Spelling.value] at spelled
  unfold stored
  rw [attached]
  dsimp only
  rw [if_pos delim, spelled, ← List.drop_drop, List.drop_left, List.drop_one, List.tail_cons]

theorem parseLoop_understood (request : Request) (understood : request.Cut → request.SpellsOwnName)
    (rest : List (List UInt8)) (ctx : MainCtx) :
    parseLoop longOptions (request.render ++ rest) ctx =
      parseLoop longOptions rest (ctx.store request.pOption request.stored) := by
  obtain ⟨pOption, spelling, listed, suits⟩ := request
  cases spelling with
  | short =>
    have reading := readArg_attached listed [] List.not_mem_nil
    rw [argValue_noArgument suits] at reading
    exact parseLoop_given reading rest ctx
  | long =>
    have reading := readArg_long listed
    rw [argValue_noArgument suits] at reading
    exact parseLoop_given reading rest ctx
  | shortNext value =>
    have reading := readArg_attached listed [] List.not_mem_nil
    rw [argValue_noDelim suits.1, if_neg (by simp)] at reading
    exact parseLoop_next reading value rest ctx
  | longNext value =>
    have reading := readArg_long listed
    rw [argValue_noDelim suits.1, if_neg (by simp)] at reading
    exact parseLoop_next reading value rest ctx
  | shortDelim value =>
    have reading := readArg_shortDelim listed value suits.2
    rw [argValue_delim suits.1] at reading
    exact parseLoop_given reading rest ctx
  | longDelim value =>
    have reading := readArg_longDelim listed value suits.2
    rw [argValue_delim suits.1] at reading
    exact parseLoop_given reading rest ctx
  | attached value =>
    obtain ⟨required, nonempty, head⟩ := suits
    by_cases cut : optionDelim ∈ value
    · obtain ⟨more, behind, spelled⟩ := understood ⟨value, rfl, cut⟩
      obtain ⟨front, name, clean, rfl⟩ := longOpt_of_spelled listed spelled
      obtain ⟨-, -, -, -, bounded, -, found, -⟩ := longOptions_spelled pOption listed
      rw [name] at bounded found
      have accepted : ¬ (more = [] ∨ front.length + 1 > maxOption) :=
        not_or.mpr ⟨behind, Nat.not_lt.mpr bounded⟩
      have reading := readArg_cut listed front more clean
      rw [if_neg accepted, found] at reading
      dsimp only at reading
      rw [argValue_delim required] at reading
      rw [stored_of_spelled _ ⟨_, rfl, cut⟩ spelled]
      exact parseLoop_given reading rest ctx
    · have reading := readArg_attached listed value cut
      rw [argValue_noDelim required, if_pos ⟨rfl, nonempty⟩] at reading
      rw [stored_of_not_cut _ (by rintro ⟨_, ⟨rfl⟩, delim⟩; exact cut delim)]
      exact parseLoop_given reading rest ctx

/-- A request whose attached value holds a `=`, and whose letter and value do not spell the option's
own name, is not accepted: what stands before the first `=` is looked up as a name. -/
theorem parseLoop_foreign (request : Request) (cut : request.Cut)
    (foreign : ¬ request.SpellsOwnName) (rest : List (List UInt8)) (ctx : MainCtx)
    (result : ParseResult)
    (ran : parseLoop longOptions (request.render ++ rest) ctx = .ok result) : result.ret ≠ 0 := by
  obtain ⟨pOption, spelling, listed, suits⟩ := request
  obtain ⟨value, attached, delim⟩ := cut
  obtain rfl : spelling = .attached value := attached
  obtain ⟨required, _, head⟩ := suits
  obtain ⟨front, more, rfl, clean⟩ := List.eq_append_cons_of_mem delim
  have nonempty : front ≠ [] := by
    rintro rfl
    exact head rfl
  have failed : (-10 : Int) ≠ 0 := by decide
  have reading := readArg_cut listed front more clean
  change parseLoop longOptions ((optionPrefix :: pOption.shortOpt ::
    (front ++ optionDelim :: more)) :: rest) ctx = .ok result at ran
  rw [parseLoop, reading] at ran
  by_cases rejected : more = [] ∨ front.length + 1 > maxOption
  · rw [if_pos rejected] at ran
    cases ran
    exact failed
  rw [if_neg rejected] at ran
  cases found : getOption (pOption.shortOpt :: front) longOptions with
  | none =>
    rw [found] at ran
    cases ran
    exact failed
  | some other =>
    rw [found] at ran
    have name := getOption_longOpt nonempty found
    rcases longOptions_first pOption listed other (getOption_mem found) required
      (by rw [name, List.head?_cons]) with rfl | rfl
    · refine absurd ⟨more, (not_or.mp rejected).1, ?_⟩ foreign
      dsimp only
      rw [name]
      rfl
    · cases ran

/-- What the parser changes for a request it understands. -/
def effect (request : Request) : Overlay.Update fun _ : List UInt8 => Option (List UInt8) :=
  fun key => if key = [request.pOption.shortOpt] then some (some request.stored) else none

theorem wanted_eq_none_iff (request : Request) (key : List UInt8) :
    request.wanted key = none ↔ key ≠ [request.pOption.shortOpt] := by
  rw [wanted, ite_eq_right_iff]
  exact forall_congr' fun _ => by simp

theorem effect_eq_none_iff (request : Request) (key : List UInt8) :
    request.effect key = none ↔ key ≠ [request.pOption.shortOpt] := by
  rw [effect, ite_eq_right_iff]
  exact forall_congr' fun _ => by simp

/-- What is asked for and what is done are under the same key. -/
theorem wanted_none_iff_effect_none (request : Request) (key : List UInt8) :
    request.wanted key = none ↔ request.effect key = none :=
  (request.wanted_eq_none_iff key).trans (request.effect_eq_none_iff key).symm

/-- A value that is cut is not the one that was asked for. -/
theorem wanted_eq_effect_iff (request : Request)
    (understood : request.Cut → request.SpellsOwnName) :
    request.wanted [request.pOption.shortOpt] = request.effect [request.pOption.shortOpt] ↔
      ¬ request.Cut := by
  rw [wanted, effect, if_pos rfl, if_pos rfl, Option.some_inj, Option.some_inj]
  constructor
  · intro same cut
    obtain ⟨more, -, spelled⟩ := understood cut
    obtain ⟨-, -, -, named, -⟩ := longOptions_spelled request.pOption request.listed
    have lengths := congrArg List.length spelled
    rw [same, request.stored_of_spelled cut spelled, List.length_cons, List.length_append,
      List.length_cons] at lengths
    exact named (List.length_eq_zero_iff.mp (by omega))
  · exact fun whole => (request.stored_of_not_cut whole).symm

theorem store_argKv (request : Request) (ctx : MainCtx) :
    (ctx.store request.pOption request.stored).argKv = Overlay.apply ctx.argKv request.effect := by
  obtain ⟨-, -, -, -, -, -, -, key⟩ := longOptions_spelled request.pOption request.listed
  funext other
  rw [MainCtx.store_argKv, key, Overlay.apply, effect]
  by_cases same : other = [request.pOption.shortOpt]
  · rw [if_pos same, same, Function.update_self, Option.getD_some]
  · rw [if_neg same, Function.update_of_ne same, Option.getD_none]

end Request

/-! ### A whole command line -/

/-- What the parser has stored when it is through with the requests. -/
def MainCtx.after (ctx : MainCtx) (requests : List Request) : MainCtx :=
  { ctx with argKv := (requests.map Request.effect).foldl Overlay.apply ctx.argKv }

theorem parseLoop_requests (requests : List Request) (rest : List (List UInt8)) (ctx : MainCtx)
    (understood : ∀ request ∈ requests, request.Cut → request.SpellsOwnName) :
    parseLoop longOptions (requests.flatMap Request.render ++ rest) ctx =
      parseLoop longOptions rest (ctx.after requests) := by
  induction requests generalizing ctx with
  | nil => rfl
  | cons request later inductionHypothesis =>
    obtain ⟨first, others⟩ := List.forall_mem_cons.mp understood
    rw [List.flatMap_cons, List.append_assoc, request.parseLoop_understood first,
      inductionHypothesis _ others, MainCtx.after, MainCtx.after, request.store_argKv]
    rfl

theorem parseLoop_ret_ne_zero (requests : List Request) (ctx : MainCtx) (result : ParseResult)
    (foreign : ∃ request ∈ requests, request.Cut ∧ ¬ request.SpellsOwnName)
    (ran : parseLoop longOptions (requests.flatMap Request.render) ctx = .ok result) :
    result.ret ≠ 0 := by
  induction requests generalizing ctx with
  | nil =>
    obtain ⟨_, member, -⟩ := foreign
    exact absurd member List.not_mem_nil
  | cons request later inductionHypothesis =>
    rw [List.flatMap_cons] at ran
    by_cases first : request.Cut ∧ ¬ request.SpellsOwnName
    · exact request.parseLoop_foreign first.1 first.2 _ ctx result ran
    · rw [request.parseLoop_understood (by simpa using first)] at ran
      refine inductionHypothesis _ ?_ ran
      obtain ⟨other, member, other_foreign⟩ := foreign
      rcases List.mem_cons.mp member with rfl | there
      · exact absurd other_foreign first
      · exact ⟨other, there, other_foreign⟩

/-- The values end up right exactly when each one that is cut is made up for later. -/
theorem lastGiven_effect_iff (requests : List Request)
    (understood : ∀ request ∈ requests, request.Cut → request.SpellsOwnName) :
    (∀ key, Overlay.lastGiven (requests.map Request.wanted) key =
        Overlay.lastGiven (requests.map Request.effect) key) ↔
      ∀ request later, request :: later <:+ requests → request.Cut →
        ∃ other ∈ later, other.pOption = request.pOption := by
  have atKey (key : List UInt8) :=
    Overlay.lastGiven_map_eq_iff Request.wanted Request.effect requests key fun request _ =>
      request.wanted_none_iff_effect_none key
  rw [forall_congr' atKey]
  constructor
  · intro each request later suffix cut
    by_contra alone
    have member : request ∈ requests := suffix.subset List.mem_cons_self
    refine (request.wanted_eq_effect_iff (understood request member)).mp
      (each _ request later suffix fun other there => ?_) cut
    rw [other.wanted_eq_none_iff]
    intro letter
    exact alone ⟨other, there, longOptions_letters other.pOption other.listed request.pOption
      request.listed (List.singleton_inj.mp letter).symm⟩
  · intro later_one key request later suffix quiet
    by_cases letter : key = [request.pOption.shortOpt]
    · subst letter
      have member : request ∈ requests := suffix.subset List.mem_cons_self
      refine (request.wanted_eq_effect_iff (understood request member)).mpr fun cut => ?_
      obtain ⟨other, there, same⟩ := later_one request later suffix cut
      exact (other.wanted_eq_none_iff _).mp (quiet other there) (by rw [same])
    · rw [(request.wanted_eq_none_iff key).mpr letter, (request.effect_eq_none_iff key).mpr letter]

/-- All spellings are understood but a value that is attached to its letter and holds a `=`. That
one fails too, unless the letter and the value spell the option's own name, a `=` and something
more, and a later request for the option makes up for the wrong value. -/
theorem parsedAs_iff (program : List UInt8) (ctx : MainCtx) (requests : List Request) :
    ParsedAs program ctx requests ↔
      ∀ request later, request :: later <:+ requests → request.Cut →
        request.SpellsOwnName ∧ ∃ other ∈ later, other.pOption = request.pOption := by
  by_cases understood : ∀ request ∈ requests, request.Cut → request.SpellsOwnName
  · have sameKeys (key : List UInt8) :
        Overlay.lastGiven (requests.map Request.wanted) key = none ↔
          Overlay.lastGiven (requests.map Request.effect) key = none := by
      rw [Overlay.lastGiven_eq_none_iff, Overlay.lastGiven_eq_none_iff, List.forall_mem_map,
        List.forall_mem_map]
      exact forall₂_congr fun request _ => request.wanted_none_iff_effect_none key
    have parsed : ParsedAs program ctx requests ↔
        ∀ key, Overlay.lastGiven (requests.map Request.wanted) key =
          Overlay.lastGiven (requests.map Request.effect) key := by
      unfold ParsedAs
      rw [parseOptLong, List.tail_cons, ← List.append_nil (requests.flatMap Request.render),
        parseLoop_requests requests [] ctx understood]
      simp only [parseLoop, MainCtx.after, Except.ok.injEq, exists_eq_left', true_and,
        Overlay.foldl_apply]
      exact forall_congr' fun key =>
        eq_comm.trans (Overlay.getD_eq_iff (sameKeys key) (ctx.argKv key))
    rw [parsed, lastGiven_effect_iff requests understood]
    constructor
    · exact fun each request later suffix cut =>
        ⟨understood request (suffix.subset List.mem_cons_self) cut, each request later suffix cut⟩
    · exact fun each request later suffix cut => (each request later suffix cut).2
  · constructor
    · rintro ⟨result, ran, returned, -⟩
      refine absurd returned (parseLoop_ret_ne_zero requests ctx result ?_ ran)
      simpa using understood
    · intro each
      refine absurd (fun request member cut => ?_) understood
      obtain ⟨earlier, later, rfl⟩ := List.append_of_mem member
      exact (each request later (List.suffix_append _ _) cut).1

/-- `-cetc/a=b.conf`. -/
theorem parsedAs_attached_delim :
    ¬ ParsedAs (text "netmt") ⟨fun _ => none, []⟩
      [⟨⟨99, text "confile", .requiredArgument⟩, .attached (text "etc/a=b.conf"),
        by decide, by decide, by decide, by decide⟩] := by
  rintro ⟨result, ran, returned, -⟩
  cases ran
  cases returned

end Netmt
