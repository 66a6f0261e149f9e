/-
This file models the loop of `parse_opt_long` over memory: the index into `argv`, the
pointers into the arguments, and the array `opt` that is filled anew for each argument.

The array is filled in three ways. The name in front of a `=` is copied with `memcpy`
and ended by a store; the letter behind a single dash is stored with its NUL; all else
is copied with `strncpy`, which leaves no NUL behind a long name. That the array is a
string all the same rests on its last byte, which nothing but a NUL is ever stored in.

An iteration is shown to carry out what the parser over lists takes the argument for,
and both the bounds and the refinement of the whole loop follow from that.
-/
import Netmt.Lib.Loop
import Netmt.Options

namespace Netmt

open CMem Loop

/-! ### The loop -/

/-- The arrays the loop reads and writes. -/
inductive ScanObject where
  | opt
  | argv
  /-- The string an element of `argv` points to. -/
  | argument (index : Nat)
  deriving DecidableEq, Repr

/-- `argv[index]`; behind the arguments there is a null pointer, and nothing behind that. -/
def argvAt (argv : List CText) (index : Nat) : Exec ScanObject (Option (Ptr ScanObject)) :=
  match argv[index]? with
  | some argument => .ok (some ⟨.argument index, argument.bytes ++ [0]⟩)
  | none => if index = argv.length then .ok none else .error (.outOfBounds .argv)

/-- The dashes are skipped. -/
def skipPrefix (argument : Ptr ScanObject) : Exec ScanObject (OptType × Ptr ScanObject) := do
  let first ← load argument 0
  if first = optionPrefix then do
    let arg := argument.add 1
    let second ← load arg 0
    if second = optionPrefix then .ok (.long, arg.add 1) else .ok (.short, arg)
  else .ok (.noPrefix, argument)

/-- `strchr(arg, byte)`, as an offset. -/
def strchr (arg : Ptr ScanObject) (byte : UInt8) : Exec ScanObject (Option Nat) := do
  let str ← stringAt arg
  .ok (str.findIdx? (· = byte))

/-- The name is copied to `opt`; `none` when the `=` stands where none may. -/
def fillOpt (optType : OptType) (arg : Ptr ScanObject) (delim : Option Nat)
    (opt : Ptr ScanObject) : Exec ScanObject (Option (Ptr ScanObject)) := do
  let argLen := toInt32 (← strlen arg)
  match delim with
  | some delim =>
    if delim = 0 ∨ (delim : Int) = argLen - 1 ∨ delim > maxOption then .ok none
    else do
      let opt ← memcpy opt arg delim
      let opt ← store opt delim 0
      .ok (some opt)
  | none =>
    if optType = .short then do
      let first ← load arg 0
      let opt ← store opt 0 first
      let opt ← store opt 1 0
      .ok (some opt)
    else do
      let str ← stringAt arg
      let opt ← strncpy opt str maxOption
      .ok (some opt)

/-- The variables of an iteration when `get_option` is called. -/
structure Named where
  optType : OptType
  arg : Ptr ScanObject
  delim : Option Nat
  opt : Ptr ScanObject

/-- An iteration up to `get_option`. -/
def nameOption (argument opt : Ptr ScanObject) : Exec ScanObject (Option Named) := do
  let (optType, arg) ← skipPrefix argument
  let delim ← strchr arg optionDelim
  match ← fillOpt optType arg delim opt with
  | none => .ok none
  | some opt => .ok (some { optType, arg, delim, opt })

/-- There is more behind the letter of a short option. -/
def attached (named : Named) : Exec ScanObject Bool :=
  if named.optType = .short then do
    let second ← load named.arg 1
    .ok (second ≠ 0)
  else .ok false

/-- `value = argv[++i]`, unless that is the null pointer. -/
def nextValue (argv : List CText) (i : Nat) : Exec ScanObject (Option (List UInt8 × Nat)) := do
  match ← argvAt argv (i + 1) with
  | some next => do
    let value ← stringAt next
    .ok (some (value, i + 1))
  | none => .ok none

/-- The `value` of an option and the index it leaves; `none` when there is no argument left. For an
option whose argument may be left out a `std::string` is assigned from the null pointer. -/
def scanValue (argv : List CText) (pOption : OptionT) (named : Named) (i : Nat) :
    Exec ScanObject (Option (List UInt8 × Nat)) :=
  match pOption.argType with
  | .noArgument => .ok (some (optionEnable, i))
  | .requiredArgument =>
    match named.delim with
    | some delim => do
      let value ← stringAt (named.arg.add (delim + 1))
      .ok (some (value, i))
    | none => do
      if ← attached named then do
        let value ← stringAt (named.arg.add 1)
        .ok (some (value, i))
      else nextValue argv i
  | .optionalArgument => .error .null

/-- The variables at the start of an iteration, and the context the loop writes to. -/
structure ScanState where
  i : Nat
  opt : Ptr ScanObject
  ctx : MainCtx

/-- The loop is left over an argument. -/
def leaveWith (state : ScanState) (ret : Int) (format : String) (shown : List UInt8) :
    Exec ScanObject (Next ScanState ParseResult) :=
  .ok (.leave { ret, printed := some ⟨format, [.str shown]⟩, ctx := state.ctx })

/-- An iteration from `get_option` on. -/
def takeOption (table : List OptionT) (argv : List CText) (state : ScanState)
    (argument : List UInt8) (named : Named) : Exec ScanObject (Next ScanState ParseResult) := do
  let name ← stringAt named.opt
  match getOption name table with
  | none =>
    if named.delim = none ∧ named.optType = .noPrefix then do
      let arg ← stringAt named.arg
      .ok (.again { i := state.i + 1, opt := named.opt,
                    ctx := { state.ctx with argList := state.ctx.argList ++ [arg] } })
    else leaveWith state (-10) "Invalid option: '%s'\n" argument
  | some pOption =>
    match ← scanValue argv pOption named state.i with
    | none => leaveWith state (-20) "Option '%s' requires parament\n" name
    | some (value, i) =>
      .ok (.again { i := i + 1, opt := named.opt, ctx := state.ctx.store pOption value })

/-- The loop of `parse_opt_long`. -/
def scanBody (table : List OptionT) (argv : List CText) (state : ScanState) :
    Exec ScanObject (Next ScanState ParseResult) := do
  match ← argvAt argv state.i with
  | none => .ok (.leave { ret := 0, printed := none, ctx := state.ctx })
  | some argument => do
    let str ← stringAt argument
    match ← nameOption argument state.opt with
    | none => leaveWith state (-10) "Invalid option '%s'\n" str
    | some named => takeOption table argv state str named

/-- `char opt[MAX_OPTION+1] = {0}` and `i = 1`. -/
def scanStart (ctx : MainCtx) : ScanState :=
  ⟨1, ⟨.opt, List.replicate (maxOption + 1) 0⟩, ctx⟩

/-! ### The name of an option -/

/-- The text after the dashes up to the `=`; without one, the first character after a single dash,
and all the text up to 32 characters otherwise. -/
def optionName (argument : List UInt8) : List UInt8 :=
  let dashes := ((argument.takeWhile (· = optionPrefix)).take 2).length
  let text := argument.drop dashes
  if optionDelim ∈ text then text.takeWhile (· ≠ optionDelim)
  else text.take (if dashes = 1 then 1 else maxOption)

/-- The array has 33 bytes, and the last of them is a NUL. -/
def OptTerminated (opt : Ptr ScanObject) : Prop :=
  opt.object = .opt ∧ opt.bytes.length = maxOption + 1 ∧ opt.bytes[maxOption]? = some 0

theorem OptTerminated.drop {opt : Ptr ScanObject} (terminated : OptTerminated opt) :
    opt.bytes.drop maxOption = [0] := by
  obtain ⟨-, length, last⟩ := terminated
  have inside : maxOption < opt.bytes.length := by omega
  rw [List.drop_eq_getElem_cons inside, List.drop_eq_nil_of_le (by omega)]
  rw [List.getElem?_eq_getElem inside] at last
  rw [Option.some.inj last]

/-- `memcpy` of a name in front of a `=`, and the store of its NUL. -/
theorem memcpy_name (object : ScanObject) (name : List UInt8) (delim : Nat)
    (opt : Ptr ScanObject) (clean : 0 ∉ name) (terminated : OptTerminated opt)
    (short : delim ≤ maxOption) (inside : delim < name.length) :
    ∃ filled, (memcpy opt ⟨object, name ++ [0]⟩ delim >>= fun opt => store opt delim 0) =
        .ok filled ∧ OptTerminated filled ∧ cString filled.bytes = some (name.take delim) := by
  obtain ⟨isOpt, length, last⟩ := terminated
  have taken : (name ++ [0]).take delim = name.take delim :=
    List.take_append_of_le_length inside.le
  have takenLength : (name.take delim).length = delim := by
    rw [List.length_take]
    omega
  have bound : delim < opt.bytes.length := by omega
  have room : opt.bytes.drop delim = opt.bytes[delim] :: opt.bytes.drop (delim + 1) :=
    List.drop_eq_getElem_cons bound
  rw [memcpy_of_le _ _ _ (by rw [List.length_append]; omega) (by omega), ok_bind, taken,
    store_of_lt _ _ _ (by simp; omega)]
  refine ⟨_, rfl, ⟨isOpt, ?_, ?_⟩, ?_⟩
  · simp
    omega
  · simp only [List.getElem?_set, List.getElem?_append, List.getElem?_drop, takenLength]
    split
    · simp
      omega
    · rw [if_neg (by omega), Nat.add_sub_cancel' short, last]
  · simp only []
    rw [List.set_append_right _ _ takenLength.le, takenLength, Nat.sub_self, room,
      List.set_cons_zero, cString_append_nul _ _ fun nul => clean (List.mem_of_mem_take nul)]

/-- The letter behind a single dash, and its NUL. -/
theorem store_letter (object : ScanObject) (name : List UInt8) (opt : Ptr ScanObject)
    (clean : 0 ∉ name) (terminated : OptTerminated opt) :
    ∃ filled, (do
        let first ← load ⟨object, name ++ [0]⟩ 0
        let opt ← store opt 0 first
        store opt 1 0) = .ok filled ∧
      OptTerminated filled ∧ cString filled.bytes = some (name.take 1) := by
  obtain ⟨isOpt, length, last⟩ := terminated
  obtain ⟨zeroth, first, rest, bytes⟩ :
      ∃ zeroth first rest, opt.bytes = zeroth :: first :: rest := by
    match held : opt.bytes with
    | [] | [_] => simp [held, maxOption] at length
    | zeroth :: first :: rest => exact ⟨zeroth, first, rest, rfl⟩
  have size : opt.bytes.length = 33 := length
  have inside : 0 < (name ++ [0]).length := by
    rw [List.length_append]
    exact Nat.succ_pos _
  rw [load_of_lt _ _ inside, ok_bind, store_of_lt opt _ _ (by omega), ok_bind,
    store_of_lt _ _ _ (by rw [List.length_set]; omega)]
  refine ⟨_, rfl, ⟨isOpt, ?_, ?_⟩, ?_⟩
  · rw [List.length_set, List.length_set, length]
  · rw [List.getElem?_set_ne (by decide), List.getElem?_set_ne (by decide), last]
  · simp only [bytes, List.set_cons_zero, List.set_cons_succ]
    cases name with
    | nil => rfl
    | cons letter name =>
      have other : letter ≠ 0 := fun nul => clean (nul ▸ List.mem_cons_self)
      exact cString_append_nul [letter] rest fun nul => other (List.mem_singleton.mp nul).symm

/-- All else is copied with `strncpy`. -/
theorem strncpy_name (name : List UInt8) (opt : Ptr ScanObject) (clean : 0 ∉ name)
    (terminated : OptTerminated opt) :
    ∃ filled, strncpy opt name maxOption = .ok filled ∧ OptTerminated filled ∧
      cString filled.bytes = some (name.take maxOption) := by
  have nul := terminated.drop
  obtain ⟨isOpt, length, last⟩ := terminated
  rw [strncpy, if_pos (by omega), nul, ← List.replicate_succ', List.replicate_succ]
  refine ⟨_, rfl, ⟨isOpt, ?_, ?_⟩, ?_⟩
  · rw [List.length_append, List.length_take, List.length_cons, List.length_replicate]
    omega
  · simp only [← List.replicate_succ]
    rw [List.getElem?_append_right (by rw [List.length_take]; omega), List.length_take,
      List.getElem?_replicate, if_pos (by omega)]
  · exact cString_append_nul _ _ fun nul => clean (List.mem_of_mem_take nul)

/-- What `fillOpt` gives, in terms of the parser: the array is a string, the name the parser takes;
or the parser takes none, at least from a text whose length is an `int`. -/
def Fills (optType : OptType) (name : List UInt8) : Option (Ptr ScanObject) → Prop
  | some filled => OptTerminated filled ∧ ∃ shown value,
      optName optType name = some (shown, value) ∧ cString filled.bytes = some shown
  | none => name.length < 2 ^ 31 → optName optType name = none

theorem fillOpt_spec (optType : OptType) (object : ScanObject) (name : List UInt8)
    (opt : Ptr ScanObject) (clean : 0 ∉ name) (terminated : OptTerminated opt) :
    ∃ result, fillOpt optType ⟨object, name ++ [0]⟩ (name.findIdx? (· = optionDelim)) opt =
      .ok result ∧ Fills optType name result := by
  rw [fillOpt, strlen_append_nul _ _ _ clean, ok_bind]
  unfold Fills optName
  cases found : name.findIdx? (· = optionDelim) with
  | some delim =>
    have inside : delim < name.length := (List.findIdx?_eq_some_iff_getElem.mp found).1
    simp only []
    by_cases rejected : delim = 0 ∨ (delim : Int) = toInt32 name.length - 1 ∨ delim > maxOption
    · refine ⟨none, if_pos rejected, fun small => if_pos ?_⟩
      rw [toInt32_of_range _ (by omega) (by omega)] at rejected
      omega
    · have accepted : ¬ (delim = 0 ∨ delim = name.length - 1 ∨ delim > maxOption) := by
        rintro (first | last | long)
        · exact rejected (Or.inl first)
        · by_cases small : name.length < 2 ^ 31
          · rw [toInt32_of_range _ (by omega) (by omega)] at rejected
            exact rejected (Or.inr (Or.inl (by omega)))
          · exact rejected (Or.inr (Or.inr (by rw [maxOption]; omega)))
        · exact rejected (Or.inr (Or.inr long))
      obtain ⟨filled, copied, still, held⟩ :=
        memcpy_name object name delim opt clean terminated (by omega) inside
      obtain ⟨copy, first, second⟩ := (bind_eq_ok_iff _ _ _).mp copied
      rw [if_neg rejected, if_neg accepted, first, ok_bind, second, ok_bind]
      exact ⟨some filled, rfl, still, _, _, rfl, held⟩
  | none =>
    simp only []
    by_cases short : optType = .short
    · obtain ⟨filled, stored, still, held⟩ := store_letter object name opt clean terminated
      obtain ⟨letter, first, others⟩ := (bind_eq_ok_iff _ _ _).mp stored
      obtain ⟨copy, second, third⟩ := (bind_eq_ok_iff _ _ _).mp others
      rw [if_pos short, first, ok_bind, second, ok_bind, third, ok_bind]
      subst short
      exact ⟨some filled, rfl, still, _, _, rfl, held⟩
    · obtain ⟨filled, copied, still, held⟩ := strncpy_name name opt clean terminated
      rw [if_neg short, stringAt_append_nul _ _ _ clean, ok_bind, copied, ok_bind]
      cases optType with
      | short => exact absurd rfl short
      | noPrefix => exact ⟨some filled, rfl, still, _, _, rfl, held⟩
      | long => exact ⟨some filled, rfl, still, _, _, rfl, held⟩

theorem skipPrefix_eq (object : ScanObject) (argument : List UInt8) :
    skipPrefix ⟨object, argument ++ [0]⟩ =
      .ok ((scanPrefix argument).1, ⟨object, (scanPrefix argument).2 ++ [0]⟩) := by
  cases argument with
  | nil => rfl
  | cons first arg =>
    rw [skipPrefix, load, List.cons_append, List.getElem?_cons_zero]
    simp only [ok_bind]
    by_cases dash : first = optionPrefix
    · rw [if_pos dash, load, Ptr.add_bytes, List.drop_one, List.tail_cons, dash]
      cases arg with
      | nil => rfl
      | cons second rest =>
        simp only [List.cons_append, List.getElem?_cons_zero, ok_bind]
        by_cases twice : second = optionPrefix
        · rw [if_pos twice, twice, scanPrefix_long]
          rfl
        · rw [if_neg twice, scanPrefix_short rest twice]
          rfl
    · rw [if_neg dash, scanPrefix_of_ne arg dash, List.cons_append]

theorem scanPrefix_suffix (argument : List UInt8) : (scanPrefix argument).2 <:+ argument := by
  rcases scanPrefix_cases argument with
    ⟨-, scanned⟩ | ⟨arg, rfl, -, scanned⟩ | ⟨arg, rfl, scanned⟩
  · rw [scanned]
  · rw [scanned]
    exact List.suffix_cons _ _
  · rw [scanned]
    exact (List.suffix_cons _ _).trans (List.suffix_cons _ _)

/-- What is known of the variables when `get_option` is called. -/
structure NamedOf (argument : List UInt8) (index : Nat) (named : Named) : Prop where
  optType : named.optType = (scanPrefix argument).1
  arg : named.arg = ⟨.argument index, (scanPrefix argument).2 ++ [0]⟩
  delim : named.delim = (scanPrefix argument).2.findIdx? (· = optionDelim)
  terminated : OptTerminated named.opt
  name : ∃ shown value, optName (scanPrefix argument).1 (scanPrefix argument).2 =
    some (shown, value) ∧ cString named.opt.bytes = some shown

theorem nameOption_spec (argument : List UInt8) (index : Nat) (opt : Ptr ScanObject)
    (clean : 0 ∉ argument) (terminated : OptTerminated opt) :
    ∃ result, nameOption ⟨.argument index, argument ++ [0]⟩ opt = .ok result ∧
      (∀ named, result = some named → NamedOf argument index named) ∧
      (result = none → argument.length < 2 ^ 31 →
        optName (scanPrefix argument).1 (scanPrefix argument).2 = none) := by
  have suffix := scanPrefix_suffix argument
  have nameClean : 0 ∉ (scanPrefix argument).2 := fun nul => clean (suffix.subset nul)
  obtain ⟨result, filled, spec⟩ := fillOpt_spec (scanPrefix argument).1 (.argument index)
    (scanPrefix argument).2 opt nameClean terminated
  rw [nameOption, skipPrefix_eq, ok_bind]
  simp only []
  rw [strchr, stringAt_append_nul _ _ _ nameClean, ok_bind, ok_bind, filled, ok_bind]
  cases result with
  | none =>
    exact ⟨none, rfl, nofun, fun _ short => spec (lt_of_le_of_lt suffix.length_le short)⟩
  | some opt =>
    refine ⟨_, rfl, ?_, nofun⟩
    rintro _ ⟨⟩
    exact ⟨rfl, rfl, rfl, spec.1, spec.2⟩

/-- The name the parser takes from the text behind the dashes, and what is behind the `=`. -/
theorem optName_some (optType : OptType) (text shown : List UInt8) (value : Option (List UInt8))
    (taken : optName optType text = some (shown, value)) :
    (shown = if optionDelim ∈ text then text.takeWhile (· ≠ optionDelim)
      else text.take (if optType = .short then 1 else maxOption)) ∧
    value = (text.findIdx? (· = optionDelim)).map fun delim => text.drop (delim + 1) := by
  unfold optName at taken
  cases found : text.findIdx? (· = optionDelim) with
  | some delim =>
    rw [found] at taken
    obtain ⟨inside, isDelim, -⟩ := List.findIdx?_eq_some_iff_getElem.mp found
    have member : optionDelim ∈ text := by
      rw [← of_decide_eq_true isDelim]
      exact List.getElem_mem inside
    have front : text.takeWhile (· ≠ optionDelim) = text.take delim := by
      rw [List.takeWhile_eq_take_findIdx_not]
      simp only [decide_not, Bool.not_not]
      rw [(List.findIdx?_eq_some_iff_findIdx_eq.mp found).2]
    simp only [] at taken
    split at taken
    · cases taken
    · cases taken
      rw [if_pos member, front]
      exact ⟨rfl, rfl⟩
  | none =>
    rw [found] at taken
    have absent : optionDelim ∉ text := fun member =>
      absurd rfl (of_decide_eq_false (List.findIdx?_eq_none_iff.mp found _ member))
    rw [if_neg absent]
    cases optType with
    | short =>
      cases taken
      exact ⟨rfl, rfl⟩
    | noPrefix =>
      cases taken
      exact ⟨rfl, rfl⟩
    | long =>
      cases taken
      exact ⟨rfl, rfl⟩

theorem takeWhile_dashes (text : List UInt8) (other : text.head? ≠ some optionPrefix) :
    text.takeWhile (· = optionPrefix) = [] := by
  cases text with
  | nil => rfl
  | cons first text => exact List.takeWhile_cons_of_neg (by simpa using other)

/-- The name the parser takes is the option's name. -/
theorem optName_eq_optionName (argument shown : List UInt8) (value : Option (List UInt8))
    (taken : optName (scanPrefix argument).1 (scanPrefix argument).2 = some (shown, value)) :
    shown = optionName argument := by
  rw [(optName_some _ _ _ _ taken).1, optionName]
  rcases scanPrefix_cases argument with
    ⟨other, scanned⟩ | ⟨arg, rfl, other, scanned⟩ | ⟨arg, rfl, scanned⟩
  · rw [scanned, takeWhile_dashes argument other]
    rfl
  · rw [scanned, List.takeWhile_cons_of_pos (by simp), takeWhile_dashes arg other]
    rfl
  · rw [scanned]
    rfl

/-! ### One iteration -/

theorem argvAt_of_lt (argv : List CText) (index : Nat) (inside : index < argv.length) :
    argvAt argv index = .ok (some ⟨.argument index, argv[index].bytes ++ [0]⟩) := by
  rw [argvAt, List.getElem?_eq_getElem inside]

theorem argvAt_length (argv : List CText) : argvAt argv argv.length = .ok none := by
  rw [argvAt, List.getElem?_eq_none le_rfl]
  exact if_pos rfl

/-- A name that is not empty comes from a text that is not. -/
theorem text_ne_nil {optType : OptType} {text shown : List UInt8} {value : Option (List UInt8)}
    (taken : optName optType text = some (shown, value)) (nonempty : shown ≠ []) : text ≠ [] := by
  rintro rfl
  have nothing := (optName_some _ _ _ _ taken).1
  rw [if_neg List.not_mem_nil, List.take_nil] at nothing
  exact nonempty nothing

/-- The rest of a text behind one of its characters. -/
theorem stringAt_rest (object : ScanObject) (text : List UInt8) (offset : Nat) (clean : 0 ∉ text)
    (inside : offset ≤ text.length) :
    stringAt ((⟨object, text ++ [0]⟩ : Ptr ScanObject).add offset) = .ok (text.drop offset) := by
  rw [Ptr.add, List.drop_append_of_le_length inside,
    stringAt_append_nul _ _ _ fun nul => clean (List.mem_of_mem_drop nul)]

/-- There is more behind the letter when the text has a second character. -/
theorem attached_eq (argument : List UInt8) (index : Nat) (named : Named) (clean : 0 ∉ argument)
    (known : NamedOf argument index named) (nonempty : (scanPrefix argument).2 ≠ []) :
    attached named = .ok (decide ((scanPrefix argument).1 = .short ∧
      (scanPrefix argument).2.drop 1 ≠ [])) := by
  have textClean : 0 ∉ (scanPrefix argument).2 :=
    fun nul => clean ((scanPrefix_suffix argument).subset nul)
  obtain ⟨letter, rest, text⟩ := List.exists_cons_of_ne_nil nonempty
  rw [attached, known.optType, known.arg, text]
  rw [text] at textClean
  by_cases short : (scanPrefix argument).1 = .short
  · rw [if_pos short, load, List.cons_append, List.getElem?_cons_succ, List.drop_one,
      List.tail_cons]
    cases rest with
    | nil => simp
    | cons second rest =>
      have other : second ≠ 0 := fun nul =>
        textClean (nul ▸ List.mem_cons_of_mem letter List.mem_cons_self)
      simp [short, other]
  · simp [short]

/-- The value of an option is what the parser takes for it. -/
theorem scanValue_eq (argv : List CText) (pOption : OptionT) (argument shown : List UInt8)
    (value : Option (List UInt8)) (named : Named) (i : Nat) (clean : 0 ∉ argument)
    (known : NamedOf argument i named)
    (taken : optName (scanPrefix argument).1 (scanPrefix argument).2 = some (shown, value))
    (nonempty : (scanPrefix argument).2 ≠ []) :
    scanValue argv pOption named i =
      match argValue pOption (scanPrefix argument).1 (scanPrefix argument).2 value with
      | .given value => .ok (some (value, i))
      | .next => nextValue argv i
      | .null => .error .null := by
  have textClean : 0 ∉ (scanPrefix argument).2 :=
    fun nul => clean ((scanPrefix_suffix argument).subset nul)
  rw [scanValue, (optName_some _ _ _ _ taken).2, ← known.delim]
  unfold argValue
  cases pOption.argType with
  | noArgument => rfl
  | optionalArgument => rfl
  | requiredArgument =>
    cases found : named.delim with
    | some delim =>
      rw [known.delim] at found
      have within : delim < (scanPrefix argument).2.length :=
        (List.findIdx?_eq_some_iff_getElem.mp found).1
      simp only [Option.map_some]
      rw [known.arg, stringAt_rest _ _ _ textClean within, ok_bind]
    | none =>
      simp only [Option.map_none]
      rw [attached_eq argument i named clean known nonempty, ok_bind]
      by_cases more : (scanPrefix argument).1 = .short ∧ (scanPrefix argument).2.drop 1 ≠ []
      · rw [if_pos (decide_eq_true more), if_pos more, known.arg,
          stringAt_rest _ _ _ textClean (List.length_pos_iff.mpr nonempty), ok_bind]
      · rw [if_neg (by rw [decide_eq_true_iff]; exact more), if_neg more]

/-- What the parser takes an argument for, carried out by the loop. -/
def carryOut (argv : List CText) (state : ScanState) (argument : List UInt8)
    (opt : Ptr ScanObject) : Reading → Exec ScanObject (Next ScanState ParseResult)
  | .invalid format => leaveWith state (-10) format argument
  | .positional =>
    .ok (.again { i := state.i + 1, opt,
                  ctx := { state.ctx with argList := state.ctx.argList ++ [argument] } })
  | .option pOption name value =>
    match value with
    | .given value =>
      .ok (.again { i := state.i + 1, opt, ctx := state.ctx.store pOption value })
    | .next =>
      match argv[state.i + 1]? with
      | none => leaveWith state (-20) "Option '%s' requires parament\n" name
      | some next =>
        .ok (.again { i := state.i + 1 + 1, opt, ctx := state.ctx.store pOption next.bytes })
    | .null => .error .null

theorem nextValue_eq (argv : List CText) (i : Nat) (inside : i < argv.length) :
    nextValue argv i = .ok (argv[i + 1]?.map fun next => (next.bytes, i + 1)) := by
  rw [nextValue]
  by_cases last : i + 1 = argv.length
  · rw [last, argvAt_length, ok_bind, List.getElem?_eq_none le_rfl]
    rfl
  · have following : i + 1 < argv.length := by omega
    rw [argvAt_of_lt argv (i + 1) following, ok_bind, List.getElem?_eq_getElem following]
    simp only []
    rw [stringAt_append_nul _ _ _ argv[i + 1].noNUL, ok_bind]
    rfl

theorem scanPrefix_noPrefix (argument : List UInt8) (none : (scanPrefix argument).1 = .noPrefix) :
    (scanPrefix argument).2 = argument := by
  rcases scanPrefix_cases argument with
    ⟨-, scanned⟩ | ⟨arg, -, -, scanned⟩ | ⟨arg, -, scanned⟩
  · rw [scanned]
  · rw [scanned] at none
    cases none
  · rw [scanned] at none
    cases none

/-- From `get_option` on, an iteration carries out what the parser takes the argument for. -/
theorem takeOption_eq (table : List OptionT) (argv : List CText) (state : ScanState)
    (argument : List UInt8) (named : Named) (inside : state.i < argv.length)
    (clean : 0 ∉ argument) (known : NamedOf argument state.i named) :
    takeOption table argv state argument named =
      carryOut argv state argument named.opt (readArg table argument) := by
  have textClean : 0 ∉ (scanPrefix argument).2 :=
    fun nul => clean ((scanPrefix_suffix argument).subset nul)
  obtain ⟨shown, value, taken, held⟩ := known.name
  have delim : value = none ↔ named.delim = none := by
    rw [(optName_some _ _ _ _ taken).2, Option.map_eq_none_iff, known.delim]
  rw [takeOption, stringAt, held, ok_bind, readArg]
  simp only [taken]
  cases found : getOption shown table with
  | none =>
    simp only []
    by_cases positional : value = none ∧ (scanPrefix argument).1 = .noPrefix
    · have same : named.delim = none ∧ named.optType = .noPrefix :=
        ⟨delim.mp positional.1, known.optType.trans positional.2⟩
      rw [if_pos same, if_pos positional, known.arg, stringAt_append_nul _ _ _ textClean, ok_bind,
        scanPrefix_noPrefix argument positional.2]
      rfl
    · have other : ¬ (named.delim = none ∧ named.optType = .noPrefix) := fun same =>
        positional ⟨delim.mpr same.1, known.optType.symm.trans same.2⟩
      rw [if_neg other, if_neg positional]
      rfl
  | some pOption =>
    have nonempty : shown ≠ [] := by
      rintro rfl
      cases found
    simp only []
    rw [scanValue_eq argv pOption argument shown value named state.i clean known taken
      (text_ne_nil taken nonempty)]
    cases argValue pOption (scanPrefix argument).1 (scanPrefix argument).2 value with
    | given value => rfl
    | null => rfl
    | next =>
      simp only []
      rw [nextValue_eq argv state.i inside, ok_bind, carryOut]
      cases argv[state.i + 1]? with
      | none => rfl
      | some next => rfl

/-- What an iteration leads to: the next one, further on and with the array a string, or the way
out, or the null pointer that is taken for a string. -/
def Advances (table : List OptionT) (argc : Nat) (state : ScanState) :
    Exec ScanObject (Next ScanState ParseResult) → Prop
  | .ok (.again next) => state.i < next.i ∧ next.i ≤ argc ∧ OptTerminated next.opt
  | .ok (.leave _) => True
  | .error fault => fault = .null ∧ ∃ pOption ∈ table, pOption.argType = .optionalArgument

theorem carryOut_advances (table : List OptionT) (argv : List CText) (state : ScanState)
    (argument : List UInt8) (opt : Ptr ScanObject) (inside : state.i < argv.length)
    (terminated : OptTerminated opt) :
    Advances table argv.length state
      (carryOut argv state argument opt (readArg table argument)) := by
  cases reading : readArg table argument with
  | invalid format => trivial
  | positional => exact ⟨Nat.lt_succ_self _, inside, terminated⟩
  | option pOption name value =>
    cases value with
    | given value => exact ⟨Nat.lt_succ_self _, inside, terminated⟩
    | null => exact ⟨rfl, pOption, readArg_mem reading, (readArg_null_iff reading).mp rfl⟩
    | next =>
      rw [carryOut]
      cases following : argv[state.i + 1]? with
      | none => trivial
      | some next =>
        obtain ⟨within, -⟩ := List.getElem?_eq_some_iff.mp following
        exact ⟨by simp only []; omega, within, terminated⟩

theorem scanBody_advances (table : List OptionT) (argv : List CText) (state : ScanState)
    (inside : state.i ≤ argv.length) (terminated : OptTerminated state.opt) :
    Advances table argv.length state (scanBody table argv state) := by
  rw [scanBody]
  by_cases last : state.i = argv.length
  · rw [last, argvAt_length, ok_bind]
    trivial
  · have within : state.i < argv.length := by omega
    have clean := argv[state.i].noNUL
    obtain ⟨result, filled, known, -⟩ :=
      nameOption_spec argv[state.i].bytes state.i state.opt clean terminated
    rw [argvAt_of_lt argv state.i within, ok_bind]
    simp only []
    rw [stringAt_append_nul _ _ _ clean, ok_bind, filled, ok_bind]
    cases result with
    | none => trivial
    | some named =>
      have name := known named rfl
      simp only []
      rw [takeOption_eq table argv state _ named within clean name]
      exact carryOut_advances table argv state _ named.opt within name.terminated

/-! ### The whole loop -/

/-- What holds when the loop is back at its start after so many iterations: the index has not
passed the null pointer, so there are no more iterations than arguments behind the program's name;
the array has its NUL, and it is the name of the option when `get_option` reads it; and an iteration
stays inside the arrays. -/
structure ScansInRange (table : List OptionT) (argv : List CText) (count : Nat)
    (state : ScanState) : Prop where
  index : count < state.i ∧ state.i ≤ argv.length
  array : OptTerminated state.opt
  iterations : state.i < argv.length → count + 1 ≤ argv.length - 1
  named : ∀ argument, argv[state.i]? = some argument →
    ∃ result, nameOption ⟨.argument state.i, argument.bytes ++ [0]⟩ state.opt = .ok result ∧
      ∀ named, result = some named → OptTerminated named.opt ∧
        cString named.opt.bytes = some (optionName argument.bytes)
  inside : ∀ fault, scanBody table argv state = .error fault →
    fault = .null ∧ ∃ pOption ∈ table, pOption.argType = .optionalArgument

theorem scanStart_terminated (ctx : MainCtx) : OptTerminated (scanStart ctx).opt :=
  ⟨rfl, List.length_replicate, rfl⟩

theorem scansInRange_of_reachesIn (table : List OptionT) (ctx : MainCtx) (argv : List CText)
    (present : 1 ≤ argv.length) (count : Nat) (state : ScanState)
    (reaches : ReachesIn (scanBody table argv) (scanStart ctx) count state) :
    ScansInRange table argv count state := by
  have invariant : (count < state.i ∧ state.i ≤ argv.length) ∧ OptTerminated state.opt := by
    refine reaches.invariant
      (fun count state => (count < state.i ∧ state.i ≤ argv.length) ∧ OptTerminated state.opt) ?_
      ⟨⟨Nat.one_pos, present⟩, scanStart_terminated ctx⟩
    rintro count state next ⟨⟨fewer, inside⟩, terminated⟩ goes
    have advances := scanBody_advances table argv state inside terminated
    rw [show scanBody table argv state = .ok (.again next) from goes] at advances
    obtain ⟨further, before, still⟩ := advances
    exact ⟨⟨by omega, before⟩, still⟩
  obtain ⟨⟨fewer, inside⟩, terminated⟩ := invariant
  refine ⟨⟨fewer, inside⟩, terminated, fun within => by omega, ?_, ?_⟩
  · intro argument there
    obtain ⟨result, filled, known, -⟩ :=
      nameOption_spec argument.bytes state.i state.opt argument.noNUL terminated
    refine ⟨result, filled, fun named is => ?_⟩
    have spec := known named is
    obtain ⟨shown, value, taken, held⟩ := spec.name
    exact ⟨spec.terminated, by rw [held, optName_eq_optionName _ _ _ taken]⟩
  · intro fault faults
    have advances := scanBody_advances table argv state inside terminated
    rw [faults] at advances
    exact advances

/-- The loop stays in range, and it is left within as many iterations as there are arguments behind
the program's name, unless an option with an optional argument stops it at the null pointer.

`ScansInRange` holds whenever the loop is back at its start: the index is inside `argv` or at its
null pointer, the array of the name has its terminator, and the name that `get_option` reads is
that of the argument. -/
theorem option_scan_in_range (table : List OptionT) (ctx : MainCtx) (program : CText)
    (arguments : List CText) :
    (∀ count state,
      ReachesIn (scanBody table (program :: arguments)) (scanStart ctx) count state →
        ScansInRange table (program :: arguments) count state) ∧
    ((∃ result, run (scanBody table (program :: arguments)) (arguments.length + 1)
        (scanStart ctx) = .ok (some result)) ∨
      run (scanBody table (program :: arguments)) (arguments.length + 1) (scanStart ctx) =
        .error .null ∧ ∃ pOption ∈ table, pOption.argType = .optionalArgument) := by
  have inRange := scansInRange_of_reachesIn table ctx (program :: arguments)
    (Nat.succ_pos arguments.length)
  refine ⟨inRange, ?_⟩
  have outcome := run_outcome (scanBody table (program :: arguments)) (scanStart ctx)
    (arguments.length + 1)
  cases ran : run (scanBody table (program :: arguments)) (arguments.length + 1)
      (scanStart ctx) with
  | error fault =>
    rw [ran] at outcome
    obtain ⟨count, state, reaches, faults⟩ := outcome
    obtain ⟨rfl, optional⟩ := (inRange count state reaches).inside fault faults
    exact Or.inr ⟨rfl, optional⟩
  | ok result =>
    cases result with
    | some result => exact Or.inl ⟨result, rfl⟩
    | none =>
      rw [ran] at outcome
      obtain ⟨state, reaches⟩ := outcome
      have index := (inRange _ state reaches).index
      rw [List.length_cons] at index
      omega

/-! ### The loop and the parser -/

/-- Over an argument whose length is an `int`, an iteration does what the parser does. -/
theorem scanBody_eq (table : List OptionT) (argv : List CText) (state : ScanState)
    (inside : state.i < argv.length) (terminated : OptTerminated state.opt)
    (short : argv[state.i].bytes.length < 2 ^ 31) :
    ∃ opt, OptTerminated opt ∧ scanBody table argv state =
      carryOut argv state argv[state.i].bytes opt (readArg table argv[state.i].bytes) := by
  have clean := argv[state.i].noNUL
  obtain ⟨result, filled, known, invalid⟩ :=
    nameOption_spec argv[state.i].bytes state.i state.opt clean terminated
  rw [scanBody, argvAt_of_lt argv state.i inside, ok_bind]
  simp only []
  rw [stringAt_append_nul _ _ _ clean, ok_bind, filled, ok_bind]
  cases result with
  | none =>
    refine ⟨state.opt, terminated, ?_⟩
    rw [readArg]
    simp only [invalid rfl short]
    rfl
  | some named =>
    have name := known named rfl
    exact ⟨named.opt, name.terminated, takeOption_eq table argv state _ named inside clean name⟩

/-- From any state in range on, the loop does what the parser does with the arguments left. -/
theorem run_scanBody (table : List OptionT) (argv : List CText) (embed : ArgObject → ScanObject)
    (short : ∀ arg ∈ argv, arg.bytes.length < 2 ^ 31) (bound : Nat) (state : ScanState)
    (inside : state.i ≤ argv.length) (terminated : OptTerminated state.opt)
    (enough : argv.length - state.i < bound) :
    run (scanBody table argv) bound state = Exec.embed embed
      (some <$> parseLoop table ((argv.drop state.i).map CText.bytes) state.ctx) := by
  induction bound generalizing state with
  | zero => omega
  | succ bound inductionHypothesis =>
    by_cases last : state.i = argv.length
    · have leaves : scanBody table argv state = .ok (.leave ⟨0, none, state.ctx⟩) := by
        rw [scanBody, last, argvAt_length, ok_bind]
      rw [run_leave leaves, last, List.drop_length]
      rfl
    · have within : state.i < argv.length := by omega
      obtain ⟨opt, still, carried⟩ := scanBody_eq table argv state within terminated
        (short _ (List.getElem_mem within))
      rw [List.drop_eq_getElem_cons within, List.map_cons]
      cases reading : readArg table argv[state.i].bytes with
      | invalid format =>
        rw [reading] at carried
        rw [run_leave carried, parseLoop, reading]
        rfl
      | positional =>
        rw [reading] at carried
        rw [run_again carried, parseLoop, reading]
        exact inductionHypothesis _ within still (by simp only []; omega)
      | option pOption name value =>
        cases value with
        | given value =>
          rw [reading] at carried
          rw [run_again carried, parseLoop, reading]
          exact inductionHypothesis _ within still (by simp only []; omega)
        | null =>
          rw [reading] at carried
          rw [run_error carried, parseLoop, reading]
          rfl
        | next =>
          rw [reading, carryOut] at carried
          cases following : argv[state.i + 1]? with
          | none =>
            rw [following] at carried
            have empty : argv.drop (state.i + 1) = [] :=
              List.drop_eq_nil_of_le (List.getElem?_eq_none_iff.mp following)
            rw [run_leave carried, parseLoop, reading, empty]
            rfl
          | some next =>
            rw [following] at carried
            obtain ⟨before, there⟩ := List.getElem?_eq_some_iff.mp following
            rw [run_again carried, parseLoop, reading, List.drop_eq_getElem_cons before, there]
            exact inductionHypothesis _ before still (by simp only []; omega)

/-- The loop over memory returns, prints and stores what `parseOptLong` does.

The vector is not empty, since the loop starts behind the program's name, and each argument is
shorter than `2 ^ 31` bytes, since its length is kept in an `int`. -/
theorem run_scanBody_start (table : List OptionT) (ctx : MainCtx) (argv : List CText)
    (embed : ArgObject → ScanObject) (present : argv ≠ [])
    (short : ∀ arg ∈ argv, arg.bytes.length < 2 ^ 31) :
    run (scanBody table argv) argv.length (scanStart ctx) = Exec.embed embed
      (some <$> parseOptLong table ctx (argv.map CText.bytes)) := by
  have positive : 0 < argv.length := List.length_pos_iff.mpr present
  rw [run_scanBody table argv embed short argv.length (scanStart ctx) positive
    (scanStart_terminated ctx) (Nat.sub_lt positive Nat.one_pos), parseOptLong, ← List.map_tail,
    ← List.drop_one]
  rfl

theorem run_scanBody_start_version :
    run (scanBody longOptions [⟨text "netmt", by decide⟩, ⟨text "-v", by decide⟩]) 2
        (scanStart ⟨fun _ => none, []⟩) =
      Exec.embed (fun _ => .opt)
        (some <$> parseOptLong longOptions ⟨fun _ => none, []⟩ [text "netmt", text "-v"]) :=
  run_scanBody_start longOptions ⟨fun _ => none, []⟩
    [⟨text "netmt", by decide⟩, ⟨text "-v", by decide⟩] (fun _ => .opt) (List.cons_ne_nil _ _)
    (List.forall_mem_cons.mpr ⟨by decide, List.forall_mem_singleton.mpr (by decide)⟩)

end Netmt
