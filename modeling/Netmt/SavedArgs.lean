/-
This file models the loops with which `main_ctx_init` saves the command line: a block
with copies of the arguments one behind the other, an array of pointers to them, and
a block with the arguments joined by blanks. What `main_ctx_init` does before them is
in `MainCtxInit.lean`.

The blocks are as long as the arguments with their NULs, a length that is summed up
in an `int`. As long as it fits, the copies fill the one block, and in the other the
blank behind the last argument gives way to the NUL.
-/
import Netmt.Lib.CMem
import Netmt.Lib.Layout

namespace Netmt

open CMem Layout

/-! ### Saving the command line -/

/-- The blocks that are allocated. -/
inductive SaveObject where
  | argp
  | saveArgv
  | cmdline
  deriving DecidableEq, Repr

/-- `SAFE_ALLOC(p, size)`: a block of NULs. A negative size converts to one that no allocator
serves, and the process exits. -/
def safeAlloc (object : SaveObject) (size : Int) : Option (Ptr SaveObject) :=
  if size < 0 then none else some ⟨object, List.replicate size.toNat 0⟩

/-- `SAFE_ALLOC(save_argv, (argc + 1) * sizeof(char*))`: an array of null pointers. -/
def allocPointers (argc : Int) : Option (List (Option Nat)) :=
  if toInt32 (argc + 1) < 0 then none
  else some (List.replicate (toInt32 (argc + 1)).toNat none)

/-- `save_argv[index] = pointer`; a pointer into the block of the copies is its offset there. -/
def storePointer (saveArgv : List (Option Nat)) (index : Int) (pointer : Option Nat) :
    Exec SaveObject (List (Option Nat)) :=
  if 0 ≤ index ∧ index < saveArgv.length then .ok (saveArgv.set index.toNat pointer)
  else .error (.outOfBounds .saveArgv)

/-- The variables of the second loop. The cursors are offsets into their blocks. -/
structure SaveState where
  i : Nat
  saveArgv : List (Option Nat)
  block : Ptr SaveObject
  argp : Nat
  line : Ptr SaveObject
  cmdline : Nat

/-- The body of the second loop. -/
def saveOne (state : SaveState) (arg : CText) : Exec SaveObject SaveState := do
  let saveArgv ← storePointer state.saveArgv state.i (some state.argp)
  let block ← writeString state.block state.argp arg.bytes
  let argp := state.argp + (arg.bytes.length + 1)
  let line ← writeString state.line state.cmdline arg.bytes
  let cmdline := state.cmdline + arg.bytes.length
  let line ← store line cmdline 32
  .ok { i := state.i + 1, saveArgv, block, argp, line, cmdline := cmdline + 1 }

/-- The fields of `main_ctx_t` for the command line, with the blocks their pointers lead to. -/
structure SavedArgs where
  argc : Int
  argLen : Int
  saveArgv : List (Option Nat)
  block : Ptr SaveObject
  cmdline : Ptr SaveObject

/-- The first loop: `arg_len += strlen(argv[i]) + 1`, in an `int`. -/
def argLen (argv : List CText) : Int :=
  argv.foldl (fun sum arg => toInt32 (sum + (arg.bytes.length + 1))) 0

/-- The part of `main_ctx_init` that saves the command line; `none` when the process exits. -/
def saveArgs (argv : List CText) : Exec SaveObject (Option SavedArgs) :=
  let argLen := argLen argv
  let argc := toInt32 argv.length
  match safeAlloc .argp argLen, allocPointers argc, safeAlloc .cmdline argLen with
  | some block, some saveArgv, some line => do
    let last ← argv.foldlM saveOne { i := 0, saveArgv, block, argp := 0, line, cmdline := 0 }
    let saveArgv ← storePointer last.saveArgv argc none
    if argLen = 0 then .error (.outOfBounds .cmdline)
    else do
      let cmdline ← store last.line (argLen.toNat - 1) 0
      .ok (some { argc, argLen, saveArgv, block := last.block, cmdline })
  | _, _, _ => .ok none

/-! ### What is saved -/

/-- The arguments, each with a byte behind it. -/
def ended (last : UInt8) (argv : List CText) : List (List UInt8) :=
  argv.map fun arg => arg.bytes ++ [last]

/-- The arguments, each with its NUL. -/
def copies (argv : List CText) : List (List UInt8) := ended 0 argv

/-- The command line is saved: the block of `arg_len` bytes is the copies laid end to end, each
pointer leads to its copy, a null pointer is behind them, and the other block is the arguments with
blanks between them and one NUL at its end. -/
structure IsSaved (argv : List CText) (saved : SavedArgs) : Prop where
  blocks : saved.block.bytes.length = saved.argLen ∧ saved.cmdline.bytes.length = saved.argLen
  endToEnd : saved.block.bytes = (copies argv).flatten
  pointers : ∀ index (inside : index < argv.length), ∃ pointer,
    saved.saveArgv[index]? = some (some pointer) ∧ pointer = offset (copies argv) index ∧
      pointer + (argv[index].bytes.length + 1) = offset (copies argv) (index + 1) ∧
      cString (saved.block.bytes.drop pointer) = some argv[index].bytes
  null : saved.saveArgv[argv.length]? = some none
  joined : saved.cmdline.bytes = [32].intercalate (argv.map CText.bytes) ++ [0]

end Netmt
