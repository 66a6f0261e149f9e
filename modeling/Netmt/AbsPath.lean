/-
This file models `GetAbsPath`, which completes a file name by the directory of the
running executable.

An absolute name is copied with `strncpy`, and the last byte of the buffer set to
NUL afterwards: a long name is cut, and the cut name is looked up. The path of the
executable comes from `readlink`, which writes no NUL and cuts silently: when it
fills the buffer, the search for its last slash goes on behind the buffer.
-/
import Netmt.Text

namespace Netmt

open CMem

/-- The object a call writes to. -/
inductive PathObject where
  | szOutPath
  deriving DecidableEq, Repr

/-- The path of an executable: a directory and a name in it. -/
structure ExePath where
  directory : List UInt8
  name : List UInt8
  directoryNoNUL : 0 ∉ directory
  nameNoNUL : 0 ∉ name
  nameNoSlash : 47 ∉ name

/-- The whole path. -/
def ExePath.path (exe : ExePath) : List UInt8 := exe.directory ++ 47 :: exe.name

/-- `readlink(path, buf, bufsiz)`, for the target of the link, if it can be read. -/
def readlink (link : Option (List UInt8)) (buf : Ptr PathObject) (bufsiz : Nat) :
    Exec PathObject (Option (Ptr PathObject)) :=
  match link with
  | none => .ok none
  | some path =>
    if min path.length bufsiz ≤ buf.bytes.length then
      .ok (some { buf with bytes := path.take bufsiz ++ buf.bytes.drop (min path.length bufsiz) })
    else .error (.outOfBounds buf.object)

/-- `GetModulePathName`. -/
def getModulePathName (selfExe : Option ExePath) (fullName : Ptr PathObject)
    (nSizeFullName : Nat) : Exec PathObject (Bool × Ptr PathObject) := do
  let fullName ← memset fullName 0 nSizeFullName
  match ← readlink (selfExe.map ExePath.path) fullName nSizeFullName with
  | none => .ok (false, fullName)
  | some fullName => do
    let str ← stringAt fullName
    match strrchr 47 str with
    | some pos => do
      let fullName ← store fullName pos 0
      .ok (true, fullName)
    | none => .ok (true, fullName)

/-- The end of `GetAbsPath`. -/
def statPath (stat : List UInt8 → Bool) (szOutPath : Ptr PathObject) (nBufLen : Nat) :
    Exec PathObject (Bool × Ptr PathObject) := do
  let szOutPath ← store szOutPath (nBufLen - 1) 0
  let path ← stringAt szOutPath
  .ok (stat path, szOutPath)

/-- The name starts with a slash or a backslash. -/
def isAbsolute (szFile : List UInt8) : Bool := szFile.head? = some 47 ∨ szFile.head? = some 92

/-- `GetAbsPath`, in a file system in which `stat` succeeds for the paths given. -/
def getAbsPath (stat : List UInt8 → Bool) (selfExe : Option ExePath) (szFile : CText)
    (szOutPath : Ptr PathObject) (nBufLen : Nat) : Exec PathObject (Bool × Ptr PathObject) := do
  if isAbsolute szFile.bytes then do
    let szOutPath ← strncpy szOutPath szFile.bytes nBufLen
    statPath stat szOutPath nBufLen
  else do
    let (found, szOutPath) ← getModulePathName selfExe szOutPath nBufLen
    if !found then .ok (false, szOutPath)
    else do
      let length ← strlen szOutPath
      if szFile.bytes.length + length + 1 ≥ nBufLen then .ok (false, szOutPath)
      else do
        let szOutPath ← strcat szOutPath (text "/")
        let szOutPath ← strcat szOutPath szFile.bytes
        statPath stat szOutPath nBufLen

/-- The path a file name stands for: itself, or behind the directory of the executable. -/
def IsWholePath (selfExe : Option ExePath) (szFile path : List UInt8) : Prop :=
  if isAbsolute szFile then path = szFile
  else ∃ exe, selfExe = some exe ∧ path = exe.directory ++ 47 :: szFile

/-- A call stays inside the buffer, and when it returns TRUE the buffer holds the whole path. -/
def GivesWholePath (stat : List UInt8 → Bool) (selfExe : Option ExePath) (szFile : CText)
    (junk : Nat → UInt8) (nBufLen : Nat) : Prop :=
  ∃ result szOutPath,
    getAbsPath stat selfExe szFile (malloc .szOutPath junk nBufLen) nBufLen =
      .ok (result, szOutPath) ∧
    (result = true → ∃ path, cString szOutPath.bytes = some path ∧
      IsWholePath selfExe szFile.bytes path)

/-- An absolute name fits, or does not exist once it is cut; and for another one the path of the
executable fits. -/
def PathFits (stat : List UInt8 → Bool) (selfExe : Option ExePath) (szFile : List UInt8)
    (nBufLen : Nat) : Prop :=
  if isAbsolute szFile then
    szFile.length < nBufLen ∨ stat (szFile.take (nBufLen - 1)) = false
  else ∀ exe, selfExe = some exe → exe.path.length < nBufLen

/-! ### Copying the name -/

/-- A NUL that is stored behind a string, or over its terminator, leaves the string. -/
theorem store_behind (object : PathObject) (path tail : List UInt8) (index : Nat)
    (behind : path.length ≤ index) (inside : index < path.length + (tail.length + 1)) :
    ∃ rest, store ⟨object, path ++ 0 :: tail⟩ index 0 = .ok ⟨object, path ++ 0 :: rest⟩ := by
  rw [store_of_lt _ _ _ (by rw [List.length_append, List.length_cons]; exact inside),
    List.set_append_right _ _ behind]
  cases index - path.length with
  | zero => exact ⟨tail, rfl⟩
  | succ offset => exact ⟨tail.set offset 0, rfl⟩

/-- A string that fits is looked up as it is. -/
theorem statPath_of_fits (stat : List UInt8 → Bool) (object : PathObject)
    (path tail : List UInt8) (nBufLen : Nat) (clean : 0 ∉ path)
    (whole : path.length + (tail.length + 1) = nBufLen) :
    ∃ rest, statPath stat ⟨object, path ++ 0 :: tail⟩ nBufLen =
      .ok (stat path, ⟨object, path ++ 0 :: rest⟩) := by
  obtain ⟨rest, stored⟩ := store_behind object path tail (nBufLen - 1) (by omega) (by omega)
  refine ⟨rest, ?_⟩
  rw [statPath, stored, ok_bind, stringAt_append_nul _ _ _ clean, ok_bind]

/-- A name that fits is copied whole. -/
theorem strncpy_of_fits (junk : Nat → UInt8) (szFile : List UInt8) (nBufLen : Nat)
    (fits : szFile.length < nBufLen) :
    strncpy (malloc PathObject.szOutPath junk nBufLen) szFile nBufLen =
      .ok ⟨.szOutPath, szFile ++ 0 :: List.replicate (nBufLen - szFile.length - 1) 0⟩ := by
  have room : nBufLen - szFile.length = nBufLen - szFile.length - 1 + 1 := by omega
  rw [strncpy, if_pos (malloc_length _ _ _).ge, List.take_of_length_le fits.le,
    List.drop_eq_nil_of_le (malloc_length _ _ _).le, List.append_nil, room, List.replicate_succ]
  rfl

/-- A longer one fills the buffer, and its last byte there gives way to the NUL. -/
theorem statPath_cut (stat : List UInt8 → Bool) (junk : Nat → UInt8) (szFile : CText)
    (nBufLen : Nat) (positive : 0 < nBufLen) (long : nBufLen ≤ szFile.bytes.length) :
    (strncpy (malloc PathObject.szOutPath junk nBufLen) szFile.bytes nBufLen >>= fun szOutPath =>
        statPath stat szOutPath nBufLen) =
      .ok (stat (szFile.bytes.take (nBufLen - 1)),
        ⟨.szOutPath, szFile.bytes.take (nBufLen - 1) ++ [0]⟩) := by
  have cutClean : 0 ∉ szFile.bytes.take (nBufLen - 1) :=
    fun nul => szFile.noNUL (List.mem_of_mem_take nul)
  have length : (szFile.bytes.take (nBufLen - 1)).length = nBufLen - 1 := by
    rw [List.length_take]
    omega
  have inside : nBufLen - 1 < szFile.bytes.length := by omega
  have split : szFile.bytes.take nBufLen =
      szFile.bytes.take (nBufLen - 1) ++ [szFile.bytes[nBufLen - 1]] := by
    rw [List.take_concat_get', Nat.sub_add_cancel positive]
  rw [strncpy, if_pos (malloc_length _ _ _).ge, ok_bind, Nat.sub_eq_zero_of_le long,
    List.drop_eq_nil_of_le (malloc_length _ _ _).le, List.replicate_zero, List.append_nil,
    List.append_nil, split, statPath, store_of_lt _ _ _ (by simp; omega), ok_bind]
  simp only []
  rw [List.set_append_right _ _ length.le, length, Nat.sub_self, List.set_cons_zero,
    stringAt_append_nul _ _ _ cutClean, ok_bind, malloc_object]

/-! ### The directory of the executable -/

theorem ExePath.path_clean (exe : ExePath) : 0 ∉ exe.path := by
  rw [ExePath.path, List.mem_append, List.mem_cons]
  rintro (nul | nul | nul)
  · exact exe.directoryNoNUL nul
  · exact absurd nul (by decide)
  · exact exe.nameNoNUL nul

theorem ExePath.length_path (exe : ExePath) :
    exe.path.length = exe.directory.length + (exe.name.length + 1) := by
  rw [ExePath.path, List.length_append, List.length_cons]

/-- The last slash stands behind the directory. -/
theorem strrchr_append (byte : UInt8) (front back : List UInt8) (last : byte ∉ back) :
    strrchr byte (front ++ byte :: back) = some front.length := by
  have none : strrchr byte back = none := by
    induction back with
    | nil => rfl
    | cons other back inductionHypothesis =>
      have different : other ≠ byte := fun same => last (same ▸ List.mem_cons_self)
      rw [strrchr, inductionHypothesis fun member => last (List.mem_cons_of_mem other member)]
      exact if_neg different
  induction front with
  | nil =>
    rw [List.nil_append, strrchr, none]
    exact if_pos rfl
  | cons first front inductionHypothesis =>
    rw [List.cons_append, strrchr, inductionHypothesis]
    rfl

theorem memset_malloc (junk : Nat → UInt8) (nBufLen : Nat) :
    memset (malloc PathObject.szOutPath junk nBufLen) 0 nBufLen =
      .ok ⟨.szOutPath, List.replicate nBufLen 0⟩ := by
  rw [memset, if_pos (malloc_length _ _ _).ge,
    List.drop_eq_nil_of_le (malloc_length _ _ _).le, List.append_nil]

/-- The path of the executable fits: what is left of it is the directory. -/
theorem getModulePathName_of_fits (exe : ExePath) (junk : Nat → UInt8) (nBufLen : Nat)
    (fits : exe.path.length < nBufLen) :
    ∃ tail, exe.directory.length + (tail.length + 1) = nBufLen ∧
      getModulePathName (some exe) (malloc .szOutPath junk nBufLen) nBufLen =
        .ok (true, ⟨.szOutPath, exe.directory ++ 0 :: tail⟩) := by
  have length := exe.length_path
  have room : nBufLen - exe.path.length = nBufLen - exe.path.length - 1 + 1 := by omega
  refine ⟨exe.name ++ 0 :: List.replicate (nBufLen - exe.path.length - 1) 0, ?_, ?_⟩
  · rw [List.length_append, List.length_cons, List.length_replicate]
    omega
  · rw [getModulePathName, memset_malloc, ok_bind, Option.map_some, readlink,
      if_pos (by rw [List.length_replicate]; exact Nat.min_le_right _ _), ok_bind,
      min_eq_left fits.le, List.take_of_length_le fits.le, List.drop_replicate, room,
      List.replicate_succ]
    simp only []
    rw [stringAt_append_nul _ _ _ exe.path_clean, ok_bind, ExePath.path,
      strrchr_append _ _ _ exe.nameNoSlash]
    simp only []
    rw [store_of_lt _ _ _ (by simp), ok_bind, List.append_assoc, List.set_append_right _ _ le_rfl,
      Nat.sub_self]
    rfl

/-- The path of the executable fills the buffer: the search for its last slash runs out of it. -/
theorem getModulePathName_overrun (exe : ExePath) (junk : Nat → UInt8) (nBufLen : Nat)
    (long : nBufLen ≤ exe.path.length) :
    getModulePathName (some exe) (malloc .szOutPath junk nBufLen) nBufLen =
      .error (.outOfBounds .szOutPath) := by
  have cutClean : 0 ∉ exe.path.take nBufLen :=
    fun nul => exe.path_clean (List.mem_of_mem_take nul)
  rw [getModulePathName, memset_malloc, ok_bind, Option.map_some, readlink,
    if_pos (by rw [List.length_replicate]; exact Nat.min_le_right _ _), ok_bind,
    min_eq_right long, List.drop_replicate, Nat.sub_self, List.replicate_zero, List.append_nil]
  simp only []
  rw [stringAt_unterminated _ _ cutClean, error_bind]

/-- Behind the directory there is room for the slash and the name, or the call returns FALSE. -/
theorem getAbsPath_of_fits (stat : List UInt8 → Bool) (exe : ExePath) (szFile : CText)
    (junk : Nat → UInt8) (nBufLen : Nat) (relative : ¬ isAbsolute szFile.bytes)
    (fits : exe.path.length < nBufLen) :
    ∃ result szOutPath,
      getAbsPath stat (some exe) szFile (malloc .szOutPath junk nBufLen) nBufLen =
        .ok (result, szOutPath) ∧
      (result = true → cString szOutPath.bytes = some (exe.directory ++ 47 :: szFile.bytes)) := by
  obtain ⟨tail, length, found⟩ := getModulePathName_of_fits exe junk nBufLen fits
  rw [getAbsPath, if_neg relative, found, ok_bind]
  simp only [Bool.not_true, Bool.false_eq_true, if_false]
  rw [strlen_append_nul _ _ _ exe.directoryNoNUL, ok_bind]
  by_cases long : szFile.bytes.length + exe.directory.length + 1 ≥ nBufLen
  · rw [if_pos long]
    exact ⟨false, _, rfl, nofun⟩
  · have slash : exe.directory ++ text "/" = exe.directory ++ [47] := rfl
    have slashClean : 0 ∉ exe.directory ++ [47] := by
      rw [List.mem_append]
      exact not_or.mpr ⟨exe.directoryNoNUL, by decide⟩
    have wholeClean : 0 ∉ exe.directory ++ [47] ++ szFile.bytes := by
      rw [List.mem_append]
      exact not_or.mpr ⟨slashClean, szFile.noNUL⟩
    have one : (text "/").length = 1 := rfl
    obtain ⟨rest, looked⟩ := statPath_of_fits stat .szOutPath
      (exe.directory ++ [47] ++ szFile.bytes) ((tail.drop 1).drop szFile.bytes.length) nBufLen
      wholeClean (by
        rw [List.length_append, List.length_append, List.length_singleton, List.length_drop,
          List.length_drop]
        omega)
    rw [if_neg long, strcat_append_nul _ _ _ _ exe.directoryNoNUL (by omega), ok_bind, one, slash,
      strcat_append_nul _ _ _ _ slashClean (by rw [List.length_drop]; omega), ok_bind, looked]
    refine ⟨_, _, rfl, fun _ => ?_⟩
    rw [cString_append_nul _ _ wholeClean, List.append_assoc]
    rfl

/-- A call gives the whole path or fails exactly when an absolute name fits into the buffer or does
not exist once it is cut, and for another name the path of the executable fits.

`stat` is what the file system answers for each path. A name that is cut is looked up as it is,
and where that is another file the call returns TRUE. -/
theorem gives_whole_path_iff (stat : List UInt8 → Bool) (selfExe : Option ExePath) (szFile : CText)
    (junk : Nat → UInt8) (nBufLen : Nat) (atLeast : 2 ≤ nBufLen) :
    GivesWholePath stat selfExe szFile junk nBufLen ↔
      PathFits stat selfExe szFile.bytes nBufLen := by
  by_cases absolute : isAbsolute szFile.bytes
  · rw [GivesWholePath, PathFits, if_pos absolute, getAbsPath, if_pos absolute]
    by_cases fits : szFile.bytes.length < nBufLen
    · obtain ⟨rest, looked⟩ := statPath_of_fits stat .szOutPath szFile.bytes
        (List.replicate (nBufLen - szFile.bytes.length - 1) 0) nBufLen szFile.noNUL
        (by rw [List.length_replicate]; omega)
      rw [strncpy_of_fits junk _ _ fits, ok_bind, looked]
      refine iff_of_true ⟨_, _, rfl, fun _ => ⟨szFile.bytes, ?_, ?_⟩⟩ (Or.inl fits)
      · rw [cString_append_nul _ _ szFile.noNUL]
      · rw [IsWholePath, if_pos absolute]
    · rw [statPath_cut stat junk szFile nBufLen (by omega) (by omega), or_iff_right fits]
      constructor
      · rintro ⟨result, szOutPath, returned, whole⟩
        obtain ⟨rfl, rfl⟩ := Prod.mk.inj (Except.ok.inj returned)
        cases found : stat (szFile.bytes.take (nBufLen - 1)) with
        | false => rfl
        | true =>
          obtain ⟨path, held, same⟩ := whole found
          rw [IsWholePath, if_pos absolute] at same
          rw [cString_append_nul _ _ fun nul => szFile.noNUL (List.mem_of_mem_take nul),
            same] at held
          have length := congrArg List.length (Option.some.inj held)
          rw [List.length_take] at length
          omega
      · intro missing
        exact ⟨_, _, rfl, fun found => absurd found (by rw [missing]; exact nofun)⟩
  · rw [GivesWholePath, PathFits, if_neg absolute]
    cases selfExe with
    | none =>
      refine iff_of_true ⟨false, ⟨.szOutPath, List.replicate nBufLen 0⟩, ?_, nofun⟩ nofun
      rw [getAbsPath, if_neg absolute, getModulePathName, memset_malloc]
      rfl
    | some exe =>
      by_cases fits : exe.path.length < nBufLen
      · obtain ⟨result, szOutPath, returned, whole⟩ :=
          getAbsPath_of_fits stat exe szFile junk nBufLen absolute fits
        refine iff_of_true ⟨result, szOutPath, returned, fun found => ?_⟩ ?_
        · refine ⟨_, whole found, ?_⟩
          rw [IsWholePath, if_neg absolute]
          exact ⟨exe, rfl, rfl⟩
        · rintro _ ⟨⟩
          exact fits
      · rw [getAbsPath, if_neg absolute, getModulePathName_overrun exe junk nBufLen (by omega)]
        exact iff_of_false nofun fun all => fits (all exe rfl)

/-- The executable `/bin/sh`. -/
def shellPath : ExePath where
  directory := text "/bin"
  name := text "sh"
  directoryNoNUL := by decide
  nameNoNUL := by decide
  nameNoSlash := by decide

/-- The path `/bin/x` fits into 8 bytes, as `/bin/sh` does. -/
theorem gives_whole_path_iff_shell :
    GivesWholePath (fun _ => true) (some shellPath) ⟨text "x", by decide⟩ (fun _ => 0) 8 :=
  (gives_whole_path_iff (fun _ => true) (some shellPath) ⟨text "x", by decide⟩ (fun _ => 0) 8
    (by decide)).mpr (by
      rw [PathFits, if_neg (by decide)]
      rintro _ ⟨⟩
      decide)

/-- In 3 bytes, `/ab` becomes `/a`, and the call succeeds when there is such a file. -/
theorem gives_cut_path :
    ¬ GivesWholePath (fun _ => true) (some shellPath) ⟨text "/ab", by decide⟩ (fun _ => 0) 3 := by
  have cut : getAbsPath (fun _ => true) (some shellPath) ⟨text "/ab", by decide⟩
      (malloc .szOutPath (fun _ => 0) 3) 3 = .ok (true, ⟨.szOutPath, text "/a" ++ [0]⟩) := rfl
  rintro ⟨result, szOutPath, returned, whole⟩
  rw [cut] at returned
  obtain ⟨rfl, rfl⟩ := Prod.mk.inj (Except.ok.inj returned)
  obtain ⟨path, held, same⟩ := whole rfl
  rw [IsWholePath, if_pos (by decide)] at same
  rw [same] at held
  exact absurd held (by decide)

end Netmt
