/-
This file follows the memory of `strsplit` through its life: the sizes it computes
and the copies it makes, the count `commandNum` gives for the same string, and what
`strfreesplitp` frees.

The sizes are differences of pointers and go down to -1 at a delimiter in front,
but what is allocated and copied is never negative. The one size that goes wrong is
the array's, for a string that is nothing but delimiters and as long as an `int`
can say: its two extra cells overflow.
-/
import Netmt.StringIni

namespace Netmt

open CMem

/-! ### The copies of strsplit -/

/-- One `malloc` and `memcpy` of `strsplit`; `source` is an offset into the string. -/
structure Copy where
  size : Int
  source : Nat
  count : Int
  deriving DecidableEq, Repr

/-- The copy of the second loop. -/
def loopCopy (p h : Nat) : Copy :=
  let size := toInt32 (p - h - 1)
  if h = 0 then { size := toInt32 (size + 1), source := h, count := toInt32 (size + 1) }
  else { size := toInt32 (size + 1), source := h + 1, count := size }

/-- The copy behind the last delimiter. -/
def lastCopy (p h : Nat) : Copy :=
  let size := toInt32 (p - h - 1)
  { size, source := h + 1, count := size }

/-- The copies that are made from `p` on. -/
def copiesFrom (delim : UInt8) : List UInt8 → Nat → Nat → List Copy
  | [], _, _ => []
  | byte :: rest, p, h =>
    if byte = 0 then [lastCopy p h]
    else if byte = delim then loopCopy p h :: copiesFrom delim rest (p + 1) p
    else copiesFrom delim rest (p + 1) h

/-- How a copy is made. -/
def Copy.run (copy : Copy) (junk : Nat → UInt8) (str : Ptr Object) (call : Nat) :
    Exec Object (Ptr Object) := do
  let item ← mallocInt (.splitItem call) junk copy.size
  memcpy item (str.add copy.source) copy.count

/-- A copy, and the cell it fills. -/
def copyCell (junk : Nat → Nat → UInt8) (capacity : Int) (str : Ptr Object) (cells : Cells)
    (copy : Copy) : Exec Object Cells := do
  let item ← copy.run (junk cells.length) str cells.length
  pushCell capacity cells (some item)

/-- The number of cells `strsplit` asks for. -/
def splitCapacity (str : Ptr Object) (delim : UInt8) : Exec Object Int := do
  let size ← countLoop str.object delim str.bytes 0
  .ok (toInt32 (size + 2))

theorem loopItem_eq_run (junk : Nat → UInt8) (str : Ptr Object) (p h call : Nat) :
    loopItem junk str p h call = (loopCopy p h).run junk str call := by
  unfold loopItem Copy.run loopCopy
  by_cases start : h = 0
  · simp only [if_pos start]
  · simp only [if_neg start]

theorem lastItem_eq_run (junk : Nat → UInt8) (str : Ptr Object) (p h call : Nat) :
    lastItem junk str p h call = (lastCopy p h).run junk str call := rfl

theorem splitLoop_eq_copies (junk : Nat → Nat → UInt8) (capacity : Int) (str : Ptr Object)
    (delim : UInt8) (bytes : List UInt8) (terminated : 0 ∈ bytes) (p h : Nat) (cells : Cells) :
    (do
      let (p, h, cells) ← splitLoop junk capacity str delim bytes p h cells
      let item ← lastItem (junk cells.length) str p h cells.length
      pushCell capacity cells (some item)) =
      (copiesFrom delim bytes p h).foldlM (copyCell junk capacity str) cells := by
  induction bytes generalizing p h cells with
  | nil => cases terminated
  | cons byte rest inductionHypothesis =>
    rw [splitLoop, copiesFrom]
    by_cases nul : byte = 0
    · rw [if_pos nul, if_pos nul, ok_bind, List.foldlM_cons]
      dsimp only
      rw [lastItem_eq_run]
      exact (bind_pure _).symm
    · have later := inductionHypothesis ((List.mem_cons.mp terminated).resolve_left (Ne.symm nul))
      rw [if_neg nul, if_neg nul]
      by_cases found : byte = delim
      · rw [if_pos found, if_pos found, List.foldlM_cons, copyCell, loopItem_eq_run]
        simp only [bind_assoc, ← later]
      · rw [if_neg found, if_neg found, later]

/-- `strsplit` allocates its array, makes the copies in order, and ends with `NULL`. -/
theorem strsplit_eq_copies (junk : Nat → Nat → UInt8) (str : Ptr Object) (delim : UInt8)
    (terminated : 0 ∈ str.bytes) :
    strsplit junk str delim = (do
      let capacity ← splitCapacity str delim
      if capacity < 0 then
        .ok none
      else do
        let cells ← (copiesFrom delim str.bytes 0 0).foldlM (copyCell junk capacity str) []
        let cells ← pushCell capacity cells none
        .ok (some cells)) := by
  rw [strsplit, splitCapacity, bind_assoc]
  congr 1
  funext size
  rw [ok_bind]
  dsimp only
  split
  · rfl
  · rw [← splitLoop_eq_copies junk _ str delim str.bytes terminated 0 0 []]
    simp only [bind_assoc]

/-! ### Freeing -/

/-- The loop of `strfreesplitp`, from the cell `sp` points to: the blocks it frees, in order, and
those that stay allocated. -/
def freeLoop : Cells → List Object → Exec Object (List Object × List Object)
  | [], _ => .error (.outOfBounds .splitArray)
  | none :: _, allocated => .ok ([], allocated)
  | some item :: rest, allocated => do
    let allocated ← free item.object allocated
    let (freed, allocated) ← freeLoop rest allocated
    .ok (item.object :: freed, allocated)

/-- `strfreesplitp`. -/
def strfreesplitp (spl : Option Cells) (allocated : List Object) :
    Exec Object (List Object × List Object) :=
  match spl with
  | none => .error .null
  | some cells => do
    let (freed, allocated) ← freeLoop cells allocated
    let allocated ← free .splitArray allocated
    .ok (freed ++ [.splitArray], allocated)

theorem freeLoop_eq (items : List (Ptr Object)) (foreign : .splitArray ∉ items.map Ptr.object) :
    freeLoop (items.map some ++ [none]) (.splitArray :: items.map Ptr.object) =
      .ok (items.map Ptr.object, [.splitArray]) := by
  induction items with
  | nil => rfl
  | cons item rest inductionHypothesis =>
    rw [List.map_cons, List.mem_cons, not_or] at foreign
    have freed := free_append_cons item.object [.splitArray] (rest.map Ptr.object)
      (by simpa using Ne.symm foreign.1)
    rw [List.singleton_append, List.singleton_append] at freed
    rw [List.map_cons, List.map_cons, List.cons_append, freeLoop, freed, ok_bind,
      inductionHypothesis foreign.2, ok_bind]

/-- With its items still allocated, the array is freed item by item and then itself. -/
theorem strfreesplitp_eq (items : List (Ptr Object))
    (foreign : .splitArray ∉ items.map Ptr.object) :
    strfreesplitp (some (items.map some ++ [none])) (.splitArray :: items.map Ptr.object) =
      .ok (items.map Ptr.object ++ [.splitArray], []) := by
  rw [strfreesplitp, freeLoop_eq items foreign]
  rfl

/-! ### Sizes -/

/-- A copy with sizes that are no negative numbers, from inside the string into its block. -/
structure Copy.Inside (text : List UInt8) (copy : Copy) : Prop where
  size : 0 ≤ copy.size
  count : 0 ≤ copy.count
  fits : copy.count ≤ copy.size
  reads : copy.source + copy.count ≤ text.length

section Sizes

variable {text : List UInt8} {delim : UInt8} (tail : List UInt8)

theorem loopCopy_inside (short : text.length < 2 ^ 31 - 1) (p h : Nat) (inside : p ≤ text.length)
    (behind : h = 0 ∨ h < p) : (loopCopy p h).Inside text := by
  have size : toInt32 ((p : Int) - h - 1) = p - h - 1 := toInt32_of_range _ (by omega) (by omega)
  have allocated : toInt32 ((p : Int) - h - 1 + 1) = p - h := by
    rw [toInt32_of_range _ (by omega) (by omega)]
    omega
  unfold loopCopy
  rw [size]
  dsimp only
  rw [allocated]
  by_cases start : h = 0
  · rw [if_pos start]
    constructor <;> dsimp only <;> omega
  · rw [if_neg start]
    constructor <;> dsimp only <;> omega

theorem lastCopy_inside (short : text.length < 2 ^ 31 - 1) (h : Nat) (inside : h < text.length) :
    (lastCopy text.length h).Inside text := by
  have size : toInt32 ((text.length : Int) - h - 1) = text.length - h - 1 :=
    toInt32_of_range _ (by omega) (by omega)
  unfold lastCopy
  rw [size]
  constructor <;> dsimp only <;> omega

/-- The second loop is never behind its own start, so no size is negative. -/
theorem copiesFrom_inside (clean : 0 ∉ text) (nonempty : text ≠ [])
    (short : text.length < 2 ^ 31 - 1) (done rest : List UInt8) (whole : text = done ++ rest)
    (h : Nat) (behind : h = 0 ∨ h < done.length) :
    ∀ copy ∈ copiesFrom delim (rest ++ 0 :: tail) done.length h, copy.Inside text := by
  induction rest generalizing done h with
  | nil =>
    rw [List.append_nil] at whole
    subst whole
    rw [List.nil_append, copiesFrom, if_pos rfl, List.forall_mem_singleton]
    have positive := List.length_pos_iff.mpr nonempty
    exact lastCopy_inside short h (by omega)
  | cons byte rest inductionHypothesis =>
    have notNul : byte ≠ 0 := fun same => clean (by simp [whole, same])
    have next : text = (done ++ [byte]) ++ rest := by simp [whole]
    have nextLength : (done ++ [byte]).length = done.length + 1 := by simp
    have inside : done.length ≤ text.length := by simp [whole]
    rw [List.cons_append, copiesFrom, if_neg notNul, ← nextLength]
    by_cases found : byte = delim
    · rw [if_pos found, List.forall_mem_cons]
      exact ⟨loopCopy_inside short _ h inside behind,
        inductionHypothesis _ next done.length (Or.inr (by omega))⟩
    · rw [if_neg found]
      exact inductionHypothesis _ next h (behind.imp id fun earlier => by omega)

theorem copiesFrom_length (delim : UInt8) (clean : 0 ∉ text) (p h : Nat) :
    (copiesFrom delim (text ++ 0 :: tail) p h).length = 1 + text.count delim := by
  induction text generalizing p h with
  | nil => simp [copiesFrom]
  | cons byte rest inductionHypothesis =>
    rw [List.mem_cons, not_or] at clean
    rw [List.cons_append, copiesFrom, if_neg (Ne.symm clean.1), List.count_cons]
    by_cases found : byte = delim
    · rw [if_pos found, List.length_cons, inductionHypothesis clean.2,
        if_pos (by simpa using found)]
      omega
    · rw [if_neg found, inductionHypothesis clean.2, if_neg (by simpa using found), Nat.add_zero]

/-- A copy from inside the string is made, into a block of its own. -/
theorem Copy.Inside.run_eq {copy : Copy} (inside : copy.Inside text) (junk : Nat → UInt8)
    (object : Object) (call : Nat) :
    ∃ item, copy.run junk ⟨object, text ++ 0 :: tail⟩ call = .ok item ∧
      item.object = .splitItem call := by
  obtain ⟨size, sizeEq⟩ := Int.eq_ofNat_of_zero_le inside.size
  obtain ⟨count, countEq⟩ := Int.eq_ofNat_of_zero_le inside.count
  have fits := inside.fits
  have reads := inside.reads
  unfold Copy.run
  rw [sizeEq, countEq] at *
  rw [mallocInt_memcpy _ _ _ size count (by omega)]
  · exact ⟨_, rfl, rfl⟩
  · rw [Ptr.add_bytes, List.length_drop, List.length_append]
    omega

/-- The copies fill the cells one after another, each with a block of its own. -/
theorem copyCell_foldlM (junk : Nat → Nat → UInt8) (object : Object) (capacity : Int)
    (copies : List Copy) (inside : ∀ copy ∈ copies, copy.Inside text) (items : List (Ptr Object))
    (named : items.map Ptr.object = (List.range items.length).map Object.splitItem)
    (room : items.length + copies.length ≤ capacity) :
    ∃ all : List (Ptr Object),
      copies.foldlM (copyCell junk capacity ⟨object, text ++ 0 :: tail⟩) (items.map some) =
        .ok (all.map some) ∧
      all.map Ptr.object = (List.range all.length).map Object.splitItem ∧
      all.length = items.length + copies.length := by
  induction copies generalizing items with
  | nil => exact ⟨items, rfl, named, rfl⟩
  | cons copy rest inductionHypothesis =>
    obtain ⟨first, others⟩ := List.forall_mem_cons.mp inside
    rw [List.length_cons] at room
    obtain ⟨item, made, own⟩ := first.run_eq tail (junk items.length) object items.length
    obtain ⟨all, ran, allNamed, length⟩ := inductionHypothesis others (items ++ [item])
      (by
        rw [List.map_append, named, List.length_append, List.length_singleton, List.range_succ,
          List.map_append, List.map_singleton, List.map_singleton, own])
      (by
        rw [List.length_append, List.length_singleton]
        omega)
    refine ⟨all, ?_, allNamed, ?_⟩
    · rw [List.foldlM_cons, copyCell, List.length_map, made, ok_bind, pushCell,
        if_pos (by rw [List.length_map]; omega), ok_bind, ← ran, List.map_append]
      rfl
    · rw [length, List.length_append, List.length_singleton, List.length_cons]
      omega

end Sizes

/-! ### The three functions together -/

/-- `strsplit`, `commandNum` and `strfreesplitp` agree on a string: the copies are made from inside
the string into their blocks, there are as many items as `commandNum` says, `NULL` follows them
inside the array, and all that was allocated is freed, each block once. -/
def SplitAgrees (junk : Nat → Nat → UInt8) (object : Object) (text tail : List UInt8)
    (delim : UInt8) : Prop :=
  (∀ copy ∈ copiesFrom delim (text ++ 0 :: tail) 0 0, copy.Inside text) ∧
  ∃ capacity, ∃ items : List (Ptr Object),
    splitCapacity ⟨object, text ++ 0 :: tail⟩ delim = .ok capacity ∧
    items.length < capacity ∧
    strsplit junk ⟨object, text ++ 0 :: tail⟩ delim = .ok (some (items.map some ++ [none])) ∧
    commandNum ⟨object, text ++ 0 :: tail⟩ delim = .ok items.length ∧
    (items.map Ptr.object).Nodup ∧
    strfreesplitp (some (items.map some ++ [none])) (.splitArray :: items.map Ptr.object) =
      .ok (items.map Ptr.object ++ [.splitArray], [])

section Agrees

variable (junk : Nat → Nat → UInt8) (object : Object) (delim : UInt8) {text : List UInt8}
  (tail : List UInt8)

theorem splitCapacity_eq (clean : 0 ∉ text) (short : text.length < 2 ^ 31 - 1) :
    splitCapacity ⟨object, text ++ 0 :: tail⟩ delim =
      .ok (toInt32 ((text.count delim : Int) + 2)) := by
  have counted := countLoop_eq object delim tail clean 0 (by omega)
  rw [Nat.zero_add] at counted
  show countLoop object delim (text ++ 0 :: tail) ((0 : Nat) : Int) >>= _ = _
  rw [counted, ok_bind]

/-- There is room for the items and `NULL` unless their number is the greatest there is. -/
theorem capacity_iff (short : text.length < 2 ^ 31 - 1) :
    ((1 + text.count delim : Nat) : Int) < toInt32 ((text.count delim : Int) + 2) ↔
      text ≠ List.replicate (2 ^ 31 - 2) delim := by
  have count : text.count delim ≤ text.length := List.count_le_length
  by_cases fits : text.count delim < 2 ^ 31 - 2
  · rw [toInt32_of_range _ (by omega) (by omega)]
    refine ⟨fun _ same => ?_, fun _ => by omega⟩
    rw [same, List.count_replicate_self] at fits
    exact Nat.lt_irrefl _ fits
  · have all : text.count delim = 2 ^ 31 - 2 := by omega
    have onlyDelims : text = List.replicate (2 ^ 31 - 2) delim := by
      refine List.eq_replicate_iff.mpr ⟨by omega, fun byte member => ?_⟩
      exact (List.count_eq_length.mp (by omega) byte member).symm
    have overflow : toInt32 ((text.count delim : Int) + 2) = -2 ^ 31 := by
      rw [all]
      decide
    rw [overflow]
    exact ⟨fun less => absurd less (by omega), fun differs => absurd onlyDelims differs⟩

/-- All the memory of a split is in order when its array is. -/
theorem splitAgrees_of_capacity (clean : 0 ∉ text) (nonempty : text ≠ [])
    (short : text.length < 2 ^ 31 - 1)
    (room : ((1 + text.count delim : Nat) : Int) < toInt32 ((text.count delim : Int) + 2)) :
    SplitAgrees junk object text tail delim := by
  have inside : ∀ copy ∈ copiesFrom delim (text ++ 0 :: tail) 0 0, copy.Inside text :=
    copiesFrom_inside tail clean nonempty short [] text rfl 0 (Or.inl rfl)
  have terminated : 0 ∈ text ++ 0 :: tail := by simp
  have capacity := splitCapacity_eq object delim tail clean short
  have copies := copiesFrom_length tail delim clean 0 0
  obtain ⟨items, ran, named, length⟩ := copyCell_foldlM tail junk object
    (toInt32 ((text.count delim : Int) + 2)) _ inside [] rfl
    (by
      rw [copies, List.length_nil]
      omega)
  rw [copies, List.length_nil, Nat.zero_add] at length
  have foreign : .splitArray ∉ items.map Ptr.object := by
    rw [named]
    simp
  refine ⟨inside, _, items, capacity, by rw [length]; exact room, ?_, ?_, ?_,
    strfreesplitp_eq items foreign⟩
  · rw [strsplit_eq_copies junk _ delim terminated, capacity, ok_bind, if_neg (by omega)]
    rw [List.map_nil] at ran
    rw [ran, ok_bind, pushCell, if_pos (by rw [List.length_map, length]; omega), ok_bind]
  · rw [commandNum_append_nul object text tail delim clean, length]
  · rw [named]
    exact List.nodup_range.map fun _ _ => Object.splitItem.inj

theorem SplitAgrees.capacity (agrees : SplitAgrees junk object text tail delim) (clean : 0 ∉ text)
    (short : text.length < 2 ^ 31 - 1) :
    ((1 + text.count delim : Nat) : Int) < toInt32 ((text.count delim : Int) + 2) := by
  obtain ⟨-, capacity, items, asked, room, -, counted, -⟩ := agrees
  rw [splitCapacity_eq object delim tail clean short, Except.ok.injEq] at asked
  rw [commandNum_append_nul object text tail delim clean, Except.ok.injEq] at counted
  rw [counted, asked]
  exact room

/-- The functions agree on every string an `int` can measure, but on the longest string of nothing
but delimiters.

That string has `2 ^ 31 - 2` delimiters, and the room for its items and the `NULL` behind them is
one more than an `int` can hold. -/
theorem split_agrees_iff (clean : 0 ∉ text) (nonempty : text ≠ [])
    (short : text.length < 2 ^ 31 - 1) :
    SplitAgrees junk object text tail delim ↔ text ≠ List.replicate (2 ^ 31 - 2) delim := by
  rw [← capacity_iff delim short]
  exact ⟨fun agrees => agrees.capacity junk object delim tail clean short,
    splitAgrees_of_capacity junk object delim tail clean nonempty short⟩

end Agrees

theorem split_agrees_iff_blank :
    SplitAgrees (fun _ _ => 0) .literal (text " a") [] splitstr :=
  (split_agrees_iff (fun _ _ => 0) .literal splitstr [] (by decide) (by decide) (by decide)).mpr
    fun same => absurd (congrArg List.length same) (by rw [List.length_replicate]; decide)

/-- The longest string of blanks. -/
theorem split_only_blanks :
    ¬ SplitAgrees (fun _ _ => 0) .literal (List.replicate (2 ^ 31 - 2) splitstr) [] splitstr := by
  intro agrees
  have short : (List.replicate (2 ^ 31 - 2) splitstr).length < 2 ^ 31 - 1 := by
    rw [List.length_replicate]
    decide
  have clean : 0 ∉ List.replicate (2 ^ 31 - 2) splitstr := fun nul =>
    absurd (List.eq_of_mem_replicate nul) (by decide)
  have room := agrees.capacity _ _ _ _ clean short
  exact (capacity_iff splitstr short).mp room rfl

end Netmt
