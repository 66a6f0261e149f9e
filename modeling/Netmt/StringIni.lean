/-
This file models `string_ini.h`: `strsplit`, which cuts a string at a delimiter
into freshly allocated items, and `commandNum`, which counts the pieces.

`strsplit` gives every item exactly the bytes it copies, so none of them has room
for a terminator that it writes itself; and its two lengths, `size + 1` bytes for
the first item and `size` for the others, are each off by one in their own way.
The items are stated here byte for byte, and the first item is shown never to be
a C string.
-/
import Mathlib.Data.List.Basic
import Netmt.Server

namespace Netmt

open CMem

/-- `splitstr`. -/
def splitstr : UInt8 := 32

/-! ### The functions -/

/-- The cells of the array `strsplit` returns: pointers and a final `NULL`. -/
abbrev Cells := List (Option (Ptr Object))

/-- `*index = value; index++`, where `index` is behind the cells already written. -/
def pushCell (capacity : Int) (cells : Cells) (value : Option (Ptr Object)) : Exec Object Cells :=
  if cells.length < capacity then
    .ok (cells ++ [value])
  else
    .error (.outOfBounds .splitArray)

/-- The first loop of `strsplit`: `size` counts the delimiters. -/
def countLoop (object : Object) (delim : UInt8) : List UInt8 → Int → Exec Object Int
  | [], _ => .error (.outOfBounds object)
  | byte :: rest, size =>
    if byte = 0 then .ok size
    else countLoop object delim rest (if byte = delim then toInt32 (size + 1) else size)

/-- The item between `h` and `p` that the second loop of `strsplit` makes: all of `str` up to `p`
while `h` is at its start, and what is behind the delimiter at `h` later. -/
def loopItem (junk : Nat → UInt8) (str : Ptr Object) (p h call : Nat) :
    Exec Object (Ptr Object) := do
  let size := toInt32 (p - h - 1)
  let item ← mallocInt (.splitItem call) junk (toInt32 (size + 1))
  if h = 0 then memcpy item (str.add h) (toInt32 (size + 1))
  else memcpy item (str.add (h + 1)) size

/-- The item behind the last delimiter. -/
def lastItem (junk : Nat → UInt8) (str : Ptr Object) (p h call : Nat) :
    Exec Object (Ptr Object) := do
  let size := toInt32 (p - h - 1)
  let item ← mallocInt (.splitItem call) junk size
  memcpy item (str.add (h + 1)) size

/-- The second loop of `strsplit`, where `rest` is what `p` points to; `p` and `h` are offsets
into `str`. -/
def splitLoop (junk : Nat → Nat → UInt8) (capacity : Int) (str : Ptr Object) (delim : UInt8) :
    List UInt8 → Nat → Nat → Cells → Exec Object (Nat × Nat × Cells)
  | [], _, _, _ => .error (.outOfBounds str.object)
  | byte :: rest, p, h, cells =>
    if byte = 0 then .ok (p, h, cells)
    else if byte = delim then do
      let item ← loopItem (junk cells.length) str p h cells.length
      let cells ← pushCell capacity cells (some item)
      splitLoop junk capacity str delim rest (p + 1) p cells
    else splitLoop junk capacity str delim rest (p + 1) h cells

/-- `strsplit`. `junk` is what the allocated blocks hold; the result is `NULL` when the array
cannot be allocated. -/
def strsplit (junk : Nat → Nat → UInt8) (str : Ptr Object) (delim : UInt8) :
    Exec Object (Option Cells) := do
  let size ← countLoop str.object delim str.bytes 0
  let capacity := toInt32 (size + 2)
  if capacity < 0 then
    .ok none
  else do
    let (p, h, cells) ← splitLoop junk capacity str delim str.bytes 0 0 []
    let item ← lastItem (junk cells.length) str p h cells.length
    let cells ← pushCell capacity cells (some item)
    let cells ← pushCell capacity cells none
    .ok (some cells)

/-- `commandNum`. -/
def commandNum (str : Ptr Object) (delim : UInt8) : Exec Object Nat := do
  let length ← strlen str
  (List.range length).foldlM
    (fun i j => do
      let byte ← load str j
      .ok (if byte = delim then i + 1 else i))
    1

theorem commandNum_append_nul (object : Object) (text tail : List UInt8) (delim : UInt8)
    (clean : 0 ∉ text) :
    commandNum ⟨object, text ++ 0 :: tail⟩ delim = .ok (1 + text.count delim) := by
  have loop (count : Nat) (short : count ≤ text.length) :
      (List.range count).foldlM
        (fun i j => do
          let byte ← load ⟨object, text ++ 0 :: tail⟩ j
          .ok (if byte = delim then i + 1 else i)) 1 =
        (.ok (1 + (text.take count).count delim) : Exec Object Nat) := by
    induction count with
    | zero => rfl
    | succ count inductionHypothesis =>
      have inside : count < text.length := by omega
      rw [List.range_succ, List.foldlM_append, inductionHypothesis (by omega), ok_bind,
        List.foldlM_cons, load_of_lt _ _ (by simp; omega), ok_bind, ok_bind, List.foldlM_nil,
        List.getElem_append_left inside, List.take_succ_eq_append_getElem inside,
        List.count_append, List.count_singleton]
      by_cases same : text[count] = delim
      · simp [same, Nat.add_assoc]
      · simp [same]
  rw [commandNum, strlen_append_nul object text tail clean, ok_bind, loop text.length (by omega),
    List.take_length]

theorem commandNum_unterminated (object : Object) (bytes : List UInt8) (delim : UInt8)
    (clean : 0 ∉ bytes) :
    commandNum ⟨object, bytes⟩ delim = .error (.outOfBounds object) := by
  rw [commandNum, strlen_unterminated object bytes clean, error_bind]

/-! ### The first item -/

/-- What a copy of at most the bytes of a NUL-free stretch holds has no NUL. -/
theorem memcpy_clean (object : Object) (junk : Nat → UInt8) (source : Ptr Object) (size : Int)
    (text tail : List UInt8) (clean : 0 ∉ text) (bytes : source.bytes = text ++ tail)
    (short : size ≤ text.length) (filled : Ptr Object)
    (ran : (mallocInt object junk size >>= fun item => memcpy item source size) = .ok filled) :
    0 ∉ filled.bytes := by
  obtain ⟨item, allocated, copied⟩ := (bind_eq_ok_iff _ _ _).mp ran
  unfold mallocInt at allocated
  split at allocated
  · cases allocated
  · cases allocated
    unfold memcpy at copied
    split at copied
    · cases copied
    · split at copied
      · cases copied
      · cases copied
        have filledUp : (malloc object junk size.toNat).bytes.drop size.toNat = [] :=
          List.drop_eq_nil_of_le (by rw [malloc_length])
        rw [filledUp, List.append_nil, bytes, List.take_append_of_le_length (by omega)]
        exact fun nul => clean (List.mem_of_mem_take nul)

theorem toInt32_pred_succ_le (count : Nat) : toInt32 (toInt32 ((count : Int) - 1) + 1) ≤ count := by
  unfold toInt32
  rw [Int.bmod_eq_emod, Int.bmod_eq_emod]
  split <;> split <;> omega

section First

variable {junk : Nat → Nat → UInt8} {capacity : Int} {object : Object} {delim : UInt8}
  {text tail : List UInt8}

theorem loopItem_start_clean (clean : 0 ∉ text) (content : Nat → UInt8) (p call : Nat)
    (inside : p ≤ text.length) (item : Ptr Object)
    (made : loopItem content ⟨object, text ++ 0 :: tail⟩ p 0 call = .ok item) :
    0 ∉ item.bytes := by
  refine memcpy_clean _ _ _ _ text (0 :: tail) clean rfl ?_ item made
  have bound := toInt32_pred_succ_le p
  have start : (p : Int) - (0 : Nat) - 1 = p - 1 := by omega
  rw [start]
  omega

theorem lastItem_start_clean (clean : 0 ∉ text) (content : Nat → UInt8) (call : Nat)
    (item : Ptr Object)
    (made : lastItem content ⟨object, text ++ 0 :: tail⟩ text.length 0 call = .ok item) :
    0 ∉ item.bytes := by
  cases text with
  | nil => cases made
  | cons byte rest =>
    refine memcpy_clean _ _ _ _ rest (0 :: tail) (fun nul => clean (List.mem_cons_of_mem _ nul)) rfl
      ?_ item made
    have start : ((byte :: rest).length : Int) - (0 : Nat) - 1 = rest.length := by
      rw [List.length_cons]
      omega
    rw [start]
    exact toInt32_le _ (by omega)

/-- What the second loop keeps: the first item has no NUL, and before there is one `h` is still
at the start. -/
def FirstClean (h : Nat) (cells : Cells) : Prop :=
  match cells with
  | [] => h = 0
  | some item :: _ => 0 ∉ item.bytes
  | none :: _ => False

theorem FirstClean.append {h other : Nat} {cells : Cells} (kept : FirstClean h cells)
    (notEmpty : cells ≠ []) (cell : Option (Ptr Object)) :
    FirstClean other (cells ++ [cell]) := by
  cases cells with
  | nil => exact absurd rfl notEmpty
  | cons first rest =>
    cases first with
    | none => exact kept
    | some item => exact kept

theorem pushCell_eq_ok {cells after : Cells} {value : Option (Ptr Object)}
    (pushed : pushCell capacity cells value = .ok after) : after = cells ++ [value] := by
  unfold pushCell at pushed
  split at pushed
  · cases pushed
    rfl
  · cases pushed

theorem splitLoop_firstClean (clean : 0 ∉ text) (done rest : List UInt8)
    (whole : text = done ++ rest) (h : Nat) (cells : Cells) (kept : FirstClean h cells)
    (p' h' : Nat) (cells' : Cells)
    (ran : splitLoop junk capacity ⟨object, text ++ 0 :: tail⟩ delim (rest ++ 0 :: tail)
      done.length h cells = .ok (p', h', cells')) :
    p' = text.length ∧ FirstClean h' cells' := by
  induction rest generalizing done h cells with
  | nil =>
    rw [List.nil_append, splitLoop, if_pos rfl] at ran
    cases ran
    exact ⟨by simp [whole], kept⟩
  | cons byte rest inductionHypothesis =>
    have notNul : byte ≠ 0 := fun same => clean (by simp [whole, same])
    have next : text = (done ++ [byte]) ++ rest := by simp [whole]
    have nextLength : (done ++ [byte]).length = done.length + 1 := by simp
    rw [List.cons_append, splitLoop, if_neg notNul] at ran
    by_cases found : byte = delim
    · rw [if_pos found] at ran
      obtain ⟨item, made, ran⟩ := (bind_eq_ok_iff _ _ _).mp ran
      obtain ⟨pushed, stored, ran⟩ := (bind_eq_ok_iff _ _ _).mp ran
      rw [pushCell_eq_ok stored, ← nextLength] at ran
      refine inductionHypothesis _ next _ _ ?_ ran
      by_cases first : cells = []
      · subst first
        rw [FirstClean] at kept
        subst kept
        exact loopItem_start_clean clean _ _ _ (by simp [whole]) item made
      · exact kept.append first _
    · rw [if_neg found, ← nextLength] at ran
      exact inductionHypothesis _ next _ _ kept ran

/-- The first item of any result is not terminated inside its block. -/
theorem strsplit_first (clean : 0 ∉ text) (cells : Cells)
    (ran : strsplit junk ⟨object, text ++ 0 :: tail⟩ delim = .ok (some cells)) :
    ∃ item others, cells = some item :: others ∧ 0 ∉ item.bytes := by
  rw [strsplit] at ran
  obtain ⟨size, -, ran⟩ := (bind_eq_ok_iff _ _ _).mp ran
  dsimp only at ran
  split at ran
  · cases ran
  · obtain ⟨⟨p, h, found⟩, looped, ran⟩ := (bind_eq_ok_iff _ _ _).mp ran
    obtain ⟨item, made, ran⟩ := (bind_eq_ok_iff _ _ _).mp ran
    obtain ⟨last, lastStored, ran⟩ := (bind_eq_ok_iff _ _ _).mp ran
    obtain ⟨all, allStored, ran⟩ := (bind_eq_ok_iff _ _ _).mp ran
    cases ran
    obtain ⟨ended, kept⟩ := splitLoop_firstClean clean [] text rfl 0 [] rfl p h found looped
    rw [pushCell_eq_ok allStored, pushCell_eq_ok lastStored]
    cases found with
    | nil =>
      rw [FirstClean] at kept
      subst kept ended
      exact ⟨item, [none], rfl, lastItem_start_clean clean _ _ item made⟩
    | cons first others =>
      cases first with
      | none => exact absurd kept id
      | some first => exact ⟨first, others ++ [some item] ++ [none], by simp, kept⟩

end First

/-! ### Splitting into fields -/

/-- The result is what a splitting into fields should be: each entry, read as a C string, is the
field, and `NULL` follows. -/
def SplitsFields (text : List UInt8) (delim : UInt8) (result : Exec Object (Option Cells)) : Prop :=
  ∃ items : List (Ptr Object), result = .ok (some (items.map some ++ [none])) ∧
    items.map (fun item => cString item.bytes) = (text.splitOn delim).map some

/-- No string is ever split into its fields: the first entry is no C string.

`strsplit` writes no terminator behind an item. The block of the first one is filled to its end
with bytes of the string, and none of them is a NUL, whatever the delimiter is. -/
theorem strsplit_not_splitsFields (junk : Nat → Nat → UInt8) (object : Object)
    (text tail : List UInt8) (delim : UInt8) (clean : 0 ∉ text) :
    ¬ SplitsFields text delim (strsplit junk ⟨object, text ++ 0 :: tail⟩ delim) := by
  rintro ⟨items, ran, fields⟩
  obtain ⟨item, others, first, unterminated⟩ := strsplit_first clean _ ran
  cases items with
  | nil => cases first
  | cons head rest =>
    rw [List.map_cons, List.cons_append, List.cons.injEq, Option.some_inj] at first
    rw [List.map_cons, first.1, (cString_eq_none_iff item.bytes).mpr unterminated] at fields
    have entry : (none : Option (List UInt8)) ∈ (text.splitOn delim).map some :=
      fields ▸ List.mem_cons_self
    simp at entry

theorem strsplit_not_splitsFields_one_field :
    ¬ SplitsFields (text "list") splitstr
      (strsplit (fun _ _ => 0) (literal "list") splitstr) :=
  strsplit_not_splitsFields (fun _ _ => 0) .literal (text "list") [] splitstr (by decide)

/-- The string of the repository's own test: the second and third field are terminated by what
happens to be in memory, the first and the last are not. -/
theorem strsplit_test_string :
    ¬ SplitsFields (text "aaa   fe") splitstr
      (strsplit (fun _ _ => 0) (literal "aaa   fe") splitstr) := by
  rintro ⟨items, ran, fields⟩
  have made : strsplit (fun _ _ => 0) (literal "aaa   fe") splitstr =
      .ok (some ([⟨.splitItem 0, text "aaa"⟩, ⟨.splitItem 1, [0]⟩, ⟨.splitItem 2, [0]⟩,
        ⟨.splitItem 3, text "fe"⟩].map some ++ [none])) := rfl
  rw [made, Except.ok.injEq, Option.some_inj, List.append_cancel_right_eq,
    List.map_inj_right (fun _ _ => Option.some_inj.mp)] at ran
  subst ran
  revert fields
  decide

/-! ### The items, byte for byte -/

/-- What `loopItem` copies; the item of a later field has one byte more than it is given. -/
def loopBytes (junk : Nat → UInt8) (text : List UInt8) (p h : Nat) : List UInt8 :=
  if h = 0 then text.take p
  else (text.drop (h + 1)).take (p - h - 1) ++ [junk (p - h - 1)]

/-- The items the second loop makes from `p` on, and the offset of the last delimiter. -/
def loopCells (junk : Nat → Nat → UInt8) (text : List UInt8) (delim : UInt8) :
    List UInt8 → Nat → Nat → Cells → Cells × Nat
  | [], _, h, cells => (cells, h)
  | byte :: rest, p, h, cells =>
    if byte = delim then
      loopCells junk text delim rest (p + 1) p
        (cells ++ [some ⟨.splitItem cells.length, loopBytes (junk cells.length) text p h⟩])
    else
      loopCells junk text delim rest (p + 1) h cells

/-- The array `strsplit` returns for a string of ordinary length. -/
def splitCells (junk : Nat → Nat → UInt8) (text : List UInt8) (delim : UInt8) : Cells :=
  let (cells, h) := loopCells junk text delim text 0 0 []
  cells ++ [some ⟨.splitItem cells.length, text.drop (h + 1)⟩] ++ [none]

section Exact

variable (junk : Nat → Nat → UInt8) (object : Object) (delim : UInt8) {text : List UInt8}
  (tail : List UInt8)

theorem countLoop_eq (clean : 0 ∉ text) (start : Nat) (small : start + text.length < 2 ^ 31) :
    countLoop object delim (text ++ 0 :: tail) start =
      .ok ((start + text.count delim : Nat) : Int) := by
  induction text generalizing start with
  | nil => simp [countLoop]
  | cons byte rest inductionHypothesis =>
    rw [List.mem_cons, not_or] at clean
    rw [List.length_cons] at small
    rw [List.cons_append, countLoop, if_neg (Ne.symm clean.1)]
    by_cases found : byte = delim
    · have next := inductionHypothesis clean.2 (start + 1) (by omega)
      rw [if_pos found, toInt32_of_range _ (by omega) (by omega),
        show (start : Int) + 1 = ((start + 1 : Nat) : Int) by omega, next]
      simp [found, Nat.add_comm, Nat.add_left_comm]
    · rw [if_neg found, inductionHypothesis clean.2 start (by omega)]
      simp [found]

theorem loopItem_eq (short : text.length < 2 ^ 31 - 2) (content : Nat → UInt8) (p h call : Nat)
    (inside : p ≤ text.length) (behind : h = 0 ∨ h < p) :
    loopItem content ⟨object, text ++ 0 :: tail⟩ p h call =
      .ok ⟨.splitItem call, loopBytes content text p h⟩ := by
  unfold loopItem loopBytes
  rw [toInt32_of_range ((p : Int) - h - 1) (by omega) (by omega)]
  dsimp only
  rw [toInt32_of_range ((p : Int) - h - 1 + 1) (by omega) (by omega)]
  by_cases start : h = 0
  · subst start
    have size : (p : Int) - (0 : Nat) - 1 + 1 = p := by omega
    simp only [size, if_true]
    rw [mallocInt_memcpy _ _ _ p p (Nat.le_refl p) (by simp; omega)]
    simp [List.take_append_of_le_length inside]
  · have after : h < p := behind.resolve_left start
    have size : (p : Int) - h - 1 + 1 = ((p - h - 1 + 1 : Nat) : Int) := by omega
    have copied : (p : Int) - h - 1 = ((p - h - 1 : Nat) : Int) := by omega
    simp only [if_neg start]
    rw [size, copied,
      mallocInt_memcpy _ _ _ (p - h - 1 + 1) (p - h - 1) (by omega) (by simp; omega),
      Ptr.add_bytes, List.drop_append_of_le_length (by omega),
      List.take_append_of_le_length (by rw [List.length_drop]; omega), List.range_succ,
      List.map_append, List.drop_left' (by simp)]
    rfl

theorem lastItem_eq (short : text.length < 2 ^ 31 - 2) (content : Nat → UInt8) (h call : Nat)
    (inside : h < text.length) :
    lastItem content ⟨object, text ++ 0 :: tail⟩ text.length h call =
      .ok ⟨.splitItem call, text.drop (h + 1)⟩ := by
  have size : (text.length : Int) - h - 1 = ((text.length - h - 1 : Nat) : Int) := by omega
  have filledUp : ((List.range (text.length - h - 1)).map content).drop (text.length - h - 1) =
      [] := List.drop_eq_nil_of_le (by simp)
  unfold lastItem
  rw [size, toInt32_of_range _ (by omega) (by omega)]
  dsimp only
  rw [mallocInt_memcpy _ _ _ _ _ (Nat.le_refl _) (by simp; omega), Ptr.add_bytes,
    List.drop_append_of_le_length (by omega), List.take_left' (by rw [List.length_drop]; omega),
    filledUp, List.append_nil]

theorem splitLoop_eq (clean : 0 ∉ text) (short : text.length < 2 ^ 31 - 2)
    (done rest : List UInt8) (whole : text = done ++ rest) (h : Nat) (cells : Cells)
    (behind : h = 0 ∨ h < done.length) (capacity : Int)
    (room : cells.length + rest.count delim < capacity) :
    ∃ final, splitLoop junk capacity ⟨object, text ++ 0 :: tail⟩ delim (rest ++ 0 :: tail)
        done.length h cells =
      .ok (text.length, final.2, final.1) ∧
      final = loopCells junk text delim rest done.length h cells ∧
      (final.2 = 0 ∨ final.2 < text.length) ∧
      final.1.length = cells.length + rest.count delim := by
  induction rest generalizing done h cells with
  | nil =>
    refine ⟨(cells, h), ?_, rfl, ?_, by simp⟩
    · rw [List.nil_append, splitLoop, if_pos rfl]
      simp [whole]
    · simpa [whole] using behind
  | cons byte rest inductionHypothesis =>
    have notNul : byte ≠ 0 := fun same => clean (by simp [whole, same])
    have next : text = (done ++ [byte]) ++ rest := by simp [whole]
    have nextLength : (done ++ [byte]).length = done.length + 1 := by simp
    rw [List.cons_append, splitLoop, if_neg notNul, loopCells]
    by_cases found : byte = delim
    · rw [List.count_cons, if_pos (by simpa using found)] at room
      have inside : done.length ≤ text.length := by simp [whole]
      rw [if_pos found, if_pos found, loopItem_eq object tail short _ _ _ _ inside behind, ok_bind,
        pushCell,
        if_pos (by omega), ok_bind, ← nextLength]
      obtain ⟨final, ran, same, last, length⟩ := inductionHypothesis _ next done.length
        (cells ++ [some ⟨.splitItem cells.length,
          loopBytes (junk cells.length) text done.length h⟩])
        (Or.inr (by omega)) (by simp; omega)
      refine ⟨final, ran, same, last, ?_⟩
      rw [length, List.count_cons, if_pos (by simpa using found)]
      simp
      omega
    · rw [List.count_cons, if_neg (by simpa using found)] at room
      rw [if_neg found, if_neg found, ← nextLength]
      obtain ⟨final, ran, same, last, length⟩ := inductionHypothesis _ next h cells
        (behind.imp id fun earlier => by omega) (by omega)
      refine ⟨final, ran, same, last, ?_⟩
      rw [length, List.count_cons, if_neg (by simpa using found)]
      omega

/-- `strsplit` of a string of ordinary length that is not empty. -/
theorem strsplit_eq (clean : 0 ∉ text) (notEmpty : text ≠ []) (short : text.length < 2 ^ 31 - 2) :
    strsplit junk ⟨object, text ++ 0 :: tail⟩ delim = .ok (some (splitCells junk text delim)) := by
  have counted := countLoop_eq object delim tail clean 0 (by omega)
  have count : text.count delim ≤ text.length := List.count_le_length
  obtain ⟨final, ran, same, last, length⟩ := splitLoop_eq junk object delim tail clean short []
    text rfl 0 [] (Or.inl rfl) (text.count delim + 2)
    (by rw [List.length_nil]; omega)
  rw [List.length_nil] at same
  have inside : final.2 < text.length :=
    last.elim (fun start => start ▸ List.length_pos_iff.mpr notEmpty) id
  have capacity : toInt32 (((0 + text.count delim : Nat) : Int) + 2) = text.count delim + 2 := by
    rw [toInt32_of_range _ (by omega) (by omega)]
    omega
  rw [List.length_nil, Nat.zero_add] at length
  rw [strsplit]
  show countLoop object delim (text ++ 0 :: tail) ((0 : Nat) : Int) >>= _ = _
  rw [counted, ok_bind]
  dsimp only
  rw [capacity, if_neg (by omega)]
  show splitLoop junk _ _ delim (text ++ 0 :: tail) ([] : List UInt8).length 0 [] >>= _ = _
  rw [ran, ok_bind]
  dsimp only
  rw [lastItem_eq object tail short _ _ _ inside, ok_bind, pushCell, if_pos (by omega), ok_bind,
    pushCell, if_pos (by simp; omega), ok_bind, splitCells, ← same]

theorem loopCells_of_notMem (rest : List UInt8) (p h : Nat) (cells : Cells)
    (absent : delim ∉ rest) : loopCells junk text delim rest p h cells = (cells, h) := by
  induction rest generalizing p with
  | nil => rfl
  | cons byte rest inductionHypothesis =>
    rw [List.mem_cons, not_or] at absent
    rw [loopCells, if_neg (Ne.symm absent.1), inductionHypothesis (p + 1) absent.2]

theorem loopCells_append (front rest : List UInt8) (p h : Nat) (cells : Cells)
    (absent : delim ∉ front) :
    loopCells junk text delim (front ++ rest) p h cells =
      loopCells junk text delim rest (p + front.length) h cells := by
  induction front generalizing p with
  | nil => rfl
  | cons byte front inductionHypothesis =>
    rw [List.mem_cons, not_or] at absent
    rw [List.cons_append, loopCells, if_neg (Ne.symm absent.1),
      inductionHypothesis (p + 1) absent.2,
      List.length_cons, Nat.add_assoc, Nat.add_comm 1]

/-- The two items of a string with one delimiter: what is before it and what is behind it. -/
theorem splitCells_two (front back : List UInt8) (absentFront : delim ∉ front)
    (absentBack : delim ∉ back) :
    splitCells junk (front ++ delim :: back) delim =
      [some ⟨.splitItem 0, front⟩, some ⟨.splitItem 1, back⟩, none] := by
  rw [splitCells, loopCells_append junk delim front (delim :: back) 0 0 [] absentFront, loopCells,
    if_pos rfl, loopCells_of_notMem junk delim back _ _ _ absentBack]
  simp [loopBytes]

end Exact

end Netmt
