/-
This file counts the occurrences of a word in a stream that arrives in pieces.

A reader that looks only at the start of each piece finds at most as many
occurrences as the whole stream has, and finds all of them exactly when every
occurrence stands at the start of a piece and wholly inside it.
-/
import Mathlib.Data.List.Infix
import Mathlib.Data.List.Range

namespace Cut

variable {Symbol : Type}

/-- Where `word` begins in `piece`, with `rest` behind it, it begins with `piece` and ends in
it. -/
def Aligned (word piece rest : List Symbol) : Prop :=
  ∀ offset < piece.length, word <+: (piece ++ rest).drop offset → offset = 0 ∧ word <+: piece

/-- Each piece is aligned in front of the pieces behind it. -/
def AllAligned (word : List Symbol) (pieces : List (List Symbol)) : Prop :=
  ∀ before piece after, pieces = before ++ piece :: after → Aligned word piece after.flatten

theorem allAligned_cons (word piece : List Symbol) (after : List (List Symbol)) :
    AllAligned word (piece :: after) ↔
      Aligned word piece after.flatten ∧ AllAligned word after := by
  constructor
  · intro aligned
    refine ⟨aligned [] piece after rfl, ?_⟩
    intro before other rest split
    exact aligned (piece :: before) other rest (by rw [split, List.cons_append])
  · rintro ⟨first, others⟩ before other rest split
    cases before with
    | nil =>
      obtain ⟨rfl, rfl⟩ := List.cons.inj split
      exact first
    | cons head before =>
      exact others before other rest (List.cons.inj split).2

variable [DecidableEq Symbol]

/-- The number of offsets at which `word` stands in `stream`. -/
def occurrences (word stream : List Symbol) : Nat :=
  (List.range stream.length).countP fun offset => decide (word <+: stream.drop offset)

/-- The occurrences that begin in `piece`. -/
def begun (word piece rest : List Symbol) : Nat :=
  (List.range piece.length).countP fun offset => decide (word <+: (piece ++ rest).drop offset)

theorem occurrences_append (word piece rest : List Symbol) :
    occurrences word (piece ++ rest) = begun word piece rest + occurrences word rest := by
  unfold occurrences begun
  rw [List.length_append, List.range_add, List.countP_append, List.countP_map]
  congr 2
  funext offset
  show decide (word <+: (piece ++ rest).drop (piece.length + offset)) = _
  rw [List.drop_append, List.drop_eq_nil_of_le (by omega), List.nil_append,
    Nat.add_sub_cancel_left]

/-- A look at the start of a piece finds at most the occurrences that begin in it, and all of
them exactly when the piece is aligned. -/
theorem start_le_begun (word piece rest : List Symbol) (nonempty : piece ≠ []) :
    (if word <+: piece then 1 else 0) ≤ begun word piece rest ∧
      ((if word <+: piece then 1 else 0) = begun word piece rest ↔ Aligned word piece rest) := by
  obtain ⟨first, others, rfl⟩ := List.exists_cons_of_ne_nil nonempty
  have cut : begun word (first :: others) rest =
      (List.range others.length).countP
        (fun offset => decide (word <+: (first :: others ++ rest).drop (offset + 1))) +
      if word <+: first :: others ++ rest then 1 else 0 := by
    unfold begun
    rw [List.length_cons, List.range_succ_eq_map, List.countP_cons, List.countP_map]
    simp [Function.comp_def]
  have longer : word <+: first :: others → word <+: first :: others ++ rest :=
    fun found => found.trans (List.prefix_append _ _)
  have aligned : Aligned word (first :: others) rest ↔
      (List.range others.length).countP
        (fun offset => decide (word <+: (first :: others ++ rest).drop (offset + 1))) = 0 ∧
      (word <+: first :: others ++ rest → word <+: first :: others) := by
    rw [List.countP_eq_zero]
    constructor
    · intro aligned
      refine ⟨fun offset inside found => ?_, fun found => (aligned 0 (by simp) found).2⟩
      have begins := aligned (offset + 1) (by simpa using List.mem_range.mp inside)
        (of_decide_eq_true found)
      exact absurd begins.1 (Nat.succ_ne_zero offset)
    · rintro ⟨none, start⟩ offset inside found
      cases offset with
      | zero => exact ⟨rfl, start found⟩
      | succ offset =>
        exact absurd (decide_eq_true found)
          (none offset (List.mem_range.mpr (by simpa using inside)))
  rw [cut, aligned]
  generalize (List.range others.length).countP _ = later
  by_cases found : word <+: first :: others
  · rw [if_pos found, if_pos (longer found)]
    exact ⟨by omega, fun same => ⟨by omega, fun _ => found⟩, fun none => by omega⟩
  · rw [if_neg found]
    by_cases across : word <+: first :: others ++ rest
    · rw [if_pos across]
      exact ⟨by omega, fun same => by omega, fun none => absurd (none.2 across) found⟩
    · rw [if_neg across]
      exact ⟨by omega, fun same => ⟨by omega, fun starts => absurd starts across⟩,
        fun none => by omega⟩

/-- A reader that looks at the start of every piece finds all occurrences of the stream exactly
when every piece is aligned. -/
theorem starts_eq_occurrences_iff (word : List Symbol) (pieces : List (List Symbol))
    (nonempty : ∀ piece ∈ pieces, piece ≠ []) :
    pieces.countP (fun piece => decide (word <+: piece)) ≤ occurrences word pieces.flatten ∧
      (pieces.countP (fun piece => decide (word <+: piece)) =
        occurrences word pieces.flatten ↔ AllAligned word pieces) := by
  induction pieces with
  | nil =>
    refine ⟨by simp, ?_⟩
    have none : AllAligned word [] := by
      intro before piece after split
      simp at split
    simp [none, occurrences]
  | cons piece after inductionHypothesis =>
    obtain ⟨few, exact⟩ := inductionHypothesis
      (fun other member => nonempty other (List.mem_cons_of_mem _ member))
    obtain ⟨fewHere, exactHere⟩ := start_le_begun word piece after.flatten
      (nonempty piece List.mem_cons_self)
    rw [allAligned_cons, List.flatten_cons, occurrences_append, List.countP_cons, ← exact,
      ← exactHere]
    simp only [decide_eq_true_eq]
    omega

end Cut
