/-
This file develops line ends in streams of symbols. A line end is CR LF, a lone
LF or a lone CR, and normalising a stream turns each of them into CR LF.

Whether an LF is a line end of its own or the rest of one depends on the symbol
before it, so normalising carries one bit of state, and with it a stream can be
normalised in pieces. A converter without state sees each piece for itself. If it
only ever completes line ends, its output is the normalised stream exactly when
it leaves no lone CR or LF in any piece and no line end is broken between two
pieces.
-/
import Mathlib.Data.List.Basic

namespace LineEnd

variable {Symbol : Type} {cr lf : Symbol}

/-! ### Streams in normal form -/

/-- Every CR is followed by an LF, and every LF comes behind a CR. -/
inductive Paired (cr lf : Symbol) : List Symbol → Prop
  | nil : Paired cr lf []
  | lineEnd {rest : List Symbol} : Paired cr lf rest → Paired cr lf (cr :: lf :: rest)
  | plain {symbol : Symbol} {rest : List Symbol} (notCR : symbol ≠ cr) (notLF : symbol ≠ lf) :
    Paired cr lf rest → Paired cr lf (symbol :: rest)

theorem Paired.getLast?_ne (different : cr ≠ lf) {stream : List Symbol}
    (paired : Paired cr lf stream) : stream.getLast? ≠ some cr := by
  induction paired with
  | nil => nofun
  | @lineEnd rest _ inductionHypothesis =>
    cases rest with
    | nil => simpa using Ne.symm different
    | cons symbol more => simpa using inductionHypothesis
  | @plain symbol rest notCR _ _ inductionHypothesis =>
    cases rest with
    | nil => simpa using notCR
    | cons next more => simpa using inductionHypothesis

/-! ### Broken line ends -/

/-- No line end is broken between two pieces. -/
def Unbroken (cr lf : Symbol) (pieces : List (List Symbol)) : Prop :=
  pieces.IsChain fun left right => ¬ (left.getLast? = some cr ∧ right.head? = some lf)

theorem head?_flatten_of_nonempty (pieces : List (List Symbol))
    (nonempty : ∀ piece ∈ pieces, piece ≠ []) :
    pieces.flatten.head? = pieces.head?.bind List.head? := by
  cases pieces with
  | nil => rfl
  | cons piece rest =>
    obtain ⟨symbol, more, rfl⟩ := List.exists_cons_of_ne_nil (nonempty _ List.mem_cons_self)
    rfl

theorem unbroken_cons (piece : List Symbol) (rest : List (List Symbol))
    (nonempty : ∀ other ∈ rest, other ≠ []) :
    Unbroken cr lf (piece :: rest) ↔
      ¬ (piece.getLast? = some cr ∧ rest.flatten.head? = some lf) ∧ Unbroken cr lf rest := by
  rw [head?_flatten_of_nonempty rest nonempty]
  cases rest with
  | nil => simp [Unbroken]
  | cons next others => simp [Unbroken]

variable [DecidableEq Symbol]

/-! ### Normalising -/

/-- The stream with every line end turned into CR LF. After a CR, an LF belongs to the line end
that is already there. -/
def normalise (cr lf : Symbol) (afterCR : Bool) : List Symbol → List Symbol
  | [] => []
  | symbol :: rest =>
    if symbol = cr then cr :: lf :: normalise cr lf true rest
    else if symbol = lf then
      if afterCR then normalise cr lf false rest else cr :: lf :: normalise cr lf false rest
    else symbol :: normalise cr lf false rest

/-- The state after some symbols. -/
def endsInCR (cr : Symbol) (afterCR : Bool) (stream : List Symbol) : Bool :=
  match stream.getLast? with
  | none => afterCR
  | some last => last = cr

theorem endsInCR_cons (afterCR : Bool) (symbol : Symbol) (rest : List Symbol) :
    endsInCR cr afterCR (symbol :: rest) = endsInCR cr (decide (symbol = cr)) rest := by
  unfold endsInCR
  rw [List.getLast?_cons]
  cases rest.getLast? <;> rfl

/-- A stream is normalised in pieces, when the state is carried along. -/
theorem normalise_append (different : cr ≠ lf) (afterCR : Bool) (first second : List Symbol) :
    normalise cr lf afterCR (first ++ second) =
      normalise cr lf afterCR first ++ normalise cr lf (endsInCR cr afterCR first) second := by
  induction first generalizing afterCR with
  | nil => rfl
  | cons symbol rest inductionHypothesis =>
    rw [List.cons_append, endsInCR_cons]
    by_cases isCR : symbol = cr
    · simp [normalise, isCR, inductionHypothesis]
    · by_cases isLF : symbol = lf
      · cases afterCR <;> simp [normalise, isLF, Ne.symm different, inductionHypothesis]
      · simp [normalise, isCR, isLF, inductionHypothesis]

theorem length_le_normalise (cr lf : Symbol) (afterCR : Bool) (stream : List Symbol) :
    stream.length ≤ (normalise cr lf afterCR stream).length + afterCR.toNat := by
  induction stream generalizing afterCR with
  | nil => exact Nat.zero_le _
  | cons symbol rest inductionHypothesis =>
    have after := inductionHypothesis true
    have plain := inductionHypothesis false
    unfold normalise
    simp only [Bool.toNat_true, Bool.toNat_false, Nat.add_zero] at after plain
    split
    · simp only [List.length_cons]
      omega
    · split
      · cases afterCR
        · simp only [Bool.false_eq_true, if_false, List.length_cons]
          omega
        · simp only [if_true, List.length_cons, Bool.toNat_true]
          omega
      · simp only [List.length_cons]
        omega

/-- After a CR only an LF in front is taken differently. -/
theorem normalise_afterCR (stream : List Symbol) (notLF : stream.head? ≠ some lf) :
    normalise cr lf true stream = normalise cr lf false stream := by
  cases stream with
  | nil => rfl
  | cons symbol rest =>
    have plain : symbol ≠ lf := fun same => notLF (by rw [same]; rfl)
    simp [normalise, plain]

theorem length_normalise_afterCR (different : cr ≠ lf) (stream : List Symbol)
    (isLF : stream.head? = some lf) :
    (normalise cr lf false stream).length = (normalise cr lf true stream).length + 2 := by
  cases stream with
  | nil => cases isLF
  | cons symbol rest =>
    cases isLF
    simp [normalise, Ne.symm different]

/-! ### Normal forms -/

theorem paired_normalise (afterCR : Bool) (stream : List Symbol) :
    Paired cr lf (normalise cr lf afterCR stream) := by
  induction stream generalizing afterCR with
  | nil => exact .nil
  | cons symbol rest inductionHypothesis =>
    unfold normalise
    split
    · exact .lineEnd (inductionHypothesis true)
    · split
      · split
        · exact inductionHypothesis false
        · exact .lineEnd (inductionHypothesis false)
      · exact .plain ‹_› ‹_› (inductionHypothesis false)

theorem Paired.normalise_eq (different : cr ≠ lf) {stream : List Symbol}
    (paired : Paired cr lf stream) : normalise cr lf false stream = stream := by
  induction paired with
  | nil => rfl
  | lineEnd _ inductionHypothesis =>
    simp [normalise, Ne.symm different, inductionHypothesis]
  | plain notCR notLF _ inductionHypothesis =>
    rw [normalise, if_neg notCR, if_neg notLF, inductionHypothesis]

theorem paired_iff (different : cr ≠ lf) (stream : List Symbol) :
    Paired cr lf stream ↔ normalise cr lf false stream = stream :=
  ⟨Paired.normalise_eq different, fun same => same ▸ paired_normalise false stream⟩

/-- A stream that does not end in CR can be put in front of another without a CR and an LF meeting
where they are joined. -/
theorem paired_append_iff (different : cr ≠ lf) (first second : List Symbol)
    (ends : first.getLast? ≠ some cr) :
    Paired cr lf (first ++ second) ↔ Paired cr lf first ∧ Paired cr lf second := by
  have state : endsInCR cr false first = false := by
    unfold endsInCR
    cases last : first.getLast? with
    | none => rfl
    | some symbol => exact decide_eq_false fun same => ends (by rw [last, same])
  have firstLength := length_le_normalise cr lf false first
  have secondLength := length_le_normalise cr lf false second
  rw [paired_iff different, paired_iff different, paired_iff different,
    normalise_append different, state]
  constructor
  · intro same
    have total := congrArg List.length same
    simp only [List.length_append, Bool.toNat_false] at total firstLength secondLength
    exact List.append_inj same (by omega)
  · rintro ⟨firstSame, secondSame⟩
    rw [firstSame, secondSame]

theorem paired_append_lineEnd_iff (different : cr ≠ lf) (stream : List Symbol) :
    Paired cr lf (stream ++ [cr, lf]) ↔ Paired cr lf stream := by
  have lineEnd (afterCR : Bool) : normalise cr lf afterCR [cr, lf] = [cr, lf] := by
    simp [normalise, Ne.symm different]
  rw [paired_iff different, paired_iff different, normalise_append different, lineEnd,
    List.append_cancel_right_eq]

/-! ### Streams in pieces -/

theorem length_normalise_le (different : cr ≠ lf) (afterCR : Bool) (pieces : List (List Symbol)) :
    (normalise cr lf afterCR pieces.flatten).length ≤
      (pieces.flatMap (normalise cr lf false)).length := by
  induction pieces generalizing afterCR with
  | nil => exact Nat.le_refl 0
  | cons piece rest inductionHypothesis =>
    have front : (normalise cr lf afterCR piece).length ≤ (normalise cr lf false piece).length := by
      cases afterCR with
      | false => exact Nat.le_refl _
      | true =>
        by_cases isLF : piece.head? = some lf
        · rw [length_normalise_afterCR different piece isLF]
          exact Nat.le_add_right _ 2
        · exact Nat.le_of_eq (congrArg List.length (normalise_afterCR piece isLF))
    rw [List.flatten_cons, List.flatMap_cons, normalise_append different, List.length_append,
      List.length_append]
    exact Nat.add_le_add front (inductionHypothesis _)

/-- Pieces that are normalised each for itself make up the normalised stream exactly when no line
end is broken between them. -/
theorem normalise_flatten_eq_iff (different : cr ≠ lf) (afterCR : Bool)
    (pieces : List (List Symbol)) (nonempty : ∀ piece ∈ pieces, piece ≠ []) :
    normalise cr lf afterCR pieces.flatten = pieces.flatMap (normalise cr lf false) ↔
      ¬ (afterCR = true ∧ pieces.flatten.head? = some lf) ∧ Unbroken cr lf pieces := by
  induction pieces generalizing afterCR with
  | nil => simp [normalise, Unbroken]
  | cons piece rest inductionHypothesis =>
    have nonemptyRest (other : List Symbol) (member : other ∈ rest) : other ≠ [] :=
      nonempty other (List.mem_cons_of_mem _ member)
    obtain ⟨symbol, more, rfl⟩ := List.exists_cons_of_ne_nil (nonempty _ List.mem_cons_self)
    have state : endsInCR cr afterCR (symbol :: more) = true ↔
        (symbol :: more).getLast? = some cr := by
      unfold endsInCR
      rw [List.getLast?_cons]
      simp
    rw [unbroken_cons _ _ nonemptyRest, List.flatten_cons, List.flatMap_cons,
      normalise_append different, ← state]
    by_cases cut : afterCR = true ∧ (symbol :: more).head? = some lf
    · obtain ⟨rfl, isLF⟩ := cut
      have shorter := length_normalise_afterCR different (symbol :: more) isLF
      have rest := length_normalise_le different (endsInCR cr true (symbol :: more)) rest
      constructor
      · intro same
        have total := congrArg List.length same
        rw [List.length_append, List.length_append] at total
        omega
      · exact fun unbroken => absurd ⟨rfl, isLF⟩ unbroken.1
    · have front : normalise cr lf afterCR (symbol :: more) =
          normalise cr lf false (symbol :: more) := by
        cases afterCR with
        | false => rfl
        | true => exact normalise_afterCR _ fun isLF => cut ⟨rfl, isLF⟩
      rw [front, List.append_cancel_left_eq, inductionHypothesis _ nonemptyRest]
      exact ⟨fun both => ⟨cut, both⟩, And.right⟩

/-- A converter of single pieces that keeps the line ends and never ends in CR makes the normalised
stream exactly when it leaves no lone CR or LF and no line end is broken between two pieces. -/
theorem flatMap_eq_normalise_iff (different : cr ≠ lf) (convert : List Symbol → List Symbol)
    (pieces : List (List Symbol)) (nonempty : ∀ piece ∈ pieces, piece ≠ [])
    (keeps : ∀ piece ∈ pieces,
      normalise cr lf false (convert piece) = normalise cr lf false piece)
    (ends : ∀ piece ∈ pieces, (convert piece).getLast? ≠ some cr) :
    pieces.flatMap convert = normalise cr lf false pieces.flatten ↔
      (∀ piece ∈ pieces, Paired cr lf (convert piece)) ∧ Unbroken cr lf pieces := by
  have pairedAll : Paired cr lf (pieces.flatMap convert) ↔
      ∀ piece ∈ pieces, Paired cr lf (convert piece) := by
    clear nonempty keeps
    induction pieces with
    | nil => exact ⟨fun _ => nofun, fun _ => .nil⟩
    | cons piece rest inductionHypothesis =>
      rw [List.flatMap_cons,
        paired_append_iff different _ _ (ends piece List.mem_cons_self),
        inductionHypothesis fun other member => ends other (List.mem_cons_of_mem _ member),
        List.forall_mem_cons]
  have converted (paired : ∀ piece ∈ pieces, Paired cr lf (convert piece)) :
      pieces.flatMap convert = pieces.flatMap (normalise cr lf false) := by
    refine List.flatMap_congr fun piece member => ?_
    rw [← keeps piece member, (paired piece member).normalise_eq different]
  have cut := normalise_flatten_eq_iff different false pieces nonempty
  constructor
  · intro same
    have paired := pairedAll.mp (same ▸ paired_normalise false pieces.flatten)
    rw [converted paired] at same
    exact ⟨paired, (cut.mp same.symm).2⟩
  · rintro ⟨paired, unbroken⟩
    rw [converted paired]
    exact (cut.mpr ⟨by simp, unbroken⟩).symm

end LineEnd
