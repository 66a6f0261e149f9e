/-
This file develops the words of a text: its maximal runs of symbols that are not
blank, for any notion of a blank.

A word is found by skipping blanks and reading up to the next one, so a reader
that works this way sees the words one after the other, wherever the blanks are
and however many there are. Tidying a text keeps its words and leaves one blank
between each two.
-/
import Mathlib.Data.List.Chain
import Mathlib.Data.List.DropRight
import Mathlib.Data.List.TakeWhile

namespace Words

variable {Symbol : Type} (blank : Symbol → Bool)

/-- The maximal runs of symbols that are not blank, in order. -/
def words (input : List Symbol) : List (List Symbol) :=
  (input.splitOnP blank).filter (!·.isEmpty)

/-- What is left when the next word is read. -/
def behind (input : List Symbol) : List Symbol :=
  (input.dropWhile (blank ·)).dropWhile (!blank ·)

@[simp] theorem words_nil : words blank [] = [] := rfl

/-- A blank ends a word if there is one, and nothing else. -/
theorem words_append_cons (front rest : List Symbol) (next : Symbol) (ends : blank next = true) :
    words blank (front ++ next :: rest) = words blank front ++ words blank rest := by
  rw [words, List.splitOnP_append_cons front rest ends, List.filter_append]
  rfl

theorem words_cons_blank (symbol : Symbol) (rest : List Symbol) (skipped : blank symbol = true) :
    words blank (symbol :: rest) = words blank rest :=
  words_append_cons blank [] rest symbol skipped

theorem words_of_word (word : List Symbol) (nonempty : word ≠ [])
    (whole : ∀ symbol ∈ word, blank symbol = false) : words blank word = [word] := by
  rw [words, List.splitOnP_eq_singleton whole]
  exact List.filter_cons_of_pos (by simpa using nonempty)

/-- A word with a blank behind it is the first of the words. -/
theorem words_append_blank (word rest : List Symbol) (next : Symbol) (nonempty : word ≠ [])
    (whole : ∀ symbol ∈ word, blank symbol = false) (ends : blank next = true) :
    words blank (word ++ next :: rest) = word :: words blank rest := by
  rw [words_append_cons blank word rest next ends, words_of_word blank word nonempty whole,
    List.singleton_append]

/-- Words with one blank between each two and one behind the last are read one after the other. -/
theorem words_intercalate (separator ends : Symbol) (separates : blank separator = true)
    (stops : blank ends = true) (items : List (List Symbol))
    (whole : ∀ word ∈ items, word ≠ [] ∧ ∀ symbol ∈ word, blank symbol = false)
    (rest : List Symbol) :
    words blank ([separator].intercalate items ++ ends :: rest) = items ++ words blank rest := by
  induction items with
  | nil => exact words_cons_blank blank ends rest stops
  | cons word others inductionHypothesis =>
    have first := whole word List.mem_cons_self
    have tail := inductionHypothesis fun other member => whole other (List.mem_cons_of_mem _ member)
    cases others with
    | nil =>
      rw [List.intercalate_singleton]
      exact words_append_blank blank word rest ends first.1 first.2 stops
    | cons second others =>
      rw [List.intercalate_cons_cons, List.append_assoc, List.append_assoc, List.singleton_append,
        words_append_blank blank word _ separator first.1 first.2 separates, tail]
      rfl

theorem words_dropWhile (input : List Symbol) :
    words blank (input.dropWhile (blank ·)) = words blank input := by
  induction input with
  | nil => rfl
  | cons symbol rest inductionHypothesis =>
    by_cases skipped : blank symbol = true
    · rw [List.dropWhile_cons_of_pos skipped, words_cons_blank blank symbol rest skipped,
        inductionHypothesis]
    · rw [List.dropWhile_cons_of_neg skipped]

/-- Skipping blanks and reading up to the next one finds the first word, and leaves the others. -/
theorem words_eq (input : List Symbol) (some : input.dropWhile (blank ·) ≠ []) :
    words blank input =
      (input.dropWhile (blank ·)).takeWhile (!blank ·) :: words blank (behind blank input) := by
  rw [← words_dropWhile blank input, behind]
  have head := List.head_dropWhile_not (blank ·) some
  generalize input.dropWhile (blank ·) = start at some head
  have nonempty : start.takeWhile (!blank ·) ≠ [] := by
    rw [← List.cons_head_tail some, List.takeWhile_cons_of_pos (by simp [head])]
    exact List.cons_ne_nil _ _
  have whole : ∀ symbol ∈ start.takeWhile (!blank ·), blank symbol = false := by
    intro symbol member
    simpa using List.mem_takeWhile_imp member
  have all := List.takeWhile_append_dropWhile (p := (!blank ·)) (l := start)
  cases stop : start.dropWhile (!blank ·) with
  | nil =>
    rw [stop, List.append_nil] at all
    rw [words_nil, ← words_of_word blank _ nonempty whole, all]
  | cons next others =>
    have ends : blank next = true := by
      have more : start.dropWhile (!blank ·) ≠ [] := by
        rw [stop]
        exact List.cons_ne_nil _ _
      have last := List.head_dropWhile_not (!blank ·) more
      simpa [stop] using last
    rw [stop] at all
    rw [words_cons_blank blank next others ends,
      ← words_append_blank blank _ others next nonempty whole ends, all]

theorem words_eq_nil_iff (input : List Symbol) :
    words blank input = [] ↔ input.dropWhile (blank ·) = [] := by
  constructor
  · intro none
    by_contra some
    rw [words_eq blank input some] at none
    exact absurd none (List.cons_ne_nil _ _)
  · intro none
    rw [← words_dropWhile, none, words_nil]

/-! ### Tidying -/

/-- Without the blanks that follow a blank; `after` says whether the text itself does. -/
def squeeze (after : Bool) : List Symbol → List Symbol
  | [] => []
  | symbol :: rest =>
    if blank symbol && after then squeeze after rest else symbol :: squeeze (blank symbol) rest

/-- One blank between each two words, and none around them. -/
def tidied (input : List Symbol) : List Symbol :=
  (squeeze blank false (input.dropWhile (blank ·))).rdropWhile (blank ·)

/-- No blank at either end, and no two in a row. -/
structure Tidy (input : List Symbol) : Prop where
  front : ∀ symbol ∈ input.head?, blank symbol = false
  back : ∀ symbol ∈ input.getLast?, blank symbol = false
  apart : input.IsChain fun symbol next => ¬ (blank symbol = true ∧ blank next = true)

theorem squeeze_sublist (after : Bool) (input : List Symbol) :
    (squeeze blank after input).Sublist input := by
  induction input generalizing after with
  | nil => exact List.Sublist.refl []
  | cons symbol rest inductionHypothesis =>
    rw [squeeze]
    split
    · exact (inductionHypothesis after).cons symbol
    · exact (inductionHypothesis (blank symbol)).cons_cons symbol

theorem tidied_sublist (input : List Symbol) : (tidied blank input).Sublist input := by
  have shorter : tidied blank input <+: squeeze blank false (input.dropWhile (blank ·)) :=
    List.rdropWhile_prefix _ _
  exact (shorter.sublist.trans (squeeze_sublist blank false _)).trans (List.dropWhile_sublist _)

/-- Squeezing keeps the words, behind any text and behind a blank. -/
theorem words_squeeze (input : List Symbol) :
    (∀ front, words blank (front ++ squeeze blank false input) = words blank (front ++ input)) ∧
      words blank (squeeze blank true input) = words blank input := by
  induction input with
  | nil => exact ⟨fun _ => rfl, rfl⟩
  | cons symbol rest inductionHypothesis =>
    obtain ⟨inFront, afterBlank⟩ := inductionHypothesis
    have move (front tail : List Symbol) :
        front ++ symbol :: tail = (front ++ [symbol]) ++ tail := by
      rw [List.append_assoc, List.singleton_append]
    by_cases skipped : blank symbol = true
    · constructor
      · intro front
        rw [squeeze, skipped, Bool.and_false, if_neg Bool.false_ne_true,
          words_append_cons blank front _ symbol skipped, afterBlank,
          ← words_append_cons blank front rest symbol skipped]
      · rw [squeeze, skipped, Bool.and_true, if_pos rfl, afterBlank,
          words_cons_blank blank symbol rest skipped]
    · rw [Bool.not_eq_true] at skipped
      constructor
      · intro front
        rw [squeeze, skipped, Bool.false_and, if_neg Bool.false_ne_true, move, move front rest,
          inFront]
      · rw [squeeze, skipped, Bool.false_and, if_neg Bool.false_ne_true]
        exact inFront [symbol]

theorem words_rdropWhile (input : List Symbol) :
    words blank (input.rdropWhile (blank ·)) = words blank input := by
  induction input using List.reverseRecOn with
  | nil => rfl
  | append_singleton front last inductionHypothesis =>
    by_cases skipped : blank last = true
    · rw [List.rdropWhile_concat_pos _ _ _ skipped, inductionHypothesis,
        words_append_cons blank front [] last skipped, words_nil, List.append_nil]
    · rw [List.rdropWhile_concat_neg _ _ _ skipped]

theorem words_tidied (input : List Symbol) :
    words blank (tidied blank input) = words blank input := by
  have squeezed := (words_squeeze blank (input.dropWhile (blank ·))).1 []
  rw [List.nil_append, List.nil_append] at squeezed
  rw [tidied, words_rdropWhile, squeezed, words_dropWhile]

/-- A squeezed text has no two blanks in a row, and behind a blank it does not begin with one. -/
theorem squeeze_apart (after : Bool) (input : List Symbol) :
    ((squeeze blank after input).IsChain
        fun symbol next => ¬ (blank symbol = true ∧ blank next = true)) ∧
      (after = true → ∀ symbol ∈ (squeeze blank after input).head?, blank symbol = false) := by
  induction input generalizing after with
  | nil => exact ⟨List.IsChain.nil, fun _ => nofun⟩
  | cons symbol rest inductionHypothesis =>
    rw [squeeze]
    by_cases skipped : (blank symbol && after) = true
    · rw [if_pos skipped]
      exact inductionHypothesis after
    · rw [if_neg skipped]
      constructor
      · refine List.isChain_cons.mpr ⟨?_, (inductionHypothesis (blank symbol)).1⟩
        rintro next member ⟨first, second⟩
        have separate := (inductionHypothesis (blank symbol)).2 first next member
        exact Bool.false_ne_true (separate.symm.trans second)
      · rintro rfl other member
        rw [List.head?_cons, Option.mem_some_iff] at member
        rw [Bool.and_true, Bool.not_eq_true] at skipped
        rw [← member, skipped]

theorem head?_squeeze (input : List Symbol) : (squeeze blank false input).head? = input.head? := by
  cases input with
  | nil => rfl
  | cons symbol rest => rw [squeeze, Bool.and_false, if_neg Bool.false_ne_true]; rfl

theorem tidied_tidy (input : List Symbol) : Tidy blank (tidied blank input) := by
  have shorter : tidied blank input <+: squeeze blank false (input.dropWhile (blank ·)) :=
    List.rdropWhile_prefix _ _
  refine ⟨?_, ?_, List.IsChain.prefix (squeeze_apart blank false _).1 shorter⟩
  · intro symbol member
    obtain ⟨behind, whole⟩ := shorter
    have start := List.head?_dropWhile_not (blank ·) input
    rw [← head?_squeeze blank, ← whole, List.head?_append, Option.mem_def.mp member] at start
    exact start
  · intro symbol member
    have some : tidied blank input ≠ [] := by
      intro none
      rw [none] at member
      cases member
    have last : ¬ blank ((tidied blank input).getLast some) = true :=
      List.rdropWhile_last_not _ _ some
    rw [Option.mem_def, List.getLast?_eq_some_getLast some, Option.some_inj] at member
    rw [← member, ← Bool.not_eq_true]
    exact last

theorem squeeze_of_apart (after : Bool) (input : List Symbol)
    (apart : input.IsChain fun symbol next => ¬ (blank symbol = true ∧ blank next = true))
    (front : after = true → ∀ symbol ∈ input.head?, blank symbol = false) :
    squeeze blank after input = input := by
  induction input generalizing after with
  | nil => rfl
  | cons symbol rest inductionHypothesis =>
    rw [List.isChain_cons] at apart
    have kept : ¬ (blank symbol && after) = true := by
      rw [Bool.and_eq_true]
      rintro ⟨skipped, behind⟩
      exact Bool.false_ne_true ((front behind symbol rfl).symm.trans skipped)
    rw [squeeze, if_neg kept, inductionHypothesis (blank symbol) apart.2]
    intro skipped next member
    rw [← Bool.not_eq_true]
    exact fun second => apart.1 next member ⟨skipped, second⟩

/-- Tidying a tidy text changes nothing. -/
theorem Tidy.tidied_eq {input : List Symbol} (tidy : Tidy blank input) :
    tidied blank input = input := by
  have front : input.dropWhile (blank ·) = input := by
    cases input with
    | nil => rfl
    | cons symbol rest => exact List.dropWhile_cons_of_neg (by simp [tidy.front symbol rfl])
  rw [tidied, front, squeeze_of_apart blank false input tidy.apart nofun,
    List.rdropWhile_eq_self_iff]
  intro some last
  have back := tidy.back _ (List.getLast?_eq_some_getLast some)
  exact Bool.false_ne_true (back.symm.trans last)

theorem tidied_eq_nil_iff (input : List Symbol) :
    tidied blank input = [] ↔ ∀ symbol ∈ input, blank symbol = true := by
  have unchanged : (tidied blank input).dropWhile (blank ·) = tidied blank input := by
    cases start : tidied blank input with
    | nil => rfl
    | cons symbol rest =>
      have front := (tidied_tidy blank input).front symbol (by rw [start]; rfl)
      exact List.dropWhile_cons_of_neg (by simp [front])
  rw [← unchanged, ← words_eq_nil_iff, words_tidied, words_eq_nil_iff, List.dropWhile_eq_nil_iff]

/-- Squeezing leaves one blank at the end at most. -/
theorem length_squeeze_le (input : List Symbol) :
    (squeeze blank false (input.dropWhile (blank ·))).length ≤ (tidied blank input).length + 1 := by
  have whole : tidied blank input ++
      (squeeze blank false (input.dropWhile (blank ·))).rtakeWhile (blank ·) =
        squeeze blank false (input.dropWhile (blank ·)) :=
    List.rdropWhile_append_rtakeWhile
  have apart := (squeeze_apart blank false (input.dropWhile (blank ·))).1
  have blanks : ∀ symbol ∈ (squeeze blank false (input.dropWhile (blank ·))).rtakeWhile (blank ·),
      blank symbol = true := fun symbol member => List.mem_rtakeWhile_imp member
  generalize (squeeze blank false (input.dropWhile (blank ·))).rtakeWhile (blank ·) = back
    at whole blanks
  rw [← whole] at apart ⊢
  rw [List.length_append]
  match back with
  | [] => exact Nat.le_succ _
  | [_] => exact Nat.le_refl _
  | first :: second :: rest =>
    have behind := (List.isChain_append.mp apart).2.1
    have both := (List.isChain_cons_cons.mp behind).1
    exact absurd ⟨blanks first (by simp), blanks second (by simp)⟩ both

end Words
