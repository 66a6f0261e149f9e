/-
This file develops the trimming of texts. A text is `Bare` if it has no blank at
either end; trimming is what makes a text bare, it leaves a bare one alone, and it
takes off whatever blanks stand around it. A symbol that is no blank separates
what trimming does to the two sides of it.
-/
import Mathlib.Data.List.DropRight

namespace Trim

variable {Symbol : Type} {blank : Symbol → Bool} {input pre post front back : List Symbol}
  {pivot : Symbol}

/-- The text without the blanks around it. -/
def trimmed (blank : Symbol → Bool) (input : List Symbol) : List Symbol :=
  (input.dropWhile (blank ·)).rdropWhile (blank ·)

/-- There is no blank at either end. -/
structure Bare (blank : Symbol → Bool) (input : List Symbol) : Prop where
  head : ∀ first ∈ input.head?, blank first = false
  last : ∀ final ∈ input.getLast?, blank final = false

theorem bare_of_all {input : List Symbol} (solid : input.all (!blank ·) = true) :
    Bare blank input := by
  have notBlank : ∀ symbol ∈ input, blank symbol = false := by simpa using solid
  exact ⟨fun first isFirst => notBlank first (List.mem_of_mem_head? isFirst),
    fun final isLast => notBlank final (List.mem_of_mem_getLast? isLast)⟩

theorem dropWhile_of_head (bare : ∀ first ∈ input.head?, blank first = false) :
    input.dropWhile (blank ·) = input := by
  cases input with
  | nil => rfl
  | cons first rest =>
    have notBlank := bare first rfl
    rw [List.dropWhile_cons, if_neg (by rw [notBlank]; decide)]

theorem rdropWhile_of_last (bare : ∀ final ∈ input.getLast?, blank final = false) :
    input.rdropWhile (blank ·) = input := by
  rw [List.rdropWhile_eq_self_iff]
  intro some isBlank
  have notBlank := bare _ (List.getLast?_eq_some_getLast some)
  rw [notBlank] at isBlank
  cases isBlank

theorem Bare.trimmed_eq (bare : Bare blank input) : trimmed blank input = input := by
  rw [trimmed, dropWhile_of_head bare.head, rdropWhile_of_last bare.last]

theorem dropWhile_append_of_all (blanks : ∀ symbol ∈ pre, blank symbol = true) :
    (pre ++ input).dropWhile (blank ·) = input.dropWhile (blank ·) := by
  rw [List.dropWhile_append, List.dropWhile_eq_nil_iff.mpr blanks]
  rfl

theorem rdropWhile_append_of_all (blanks : ∀ symbol ∈ post, blank symbol = true) :
    (input ++ post).rdropWhile (blank ·) = input.rdropWhile (blank ·) := by
  rw [List.rdropWhile, List.reverse_append, dropWhile_append_of_all]
  · rfl
  · exact fun symbol listed => blanks symbol (List.mem_reverse.mp listed)

/-- Blanks behind the text go. -/
theorem trimmed_append (blanks : ∀ symbol ∈ post, blank symbol = true) :
    trimmed blank (input ++ post) = trimmed blank input := by
  rw [trimmed, List.dropWhile_append]
  split
  · rename_i allBlank
    have nothing : input.dropWhile (blank ·) = [] := by simpa using allBlank
    rw [List.dropWhile_eq_nil_iff.mpr blanks, trimmed, nothing]
  · rw [rdropWhile_append_of_all blanks, trimmed]

/-- Blanks in front of the text go. -/
theorem append_trimmed (blanks : ∀ symbol ∈ pre, blank symbol = true) :
    trimmed blank (pre ++ input) = trimmed blank input := by
  rw [trimmed, dropWhile_append_of_all blanks, trimmed]

theorem rdropWhile_append_of_not {final : Symbol} (front : List Symbol)
    (notBlank : blank final = false) :
    (front ++ final :: back).rdropWhile (blank ·) =
      front ++ final :: back.rdropWhile (blank ·) := by
  induction back using List.reverseRecOn with
  | nil =>
    rw [List.rdropWhile_nil, List.rdropWhile_concat_neg]
    rw [notBlank]
    decide
  | append_singleton rest symbol inductionHypothesis =>
    rw [← List.cons_append, ← List.append_assoc]
    by_cases isBlank : blank symbol = true
    · rw [List.rdropWhile_concat_pos _ _ _ isBlank, List.rdropWhile_concat_pos _ _ _ isBlank,
        inductionHypothesis]
    · rw [List.rdropWhile_concat_neg _ _ _ isBlank, List.rdropWhile_concat_neg _ _ _ isBlank,
        List.append_assoc, List.cons_append]

theorem dropWhile_append_of_not (notBlank : blank pivot = false) :
    (front ++ pivot :: back).dropWhile (blank ·) = front.dropWhile (blank ·) ++ pivot :: back := by
  rw [List.dropWhile_append]
  split
  · rename_i allBlank
    have nothing : front.dropWhile (blank ·) = [] := by simpa using allBlank
    rw [nothing]
    refine dropWhile_of_head fun symbol isFirst => ?_
    cases Option.mem_some_iff.mp isFirst
    exact notBlank
  · rfl

theorem trimmed_dropWhile (input : List Symbol) :
    trimmed blank (input.dropWhile (blank ·)) = trimmed blank input := by
  rw [trimmed, List.dropWhile_idempotent, trimmed]

theorem trimmed_rdropWhile (input : List Symbol) :
    trimmed blank (input.rdropWhile (blank ·)) = trimmed blank input := by
  have whole : input.rdropWhile (blank ·) ++ input.rtakeWhile (blank ·) = input :=
    List.rdropWhile_append_rtakeWhile
  have cut : trimmed blank (input.rdropWhile (blank ·) ++ input.rtakeWhile (blank ·)) =
      trimmed blank (input.rdropWhile (blank ·)) :=
    trimmed_append fun symbol listed => List.mem_rtakeWhile_imp listed
  rw [← cut, whole]

theorem head_dropWhile (input : List Symbol) :
    ∀ first ∈ (input.dropWhile (blank ·)).head?, blank first = false := by
  intro first isFirst
  have notBlank := List.head?_dropWhile_not (blank ·) input
  rw [Option.mem_def.mp isFirst] at notBlank
  exact notBlank

/-- A text that starts with no blank starts as it does when it is trimmed. -/
theorem head?_trimmed (bare : ∀ first ∈ input.head?, blank first = false) :
    (trimmed blank input).head? = input.head? := by
  rw [trimmed, dropWhile_of_head bare]
  cases input with
  | nil => rfl
  | cons first rest =>
    obtain ⟨cut, split⟩ := List.rdropWhile_prefix (blank ·) (first :: rest)
    cases kept : (first :: rest).rdropWhile (blank ·) with
    | nil =>
      have isBlank := List.rdropWhile_eq_nil_iff.mp kept first List.mem_cons_self
      rw [bare first rfl] at isBlank
      cases isBlank
    | cons other others =>
      rw [kept, List.cons_append] at split
      rw [(List.cons.inj split).1]
      rfl

/-- Trimming makes a text bare. -/
theorem bare_trimmed (input : List Symbol) : Bare blank (trimmed blank input) := by
  constructor
  · intro first isFirst
    obtain ⟨rest, split⟩ := List.rdropWhile_prefix (blank ·) (input.dropWhile (blank ·))
    refine head_dropWhile input first ?_
    have starts : (trimmed blank input).head? = some first := isFirst
    rw [trimmed] at starts
    rw [← split, List.head?_append, starts]
    rfl
  · intro final isFinal
    obtain ⟨some, rfl⟩ := List.mem_getLast?_eq_getLast isFinal
    exact Bool.eq_false_iff.mpr (List.rdropWhile_last_not _ _ some)

end Trim
