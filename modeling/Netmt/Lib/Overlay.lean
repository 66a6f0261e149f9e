/-
This file develops partial updates of a family of values. An update gives new
values to some of the keys and is silent about the others, which keep what they
have; so what a sequence of updates leaves at a key is what the last update that
speaks of it gave, and otherwise what was there at the start. The last update
alone has the same effect as the whole sequence exactly when it speaks of every
key at which the earlier ones left another value than the one at the start.
-/
import Mathlib.Data.List.Induction

namespace Overlay

variable {Key : Type} {Value : Key → Type}

/-- New values for some of the keys. -/
abbrev Update (Value : Key → Type) := ∀ key, Option (Value key)

/-- The values after an update. -/
def apply (base : ∀ key, Value key) (update : Update Value) : ∀ key, Value key :=
  fun key => (update key).getD (base key)

/-- What the last update that speaks of a key gives it. -/
def lastGiven (updates : List (Update Value)) (key : Key) : Option (Value key) :=
  (updates.filterMap fun update => update key).getLast?

theorem apply_of_given {base : ∀ key, Value key} {update : Update Value} {key : Key}
    {value : Value key} (given : update key = some value) : apply base update key = value := by
  rw [apply, given, Option.getD_some]

theorem foldl_apply (base : ∀ key, Value key) (updates : List (Update Value)) (key : Key) :
    updates.foldl apply base key = (lastGiven updates key).getD (base key) := by
  induction updates using List.reverseRecOn with
  | nil => rfl
  | append_singleton earlier update inductionHypothesis =>
    rw [List.foldl_append, List.foldl_cons, List.foldl_nil, apply, inductionHypothesis, lastGiven,
      lastGiven, List.filterMap_append]
    cases given : update key with
    | none =>
      rw [List.filterMap_cons_none given, List.filterMap_nil, List.append_nil]
      rfl
    | some value =>
      rw [List.filterMap_cons_some given, List.filterMap_nil, List.getLast?_concat]
      rfl

/-- An update forgets the ones before it exactly when it speaks of every key they changed. -/
theorem apply_foldl_eq_iff (base : ∀ key, Value key) (earlier : List (Update Value))
    (last : Update Value) :
    apply (earlier.foldl apply base) last = apply base last ↔
      ∀ key, last key ≠ none ∨ ∀ value, lastGiven earlier key = some value → value = base key := by
  have atKey (key : Key) :
      apply (earlier.foldl apply base) last key = apply base last key ↔
        last key ≠ none ∨ ∀ value, lastGiven earlier key = some value → value = base key := by
    cases given : last key with
    | none =>
      rw [apply, apply, given, Option.getD_none, Option.getD_none, foldl_apply]
      cases lastGiven earlier key with
      | none => simp
      | some value => simp
    | some value =>
      rw [apply_of_given given, apply_of_given given]
      simp
  constructor
  · exact fun same key => (atKey key).mp (congrFun same key)
  · intro each
    funext key
    exact (atKey key).mpr (each key)

/-! ### The last update that speaks of a key -/

theorem lastGiven_cons (update : Update Value) (later : List (Update Value)) (key : Key) :
    lastGiven (update :: later) key = (lastGiven later key).or (update key) := by
  unfold lastGiven
  cases given : update key with
  | none => rw [List.filterMap_cons_none given, Option.or_none]
  | some value =>
    rw [List.filterMap_cons_some given, List.getLast?_cons]
    cases (later.filterMap fun update => update key).getLast? <;> rfl

theorem lastGiven_eq_none_iff (updates : List (Update Value)) (key : Key) :
    lastGiven updates key = none ↔ ∀ update ∈ updates, update key = none := by
  unfold lastGiven
  rw [List.getLast?_eq_none_iff, List.filterMap_eq_nil_iff]

/-- Two updates that speak of the same keys leave the same at a key exactly when they give it the
same. -/
theorem getD_eq_iff {Item : Type} {first second : Option Item}
    (same : first = none ↔ second = none) (base : Item) :
    first.getD base = second.getD base ↔ first = second := by
  cases first with
  | none => simp [same.mp rfl]
  | some given =>
    cases second with
    | none => cases same.mpr rfl
    | some other => rw [Option.getD_some, Option.getD_some, Option.some_inj]

/-- Two sequences of updates that speak of the same keys leave the same exactly when those agree
that speak of a key for the last time. -/
theorem lastGiven_map_eq_iff {Item : Type} (first second : Item → Update Value)
    (items : List Item) (key : Key)
    (same : ∀ item ∈ items, first item key = none ↔ second item key = none) :
    lastGiven (items.map first) key = lastGiven (items.map second) key ↔
      ∀ item later, item :: later <:+ items → (∀ other ∈ later, first other key = none) →
        first item key = second item key := by
  induction items with
  | nil => simp [lastGiven]
  | cons head rest inductionHypothesis =>
    obtain ⟨headSame, restSame⟩ := List.forall_mem_cons.mp same
    have whole := inductionHypothesis restSame
    rw [List.map_cons, List.map_cons, lastGiven_cons, lastGiven_cons]
    have silentFirst : lastGiven (rest.map first) key = none ↔
        ∀ other ∈ rest, first other key = none := by
      rw [lastGiven_eq_none_iff, List.forall_mem_map]
    have silentSecond : lastGiven (rest.map second) key = none ↔
        ∀ other ∈ rest, first other key = none := by
      rw [lastGiven_eq_none_iff, List.forall_mem_map]
      exact forall₂_congr fun other member => (restSame other member).symm
    by_cases silent : ∀ other ∈ rest, first other key = none
    · rw [silentFirst.mpr silent, silentSecond.mpr silent, Option.none_or, Option.none_or]
      constructor
      · intro headEq item later suffix quiet
        rcases List.suffix_cons_iff.mp suffix with here | there
        · obtain ⟨rfl, -⟩ := List.cons.inj here
          exact headEq
        · have member : item ∈ rest := there.subset List.mem_cons_self
          rw [silent item member, (restSame item member).mp (silent item member)]
      · exact fun each => each head rest (List.suffix_refl _) silent
    · obtain ⟨value, given⟩ := Option.ne_none_iff_exists'.mp (mt silentFirst.mp silent)
      obtain ⟨other, otherGiven⟩ := Option.ne_none_iff_exists'.mp (mt silentSecond.mp silent)
      rw [given, otherGiven, Option.some_or, Option.some_or, ← given, ← otherGiven, whole]
      constructor
      · intro each item later suffix quiet
        rcases List.suffix_cons_iff.mp suffix with here | there
        · obtain ⟨-, rfl⟩ := List.cons.inj here
          exact absurd quiet silent
        · exact each item later there quiet
      · exact fun each item later suffix => each item later (suffix.trans (List.suffix_cons _ _))

end Overlay
