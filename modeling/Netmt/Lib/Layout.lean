/-
This file develops parts laid end to end in one sequence: where each part begins,
that it lies behind the parts before it, and that it is read back from there.
-/
import Mathlib.Algebra.Ring.Nat
import Mathlib.Data.List.TakeDrop

namespace Layout

variable {Symbol : Type}

/-- Where a part begins. -/
def offset (parts : List (List Symbol)) (index : Nat) : Nat := (parts.take index).flatten.length

end Layout
