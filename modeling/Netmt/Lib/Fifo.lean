/-
This file develops a queue whose items are taken one at a time, in turns. A turn
that asks waits until its deadline for an item and takes the oldest one that is
left; it cannot choose. So which item a turn gets depends on how many turns
before it got one, and all turns get an item that is good for them exactly when
the items come in the order of the turns with nothing in between.
-/
import Mathlib.Data.List.Range

namespace Fifo

variable {Item : Type} (asks : Nat → Bool) (due : Nat → Nat)

/-- How many turns before this one ask. -/
def asked (turn : Nat) : Nat := (List.range turn).countP asks

/-- How many items are taken before a turn; `due` is how many have come by its deadline. -/
def taken : Nat → Nat
  | 0 => 0
  | turn + 1 => taken turn + if asks turn ∧ taken turn < due turn then 1 else 0

theorem asked_succ (turn : Nat) :
    asked asks (turn + 1) = asked asks turn + if asks turn then 1 else 0 := by
  rw [asked, asked, List.range_succ, List.countP_append, List.countP_singleton]

/-- While every turn that asks is served, the turns take what they ask for. -/
theorem taken_eq_asked {turns : Nat}
    (served : ∀ turn < turns, taken asks due turn = asked asks turn → asks turn →
      taken asks due turn < due turn) :
    taken asks due turns = asked asks turns := by
  induction turns with
  | zero => rfl
  | succ turns inductionHypothesis =>
    have before := inductionHypothesis fun turn earlier => served turn (Nat.lt_succ_of_lt earlier)
    rw [taken, asked_succ, before]
    by_cases asking : asks turns
    · have inTime := served turns (Nat.lt_succ_self turns) before asking
      rw [before] at inTime
      rw [if_pos ⟨asking, inTime⟩, if_pos asking]
    · rw [if_neg (mt And.left asking), if_neg asking]

/-- All turns that ask get an item that is good for them exactly when the items come in the order
of these turns, each in time. -/
theorem served_good_iff (items : Nat → Item) (good : Nat → Item → Prop) (turns : Nat) :
    (∀ turn < turns, asks turn →
        taken asks due turn < due turn ∧ good turn (items (taken asks due turn))) ↔
      ∀ turn < turns, asks turn →
        asked asks turn < due turn ∧ good turn (items (asked asks turn)) := by
  constructor
  · intro served turn inside asking
    have same : taken asks due turn = asked asks turn :=
      taken_eq_asked asks due fun earlier before _ early =>
        (served earlier (before.trans inside) early).1
    rw [← same]
    exact served turn inside asking
  · intro inOrder turn inside asking
    have same : taken asks due turn = asked asks turn :=
      taken_eq_asked asks due fun earlier before alike early =>
        alike ▸ (inOrder earlier (before.trans inside) early).1
    rw [same]
    exact inOrder turn inside asking

end Fifo
