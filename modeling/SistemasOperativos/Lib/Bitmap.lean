/-
SistemasOperativos.Lib.Bitmap — allocation maps and their free counts.

A bitmap over `α` is a function to `Bool`; `clear S f` is how many cells
of `S` are `false`. Setting a clear cell and clearing a set one move that
number by one, which is all an allocator has to know to keep a counter.
-/
import Mathlib.Data.Finset.Card
import Mathlib.Logic.Function.Basic
import Mathlib.Tactic.Common

namespace Bitmap

variable {α : Type*}

/-- The number of clear cells in `S`. -/
def clear (S : Finset α) (f : α → Bool) : Nat := (S.filter (fun a => f a = false)).card

theorem clear_le (S : Finset α) (f : α → Bool) : clear S f ≤ S.card :=
  Finset.card_filter_le _ _

variable [DecidableEq α] {S : Finset α} {f : α → Bool} {a : α}

/-- Clearing a cell that was set. -/
theorem clear_update_false (ha : a ∈ S) (hf : f a = true) :
    clear S (Function.update f a false) = clear S f + 1 := by
  have hins : S.filter (fun x => Function.update f a false x = false)
      = insert a (S.filter (fun x => f x = false)) := by
    ext x
    by_cases hx : x = a
    · subst hx; simp [ha]
    · simp [hx]
  unfold clear
  rw [hins, Finset.card_insert_of_notMem]
  simp [hf]

/-- Setting a cell that was clear. -/
theorem clear_update_true (ha : a ∈ S) (hf : f a = false) :
    clear S (Function.update f a true) + 1 = clear S f := by
  have h := clear_update_false (f := Function.update f a true) ha (by simp)
  have hback : Function.update (Function.update f a true) a false = f := by
    rw [Function.update_idem, ← hf, Function.update_eq_self]
  rw [hback] at h
  exact h.symm

end Bitmap
