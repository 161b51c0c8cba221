/-
SistemasOperativos.Lib.Rotation — taking turns.

A list is gone round when its entries are met one after the other and
the first follows the last. Whoever serves the first entry with some
property and goes on right behind it serves the entries with that
property in turn: the list of those that wait is rotated by one.
-/
import Mathlib.Data.List.Rotate

namespace Rotation

variable {α : Type*} {l order served : List α} {p : α → Bool} {e : α} {rest : List α}

/-- The first entry that is picked goes to the end of those that wait. -/
theorem filter_rotate_head (h : l.filter p = e :: rest) :
    ∃ i, l[i]? = some e ∧ (l.rotate (i + 1)).filter p = rest ++ [e] := by
  obtain ⟨before, after, rfl, hbefore, he, hrest⟩ := List.filter_eq_cons_iff.mp h
  refine ⟨before.length, by simp, ?_⟩
  have hsplit : before ++ e :: after = (before ++ [e]) ++ after := by simp
  have hlen : before.length + 1 = (before ++ [e]).length := by simp
  have hnone : before.filter p = [] := by
    rw [List.filter_eq_nil_iff]
    exact hbefore
  rw [hsplit, hlen, List.rotate_append_length_eq]
  simp [List.filter_append, hnone, he, hrest]

/-- `served` goes round `order`. -/
def GoesRound (order served : List α) : Prop :=
  ∀ i < served.length, served[i]? = order[i % order.length]?

theorem GoesRound.nil (order : List α) : GoesRound order [] := by
  intro i hi
  cases hi

/-- The next one is the head of those that wait. -/
theorem GoesRound.snoc (h : GoesRound order served)
    (hnext : order.rotate served.length = e :: rest) : GoesRound order (served ++ [e]) := by
  have hpos : 0 < order.length := by
    rw [← List.length_rotate order served.length, hnext]
    exact Nat.succ_pos _
  have hhead : order[served.length % order.length]? = some e := by
    have := List.getElem?_rotate (l := order) (n := served.length) (m := 0) hpos
    rw [hnext, Nat.zero_add] at this
    exact this.symm
  intro i hi
  rw [List.length_append, List.length_singleton] at hi
  by_cases hlast : i < served.length
  · rw [List.getElem?_append_left hlast]
    exact h i hlast
  · obtain rfl : i = served.length := by omega
    rw [hhead]
    simp

/-- A window as long as the list meets each entry once. -/
theorem GoesRound.window (h : GoesRound order served) {i : Nat}
    (hi : i + order.length ≤ served.length) :
    ((served.drop i).take order.length).Perm order := by
  have heq : (served.drop i).take order.length = order.rotate i := by
    apply List.ext_getElem?
    intro j
    by_cases hj : j < order.length
    · rw [List.getElem?_take_of_lt hj, List.getElem?_drop, List.getElem?_rotate hj,
        h _ (by omega), Nat.add_comm i j]
    · rw [List.getElem?_eq_none (by simp; omega), List.getElem?_eq_none (by simp; omega)]
  rw [heq]
  exact List.rotate_perm order i

end Rotation
