/-
SistemasOperativos.Lib.Ring — a ring of `N` cells with a read and a write
position and no count of what is in it.

The two positions are equal when the ring is empty, and also after `N`
writes that nobody has read: the ring does not tell these apart, so the
`N`-th write loses all that was waiting. `contents_push` says so for one
write, and `contents_pushAll` for any number: what is left of a list is
its length modulo `N` last elements (`kept`).
-/
import Mathlib.Data.List.Induction
import Mathlib.Logic.Function.Basic

namespace Ring

structure State (α : Type) where
  buf : Nat → α
  rpos : Nat
  wpos : Nat

variable {α : Type} {N : Nat} {s : State α}

/-- The next position. -/
def next (N p : Nat) : Nat := if p + 1 = N then 0 else p + 1

def push (N : Nat) (s : State α) (a : α) : State α :=
  { s with buf := Function.update s.buf s.wpos a, wpos := next N s.wpos }

def pop (N : Nat) (s : State α) : Option (α × State α) :=
  if s.rpos ≠ s.wpos then some (s.buf s.rpos, { s with rpos := next N s.rpos }) else none

/-- Both positions are cells. -/
structure InRange (N : Nat) (s : State α) : Prop where
  rpos : s.rpos < N
  wpos : s.wpos < N

/-- How many elements wait. -/
def waiting (N : Nat) (s : State α) : Nat :=
  if s.rpos ≤ s.wpos then s.wpos - s.rpos else s.wpos + N - s.rpos

/-- The `i`-th cell from the read position on. -/
def cell (N : Nat) (s : State α) (i : Nat) : Nat :=
  if s.rpos + i < N then s.rpos + i else s.rpos + i - N

/-- What waits, the oldest first. -/
def contents (N : Nat) (s : State α) : List α :=
  (List.range (waiting N s)).map (fun i => s.buf (cell N s i))

@[simp] theorem length_contents (s : State α) : (contents N s).length = waiting N s := by
  simp [contents]

theorem waiting_lt (h : InRange N s) : waiting N s < N := by
  have hr := h.rpos
  have hw := h.wpos
  unfold waiting
  split <;> omega

theorem next_lt {p : Nat} (h : p < N) : next N p < N := by
  unfold next
  split <;> omega

theorem InRange.push (h : InRange N s) (a : α) : InRange N (push N s a) :=
  ⟨h.rpos, next_lt h.wpos⟩

/-- One write: the last free cell empties the ring. -/
theorem contents_push (h : InRange N s) (a : α) :
    contents N (push N s a) =
      if (contents N s).length + 1 = N then [] else contents N s ++ [a] := by
  have hr := h.rpos
  have hw := h.wpos
  rw [length_contents]
  by_cases hfull : waiting N s + 1 = N
  · have hzero : waiting N (Ring.push N s a) = 0 := by
      unfold waiting at hfull ⊢
      simp only [Ring.push, next]
      split at hfull <;> split <;> split <;> omega
    rw [if_pos hfull, contents, hzero]
    rfl
  · have hmore : waiting N (Ring.push N s a) = waiting N s + 1 := by
      unfold waiting at hfull ⊢
      simp only [Ring.push, next]
      split at hfull <;> split <;> split <;> omega
    have hlast : cell N s (waiting N s) = s.wpos := by
      unfold cell waiting
      split <;> split <;> omega
    have hother : ∀ i < waiting N s, cell N s i ≠ s.wpos := by
      intro i hi heq
      unfold cell at heq
      unfold waiting at hi
      split at heq <;> split at hi <;> omega
    rw [if_neg hfull, contents, hmore, List.range_succ, List.map_append]
    refine congrArg₂ (· ++ ·) (List.map_congr_left fun i hi => ?_) ?_
    · exact Function.update_of_ne (hother i (List.mem_range.mp hi)) _ _
    · show [Function.update s.buf s.wpos a (cell N s (waiting N s))] = [a]
      rw [hlast, Function.update_self]

theorem pop_none_iff (h : InRange N s) : pop N s = none ↔ contents N s = [] := by
  have hr := h.rpos
  have hw := h.wpos
  rw [← List.length_eq_zero_iff, length_contents, pop]
  unfold waiting
  split <;> split <;> simp <;> omega

/-- One read takes the oldest element. -/
theorem contents_pop {a : α} {s' : State α} (h : InRange N s) (hpop : pop N s = some (a, s')) :
    contents N s = a :: contents N s' ∧ InRange N s' := by
  have hr := h.rpos
  have hw := h.wpos
  rw [pop] at hpop
  split at hpop
  · rename_i hne
    cases hpop
    have hone : waiting N s = waiting N { s with rpos := next N s.rpos } + 1 := by
      unfold waiting next
      dsimp only
      split <;> split <;> split <;> omega
    have hcell : ∀ i < waiting N { s with rpos := next N s.rpos },
        cell N s (i + 1) = cell N { s with rpos := next N s.rpos } i := by
      intro i hi
      by_cases hend : s.rpos + 1 = N
      · rw [next, if_pos hend] at hi ⊢
        unfold cell
        unfold waiting at hi
        dsimp only at hi ⊢
        split <;> split <;> split at hi <;> omega
      · rw [next, if_neg hend] at hi ⊢
        unfold cell
        dsimp only
        split <;> split <;> omega
    refine ⟨?_, next_lt hr, hw⟩
    rw [contents, hone, List.range_succ_eq_map, List.map_cons, List.map_map]
    refine congrArg₂ List.cons ?_ (List.map_congr_left fun i hi => ?_)
    · rw [cell, Nat.add_zero, if_pos hr]
    · exact congrArg s.buf (hcell i (List.mem_range.mp hi))
  · cases hpop

/-! ## Any number of writes -/

/-- What is left of a list: all full rings of it are lost. -/
def kept (N : Nat) (as : List α) : List α := as.drop (as.length / N * N)

theorem kept_of_lt {as : List α} (h : as.length < N) : kept N as = as := by
  rw [kept, Nat.div_eq_of_lt h, Nat.zero_mul, List.drop_zero]

theorem length_kept (as : List α) : (kept N as).length = as.length % N := by
  have hdiv := Nat.div_add_mod as.length N
  rw [kept, List.length_drop, Nat.mul_comm]
  omega

theorem kept_append (hN : 0 < N) (as : List α) (a : α) :
    kept N (as ++ [a]) = if (kept N as).length + 1 = N then [] else kept N as ++ [a] := by
  have hdiv := Nat.div_add_mod as.length N
  have hmod := Nat.mod_lt as.length hN
  rw [length_kept]
  by_cases hfull : as.length % N + 1 = N
  · have hnext : (as.length + 1) / N = as.length / N + 1 := by
      rw [show as.length + 1 = N * (as.length / N + 1) by rw [Nat.mul_add]; omega,
        Nat.mul_div_cancel_left _ hN]
    rw [if_pos hfull, kept, List.length_append, List.length_singleton, hnext,
      List.drop_eq_nil_iff, List.length_append, List.length_singleton, Nat.mul_comm, Nat.mul_add]
    omega
  · have hnext : (as.length + 1) / N = as.length / N := by
      rw [show as.length + 1 = (as.length % N + 1) + N * (as.length / N) by omega,
        Nat.add_mul_div_left _ _ hN, Nat.div_eq_of_lt (by omega), Nat.zero_add]
    rw [if_neg hfull, kept, kept, List.length_append, List.length_singleton, hnext,
      List.drop_append_of_le_length (by rw [Nat.mul_comm]; omega)]

/-- Any number of writes. -/
theorem contents_pushAll (h : InRange N s) (as : List α) :
    contents N (as.foldl (push N) s) = kept N (contents N s ++ as) ∧
      InRange N (as.foldl (push N) s) := by
  have hN : 0 < N := Nat.zero_lt_of_lt h.rpos
  induction as using List.reverseRecOn with
  | nil =>
      rw [List.append_nil, kept_of_lt (by rw [length_contents]; exact waiting_lt h)]
      exact ⟨rfl, h⟩
  | append_singleton as a ih =>
      obtain ⟨hcontents, hrange⟩ := ih
      rw [List.foldl_append, ← List.append_assoc, kept_append hN, ← hcontents]
      exact ⟨contents_push hrange a, hrange.push a⟩

end Ring
