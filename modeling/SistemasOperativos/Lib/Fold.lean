/-
SistemasOperativos.Lib.Fold — loops over a list whose body may fail.

Such a loop is `List.foldlM` in `Except`. One rule carries an invariant
through the turns, and another follows slots that the turns write: a slot
ends with what the last turn to write it stored, or with what it had.
-/
namespace Fold

variable {α ε σ K V : Type}

/-! ## The rules -/

/-- The first turn, and the rest. -/
theorem foldlM_cons_ok {step : σ → α → Except ε σ} {s s' : σ} {a : α} {as : List α}
    (h : (a :: as).foldlM step s = .ok s') :
    ∃ s₁, step s a = .ok s₁ ∧ as.foldlM step s₁ = .ok s' := by
  rw [List.foldlM_cons] at h
  cases hstep : step s a with
  | error e =>
      rw [hstep] at h
      cases h
  | ok s₁ =>
      rw [hstep] at h
      exact ⟨s₁, rfl, h⟩

/-- What every turn that returns keeps. -/
theorem foldlM_inv {step : σ → α → Except ε σ} {P : σ → Prop} {as : List α} {s s' : σ}
    (hstep : ∀ a ∈ as, ∀ s s', P s → step s a = .ok s' → P s') (hs : P s)
    (h : as.foldlM step s = .ok s') : P s' := by
  induction as generalizing s with
  | nil =>
      cases h
      exact hs
  | cons a as ih =>
      obtain ⟨s₁, hone, hrest⟩ := foldlM_cons_ok h
      exact ih (fun b hb => hstep b (List.mem_cons_of_mem _ hb))
        (hstep a List.mem_cons_self s s₁ hs hone) hrest

/-- Turns that all return. -/
theorem foldlM_total {step : σ → α → Except ε σ} {as : List α}
    (hstep : ∀ a ∈ as, ∀ s, ∃ s', step s a = .ok s') (s : σ) :
    ∃ s', as.foldlM step s = .ok s' := by
  induction as generalizing s with
  | nil => exact ⟨s, rfl⟩
  | cons a as ih =>
      obtain ⟨s₁, hone⟩ := hstep a List.mem_cons_self s
      obtain ⟨s', hrest⟩ := ih (fun b hb => hstep b (List.mem_cons_of_mem _ hb)) s₁
      refine ⟨s', ?_⟩
      rw [List.foldlM_cons, hone]
      exact hrest

/-! ## The last write -/

variable [DecidableEq K]

/-- What the last of some writes to a slot stores. -/
def lastFor (k : K) (ws : List (K × V)) : Option V := (ws.filter (·.1 = k)).getLast?.map (·.2)

theorem lastFor_append (k : K) (ws ws' : List (K × V)) :
    lastFor k (ws ++ ws') = (lastFor k ws').or (lastFor k ws) := by
  rw [lastFor, List.filter_append, List.getLast?_append, Option.map_or]
  rfl

theorem lastFor_singleton (k : K) (w : K × V) :
    lastFor k [w] = if w.1 = k then some w.2 else none := by
  by_cases hw : w.1 = k
  · rw [if_pos hw, lastFor, List.filter_cons_of_pos (by simpa using hw)]
    rfl
  · rw [if_neg hw, lastFor, List.filter_cons_of_neg (by simpa using hw)]
    rfl

theorem mem_of_lastFor {k : K} {v : V} {ws : List (K × V)} (h : lastFor k ws = some v) :
    (k, v) ∈ ws := by
  obtain ⟨w, hw, rfl⟩ := Option.map_eq_some_iff.mp h
  obtain ⟨hmem, hk⟩ := List.mem_filter.mp (List.mem_of_getLast? hw)
  rw [← of_decide_eq_true hk]
  exact hmem

/-- Slots that a turn writes, each at most one of them. -/
theorem foldlM_slots (get : σ → K → V) (write : α → Option (K × V))
    {step : σ → α → Except ε σ} {as : List α} {s s' : σ}
    (hstep : ∀ a ∈ as, ∀ s s', step s a = .ok s' →
      ∀ k, get s' k = (lastFor k (write a).toList).getD (get s k))
    (h : as.foldlM step s = .ok s') (k : K) :
    get s' k = (lastFor k (as.filterMap write)).getD (get s k) := by
  induction as generalizing s with
  | nil =>
      cases h
      rfl
  | cons a as ih =>
      obtain ⟨s₁, hone, hrest⟩ := foldlM_cons_ok h
      have hwrites : (a :: as).filterMap write = (write a).toList ++ as.filterMap write := by
        cases hw : write a with
        | none => rw [List.filterMap_cons_none hw, Option.toList_none, List.nil_append]
        | some w => rw [List.filterMap_cons_some hw, Option.toList_some, List.singleton_append]
      rw [ih (fun b hb => hstep b (List.mem_cons_of_mem _ hb)) hrest,
        hstep a List.mem_cons_self s s₁ hone, hwrites, lastFor_append]
      cases lastFor k (as.filterMap write) with
      | none => rfl
      | some v => rfl

end Fold
