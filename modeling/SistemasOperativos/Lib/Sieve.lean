/-
SistemasOperativos.Lib.Sieve — the sieve as a function on lists.

`sieve` takes the first number, drops its multiples and goes on with the
rest. On the numbers from 2 on it gives the primes: after the numbers
below `k` have had their turn, what is left is what has no prime factor
below `k`.
-/
import Mathlib.Data.Nat.Prime.Basic

namespace Sieve

def sieve : List Nat → List Nat
  | [] => []
  | p :: xs => p :: sieve (xs.filter (fun n => n % p ≠ 0))
termination_by xs => xs.length
decreasing_by
  rw [List.length_unattach]
  refine Nat.lt_succ_of_le (Nat.le_trans (List.length_filter_le _ _) ?_)
  rw [List.length_attach]

@[simp] theorem sieve_nil : sieve [] = [] := by
  rw [sieve]

theorem sieve_cons (p : Nat) (xs : List Nat) :
    sieve (p :: xs) = p :: sieve (xs.filter (fun n => n % p ≠ 0)) := by
  rw [sieve]

theorem minFac_ne_of_not_prime {k n : Nat} (hk : ¬ k.Prime) (hn : n ≠ 1) : n.minFac ≠ k := by
  rintro rfl
  exact hk (Nat.minFac_prime hn)

/-- Of the numbers above a prime `k`, those it does not divide. -/
theorem lt_minFac_iff {k n : Nat} (hk : k.Prime) :
    k + 1 ≤ n.minFac ↔ k ≤ n.minFac ∧ n % k ≠ 0 := by
  rw [ne_eq, ← Nat.dvd_iff_mod_eq_zero]
  constructor
  · intro hlt
    refine ⟨Nat.le_of_succ_le hlt, fun hdvd => ?_⟩
    have hle := Nat.minFac_le_of_dvd hk.two_le hdvd
    omega
  · rintro ⟨hle, hnot⟩
    refine Nat.lt_of_le_of_ne hle ?_
    rintro heq
    exact hnot (heq ▸ n.minFac_dvd)

/-- What is left when the numbers below `k` have had their turn. -/
theorem sieve_left (m : Nat) : ∀ k, 2 ≤ k →
    sieve ((List.range' k m).filter (fun n => k ≤ n.minFac)) =
      (List.range' k m).filter (fun n => n.Prime) := by
  induction m with
  | zero =>
      intro k _
      simp
  | succ m ih =>
      intro k hk
      rw [List.range'_succ]
      by_cases hp : k.Prime
      · have hnext : ((List.range' (k + 1) m).filter (fun n => k ≤ n.minFac)).filter
            (fun n => n % k ≠ 0) = (List.range' (k + 1) m).filter (fun n => k + 1 ≤ n.minFac) := by
          rw [List.filter_filter]
          refine List.filter_congr (fun n _ => ?_)
          rw [decide_eq_decide.2 (lt_minFac_iff hp), Bool.decide_and, Bool.and_comm]
        rw [List.filter_cons_of_pos (by simp [hp.minFac_eq]), List.filter_cons_of_pos (by simpa using hp),
          sieve_cons, hnext, ih (k + 1) (Nat.le_succ_of_le hk)]
      · have hlt : k.minFac < k := by
          refine Nat.lt_of_le_of_ne (Nat.minFac_le (by omega)) (fun heq => ?_)
          exact minFac_ne_of_not_prime hp (by omega) heq
        have hnext : (List.range' (k + 1) m).filter (fun n => k ≤ n.minFac) =
            (List.range' (k + 1) m).filter (fun n => k + 1 ≤ n.minFac) := by
          refine List.filter_congr (fun n hn => decide_eq_decide.2 ?_)
          have hne := minFac_ne_of_not_prime hp (n := n) (by
            have := (List.mem_range'_1.1 hn).1
            omega)
          omega
        rw [List.filter_cons_of_neg (by simpa using hlt), List.filter_cons_of_neg (by simpa using hp),
          hnext, ih (k + 1) (Nat.le_succ_of_le hk)]

/-- The sieve of the numbers from 2 on is the primes among them. -/
theorem sieve_eq_primes (m : Nat) :
    sieve (List.range' 2 m) = (List.range' 2 m).filter (fun n => n.Prime) := by
  have hall : (List.range' 2 m).filter (fun n => 2 ≤ n.minFac) = List.range' 2 m := by
    refine List.filter_eq_self.2 (fun n hn => ?_)
    have hn2 := (List.mem_range'_1.1 hn).1
    exact decide_eq_true (Nat.minFac_prime (by omega)).two_le
  rw [← sieve_left m 2 (Nat.le_refl 2), hall]

end Sieve
