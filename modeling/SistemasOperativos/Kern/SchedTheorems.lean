/-
SistemasOperativos.Kern.SchedTheorems — what the priority scheduler
dispatches.

Rule 1 takes the maximum before the aging round of rule 5 and rule 2
searches for it afterwards. The two agree when no round is due, or when
the maximum is `MAX_PRIORITY`, which the round does not raise. On every
other call the search looks for a priority that no runnable environment
of the highest level has any more.
-/
import SistemasOperativos.Kern.Sched
import Mathlib.Tactic.Common

namespace SistemasOperativos.Kern

/-! ## The circular order -/

theorem circular_eq (start : Nat) : circular start = (List.range nenv).map (slotAt start) := by
  unfold circular
  rfl

theorem slotAt_surj (start : Nat) (e : EnvIdx) : ∃ i < nenv, slotAt start i = e := by
  refine ⟨(e + (nenv - start % nenv)) % nenv, Nat.mod_lt _ (by decide), Fin.ext ?_⟩
  have he := e.isLt
  simp only [slotAt, nenv] at *
  omega

theorem mem_circular (start : Nat) (e : EnvIdx) : e ∈ circular start := by
  obtain ⟨i, hi, rfl⟩ := slotAt_surj start e
  rw [circular_eq, List.mem_map]
  exact ⟨i, List.mem_range.mpr hi, rfl⟩

/-- The first environment from `start` on that has the property. -/
def FirstFrom (start : Nat) (P : EnvIdx → Prop) (e : EnvIdx) : Prop :=
  ∃ i < nenv, slotAt start i = e ∧ P e ∧ ∀ j < i, ¬ P (slotAt start j)

theorem find?_circular {start : Nat} {p : EnvIdx → Bool} {e : EnvIdx}
    (h : (circular start).find? p = some e) : FirstFrom start (fun e => p e = true) e := by
  rw [circular_eq, List.find?_map, Option.map_eq_some_iff] at h
  obtain ⟨i, hi, rfl⟩ := h
  rw [List.find?_range_eq_some] at hi
  obtain ⟨hp, hmem, hbefore⟩ := hi
  refine ⟨i, List.mem_range.mp hmem, rfl, hp, ?_⟩
  intro j hj
  simpa using hbefore j hj

/-! ## Rule 1 -/

/-- The loop over a list, from any value of the accumulator. -/
theorem foldl_maxPrio (envs : EnvIdx → Env) (l : List EnvIdx) (m : Int) :
    let r := l.foldl (fun m e =>
      if (envs e).envStatus = .runnable ∧ (envs e).priority > m then (envs e).priority else m) m
    m ≤ r ∧ (∀ e ∈ l, (envs e).envStatus = .runnable → (envs e).priority ≤ r) ∧
      (r = m ∨ ∃ e ∈ l, (envs e).envStatus = .runnable ∧ (envs e).priority = r) := by
  induction l generalizing m with
  | nil => simp
  | cons x l ih =>
      dsimp only
      rw [List.foldl_cons]
      by_cases hx : (envs x).envStatus = .runnable ∧ (envs x).priority > m
      · rw [if_pos hx]
        obtain ⟨hle, hall, hatt⟩ := ih (envs x).priority
        refine ⟨by omega, ?_, ?_⟩
        · intro e he hrun
          rcases List.mem_cons.mp he with rfl | he
          · exact hle
          · exact hall e he hrun
        · rcases hatt with heq | ⟨e, he, hrun, heq⟩
          · exact Or.inr ⟨x, by simp, hx.1, heq.symm⟩
          · exact Or.inr ⟨e, by simp [he], hrun, heq⟩
      · rw [if_neg hx]
        obtain ⟨hle, hall, hatt⟩ := ih m
        refine ⟨hle, ?_, ?_⟩
        · intro e he hrun
          rcases List.mem_cons.mp he with rfl | he
          · rw [not_and] at hx
            have := hx hrun
            omega
          · exact hall e he hrun
        · rcases hatt with heq | ⟨e, he, hrun, heq⟩
          · exact Or.inl heq
          · exact Or.inr ⟨e, by simp [he], hrun, heq⟩

/-- Rule 1 finds the highest priority of a runnable environment. -/
theorem maxPrio_spec (envs : EnvIdx → Env) (start : Nat)
    (hrange : ∀ e, 0 ≤ (envs e).priority) (hrun : ∃ e, (envs e).envStatus = .runnable) :
    (∀ e, (envs e).envStatus = .runnable → (envs e).priority ≤ maxPrio envs start) ∧
      ∃ e, (envs e).envStatus = .runnable ∧ (envs e).priority = maxPrio envs start := by
  obtain ⟨-, hall, hatt⟩ := foldl_maxPrio envs (circular start) (-1)
  have hle : ∀ e, (envs e).envStatus = .runnable → (envs e).priority ≤ maxPrio envs start :=
    fun e he => hall e (mem_circular start e) he
  refine ⟨hle, ?_⟩
  rcases hatt with hnone | ⟨e, -, he, heq⟩
  · obtain ⟨e, he⟩ := hrun
    have h1 := hle e he
    have h2 := hrange e
    have h3 : maxPrio envs start = -1 := hnone
    omega
  · exact ⟨e, he, heq⟩

/-! ## Rule 5 -/

theorem agingRound_status (k : Kernel) (e : EnvIdx) :
    ((agingRound k).envs e).envStatus = (k.envs e).envStatus := by
  unfold agingRound
  split
  · dsimp only [ageEnv]
    split <;> rfl
  · rfl

/-- A round raises every environment below the top by one. -/
theorem agingRound_priority (k : Kernel) (e : EnvIdx) :
    ((agingRound k).envs e).priority =
      if k.agingTicks + 1 ≥ agingInterval ∧ (k.envs e).envStatus ≠ .free ∧
        (k.envs e).priority < maxPriority then (k.envs e).priority + 1
      else (k.envs e).priority := by
  unfold agingRound
  by_cases hdue : k.agingTicks + 1 ≥ agingInterval
  · rw [if_pos hdue]
    dsimp only [ageEnv]
    by_cases hup : (k.envs e).envStatus ≠ .free ∧ (k.envs e).priority < maxPriority
    · rw [if_pos hup, if_pos ⟨hdue, hup⟩]
    · rw [if_neg hup, if_neg (fun h => hup h.2)]
  · rw [if_neg hdue, if_neg (fun h => hdue h.1)]

/-! ## The choice -/

/-- The runnable environments that no runnable environment outranks. -/
def Highest (envs : EnvIdx → Env) (e : EnvIdx) : Prop :=
  (envs e).envStatus = .runnable ∧
    ∀ j, (envs j).envStatus = .runnable → (envs j).priority ≤ (envs e).priority

/-- The index after the current environment. -/
def afterCurrent : Option EnvIdx → Nat
  | some c => c + 1
  | none => 0

/-- `sched_yield` dispatches the first environment after the current one
that nothing outranks when the choice is made, that is, after rule 5. -/
def DispatchesHighest (k : Kernel) (curenv : Option EnvIdx) : Prop :=
  ∃ e, (schedYield .priorities k curenv).2 = .run e ∧
    FirstFrom (afterCurrent curenv) (Highest (agingRound k).envs) e

theorem agingRound_countSchedCall (k : Kernel) :
    agingRound (countSchedCall k) = countSchedCall (agingRound k) := by
  have hticks : (countSchedCall k).agingTicks = k.agingTicks := rfl
  unfold agingRound
  rw [hticks]
  by_cases hdue : k.agingTicks + 1 ≥ agingInterval
  · rw [if_pos hdue, if_pos hdue]
    rfl
  · rw [if_neg hdue, if_neg hdue]
    rfl

/-- A call, after the statistics have been put aside: the search after
the round is for the maximum before it. -/
theorem schedYield_priorities (k : Kernel) (curenv : Option EnvIdx) :
    schedYield .priorities k curenv =
      match findPrio (agingRound k).envs (searchStart k curenv)
        (maxPrio k.envs (searchStart k curenv)) with
      | some e =>
          (envRun (countEnvRun (demote (countSchedCall (agingRound k)) e
            (maxPrio k.envs (searchStart k curenv))) e) curenv e, .run e)
      | none => yieldFallback (countSchedCall (agingRound k)) curenv := by
  unfold schedYield
  simp only [agingRound_countSchedCall]
  rfl

/-- Falling back dispatches an environment that was running already. -/
theorem yieldFallback_run {k : Kernel} {curenv : Option EnvIdx} {e : EnvIdx}
    (h : (yieldFallback k curenv).2 = .run e) : (k.envs e).envStatus = .running := by
  have hhalt : schedHalt k ≠ .run e := by
    unfold schedHalt
    split <;> simp
  unfold yieldFallback at h
  split at h
  · split at h
    · rename_i hc
      cases h
      exact hc
    · exact absurd h hhalt
  · exact absurd h hhalt

/-- Rule 2 finds the maximum when some runnable environment has it. -/
theorem findPrio_spec (envs : EnvIdx → Env) (start : Nat) {prio : Int}
    (h : ∃ e, (envs e).envStatus = .runnable ∧ (envs e).priority = prio) :
    ∃ e, findPrio envs start prio = some e ∧
      FirstFrom start (fun e => (envs e).envStatus = .runnable ∧ (envs e).priority = prio) e := by
  cases hf : findPrio envs start prio with
  | none =>
      obtain ⟨e, he⟩ := h
      unfold findPrio at hf
      rw [List.find?_eq_none] at hf
      exact absurd (decide_eq_true he) (hf e (mem_circular start e))
  | some e =>
      have hfirst := find?_circular hf
      simp only [decide_eq_true_eq] at hfirst
      exact ⟨e, rfl, hfirst⟩

theorem searchStart_eq {k : Kernel} {curenv : Option EnvIdx}
    (hid : ∀ c, curenv = some c → envx (k.envs c).envId = c) :
    searchStart k curenv = afterCurrent curenv := by
  cases curenv with
  | none => rfl
  | some c => rw [searchStart, hid c rfl, afterCurrent]

/-- With priorities in range and some environment runnable, the choice is
right exactly when no aging round is due or some runnable environment is
at the top already. -/
theorem dispatchesHighest_iff (k : Kernel) (curenv : Option EnvIdx)
    (hprio : ∀ e, 0 ≤ (k.envs e).priority ∧ (k.envs e).priority ≤ maxPriority)
    (hid : ∀ c, curenv = some c → envx (k.envs c).envId = c)
    (hrun : ∃ e, (k.envs e).envStatus = .runnable) :
    DispatchesHighest k curenv ↔
      k.agingTicks + 1 < agingInterval ∨
        ∃ e, (k.envs e).envStatus = .runnable ∧ (k.envs e).priority = maxPriority := by
  obtain ⟨hmax, m, hm, hmeq⟩ := maxPrio_spec k.envs (searchStart k curenv)
    (fun e => (hprio e).1) hrun
  set prio := maxPrio k.envs (searchStart k curenv) with hdef
  constructor
  · -- a round is due and the maximum is below the top: it has moved up
    rintro ⟨e, hdisp, i, -, -, hhigh, -⟩
    by_contra hbad
    rw [not_or, not_exists] at hbad
    obtain ⟨hdue, hnone⟩ := hbad
    have hbelow : prio < maxPriority := by
      have := (hprio m).2
      rcases Int.lt_or_eq_of_le this with hlt | heq
      · omega
      · exact absurd ⟨hm, heq⟩ (hnone m)
    have hup : ((agingRound k).envs m).priority = prio + 1 := by
      rw [agingRound_priority, if_pos ⟨Int.not_lt.mp hdue, by rw [hm]; decide, by omega⟩, hmeq]
    have hm' : ((agingRound k).envs m).envStatus = .runnable := by rw [agingRound_status, hm]
    have hle := hhigh.2 m hm'
    rw [schedYield_priorities, ← hdef] at hdisp
    split at hdisp
    · rename_i e' hfound
      obtain ⟨-, -, -, hp, -⟩ := find?_circular hfound
      rw [decide_eq_true_eq] at hp
      cases hdisp
      omega
    · have hrunning := yieldFallback_run hdisp
      replace hrunning : ((agingRound k).envs e).envStatus = .running := hrunning
      rw [hhigh.1] at hrunning
      cases hrunning
  · intro hgood
    have hkeep : ∀ j, (k.envs j).envStatus = .runnable → (k.envs j).priority = prio →
        ((agingRound k).envs j).priority = prio := by
      intro j hj heq
      rw [agingRound_priority, if_neg, heq]
      rintro ⟨hdue, -, hlt⟩
      rcases hgood with hno | ⟨t, ht, htop⟩
      · omega
      · have := hmax t ht
        omega
    have hle : ∀ j, ((agingRound k).envs j).envStatus = .runnable →
        ((agingRound k).envs j).priority ≤ prio := by
      intro j hj
      rw [agingRound_status] at hj
      have := hmax j hj
      rw [agingRound_priority]
      split
      · rename_i hdue
        rcases hgood with hno | ⟨t, ht, htop⟩
        · omega
        · have := hmax t ht
          omega
      · exact this
    obtain ⟨e, hfound, i, hi, hslot, ⟨herun, heprio⟩, hbefore⟩ :=
      findPrio_spec (agingRound k).envs (searchStart k curenv)
        ⟨m, by rw [agingRound_status, hm], hkeep m hm hmeq⟩
    refine ⟨e, ?_, i, hi, ?_, ⟨herun, ?_⟩, ?_⟩
    · rw [schedYield_priorities, ← hdef, hfound]
    · rw [← searchStart_eq hid, hslot]
    · intro j hj
      rw [heprio]
      exact hle j hj
    · intro j hj hhigh
      refine hbefore j hj ?_
      rw [searchStart_eq hid]
      refine ⟨hhigh.1, Int.le_antisymm (hle _ hhigh.1) ?_⟩
      rw [← heprio]
      exact hhigh.2 e herun

/-- Two environments: number 0, at priority `p`, is running and number 1,
at priority `q`, is runnable. -/
def twoEnvs (p q ticks : Int) : Kernel where
  envs e :=
    if e = 0 then { envId := 4096, envStatus := .running, priority := p }
    else if e = 1 then { envId := 4097, envStatus := .runnable, priority := q }
    else {}
  envFreeList := (List.finRange nenv).drop 2
  agingTicks := ticks
  mem := { npages := 0, kernPgdir := 0, frames := fun _ _ => 0, ppRef := fun _ => 0,
           pageFreeList := [] }

theorem twoEnvs_range {p q ticks : Int} (hp : 0 ≤ p ∧ p ≤ 8) (hq : 0 ≤ q ∧ q ≤ 8) (e : EnvIdx) :
    0 ≤ ((twoEnvs p q ticks).envs e).priority ∧
      ((twoEnvs p q ticks).envs e).priority ≤ maxPriority := by
  simp only [twoEnvs]
  split
  · exact hp
  · split
    · exact hq
    · decide

/-- With the runnable environment at the top the round does no harm. -/
theorem dispatchesHighest_at_top : DispatchesHighest (twoEnvs 3 8 49) (some 0) :=
  (dispatchesHighest_iff (twoEnvs 3 8 49) (some 0)
    (twoEnvs_range (by decide) (by decide))
    (fun c hc => by cases hc; rfl) ⟨1, rfl⟩).mpr (Or.inr ⟨1, rfl, rfl⟩)

/-- On the fiftieth call the only runnable environment, at priority 5, is
not dispatched: the running one is. -/
theorem runnable_passed_over :
    (∀ e, 0 ≤ ((twoEnvs 3 5 49).envs e).priority ∧
      ((twoEnvs 3 5 49).envs e).priority ≤ maxPriority) ∧
    ((twoEnvs 3 5 49).envs 1).envStatus = .runnable ∧
    (schedYield .priorities (twoEnvs 3 5 49) (some 0)).2 = .run 0 ∧
    ¬ DispatchesHighest (twoEnvs 3 5 49) (some 0) := by
  have hyield : (schedYield .priorities (twoEnvs 3 5 49) (some 0)).2 = .run 0 := by
    decide +kernel
  refine ⟨twoEnvs_range (by decide) (by decide), rfl, hyield, ?_⟩
  rintro ⟨e, hdisp, i, -, -, hhigh, -⟩
  rw [hyield] at hdisp
  cases hdisp
  have hstatus := hhigh.1
  rw [agingRound_status] at hstatus
  cases hstatus

end SistemasOperativos.Kern
