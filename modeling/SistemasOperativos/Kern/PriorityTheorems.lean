/-
SistemasOperativos.Kern.PriorityTheorems — how high a priority can get.

Priorities are written at creation, by `sys_exofork`, by the aging round,
by the demotion of rule 4 and by `sys_setpriority`. Only the round raises
one, by one. `Lineage` follows a run and keeps three things beside the
states: the slot each environment, or the ancestor it was forked from,
had at the beginning, the number of calls of `sched_yield` and the number
of rounds.
-/
import SistemasOperativos.Kern.CpuTheorems

namespace SistemasOperativos.Kern

/-! ## The specification -/

/-- `e` is allocated. -/
def Live (k : Kernel) (e : EnvIdx) : Prop := (k.envs e).envStatus ≠ .free

/-- An aging round is due at the next call of the scheduler. -/
def roundDue (k : Kernel) : Nat := if k.agingTicks + 1 ≥ agingInterval then 1 else 0

/-- Where an environment of `k'` was in `k`: a slot that was free holds a
child of `cur`. -/
def bornOf (k : Kernel) (cur e : EnvIdx) : EnvIdx :=
  if (k.envs e).envStatus = .free then cur else e

/-- One operation, with its calls of `sched_yield` and its rounds. -/
inductive PriorityStep : Kernel → Kernel → (EnvIdx → EnvIdx) → Nat → Nat → Prop where
  | yield (k : Kernel) (cur : Option EnvIdx) :
      PriorityStep k (schedYield .priorities k cur).1 id 1 (roundDue k)
  | setpriority (k : Kernel) (cur : EnvIdx) (envid priority : Int) (hcur : Live k cur) :
      PriorityStep k (sysSetpriority k cur envid priority).2 id 0 0
  | exofork (k : Kernel) (cur : EnvIdx) (hcur : Live k cur) :
      PriorityStep k (sysExofork k cur).2 (bornOf k cur) 0 0
  | destroy (k k' : Kernel) (cur : EnvIdx) (envid r : Int) (hcur : Live k cur)
      (h : sysEnvDestroy .priorities k cur envid = .ok (.ret r k')) :
      PriorityStep k k' id 0 0
  | exit (k k' : Kernel) (cur : EnvIdx) (envid : Int) (l : Leave) (hcur : Live k cur)
      (h : sysEnvDestroy .priorities k cur envid = .ok (.left l k')) :
      PriorityStep k k' id 1 (roundDue k)
  | reap (k k' : Kernel) (e : EnvIdx) (he : Live k e) (h : envFree k e = .ok k') :
      PriorityStep k k' id 0 0

/-- The operations of a run: ancestors, calls and rounds add up. -/
inductive Lineage (k : Kernel) : Kernel → (EnvIdx → EnvIdx) → Nat → Nat → Prop where
  | refl : Lineage k k id 0 0
  | tail {k₁ k₂ : Kernel} {f g : EnvIdx → EnvIdx} {calls rounds c r : Nat} :
      Lineage k k₁ f calls rounds → PriorityStep k₁ k₂ g c r →
      Lineage k k₂ (f ∘ g) (calls + c) (rounds + r)

/-- Every allocated environment is in range, and so is the aging counter;
the free list holds free slots, each once. -/
structure InRange (k : Kernel) : Prop where
  priority : ∀ e, Live k e → 0 ≤ (k.envs e).priority ∧ (k.envs e).priority ≤ maxPriority
  ticks : 0 ≤ k.agingTicks ∧ k.agingTicks < agingInterval
  slots : Keeps (fun _ => False) k

/-! ## One operation -/

/-- What an operation does: an environment has at most what it, or its
parent, had before it, and one more if there was a round. -/
structure Raises (k k' : Kernel) (origin : EnvIdx → EnvIdx) (calls rounds : Nat) : Prop where
  lower : ∀ e, Live k' e → Live k (origin e) ∧ 0 ≤ (k'.envs e).priority ∧
    (k'.envs e).priority ≤ (k.envs (origin e)).priority + rounds
  upper : ∀ e, Live k' e → (k'.envs e).priority ≤ maxPriority
  ticks : k'.agingTicks + 50 * rounds = k.agingTicks + calls
  tickRange : 0 ≤ k'.agingTicks ∧ k'.agingTicks < agingInterval
  slots : Keeps (fun _ => False) k'

/-- An operation that leaves the priorities of what stays allocated. -/
theorem Raises.of_same {k k' : Kernel} (h : InRange k)
    (hlive : ∀ e, Live k' e → Live k e ∧ (k'.envs e).priority = (k.envs e).priority)
    (hticks : k'.agingTicks = k.agingTicks) (hslots : Keeps (fun _ => False) k') :
    Raises k k' id 0 0 where
  lower := by
    intro e he
    obtain ⟨hl, hp⟩ := hlive e he
    have := (h.priority e hl).1
    refine ⟨hl, ?_, ?_⟩
    · omega
    · simp only [id]
      omega
  upper := by
    intro e he
    obtain ⟨hl, hp⟩ := hlive e he
    rw [hp]
    exact (h.priority e hl).2
  ticks := by
    rw [hticks]
    rfl
  tickRange := by
    rw [hticks]
    exact h.ticks
  slots := hslots

theorem agingRound_ticks (k : Kernel) (h : 0 ≤ k.agingTicks ∧ k.agingTicks < agingInterval) :
    (agingRound k).agingTicks + 50 * roundDue k = k.agingTicks + 1 ∧
      0 ≤ (agingRound k).agingTicks ∧ (agingRound k).agingTicks < agingInterval := by
  unfold agingRound roundDue
  by_cases hdue : k.agingTicks + 1 ≥ agingInterval
  · rw [if_pos hdue, if_pos hdue]
    simp only [agingInterval] at *
    omega
  · rw [if_neg hdue, if_neg hdue]
    simp only [agingInterval] at *
    omega

/-- The dispatch at the end of `sched_yield` frees and allocates nothing
and raises nothing. -/
theorem envRun_priority (k : Kernel) (cur : Option EnvIdx) (e j : EnvIdx)
    (he : Live k e) :
    ((envRun k cur e).envs j).priority = (k.envs j).priority ∧
      (Live (envRun k cur e) j → Live k j) := by
  unfold Live
  rw [envRun_apply]
  split
  · rename_i hj
    subst hj
    exact ⟨rfl, fun _ => he⟩
  · split
    · rename_i hc
      exact ⟨rfl, fun _ => by rw [hc.2]; decide⟩
    · exact ⟨rfl, id⟩

theorem envRun_agingTicks (k : Kernel) (cur : Option EnvIdx) (e : EnvIdx) :
    (envRun k cur e).agingTicks = k.agingTicks := by
  unfold envRun
  cases cur with
  | none => rfl
  | some c =>
      dsimp only
      split <;> rfl

/-- Rule 4 lowers the environment that rule 2 has found. -/
theorem demote_priority {k : Kernel} {e : EnvIdx} {prio : Int} (h : (k.envs e).priority = prio)
    (j : EnvIdx) : ((demote k e prio).envs j).priority ≤ (k.envs j).priority ∧
      (0 ≤ (k.envs j).priority → 0 ≤ ((demote k e prio).envs j).priority) := by
  unfold demote
  split
  · rename_i hlimit
    by_cases hj : j = e
    · subst hj
      rw [Kernel.modifyEnv_self]
      dsimp only
      omega
    · rw [Kernel.modifyEnv_of_ne _ _ hj]
      exact ⟨Int.le_refl _, id⟩
  · exact ⟨Int.le_refl _, id⟩

/-- After the round, `sched_yield` raises nothing. -/
theorem schedYield_priority (k : Kernel) (cur : Option EnvIdx) :
    (schedYield .priorities k cur).1.agingTicks = (agingRound k).agingTicks ∧
      ∀ j, Live (schedYield .priorities k cur).1 j → Live k j ∧
        ((schedYield .priorities k cur).1.envs j).priority ≤ ((agingRound k).envs j).priority ∧
        (0 ≤ ((agingRound k).envs j).priority →
          0 ≤ ((schedYield .priorities k cur).1.envs j).priority) := by
  have hlive : ∀ j, Live (agingRound k) j → Live k j := by
    intro j hj
    unfold Live at *
    rwa [agingRound_status] at hj
  rw [schedYield_priorities]
  split
  · rename_i e hfound
    obtain ⟨-, -, -, hp, -⟩ := find?_circular hfound
    obtain ⟨hrun, hprio⟩ := of_decide_eq_true hp
    set prio := maxPrio k.envs (searchStart k cur)
    set k₁ := countSchedCall (agingRound k) with hk₁
    have hdem := demote_priority (k := k₁) hprio
    have hup := upToPriority_demote k₁ e prio
    have hdlive : ∀ j, Live (demote k₁ e prio) j → Live k j := by
      intro j hj
      refine hlive j ?_
      unfold Live at *
      rwa [hup.status] at hj
    have helive : Live (countEnvRun (demote k₁ e prio) e) e := by
      unfold Live
      show ((demote k₁ e prio).envs e).envStatus ≠ .free
      rw [hup.status]
      show ((agingRound k).envs e).envStatus ≠ .free
      rw [hrun]
      decide
    constructor
    · rw [envRun_agingTicks]
      show (demote k₁ e prio).agingTicks = _
      unfold demote
      split <;> rfl
    · intro j hj
      obtain ⟨hsame, hback⟩ := envRun_priority (countEnvRun (demote k₁ e prio) e) cur e j helive
      refine ⟨hdlive j (hback hj), ?_, ?_⟩
      · rw [hsame]
        exact (hdem j).1
      · rw [hsame]
        exact (hdem j).2
  · have hnone : ∀ j, Live (countSchedCall (agingRound k)) j → Live k j := fun j hj => hlive j hj
    unfold yieldFallback
    cases cur with
    | none => exact ⟨rfl, fun j hj => ⟨hnone j hj, Int.le_refl _, id⟩⟩
    | some c =>
        dsimp only
        split
        · rename_i hc
          have hclive : Live (countEnvRun (countSchedCall (agingRound k)) c) c := by
            unfold Live
            show ((countSchedCall (agingRound k)).envs c).envStatus ≠ .free
            rw [hc]
            decide
          refine ⟨by rw [envRun_agingTicks]; rfl, fun j hj => ?_⟩
          obtain ⟨hsame, hback⟩ :=
            envRun_priority (countEnvRun (countSchedCall (agingRound k)) c) (some c) c j hclive
          refine ⟨hnone j (hback hj), ?_, ?_⟩
          · rw [hsame]
            exact Int.le_refl _
          · rw [hsame]
            exact id
        · exact ⟨rfl, fun j hj => ⟨hnone j hj, Int.le_refl _, id⟩⟩

theorem agingRound_bound {k : Kernel} {e : EnvIdx}
    (h : 0 ≤ (k.envs e).priority ∧ (k.envs e).priority ≤ maxPriority) :
    0 ≤ ((agingRound k).envs e).priority ∧ ((agingRound k).envs e).priority ≤ maxPriority ∧
      ((agingRound k).envs e).priority ≤ (k.envs e).priority + roundDue k := by
  rw [agingRound_priority]
  unfold roundDue
  by_cases hdue : k.agingTicks + 1 ≥ agingInterval
  · rw [if_pos hdue]
    split
    · omega
    · omega
  · rw [if_neg (fun hh => hdue hh.1), if_neg hdue]
    omega

theorem yield_raises {k : Kernel} (h : InRange k) (cur : Option EnvIdx) :
    Raises k (schedYield .priorities k cur).1 id 1 (roundDue k) := by
  obtain ⟨hticks, hall⟩ := schedYield_priority k cur
  obtain ⟨hsum, hrange⟩ := agingRound_ticks k h.ticks
  refine ⟨?_, ?_, ?_, ?_, ?_⟩
  · intro e he
    obtain ⟨hl, hle, hpos⟩ := hall e he
    obtain ⟨h0, -, hup⟩ := agingRound_bound (h.priority e hl)
    exact ⟨hl, hpos h0, Int.le_trans hle hup⟩
  · intro e he
    obtain ⟨hl, hle, -⟩ := hall e he
    exact Int.le_trans hle (agingRound_bound (h.priority e hl)).2.1
  · rw [hticks]
    exact hsum
  · rw [hticks]
    exact hrange
  · exact (schedYield_ends .priorities h.slots (fun _ _ hf => hf)).1

theorem setpriority_le (k : Kernel) (cur : EnvIdx) (envid priority : Int) (e : EnvIdx) :
    ((sysSetpriority k cur envid priority).2.envs e).priority ≤ (k.envs e).priority := by
  unfold sysSetpriority
  split
  · exact Int.le_refl _
  · rename_i t ht
    repeat' split
    · exact Int.le_refl _
    · exact Int.le_refl _
    · exact Int.le_refl _
    · rename_i hle
      by_cases he : e = t
      · subst he
        rw [Kernel.modifyEnv_self]
        exact Int.not_lt.mp hle
      · exact Int.le_of_eq (by rw [Kernel.modifyEnv_of_ne _ _ he])

theorem setpriority_raises {k : Kernel} (h : InRange k) (cur : EnvIdx) (envid priority : Int) :
    Raises k (sysSetpriority k cur envid priority).2 id 0 0 := by
  have hstatus : ∀ e, ((sysSetpriority k cur envid priority).2.envs e).envStatus =
      (k.envs e).envStatus := by
    intro e
    unfold sysSetpriority
    split
    · rfl
    · repeat' split
      · rfl
      · rfl
      · rfl
      · rw [Kernel.modifyEnv_apply]
        split <;> rfl
  have hrest : (sysSetpriority k cur envid priority).2.agingTicks = k.agingTicks ∧
      (sysSetpriority k cur envid priority).2.envFreeList = k.envFreeList := by
    unfold sysSetpriority
    repeat' split
    all_goals exact ⟨rfl, rfl⟩
  have hpos : ∀ e, Live k e →
      0 ≤ ((sysSetpriority k cur envid priority).2.envs e).priority := by
    intro e he
    have h0 := (h.priority e he).1
    unfold sysSetpriority
    split
    · exact h0
    · rename_i t ht
      split
      · exact h0
      · rename_i hneg
        split
        · exact h0
        · split
          · exact h0
          · rw [Kernel.modifyEnv_apply]
            split
            · dsimp only
              omega
            · exact h0
  have hl : ∀ e, Live (sysSetpriority k cur envid priority).2 e → Live k e := by
    intro e he
    unfold Live at *
    rwa [hstatus] at he
  refine ⟨?_, ?_, ?_, ?_, ?_⟩
  · intro e he
    have := setpriority_le k cur envid priority e
    refine ⟨hl e he, hpos e (hl e he), ?_⟩
    simp only [id]
    omega
  · intro e he
    exact Int.le_trans (setpriority_le k cur envid priority e) (h.priority e (hl e he)).2
  · rw [hrest.1]
    rfl
  · rw [hrest.1]
    exact h.ticks
  · exact h.slots.congr hrest.2 hstatus

theorem exofork_raises {k : Kernel} (h : InRange k) {cur : EnvIdx} (hcur : Live k cur) :
    Raises k (sysExofork k cur).2 (bornOf k cur) 0 0 := by
  have hslots := sysExofork_keeps h.slots cur
  have hold : ∀ e, Live k e → bornOf k cur e = e := fun e he => if_neg he
  unfold sysExofork at *
  split
  · -- no slot or no memory: nothing has changed
    refine ⟨?_, fun e he => (h.priority e he).2, rfl, h.ticks, h.slots⟩
    intro e he
    rw [hold e he]
    exact ⟨he, (h.priority e he).1, by simp⟩
  · rename_i e k' halloc
    rw [halloc] at hslots
    obtain ⟨rest, pgdir, mem, hlist, -, rfl⟩ := envAlloc_ok halloc
    have hfree : (k.envs e).envStatus = .free := h.slots.free e (by rw [hlist]; simp)
    have hne : cur ≠ e := by
      rintro rfl
      exact hcur hfree
    have hrange := h.priority cur hcur
    dsimp only at *
    have hothers : ∀ j, j ≠ e → ∀ f g : Env → Env,
        ((({ k with mem := mem, envFreeList := rest } : Kernel).modifyEnv e f).modifyEnv e g).envs j
          = k.envs j := by
      intro j hj f g
      rw [Kernel.modifyEnv_of_ne _ _ hj, Kernel.modifyEnv_of_ne _ _ hj]
    refine ⟨?_, ?_, rfl, h.ticks, hslots⟩
    · intro j hj
      by_cases hje : j = e
      · subst hje
        rw [Kernel.modifyEnv_self, Kernel.modifyEnv_of_ne _ _ hne]
        rw [bornOf, if_pos hfree]
        exact ⟨hcur, hrange.1, by simp⟩
      · unfold Live at hj
        rw [hothers j hje] at hj ⊢
        rw [hold j hj]
        have := h.priority j hj
        exact ⟨hj, this.1, by omega⟩
    · intro j hj
      by_cases hje : j = e
      · subst hje
        rw [Kernel.modifyEnv_self, Kernel.modifyEnv_of_ne _ _ hne]
        exact hrange.2
      · unfold Live at hj
        rw [hothers j hje] at hj ⊢
        exact (h.priority j hj).2

theorem free_raises {k k' : Kernel} (h : InRange k) {e : EnvIdx} (he : Live k e)
    (hf : envFree k e = .ok k') : Raises k k' id 0 0 := by
  have hslots := envFree_keeps h.slots (fun hfalse => hfalse) he hf
  obtain ⟨mem, rfl⟩ := envFree_ok hf
  refine Raises.of_same h ?_ rfl hslots
  intro j hj
  by_cases hje : j = e
  · subst hje
    unfold Live at hj
    rw [Kernel.modifyEnv_self] at hj
    exact absurd rfl hj
  · unfold Live at *
    rw [Kernel.modifyEnv_of_ne _ _ hje] at hj ⊢
    exact ⟨hj, rfl⟩

/-- The range is kept. -/
theorem Raises.inRange {k k' : Kernel} {f : EnvIdx → EnvIdx} {c r : Nat} (h : Raises k k' f c r) :
    InRange k' where
  priority := fun e he => ⟨(h.lower e he).2.1, h.upper e he⟩
  ticks := h.tickRange
  slots := h.slots

/-- Operations one after the other. -/
theorem Raises.trans {k₁ k₂ k₃ : Kernel} {f g : EnvIdx → EnvIdx} {c c' r r' : Nat}
    (h : Raises k₁ k₂ f c r) (h' : Raises k₂ k₃ g c' r') :
    Raises k₁ k₃ (f ∘ g) (c + c') (r + r') where
  lower := by
    intro e he
    obtain ⟨hl', hpos, hle'⟩ := h'.lower e he
    obtain ⟨hl, -, hle⟩ := h.lower (g e) hl'
    refine ⟨hl, hpos, ?_⟩
    simp only [Function.comp]
    omega
  upper := h'.upper
  ticks := by
    have h1 := h.ticks
    have h2 := h'.ticks
    omega
  tickRange := h'.tickRange
  slots := h'.slots

theorem sysEnvDestroy_raises {k : Kernel} (h : InRange k) {cur : EnvIdx} {envid : Int} {o : Outcome}
    (hcur : Live k cur) (ho : sysEnvDestroy .priorities k cur envid = .ok o) :
    (∃ r k', o = .ret r k' ∧ Raises k k' id 0 0) ∨
      ∃ l k', o = .left l k' ∧ Raises k k' id 1 (roundDue k) := by
  unfold sysEnvDestroy at ho
  split at ho
  · cases ho
    exact Or.inl ⟨_, _, rfl, Raises.of_same h (fun e he => ⟨he, rfl⟩) rfl h.slots⟩
  · rename_i e he
    have hlive : Live k e := by
      rcases envid2env_some he with rfl | hs
      · exact hcur
      · exact hs.1
    simp only [bind_ok] at ho
    obtain ⟨⟨k', leave⟩, hd, ho⟩ := ho
    unfold envDestroy at hd
    split at hd
    · cases hd
      cases ho
      refine Or.inl ⟨_, _, rfl, Raises.of_same h ?_ rfl ?_⟩
      · intro j hj
        unfold Live at *
        by_cases hje : j = e
        · subst hje
          rw [Kernel.modifyEnv_self]
          exact ⟨hlive, rfl⟩
        · rw [Kernel.modifyEnv_of_ne _ _ hje] at hj ⊢
          exact ⟨hj, rfl⟩
      · exact h.slots.modifyEnv (fun hfalse => hfalse) hlive _
    · simp only [bind_ok] at hd
      obtain ⟨k₁, hf, hd⟩ := hd
      have hfree := free_raises h hlive hf
      have hdue : roundDue k₁ = roundDue k := by
        have hticks : k₁.agingTicks = k.agingTicks := by
          have := hfree.ticks
          omega
        rw [roundDue, roundDue, hticks]
      split at hd
      · cases hd
        cases ho
        refine Or.inr ⟨_, _, rfl, ?_⟩
        have := hfree.trans (yield_raises hfree.inRange none)
        rw [hdue] at this
        simpa using this
      · cases hd
        cases ho
        exact Or.inl ⟨_, _, rfl, hfree⟩

theorem step_raises {k k' : Kernel} {f : EnvIdx → EnvIdx} {c r : Nat} (h : InRange k)
    (hs : PriorityStep k k' f c r) : Raises k k' f c r := by
  cases hs with
  | yield cur => exact yield_raises h cur
  | setpriority cur envid priority hcur => exact setpriority_raises h cur envid priority
  | exofork cur hcur => exact exofork_raises h hcur
  | destroy _ cur envid r hcur hd =>
      rcases sysEnvDestroy_raises h hcur hd with ⟨r, k', heq, hr⟩ | ⟨l, k', heq, -⟩
      · cases heq
        exact hr
      · cases heq
  | exit _ cur envid l hcur hd =>
      rcases sysEnvDestroy_raises h hcur hd with ⟨r, k', heq, -⟩ | ⟨l, k', heq, hr⟩
      · cases heq
      · cases heq
        exact hr
  | reap _ e he hf => exact free_raises h he hf

/-! ## Runs -/

theorem lineage_raises {k k' : Kernel} {f : EnvIdx → EnvIdx} {c r : Nat} (h : InRange k)
    (hrun : Lineage k k' f c r) : Raises k k' f c r := by
  induction hrun with
  | refl => exact Raises.of_same h (fun e he => ⟨he, rfl⟩) rfl h.slots
  | tail _ hstep ih => exact ih.trans (step_raises ih.inRange hstep)

/-- No process can promote itself: at every point of a run every
allocated environment is in range, `sys_setpriority` raises nobody, and an
environment has at most what it or its ancestor had at any earlier point,
plus the rounds since, of which there is at most one in fifty calls. -/
theorem priority_rises_by_aging_only {k₀ k₁ k₂ : Kernel} {f origin : EnvIdx → EnvIdx}
    {c r calls rounds : Nat} (h₀ : InRange k₀) (hpast : Lineage k₀ k₁ f c r)
    (hrun : Lineage k₁ k₂ origin calls rounds) :
    (∀ e, Live k₂ e → 0 ≤ (k₂.envs e).priority ∧ (k₂.envs e).priority ≤ maxPriority) ∧
    (∀ cur envid priority e,
      ((sysSetpriority k₂ cur envid priority).2.envs e).priority ≤ (k₂.envs e).priority) ∧
    (∀ e, Live k₂ e → Live k₁ (origin e) ∧
      (k₂.envs e).priority ≤ (k₁.envs (origin e)).priority + rounds) ∧
    (rounds : Int) ≤ (calls + agingInterval - 1) / agingInterval := by
  have h₁ := (lineage_raises h₀ hpast).inRange
  have hr := lineage_raises h₁ hrun
  refine ⟨hr.inRange.priority, fun cur envid priority e => setpriority_le k₂ cur envid priority e,
    fun e he => ⟨(hr.lower e he).1, (hr.lower e he).2.2⟩, ?_⟩
  have hsum := hr.ticks
  have hstart := h₁.ticks
  have hend := hr.tickRange
  simp only [agingInterval] at *
  omega

/-- Slot 0 lowers itself to 3 and forks; the child in slot 1 has 3. -/
theorem child_priority_bounded :
    (((sysExofork (sysSetpriority oneEnv 0 0 3).2 0).2.envs 1).priority ≤
      (oneEnv.envs (bornOf (sysSetpriority oneEnv 0 0 3).2 0 1)).priority + 0) ∧
    ((sysExofork (sysSetpriority oneEnv 0 0 3).2 0).2.envs 1).priority = 3 := by
  have h₀ : InRange oneEnv := by
    refine ⟨?_, by decide, ?_⟩
    · intro e he
      by_cases h0 : e = 0
      · subst h0
        decide
      · exact absurd (by simp [oneEnv, h0]) he
    · have hboot := bootMachine_booted 1
      exact ⟨fun e he => he.elim, hboot.free, hboot.nodup⟩
  have hlive : Live oneEnv 0 := by
    unfold Live
    decide
  have hlive' : Live (sysSetpriority oneEnv 0 0 3).2 0 := by
    unfold Live
    decide +kernel
  have hrun := (Lineage.refl.tail (PriorityStep.setpriority oneEnv 0 0 3 hlive)).tail
    (PriorityStep.exofork _ 0 hlive')
  have hone : Live (sysExofork (sysSetpriority oneEnv 0 0 3).2 0).2 1 := by
    unfold Live
    decide +kernel
  refine ⟨?_, by decide +kernel⟩
  exact ((priority_rises_by_aging_only h₀ Lineage.refl hrun).2.2.1 1 hone).2

end SistemasOperativos.Kern
