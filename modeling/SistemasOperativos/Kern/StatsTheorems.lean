/-
SistemasOperativos.Kern.StatsTheorems — what the statistics of the
scheduler count.

`runs_per_env` is indexed by slot and nothing clears it, while
`sched_stats_dump` prints it beside the id of whoever had the slot last.
A run is followed with the history of its calls of `sched_yield`: the
counters are the counts of that history by slot, and the counts by id
are the same as long as no slot changes hands after it was dispatched.
-/
import SistemasOperativos.Kern.EnvIdTheorems
import Mathlib.Algebra.BigOperators.Group.Finset.Basic
import Mathlib.Algebra.BigOperators.Fin

namespace SistemasOperativos.Kern

/-! ## The specification -/

/-- How a call of `sched_yield` ended: with the environment of this id, or
in `sched_halt`. -/
inductive SchedEvent where
  | dispatch (id : Int)
  | halt
  deriving DecidableEq, Repr

def eventOf (k : Kernel) : Leave → SchedEvent
  | .run e => .dispatch (k.envs e).envId
  | .halt => .halt
  | .monitor => .halt

/-- The runs of allocations, frees and calls of `sched_yield`, with the
history of the calls; `A` is asked of the slot of every allocation. Other
code may run in between. -/
inductive StatsRun (sched : Scheduler) (A : Kernel → EnvIdx → Prop) (k₀ : Kernel) :
    List SchedEvent → Kernel → Prop where
  | boot : k₀.schedStats = {} → StatsRun sched A k₀ [] (envInit k₀)
  | alloc {log : List SchedEvent} {k k' : Kernel} {parentId : Int} {e : EnvIdx} :
      StatsRun sched A k₀ log k → envAlloc k parentId = .ok (e, k') → A k e →
      StatsRun sched A k₀ log k'
  | free {log : List SchedEvent} {k k' : Kernel} {e : EnvIdx} :
      StatsRun sched A k₀ log k → (k.envs e).envStatus ≠ .free → envFree k e = .ok k' →
      StatsRun sched A k₀ log k'
  | yield {log : List SchedEvent} {k : Kernel} (cur : Option EnvIdx) :
      StatsRun sched A k₀ log k →
      StatsRun sched A k₀ (log ++ [eventOf k (schedYield sched k cur).2])
        (schedYield sched k cur).1
  | other {log : List SchedEvent} {k k' : Kernel} :
      StatsRun sched A k₀ log k → Quiet k k' → k'.schedStats = k.schedStats →
      StatsRun sched A k₀ log k'

/-- No environment of the slot has been dispatched. -/
def FirstUse (k : Kernel) (e : EnvIdx) : Prop := k.schedStats.runsPerEnv e = 0

/-- The rows that `sched_stats_dump` prints are about the environments
whose ids they show, and every call has been counted. -/
structure PerProcess (sched : Scheduler) (log : List SchedEvent) (k : Kernel) : Prop where
  rows : ∀ row ∈ (schedStatsDump sched k).rows,
    row.id = (k.envs row.idx).envId ∧ row.runs = log.count (.dispatch row.id)
  total : (∑ e, k.schedStats.runsPerEnv e) + log.count .halt = k.schedStats.nSchedCalls

/-! ## Histories -/

/-- The slot a call dispatched. -/
def SchedEvent.slot : SchedEvent → Option EnvIdx
  | .dispatch id => some (envx id)
  | .halt => none

/-- The calls that dispatched an environment of slot `e`. -/
def slotRuns (e : EnvIdx) (log : List SchedEvent) : Nat := log.countP (fun ev => ev.slot = some e)

theorem slotRuns_snoc (e : EnvIdx) (log : List SchedEvent) (ev : SchedEvent) :
    slotRuns e (log ++ [ev]) = slotRuns e log + if ev.slot = some e then 1 else 0 := by
  simp [slotRuns, List.countP_append, List.countP_singleton]

theorem slotRuns_le (e : EnvIdx) (log : List SchedEvent) : slotRuns e log ≤ log.length :=
  List.countP_le_length

/-- Every call is counted once, for a slot or as a halt. -/
theorem sum_slotRuns (log : List SchedEvent) :
    (∑ e, slotRuns e log) + log.count .halt = log.length := by
  induction log with
  | nil => simp [slotRuns]
  | cons ev log ih =>
      have hcons : ∀ e, slotRuns e (ev :: log) =
          slotRuns e log + if ev.slot = some e then 1 else 0 := by
        intro e
        simp [slotRuns, List.countP_cons]
      simp only [hcons, Finset.sum_add_distrib, List.count_cons, List.length_cons]
      cases ev with
      | dispatch id =>
          simp only [SchedEvent.slot, Option.some.injEq, Finset.sum_ite_eq, Finset.mem_univ]
          simp
          omega
      | halt =>
          simp [SchedEvent.slot]
          omega

/-! ## One call -/

variable {sched : Scheduler} {A : Kernel → EnvIdx → Prop} {k₀ k k' : Kernel}
  {log : List SchedEvent} {e : EnvIdx}

theorem UpToPriority.id_eq (h : UpToPriority k k') (e : EnvIdx) :
    (k'.envs e).envId = (k.envs e).envId := by
  rw [h.env e]

/-- `env_run` changes the statuses of environments that are allocated. -/
theorem quiet_envRun {cur : Option EnvIdx} (he : (k.envs e).envStatus ≠ .free) :
    Quiet k (envRun k cur e) where
  list := envRun_envFreeList k cur e
  id j := by
    rw [envRun_apply]
    split
    · rename_i hj
      rw [hj]
    · split <;> rfl
  free j := by
    rw [envRun_apply]
    split
    · rename_i hj
      subst hj
      simp [he]
    · split
      · rename_i hc
        simp [hc.2]
      · rfl

theorem UpToPriority.quiet (h : UpToPriority k k') : Quiet k k' where
  list := h.freeList
  id := h.id_eq
  free e := by rw [h.status]

theorem Quiet.trans {k₁ k₂ k₃ : Kernel} (h : Quiet k₁ k₂) (h' : Quiet k₂ k₃) : Quiet k₁ k₃ where
  list := h'.list.trans h.list
  id e := (h'.id e).trans (h.id e)
  free e := (h'.free e).trans (h.free e)

/-- A call of the scheduler allocates and frees nothing. It counts itself,
and the slot of the environment that it dispatches, which is allocated. -/
theorem schedYield_stats (sched : Scheduler) (k : Kernel) (cur : Option EnvIdx) :
    Quiet k (schedYield sched k cur).1 ∧
      (schedYield sched k cur).1.schedStats.nSchedCalls = u64 (k.schedStats.nSchedCalls + 1) ∧
      (∀ e, (schedYield sched k cur).1.schedStats.runsPerEnv e =
        if (eventOf k (schedYield sched k cur).2).slot = some e then
          u64 (k.schedStats.runsPerEnv e + 1)
        else k.schedStats.runsPerEnv e) ∧
      ∀ id, eventOf k (schedYield sched k cur).2 = .dispatch id →
        ∃ e, (k.envs e).envStatus ≠ .free ∧ (k.envs e).envId = id := by
  obtain ⟨k₁, hk₁, hstats, ⟨e, he, heq⟩ | heq | heq⟩ := schedYield_counted sched k cur
  · have hlive : (k.envs e).envStatus ≠ .free := by
      rcases he with he | ⟨-, he⟩
      · rw [he]
        decide
      · rw [he]
        decide
    have hcounted := hk₁.trans (upToPriority_countEnvRun k₁ e)
    have hid : (k₁.envs e).envId = (k.envs e).envId := hk₁.id_eq e
    rw [heq]
    refine ⟨hcounted.quiet.trans (quiet_envRun (by rw [hcounted.status]; exact hlive)), ?_, ?_, ?_⟩
    · rw [envRun_schedStats]
      simp only [countEnvRun]
      split <;> rw [hstats] <;> rfl
    · intro j
      have hruns : k₁.schedStats.runsPerEnv = k.schedStats.runsPerEnv := by
        rw [hstats]
        rfl
      rw [envRun_schedStats]
      simp only [countEnvRun, eventOf, SchedEvent.slot, Option.some.injEq, hid, hruns]
      by_cases hj : envx (k.envs e).envId = j
      · subst hj
        split <;> simp [hruns]
      · split <;> simp [Ne.symm hj, hruns]
    · intro id hev
      simp only [eventOf, SchedEvent.dispatch.injEq] at hev
      exact ⟨e, hlive, hev⟩
  all_goals
    rw [heq]
    refine ⟨hk₁.quiet, ?_, ?_, ?_⟩
    · rw [hstats]
      rfl
    · intro j
      rw [hstats]
      simp [eventOf, SchedEvent.slot, countSchedCall]
    · intro id hev
      cases hev

/-! ## Whole runs -/

/-- The ids of a run are those of its allocations. -/
theorem StatsRun.envLife (hrun : StatsRun sched A k₀ log k) : ∃ ids, EnvLife k₀ ids k := by
  induction hrun with
  | boot _ => exact ⟨[], .init⟩
  | alloc _ halloc _ ih =>
      obtain ⟨ids, hlife⟩ := ih
      exact ⟨_, hlife.alloc halloc⟩
  | free _ hlive hfree ih =>
      obtain ⟨ids, hlife⟩ := ih
      exact ⟨ids, hlife.free hlive hfree⟩
  | yield cur _ ih =>
      obtain ⟨ids, hlife⟩ := ih
      exact ⟨ids, hlife.other (schedYield_stats sched _ cur).1⟩
  | other _ hq _ ih =>
      obtain ⟨ids, hlife⟩ := ih
      exact ⟨ids, hlife.other hq⟩

theorem StatsRun.envx_id (hrun : StatsRun sched A k₀ log k)
    (hlive : (k.envs e).envStatus ≠ .free) : envx (k.envs e).envId = e := by
  obtain ⟨ids, hlife⟩ := hrun.envLife
  obtain ⟨n, -, hid⟩ := hlife.freshIds.live_id hlive
  rw [hid, envx_idAt]

theorem envAlloc_schedStats {parentId : Int} (h : envAlloc k parentId = .ok (e, k')) :
    k'.schedStats = k.schedStats := by
  obtain ⟨rest, pgdir, mem, -, -, rfl⟩ := envAlloc_ok h
  rfl

theorem envFree_schedStats (h : envFree k e = .ok k') : k'.schedStats = k.schedStats := by
  obtain ⟨mem, rfl⟩ := envFree_ok h
  rfl

theorem u64_of_lt {n : Nat} (h : n < 2 ^ 64) : u64 n = n := by
  unfold u64
  exact Nat.mod_eq_of_lt h

/-- Fewer than `2^64` calls: no counter has wrapped. -/
theorem StatsRun.counts (hrun : StatsRun sched A k₀ log k) (hcalls : log.length < 2 ^ 64) :
    k.schedStats.nSchedCalls = log.length ∧
      ∀ e, k.schedStats.runsPerEnv e = slotRuns e log := by
  induction hrun with
  | boot hzero =>
      have hstats : (envInit k₀).schedStats = {} := hzero
      rw [hstats]
      exact ⟨rfl, fun _ => rfl⟩
  | alloc _ halloc _ ih =>
      rw [envAlloc_schedStats halloc]
      exact ih hcalls
  | free _ _ hfree ih =>
      rw [envFree_schedStats hfree]
      exact ih hcalls
  | @yield log k cur _ ih =>
      rw [List.length_append, List.length_singleton] at hcalls
      obtain ⟨hn, hruns⟩ := ih (by omega)
      obtain ⟨-, hn', hruns', -⟩ := schedYield_stats sched k cur
      refine ⟨?_, ?_⟩
      · rw [hn', hn, List.length_append, List.length_singleton, u64_of_lt hcalls]
      · intro e
        have hle := slotRuns_le e log
        rw [hruns', slotRuns_snoc, hruns e]
        split
        · rw [u64_of_lt (by omega)]
        · rfl
  | other _ _ hstats ih =>
      rw [hstats]
      exact ih hcalls

/-- While every slot that was dispatched has kept its environment, the ids
of the history are the ones in the table. -/
theorem StatsRun.owner (hrun : StatsRun sched FirstUse k₀ log k) (hcalls : log.length < 2 ^ 64)
    {id : Int} (hid : SchedEvent.dispatch id ∈ log) : (k.envs (envx id)).envId = id := by
  induction hrun with
  | boot _ => cases hid
  | @alloc log k k' parentId e hrun halloc hfirst ih =>
      have hold := ih hcalls hid
      have hne : envx id ≠ e := by
        rintro rfl
        have hpos : 0 < slotRuns (envx id) log :=
          List.countP_pos_iff.mpr ⟨_, hid, by simp [SchedEvent.slot]⟩
        rw [FirstUse, (hrun.counts hcalls).2] at hfirst
        omega
      obtain ⟨rest, pgdir, mem, -, -, rfl⟩ := envAlloc_ok halloc
      rw [Kernel.modifyEnv_of_ne _ _ hne]
      exact hold
  | free _ _ hfree ih =>
      have hold := ih hcalls hid
      obtain ⟨mem, rfl⟩ := envFree_ok hfree
      rw [Kernel.modifyEnv_apply]
      split
      · exact hold
      · exact hold
  | @yield log k cur hrun ih =>
      rw [List.length_append, List.length_singleton] at hcalls
      obtain ⟨hquiet, -, -, hlive⟩ := schedYield_stats sched k cur
      rw [hquiet.id]
      rcases List.mem_append.mp hid with hold | hnew
      · exact ih (by omega) hold
      · obtain ⟨e, he, heq⟩ := hlive id (List.mem_singleton.mp hnew).symm
        rw [← heq, hrun.envx_id he]
  | other _ hq _ ih =>
      rw [hq.id]
      exact ih hcalls hid

/-- **Statistics per process.** In a run of fewer than `2^64` calls whose
allocations only take slots that were never dispatched. -/
theorem stats_per_process (hrun : StatsRun sched FirstUse k₀ log k)
    (hcalls : log.length < 2 ^ 64) : PerProcess sched log k := by
  obtain ⟨hn, hruns⟩ := hrun.counts hcalls
  refine ⟨?_, ?_⟩
  · intro row hrow
    simp only [schedStatsDump, List.mem_filterMap] at hrow
    obtain ⟨e, -, hrow⟩ := hrow
    split at hrow
    · rename_i hpos
      cases hrow
      refine ⟨rfl, ?_⟩
      show k.schedStats.runsPerEnv e = log.count (.dispatch (k.envs e).envId)
      -- some call dispatched the slot, and its id is the one in the table
      rw [hruns e] at hpos ⊢
      obtain ⟨ev, hev, hslot⟩ := List.countP_pos_iff.mp hpos
      have howner : ∀ id, SchedEvent.dispatch id ∈ log → envx id = e →
          id = (k.envs e).envId := by
        rintro id hid rfl
        exact (hrun.owner hcalls hid).symm
      rw [slotRuns, List.count]
      refine List.countP_congr ?_
      intro x hx
      rw [decide_eq_true_eq, beq_iff_eq] at *
      cases x with
      | halt => simp [SchedEvent.slot]
      | dispatch id =>
          simp only [SchedEvent.slot, Option.some.injEq, SchedEvent.dispatch.injEq]
          constructor
          · exact howner id hx
          · intro heq
            cases ev with
            | halt => cases hslot
            | dispatch id' =>
                simp only [SchedEvent.slot, Option.some.injEq] at hslot
                rw [heq, ← howner id' hev hslot, hslot]
    · cases hrow
  · have hsum : ∑ e, k.schedStats.runsPerEnv e = ∑ e, slotRuns e log :=
      Finset.sum_congr rfl (fun e _ => hruns e)
    rw [hsum, hn, sum_slotRuns]

/-! ## Two runs -/

/-- The steps of a run, to be executed. -/
inductive StatsOp where
  | alloc (parentId : Int)
  | free (e : EnvIdx)
  | yield (cur : Option EnvIdx)

def statsStep (sched : Scheduler) (A : Kernel → EnvIdx → Prop) [∀ k e, Decidable (A k e)]
    (s : List SchedEvent × Kernel) : StatsOp → Option (List SchedEvent × Kernel)
  | .alloc parentId =>
      match envAlloc s.2 parentId with
      | .error _ => none
      | .ok (e, k) => if A s.2 e then some (s.1, k) else none
  | .free e =>
      if (s.2.envs e).envStatus = .free then none
      else (envFree s.2 e).toOption.map (fun k => (s.1, k))
  | .yield cur =>
      some (s.1 ++ [eventOf s.2 (schedYield sched s.2 cur).2], (schedYield sched s.2 cur).1)

theorem StatsRun.step [∀ k e, Decidable (A k e)] {s s' : List SchedEvent × Kernel} {op : StatsOp}
    (hrun : StatsRun sched A k₀ s.1 s.2) (hstep : statsStep sched A s op = some s') :
    StatsRun sched A k₀ s'.1 s'.2 := by
  cases op with
  | alloc parentId =>
      simp only [statsStep] at hstep
      split at hstep
      · cases hstep
      · rename_i halloc
        split at hstep
        · rename_i hA
          cases hstep
          exact hrun.alloc halloc hA
        · cases hstep
  | free e =>
      simp only [statsStep] at hstep
      split at hstep
      · cases hstep
      · rename_i hlive
        obtain ⟨k, hk, rfl⟩ := Option.map_eq_some_iff.mp hstep
        cases hfree : envFree s.2 e with
        | error p =>
            rw [hfree] at hk
            cases hk
        | ok k' =>
            rw [hfree] at hk
            cases hk
            exact hrun.free hlive hfree
  | yield cur =>
      cases hstep
      exact hrun.yield cur

theorem StatsRun.steps [∀ k e, Decidable (A k e)] (ops : List StatsOp)
    {s s' : List SchedEvent × Kernel} (hrun : StatsRun sched A k₀ s.1 s.2)
    (hsteps : ops.foldlM (statsStep sched A) s = some s') : StatsRun sched A k₀ s'.1 s'.2 := by
  induction ops generalizing s with
  | nil =>
      cases hsteps
      exact hrun
  | cons op ops ih =>
      rw [List.foldlM_cons, Option.bind_eq_bind, Option.bind_eq_some_iff] at hsteps
      obtain ⟨s₁, hstep, hsteps⟩ := hsteps
      exact ih (hrun.step hstep) hsteps

instance (k : Kernel) (e : EnvIdx) : Decidable (FirstUse k e) :=
  inferInstanceAs (Decidable (_ = _))

/-- The first environment is created and dispatched. -/
theorem stats_per_process_first : ∃ k,
    StatsRun .roundRobin FirstUse smallBoot [.dispatch 4096] k ∧
    PerProcess .roundRobin [.dispatch 4096] k := by
  obtain ⟨⟨log, k⟩, hsteps, hlog⟩ := Option.map_eq_some_iff.mp
    (show (([.alloc 0, .yield none] : List StatsOp).foldlM (statsStep .roundRobin FirstUse)
        ([], envInit smallBoot)).map (·.1) = some [.dispatch 4096] by decide +kernel)
  cases hlog
  have hrun := (StatsRun.boot rfl : StatsRun .roundRobin FirstUse smallBoot [] _).steps _ hsteps
  exact ⟨k, hrun, stats_per_process hrun (by decide)⟩

/-- The first environment is dispatched and dies; the second one gets its
slot and dies before it has run. -/
def slotReused : List StatsOp := [.alloc 0, .yield none, .free 0, .alloc 0, .free 0, .yield none]

/-- The dump says that the second one has run once. -/
theorem runs_of_another : ∃ k,
    StatsRun .roundRobin (fun _ _ => True) smallBoot [.dispatch 4096, .halt] k ∧
    (schedStatsDump .roundRobin k).rows =
      [{ idx := 0, id := 8192, priority := none, runs := 1 }] ∧
    ¬ PerProcess .roundRobin [.dispatch 4096, .halt] k := by
  obtain ⟨⟨log, k⟩, hsteps, hvalues⟩ := Option.map_eq_some_iff.mp
    (show (slotReused.foldlM (statsStep .roundRobin (fun _ _ => True))
        ([], envInit smallBoot)).map (fun s => (s.1, (schedStatsDump .roundRobin s.2).rows)) =
      some ([.dispatch 4096, .halt], [{ idx := 0, id := 8192, priority := none, runs := 1 }])
      by decide +kernel)
  obtain ⟨hlog, hrows⟩ := Prod.mk.inj hvalues
  replace hlog : log = [.dispatch 4096, .halt] := hlog
  replace hrows : (schedStatsDump .roundRobin k).rows =
    [{ idx := 0, id := 8192, priority := none, runs := 1 }] := hrows
  subst hlog
  refine ⟨k, StatsRun.steps _ (StatsRun.boot rfl) hsteps, hrows, ?_⟩
  intro hper
  have hrow := (hper.rows { idx := 0, id := 8192, priority := none, runs := 1 }
    (by rw [hrows]; exact List.mem_singleton_self _)).2
  exact absurd hrow (by decide)

end SistemasOperativos.Kern
