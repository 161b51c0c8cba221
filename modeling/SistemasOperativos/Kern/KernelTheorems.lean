/-
SistemasOperativos.Kern.KernelTheorems — what each function of the kernel
can do, once and for all its callers.

The scheduler touches statuses, run counts and priorities; the page
functions touch `mem` alone; `env_alloc` and `env_free` touch one slot and
the free list. The theorems about environments use these and never unfold
the functions again.
-/
import SistemasOperativos.Kern.Trap
import SistemasOperativos.Kern.SchedTheorems

namespace SistemasOperativos.Kern

/-! ## Computations that may panic -/

theorem bind_ok {ε α β : Type} {x : Except ε α} {f : α → Except ε β} {b : β} :
    (x >>= f) = .ok b ↔ ∃ a, x = .ok a ∧ f a = .ok b := by
  cases x with
  | error e => simp [bind, Except.bind]
  | ok a => simp [bind, Except.bind]

theorem pure_ok {ε α : Type} {a b : α} : (pure a : Except ε α) = .ok b ↔ a = b := by
  simp [pure, Except.pure]

/-- Reading a value off a concrete computation. -/
theorem eval_ok {ε α β : Type} {x : Except ε α} {f : α → β} {v : β}
    (h : x.toOption.map f = some v) : ∃ a, x = .ok a ∧ f a = v := by
  cases x with
  | error e => cases h
  | ok a => exact ⟨a, rfl, Option.some.inj h⟩

/-! ## The scheduler -/

/-- `k'` is `k` up to priorities, the aging counter and the statistics. -/
structure UpToPriority (k k' : Kernel) : Prop where
  freeList : k'.envFreeList = k.envFreeList
  mem : k'.mem = k.mem
  env : ∀ e, k'.envs e = { k.envs e with priority := (k'.envs e).priority }

theorem UpToPriority.refl (k : Kernel) : UpToPriority k k := ⟨rfl, rfl, fun _ => rfl⟩

theorem UpToPriority.trans {k₁ k₂ k₃ : Kernel} (h : UpToPriority k₁ k₂) (h' : UpToPriority k₂ k₃) :
    UpToPriority k₁ k₃ where
  freeList := by rw [h'.freeList, h.freeList]
  mem := by rw [h'.mem, h.mem]
  env := by
    intro e
    rw [h'.env e, h.env e]

theorem UpToPriority.status {k k' : Kernel} (h : UpToPriority k k') (e : EnvIdx) :
    (k'.envs e).envStatus = (k.envs e).envStatus := by
  rw [h.env e]

theorem upToPriority_agingRound (k : Kernel) : UpToPriority k (agingRound k) := by
  unfold agingRound
  split
  · refine ⟨rfl, rfl, fun e => ?_⟩
    dsimp only [ageEnv]
    split <;> rfl
  · exact ⟨rfl, rfl, fun _ => rfl⟩

theorem upToPriority_demote (k : Kernel) (e : EnvIdx) (prio : Int) :
    UpToPriority k (demote k e prio) := by
  unfold demote
  split
  · refine ⟨rfl, rfl, fun j => ?_⟩
    by_cases hj : j = e
    · subst hj
      simp
    · simp [hj]
  · exact UpToPriority.refl k

theorem upToPriority_countEnvRun (k : Kernel) (e : EnvIdx) : UpToPriority k (countEnvRun k e) :=
  ⟨rfl, rfl, fun _ => rfl⟩

theorem upToPriority_countSchedCall (k : Kernel) : UpToPriority k (countSchedCall k) :=
  ⟨rfl, rfl, fun _ => rfl⟩

@[simp] theorem agingRound_schedStats (k : Kernel) : (agingRound k).schedStats = k.schedStats := by
  unfold agingRound
  split <;> rfl

@[simp] theorem demote_schedStats (k : Kernel) (e : EnvIdx) (prio : Int) :
    (demote k e prio).schedStats = k.schedStats := by
  unfold demote
  split <;> rfl

/-- How a call of the scheduler ends: some environment is counted and
dispatched that was runnable, or that was running here already, or none
is. -/
theorem schedYield_counted (sched : Scheduler) (k : Kernel) (curenv : Option EnvIdx) :
    ∃ k₀, UpToPriority k k₀ ∧ k₀.schedStats = (countSchedCall k).schedStats ∧
      ((∃ e, ((k.envs e).envStatus = .runnable ∨
            curenv = some e ∧ (k.envs e).envStatus = .running) ∧
          schedYield sched k curenv = (envRun (countEnvRun k₀ e) curenv e, .run e)) ∨
        schedYield sched k curenv = (k₀, .halt) ∨ schedYield sched k curenv = (k₀, .monitor)) := by
  have hfall : ∀ k₁, UpToPriority k k₁ → k₁.schedStats = (countSchedCall k).schedStats →
      ∃ k₀, UpToPriority k k₀ ∧ k₀.schedStats = (countSchedCall k).schedStats ∧
      ((∃ e, ((k.envs e).envStatus = .runnable ∨
            curenv = some e ∧ (k.envs e).envStatus = .running) ∧
          yieldFallback k₁ curenv = (envRun (countEnvRun k₀ e) curenv e, .run e)) ∨
        yieldFallback k₁ curenv = (k₀, .halt) ∨ yieldFallback k₁ curenv = (k₀, .monitor)) := by
    intro k₁ h₁ hstats
    have hhalt : ∀ c, (k₁, schedHalt c) = (k₁, .halt) ∨ (k₁, schedHalt c) = (k₁, .monitor) := by
      intro c
      unfold schedHalt
      split
      · exact Or.inl rfl
      · exact Or.inr rfl
    refine ⟨k₁, h₁, hstats, ?_⟩
    unfold yieldFallback
    cases curenv with
    | none => exact Or.inr (hhalt k₁)
    | some c =>
        dsimp only
        by_cases hc : (k₁.envs c).envStatus = .running
        · rw [if_pos hc]
          exact Or.inl ⟨c, Or.inr ⟨rfl, by rw [← h₁.status, hc]⟩, rfl⟩
        · rw [if_neg hc]
          exact Or.inr (hhalt k₁)
  cases sched with
  | roundRobin =>
      unfold schedYield
      dsimp only
      split
      · rename_i e hfound
        obtain ⟨-, -, -, hp, -⟩ := find?_circular hfound
        exact ⟨countSchedCall k, upToPriority_countSchedCall k, rfl,
          Or.inl ⟨e, Or.inl (of_decide_eq_true hp), rfl⟩⟩
      · exact hfall _ (upToPriority_countSchedCall k) rfl
  | priorities =>
      have hage := (upToPriority_agingRound k).trans (upToPriority_countSchedCall (agingRound k))
      have hstats : (countSchedCall (agingRound k)).schedStats = (countSchedCall k).schedStats := by
        simp [countSchedCall]
      rw [schedYield_priorities]
      split
      · rename_i e hfound
        obtain ⟨-, -, -, hp, -⟩ := find?_circular hfound
        refine ⟨_, hage.trans (upToPriority_demote _ e _), ?_, Or.inl ⟨e, Or.inl ?_, rfl⟩⟩
        · rw [demote_schedStats, hstats]
        · rw [← agingRound_status]
          exact (of_decide_eq_true hp).1
      · exact hfall _ hage hstats

/-- The same, without the statistics. -/
theorem schedYield_cases (sched : Scheduler) (k : Kernel) (curenv : Option EnvIdx) :
    ∃ k₀, UpToPriority k k₀ ∧
      ((∃ e, ((k.envs e).envStatus = .runnable ∨
            curenv = some e ∧ (k.envs e).envStatus = .running) ∧
          schedYield sched k curenv = (envRun k₀ curenv e, .run e)) ∨
        schedYield sched k curenv = (k₀, .halt) ∨ schedYield sched k curenv = (k₀, .monitor)) := by
  obtain ⟨k₀, hk₀, -, ⟨e, he, heq⟩ | heq⟩ := schedYield_counted sched k curenv
  · exact ⟨countEnvRun k₀ e, hk₀.trans (upToPriority_countEnvRun k₀ e), Or.inl ⟨e, he, heq⟩⟩
  · exact ⟨k₀, hk₀, Or.inr heq⟩

/-- `env_run`, slot by slot. -/
theorem envRun_apply (k : Kernel) (curenv : Option EnvIdx) (e j : EnvIdx) :
    (envRun k curenv e).envs j =
      if j = e then
        { k.envs e with envStatus := .running, envRuns := u32 ((k.envs e).envRuns + 1) }
      else if curenv = some j ∧ (k.envs j).envStatus = .running then
        { k.envs j with envStatus := .runnable }
      else k.envs j := by
  unfold envRun
  cases curenv with
  | none =>
      by_cases hj : j = e
      · subst hj
        simp
      · simp [hj]
  | some c =>
      dsimp only
      by_cases hc : c ≠ e ∧ (k.envs c).envStatus = .running
      · rw [if_pos hc]
        by_cases hj : j = e
        · subst hj
          simp [hc.1.symm]
        · by_cases hjc : j = c
          · subst hjc
            simp [hj, hc.2]
          · simp [hj, hjc, Ne.symm hjc]
      · rw [if_neg hc]
        by_cases hj : j = e
        · subst hj
          simp
        · by_cases hjc : j = c
          · subst hjc
            simp [hj] at hc
            simp [hj, hc]
          · simp [hj, Ne.symm hjc]

@[simp] theorem envRun_envFreeList (k : Kernel) (curenv : Option EnvIdx) (e : EnvIdx) :
    (envRun k curenv e).envFreeList = k.envFreeList := by
  unfold envRun
  cases curenv with
  | none => rfl
  | some c =>
      dsimp only
      split <;> rfl

@[simp] theorem envRun_mem (k : Kernel) (curenv : Option EnvIdx) (e : EnvIdx) :
    (envRun k curenv e).mem = k.mem := by
  unfold envRun
  cases curenv with
  | none => rfl
  | some c =>
      dsimp only
      split <;> rfl

@[simp] theorem envRun_schedStats (k : Kernel) (curenv : Option EnvIdx) (e : EnvIdx) :
    (envRun k curenv e).schedStats = k.schedStats := by
  unfold envRun
  cases curenv with
  | none => rfl
  | some c =>
      dsimp only
      split <;> rfl

/-! ## Page functions -/

/-- Only the memory differs. -/
def MemOnly (k k' : Kernel) : Prop := k' = { k with mem := k'.mem }

theorem MemOnly.refl (k : Kernel) : MemOnly k k := rfl

theorem MemOnly.envs {k k' : Kernel} (h : MemOnly k k') : k'.envs = k.envs := by rw [h]

theorem MemOnly.envFreeList {k k' : Kernel} (h : MemOnly k k') : k'.envFreeList = k.envFreeList := by
  rw [h]

theorem MemOnly.trans {k₁ k₂ k₃ : Kernel} (h : MemOnly k₁ k₂) (h' : MemOnly k₂ k₃) :
    MemOnly k₁ k₃ := by
  unfold MemOnly at *
  rw [h', h]

theorem envPageAlloc_memOnly {k k' : Kernel} {e : EnvIdx} {va perm : Word} {r : Int}
    (h : envPageAlloc k e va perm = .ok (r, k')) : MemOnly k k' := by
  unfold envPageAlloc at h
  split at h
  · cases h; rfl
  · split at h
    · cases h; rfl
    · simp only [bind_ok, pure_ok] at h
      obtain ⟨pgdir, -, p, -, heq⟩ := h
      cases heq
      rfl

theorem envPageMap_memOnly {k k' : Kernel} {src dst : EnvIdx} {srcva dstva perm : Word} {r : Int}
    (h : envPageMap k src srcva dst dstva perm = .ok (r, k')) : MemOnly k k' := by
  unfold envPageMap at h
  simp only [bind_ok] at h
  obtain ⟨pgdir, -, found, -, h⟩ := h
  split at h
  · cases h; rfl
  · split at h
    · cases h; rfl
    · simp only [bind_ok, pure_ok] at h
      obtain ⟨pgdir', -, p, -, heq⟩ := h
      cases heq
      rfl

theorem sysPageAlloc_memOnly {k k' : Kernel} {cur : EnvIdx} {envid : Int} {va perm : Word} {r : Int}
    (h : sysPageAlloc k cur envid va perm = .ok (r, k')) : MemOnly k k' := by
  unfold sysPageAlloc at h
  split at h
  · cases h; rfl
  · split at h
    · cases h; rfl
    · exact envPageAlloc_memOnly h

theorem sysPageMap_memOnly {k k' : Kernel} {cur : EnvIdx} {srcenvid dstenvid : Int}
    {srcva dstva perm : Word} {r : Int}
    (h : sysPageMap k cur srcenvid srcva dstenvid dstva perm = .ok (r, k')) : MemOnly k k' := by
  unfold sysPageMap at h
  split at h
  · cases h; rfl
  · split at h
    · cases h; rfl
    · split at h
      · cases h; rfl
      · split at h
        · cases h; rfl
        · exact envPageMap_memOnly h

theorem sysPageUnmap_memOnly {k k' : Kernel} {cur : EnvIdx} {envid : Int} {va : Word} {r : Int}
    (h : sysPageUnmap k cur envid va = .ok (r, k')) : MemOnly k k' := by
  unfold sysPageUnmap at h
  split at h
  · cases h; rfl
  · split at h
    · cases h; rfl
    · simp only [bind_ok, pure_ok] at h
      obtain ⟨pgdir, -, mem, -, heq⟩ := h
      cases heq
      rfl

/-! ## Environments -/

/-- An id that is accepted names an environment that is not free, unless
it is 0. -/
theorem envid2env_some {k : Kernel} {cur e : EnvIdx} {envid : Int} {checkperm : Bool}
    (h : envid2env k cur envid checkperm = some e) :
    e = cur ∨ ((k.envs e).envStatus ≠ .free ∧ (k.envs e).envId = envid ∧
      (checkperm = true → (k.envs e).envParentId = (k.envs cur).envId)) := by
  unfold envid2env at h
  split at h
  · cases h
    exact Or.inl rfl
  · dsimp only at h
    split at h
    · cases h
    · rename_i hlive
      rw [not_or, not_not] at hlive
      split at h
      · cases h
      · rename_i hperm
        cases h
        by_cases hcur : envx envid = cur
        · exact Or.inl hcur
        · refine Or.inr ⟨hlive.1, hlive.2, fun hc => ?_⟩
          by_contra hne
          exact hperm ⟨hc, hcur, hne⟩

/-- `env_alloc` takes the first free slot. -/
theorem envAlloc_ok {k k' : Kernel} {parentId : Int} {e : EnvIdx}
    (h : envAlloc k parentId = .ok (e, k')) :
    ∃ rest pgdir mem, k.envFreeList = e :: rest ∧ envSetupVm k.mem = some (pgdir, mem) ∧
      k' = ({ k with mem := mem, envFreeList := rest } : Kernel).modifyEnv e
        (freshEnv e parentId pgdir) := by
  unfold envAlloc at h
  split at h
  · cases h
  · rename_i e' rest hlist
    split at h
    · cases h
    · rename_i pgdir mem hvm
      cases h
      exact ⟨rest, pgdir, mem, hlist, hvm, rfl⟩

/-- `env_free` puts the slot back at the head of the list. -/
theorem envFree_ok {k k' : Kernel} {e : EnvIdx} (h : envFree k e = .ok k') :
    ∃ mem, k' = ({ k with mem := mem, envFreeList := e :: k.envFreeList } : Kernel).modifyEnv e
      (fun v => { v with envPgdir := none, envStatus := .free }) := by
  unfold envFree at h
  split at h
  · cases h
  · simp only [bind_ok, pure_ok] at h
    obtain ⟨m, -, m', -, rfl⟩ := h
    exact ⟨m', rfl⟩

/-- The page part of a send changes no field of any environment but
`env_ipc_perm` of the receiver. -/
theorem ipcSendPage_envs {k k' : Kernel} {cur dst : EnvIdx} {srcva perm : Word} {r : Int}
    (h : ipcSendPage k cur dst srcva perm = .ok (r, k')) :
    k'.envFreeList = k.envFreeList ∧
      ∀ e, k'.envs e = { k.envs e with envIpcPerm := (k'.envs e).envIpcPerm } := by
  have hmem : ∀ {k₁ : Kernel}, MemOnly k k₁ → k₁.envFreeList = k.envFreeList ∧
      ∀ e, k₁.envs e = { k.envs e with envIpcPerm := (k₁.envs e).envIpcPerm } := by
    intro k₁ h₁
    refine ⟨h₁.envFreeList, fun e => ?_⟩
    rw [h₁.envs]
  unfold ipcSendPage at h
  simp only [bind_ok] at h
  obtain ⟨pgdir, -, found, -, h⟩ := h
  split at h
  · cases h
  · split at h
    · cases h; exact hmem rfl
    · split at h
      · cases h; exact hmem rfl
      · split at h
        · simp only [bind_ok] at h
          obtain ⟨⟨r₁, k₁⟩, h₁, h⟩ := h
          have hk₁ := envPageAlloc_memOnly h₁
          split at h
          · cases h; exact hmem hk₁
          · simp only [bind_ok] at h
            obtain ⟨⟨r₂, k₂⟩, h₂, h⟩ := h
            have hk₂ := hk₁.trans (envPageMap_memOnly h₂)
            split at h
            · cases h; exact hmem hk₂
            · cases h
              refine ⟨by rw [Kernel.modifyEnv_envFreeList, hk₂.envFreeList], fun e => ?_⟩
              by_cases he : e = dst
              · subst he
                simp [hk₂.envs]
              · simp [he, hk₂.envs]
        · cases h; exact hmem rfl

/-! ## Entries -/

/-- A CPU enters from user mode, or is woken up by the timer. -/
theorem enter_ok {n : Nat} {sched : Scheduler} {m m' : Machine n} {c : Fin n} {ev : Entry}
    (h : enter sched m c ev = .ok (some m')) :
    (∃ cur r, (m.cpus c).mode = .user ∧ (m.cpus c).curenv = some cur ∧
        trapUser sched m.kern cur ev = .ok r ∧ m' = m.back c r) ∨
      (∃ tf, ev = .timer tf ∧ (m.cpus c).mode = .halted ∧
        m' = m.back c (schedYield sched m.kern none)) := by
  unfold enter at h
  split at h
  · rename_i hmode
    split at h
    · rename_i cur hcur
      rw [bind_ok] at h
      obtain ⟨r, hr, heq⟩ := h
      rw [pure_ok, Option.some.injEq] at heq
      exact Or.inl ⟨cur, r, hmode, hcur, hr, heq.symm⟩
    · cases h
  · rename_i hmode
    split at h
    · rename_i tf
      rw [pure_ok, Option.some.injEq] at h
      exact Or.inr ⟨tf, rfl, hmode, h.symm⟩
    · cases h
  · cases h

end SistemasOperativos.Kern
