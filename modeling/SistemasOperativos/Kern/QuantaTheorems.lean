/-
SistemasOperativos.Kern.QuantaTheorems — when `SCHED_PRIORITIES` lowers a
priority.

Rule 4 reads `env_runs`, and `env_run` counts there every time it drops
into an environment: a dispatch of the scheduler, but also the return
from a system call at the end of `trap`. A run is followed with the
number of dispatches of each environment since it was allocated. The two
counts agree on what is below `QUANTUM_LIMIT` as long as nobody returns
that way before the limit.
-/
import SistemasOperativos.Kern.CpuTheorems

namespace SistemasOperativos.Kern

/-! ## The specification -/

/-- The dispatches of each environment since it was allocated. -/
abbrev Quanta := EnvIdx → Nat

/-- A call of `sched_yield` that has ended so. -/
def Quanta.credit (d : Quanta) : Leave → Quanta
  | .run e => Function.update d e (d e + 1)
  | .halt => d
  | .monitor => d

/-- `e` is allocated on the way from `k` to `k'`. -/
def Born (k k' : Kernel) (e : EnvIdx) : Prop :=
  (k.envs e).envStatus = .free ∧ (k'.envs e).envStatus ≠ .free

instance (k k' : Kernel) : DecidablePred (Born k k') := fun _ => inferInstanceAs (Decidable (_ ∧ _))

/-- A new environment begins with no dispatches. -/
def Quanta.born (d : Quanta) (k k' : Kernel) : Quanta := fun e => if Born k k' e then 0 else d e

/-- Kernel code that runs nobody: `env_runs` is only stored to when an
environment is allocated. -/
def Body (k k' : Kernel) : Prop :=
  ∀ e, (k'.envs e).envRuns = if Born k k' e then 0 else (k.envs e).envRuns

/-- What a kernel entry is made of: the work of a trap or a system call,
and at its end a call of `sched_yield` or the return of `trap` to the
current environment, of which `R` is asked. -/
inductive QuantaStep (R : Quanta → EnvIdx → Prop) : Kernel × Quanta → Kernel × Quanta → Prop where
  | work {k k' : Kernel} {d : Quanta} : Body k k' → QuantaStep R (k, d) (k', d.born k k')
  | yield {k : Kernel} {d : Quanta} (cur : Option EnvIdx) :
      QuantaStep R (k, d)
        ((schedYield .priorities k cur).1, d.credit (schedYield .priorities k cur).2)
  | resume {k : Kernel} {d : Quanta} {e : EnvIdx} :
      (k.envs e).envStatus = .running → R d e → QuantaStep R (k, d) (envRun k (some e) e, d)

abbrev QuantaRun (R : Quanta → EnvIdx → Prop) : Kernel × Quanta → Kernel × Quanta → Prop :=
  Relation.ReflTransGen (QuantaStep R)

/-- `sched_yield`, called now, lowers nobody who has not been dispatched
`QUANTUM_LIMIT` times. -/
def LowersFairly (k : Kernel) (d : Quanta) : Prop :=
  ∀ cur e, ((schedYield .priorities k cur).1.envs e).priority < (k.envs e).priority →
    quantumLimit ≤ d e

/-- The return at the end of `trap` comes after the limit. -/
def AfterLimit (d : Quanta) (e : EnvIdx) : Prop := quantumLimit ≤ d e

/-! ## Rule 4 -/

variable {k k' : Kernel} {d : Quanta} {cur : Option EnvIdx} {e : EnvIdx}

theorem envRun_priority_eq (k : Kernel) (cur : Option EnvIdx) (e j : EnvIdx) :
    ((envRun k cur e).envs j).priority = (k.envs j).priority := by
  rw [envRun_apply]
  split
  · rename_i hj
    rw [hj]
  · split <;> rfl

theorem agingRound_le (k : Kernel) (e : EnvIdx) :
    (k.envs e).priority ≤ ((agingRound k).envs e).priority := by
  rw [agingRound_priority]
  split <;> omega

/-- Rule 4 lowers whoever has run enough, and nothing else lowers. -/
theorem runs_of_lowered
    (hlow : ((schedYield .priorities k cur).1.envs e).priority < (k.envs e).priority) :
    quantumLimit ≤ (k.envs e).envRuns := by
  have hage := agingRound_le k e
  rw [schedYield_priorities] at hlow
  split at hlow
  · rename_i e' hfound
    rw [envRun_priority_eq] at hlow
    replace hlow : ((demote (countSchedCall (agingRound k)) e'
      (maxPrio k.envs (searchStart k cur))).envs e).priority < (k.envs e).priority := hlow
    have hruns : ((countSchedCall (agingRound k)).envs e').envRuns = (k.envs e').envRuns := by
      rw [((upToPriority_agingRound k).trans (upToPriority_countSchedCall _)).env e']
    unfold demote at hlow
    split at hlow
    · rename_i hlimit
      by_cases he : e = e'
      · subst he
        rw [hruns] at hlimit
        exact hlimit.1
      · rw [Kernel.modifyEnv_of_ne _ _ he] at hlow
        exact absurd hlow (Int.not_lt.mpr hage)
    · exact absurd hlow (Int.not_lt.mpr hage)
  · exfalso
    unfold yieldFallback at hlow
    split at hlow
    · split at hlow
      · rw [envRun_priority_eq] at hlow
        exact absurd hlow (Int.not_lt.mpr hage)
      · exact absurd hlow (Int.not_lt.mpr hage)
    · exact absurd hlow (Int.not_lt.mpr hage)

/-! ## The two counts -/

/-- Below the limit, `env_runs` counts dispatches. -/
def Counted (k : Kernel) (d : Quanta) : Prop :=
  ∀ e, (k.envs e).envRuns ≤ d e ∨ quantumLimit ≤ d e

theorem u32_le (n : Nat) : u32 n ≤ n := by
  unfold u32
  exact Nat.mod_le n _

theorem Counted.fair (h : Counted k d) : LowersFairly k d := by
  intro cur e hlow
  have hruns := runs_of_lowered hlow
  rcases h e with hle | hlimit
  · exact Nat.le_trans hruns hle
  · exact hlimit

theorem Counted.work (h : Counted k d) (hbody : Body k k') : Counted k' (d.born k k') := by
  intro e
  rw [hbody e, Quanta.born]
  split
  · exact Or.inl (Nat.le_refl 0)
  · exact h e

theorem envRun_runs (k : Kernel) (cur : Option EnvIdx) (e j : EnvIdx) :
    ((envRun k cur e).envs j).envRuns =
      if j = e then u32 ((k.envs e).envRuns + 1) else (k.envs j).envRuns := by
  rw [envRun_apply]
  by_cases hj : j = e
  · rw [if_pos hj, if_pos hj]
  · rw [if_neg hj, if_neg hj]
    split <;> rfl

theorem Counted.yield (h : Counted k d) (cur : Option EnvIdx) :
    Counted (schedYield .priorities k cur).1 (d.credit (schedYield .priorities k cur).2) := by
  obtain ⟨k₁, hk₁, ⟨e, -, heq⟩ | heq | heq⟩ := schedYield_cases .priorities k cur
  all_goals
    have hruns : ∀ j, (k₁.envs j).envRuns = (k.envs j).envRuns := by
      intro j
      rw [hk₁.env j]
    rw [heq]
  · intro j
    rw [envRun_runs, hruns, hruns, Quanta.credit]
    by_cases hj : j = e
    · subst hj
      rw [if_pos rfl, Function.update_self]
      have hle := u32_le ((k.envs j).envRuns + 1)
      rcases h j with hj | hj
      · exact Or.inl (by omega)
      · exact Or.inr (by omega)
    · rw [if_neg hj, Function.update_of_ne hj]
      exact h j
  · intro j
    rw [hruns]
    exact h j
  · intro j
    rw [hruns]
    exact h j

/-- A return to somebody who is past the limit can count what it likes. -/
theorem Counted.resume (h : Counted k d) (hafter : AfterLimit d e) :
    Counted (envRun k (some e) e) d := by
  intro j
  by_cases hj : j = e
  · subst hj
    exact Or.inr hafter
  · rw [envRun_runs, if_neg hj]
    exact h j

theorem Counted.run {k₀ : Kernel} (h₀ : ∀ e, (k₀.envs e).envRuns = 0) {s : Kernel × Quanta}
    (hrun : QuantaRun AfterLimit (k₀, fun _ => 0) s) : Counted s.1 s.2 := by
  induction hrun with
  | refl => exact fun e => Or.inl (Nat.le_of_eq (h₀ e))
  | tail _ hstep ih =>
      cases hstep with
      | work hbody => exact Counted.work ih hbody
      | yield cur => exact Counted.yield ih cur
      | resume _ hafter => exact Counted.resume ih hafter

/-- **Demotion follows quanta** in a run where no environment returns
through the end of `trap` before it has been dispatched `QUANTUM_LIMIT`
times. -/
theorem demotion_follows_quanta {k₀ : Kernel} (h₀ : ∀ e, (k₀.envs e).envRuns = 0)
    (hrun : QuantaRun AfterLimit (k₀, fun _ => 0) (k, d)) : LowersFairly k d :=
  (Counted.run h₀ hrun).fair

/-- Two environments at the top, which nobody has run yet. -/
def twoReady : Kernel where
  envs e :=
    if e = 0 then { envId := 4096, envStatus := .runnable, priority := 8 }
    else if e = 1 then { envId := 4097, envStatus := .runnable, priority := 8 }
    else {}
  envFreeList := (List.finRange nenv).drop 2
  mem := { npages := 0, kernPgdir := 0, frames := fun _ _ => 0, ppRef := fun _ => 0,
           pageFreeList := [] }

theorem twoReady_runs (e : EnvIdx) : (twoReady.envs e).envRuns = 0 := by
  simp only [twoReady]
  split
  · rfl
  · split <;> rfl

/-- A call of the scheduler, with the counts. -/
def yieldOnce (s : Kernel × Quanta) (cur : Option EnvIdx) : Kernel × Quanta :=
  ((schedYield .priorities s.1 cur).1, s.2.credit (schedYield .priorities s.1 cur).2)

/-- Two dispatches and a third call: nobody is lowered yet. -/
theorem demotion_follows_quanta_twice : ∃ s : Kernel × Quanta,
    QuantaRun AfterLimit (twoReady, fun _ => 0) s ∧ s.2 0 = 1 ∧ s.2 1 = 1 ∧
    LowersFairly s.1 s.2 := by
  have hrun : QuantaRun AfterLimit (twoReady, fun _ => 0)
      (yieldOnce (yieldOnce (twoReady, fun _ => 0) none) (some 0)) :=
    ((Relation.ReflTransGen.single (.yield none)).tail (.yield (some 0)))
  exact ⟨_, hrun, by decide +kernel, by decide +kernel,
    demotion_follows_quanta twoReady_runs hrun⟩

/-- Slot 0 is dispatched and returns from four system calls; slot 1 is
dispatched next. -/
def fourCalls : Kernel × Quanta :=
  let s := yieldOnce (twoReady, fun _ => 0) none
  let k := (List.range 4).foldl (fun k _ => envRun k (some 0) 0) s.1
  yieldOnce (k, s.2) (some 0)

/-- One dispatch is enough: the next call lowers slot 0. -/
theorem lowered_after_one_dispatch :
    QuantaRun (fun _ _ => True) (twoReady, fun _ => 0) fourCalls ∧ fourCalls.2 0 = 1 ∧
    ((schedYield .priorities fourCalls.1 (some 1)).1.envs 0).priority = 7 ∧
    ¬ LowersFairly fourCalls.1 fourCalls.2 := by
  set s := yieldOnce (twoReady, fun _ => 0) none with hs
  have hstatus : ∀ n < 4, (((List.range n).foldl (fun k _ => envRun k (some 0) 0)
      s.1).envs 0).envStatus = .running := by
    decide +kernel
  have hreturns : ∀ n ≤ 4, QuantaRun (fun _ _ => True) (twoReady, fun _ => 0)
      ((List.range n).foldl (fun k _ => envRun k (some 0) 0) s.1, s.2) := by
    intro n hn
    induction n with
    | zero => exact Relation.ReflTransGen.single (.yield none)
    | succ n ih =>
        rw [List.range_succ, List.foldl_append]
        exact (ih (by omega)).tail (.resume (hstatus n (by omega)) trivial)
  have hquanta : fourCalls.2 0 = 1 := by decide +kernel
  have hbefore : (fourCalls.1.envs 0).priority = 8 := by decide +kernel
  have hafter : ((schedYield .priorities fourCalls.1 (some 1)).1.envs 0).priority = 7 := by
    decide +kernel
  refine ⟨(hreturns 4 (by omega)).tail (.yield (some 0)), hquanta, hafter, ?_⟩
  intro hfair
  have hlimit := hfair (some 1) 0 (by rw [hbefore, hafter]; decide)
  rw [hquanta] at hlimit
  exact absurd hlimit (by decide)

/-! ## The entries of the machine -/

/-- Nothing is allocated, and no run count is stored to. -/
theorem Body.of_same (hruns : ∀ e, (k'.envs e).envRuns = (k.envs e).envRuns)
    (hfree : ∀ e, (k.envs e).envStatus = .free → (k'.envs e).envStatus = .free) : Body k k' := by
  intro e
  rw [if_neg (fun hborn => hborn.2 (hfree e hborn.1)), hruns e]

theorem Body.refl (k : Kernel) : Body k k := Body.of_same (fun _ => rfl) (fun _ h => h)

/-- Stores into an environment that is allocated. -/
theorem Body.stored (hlive : (k.envs e).envStatus ≠ .free)
    (hother : ∀ j ≠ e, k'.envs j = k.envs j)
    (hruns : (k'.envs e).envRuns = (k.envs e).envRuns) : Body k k' := by
  refine Body.of_same ?_ ?_
  · intro j
    by_cases hj : j = e
    · rw [hj, hruns]
    · rw [hother j hj]
  · intro j hj
    have hne : j ≠ e := by
      rintro rfl
      exact hlive hj
    rw [hother j hne]
    exact hj

theorem Body.modifyEnv {f : Env → Env} (hlive : (k.envs e).envStatus ≠ .free)
    (hf : ∀ v, (f v).envRuns = v.envRuns) : Body k (k.modifyEnv e f) :=
  Body.stored hlive (fun _ hj => Kernel.modifyEnv_of_ne _ _ hj) (by simp [hf])

/-- Stores into the current environment before and after some work. -/
theorem Body.between {k₁ k₂ k₃ : Kernel} (h : Body k₁ k₂)
    (hpre : ∀ e, (k₁.envs e).envRuns = (k.envs e).envRuns ∧
      (k₁.envs e).envStatus = (k.envs e).envStatus)
    (hpost : ∀ e, (k₃.envs e).envRuns = (k₂.envs e).envRuns ∧
      (k₃.envs e).envStatus = (k₂.envs e).envStatus) : Body k k₃ := by
  intro e
  have hborn : Born k k₃ e ↔ Born k₁ k₂ e := by
    unfold Born
    rw [(hpre e).2, (hpost e).2]
  rw [(hpost e).1, h e, (hpre e).1]
  simp only [hborn]

theorem MemOnly.body (h : MemOnly k k') : Body k k' :=
  Body.of_same (fun e => by rw [h.envs]) (fun e he => by rw [h.envs]; exact he)

theorem envFree_body (h : envFree k e = .ok k') : Body k k' := by
  obtain ⟨mem, rfl⟩ := envFree_ok h
  refine Body.of_same ?_ ?_
  · intro j
    rw [Kernel.modifyEnv_apply]
    split <;> rfl
  · intro j hj
    rw [Kernel.modifyEnv_apply]
    split
    · rfl
    · exact hj

theorem sysExofork_body (k : Kernel) (cur : EnvIdx)
    (hfree : ∀ e ∈ k.envFreeList, (k.envs e).envStatus = .free) :
    Body k (sysExofork k cur).2 := by
  unfold sysExofork
  split
  · exact Body.refl k
  · rename_i e k' halloc
    obtain ⟨rest, pgdir, mem, hlist, -, rfl⟩ := envAlloc_ok halloc
    have he : (k.envs e).envStatus = .free := hfree e (by rw [hlist]; simp)
    intro j
    by_cases hj : j = e
    · subst hj
      simp [Born, he, freshEnv]
    · simp [Born, hj]

/-- The current environment, and whatever an id names, is allocated. -/
theorem live_of_envid2env {cur : EnvIdx} {envid : Int} {checkperm : Bool}
    (hcur : (k.envs cur).envStatus ≠ .free) (h : envid2env k cur envid checkperm = some e) :
    (k.envs e).envStatus ≠ .free := by
  rcases envid2env_some h with rfl | hlive
  · exact hcur
  · exact hlive.1

theorem sysIpcTrySend_body {cur : EnvIdx} {envid r : Int} {value srcva perm : Word}
    (hcur : (k.envs cur).envStatus ≠ .free)
    (h : sysIpcTrySend k cur envid value srcva perm = .ok (r, k')) : Body k k' := by
  unfold sysIpcTrySend at h
  split at h
  · cases h
    exact Body.refl k
  · rename_i dst hdst
    have hlive := live_of_envid2env hcur hdst
    split at h
    · cases h
      exact Body.refl k
    · split at h
      · cases h
        exact Body.stored hlive (fun j hj => by simp [ipcDeliver, hj]) (by simp [ipcDeliver])
      · split at h
        · cases h
          exact Body.refl k
        · simp only [bind_ok] at h
          obtain ⟨⟨r₁, k₁⟩, hpage, h⟩ := h
          obtain ⟨-, henvs⟩ := ipcSendPage_envs hpage
          have hsame : ∀ j, (k₁.envs j).envRuns = (k.envs j).envRuns ∧
              (k₁.envs j).envStatus = (k.envs j).envStatus := by
            intro j
            rw [henvs j]
            exact ⟨rfl, rfl⟩
          split at h
          · cases h
            exact (Body.refl k).between (fun _ => ⟨rfl, rfl⟩) hsame
          · cases h
            have hlive₁ : (k₁.envs dst).envStatus ≠ .free := by
              rw [(hsame dst).2]
              exact hlive
            have hdeliver : Body k₁ (ipcDeliver k₁ cur dst value) := by
              unfold ipcDeliver
              exact Body.modifyEnv hlive₁ (fun _ => rfl)
            exact hdeliver.between hsame (fun _ => ⟨rfl, rfl⟩)

theorem sysEnvSetStatus_body {cur : EnvIdx} (hcur : (k.envs cur).envStatus ≠ .free)
    (envid status : Int) : Body k (sysEnvSetStatus k cur envid status).2 := by
  unfold sysEnvSetStatus
  split
  · exact Body.refl k
  · split
    · exact Body.refl k
    · rename_i he
      dsimp only
      exact Body.modifyEnv (live_of_envid2env hcur he) (fun _ => rfl)

theorem sysSetpriority_body {cur : EnvIdx} (hcur : (k.envs cur).envStatus ≠ .free)
    (envid priority : Int) : Body k (sysSetpriority k cur envid priority).2 := by
  unfold sysSetpriority
  split
  · exact Body.refl k
  · rename_i he
    repeat' split
    · exact Body.refl k
    · exact Body.refl k
    · exact Body.refl k
    · dsimp only
      exact Body.modifyEnv (live_of_envid2env hcur he) (fun _ => rfl)

/-- How a system call of `k` ends: it returns, or it calls the scheduler. -/
def EndsIn (k : Kernel) (o : Outcome) : Prop :=
  (∃ r k₁, o = .ret r k₁ ∧ Body k k₁) ∨
    ∃ k₁ cur, Body k k₁ ∧ o = .left (schedYield .priorities k₁ cur).2
      (schedYield .priorities k₁ cur).1

theorem Body.returned (h : Body k k') (r : Int) : EndsIn k (.ret r k') := Or.inl ⟨r, k', rfl, h⟩

theorem sysEnvDestroy_parts {cur : EnvIdx} {envid : Int} {o : Outcome}
    (hcur : (k.envs cur).envStatus ≠ .free)
    (ho : sysEnvDestroy .priorities k cur envid = .ok o) : EndsIn k o := by
  unfold sysEnvDestroy at ho
  split at ho
  · cases ho
    exact (Body.refl k).returned _
  · rename_i e he
    simp only [bind_ok] at ho
    obtain ⟨⟨k', leave⟩, hd, ho⟩ := ho
    unfold envDestroy at hd
    split at hd
    · cases hd
      cases ho
      refine Body.returned ?_ _
      exact Body.modifyEnv (live_of_envid2env hcur he) (fun _ => rfl)
    · simp only [bind_ok] at hd
      obtain ⟨k₁, hf, hd⟩ := hd
      split at hd
      · cases hd
        cases ho
        exact Or.inr ⟨k₁, none, envFree_body hf, rfl⟩
      · cases hd
        cases ho
        exact (envFree_body hf).returned _

theorem sysIpcRecv_parts {cur : EnvIdx} (hcur : (k.envs cur).envStatus ≠ .free) (dstva : Word) :
    EndsIn k (sysIpcRecv .priorities k cur dstva) := by
  have hmark : Body k (k.modifyEnv cur (fun v => { v with envIpcRecving := true })) :=
    Body.modifyEnv hcur (fun _ => rfl)
  unfold sysIpcRecv
  dsimp only
  split
  · exact hmark.returned _
  · refine Or.inr ⟨_, some cur, ?_, rfl⟩
    exact Body.stored hcur (fun j hj => by simp [hj]) (by simp)

theorem syscall_parts {cur : EnvIdx} {call : Syscall} {o : Outcome}
    (hcur : (k.envs cur).envStatus ≠ .free)
    (hfree : ∀ e ∈ k.envFreeList, (k.envs e).envStatus = .free)
    (ho : syscall .priorities k cur call = .ok o) : EndsIn k o := by
  cases call with
  | getenvid =>
      cases ho
      exact (Body.refl k).returned _
  | getpriority envid =>
      cases ho
      exact (Body.refl k).returned _
  | envDestroy envid => exact sysEnvDestroy_parts hcur ho
  | pageAlloc envid va perm =>
      obtain ⟨r, k', hx, rfl⟩ := returned_ok ho
      exact (sysPageAlloc_memOnly hx).body.returned r
  | pageMap srcenvid srcva dstenvid dstva perm =>
      obtain ⟨r, k', hx, rfl⟩ := returned_ok ho
      exact (sysPageMap_memOnly hx).body.returned r
  | pageUnmap envid va =>
      obtain ⟨r, k', hx, rfl⟩ := returned_ok ho
      exact (sysPageUnmap_memOnly hx).body.returned r
  | exofork =>
      cases ho
      exact (sysExofork_body k cur hfree).returned _
  | envSetStatus envid status =>
      cases ho
      exact (sysEnvSetStatus_body hcur envid status).returned _
  | yield =>
      cases ho
      exact Or.inr ⟨k, some cur, Body.refl k, rfl⟩
  | ipcTrySend envid value srcva perm =>
      obtain ⟨r, k', hx, rfl⟩ := returned_ok ho
      exact (sysIpcTrySend_body hcur hx).returned r
  | ipcRecv dstva =>
      cases ho
      exact sysIpcRecv_parts hcur dstva
  | setpriority envid priority =>
      cases ho
      exact (sysSetpriority_body hcur envid priority).returned _
  | invalid =>
      cases ho
      exact (Body.refl k).returned _

/-- The call of `cur` comes back to the end of `trap` and finds `cur`
running: it goes on through an `env_run` that is no dispatch. -/
def Returns (k : Kernel) (cur : EnvIdx) : Entry → Prop
  | .timer _ => False
  | .syscall tf call => (k.envs cur).envStatus ≠ .dying ∧ ∃ r k₁,
      syscall .priorities (k.modifyEnv cur (fun v => { v with envTf := tf })) cur call =
        .ok (.ret r k₁) ∧ (k₁.envs cur).envStatus = .running

/-- A trap is some work, and then a call of the scheduler or such a
return. -/
theorem trapUser_parts {cur : EnvIdx} {ev : Entry} {r : Kernel × Leave}
    (hcur : (k.envs cur).envStatus ≠ .free)
    (hfree : ∀ e ∈ k.envFreeList, (k.envs e).envStatus = .free)
    (hr : trapUser .priorities k cur ev = .ok r) :
    ∃ k₁, Body k k₁ ∧ ((¬ Returns k cur ev ∧ ∃ cur', r = schedYield .priorities k₁ cur') ∨
      (Returns k cur ev ∧ (k₁.envs cur).envStatus = .running ∧
        r = (envRun k₁ (some cur) cur, .run cur))) := by
  unfold trapUser at hr
  split at hr
  · rename_i hdying
    simp only [bind_ok] at hr
    obtain ⟨k₁, hf, hr⟩ := hr
    cases hr
    refine ⟨k₁, envFree_body hf, Or.inl ⟨?_, none, rfl⟩⟩
    cases ev with
    | timer tf => exact id
    | syscall tf call => exact fun hret => hret.1 hdying
  · rename_i halive
    set ktf := k.modifyEnv cur (fun v => { v with envTf := ev.tf }) with hktf
    have hpre : ∀ e, (ktf.envs e).envRuns = (k.envs e).envRuns ∧
        (ktf.envs e).envStatus = (k.envs e).envStatus := by
      intro e
      rw [hktf, Kernel.modifyEnv_apply]
      split <;> exact ⟨rfl, rfl⟩
    cases ev with
    | timer tf =>
        cases hr
        exact ⟨ktf, (Body.refl ktf).between hpre (fun _ => ⟨rfl, rfl⟩),
          Or.inl ⟨id, some cur, rfl⟩⟩
    | syscall tf call =>
        simp only [trapDispatch, bind_ok] at hr
        obtain ⟨o, ho, hr⟩ := hr
        have hparts := syscall_parts (by rw [(hpre cur).2]; exact hcur)
          (fun e he => by rw [(hpre e).2]; exact hfree e he) ho
        rcases hparts with ⟨v, k₁, rfl, hbody⟩ | ⟨k₁, cur', hbody, rfl⟩
        · dsimp only at hr
          set kret := k₁.modifyEnv cur (fun w =>
            { w with envTf := w.envTf.setEax (BitVec.ofInt 32 v) }) with hkret
          have hpost : ∀ e, (kret.envs e).envRuns = (k₁.envs e).envRuns ∧
              (kret.envs e).envStatus = (k₁.envs e).envStatus := by
            intro e
            rw [hkret, Kernel.modifyEnv_apply]
            split <;> exact ⟨rfl, rfl⟩
          refine ⟨_, hbody.between hpre hpost, ?_⟩
          split at hr
          · rename_i hrunning
            cases hr
            rw [(hpost cur).2] at hrunning
            exact Or.inr ⟨⟨halive, v, k₁, ho, hrunning⟩, (hpost cur).2.trans hrunning, rfl⟩
          · rename_i hstopped
            cases hr
            refine Or.inl ⟨?_, some cur, rfl⟩
            -- the call has one result
            rintro ⟨-, v', k', ho', hrunning⟩
            have hsame := ho.symm.trans ho'
            cases hsame
            exact hstopped ((hpost cur).2.trans hrunning)
        · cases hr
          refine ⟨k₁, hbody.between hpre (fun _ => ⟨rfl, rfl⟩), Or.inl ⟨?_, cur', rfl⟩⟩
          rintro ⟨-, v', k', ho', -⟩
          have hsame := ho.symm.trans ho'
          cases hsame

/-- With one CPU nothing runs elsewhere. -/
theorem benign_of_one (m : Machine 1) (c : Fin 1) (ev : Entry) : Benign m c ev := by
  refine benign_of_alone ?_ ev
  rintro e ⟨d, hd, -⟩
  exact hd (Subsingleton.elim d c)

/-! ## The counts beside the machine -/

/-- An entry of the machine after which its environment `e` goes on so. -/
def ReturnsTo (m : Machine 1) (ev : Entry) (e : EnvIdx) : Prop :=
  (m.cpus 0).mode = .user ∧ (m.cpus 0).curenv = some e ∧ Returns m.kern e ev

/-- One more dispatch for the environment that the CPU is left with. -/
def Quanta.dispatched (d : Quanta) (m : Machine 1) : Quanta := fun e =>
  if (m.cpus 0).mode = .user ∧ (m.cpus 0).curenv = some e then d e + 1 else d e

/-- The entries of the machine, with the counts. An entry that ends with a
return at the end of `trap`, of which `R` is asked, counts for nobody;
every other ends in a call of the scheduler. -/
inductive CountedEntry (R : Quanta → EnvIdx → Prop) :
    Machine 1 × Quanta → Machine 1 × Quanta → Prop where
  | returned {m m' : Machine 1} {d : Quanta} {ev : Entry} {e : EnvIdx} :
      Step .priorities m 0 ev m' → ReturnsTo m ev e → R (d.born m.kern m'.kern) e →
      CountedEntry R (m, d) (m', d.born m.kern m'.kern)
  | dispatched {m m' : Machine 1} {d : Quanta} {ev : Entry} :
      Step .priorities m 0 ev m' → (∀ e, ¬ ReturnsTo m ev e) →
      CountedEntry R (m, d) (m', (d.born m.kern m'.kern).dispatched m')

abbrev CountedRun (R : Quanta → EnvIdx → Prop) : Machine 1 × Quanta → Machine 1 × Quanta → Prop :=
  Relation.ReflTransGen (CountedEntry R)

theorem Quanta.born_congr {k₁ k₂ : Kernel} (d : Quanta)
    (h : ∀ e, (k₂.envs e).envStatus = .free ↔ (k₁.envs e).envStatus = .free) :
    d.born k k₂ = d.born k k₁ := by
  funext e
  have hborn : Born k k₂ e ↔ Born k k₁ e := and_congr_right fun _ => not_congr (h e)
  simp only [Quanta.born, hborn]

theorem envRun_free (he : (k.envs e).envStatus ≠ .free) (j : EnvIdx) :
    ((envRun k cur e).envs j).envStatus = .free ↔ (k.envs j).envStatus = .free := by
  rw [envRun_apply]
  split
  · rename_i hj
    rw [hj]
    exact iff_of_false (by simp) he
  · split
    · rename_i hrunning
      exact iff_of_false (by simp) (by simp [hrunning.2])
    · rfl

theorem schedYield_free (k : Kernel) (cur : Option EnvIdx) (j : EnvIdx) :
    ((schedYield .priorities k cur).1.envs j).envStatus = .free ↔
      (k.envs j).envStatus = .free := by
  obtain ⟨k₁, hk₁, ⟨e, he, heq⟩ | heq | heq⟩ := schedYield_cases .priorities k cur
  all_goals
    have hstatus : ∀ i, (k₁.envs i).envStatus = (k.envs i).envStatus := by
      intro i
      rw [hk₁.env i]
    rw [heq]
  · have hlive : (k₁.envs e).envStatus ≠ .free := by
      rw [hstatus]
      rcases he with he | ⟨-, he⟩ <;> simp [he]
    rw [envRun_free hlive, hstatus]
  · rw [hstatus]
  · rw [hstatus]

theorem Quanta.credit_eq (d : Quanta) (m : Machine 1) (r : Kernel × Leave) :
    d.credit r.2 = d.dispatched (m.back 0 r) := by
  obtain ⟨k, leave⟩ := r
  funext e
  cases leave with
  | run e' =>
      by_cases he : e = e'
      · simp [Quanta.credit, Quanta.dispatched, Machine.back, cpuAfter, he]
      · simp [Quanta.credit, Quanta.dispatched, Machine.back, cpuAfter, he, Ne.symm he]
  | halt => simp [Quanta.credit, Quanta.dispatched, Machine.back, cpuAfter]
  | monitor => simp [Quanta.credit, Quanta.dispatched, Machine.back, cpuAfter]

variable {R : Quanta → EnvIdx → Prop} {m m' : Machine 1} {d' : Quanta}

theorem CpuInv.live (h : CpuInv m) {cur : EnvIdx} (hmode : (m.cpus 0).mode = .user)
    (hcur : (m.cpus 0).curenv = some cur) : (m.kern.envs cur).envStatus ≠ .free := by
  rcases (h.exclusive.user 0 cur hmode hcur).1 with hs | hs <;> simp [hs]

/-- Work, and then a call of the scheduler. -/
theorem QuantaRun.dispatched {k₁ : Kernel} (hbody : Body k k₁) (cur : Option EnvIdx)
    (d : Quanta) (m : Machine 1) :
    QuantaRun R (k, d) ((schedYield .priorities k₁ cur).1,
      (d.born k (schedYield .priorities k₁ cur).1).dispatched
        (m.back 0 (schedYield .priorities k₁ cur))) := by
  rw [d.born_congr (schedYield_free k₁ cur), ← Quanta.credit_eq]
  exact (Relation.ReflTransGen.single (.work hbody)).tail (.yield cur)

/-- One entry of the machine is such a piece of a run. -/
theorem step_quanta (h : CpuInv m) (hstep : CountedEntry R (m, d) (m', d')) :
    QuantaRun R (m.kern, d) (m'.kern, d') := by
  cases hstep with
  | returned hstep hreturns hR =>
      obtain ⟨hmode, hcur, hret⟩ := hreturns
      rename_i ev e
      rcases enter_ok hstep.2.2 with ⟨cur, r, -, hcur', hr, rfl⟩ | ⟨tf, -, hhalted, -⟩
      · rw [hcur] at hcur'
        cases hcur'
        obtain ⟨k₁, hbody, ⟨hnot, -⟩ | ⟨-, hrunning, rfl⟩⟩ :=
          trapUser_parts (h.live hmode hcur) h.free hr
        · exact absurd hret hnot
        · have hfree : ∀ j, ((envRun k₁ (some e) e).envs j).envStatus = .free ↔
              (k₁.envs j).envStatus = .free := envRun_free (by simp [hrunning])
          change R (d.born m.kern (envRun k₁ (some e) e)) e at hR
          show QuantaRun R (m.kern, d) (envRun k₁ (some e) e, d.born m.kern (envRun k₁ (some e) e))
          rw [d.born_congr hfree] at hR ⊢
          exact (Relation.ReflTransGen.single (.work hbody)).tail (.resume hrunning hR)
      · rw [hmode] at hhalted
        cases hhalted
  | dispatched hstep hnot =>
      rcases enter_ok hstep.2.2 with ⟨cur, r, hmode, hcur, hr, rfl⟩ | ⟨tf, -, -, rfl⟩
      · obtain ⟨k₁, hbody, ⟨-, cur', rfl⟩ | ⟨hret, -, -⟩⟩ :=
          trapUser_parts (h.live hmode hcur) h.free hr
        · exact QuantaRun.dispatched hbody cur' d m
        · exact absurd ⟨hmode, hcur, hret⟩ (hnot cur)
      · exact QuantaRun.dispatched (Body.refl m.kern) none d m

/-- Every run of the machine with one CPU is one of those above, under the
same condition. -/
theorem run_quanta {m₀ : Machine 1} {d₀ : Quanta} (h₀ : Booted m₀)
    (hrun : CountedRun R (m₀, d₀) (m, d)) : QuantaRun R (m₀.kern, d₀) (m.kern, d) := by
  have hboth : ∀ s : Machine 1 × Quanta, CountedRun R (m₀, d₀) s →
      CpuInv s.1 ∧ QuantaRun R (m₀.kern, d₀) (s.1.kern, s.2) := by
    intro s hs
    induction hs with
    | refl => exact ⟨h₀.cpuInv, Relation.ReflTransGen.refl⟩
    | @tail s₁ s₂ _ hlast ih =>
        obtain ⟨hinv, hquanta⟩ := ih
        have hnext := step_quanta hinv hlast
        refine ⟨?_, hquanta.trans hnext⟩
        cases hlast with
        | returned hstep => exact step_cpuInv hinv hstep (benign_of_one _ 0 _)
        | dispatched hstep => exact step_cpuInv hinv hstep (benign_of_one _ 0 _)
  exact (hboth _ hrun).2

/-- Every run of the machine can be counted. -/
theorem exists_counted {m₀ : Machine 1} (hrun : Run .priorities (fun _ _ _ => True) m₀ m)
    (d₀ : Quanta) : ∃ d, CountedRun (fun _ _ => True) (m₀, d₀) (m, d) := by
  induction hrun with
  | refl => exact ⟨d₀, Relation.ReflTransGen.refl⟩
  | @tail m₁ m₂ _ hlast ih =>
      obtain ⟨d, hcounted⟩ := ih
      obtain ⟨c, ev, hstep, -⟩ := hlast
      rw [Subsingleton.elim c 0] at hstep
      by_cases hreturns : ∃ e, ReturnsTo m₁ ev e
      · obtain ⟨e, he⟩ := hreturns
        exact ⟨_, hcounted.tail (.returned hstep he trivial)⟩
      · exact ⟨_, hcounted.tail (.dispatched hstep (not_exists.mp hreturns))⟩

/-- On the machine: `sched_yield` lowers fairly in every run in which an
environment returns through the end of `trap` only after the limit. -/
theorem machine_lowers_fairly {m₀ : Machine 1} (h₀ : Booted m₀)
    (hruns : ∀ e, (m₀.kern.envs e).envRuns = 0)
    (hrun : CountedRun AfterLimit (m₀, fun _ => 0) (m, d)) : LowersFairly m.kern d :=
  (Counted.run hruns (run_quanta h₀ hrun)).fair

end SistemasOperativos.Kern
