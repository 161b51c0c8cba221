/-
SistemasOperativos.Kern.Sched — `sched_yield`, `sched_halt` and `env_run`.

None of the three returns: they end with the CPU in user mode, halted or
in the monitor. `Leave` says which, and the functions return it with the
kernel's state at that point. `curenv` belongs to the CPU and is passed
in. The two schedulers are the two settings of the build
(`SCHED_ROUND_ROBIN`, `SCHED_PRIORITIES`); `SCHED_STATS` is on, as it is
by default.

The searches are irreducible: unification must not run through the 1024
environments.
-/
import SistemasOperativos.Kern.Types

namespace SistemasOperativos.Kern

inductive Scheduler where
  | roundRobin
  | priorities
  deriving DecidableEq, Repr

/-- How a CPU leaves the kernel. -/
inductive Leave where
  | run (e : EnvIdx)
  | halt
  | monitor
  deriving DecidableEq, Repr

/-! ## `env_run` -/

/-- The state in which `env_run` drops into user mode. -/
def envRun (k : Kernel) (curenv : Option EnvIdx) (e : EnvIdx) : Kernel :=
  let k : Kernel :=
    match curenv with
    | some c =>
        if c ≠ e ∧ (k.envs c).envStatus = .running then
          k.modifyEnv c (fun v => { v with envStatus := .runnable })
        else k
    | none => k
  k.modifyEnv e (fun v => { v with envStatus := .running, envRuns := u32 (v.envRuns + 1) })

/-! ## Statistics -/

def countSchedCall (k : Kernel) : Kernel :=
  { k with schedStats :=
      { k.schedStats with nSchedCalls := u64 (k.schedStats.nSchedCalls + 1) } }

/-- What is counted before every `env_run` of the scheduler. -/
def countEnvRun (k : Kernel) (e : EnvIdx) : Kernel :=
  let id := (k.envs e).envId
  let s := k.schedStats
  let s :=
    if id ≠ s.lastEnvRun then
      { s with nContextSwitches := u64 (s.nContextSwitches + 1), lastEnvRun := id }
    else s
  { k with schedStats :=
      { s with runsPerEnv :=
          Function.update s.runsPerEnv (envx id) (u64 (s.runsPerEnv (envx id) + 1)) } }

/-- A line of `sched_stats_dump`; the priority is printed by the build
with priorities only. -/
structure StatsRow where
  idx : EnvIdx
  id : Int
  priority : Option Int
  runs : Nat
  deriving DecidableEq, Repr

/-- What `sched_stats_dump` prints. -/
structure StatsDump where
  calls : Nat
  ctxSwitches : Nat
  totalEnvRuns : Nat
  lastEnv : Int
  rows : List StatsRow
  deriving DecidableEq, Repr

def schedStatsDump (sched : Scheduler) (k : Kernel) : StatsDump where
  calls := k.schedStats.nSchedCalls
  ctxSwitches := k.schedStats.nContextSwitches
  totalEnvRuns := (List.finRange nenv).foldl (fun t e => u64 (t + k.schedStats.runsPerEnv e)) 0
  lastEnv := k.schedStats.lastEnvRun
  rows := (List.finRange nenv).filterMap (fun e =>
    if k.schedStats.runsPerEnv e > 0 then
      some
        { idx := e
          id := (k.envs e).envId
          priority := if sched = .priorities then some (k.envs e).priority else none
          runs := k.schedStats.runsPerEnv e }
    else none)

/-! ## `sched_halt` -/

@[irreducible] def schedHalt (k : Kernel) : Leave :=
  if (List.finRange nenv).any (fun e =>
      (k.envs e).envStatus = .runnable ∨ (k.envs e).envStatus = .running ∨
        (k.envs e).envStatus = .dying) then .halt
  else .monitor

/-! ## `sched_yield` -/

/-- Where the circular searches begin. -/
def searchStart (k : Kernel) (curenv : Option EnvIdx) : Nat :=
  match curenv with
  | some c => envx (k.envs c).envId + 1
  | none => 0

/-- Environment number `(start + i) % NENV`. -/
def slotAt (start i : Nat) : EnvIdx := ⟨(start + i) % nenv, Nat.mod_lt _ (by decide)⟩

/-- The order of the searches: `i = 0, 1, …` -/
@[irreducible] def circular (start : Nat) : List EnvIdx := (List.range nenv).map (slotAt start)

/-- The loop of rule 1: the highest priority of a runnable environment,
or -1. -/
def maxPrio (envs : EnvIdx → Env) (start : Nat) : Int :=
  (circular start).foldl
    (fun m e => if (envs e).envStatus = .runnable ∧ (envs e).priority > m then (envs e).priority
      else m) (-1)

/-- One turn of the aging loop of rule 5. -/
def ageEnv (v : Env) : Env :=
  if v.envStatus ≠ .free ∧ v.priority < maxPriority then { v with priority := v.priority + 1 }
  else v

/-- Rule 5: the counter, and the aging round when it is due. -/
def agingRound (k : Kernel) : Kernel :=
  if k.agingTicks + 1 ≥ agingInterval then
    { k with envs := fun e => ageEnv (k.envs e), agingTicks := 0 }
  else { k with agingTicks := k.agingTicks + 1 }

/-- The search of rule 2, for the maximum that rule 1 found. -/
def findPrio (envs : EnvIdx → Env) (start : Nat) (prio : Int) : Option EnvIdx :=
  (circular start).find? (fun e => (envs e).envStatus = .runnable ∧ (envs e).priority = prio)

/-- Rule 4. -/
def demote (k : Kernel) (e : EnvIdx) (prio : Int) : Kernel :=
  if (k.envs e).envRuns ≥ quantumLimit ∧ prio > 1 then
    k.modifyEnv e (fun v => { v with priority := prio - 1 })
  else k

/-- The search of `SCHED_ROUND_ROBIN`. -/
def findRunnable (envs : EnvIdx → Env) (start : Nat) : Option EnvIdx :=
  (circular start).find? (fun e => (envs e).envStatus = .runnable)

/-- The end of `sched_yield`, when the search has found nothing. -/
def yieldFallback (k : Kernel) (curenv : Option EnvIdx) : Kernel × Leave :=
  match curenv with
  | some c =>
      if (k.envs c).envStatus = .running then (envRun (countEnvRun k c) curenv c, .run c)
      else (k, schedHalt k)
  | none => (k, schedHalt k)

def schedYield (sched : Scheduler) (k : Kernel) (curenv : Option EnvIdx) : Kernel × Leave :=
  let k := countSchedCall k
  let start := searchStart k curenv
  match sched with
  | .roundRobin =>
      match findRunnable k.envs start with
      | some e => (envRun (countEnvRun k e) curenv e, .run e)
      | none => yieldFallback k curenv
  | .priorities =>
      let prio := maxPrio k.envs start
      let k := agingRound k
      match findPrio k.envs start prio with
      | some e => (envRun (countEnvRun (demote k e prio) e) curenv e, .run e)
      | none => yieldFallback k curenv

end SistemasOperativos.Kern
