/-
SistemasOperativos.Kern.Spinlock — `spinlock.c`, and the CPUs of a
machine at the level of the single accesses to `kernel_lock`.

`Kern.Trap` takes a whole kernel entry as one step. Here it is taken
apart: the exchange of `cpu_status` in `trap`, the two reads of `holding`,
every turn of the spinning loop, the store of `lk->cpu`, the stages of
the work done with the lock held, and the way out through `spin_unlock`.
Between any two of these the other CPUs may take steps of their own.

`DEBUG_SPINLOCK` is defined, as it is in `spinlock.h`. The name of the
lock and the call stack in `pcs` only go into messages and are left out,
as is the test of `panicstr`, which is set by a panic only. `locked` is 0
or 1: nothing else is ever exchanged into it.
-/
import SistemasOperativos.Kern.Trap

namespace SistemasOperativos.Kern.Smp

/-! ## The lock -/

structure Spinlock (n : Nat) where
  locked : Bool := false
  /-- `none` is `NULL`. -/
  cpu : Option (Fin n) := none

inductive CpuStatus where
  | unused
  | started
  | halted
  deriving DecidableEq, Repr

/-- The statements of `spin_lock`. -/
inductive LockPc where
  /-- `holding`: `lock->locked` -/
  | readLocked
  /-- `holding`: `lock->cpu == thiscpu` -/
  | readCpu
  | xchg
  | storeCpu
  deriving DecidableEq, Repr

/-- The statements of `spin_unlock`. -/
inductive UnlockPc where
  | readLocked
  | readCpu
  | clearCpu
  | xchg
  deriving DecidableEq, Repr

/-- Who calls `lock_kernel`: `trap`, because the CPU was halted or because
it was in user mode, or `mp_main`. -/
inductive Caller where
  | trapHalted (ev : Entry)
  | trapUser (ev : Entry)
  | mpMain
  deriving DecidableEq

/-! ## The work with the lock held -/

/-- Where the kernel is between `lock_kernel` and `unlock_kernel`. -/
inductive Stage where
  /-- `trap`, after the lock: the test for a zombie -/
  | trapped (ev : Entry)
  | dispatch (ev : Entry) (curenv : EnvIdx)
  /-- `trap`, after `trap_dispatch` -/
  | resume (curenv : EnvIdx)
  | yield
  | leave (l : Leave)
  /-- `curenv` is set, and only the lock is left to release -/
  | done (l : Leave)
  deriving DecidableEq

/-- One stage of the work; `none` where the kernel has panicked or has
dropped into the monitor. -/
def Stage.run (sched : Scheduler) (k : Kernel) (cpu : Cpu) :
    Stage → Option (Kernel × Cpu × Stage)
  | .trapped ev =>
      match cpu.curenv with
      | none => none
      | some e =>
          if (k.envs e).envStatus = .dying then
            match envFree k e with
            | .ok k => some (k, { cpu with curenv := none }, .yield)
            | .error _ => none
          else some (k.modifyEnv e (fun v => { v with envTf := ev.tf }), cpu, .dispatch ev e)
  | .dispatch (.timer _) _ => some (k, cpu, .yield)
  | .dispatch (.syscall _ call) e =>
      match syscall sched k e call with
      | .ok (.left l k) => some (k, cpu, .leave l)
      | .ok (.ret r k) =>
          some (k.modifyEnv e (fun v => { v with envTf := v.envTf.setEax (BitVec.ofInt 32 r) }),
            cpu, .resume e)
      | .error _ => none
  | .resume e =>
      if (k.envs e).envStatus = .running then some (envRun k (some e) e, cpu, .leave (.run e))
      else some (k, cpu, .yield)
  | .yield =>
      let r := schedYield sched k cpu.curenv
      some (r.1, cpu, .leave r.2)
  | .leave (.run e) => some (k, { cpu with curenv := some e }, .done (.run e))
  | .leave .halt => some (k, { cpu with curenv := none }, .done .halt)
  | .leave .monitor => none
  | .done _ => none

/-! ## The CPUs -/

inductive Pc where
  /-- in user mode, or halted -/
  | outside
  /-- in `trap`, before the exchange of `cpu_status` -/
  | trap (ev : Entry)
  /-- in `trap`, before the test of `tf_cs` -/
  | testCs (ev : Entry)
  | lock (pc : LockPc) (caller : Caller)
  | work (st : Stage)
  /-- in `sched_halt`, before the exchange of `cpu_status` -/
  | setHalted
  | unlock (pc : UnlockPc) (l : Leave)
  /-- "cannot acquire: already holding" -/
  | lockPanic
  /-- "cannot release" -/
  | unlockPanic
  deriving DecidableEq

/-- A CPU: what `Kern.Trap` knows of it, `cpu_status`, and where it is. -/
structure Core where
  cpu : Cpu
  cpuStatus : CpuStatus
  pc : Pc
  /-- The last trap, whose frame is at the top of the kernel stack; `none`
  in `mp_main`. -/
  trap : Option Entry := none

structure State (n : Nat) where
  lock : Spinlock n
  kern : Kernel
  cores : Fin n → Core

variable {n : Nat}

def State.set (s : State n) (c : Fin n) (v : Core) : State n :=
  { s with cores := Function.update s.cores c v }

def State.goto (s : State n) (c : Fin n) (pc : Pc) : State n :=
  s.set c { s.cores c with pc := pc }

/-- The code pushed by the interrupt: `(tf->tf_cs & 3) == 3`. -/
def fromUser (v : Core) : Bool := v.cpu.mode = .user

/-- Where `lock_kernel` returns to. After the lock of a halted CPU the
test of `tf_cs` comes next. -/
def Caller.back : Caller → Pc
  | .trapHalted ev => .testCs ev
  | .trapUser ev => .work (.trapped ev)
  | .mpMain => .work .yield

/-- One statement of `spin_lock`. -/
def lockStep (s : State n) (c : Fin n) (caller : Caller) : LockPc → State n
  | .readLocked =>
      s.goto c (.lock (if s.lock.locked then .readCpu else .xchg) caller)
  | .readCpu =>
      s.goto c (if s.lock.cpu = some c then .lockPanic else .lock .xchg caller)
  | .xchg =>
      if s.lock.locked then s
      else { s.goto c (.lock .storeCpu caller) with lock := { s.lock with locked := true } }
  | .storeCpu => { s.goto c caller.back with lock := { s.lock with cpu := some c } }

/-- The CPU that has left the kernel. -/
def left (v : Core) (l : Leave) : Core := { v with cpu := cpuAfter v.cpu l, pc := .outside }

/-- One statement of `spin_unlock`. -/
def unlockStep (s : State n) (c : Fin n) (l : Leave) : UnlockPc → State n
  | .readLocked => s.goto c (if s.lock.locked then .unlock .readCpu l else .unlockPanic)
  | .readCpu => s.goto c (if s.lock.cpu = some c then .unlock .clearCpu l else .unlockPanic)
  | .clearCpu => { s.goto c (.unlock .xchg l) with lock := { s.lock with cpu := none } }
  | .xchg => { s.set c (left (s.cores c) l) with lock := { s.lock with locked := false } }

/-- The end of the work: `env_run` releases the lock, `sched_halt` first
marks the CPU as halted. -/
def workStep (sched : Scheduler) (s : State n) (c : Fin n) (st : Stage) : Option (State n) :=
  match st with
  | .done .halt => some (s.goto c .setHalted)
  | .done l => some (s.goto c (.unlock .readLocked l))
  | st =>
      (st.run sched s.kern (s.cores c).cpu).map fun r =>
        { s.set c { s.cores c with cpu := r.2.1, pc := .work r.2.2 } with kern := r.1 }

/-- The next step of CPU `c`; outside the kernel it is the trap `ev`. -/
def step (sched : Scheduler) (s : State n) (c : Fin n) (ev : Entry) : Option (State n) :=
  let v := s.cores c
  match v.pc with
  | .outside => some (s.set c { v with pc := .trap ev, trap := some ev })
  | .trap ev =>
      some (s.set c
        { v with
          cpuStatus := .started
          pc := if v.cpuStatus = .halted then .lock .readLocked (.trapHalted ev) else .testCs ev })
  | .testCs ev =>
      if fromUser v then some (s.goto c (.lock .readLocked (.trapUser ev)))
      else some (s.goto c (.work .yield))
  | .lock pc caller => some (lockStep s c caller pc)
  | .work st => workStep sched s c st
  | .setHalted =>
      some (s.set c { v with cpuStatus := .halted, pc := .unlock .readLocked .halt })
  | .unlock pc l => some (unlockStep s c l pc)
  | .lockPanic => none
  | .unlockPanic => none

/-- A trap the hardware can raise: a halted CPU executes no instruction,
so only the timer wakes it. -/
def Raised (v : Core) (ev : Entry) : Prop :=
  ev.Decoded ∧ (v.cpu.mode = .halted → ∃ tf, ev = .timer tf)

/-- The entry that has ended in this step: its CPU and its trap. -/
def ended (s : State n) (c : Fin n) : List (Fin n × Option Entry) :=
  match (s.cores c).pc with
  | .unlock .xchg _ => [(c, (s.cores c).trap)]
  | _ => []

/-- Any CPU takes its next step. -/
def Step (sched : Scheduler) (s : State n) (new : List (Fin n × Option Entry)) (s' : State n) :
    Prop :=
  ∃ c ev, Raised (s.cores c) ev ∧ new = ended s c ∧ step sched s c ev = some s'

/-- A run, with the entries that have ended, in the order in which the CPUs
left the kernel. -/
inductive Run (sched : Scheduler) (s₀ : State n) :
    List (Fin n × Option Entry) → State n → Prop where
  | refl : Run sched s₀ [] s₀
  | step {s s' : State n} {log new : List (Fin n × Option Entry)} (hrun : Run sched s₀ log s)
      (h : Step sched s new s') : Run sched s₀ (log ++ new) s'

/-- A CPU that is not in the kernel: in user mode, halted by `sched_halt`,
or an application processor on its way into `mp_main`'s `lock_kernel`. -/
def Core.Ready (v : Core) : Prop :=
  (v.cpu.mode = .user ∧ v.pc = .outside ∧ v.cpuStatus = .started) ∨
  (v.cpu.mode = .halted ∧ v.cpu.curenv = none ∧ v.pc = .outside ∧ v.cpuStatus = .halted) ∨
  (v.cpu.mode = .halted ∧ v.cpu.curenv = none ∧ v.pc = .lock .readLocked .mpMain ∧
    v.cpuStatus = .started ∧ v.trap = none)

/-- The lock is free and no CPU is in the kernel. -/
def State.Start (s : State n) : Prop :=
  s.lock = {} ∧ ∀ c, (s.cores c).Ready

end SistemasOperativos.Kern.Smp
