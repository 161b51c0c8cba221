/-
SistemasOperativos.Kern.Trap — `trap.c` for system calls and the timer,
and the machine of several CPUs.

A kernel entry is one step: `trap` holds the big kernel lock from its
first read of shared data until the CPU is back in user mode or halted.
A CPU that has dropped into the monitor keeps the lock for ever, so no
step follows.
-/
import SistemasOperativos.Kern.Syscall
import Mathlib.Logic.Relation

namespace SistemasOperativos.Kern

inductive CpuMode where
  | user
  | halted
  | monitor
  deriving DecidableEq, Repr

structure Cpu where
  curenv : Option EnvIdx
  mode : CpuMode
  deriving DecidableEq, Repr

structure Machine (n : Nat) where
  kern : Kernel
  cpus : Fin n → Cpu

/-- What makes a CPU enter the kernel, with the registers at that point. -/
inductive Entry where
  | timer (tf : Trapframe)
  | syscall (tf : Trapframe) (call : Syscall)
  deriving DecidableEq

def Entry.tf : Entry → Trapframe
  | .timer tf => tf
  | .syscall tf _ => tf

/-- The call is the one the registers ask for. -/
def Entry.Decoded : Entry → Prop
  | .timer _ => True
  | .syscall tf call => decode tf.tfRegs = some call

variable {n : Nat}

/-- `trap_dispatch` and the end of `trap`. -/
def trapDispatch (sched : Scheduler) (k : Kernel) (curenv : EnvIdx) :
    Entry → Except Panic (Kernel × Leave)
  | .timer _ => .ok (schedYield sched k (some curenv))
  | .syscall _ call => do
      match ← syscall sched k curenv call with
      | .left l k => return (k, l)
      | .ret r k =>
          let k := k.modifyEnv curenv (fun v =>
            { v with envTf := v.envTf.setEax (BitVec.ofInt 32 r) })
          if (k.envs curenv).envStatus = .running then
            return (envRun k (some curenv) curenv, .run curenv)
          else return schedYield sched k (some curenv)

/-- `trap` for a trap from user mode, with `curenv` set. -/
def trapUser (sched : Scheduler) (k : Kernel) (curenv : EnvIdx) (ev : Entry) :
    Except Panic (Kernel × Leave) :=
  if (k.envs curenv).envStatus = .dying then do
    let k ← envFree k curenv
    return schedYield sched k none
  else trapDispatch sched (k.modifyEnv curenv (fun v => { v with envTf := ev.tf })) curenv ev

/-- The CPU after it has left the kernel. -/
def cpuAfter (c : Cpu) : Leave → Cpu
  | .run e => { curenv := some e, mode := .user }
  | .halt => { curenv := none, mode := .halted }
  | .monitor => { c with mode := .monitor }

/-- The machine after CPU `c` has left the kernel. -/
def Machine.back (m : Machine n) (c : Fin n) (r : Kernel × Leave) : Machine n where
  kern := r.1
  cpus := Function.update m.cpus c (cpuAfter (m.cpus c) r.2)

/-- A kernel entry of CPU `c`, up to the point where it leaves; `none` if
the CPU cannot enter so. -/
def enter (sched : Scheduler) (m : Machine n) (c : Fin n) (ev : Entry) :
    Except Panic (Option (Machine n)) :=
  match (m.cpus c).mode with
  | .user =>
      match (m.cpus c).curenv with
      | some curenv => do
          let r ← trapUser sched m.kern curenv ev
          return some (m.back c r)
      | none => return none
  | .halted =>
      match ev with
      | .timer _ => return some (m.back c (schedYield sched m.kern none))
      | .syscall _ _ => return none
  | .monitor => return none

/-- One step of the machine. -/
def Step (sched : Scheduler) (m : Machine n) (c : Fin n) (ev : Entry) (m' : Machine n) : Prop :=
  (∀ d, (m.cpus d).mode ≠ .monitor) ∧ ev.Decoded ∧ enter sched m c ev = .ok (some m')

end SistemasOperativos.Kern
