/-
SistemasOperativos.Kern.Types — the data model of the kernel of `TP
Sched`: the constants of `inc/env.h`, `inc/mmu.h` and `inc/memlayout.h`,
`struct Env`, the physical memory behind `pmap.c`, and the kernel's state.

Translation notes. Words that the hardware or a user program reads as
bits (page table entries, permissions, addresses, registers) are
`BitVec 32`. An `envid_t` is an `Int`: `envid & (NENV - 1)` is the
remainder by `NENV`, also for negative ids. Counters are naturals and a
store into a fixed-width field goes through `u16` / `u32` / `u64`.
Physical memory is a table of pages of 1024 words, because page
directories and page tables are the only pages the kernel reads. The list
through `pp_link` and the list through `env_link` are Lean lists.

Not modelled, since nothing here reads them: `env_type`, `env_cpunum`,
the contents of the TLB and the control registers.
-/
import Mathlib.Logic.Function.Basic

namespace SistemasOperativos.Kern

/-! ## `inc/env.h`, `kern/sched.c` -/

abbrev nenv : Nat := 1024
abbrev maxPriority : Int := 8
abbrev quantumLimit : Nat := 5
abbrev agingInterval : Int := 50

instance : @NeZero Nat Zero.ofOfNat0 nenv := ⟨by decide⟩

/-- `envs[]` is indexed by this. -/
abbrev EnvIdx := Fin nenv

inductive EnvStatus where
  | free
  | dying
  | runnable
  | running
  | notRunnable
  deriving DecidableEq, Repr

/-! ## `inc/error.h` -/

abbrev eBadEnv : Int := 2
abbrev eInval : Int := 3
abbrev eNoMem : Int := 4
abbrev eNoFreeEnv : Int := 5
abbrev eIpcNotRecv : Int := 7

/-! ## `inc/mmu.h`, `inc/memlayout.h` -/

abbrev Word := BitVec 32

abbrev pgsize : Nat := 4096
abbrev nptentries : Nat := 1024

abbrev pteP : Word := 0x001
abbrev pteW : Word := 0x002
abbrev pteU : Word := 0x004
abbrev ptePWT : Word := 0x008
abbrev ptePCD : Word := 0x010
abbrev pteAvail : Word := 0xE00

/-- `PTE_SYSCALL`: the bits a system call may set. -/
abbrev pteSyscall : Word := pteAvail ||| pteP ||| pteW ||| pteU

abbrev uvpt : Word := 0xEF400000
abbrev utop : Word := 0xEEC00000
abbrev uxstacktop : Word := utop
abbrev ustacktop : Word := 0xEEBFE000

/-- `PGNUM`. -/
def pgnum (la : Word) : Nat := la.toNat / 4096

/-- `PDX`. -/
def pdx (la : Word) : Nat := la.toNat / 4194304

/-- `PTX`. -/
def ptx (la : Word) : Nat := la.toNat / 4096 % 1024

/-- `PTE_ADDR`. -/
def pteAddr (pte : Word) : Word := pte &&& 0xFFFFF000

/-- `PGADDR(d, t, 0)`. -/
def pgaddr (d t : Nat) : Word := BitVec.ofNat 32 (d * 4194304 + t * 4096)

/-- `page2pa`: `(pp - pages) << PGSHIFT`. -/
def page2pa (pp : Nat) : Word := BitVec.ofNat 32 (pp * 4096)

/-- The entries of a page directory below `UTOP`: `PDX(UTOP)`. -/
abbrev userPdes : Nat := 955

/-! ## Fixed-width stores -/

@[irreducible] def u16 (n : Nat) : Nat := n % 65536

@[irreducible] def u32 (n : Nat) : Nat := n % 4294967296

@[irreducible] def u64 (n : Nat) : Nat := n % 18446744073709551616

/-- `--x` on a `uint16_t`. -/
def u16Dec (n : Nat) : Nat := u16 (n + 65535)

/-! ## `struct Trapframe`, `struct Env` -/

structure PushRegs where
  regEdi : Word := 0
  regEsi : Word := 0
  regEbp : Word := 0
  regOesp : Word := 0
  regEbx : Word := 0
  regEdx : Word := 0
  regEcx : Word := 0
  regEax : Word := 0
  deriving DecidableEq, Repr

structure Trapframe where
  tfRegs : PushRegs := {}
  tfEs : BitVec 16 := 0
  tfDs : BitVec 16 := 0
  tfTrapno : Word := 0
  tfErr : Word := 0
  tfEip : Word := 0
  tfCs : BitVec 16 := 0
  tfEflags : Word := 0
  tfEsp : Word := 0
  tfSs : BitVec 16 := 0
  deriving DecidableEq, Repr

/-- `tf->tf_regs.reg_eax = v`. -/
def Trapframe.setEax (tf : Trapframe) (v : Word) : Trapframe :=
  { tf with tfRegs := { tf.tfRegs with regEax := v } }

structure Env where
  envTf : Trapframe := {}
  envId : Int := 0
  envParentId : Int := 0
  envStatus : EnvStatus := .free
  envRuns : Nat := 0
  priority : Int := 0
  /-- The page of `env_pgdir`; `none` is `NULL`. -/
  envPgdir : Option Nat := none
  envPgfaultUpcall : Word := 0
  envIpcRecving : Bool := false
  envIpcDstva : Word := 0
  envIpcValue : Word := 0
  envIpcFrom : Int := 0
  envIpcPerm : Word := 0
  deriving DecidableEq, Repr

/-! ## Physical memory -/

/-- Where the kernel stops: its panics, and the two pointers it follows
without a test. -/
inductive Panic where
  | kaddr (pa : Word)
  | pa2page (pa : Word)
  | pageFreeRef (pp : Nat)
  | pageFreeLink (pp : Nat)
  | nullPgdir
  | wildPte
  deriving DecidableEq, Repr

/-- `pages[]`, `page_free_list`, `kern_pgdir` and the pages themselves. -/
structure Pmap where
  npages : Nat
  kernPgdir : Nat
  frames : Nat → Nat → Word
  ppRef : Nat → Nat
  pageFreeList : List Nat

/-! ## The kernel -/

structure SchedStats where
  nSchedCalls : Nat := 0
  nContextSwitches : Nat := 0
  lastEnvRun : Int := 0
  runsPerEnv : EnvIdx → Nat := fun _ => 0

structure Kernel where
  envs : EnvIdx → Env
  envFreeList : List EnvIdx
  agingTicks : Int := 0
  schedStats : SchedStats := {}
  mem : Pmap

/-- Store through `&envs[e]`. -/
def Kernel.modifyEnv (k : Kernel) (e : EnvIdx) (f : Env → Env) : Kernel :=
  { k with envs := Function.update k.envs e (f (k.envs e)) }

/-- The table after a store, field by field. -/
theorem Kernel.modifyEnv_apply (k : Kernel) (e j : EnvIdx) (f : Env → Env) :
    (k.modifyEnv e f).envs j = if j = e then f (k.envs j) else k.envs j := by
  by_cases h : j = e
  · subst h
    simp [Kernel.modifyEnv]
  · simp [Kernel.modifyEnv, h]

@[simp] theorem Kernel.modifyEnv_self (k : Kernel) (e : EnvIdx) (f : Env → Env) :
    (k.modifyEnv e f).envs e = f (k.envs e) := by
  simp [Kernel.modifyEnv]

@[simp] theorem Kernel.modifyEnv_of_ne (k : Kernel) {e j : EnvIdx} (f : Env → Env) (h : j ≠ e) :
    (k.modifyEnv e f).envs j = k.envs j := by
  simp [Kernel.modifyEnv, h]

@[simp] theorem Kernel.modifyEnv_envFreeList (k : Kernel) (e : EnvIdx) (f : Env → Env) :
    (k.modifyEnv e f).envFreeList = k.envFreeList := rfl

@[simp] theorem Kernel.modifyEnv_agingTicks (k : Kernel) (e : EnvIdx) (f : Env → Env) :
    (k.modifyEnv e f).agingTicks = k.agingTicks := rfl

@[simp] theorem Kernel.modifyEnv_mem (k : Kernel) (e : EnvIdx) (f : Env → Env) :
    (k.modifyEnv e f).mem = k.mem := rfl

/-- `ENVX`. -/
def envx (envid : Int) : EnvIdx :=
  ⟨(envid % 1024).toNat, by
    have hlt := Int.emod_lt_of_pos envid (by decide : (0 : Int) < 1024)
    have hnonneg := Int.emod_nonneg envid (by decide : (1024 : Int) ≠ 0)
    show (envid % 1024).toNat < 1024
    omega⟩

end SistemasOperativos.Kern
