/-
SistemasOperativos.Kern.UserMem — `user_mem_check` and `user_mem_assert`
of `pmap.c`, and `sys_cputs`, the system call that relies on them.

Translation notes. `ROUNDDOWN` and `ROUNDUP` compute in `uint32_t`, and so
does the sum `va + len`: all of them are operations on `Word`, which wrap.
The loop over the pages gets the number of pages of the address space as
fuel: it leaves at `UTOP` at the latest, before it has seen them all.
`user_mem_check_addr` is a static variable that is only stored to on a
failure, so it is passed in and handed back. What `cprintf` prints is the
range it is given.
-/
import SistemasOperativos.Kern.Syscall

namespace SistemasOperativos.Kern

abbrev eFault : Int := 6

/-- The pages of a 32-bit address space. -/
abbrev npages32 : Nat := 1048576

/-- `ROUNDDOWN(a, PGSIZE)`. -/
def rounddown (a : Word) : Word := a - a % 4096

/-- `ROUNDUP(a, PGSIZE)`. -/
def roundup (a : Word) : Word := rounddown (a + 4096 - 1)

/-- `pte && (*pte & (perm | PTE_P)) == (perm | PTE_P)`. -/
def permits (m : Pmap) (perm : Word) : Option PtePtr → Bool
  | none => false
  | some pte => m.word pte &&& (perm ||| pteP) == perm ||| pteP

/-- The loop of `user_mem_check` from `vaAct` on. The result is the
address that goes to `user_mem_check_addr`, if a page is refused. -/
def checkPages (m : Pmap) (pgdir : Nat) (perm vaLo vaHi : Word) :
    Nat → Word → Except Panic (Option Word)
  | 0, _ => return none
  | fuel + 1, vaAct =>
      if vaAct < vaHi then do
        let pte ← pgdirFind m pgdir vaAct
        if permits m perm pte then checkPages m pgdir perm vaLo vaHi fuel (vaAct + 4096)
        else return some (if vaAct > vaLo then vaAct else vaLo)
      else return none

/-- Returns the code and the new `user_mem_check_addr`. -/
def userMemCheck (k : Kernel) (e : EnvIdx) (va len perm checkAddr : Word) :
    Except Panic (Int × Word) :=
  let vaHi := roundup (va + len)
  if vaHi > utop then return (-eFault, va)
  else do
    let pgdir ← pgdirOf k e
    match ← checkPages k.mem pgdir perm va vaHi npages32 (rounddown va) with
    | none => return (0, checkAddr)
    | some addr => return (-eFault, addr)

/-- `user_mem_assert`: what `env_destroy` leaves behind when the check
fails. -/
def userMemAssert (sched : Scheduler) (k : Kernel) (curenv e : EnvIdx)
    (va len perm checkAddr : Word) : Except Panic (Kernel × Option Leave × Word) := do
  let (r, checkAddr) ← userMemCheck k e va len (perm ||| pteU) checkAddr
  if r < 0 then do
    let (k, leave) ← envDestroy sched k curenv e
    return (k, leave, checkAddr)
  else return (k, none, checkAddr)

/-- `sys_cputs`: the range that is printed, if the caller is still there
to print it. -/
def sysCputs (sched : Scheduler) (k : Kernel) (curenv : EnvIdx) (s len checkAddr : Word) :
    Except Panic (Kernel × Option Leave × Option (Word × Word) × Word) := do
  let (k, leave, checkAddr) ←
    userMemAssert sched k curenv curenv s len (pteP ||| pteW ||| pteU) checkAddr
  return (k, leave, if leave.isNone then some (s, len) else none, checkAddr)

end SistemasOperativos.Kern
