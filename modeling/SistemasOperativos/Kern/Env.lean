/-
SistemasOperativos.Kern.Env — `env.c`: looking an environment up by its
id, and its creation and destruction.

`env_alloc` only fails before it has stored anything, so its result is
either the negative code or the new environment and the new state.
-/
import SistemasOperativos.Kern.Pmap
import SistemasOperativos.Kern.Sched

namespace SistemasOperativos.Kern

/-- `envid2env`; `none` is `-E_BAD_ENV`. -/
def envid2env (k : Kernel) (curenv : EnvIdx) (envid : Int) (checkperm : Bool) : Option EnvIdx :=
  if envid = 0 then some curenv
  else
    let e := envx envid
    if (k.envs e).envStatus = .free ∨ (k.envs e).envId ≠ envid then none
    else if checkperm ∧ e ≠ curenv ∧ (k.envs e).envParentId ≠ (k.envs curenv).envId then none
    else some e

/-- `env_init`: the free list is the table in order. -/
def envInit (k : Kernel) : Kernel :=
  { k with
    envs := fun e => { k.envs e with envId := 0, envStatus := .free }
    envFreeList := List.finRange nenv }

/-! ## `env_alloc` -/

/-- The new page directory: the kernel's, with the environment's own
page tables at `UVPT`. -/
def envSetupVm (m : Pmap) : Option (Nat × Pmap) :=
  match pageAlloc m with
  | none => none
  | some (p, m) =>
      let m := { m with frames := Function.update m.frames p (m.frames m.kernPgdir) }
      let m := m.incRef p
      some (p, m.setWord ⟨p, pdx uvpt⟩ (page2pa p ||| pteP ||| pteU))

/-- An `int32_t` result. -/
def toInt32 (n : Int) : Int := (n + 2147483648) % 4294967296 - 2147483648

/-- The next id of slot `e`: `1 << ENVGENSHIFT` is added to the old one,
its index bits are cleared, and a generation that is not positive starts
again. -/
def nextEnvId (old : Int) (e : EnvIdx) : Int :=
  let generation := toInt32 (old + 4096) / 1024 * 1024
  (if generation ≤ 0 then 4096 else generation) + e

/-- `GD_UD | 3`, `GD_UT | 3` and `FL_IF` of the initial frame. -/
def initialTrapframe : Trapframe where
  tfDs := 0x23
  tfEs := 0x23
  tfSs := 0x23
  tfEsp := ustacktop
  tfCs := 0x1b
  tfEflags := 0x200

/-- What `env_alloc` stores into slot `e`. -/
def freshEnv (e : EnvIdx) (parentId : Int) (pgdir : Nat) (v : Env) : Env :=
  { v with
    envId := nextEnvId v.envId e
    envParentId := parentId
    envStatus := .runnable
    envRuns := 0
    envTf := initialTrapframe
    envPgdir := some pgdir
    envPgfaultUpcall := 0
    envIpcRecving := false }

def envAlloc (k : Kernel) (parentId : Int) : Except Int (EnvIdx × Kernel) :=
  match k.envFreeList with
  | [] => .error (-eNoFreeEnv)
  | e :: rest =>
      match envSetupVm k.mem with
      | none => .error (-eNoMem)
      | some (pgdir, mem) =>
          let k := { k with mem := mem, envFreeList := rest }
          .ok (e, k.modifyEnv e (freshEnv e parentId pgdir))

/-! ## `env_free` -/

/-- One turn of the inner loop. -/
def freePte (pgdir pdeno pt : Nat) (m : Pmap) (pteno : Nat) : Except Panic Pmap :=
  if m.frames pt pteno &&& pteP ≠ 0 then pageRemove m pgdir (pgaddr pdeno pteno) else .ok m

/-- One turn of the outer loop. -/
def freePde (pgdir : Nat) (m : Pmap) (pdeno : Nat) : Except Panic Pmap :=
  if m.frames pgdir pdeno &&& pteP = 0 then .ok m
  else do
    let pa := pteAddr (m.frames pgdir pdeno)
    let pt ← kaddr m pa
    let m ← (List.range nptentries).foldlM (freePte pgdir pdeno pt) m
    let m := m.setWord ⟨pgdir, pdeno⟩ 0
    let page ← pa2page m pa
    pageDecref m page

def envFree (k : Kernel) (e : EnvIdx) : Except Panic Kernel :=
  match (k.envs e).envPgdir with
  | none => .error .nullPgdir
  | some pgdir => do
      let m ← (List.range userPdes).foldlM (freePde pgdir) k.mem
      let m ← pageDecref m pgdir
      let k := { k with mem := m, envFreeList := e :: k.envFreeList }
      return k.modifyEnv e (fun v => { v with envPgdir := none, envStatus := .free })

/-- `env_destroy`. It only returns when another environment than the
current one is destroyed. -/
def envDestroy (sched : Scheduler) (k : Kernel) (curenv e : EnvIdx) :
    Except Panic (Kernel × Option Leave) :=
  if (k.envs e).envStatus = .running ∧ curenv ≠ e then
    .ok (k.modifyEnv e (fun v => { v with envStatus := .dying }), none)
  else do
    let k ← envFree k e
    if curenv = e then
      let (k, leave) := schedYield sched k none
      return (k, some leave)
    else return (k, none)

end SistemasOperativos.Kern
