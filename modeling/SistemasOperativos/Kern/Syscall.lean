/-
SistemasOperativos.Kern.Syscall — the system calls of `syscall.c`.

A call that returns yields its result and the new state; `sys_yield`,
`sys_ipc_recv` when it blocks and `sys_env_destroy` of oneself do not
return, and yield how the CPU left the kernel. The console calls and
`sys_env_set_pgfault_upcall` are not modelled.
-/
import SistemasOperativos.Kern.Env

namespace SistemasOperativos.Kern

/-! ## Memory -/

/-- An address that is page-aligned and below `UTOP`. -/
def userPage (va : Word) : Bool := va < utop && va.toNat % pgsize == 0

def checkPerm (perm : Word) (pte : Option Word) : Int :=
  if perm &&& ~~~pteSyscall ≠ 0 then -eInval
  else if perm &&& pteP = 0 ∨ perm &&& pteU = 0 then -eInval
  else
    match pte with
    | none => 0
    | some w =>
        if w ≠ 0 ∧ w &&& pteP = 0 then -eInval
        else if perm &&& pteW ≠ 0 ∧ w &&& pteW = 0 then -eInval
        else 0

/-- A use of `env->env_pgdir`. -/
def pgdirOf (k : Kernel) (e : EnvIdx) : Except Panic Nat :=
  match (k.envs e).envPgdir with
  | none => .error .nullPgdir
  | some pgdir => .ok pgdir

def envPageAlloc (k : Kernel) (e : EnvIdx) (va perm : Word) : Except Panic (Int × Kernel) :=
  if checkPerm perm none < 0 then return (checkPerm perm none, k)
  else
    match pageAlloc k.mem with
    | none => return (-eNoMem, k)
    | some (pp, mem) => do
        let pgdir ← pgdirOf k e
        let (r, mem) ← pageInsert mem pgdir pp va perm
        return (r, { k with mem := mem })

def envPageMap (k : Kernel) (srcenv : EnvIdx) (srcva : Word) (dstenv : EnvIdx) (dstva perm : Word) :
    Except Panic (Int × Kernel) := do
  let src ← pgdirOf k srcenv
  match ← pageLookup k.mem src srcva with
  | none => return (-eInval, k)
  | some (page, srcpte) =>
      if (perm &&& pteW) &&& ~~~(pteW &&& k.mem.word srcpte) ≠ 0 then return (-eInval, k)
      else do
        let dst ← pgdirOf k dstenv
        let (r, mem) ← pageInsert k.mem dst page dstva perm
        return (r, { k with mem := mem })

def sysPageAlloc (k : Kernel) (curenv : EnvIdx) (envid : Int) (va perm : Word) :
    Except Panic (Int × Kernel) :=
  if ¬ userPage va then return (-eInval, k)
  else
    match envid2env k curenv envid true with
    | none => return (-eBadEnv, k)
    | some e => envPageAlloc k e va (perm ||| pteU ||| pteP)

def sysPageMap (k : Kernel) (curenv : EnvIdx) (srcenvid : Int) (srcva : Word) (dstenvid : Int)
    (dstva perm : Word) : Except Panic (Int × Kernel) :=
  if ¬ userPage srcva then return (-eInval, k)
  else if ¬ userPage dstva then return (-eInval, k)
  else
    match envid2env k curenv srcenvid true with
    | none => return (-eBadEnv, k)
    | some srcenv =>
        match envid2env k curenv dstenvid true with
        | none => return (-eBadEnv, k)
        | some dstenv => envPageMap k srcenv srcva dstenv dstva (pteP ||| pteU ||| perm)

def sysPageUnmap (k : Kernel) (curenv : EnvIdx) (envid : Int) (va : Word) :
    Except Panic (Int × Kernel) :=
  if ¬ userPage va then return (-eInval, k)
  else
    match envid2env k curenv envid true with
    | none => return (-eBadEnv, k)
    | some e => do
        let pgdir ← pgdirOf k e
        let mem ← pageRemove k.mem pgdir va
        return (0, { k with mem := mem })

/-! ## Environments -/

def sysGetpriority (k : Kernel) (curenv : EnvIdx) (envid : Int) : Int :=
  match envid2env k curenv envid true with
  | none => -eBadEnv
  | some e => (k.envs e).priority

def sysExofork (k : Kernel) (curenv : EnvIdx) : Int × Kernel :=
  match envAlloc k (k.envs curenv).envId with
  | .error r => (r, k)
  | .ok (e, k) =>
      let k := k.modifyEnv e (fun v =>
        { v with
          envStatus := .notRunnable
          envTf := (k.envs curenv).envTf.setEax 0
          priority := (k.envs curenv).priority })
      ((k.envs e).envId, k)

/-- The two statuses `sys_env_set_status` takes, by their codes. -/
def settableStatus (status : Int) : Option EnvStatus :=
  if status = 2 then some .runnable else if status = 4 then some .notRunnable else none

def sysEnvSetStatus (k : Kernel) (curenv : EnvIdx) (envid status : Int) : Int × Kernel :=
  match settableStatus status with
  | none => (-eInval, k)
  | some s =>
      match envid2env k curenv envid true with
      | none => (-eBadEnv, k)
      | some e => (0, k.modifyEnv e (fun v => { v with envStatus := s }))

def sysSetpriority (k : Kernel) (curenv : EnvIdx) (envid priority : Int) : Int × Kernel :=
  match envid2env k curenv envid true with
  | none => (-eBadEnv, k)
  | some e =>
      if priority < 0 ∨ priority > maxPriority then (-eInval, k)
      else if envid = (k.envs curenv).envId ∧ priority ≥ (k.envs e).priority then (-eInval, k)
      else if priority > (k.envs e).priority then (-eInval, k)
      else (0, k.modifyEnv e (fun v => { v with priority := priority }))

/-! ## IPC -/

/-- `bail:` in `sys_ipc_try_send`. -/
def ipcDeliver (k : Kernel) (curenv dstenv : EnvIdx) (value : Word) : Kernel :=
  k.modifyEnv dstenv (fun v =>
    { v with
      envIpcFrom := (k.envs curenv).envId
      envIpcRecving := false
      envIpcValue := value
      envTf := v.envTf.setEax 0
      envStatus := .runnable })

/-- The page part of a send: `0` when the message may be delivered. The
return value of `page_lookup` is not tested. -/
def ipcSendPage (k : Kernel) (curenv dstenv : EnvIdx) (srcva perm : Word) :
    Except Panic (Int × Kernel) := do
  let src ← pgdirOf k curenv
  match ← pageLookup k.mem src srcva with
  | none => throw .wildPte
  | some (_, srcpte) =>
      let w := k.mem.word srcpte
      if w ≠ 0 ∧ w &&& pteP = 0 then return (-eInval, k)
      else if perm &&& pteW ≠ 0 ∧ w &&& pteW = 0 then return (-eInval, k)
      else
        let perm := perm ||| pteU ||| pteP
        let dstva := (k.envs dstenv).envIpcDstva
        if dstva ≠ 0 then do
          let (r, k) ← envPageAlloc k dstenv dstva perm
          if r < 0 then return (r, k)
          else do
            let (r, k) ← envPageMap k curenv srcva dstenv dstva perm
            if r < 0 then return (r, k)
            else return (0, k.modifyEnv dstenv (fun v => { v with envIpcPerm := perm }))
        else return (0, k)

def sysIpcTrySend (k : Kernel) (curenv : EnvIdx) (envid : Int) (value srcva perm : Word) :
    Except Panic (Int × Kernel) :=
  match envid2env k curenv envid false with
  | none => return (-eBadEnv, k)
  | some dstenv =>
      if (k.envs dstenv).envIpcRecving = false then return (-eIpcNotRecv, k)
      else if utop ≤ srcva then
        let k := k.modifyEnv dstenv (fun v => { v with envIpcPerm := 0 })
        return (0, ipcDeliver k curenv dstenv value)
      else if srcva.toNat % pgsize ≠ 0 then return (-eInval, k)
      else do
        let (r, k) ← ipcSendPage k curenv dstenv srcva perm
        if r < 0 then return (r, k) else return (0, ipcDeliver k curenv dstenv value)

/-! ## `syscall` -/

inductive Syscall where
  | getenvid
  | getpriority (envid : Int)
  | envDestroy (envid : Int)
  | pageAlloc (envid : Int) (va perm : Word)
  | pageMap (srcenvid : Int) (srcva : Word) (dstenvid : Int) (dstva perm : Word)
  | pageUnmap (envid : Int) (va : Word)
  | exofork
  | envSetStatus (envid status : Int)
  | yield
  | ipcTrySend (envid : Int) (value srcva perm : Word)
  | ipcRecv (dstva : Word)
  | setpriority (envid priority : Int)
  | invalid
  deriving DecidableEq, Repr

/-- A call that has returned, or how the CPU left the kernel. -/
inductive Outcome where
  | ret (r : Int) (k : Kernel)
  | left (l : Leave) (k : Kernel)

def sysEnvDestroy (sched : Scheduler) (k : Kernel) (curenv : EnvIdx) (envid : Int) :
    Except Panic Outcome :=
  match envid2env k curenv envid true with
  | none => return .ret (-eBadEnv) k
  | some e => do
      match ← envDestroy sched k curenv e with
      | (k, none) => return .ret 0 k
      | (k, some l) => return .left l k

def sysYield (sched : Scheduler) (k : Kernel) (curenv : EnvIdx) : Outcome :=
  let (k, l) := schedYield sched k (some curenv)
  .left l k

/-- `env_ipc_recving` is set before `dstva` is looked at. -/
def sysIpcRecv (sched : Scheduler) (k : Kernel) (curenv : EnvIdx) (dstva : Word) : Outcome :=
  let k := k.modifyEnv curenv (fun v => { v with envIpcRecving := true })
  if ¬ userPage dstva then .ret (-eInval) k
  else
    sysYield sched (k.modifyEnv curenv (fun v =>
      { v with envIpcDstva := dstva, envStatus := .notRunnable })) curenv

/-- A call whose result is all there is to it. -/
def returned (r : Except Panic (Int × Kernel)) : Except Panic Outcome :=
  r.map (fun p => .ret p.1 p.2)

def syscall (sched : Scheduler) (k : Kernel) (curenv : EnvIdx) : Syscall → Except Panic Outcome
  | .getenvid => .ok (.ret (k.envs curenv).envId k)
  | .getpriority envid => .ok (.ret (sysGetpriority k curenv envid) k)
  | .envDestroy envid => sysEnvDestroy sched k curenv envid
  | .pageAlloc envid va perm => returned (sysPageAlloc k curenv envid va perm)
  | .pageMap srcenvid srcva dstenvid dstva perm =>
      returned (sysPageMap k curenv srcenvid srcva dstenvid dstva perm)
  | .pageUnmap envid va => returned (sysPageUnmap k curenv envid va)
  | .exofork => returned (.ok (sysExofork k curenv))
  | .envSetStatus envid status => returned (.ok (sysEnvSetStatus k curenv envid status))
  | .yield => .ok (sysYield sched k curenv)
  | .ipcTrySend envid value srcva perm => returned (sysIpcTrySend k curenv envid value srcva perm)
  | .ipcRecv dstva => .ok (sysIpcRecv sched k curenv dstva)
  | .setpriority envid priority => returned (.ok (sysSetpriority k curenv envid priority))
  | .invalid => .ok (.ret (-eInval) k)

/-- The call in the registers of a trap, in the numbering of
`inc/syscall.h`. -/
def decode (r : PushRegs) : Option Syscall :=
  match r.regEax.toNat with
  | 0 | 1 | 10 => none
  | 2 => some .getenvid
  | 3 => some (.getpriority r.regEdx.toInt)
  | 4 => some (.envDestroy r.regEdx.toInt)
  | 5 => some (.pageAlloc r.regEdx.toInt r.regEcx r.regEbx)
  | 6 => some (.pageMap r.regEdx.toInt r.regEcx r.regEbx.toInt r.regEdi r.regEsi)
  | 7 => some (.pageUnmap r.regEdx.toInt r.regEcx)
  | 8 => some .exofork
  | 9 => some (.envSetStatus r.regEdx.toInt r.regEcx.toInt)
  | 11 => some .yield
  | 12 => some (.ipcTrySend r.regEdx.toInt r.regEcx r.regEbx r.regEdi)
  | 13 => some (.ipcRecv r.regEdx)
  | 14 => some (.setpriority r.regEdx.toInt r.regEcx.toInt)
  | _ => some .invalid

end SistemasOperativos.Kern
