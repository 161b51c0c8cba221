/-
SistemasOperativos.Kern.PageFault — `page_fault_handler` of `trap.c`, and
`struct UTrapframe`.

Translation notes. The handler runs in the address space of `curenv`, so
a store is an address there and the bytes that go to it. `CR0_WP` is set:
a store of the kernel to a page that is not mapped writable is a page
fault of its own, in kernel mode, and is not made. What `rcr2` returns is
an argument. The messages of the last branch are left out.
-/
import SistemasOperativos.Kern.UserMem
import SistemasOperativos.Lib.ByteMemory

namespace SistemasOperativos.Kern

open SistemasOperativos.Lib (wordBytes)

/-! ## `inc/trap.h` -/

/-- The registers in the order of `pusha`. -/
def PushRegs.words (r : PushRegs) : List Word :=
  [r.regEdi, r.regEsi, r.regEbp, r.regOesp, r.regEbx, r.regEdx, r.regEcx, r.regEax]

structure UTrapframe where
  utfFaultVa : Word
  utfErr : Word
  utfRegs : PushRegs
  utfEip : Word
  utfEflags : Word
  utfEsp : Word
  deriving DecidableEq, Repr

def UTrapframe.words (u : UTrapframe) : List Word :=
  u.utfFaultVa :: u.utfErr :: (u.utfRegs.words ++ [u.utfEip, u.utfEflags, u.utfEsp])

/-- The structure is packed. -/
def UTrapframe.bytes (u : UTrapframe) : List (BitVec 8) := u.words.flatMap wordBytes

/-- `sizeof(struct UTrapframe)`. -/
abbrev sizeofUTrapframe : Word := 52

/-! ## The frame -/

/-- `UXSTACKTOP - PGSIZE`. -/
abbrev exstk : Word := 0xEEBFF000

/-- `UXSTACKTOP - 1`. -/
abbrev exstkTop : Word := 0xEEBFFFFF

structure Store where
  addr : Word
  bytes : List (BitVec 8)
  deriving DecidableEq, Repr

def utrapframe (tf : Trapframe) (faultVa : Word) : UTrapframe where
  utfFaultVa := faultVa
  utfErr := tf.tfErr
  utfRegs := tf.tfRegs
  utfEip := tf.tfEip
  utfEflags := tf.tfEflags
  utfEsp := tf.tfEsp

/-- The stores that put the frame on the exception stack, in order, and
the `tmp` they leave. -/
def pushUTrapframe (tf : Trapframe) (faultVa : Word) : List Store × Word :=
  let utf := utrapframe tf faultVa
  if utf.utfEsp < exstk ∨ utf.utfEsp > exstkTop then
    let tmp := exstkTop - sizeofUTrapframe
    ([⟨tmp, utf.bytes⟩], tmp)
  else
    let scratch := utf.utfEsp - 4
    let tmp := scratch - sizeofUTrapframe
    ([⟨scratch, wordBytes 0⟩, ⟨tmp, utf.bytes⟩], tmp)

/-! ## The handler -/

/-- Both levels of the tables that `e` runs on have all bits of `perm`. -/
def grants (k : Kernel) (e : EnvIdx) (perm va : Word) : Bool :=
  match (k.envs e).envPgdir with
  | none => false
  | some pgdir =>
      let pde := k.mem.frames pgdir (pdx va)
      let pte := k.mem.frames (pgnum pde) (ptx va)
      pde &&& perm == perm && pte &&& perm == perm

/-- The kernel can make the store. -/
def storable (k : Kernel) (e : EnvIdx) (st : Store) : Bool :=
  (List.range st.bytes.length).all fun i =>
    grants k e (pteP ||| pteW) (st.addr + BitVec.ofNat 32 i)

inductive FaultPanic where
  | kernelMode
  | exceptionStackOverflow
  | kernel (p : Panic)
  deriving DecidableEq, Repr

/-- The stores that are made, and how the handler ends. -/
structure FaultResult where
  stores : List Store
  ended : Except FaultPanic (Kernel × Option Leave)

def pageFaultHandler (sched : Scheduler) (k : Kernel) (curenv : EnvIdx)
    (faultVa checkAddr : Word) : FaultResult :=
  let tf := (k.envs curenv).envTf
  if tf.tfCs &&& 3 = 0 then ⟨[], .error .kernelMode⟩
  else if (k.envs curenv).envPgfaultUpcall ≠ 0 then
    match userMemAssert sched k curenv curenv exstk 4096 (pteU ||| pteW) checkAddr with
    | .error p => ⟨[], .error (.kernel p)⟩
    | .ok (k, some leave, _) => ⟨[], .ok (k, some leave)⟩
    | .ok (k, none, _) =>
        let (stores, tmp) := pushUTrapframe tf faultVa
        if stores.all (storable k curenv) then
          -- the bounds are tested after the stores
          if tmp < exstk ∨ tmp > exstkTop then ⟨stores, .error .exceptionStackOverflow⟩
          else
            let k := k.modifyEnv curenv (fun v =>
              { v with envTf := { v.envTf with tfEsp := tmp, tfEip := v.envPgfaultUpcall } })
            ⟨stores, .ok (envRun k (some curenv) curenv, some (.run curenv))⟩
        else ⟨stores.takeWhile (storable k curenv), .error .kernelMode⟩
  else
    match envDestroy sched k curenv curenv with
    | .error p => ⟨[], .error (.kernel p)⟩
    | .ok (k, leave) => ⟨[], .ok (k, leave)⟩

end SistemasOperativos.Kern
