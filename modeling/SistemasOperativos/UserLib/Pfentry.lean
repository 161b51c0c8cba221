/-
SistemasOperativos.UserLib.Pfentry — `lib/pfentry.S`: the page fault
upcall, between the frame that the kernel pushes and the instruction that
faulted.

Translation notes. Memory is the bytes of the address space; which words of
it are mapped does not change. Three things stop an instruction of the
upcall: a word that is not mapped; the alignment check, since `mem_init`
sets `CR0_AM`, so that with `FL_AC` set a word has to be aligned; and
single-stepping, since with `FL_TF` set when it starts it ends in a debug
exception, which `trap_dispatch` has no case for, so that `env_destroy`
follows. `popfl` in user mode changes neither `FL_IF`, `FL_IOPL_MASK`
and `FL_VM` nor the virtual interrupt flags, and clears `FL_RF`; the
processor sets `FL_RF` in the flags that it saves on a fault. `eip` is
only followed where the code jumps. The C handler is what it may do, and
its faults are round trips like the one it is part of.
-/
import SistemasOperativos.Kern.PageFault

namespace SistemasOperativos.UserLib

open SistemasOperativos.Kern (Word Trapframe Store pushUTrapframe uxstacktop)
open SistemasOperativos.Lib (ByteMem readWord storeWord storeBytes)

/-! ## `inc/mmu.h` -/

abbrev flCF : Word := 0x00000001
abbrev flPF : Word := 0x00000004
abbrev flAF : Word := 0x00000010
abbrev flZF : Word := 0x00000040
abbrev flSF : Word := 0x00000080
abbrev flTF : Word := 0x00000100
abbrev flDF : Word := 0x00000400
abbrev flOF : Word := 0x00000800
abbrev flNT : Word := 0x00004000
abbrev flRF : Word := 0x00010000
abbrev flAC : Word := 0x00040000
abbrev flID : Word := 0x00200000

/-- The flags that an addition sets. -/
abbrev flStatus : Word := flCF ||| flPF ||| flAF ||| flZF ||| flSF ||| flOF

/-- The flags that `popfl` loads in user mode. -/
abbrev flUser : Word := flStatus ||| flTF ||| flDF ||| flNT ||| flAC ||| flID

/-! ## The processor in user mode -/

inductive Reg where
  | edi
  | esi
  | ebp
  | esp
  | ebx
  | edx
  | ecx
  | eax
  deriving DecidableEq, Repr

structure User where
  reg : Reg → Word
  eip : Word
  eflags : Word
  mem : ByteMem

abbrev User.esp (u : User) : Word := u.reg .esp

def User.set (u : User) (r : Reg) (v : Word) : User :=
  { u with reg := fun q => if q = r then v else u.reg q }

/-- One flag. -/
def flag (f : Word) (b : Bool) : Word := if b then f else 0

/-- The flags that `x + y` (`x - y` if `borrow`) sets. -/
def statusOf (borrow : Bool) (x y : Word) : Word :=
  let r := if borrow then x - y else x + y
  flag flCF (if borrow then x < y else r < x) |||
  flag flPF ((List.range 8).countP (r.getLsbD ·) % 2 == 0) |||
  flag flAF ((x ^^^ y ^^^ r).getLsbD 4) |||
  flag flZF (r == 0) |||
  flag flSF r.msb |||
  flag flOF ((if borrow then (x ^^^ y) &&& (x ^^^ r) else (x ^^^ r) &&& (y ^^^ r)).msb)

def User.setStatus (u : User) (v : Word) : User :=
  { u with eflags := (u.eflags &&& ~~~flStatus) ||| (v &&& flStatus) }

/-! ## Instructions -/

inductive Instr where
  | pushl (r : Reg)
  | popl (r : Reg)
  /-- `movl a, %r`. -/
  | movlAbs (a : Word) (r : Reg)
  /-- `movl off(%base), %r`. -/
  | movlLoad (off : Word) (base r : Reg)
  /-- `movl %r, off(%base)`. -/
  | movlStore (r : Reg) (off : Word) (base : Reg)
  | addl (n : Word) (r : Reg)
  | subl (n : Word) (r : Reg)
  | popal
  | popfl
  /-- `call *%r`, with the address behind it. -/
  | call (r : Reg) (returnAddr : Word)
  | ret
  deriving DecidableEq, Repr

/-- What the instruction does when nothing stops it. -/
def Instr.exec (u : User) : Instr → User
  | .pushl r => { u with mem := storeWord u.mem (u.esp - 4) (u.reg r) }.set .esp (u.esp - 4)
  | .popl r => (u.set .esp (u.esp + 4)).set r (readWord u.mem u.esp)
  | .movlAbs a r => u.set r (readWord u.mem a)
  | .movlLoad off base r => u.set r (readWord u.mem (u.reg base + off))
  | .movlStore r off base => { u with mem := storeWord u.mem (u.reg base + off) (u.reg r) }
  | .addl n r => (u.setStatus (statusOf false (u.reg r) n)).set r (u.reg r + n)
  | .subl n r => (u.setStatus (statusOf true (u.reg r) n)).set r (u.reg r - n)
  | .popal =>
      -- the word of `esp` is passed over
      { u with reg := fun
          | .edi => readWord u.mem u.esp
          | .esi => readWord u.mem (u.esp + 4)
          | .ebp => readWord u.mem (u.esp + 8)
          | .esp => u.esp + 32
          | .ebx => readWord u.mem (u.esp + 16)
          | .edx => readWord u.mem (u.esp + 20)
          | .ecx => readWord u.mem (u.esp + 24)
          | .eax => readWord u.mem (u.esp + 28) }
  | .popfl =>
      { u with eflags := (readWord u.mem u.esp &&& flUser) |||
          (u.eflags &&& ~~~(flUser ||| flRF)) }.set .esp (u.esp + 4)
  | .call r returnAddr =>
      { u with mem := storeWord u.mem (u.esp - 4) returnAddr, eip := u.reg r }.set
        .esp (u.esp - 4)
  | .ret => { u with eip := readWord u.mem u.esp }.set .esp (u.esp + 4)

/-- The words that the instruction reads or writes. -/
def Instr.accesses (u : User) : Instr → List Word
  | .pushl _ | .call _ _ => [u.esp - 4]
  | .popl _ | .popfl | .ret => [u.esp]
  | .movlAbs a _ => [a]
  | .movlLoad off base _ | .movlStore _ off base => [u.reg base + off]
  | .addl _ _ | .subl _ _ => []
  | .popal => (List.range 8).map fun i => u.esp + BitVec.ofNat 32 (4 * i)

/-- No alignment check stops an access to the word at `a`. -/
def Accessible (eflags a : Word) : Prop := eflags &&& flAC = 0 ∨ a &&& 3 = 0

instance (eflags a : Word) : Decidable (Accessible eflags a) :=
  inferInstanceAs (Decidable (_ ∨ _))

/-- No debug exception ends the instruction. -/
def Unstepped (eflags : Word) : Prop := eflags &&& flTF = 0

instance (eflags : Word) : Decidable (Unstepped eflags) :=
  inferInstanceAs (Decidable (eflags &&& flTF = 0))

/-- The instruction is not stopped. -/
structure Instr.Runs (mapped : Word → Bool) (u : User) (i : Instr) : Prop where
  unstepped : Unstepped u.eflags
  accesses : ∀ a ∈ i.accesses u, Accessible u.eflags a ∧ mapped a = true

instance (mapped : Word → Bool) (u : User) (i : Instr) : Decidable (i.Runs mapped u) :=
  decidable_of_iff (Unstepped u.eflags ∧
      ∀ a ∈ i.accesses u, Accessible u.eflags a ∧ mapped a = true)
    ⟨fun h => ⟨h.1, h.2⟩, fun h => ⟨h.unstepped, h.accesses⟩⟩

/-- The instructions one after the other; `none` if one of them is
stopped. -/
def execAll (mapped : Word → Bool) : List Instr → User → Option User
  | [], u => some u
  | i :: is, u => if i.Runs mapped u then execAll mapped is (i.exec u) else none

/-! ## The fault -/

/-- What the trap saves; `oesp` is where the kernel's stack was. -/
def User.trapframe (u : User) (err oesp : Word) : Trapframe where
  tfRegs :=
    { regEdi := u.reg .edi, regEsi := u.reg .esi, regEbp := u.reg .ebp, regOesp := oesp,
      regEbx := u.reg .ebx, regEdx := u.reg .edx, regEcx := u.reg .ecx, regEax := u.reg .eax }
  tfErr := err
  tfEip := u.eip
  tfEflags := u.eflags ||| flRF
  tfEsp := u.esp
  tfCs := 0x1b
  tfDs := 0x23
  tfEs := 0x23
  tfSs := 0x23

/-- The environment as `page_fault_handler` resumes it at `upcall`. -/
def User.pageFault (u : User) (upcall faultVa err oesp : Word) : User :=
  let (stores, tmp) := pushUTrapframe (u.trapframe err oesp) faultVa
  { u with
    eip := upcall
    eflags := u.eflags ||| flRF
    mem := stores.foldl (fun m (st : Store) => storeBytes m st.addr st.bytes) u.mem }.set
      .esp tmp

/-! ## `_pgfault_upcall` -/

/-- Where the code and its variable are, in an address space whose words
in `mapped` can be read and written. The variable is a C pointer. -/
structure Upcall where
  mapped : Word → Bool
  entry : Word
  /-- `&_pgfault_handler`. -/
  handlerVar : Word
  /-- The instruction after the call. -/
  returnAddr : Word
  aligned : handlerVar &&& 3 = 0

/-- Up to the first instruction of the handler. -/
def Upcall.callHandler (p : Upcall) : List Instr :=
  [.pushl .esp, .movlAbs p.handlerVar .eax, .call .eax p.returnAddr]

/-- Push trap-time `eip` in the trap-time stack. -/
def pushEip : List Instr :=
  [.addl 4 .esp, .movlLoad 40 .esp .eax, .movlLoad 48 .esp .ebx, .subl 4 .ebx,
    .movlStore .eax 0 .ebx, .movlStore .ebx 48 .esp]

/-- Restore the trap-time registers. -/
def restoreRegs : List Instr := [.popl .eax, .popl .eax, .popal]

/-- Restore `eflags` from the stack, switch back to the adjusted trap-time
stack, and re-execute the instruction that faulted. -/
def switchBack : List Instr := [.addl 4 .esp, .popfl, .popl .esp, .ret]

/-- After the handler has returned. -/
def returnToFault : List Instr := pushEip ++ restoreRegs ++ switchBack

/-! ## The handler -/

/-- The address is on the exception stack. -/
def OnStack (a : Word) : Prop := Kern.exstk ≤ a ∧ a < uxstacktop

instance (a : Word) : Decidable (OnStack a) := inferInstanceAs (Decidable (_ ∧ _))

/-- The exception stack, with the two words that the call of the handler
takes below a frame at its very end. -/
def Spill (a : Word) : Prop := Kern.exstk - 8 ≤ a ∧ a < uxstacktop

instance (a : Word) : Decidable (Spill a) := inferInstanceAs (Decidable (_ ∧ _))

/-- A stretch of C code of the handler that was entered in `entry`. It
leaves alone what is above its return address and its argument, and the
memory in `keep`; of the flags it sets those that compiled code sets. -/
structure CodeStep (keep : Word → Prop) (entry x y : User) : Prop where
  flags : y.eflags &&& ~~~(flStatus ||| flDF ||| flRF) =
    x.eflags &&& ~~~(flStatus ||| flDF ||| flRF)
  above : ∀ a, entry.esp + 8 ≤ a → y.mem a = x.mem a
  kept : ∀ a, keep a → ¬ Spill a → y.mem a = x.mem a

/-- The fault is on the exception stack, and its frame and scratch word
fit below. -/
def Fits (u : User) : Prop := Kern.exstk + 56 ≤ u.esp ∧ u.esp < uxstacktop

/-- The states of the handler: its code, and faults that `R` brings back. -/
inductive HandlerRun (keep : Word → Prop) (R : User → User → Prop) (entry : User) :
    User → Prop where
  | entry : HandlerRun keep R entry entry
  | code {x y : User} : HandlerRun keep R entry x → CodeStep keep entry x y →
      HandlerRun keep R entry y
  | fault {x y : User} : HandlerRun keep R entry x → Fits x → x.esp ≤ entry.esp → R x y →
      HandlerRun keep R entry y

/-- The handler has executed its `ret`. -/
def Returned (entry x : User) : Prop :=
  x.esp = entry.esp + 4 ∧ x.eip = readWord entry.mem entry.esp

/-- From the instruction that faults in `u` and back to it. -/
def RoundTrip (p : Upcall) (keep : Word → Prop) (R : User → User → Prop) (u u' : User) : Prop :=
  ∃ faultVa err oesp entry x,
    execAll p.mapped p.callHandler (u.pageFault p.entry faultVa err oesp) = some entry ∧
    HandlerRun keep R entry x ∧ Returned entry x ∧ execAll p.mapped returnToFault x = some u'

/-- Round trips whose handlers fault to a depth of at most `n`. -/
def FaultRun (p : Upcall) (keep : Word → Prop) : Nat → User → User → Prop
  | 0 => RoundTrip p keep (fun _ _ => False)
  | n + 1 => RoundTrip p keep (FaultRun p keep n)

end SistemasOperativos.UserLib
