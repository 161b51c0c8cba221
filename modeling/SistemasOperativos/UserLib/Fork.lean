/-
SistemasOperativos.UserLib.Fork — `lib/fork.c`: copy-on-write fork in user
space.

Translation notes. An address space is a map from page numbers below
`UTOP` to a physical page and its `PTE_*` bits; a page directory entry
that is not present is a range of pages that are not mapped. Memory is
never exhausted: a page that is allocated is any page that nobody maps,
and is an argument of the step. A system call that fails, and every
`panic`, is `none`. `_pgfault_handler` is a variable of the program that
only `set_pgfault_handler` reads; here it is a field of its own.
-/
import SistemasOperativos.Kern.Types

namespace SistemasOperativos.UserLib

open SistemasOperativos.Kern (Word pteP pteW pteU ptePWT ptePCD)

/-! ## Constants, in pages -/

abbrev pteCOW : Word := 0x800
abbrev fecWr : Word := 2

/-- `UTOP >> PGSHIFT`. -/
abbrev pnumEnd : Nat := 977920

/-- The page of `PFTEMP`. -/
abbrev pftemp : Nat := 2047

/-- The exception stack, `(UXSTACKTOP >> PGSHIFT) - 1`. -/
abbrev exstk : Nat := pnumEnd - 1

/-! ## Address spaces -/

structure Pte where
  page : Nat
  perm : Word
  deriving DecidableEq, Repr

abbrev Space := Nat → Option Pte

abbrev Content := Nat → BitVec 8

abbrev Pid := Nat

inductive Status where
  | absent
  | running
  /-- In the loop of `fork`, about to look at page `pnum`. -/
  | forking (child : Pid) (pnum : Nat)
  /-- Created by `sys_exofork` and not yet runnable. -/
  | embryo
  deriving DecidableEq, Repr

structure Machine where
  spaces : Pid → Space
  contents : Nat → Content
  status : Pid → Status
  handler : Pid → Bool

/-- Store into one entry of one address space. -/
def Machine.setPte (m : Machine) (e : Pid) (pn : Nat) (pte : Option Pte) : Machine :=
  { m with spaces := Function.update m.spaces e (Function.update (m.spaces e) pn pte) }

def Machine.setContent (m : Machine) (page : Nat) (c : Content) : Machine :=
  { m with contents := Function.update m.contents page c }

def Machine.setStatus (m : Machine) (e : Pid) (s : Status) : Machine :=
  { m with status := Function.update m.status e s }

/-! ## System calls -/

/-- `sys_page_alloc`, with the page that `page_alloc` returns. -/
def sysPageAlloc (m : Machine) (e : Pid) (pn : Nat) (perm : Word) (page : Nat) : Machine :=
  (m.setContent page (fun _ => 0)).setPte e pn (some ⟨page, perm ||| pteU ||| pteP⟩)

def sysPageMap (m : Machine) (src : Pid) (srcpn : Nat) (dst : Pid) (dstpn : Nat) (perm : Word) :
    Option Machine :=
  let perm := pteP ||| pteU ||| perm
  match m.spaces src srcpn with
  | none => none
  | some pte =>
      if (perm &&& pteW) &&& ~~~(pteW &&& pte.perm) ≠ 0 then none
      else some (m.setPte dst dstpn (some ⟨pte.page, perm⟩))

def sysPageUnmap (m : Machine) (e : Pid) (pn : Nat) : Machine := m.setPte e pn none

/-- `memmove` of one page to another. -/
def memmove (m : Machine) (e : Pid) (dstpn srcpn : Nat) : Option Machine :=
  match m.spaces e dstpn with
  | none => none
  | some dst =>
      match m.spaces e srcpn with
      | none => none
      | some src => some (m.setContent dst.page (m.contents src.page))

/-! ## `pgfault` -/

/-- `uvpt[pn]`, as far as its low bits go. -/
def uvptPerm (m : Machine) (e : Pid) (pn : Nat) : Word :=
  match m.spaces e pn with
  | none => 0
  | some pte => pte.perm

/-- `!x`. -/
def lnot (x : Word) : Word := if x = 0 then 1 else 0

/-- `pgfault`, with the page that `sys_page_alloc` gets. The test joins
its two halves with `&`. -/
def pgfault (m : Machine) (e : Pid) (pn : Nat) (err : Word) (page : Nat) : Option Machine :=
  if (err &&& fecWr) &&& lnot (uvptPerm m e pn &&& pteCOW) ≠ 0 then none
  else do
    let perm := pteP ||| pteU ||| pteW
    let m := sysPageAlloc m e pftemp perm page
    let m ← memmove m e pftemp pn
    let m ← sysPageMap m e pftemp e pn perm
    return sysPageUnmap m e pftemp

/-! ## `fork` -/

def duppage (m : Machine) (e envid : Pid) (pn : Nat) : Option Machine :=
  let pte := uvptPerm m e pn
  if pte &&& pteP = 0 ∨ pte &&& pteU = 0 then none
  else
    let perm := pteU ||| pteP
    let perm := if pte &&& (ptePCD ||| ptePWT) ≠ 0 then perm ||| ptePCD ||| ptePWT else perm
    if pte &&& pteW ≠ 0 ∨ pte &&& pteCOW ≠ 0 then do
      let m ← sysPageMap m e pn envid pn (perm ||| pteCOW)
      sysPageMap m e pn e pn (perm ||| pteCOW)
    else sysPageMap m e pn envid pn perm

/-- One turn of the loop of `fork`. -/
def forkPage (m : Machine) (e envid : Pid) (pnum : Nat) : Option Machine :=
  if pnum = exstk then some m
  else if uvptPerm m e pnum &&& pteP = 0 ∨ uvptPerm m e pnum &&& pteU = 0 then some m
  else duppage m e envid pnum

/-- `set_pgfault_handler`. -/
def setPgfaultHandler (m : Machine) (e : Pid) (page : Nat) : Machine :=
  let m := if m.handler e = false then sysPageAlloc m e exstk (pteU ||| pteP ||| pteW) page else m
  { m with handler := Function.update m.handler e true }

/-- `fork` up to the loop. The child starts with an empty address space;
its copy of `_pgfault_handler` is the parent's. -/
def forkStart (m : Machine) (e envid : Pid) (page : Nat) : Machine :=
  let m := setPgfaultHandler m e page
  let m := { m with
    spaces := Function.update m.spaces envid (fun _ => none)
    handler := Function.update m.handler envid true }
  (m.setStatus envid .embryo).setStatus e (.forking envid 0)

/-- `fork` after the loop. -/
def forkEnd (m : Machine) (e envid : Pid) (page : Nat) : Machine :=
  let m := sysPageAlloc m envid exstk (pteU ||| pteP ||| pteW) page
  (m.setStatus envid .running).setStatus e .running

/-! ## Steps -/

/-- A page that `page_alloc` may return. `outside` are the pages of the
other environments. -/
def Fresh (outside : Nat → Prop) (m : Machine) (page : Nat) : Prop :=
  ¬ outside page ∧ ∀ e pn pte, m.spaces e pn = some pte → pte.page ≠ page

/-- The process executes its program. -/
def Alive (m : Machine) (e : Pid) : Prop :=
  m.status e = .running ∨ ∃ envid pnum, m.status e = .forking envid pnum

/-- What matters for the contents of memory. -/
inductive Event where
  | fork (e envid : Pid)
  /-- One byte; `heir` is the child of the `fork` that `e` is in, when that
  page has not been duplicated yet. -/
  | write (e : Pid) (pn off : Nat) (byte : BitVec 8) (heir : Option Pid)
  deriving DecidableEq, Repr

/-- The child that a write of `e` to page `pn` reaches. -/
def heirOf (m : Machine) (e : Pid) (pn : Nat) : Option Pid :=
  match m.status e with
  | .forking envid pnum => if pnum ≤ pn then some envid else none
  | _ => none

/-- One step; the writes are to pages in `tracked`. A write to a page that
is not writable faults first. -/
inductive Step (outside tracked : Nat → Prop) : Machine → List Event → Machine → Prop where
  | write {m : Machine} {e : Pid} {pn off : Nat} {byte : BitVec 8} {pte : Pte} :
      Alive m e → tracked pn → m.spaces e pn = some pte → pte.perm &&& pteW ≠ 0 →
      Step outside tracked m [.write e pn off byte (heirOf m e pn)]
        (m.setContent pte.page (Function.update (m.contents pte.page) off byte))
  | fault {m m' : Machine} {e : Pid} {pn page : Nat} {pte : Pte} :
      Alive m e → tracked pn → m.spaces e pn = some pte → pte.perm &&& pteW = 0 →
      Fresh outside m page → pgfault m e pn 7 page = some m' → Step outside tracked m [] m'
  | forkStart {m : Machine} {e envid : Pid} {page : Nat} :
      m.status e = .running → m.status envid = .absent → Fresh outside m page →
      Step outside tracked m [.fork e envid] (forkStart m e envid page)
  | forkPage {m m' : Machine} {e envid : Pid} {pnum : Nat} :
      m.status e = .forking envid pnum → pnum < pnumEnd → forkPage m e envid pnum = some m' →
      Step outside tracked m [] (m'.setStatus e (.forking envid (pnum + 1)))
  | forkEnd {m : Machine} {e envid : Pid} {page : Nat} :
      m.status e = .forking envid pnumEnd → Fresh outside m page →
      Step outside tracked m [] (forkEnd m e envid page)

/-- Runs with their history. -/
inductive Run (outside tracked : Nat → Prop) (m₀ : Machine) : Machine → List Event → Prop where
  | start : Run outside tracked m₀ m₀ []
  | step {m m' : Machine} {h evs : List Event} :
      Run outside tracked m₀ m h → Step outside tracked m evs m' →
      Run outside tracked m₀ m' (h ++ evs)

end SistemasOperativos.UserLib
