/-
SistemasOperativos.Kern.Loader — the first programs: `region_alloc`,
`load_icode` and `env_create` of `env.c`.

Translation notes. `load_icode` runs with the page directory of the new
environment in CR3, so `memset` and `memcpy` store through its page
tables; `storeByte` is that translation, with the write test of a kernel
that has set `CR0_WP`. The binary is linked into the kernel and is only
read: `kmem` is what the kernel finds at its own addresses. Pages hold
words, a byte of a page is one of the four of its word, lowest first. A
header that makes the kernel store at or above `UTOP` is an error here:
where that store lands is not followed.
-/
import SistemasOperativos.Kern.UserMem

namespace SistemasOperativos.Kern

/-- Where the loader stops: its panics, those of `pmap.c`, and a page
fault in the kernel. -/
inductive LoadPanic where
  | notElf
  | highVa
  | noPage
  | insertFailed
  | fault (va : Word)
  | kernelStore (va : Word)
  | noEnv (r : Int)
  | pmap (p : Panic)
  deriving DecidableEq, Repr

/-! ## Bytes of a page -/

/-- `PGOFF`. -/
def pgoff (la : Word) : Nat := la.toNat % 4096

/-- Byte `b` of a word. -/
def wordByte (w : Word) (b : Nat) : BitVec 8 := w.extractLsb' (8 * b) 8

def wordSetByte (w : Word) (b : Nat) (v : BitVec 8) : Word :=
  w &&& ~~~((0xFF : Word) <<< (8 * b)) ||| v.zeroExtend 32 <<< (8 * b)

def Pmap.byte (m : Pmap) (page off : Nat) : BitVec 8 := wordByte (m.frames page (off / 4)) (off % 4)

def Pmap.setByte (m : Pmap) (page off : Nat) (v : BitVec 8) : Pmap :=
  m.setWord ⟨page, off / 4⟩ (wordSetByte (m.frames page (off / 4)) (off % 4) v)

/-! ## `region_alloc` -/

/-- `page_alloc(0)`: the page keeps what it held. -/
def pageTake (m : Pmap) : Option (Nat × Pmap) :=
  match m.pageFreeList with
  | [] => none
  | pp :: rest => some (pp, { m with pageFreeList := rest })

/-- One turn of the loop. -/
def allocPage (pgdir : Nat) (m : Pmap) (vaAct : Word) : Except LoadPanic Pmap :=
  match pageTake m with
  | none => .error .noPage
  | some (p, m) =>
      match pageInsert m pgdir p vaAct (pteU ||| pteW) with
      | .error panic => .error (.pmap panic)
      | .ok (r, m) => if r ≠ 0 then .error .insertFailed else .ok m

/-- The loop from `vaAct` on. -/
def allocPages (pgdir : Nat) (vaHi : Word) : Nat → Word → Pmap → Except LoadPanic Pmap
  | 0, _, m => return m
  | fuel + 1, vaAct, m =>
      if vaAct < vaHi then do
        let m ← allocPage pgdir m vaAct
        allocPages pgdir vaHi fuel (vaAct + 4096) m
      else return m

def regionAlloc (pgdir : Nat) (m : Pmap) (va len : Word) : Except LoadPanic Pmap :=
  let vaHi := roundup (va + len)
  if vaHi > utop then .error .highVa
  else allocPages pgdir vaHi npages32 (rounddown va) m

/-! ## Stores through the page tables -/

/-- The entry lets the kernel write. -/
def writable (w : Word) : Bool := w &&& (pteP ||| pteW) == pteP ||| pteW

def storeByte (pgdir : Nat) (m : Pmap) (va : Word) (v : BitVec 8) : Except LoadPanic Pmap :=
  if utop ≤ va then .error (.kernelStore va)
  else
    let pde := m.frames pgdir (pdx va)
    let pte := m.frames (pgnum pde) (ptx va)
    if writable pde && writable pte then .ok (m.setByte (pgnum pte) (pgoff va) v)
    else .error (.fault va)

/-- `memset(va, c, n)`. -/
def memset (pgdir : Nat) (m : Pmap) (va : Word) (c : BitVec 8) (n : Word) : Except LoadPanic Pmap :=
  (List.range n.toNat).foldlM (fun m i => storeByte pgdir m (va + BitVec.ofNat 32 i) c) m

/-- `memcpy(va, src, n)` from the kernel's own memory. -/
def memcpy (kmem : Word → BitVec 8) (pgdir : Nat) (m : Pmap) (va src n : Word) :
    Except LoadPanic Pmap :=
  (List.range n.toNat).foldlM
    (fun m i => storeByte pgdir m (va + BitVec.ofNat 32 i) (kmem (src + BitVec.ofNat 32 i))) m

/-! ## `inc/elf.h` -/

abbrev elfMagic : Word := 0x464C457F
abbrev elfProgLoad : Word := 1

/-- A `uint16_t` at `a`. -/
def half (kmem : Word → BitVec 8) (a : Word) : Word :=
  (kmem a).zeroExtend 32 ||| (kmem (a + 1)).zeroExtend 32 <<< 8

/-- A `uint32_t` at `a`. -/
def word32 (kmem : Word → BitVec 8) (a : Word) : Word := half kmem a ||| half kmem (a + 2) <<< 16

/-- The fields of `struct Proghdr` that the loader reads. -/
structure Proghdr where
  pType : Word
  pOffset : Word
  pVa : Word
  pFilesz : Word
  pMemsz : Word
  deriving DecidableEq, Repr

def proghdrAt (kmem : Word → BitVec 8) (ph : Word) : Proghdr where
  pType := word32 kmem ph
  pOffset := word32 kmem (ph + 4)
  pVa := word32 kmem (ph + 8)
  pFilesz := word32 kmem (ph + 16)
  pMemsz := word32 kmem (ph + 20)

/-- The headers from `ph` up to `ph_last`. The end may wrap, and then there
are none. -/
def proghdrs (kmem : Word → BitVec 8) (binary : Word) : List Proghdr :=
  let ph := binary + word32 kmem (binary + 28)
  let phnum := half kmem (binary + 44)
  if ph < ph + 32 * phnum then
    (List.range phnum.toNat).map (fun i => proghdrAt kmem (ph + 32 * BitVec.ofNat 32 i))
  else []

/-! ## `load_icode`, `env_create` -/

/-- One turn of the loop over the headers. -/
def loadSegment (kmem : Word → BitVec 8) (binary : Word) (pgdir : Nat) (m : Pmap) (ph : Proghdr) :
    Except LoadPanic Pmap :=
  if ph.pType ≠ elfProgLoad then return m
  else do
    let m ← regionAlloc pgdir m ph.pVa ph.pMemsz
    let m ← memset pgdir m ph.pVa 0 ph.pMemsz
    memcpy kmem pgdir m ph.pVa (binary + ph.pOffset) ph.pFilesz

def loadIcode (kmem : Word → BitVec 8) (k : Kernel) (e : EnvIdx) (binary : Word) :
    Except LoadPanic Kernel :=
  if word32 kmem binary ≠ elfMagic then .error .notElf
  else
    match (k.envs e).envPgdir with
    | none => .error (.pmap .nullPgdir)
    | some pgdir => do
        let m ← (proghdrs kmem binary).foldlM (loadSegment kmem binary pgdir) k.mem
        -- the page of the initial stack
        let m ← regionAlloc pgdir m (ustacktop - 4096) 4096
        let entry := word32 kmem (binary + 24)
        return { k with mem := m }.modifyEnv e
          (fun v => { v with envTf := { v.envTf with tfEip := entry } })

/-- `env_create`, with the environment that goes to `env_last_created`. -/
def envCreate (kmem : Word → BitVec 8) (k : Kernel) (binary : Word) :
    Except LoadPanic (EnvIdx × Kernel) :=
  match envAlloc k 0 with
  | .error r => .error (.noEnv r)
  | .ok (e, k) => do
      let k ← loadIcode kmem k e binary
      return (e, k.modifyEnv e (fun v => { v with priority := maxPriority }))

end SistemasOperativos.Kern
