/-
SistemasOperativos.Kern.Boot — `pmap.c` while the kernel starts:
`boot_alloc`, `page_init`, `boot_map_region`, `mmio_map_region` and
`mem_init`.

Translation notes. Addresses and sizes are `uint32_t` and wrap. What the
linker decides is a parameter: where the kernel ends, and where the
stacks of the CPUs are. The static variables `nextfree` and `base` are
fields of `Boot`. The arrays `pages` and `envs` are kept by their
addresses, for the mappings; what they hold is `Pmap` and the table of
environments. Of the self-checks of `mem_init`, the ones that leave
something behind or look at the result are here: `check_page_free_list`,
the end of `check_page`, and `check_kern_pgdir`. The others take pages and
give them back; `Checked` is what they may leave changed. `cr0` and the
messages are left out.

Up to `lcr3(PADDR(kern_pgdir))` the CPU uses `entry_pgdir`, which maps the
first 4 MB only. A store to a page behind them is a fault: the `memset`s
of `mem_init` are tested for it, and each page table that an entry is
written to. The rest goes through these: the loops over `pages` stay in
the array, and the checks read page tables that have been written.
-/
import SistemasOperativos.Kern.UserMem

namespace SistemasOperativos.Kern

/-! ## `inc/memlayout.h`, `kern/cpu.h` -/

abbrev kernbase : Word := 0xF0000000
abbrev kstacktop : Word := kernbase
abbrev mmiolim : Word := 0xEFC00000
abbrev mmiobase : Word := 0xEF800000
abbrev upages : Word := 0xEF000000
abbrev uenvs : Word := 0xEEC00000

abbrev kstksize : Word := 32768
abbrev kstkgap : Word := 32768
abbrev ncpu : Nat := 8

abbrev iophysmem : Word := 0x0A0000
abbrev extphysmem : Word := 0x100000
abbrev mpentryPaddr : Word := 0x7000

abbrev sizeofPageInfo : Nat := 8
abbrev sizeofEnv : Nat := 128

/-- Where the kernel stops while it starts. -/
inductive BootPanic where
  | notEnough
  | paddr (kva : Word)
  | mmioOverflow
  | nullPte
  | assertion
  /-- A store through an address that is not mapped yet. -/
  | unmapped (kva : Word)
  | pmap (p : Panic)
  deriving DecidableEq, Repr

/-- The panics of `pmap.c`. -/
def liftPanic {α : Type} : Except Panic α → Except BootPanic α
  | .ok a => .ok a
  | .error p => .error (.pmap p)

def assert (b : Bool) : Except BootPanic Unit := if b then .ok () else .error .assertion

/-- `PADDR(kva)`. -/
def paddr (kva : Word) : Except BootPanic Word :=
  if kva < kernbase then .error (.paddr kva) else .ok (kva - kernbase)

/-- The pages that `entry_pgdir` maps from `KERNBASE` on. -/
abbrev entryPages : Nat := 1024

/-- `memset(kva, c, n)` while the pages below `mapped` are mapped. -/
def mappedSet (mapped : Nat) (kva n : Word) : Except BootPanic Unit :=
  if kva.toNat + n.toNat ≤ kernbase.toNat + mapped * pgsize then .ok () else .error (.unmapped kva)

/-! ## `boot_alloc` -/

structure Boot where
  mem : Pmap
  nextfree : Word
  /-- The static `base` of `mmio_map_region`. -/
  base : Word

def bootAlloc (s : Boot) (n : Word) : Except BootPanic (Word × Boot) := do
  let last ← paddr (s.nextfree + n)
  if last ≥ BitVec.ofNat 32 (pgsize * s.mem.npages) then .error .notEnough
  else do
    let _ ← liftPanic (kaddr s.mem last)
    return (s.nextfree, { s with nextfree := roundup (last + kernbase) })

/-! ## `page_init` -/

/-- `i >= PGNUM(EXTPHYSMEM) && i < PGNUM(PADDR(boot_alloc(0)))`. -/
def takenByKernel (s : Boot) (i : Nat) : Except BootPanic (Bool × Boot) :=
  if i ≥ pgnum extphysmem then do
    let (kva, s) ← bootAlloc s 0
    let pa ← paddr kva
    return (decide (i < pgnum pa), s)
  else return (false, s)

/-- `pages[i]` goes to the head of the free list. -/
def Boot.push (s : Boot) (i : Nat) : Boot :=
  { s with mem := { s.mem.setRef i 0 with pageFreeList := i :: s.mem.pageFreeList } }

/-- One turn of the loop. -/
def pageInitTurn (s : Boot) (i : Nat) : Except BootPanic Boot :=
  if i = 0 then return s
  else if pgnum mpentryPaddr = i then return s
  else if i ≥ pgnum iophysmem ∧ i < pgnum extphysmem then return s
  else do
    let (used, s) ← takenByKernel s i
    return if used then s else s.push i

def pageInit (s : Boot) : Except BootPanic Boot := (List.range s.mem.npages).foldlM pageInitTurn s

/-! ## `boot_map_region`, `mmio_map_region` -/

/-- One turn of the loop, while the pages below `mapped` are mapped. The
entry is written without a test of `pte`. -/
def bootMapPage (mapped pgdir : Nat) (perm : Word) (m : Pmap) (va pa : Word) :
    Except BootPanic Pmap := do
  let (pte, m) ← liftPanic (pgdirWalk m pgdir va)
  let m ← liftPanic (pageRemove m pgdir va)
  match pte with
  | none => .error .nullPte
  | some pte =>
      if pte.page ≥ mapped then .error (.unmapped (page2pa pte.page + kernbase))
      else return m.setWord pte (pa ||| perm ||| pteP)

/-- `boot_map_region` without `TP1_PSE`, for a size that rounds up to less
than 2^32. -/
def bootMapRegion (mapped pgdir : Nat) (m : Pmap) (va size pa perm : Word) :
    Except BootPanic Pmap :=
  (List.range ((size.toNat + 4095) / 4096)).foldlM
    (fun m i => bootMapPage mapped pgdir perm m (va + BitVec.ofNat 32 (i * 4096))
      (pa + BitVec.ofNat 32 (i * 4096))) m

def mmioMapRegion (mapped : Nat) (s : Boot) (pa size : Word) :
    Except BootPanic (Word × Boot) :=
  let pa := rounddown pa
  let size := roundup size
  if s.base + size ≥ mmiolim then .error .mmioOverflow
  else do
    let mem ← bootMapRegion mapped s.mem.kernPgdir s.mem s.base size pa
      (pteW ||| pteP ||| ptePCD ||| ptePWT)
    return (s.base, { s with mem := mem, base := s.base + size })

/-! ## `mem_init` -/

/-- `i386_detect_memory`, from the kilobytes that the CMOS reports:
`npages`. -/
def i386DetectMemory (basemem extmem ext16 : Nat) : Nat :=
  let ext16mem := ext16 * 64
  let totalmem :=
    if ext16mem ≠ 0 then 16 * 1024 + ext16mem
    else if extmem ≠ 0 then 1 * 1024 + extmem
    else basemem
  totalmem / (pgsize / 1024)

/-- What the linker decides. -/
structure Linked where
  kernEnd : Word
  percpuKstacks : Word

/-- The kernel once `kern_pgdir`, `pages` and `envs` are allocated. -/
structure Booting extends Boot where
  pages : Word
  envs : Word

/-- `mem_init` up to `page_init`. `frames` is what memory held before. -/
def memInitAlloc (l : Linked) (npages : Nat) (frames : Nat → Nat → Word) :
    Except BootPanic Booting := do
  let mem : Pmap :=
    { npages := npages, kernPgdir := 0, frames := frames, ppRef := fun _ => 0, pageFreeList := [] }
  let (pgdir, s) ← bootAlloc { mem := mem, nextfree := roundup l.kernEnd, base := mmiobase } 4096
  mappedSet entryPages pgdir 4096
  let pa ← paddr pgdir
  let dir := Function.update (fun _ => 0) (pdx uvpt) (pa ||| pteU ||| pteP)
  let s := { s with mem :=
    { s.mem with kernPgdir := pgnum pa, frames := Function.update frames (pgnum pa) dir } }
  let pagesSize := BitVec.ofNat 32 (npages * sizeofPageInfo)
  let (pages, s) ← bootAlloc s pagesSize
  mappedSet entryPages pages pagesSize
  let envsSize := BitVec.ofNat 32 (nenv * sizeofEnv)
  let (envs, s) ← bootAlloc s envsSize
  mappedSet entryPages envs envsSize
  let s ← pageInit s
  return { toBoot := s, pages := pages, envs := envs }

/-- What the checks of the allocator and of `page_insert` may leave behind:
the three pages they take go back in another order, and free pages may
have other contents. -/
structure Checked (s s' : Booting) : Prop where
  npages : s'.mem.npages = s.mem.npages
  kernPgdir : s'.mem.kernPgdir = s.mem.kernPgdir
  ppRef : s'.mem.ppRef = s.mem.ppRef
  free : ∃ taken given rest, s.mem.pageFreeList = taken ++ rest ∧
    s'.mem.pageFreeList = given ++ rest ∧ given.Perm taken ∧ taken.length ≤ 3
  frames : ∀ p, p ∉ s.mem.pageFreeList → s'.mem.frames p = s.mem.frames p
  nextfree : s'.nextfree = s.nextfree
  base : s'.base = s.base
  pages : s'.pages = s.pages
  envs : s'.envs = s.envs

/-- `mem_init_mp`. -/
def memInitMp (l : Linked) (m : Pmap) : Except BootPanic Pmap :=
  (List.range ncpu).foldlM
    (fun m i => do
      let start := kstacktop - BitVec.ofNat 32 i * (kstksize + kstkgap) - kstksize
      let pa ← paddr (l.percpuKstacks + BitVec.ofNat 32 i * kstksize)
      bootMapRegion entryPages m.kernPgdir m start kstksize pa (pteW ||| pteP)) m

/-- `mem_init` from the mappings on. -/
def memInitMap (l : Linked) (s : Booting) : Except BootPanic Pmap := do
  let pagesSize := BitVec.ofNat 32 (s.mem.npages * sizeofPageInfo)
  let envsSize := BitVec.ofNat 32 (nenv * sizeofEnv)
  let pa ← paddr s.pages
  let m ← bootMapRegion entryPages s.mem.kernPgdir s.mem upages (roundup pagesSize) pa (pteU ||| pteP)
  let pa ← paddr s.envs
  let m ← bootMapRegion entryPages m.kernPgdir m uenvs (roundup envsSize) pa (pteU ||| pteP)
  let m ← bootMapRegion entryPages m.kernPgdir m kernbase 0x10000000 0 (pteW ||| pteP)
  memInitMp l m

/-! ## Checks -/

abbrev ptePS : Word := 0x080

/-- The asserts on one page of the free list. -/
def checkFreePage (m : Pmap) (firstFreePage : Word) (pp : Nat) : Bool :=
  decide (pp < m.npages) && page2pa pp != 0 && page2pa pp != iophysmem &&
    page2pa pp != extphysmem - 4096 && page2pa pp != extphysmem &&
    (decide (page2pa pp < extphysmem) || decide (page2pa pp + kernbase ≥ firstFreePage)) &&
    page2pa pp != mpentryPaddr

/-- `check_page_free_list` from `boot_alloc(0)` on. -/
def checkFreePages (s : Boot) : Except BootPanic Boot := do
  let (firstFreePage, s) ← bootAlloc s 0
  let list := s.mem.pageFreeList
  list.forM fun pp => assert (checkFreePage s.mem firstFreePage pp)
  assert (list.any (fun pp => page2pa pp < extphysmem))
  assert (list.any (fun pp => page2pa pp ≥ extphysmem))
  return s

/-- `check_page_free_list`. Before the new page directory is in use it
moves the pages below 4 MB to the front. It scribbles over the start of
the pages that it can reach. -/
def checkPageFreeList (s : Boot) (onlyLowMemory : Bool) : Except BootPanic Boot := do
  let pdxLimit := if onlyLowMemory then 1 else 1024
  assert (!s.mem.pageFreeList.isEmpty)
  let low := s.mem.pageFreeList.filter (fun pp => pdx (page2pa pp) < pdxLimit)
  let high := s.mem.pageFreeList.filter (fun pp => pdx (page2pa pp) ≥ pdxLimit)
  let list := if onlyLowMemory then low ++ high else s.mem.pageFreeList
  let frames := fun p x => if p ∈ low ∧ x < 32 then 0x97979797 else s.mem.frames p x
  checkFreePages { s with mem := { s.mem with pageFreeList := list, frames := frames } }

/-- `check_va2pa`; all ones when nothing is mapped. -/
def checkVa2pa (m : Pmap) (pgdir : Nat) (va : Word) : Except BootPanic Word :=
  let pde := m.frames pgdir (pdx va)
  if pde &&& pteP = 0 then .ok (~~~0)
  else if pde &&& ptePS ≠ 0 then .ok (pgaddr (pdx pde) (ptx va) + va % 4096)
  else do
    let p ← liftPanic (kaddr m (pteAddr pde))
    let pte := m.frames p (ptx va)
    if pte &&& pteP = 0 then .ok (~~~0) else .ok (pteAddr pte)

/-- `assert(check_va2pa(pgdir, va) == pa)`. -/
def assertMapped (m : Pmap) (pgdir : Nat) (va pa : Word) : Except BootPanic Unit := do
  let found ← checkVa2pa m pgdir va
  assert (found == pa)

/-- `*pgdir_walk(kern_pgdir, va, 0) = 0`. -/
def clearEntry (m : Pmap) (va : Word) : Except BootPanic Pmap := do
  match ← liftPanic (pgdirFind m m.kernPgdir va) with
  | none => .error .nullPte
  | some pte => return m.setWord pte 0

/-- The end of `check_page`: `mmio_map_region` twice, and what it has
mapped taken away again. -/
def checkMmio (s : Boot) : Except BootPanic Boot := do
  let (mm1, s) ← mmioMapRegion entryPages s 0 4097
  let (mm2, s) ← mmioMapRegion entryPages s 0 4096
  assert (mmiobase ≤ mm1 && mm1 + 8096 < mmiolim)
  assert (mmiobase ≤ mm2 && mm2 + 8096 < mmiolim)
  assert (mm1 % 4096 == 0 && mm2 % 4096 == 0)
  assert (mm1 + 8096 ≤ mm2)
  assertMapped s.mem s.mem.kernPgdir mm1 0
  assertMapped s.mem s.mem.kernPgdir (mm1 + 4096) 4096
  assertMapped s.mem s.mem.kernPgdir mm2 0
  assertMapped s.mem s.mem.kernPgdir (mm2 + 4096) (~~~0)
  let m ← clearEntry s.mem mm1
  let m ← clearEntry m (mm1 + 4096)
  let m ← clearEntry m mm2
  return { s with mem := m }

/-- The pages of `for (i = 0; i < n; i += PGSIZE)`. -/
def eachPage (n : Word) (f : Word → Except BootPanic Unit) : Except BootPanic Unit :=
  (List.range ((n.toNat + 4095) / 4096)).forM (fun i => f (BitVec.ofNat 32 (i * 4096)))

/-- The directory entry `i` that `check_kern_pgdir` expects. -/
def checkPde (pde : Word) (i : Nat) : Bool :=
  if i = pdx uvpt ∨ i = pdx (kstacktop - 1) ∨ i = pdx upages ∨ i = pdx uenvs ∨
      i = pdx mmiobase then pde &&& pteP != 0
  else if i ≥ pdx kernbase then pde &&& pteP != 0 && pde &&& pteW != 0
  else pde == 0

def checkKernPgdir (l : Linked) (s : Booting) (m : Pmap) : Except BootPanic Unit := do
  let pgdir := m.kernPgdir
  let pa ← paddr s.pages
  eachPage (roundup (BitVec.ofNat 32 (m.npages * sizeofPageInfo))) fun i =>
    assertMapped m pgdir (upages + i) (pa + i)
  let pa ← paddr s.envs
  eachPage (roundup (BitVec.ofNat 32 (nenv * sizeofEnv))) fun i =>
    assertMapped m pgdir (uenvs + i) (pa + i)
  eachPage (BitVec.ofNat 32 (m.npages * pgsize)) fun i => assertMapped m pgdir (kernbase + i) i
  (List.range ncpu).forM fun n => do
    let base := kstacktop - (kstksize + kstkgap) * BitVec.ofNat 32 (n + 1)
    let pa ← paddr (l.percpuKstacks + BitVec.ofNat 32 n * kstksize)
    eachPage kstksize fun i => assertMapped m pgdir (base + kstkgap + i) (pa + i)
    eachPage kstkgap fun i => assertMapped m pgdir (base + i) (~~~0)
  (List.range 1024).forM fun i => assert (checkPde (m.frames pgdir i) i)

/-! ## The whole of `mem_init` -/

/-- Up to `check_page_alloc`. -/
def memInitStart (l : Linked) (basemem extmem ext16 : Nat) (frames : Nat → Nat → Word) :
    Except BootPanic Booting := do
  let s ← memInitAlloc l (i386DetectMemory basemem extmem ext16) frames
  let b ← checkPageFreeList s.toBoot true
  return { s with toBoot := b }

/-- From the end of `check_page` on, up to `check_page_installed_pgdir`. -/
def memInitFinish (l : Linked) (s : Booting) : Except BootPanic Booting := do
  let b ← checkMmio s.toBoot
  let s := { s with toBoot := b }
  let m ← memInitMap l s
  checkKernPgdir l s m
  let b ← checkPageFreeList { b with mem := m } false
  return { s with toBoot := b }

end SistemasOperativos.Kern
