/-
SistemasOperativos.Kern.Pmap — `pmap.c` after `mem_init`: the page
allocator, the walk of a two-level page table, and the operations that
map and unmap a page.

Translation notes. A `struct PageInfo *` is its index in `pages[]`, a
`pde_t *` is the page it points to, and a `pte_t *` is a page and an index
in it. `pp_link` is read off the free list: it is not `NULL` for every
page on the list but the last. `page_lookup` and `page_remove` test
`*pte && PTE_P`, which only asks that the entry is not zero, and so does
this model.
-/
import SistemasOperativos.Kern.Types

namespace SistemasOperativos.Kern

/-- A `pte_t *`. -/
structure PtePtr where
  page : Nat
  idx : Nat
  deriving DecidableEq, Repr

/-- `*pte`. -/
def Pmap.word (m : Pmap) (pte : PtePtr) : Word := m.frames pte.page pte.idx

/-- `*pte = w`. -/
def Pmap.setWord (m : Pmap) (pte : PtePtr) (w : Word) : Pmap :=
  { m with frames :=
      Function.update m.frames pte.page (Function.update (m.frames pte.page) pte.idx w) }

/-- `pp->pp_ref = n`. -/
def Pmap.setRef (m : Pmap) (pp n : Nat) : Pmap :=
  { m with ppRef := Function.update m.ppRef pp n }

/-- `pp->pp_ref++`. -/
def Pmap.incRef (m : Pmap) (pp : Nat) : Pmap := m.setRef pp (u16 (m.ppRef pp + 1))

/-! ## Addresses -/

/-- `KADDR(pa)`, as the page it points into. -/
def kaddr (m : Pmap) (pa : Word) : Except Panic Nat :=
  if pgnum pa ≥ m.npages then .error (.kaddr pa) else .ok (pgnum pa)

def pa2page (m : Pmap) (pa : Word) : Except Panic Nat :=
  if pgnum pa ≥ m.npages then .error (.pa2page pa) else .ok (pgnum pa)

/-! ## The page allocator -/

/-- `page_alloc(ALLOC_ZERO)`. -/
def pageAlloc (m : Pmap) : Option (Nat × Pmap) :=
  match m.pageFreeList with
  | [] => none
  | pp :: rest =>
      some (pp, { m with pageFreeList := rest, frames := Function.update m.frames pp (fun _ => 0) })

/-- `pp->pp_link != NULL`. -/
def linked (m : Pmap) (pp : Nat) : Bool := m.pageFreeList.dropLast.contains pp

def pageFree (m : Pmap) (pp : Nat) : Except Panic Pmap :=
  if m.ppRef pp ≠ 0 then .error (.pageFreeRef pp)
  else if linked m pp then .error (.pageFreeLink pp)
  else .ok { m with pageFreeList := pp :: m.pageFreeList }

def pageDecref (m : Pmap) (pp : Nat) : Except Panic Pmap :=
  let m := m.setRef pp (u16Dec (m.ppRef pp))
  if m.ppRef pp = 0 then pageFree m pp else .ok m

/-! ## Page tables -/

/-- `pgdir_walk(pgdir, va, 0)`. -/
def pgdirFind (m : Pmap) (pgdir : Nat) (va : Word) : Except Panic (Option PtePtr) :=
  let pde := m.frames pgdir (pdx va)
  if pde ≠ 0 then do
    let page ← kaddr m (pteAddr pde)
    return some ⟨page, ptx va⟩
  else return none

/-- The page table that `pgdir_walk(pgdir, va, 1)` adds when there is
none. -/
def pgdirCreate (m : Pmap) (pgdir : Nat) (va : Word) : Pmap :=
  if m.frames pgdir (pdx va) = 0 then
    match pageAlloc m with
    | none => m
    | some (page, m) =>
        (m.incRef page).setWord ⟨pgdir, pdx va⟩ (page2pa page ||| pteP ||| pteW ||| pteU)
  else m

/-- `pgdir_walk(pgdir, va, 1)`. -/
def pgdirWalk (m : Pmap) (pgdir : Nat) (va : Word) : Except Panic (Option PtePtr × Pmap) := do
  let m := pgdirCreate m pgdir va
  let pte ← pgdirFind m pgdir va
  return (pte, m)

/-- The page mapped at `va` and where its entry is. -/
def pageLookup (m : Pmap) (pgdir : Nat) (va : Word) : Except Panic (Option (Nat × PtePtr)) := do
  match ← pgdirFind m pgdir va with
  | none => return none
  | some pte =>
      if m.word pte = 0 then return none
      else do
        let page ← pa2page m (pteAddr (m.word pte))
        return some (page, pte)

/-- `page_remove` leaves when the entry is missing or zero, which is when
`page_lookup` finds no page. -/
def pageRemove (m : Pmap) (pgdir : Nat) (va : Word) : Except Panic Pmap := do
  match ← pageLookup m pgdir va with
  | none => return m
  | some (page, pte) => do
      let m ← pageDecref m page
      return m.setWord pte 0

def pageInsert (m : Pmap) (pgdir pp : Nat) (va perm : Word) : Except Panic (Int × Pmap) := do
  let (pte, m) ← pgdirWalk m pgdir va
  match pte with
  | none => return (-eNoMem, m)
  | some pte => do
      let m := m.incRef pp
      let m ← pageRemove m pgdir va
      return (0, m.setWord pte (page2pa pp ||| perm ||| pteP))

end SistemasOperativos.Kern
