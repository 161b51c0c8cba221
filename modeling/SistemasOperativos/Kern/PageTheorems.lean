/-
SistemasOperativos.Kern.PageTheorems — who refers to a physical page.

A page of the pool is referred to by the `env_pgdir` of an environment, by
an entry of a page directory below `UTOP`, or by an entry of a page table
below `UTOP`. `target` reads these references off the memory, and each
function of `pmap.c` is one operation on the pool of `Lib.RefCount`: a
reference is counted and stored, or dropped. Page directories and page
tables have one reference each, so a store into one changes what one
environment sees at one address.
-/
import SistemasOperativos.Kern.KernelTheorems
import SistemasOperativos.Lib.RefCount

namespace SistemasOperativos.Kern

open RefCount

/-! ## Entries -/

theorem pgnum_eq (w : Word) : pgnum w = (w >>> 12).toNat := by
  simp [pgnum, Nat.shiftRight_eq_div_pow]

theorem pgnum_page2pa {p : Nat} (hp : p < 1048576) : pgnum (page2pa p) = p := by
  simp only [pgnum, page2pa, BitVec.toNat_ofNat]
  omega

theorem pgnum_pteAddr (w : Word) : pgnum (pteAddr w) = pgnum w := by
  have hmask : ∀ i < 20, (0xFFFFF000 : Word).getLsbD (12 + i) = true := by decide
  have hshift : pteAddr w >>> 12 = w >>> 12 := by
    ext i hi
    rw [pteAddr, BitVec.getElem_ushiftRight, BitVec.getElem_ushiftRight, BitVec.getLsbD_and]
    by_cases hlow : i < 20
    · rw [hmask i hlow, Bool.and_true]
    · rw [BitVec.getLsbD_of_ge w (12 + i) (by omega), Bool.false_and]
  rw [pgnum_eq, pgnum_eq, hshift]

/-- The bits of `perm` beyond `PTE_SYSCALL` are in the address already. -/
def Harmless (pp : Nat) (perm : Word) : Prop := perm &&& ~~~pteSyscall &&& ~~~page2pa pp = 0

theorem pgnum_entry {pp : Nat} {perm : Word} (hp : pp < 1048576) (h : Harmless pp perm) :
    pgnum (page2pa pp ||| perm ||| pteP) = pp := by
  have hsys : ∀ i < 20, (~~~pteSyscall).getLsbD (12 + i) = true := by decide
  have hpres : ∀ i < 20, pteP.getLsbD (12 + i) = false := by decide
  have hshift : (page2pa pp ||| perm ||| pteP) >>> 12 = page2pa pp >>> 12 := by
    ext i hi
    rw [BitVec.getElem_ushiftRight, BitVec.getElem_ushiftRight, BitVec.getLsbD_or,
      BitVec.getLsbD_or]
    by_cases hlow : i < 20
    · have hbit : (perm &&& ~~~pteSyscall &&& ~~~page2pa pp).getLsbD (12 + i) = false := by
        rw [h]
        exact BitVec.getLsbD_zero
      rw [BitVec.getLsbD_and, BitVec.getLsbD_and, hsys i hlow, Bool.and_true,
        BitVec.getLsbD_not, decide_eq_true (by omega : 12 + i < 32), Bool.true_and] at hbit
      rw [hpres i hlow, Bool.or_false]
      cases hpp : (page2pa pp).getLsbD (12 + i) with
      | false =>
          rw [hpp, Bool.not_false, Bool.and_true] at hbit
          rw [hbit, Bool.or_false]
      | true => rw [Bool.true_or]
    · rw [BitVec.getLsbD_of_ge _ (12 + i) (by omega), BitVec.getLsbD_of_ge _ (12 + i) (by omega),
        BitVec.getLsbD_of_ge _ (12 + i) (by omega), Bool.or_false, Bool.or_false]
  rw [pgnum_eq, hshift, ← pgnum_eq, pgnum_page2pa hp]

theorem or_pteP_present (w : Word) : (w ||| pteP) &&& pteP ≠ 0 := by
  intro h
  have hbit : ((w ||| pteP) &&& pteP).getLsbD 0 = false := by rw [h]; rfl
  simp at hbit

/-- The page an entry refers to. -/
def entryPage (w : Word) : Option Nat := if w &&& pteP = 0 then none else some (pgnum w)

@[simp] theorem entryPage_zero : entryPage 0#32 = none := rfl

theorem entryPage_entry {pp : Nat} {perm : Word} (hp : pp < 1048576) (h : Harmless pp perm) :
    entryPage (page2pa pp ||| perm ||| pteP) = some pp := by
  rw [entryPage, if_neg (or_pteP_present _), pgnum_entry hp h]

theorem entryPage_eq_some {w : Word} {p : Nat} (h : entryPage w = some p) :
    w ≠ 0 ∧ w &&& pteP ≠ 0 ∧ pgnum w = p := by
  unfold entryPage at h
  split at h
  · cases h
  · rename_i hp
    refine ⟨?_, hp, Option.some.inj h⟩
    rintro rfl
    exact hp rfl

/-- What `pgdir_walk` stores for a new page table. -/
theorem entryPage_table {pp : Nat} (hp : pp < 1048576) :
    entryPage (page2pa pp ||| pteP ||| pteW ||| pteU) = some pp := by
  have hw : page2pa pp ||| pteP ||| pteW ||| pteU = page2pa pp ||| (pteW ||| pteU) ||| pteP := by
    ext i hi
    simp only [BitVec.getElem_or]
    cases (page2pa pp)[i] <;> cases pteP[i] <;> simp
  have hharmless : Harmless pp (pteW ||| pteU) := by
    have hzero : (pteW ||| pteU) &&& ~~~pteSyscall = 0 := by decide
    rw [Harmless, hzero]
    exact BitVec.zero_and
  rw [hw, entryPage_entry hp hharmless]

/-! ## References -/

/-- A place that refers to a page. -/
inductive Slot where
  | pgdir (e : EnvIdx)
  | pde (e : EnvIdx) (i : Fin userPdes)
  | pte (e : EnvIdx) (i : Fin userPdes) (j : Fin nptentries)
  deriving DecidableEq

instance : Finite Slot :=
  Finite.of_injective
    (fun s => match s with
      | .pgdir e => (Sum.inl e : EnvIdx ⊕ EnvIdx × Fin userPdes ⊕
          EnvIdx × Fin userPdes × Fin nptentries)
      | .pde e i => Sum.inr (Sum.inl (e, i))
      | .pte e i j => Sum.inr (Sum.inr (e, i, j)))
    (by
      intro s s' h
      cases s <;> cases s' <;> simp_all)

/-- Page directories and page tables are not shared. -/
def Slot.Table : Slot → Prop
  | .pgdir _ => True
  | .pde _ _ => True
  | .pte _ _ _ => False

theorem Slot.not_table_pte (e : EnvIdx) (i : Fin userPdes) (j : Fin nptentries) :
    ¬ (Slot.pte e i j).Table := fun h => h

variable {roots : EnvIdx → Option Nat} {m m' : Pmap} {e : EnvIdx} {i : Fin userPdes}
  {j : Fin nptentries} {d t p : Nat}

/-- The references, where `roots` are the page directories in use. -/
def target (roots : EnvIdx → Option Nat) (m : Pmap) : Slot → Option Nat
  | .pgdir e => roots e
  | .pde e i => (roots e).bind (fun d => entryPage (m.frames d i))
  | .pte e i j =>
      ((roots e).bind (fun d => entryPage (m.frames d i))).bind (fun t => entryPage (m.frames t j))

@[simp] theorem target_pgdir : target roots m (.pgdir e) = roots e := rfl

theorem target_pde (hd : roots e = some d) :
    target roots m (.pde e i) = entryPage (m.frames d i) := by
  simp [target, hd]

theorem target_pte : target roots m (.pte e i j) =
    (target roots m (.pde e i)).bind (fun t => entryPage (m.frames t j)) := rfl

theorem target_pte_some (ht : target roots m (.pde e i) = some t) :
    target roots m (.pte e i j) = entryPage (m.frames t j) := by
  rw [target_pte, ht, Option.bind_some]

theorem target_pte_none (ht : target roots m (.pde e i) = none) :
    target roots m (.pte e i j) = none := by
  rw [target_pte, ht, Option.bind_none]

/-- Only directories and tables are read. -/
theorem target_congr
    (h : ∀ s p, s.Table → target roots m s = some p →
      ∀ x < nptentries, m'.frames p x = m.frames p x) : target roots m' = target roots m := by
  have hpde : ∀ e i, target roots m' (.pde e i) = target roots m (.pde e i) := by
    intro e i
    cases hd : roots e with
    | none => simp [target, hd]
    | some d =>
        rw [target_pde hd, target_pde hd, h (.pgdir e) d trivial hd]
        exact Nat.lt_trans i.isLt (by decide)
  funext s
  cases s with
  | pgdir e => rfl
  | pde e i => exact hpde e i
  | pte e i j =>
      cases ht : target roots m (.pde e i) with
      | none => rw [target_pte_none ht, target_pte_none (by rw [hpde, ht])]
      | some t =>
          rw [target_pte_some ht, target_pte_some (by rw [hpde, ht]),
            h (.pde e i) t trivial ht j j.isLt]

/-- The pool behind the memory. -/
def pool (roots : EnvIdx → Option Nat) (held : Option Nat) (m : Pmap) : Pool Slot Nat where
  target := target roots m
  held := held
  ref := m.ppRef
  free := m.pageFreeList

/-- The memory is in order. `M` are the pages `mem_init` has put on the
free list. -/
structure MemInv (M : Nat → Prop) (roots : EnvIdx → Option Nat) (held : Option Nat) (m : Pmap) :
    Prop where
  sound : (pool roots held m).Sound M Slot.Table
  npages : m.npages ≤ 1048576
  small : ∀ p, M p → p < m.npages ∧ p ≠ m.kernPgdir
  bound : ∀ p, M p → m.ppRef p < 65536
  kernel : ∀ i < userPdes, m.frames m.kernPgdir i = 0
  pde : ∀ e d (i : Fin userPdes), roots e = some d →
    m.frames d i = 0 ∨ m.frames d i &&& pteP ≠ 0
  pte : ∀ e (i : Fin userPdes) t (j : Fin nptentries), target roots m (.pde e i) = some t →
    m.frames t j = 0 ∨ m.frames t j &&& pteP ≠ 0

variable {M : Nat → Prop} {held : Option Nat}

theorem MemInv.page_lt (h : MemInv M roots held m) (hp : M p) : p < 1048576 :=
  Nat.lt_of_lt_of_le (h.small p hp).1 h.npages

theorem MemInv.managed (h : MemInv M roots held m) {s : Slot} (hs : target roots m s = some p) :
    M p := h.sound.managed s p hs

theorem MemInv.notMem_free (h : MemInv M roots held m) {s : Slot}
    (hs : target roots m s = some p) : p ∉ m.pageFreeList := h.sound.notMem_free hs

theorem MemInv.unused_of_free (h : MemInv M roots held m) {s : Slot} (hp : p ∈ m.pageFreeList) :
    target roots m s ≠ some p := h.sound.unused_of_free hp

/-- A slot that shares its page with a directory or table is that slot. -/
theorem MemInv.table_eq (h : MemInv M roots held m) {s s' : Slot} (hs : s.Table)
    (hp : target roots m s = some p) (hp' : target roots m s' = some p) : s' = s :=
  h.sound.exclusive s s' p hs hp hp'

/-! ## Stores -/

/-- A store into an entry of a page table. -/
theorem target_setWord_pte (h : MemInv M roots held m) (ht : target roots m (.pde e i) = some t)
    (w : Word) :
    target roots (m.setWord ⟨t, j⟩ w) =
      Function.update (target roots m) (.pte e i j) (entryPage w) := by
  have hdir : ∀ {e' d'}, roots e' = some d' → d' ≠ t := by
    rintro e' d' hd rfl
    have := h.table_eq (s := .pgdir e') trivial hd ht
    cases this
  have hpde : ∀ e' i', target roots (m.setWord ⟨t, j⟩ w) (.pde e' i') =
      target roots m (.pde e' i') := by
    intro e' i'
    cases hd : roots e' with
    | none => simp [target, hd]
    | some d' =>
        rw [target_pde hd, target_pde hd]
        simp [Pmap.setWord, hdir hd]
  funext s
  cases s with
  | pgdir e' => rfl
  | pde e' i' => simpa using hpde e' i'
  | pte e' i' j' =>
      cases ht' : target roots m (.pde e' i') with
      | none =>
          have hne : Slot.pte e' i' j' ≠ .pte e i j := by
            intro heq
            cases heq
            rw [ht] at ht'
            cases ht'
          rw [Function.update_of_ne hne, target_pte_none ht', target_pte_none (by rw [hpde, ht'])]
      | some t' =>
          rw [target_pte_some (by rw [hpde, ht'])]
          by_cases htt : t' = t
          · subst htt
            have heq := h.table_eq (s := .pde e i) trivial ht ht'
            cases heq
            by_cases hjj : j' = j
            · subst hjj
              simp [Pmap.setWord]
            · have hval : (j' : Nat) ≠ j := fun hv => hjj (Fin.ext hv)
              rw [Function.update_of_ne (by simpa using hjj), target_pte_some ht]
              simp [Pmap.setWord, hval]
          · have hne : Slot.pte e' i' j' ≠ .pte e i j := by
              intro heq
              cases heq
              rw [ht] at ht'
              exact htt (Option.some.inj ht').symm
            rw [Function.update_of_ne hne, target_pte_some ht']
            simp [Pmap.setWord, htt]

/-- A store into an entry of a page directory, when the entry has nothing
below it before and after. -/
theorem target_setWord_pde (h : MemInv M roots held m) (hd : roots e = some d) {w : Word}
    (hbefore : ∀ j, target roots m (.pte e i j) = none)
    (hafter : ∀ t, entryPage w = some t → t ≠ d ∧ ∀ j : Fin nptentries, m.frames t j = 0) :
    target roots (m.setWord ⟨d, i⟩ w) =
      Function.update (target roots m) (.pde e i) (entryPage w) := by
  have hdir : ∀ {e' d'}, roots e' = some d' → e' ≠ e → d' ≠ d := by
    rintro e' d' hd' hne rfl
    have : Slot.pgdir e' = .pgdir e := h.table_eq (s := .pgdir e) trivial hd hd'
    cases this
    exact hne rfl
  have hpde : ∀ e' i', target roots (m.setWord ⟨d, i⟩ w) (.pde e' i') =
      Function.update (target roots m) (.pde e i) (entryPage w) (.pde e' i') := by
    intro e' i'
    cases hd' : roots e' with
    | none =>
        have hne : Slot.pde e' i' ≠ .pde e i := by
          intro heq
          cases heq
          rw [hd] at hd'
          cases hd'
        rw [Function.update_of_ne hne]
        simp [target, hd']
    | some d' =>
        rw [target_pde hd']
        by_cases hee : e' = e
        · subst hee
          rw [hd] at hd'
          cases hd'
          by_cases hii : i' = i
          · subst hii
            simp [Pmap.setWord]
          · have hval : (i' : Nat) ≠ i := fun hv => hii (Fin.ext hv)
            rw [Function.update_of_ne (by simpa using hii), target_pde hd]
            simp [Pmap.setWord, hval]
        · rw [Function.update_of_ne (by simp [hee]), target_pde hd']
          simp [Pmap.setWord, hdir hd' hee]
  funext s
  cases s with
  | pgdir e' => simp
  | pde e' i' => exact hpde e' i'
  | pte e' i' j' =>
      rw [Function.update_of_ne (by simp)]
      by_cases heq : Slot.pde e' i' = .pde e i
      · cases heq
        rw [hbefore j', target_pte, hpde, Function.update_self]
        cases hw : entryPage w with
        | none => rfl
        | some t =>
            obtain ⟨hne, hzero⟩ := hafter t hw
            simp [Pmap.setWord, hne, hzero j']
      · rw [target_pte, hpde, Function.update_of_ne heq]
        cases ht' : target roots m (.pde e' i') with
        | none => rw [target_pte_none ht', Option.bind_none]
        | some t' =>
            have hne : t' ≠ d := by
              rintro rfl
              have : Slot.pde e' i' = .pgdir e := h.table_eq (s := .pgdir e) trivial hd ht'
              cases this
            rw [target_pte_some ht', Option.bind_some]
            simp [Pmap.setWord, hne]

/-- A directory or table is one of the pool's pages. -/
theorem MemInv.root_managed (h : MemInv M roots held m) (hd : roots e = some d) : M d :=
  h.sound.managed (.pgdir e) d hd

theorem setWord_frames (m : Pmap) (q : PtePtr) (w : Word) (p x : Nat) :
    (m.setWord q w).frames p x = if p = q.page ∧ x = q.idx then w else m.frames p x := by
  by_cases hp : p = q.page
  · subst hp
    by_cases hx : x = q.idx
    · subst hx
      simp [Pmap.setWord]
    · simp [Pmap.setWord, hx]
  · simp [Pmap.setWord, hp]

/-- A store into a directory or table, with the counts and the free list
that go with it. -/
theorem MemInv.stored (h : MemInv M roots held m) {q : PtePtr} {w : Word} (hq : M q.page)
    (hw : w = 0 ∨ w &&& pteP ≠ 0) {held' : Option Nat} {ref : Nat → Nat} {free : List Nat}
    (hs : ({ target := target roots (m.setWord q w), held := held', ref := ref, free := free } :
      Pool Slot Nat).Sound M Slot.Table)
    (hb : ∀ p, M p → ref p < 65536)
    (hpte : ∀ e' (i' : Fin userPdes) t' (j' : Fin nptentries),
      target roots (m.setWord q w) (.pde e' i') = some t' →
      m.frames t' j' = 0 ∨ m.frames t' j' &&& pteP ≠ 0) :
    MemInv M roots held' (({ m with ppRef := ref, pageFreeList := free } : Pmap).setWord q w) := by
  refine ⟨hs, h.npages, h.small, hb, ?_, ?_, ?_⟩
  · intro x hx
    have hne : m.kernPgdir ≠ q.page := fun heq => (h.small q.page hq).2 heq.symm
    rw [setWord_frames]
    exact (if_neg (fun hc => hne hc.1)).trans (h.kernel x hx)
  · intro e' d' i' hd'
    rw [setWord_frames]
    split
    · exact hw
    · exact h.pde e' d' i' hd'
  · intro e' i' t' j' ht'
    rw [setWord_frames]
    split
    · exact hw
    · exact hpte e' i' t' j' ht'

theorem MemInv.storePte (h : MemInv M roots held m) (ht : target roots m (.pde e i) = some t)
    {w : Word} (hw : w = 0 ∨ w &&& pteP ≠ 0) {held' : Option Nat} {ref : Nat → Nat}
    {free : List Nat}
    (hs : ({ target := Function.update (target roots m) (.pte e i j) (entryPage w)
             held := held', ref := ref, free := free } : Pool Slot Nat).Sound M Slot.Table)
    (hb : ∀ p, M p → ref p < 65536) :
    MemInv M roots held'
      (({ m with ppRef := ref, pageFreeList := free } : Pmap).setWord ⟨t, j⟩ w) := by
  have htarget := target_setWord_pte (j := j) h ht w
  rw [← htarget] at hs
  refine h.stored (h.managed ht) hw hs hb (fun e' i' t' j' ht' => ?_)
  rw [htarget, Function.update_of_ne (by simp)] at ht'
  exact h.pte e' i' t' j' ht'

theorem MemInv.storePde (h : MemInv M roots held m) (hd : roots e = some d) {w : Word}
    (hw : w = 0 ∨ w &&& pteP ≠ 0) (hbefore : ∀ j, target roots m (.pte e i j) = none)
    (hafter : ∀ t, entryPage w = some t → t ≠ d ∧ ∀ j : Fin nptentries, m.frames t j = 0)
    {held' : Option Nat} {ref : Nat → Nat} {free : List Nat}
    (hs : ({ target := Function.update (target roots m) (.pde e i) (entryPage w)
             held := held', ref := ref, free := free } : Pool Slot Nat).Sound M Slot.Table)
    (hb : ∀ p, M p → ref p < 65536) :
    MemInv M roots held'
      (({ m with ppRef := ref, pageFreeList := free } : Pmap).setWord ⟨d, i⟩ w) := by
  have htarget := target_setWord_pde h hd hbefore hafter
  rw [← htarget] at hs
  refine h.stored (h.root_managed hd) hw hs hb (fun e' i' t' j' ht' => ?_)
  rw [htarget, Function.update_apply] at ht'
  split at ht'
  · exact Or.inl ((hafter t' ht').2 j')
  · exact h.pte e' i' t' j' ht'

/-! ## `page_decref`, `page_lookup`, `page_remove` -/

/-- `page_decref` of a page that has a reference. -/
def Pmap.dropRef (m : Pmap) (p : Nat) : Pmap :=
  { m with
    ppRef := Function.update m.ppRef p (m.ppRef p - 1)
    pageFreeList := if m.ppRef p = 1 then p :: m.pageFreeList else m.pageFreeList }

theorem u16Dec_eq {x : Nat} (hpos : 0 < x) (hlt : x < 65536) : u16Dec x = x - 1 := by
  unfold u16Dec u16
  omega

theorem pageDecref_eq (hpos : 0 < m.ppRef p) (hlt : m.ppRef p < 65536)
    (hfree : p ∉ m.pageFreeList) : pageDecref m p = .ok (m.dropRef p) := by
  have hlinked : ∀ r, linked (m.setRef p r) p = false := by
    intro r
    rw [linked, Bool.eq_false_iff]
    intro hc
    exact hfree (List.mem_of_mem_dropLast (List.contains_iff_mem.mp hc))
  rw [pageDecref, u16Dec_eq hpos hlt]
  by_cases hone : m.ppRef p = 1
  · have hzero : (m.setRef p (m.ppRef p - 1)).ppRef p = 0 := by
      simp [Pmap.setRef, hone]
    rw [if_pos hzero, pageFree, hzero, hlinked]
    simp [Pmap.dropRef, Pmap.setRef, hone]
  · have hne : (m.setRef p (m.ppRef p - 1)).ppRef p ≠ 0 := by
      simp only [Pmap.setRef, Function.update_self]
      omega
    rw [if_neg hne]
    simp [Pmap.dropRef, Pmap.setRef, hone]

theorem MemInv.dropRef_bound (h : MemInv M roots held m) (hM : M p) :
    ∀ q, M q → (m.dropRef p).ppRef q < 65536 := by
  intro q hq
  simp only [Pmap.dropRef, Function.update_apply]
  split
  · have := h.bound p hM
    omega
  · exact h.bound q hq

theorem MemInv.pageDecref_eq (h : MemInv M roots held m) {s : Slot}
    (hs : target roots m s = some p) : pageDecref m p = .ok (m.dropRef p) :=
  Kern.pageDecref_eq (h.sound.ref_pos hs) (h.bound p (h.managed hs))
    (h.sound.notMem_free hs)

variable {va perm : Word} {pp : Nat}

theorem MemInv.kaddr_eq (h : MemInv M roots held m) {w : Word} (hM : M (pgnum w)) :
    kaddr m (pteAddr w) = .ok (pgnum w) ∧ pa2page m (pteAddr w) = .ok (pgnum w) := by
  have hlt := (h.small _ hM).1
  rw [kaddr, pa2page, pgnum_pteAddr, if_neg (by omega), if_neg (by omega)]
  exact ⟨rfl, rfl⟩

theorem MemInv.pde_eq_zero (h : MemInv M roots held m) (hd : roots e = some d)
    (ht : target roots m (.pde e i) = none) : m.frames d i = 0 := by
  rcases h.pde e d i hd with hz | hp
  · exact hz
  · rw [target_pde hd, entryPage, if_neg hp] at ht
    cases ht

theorem MemInv.pgdirFind_none (h : MemInv M roots held m) (hd : roots e = some d)
    (hi : pdx va = i) (ht : target roots m (.pde e i) = none) : pgdirFind m d va = .ok none := by
  rw [pgdirFind, hi, h.pde_eq_zero hd ht]
  rfl

theorem MemInv.pgdirFind_some (h : MemInv M roots held m) (hd : roots e = some d)
    (hi : pdx va = i) (ht : target roots m (.pde e i) = some t) :
    pgdirFind m d va = .ok (some ⟨t, ptx va⟩) := by
  have hM := h.managed ht
  rw [target_pde hd] at ht
  obtain ⟨hne, -, rfl⟩ := entryPage_eq_some ht
  rw [pgdirFind, hi, if_pos hne, (h.kaddr_eq hM).1]
  rfl

theorem MemInv.pageLookup_none (h : MemInv M roots held m) (hd : roots e = some d)
    (hi : pdx va = i) (hj : ptx va = j) (hp : target roots m (.pte e i j) = none) :
    pageLookup m d va = .ok none := by
  cases ht : target roots m (.pde e i) with
  | none =>
      rw [pageLookup, h.pgdirFind_none hd hi ht]
      rfl
  | some t =>
      have hzero : m.frames t j = 0 := by
        rcases h.pte e i t j ht with hz | hpres
        · exact hz
        · rw [target_pte_some ht, entryPage, if_neg hpres] at hp
          cases hp
      rw [pageLookup, h.pgdirFind_some hd hi ht, bind_ok]
      refine ⟨some ⟨t, ptx va⟩, rfl, ?_⟩
      dsimp only
      rw [Pmap.word, hj, if_pos hzero]
      rfl

theorem MemInv.pageLookup_some (h : MemInv M roots held m) (hd : roots e = some d)
    (hi : pdx va = i) (hj : ptx va = j) (ht : target roots m (.pde e i) = some t)
    (hp : target roots m (.pte e i j) = some p) :
    pageLookup m d va = .ok (some (p, ⟨t, j⟩)) := by
  have hM := h.managed hp
  rw [target_pte_some ht] at hp
  obtain ⟨hne, -, rfl⟩ := entryPage_eq_some hp
  rw [pageLookup, h.pgdirFind_some hd hi ht, bind_ok]
  refine ⟨some ⟨t, ptx va⟩, rfl, ?_⟩
  dsimp only
  rw [Pmap.word, hj, if_neg hne, (h.kaddr_eq hM).2]
  rfl

/-- A page that is mapped has a page table above it. -/
theorem table_of_mapped (hp : target roots m (.pte e i j) = some p) :
    ∃ t, target roots m (.pde e i) = some t := by
  cases ht : target roots m (.pde e i) with
  | none =>
      rw [target_pte_none ht] at hp
      cases hp
  | some t => exact ⟨t, rfl⟩

theorem MemInv.pageRemove_none (h : MemInv M roots held m) (hd : roots e = some d)
    (hi : pdx va = i) (hj : ptx va = j) (hp : target roots m (.pte e i j) = none) :
    pageRemove m d va = .ok m := by
  rw [pageRemove, h.pageLookup_none hd hi hj hp]
  rfl

/-- `page_remove` drops one reference. -/
theorem MemInv.pageRemove_some (h : MemInv M roots held m) (hd : roots e = some d)
    (hi : pdx va = i) (hj : ptx va = j) (hp : target roots m (.pte e i j) = some p) :
    ∃ m', pageRemove m d va = .ok m' ∧ MemInv M roots held m' ∧
      pool roots held m' = (pool roots held m).detach (.pte e i j) p := by
  obtain ⟨t, ht⟩ := table_of_mapped hp
  have hsound := h.sound.detach (s := Slot.pte e i j) hp
  have hstore := h.storePte (j := j) ht (Or.inl rfl) hsound
    (h.dropRef_bound (h.managed hp))
  refine ⟨(m.dropRef p).setWord ⟨t, j⟩ 0, ?_, hstore, ?_⟩
  · rw [pageRemove, h.pageLookup_some hd hi hj ht hp, bind_ok]
    refine ⟨some (p, ⟨t, j⟩), rfl, ?_⟩
    dsimp only
    rw [h.pageDecref_eq hp]
    rfl
  · have htarget := target_setWord_pte (j := j) h ht 0
    rw [pool, Pool.detach]
    congr 1

/-! ## `page_alloc`, `pgdir_walk` -/

/-- The memory after `page_alloc`. -/
def Pmap.taken (m : Pmap) (pp : Nat) (rest : List Nat) : Pmap :=
  { m with pageFreeList := rest, frames := Function.update m.frames pp (fun _ => 0) }

theorem pageAlloc_cons {rest : List Nat} (hfree : m.pageFreeList = pp :: rest) :
    pageAlloc m = some (pp, m.taken pp rest) := by
  simp [pageAlloc, hfree, Pmap.taken]

theorem MemInv.taken (h : MemInv M roots held m) {rest : List Nat}
    (hfree : m.pageFreeList = pp :: rest) :
    MemInv M roots held (m.taken pp rest) ∧ target roots (m.taken pp rest) = target roots m := by
  have hmem : pp ∈ m.pageFreeList := by
    rw [hfree]
    exact List.mem_cons_self
  have hM := (h.sound.free pp hmem).1
  have hkeep : ∀ q x, q ≠ pp → (m.taken pp rest).frames q x = m.frames q x := by
    intro q x hq
    simp [Pmap.taken, hq]
  have hused : ∀ s q, target roots m s = some q → q ≠ pp := by
    rintro s q hs rfl
    exact h.sound.unused_of_free (s := s) hmem hs
  have htarget : target roots (m.taken pp rest) = target roots m :=
    target_congr (fun s q _ hs x _ => hkeep q x (hused s q hs))
  refine ⟨⟨?_, h.npages, h.small, h.bound, ?_, ?_, ?_⟩, htarget⟩
  · rw [pool, htarget]
    exact h.sound.take hfree
  · intro x hx
    exact (hkeep _ x (fun heq => (h.small pp hM).2 heq.symm)).trans (h.kernel x hx)
  · intro e' d' i' hd'
    rw [hkeep d' i' (hused (.pgdir e') d' hd')]
    exact h.pde e' d' i' hd'
  · intro e' i' t' j' ht'
    rw [htarget] at ht'
    rw [hkeep t' j' (hused (.pde e' i') t' ht')]
    exact h.pte e' i' t' j' ht'

/-- A page that may be mapped: it is off the free list and neither a
directory nor a table. -/
structure Mappable (M : Nat → Prop) (roots : EnvIdx → Option Nat) (m : Pmap) (pp : Nat) :
    Prop where
  managed : M pp
  taken : pp ∉ m.pageFreeList
  leaf : ∀ s : Slot, s.Table → target roots m s ≠ some pp

/-- A page that is mapped somewhere may be mapped once more. -/
theorem MemInv.mappable (h : MemInv M roots held m) {s : Slot} (hs : ¬ s.Table)
    (hp : target roots m s = some pp) : Mappable M roots m pp := by
  refine ⟨h.managed hp, h.notMem_free hp, fun s' hs' hp' => ?_⟩
  rw [h.table_eq hs' hp' hp] at hs
  exact hs hs'

theorem u16_succ {x : Nat} (hx : x < 65535) : u16 (x + 1) = x + 1 := by
  unfold u16
  omega

/-- `pp_ref++` before the page is stored. -/
theorem MemInv.incRef (h : MemInv M roots none m) (hM : M pp) (hfree : pp ∉ m.pageFreeList)
    (hlt : m.ppRef pp < 65535) :
    MemInv M roots (some pp) (m.incRef pp) ∧
      pool roots (some pp) (m.incRef pp) = (pool roots none m).pin pp := by
  have hpool : pool roots (some pp) (m.incRef pp) = (pool roots none m).pin pp := by
    simp only [pool, Pool.pin, Pmap.incRef, Pmap.setRef, u16_succ hlt]
    rfl
  refine ⟨⟨?_, h.npages, h.small, ?_, h.kernel, h.pde, h.pte⟩, hpool⟩
  · rw [hpool]
    exact h.sound.pin rfl hM hfree
  · intro q hq
    simp only [Pmap.incRef, Pmap.setRef, u16_succ hlt, Function.update_apply]
    split
    · omega
    · exact h.bound q hq

/-- The page table of `va` is there after the walk, unless there was no
page for it. -/
structure Walked (roots : EnvIdx → Option Nat) (m m' : Pmap) (e : EnvIdx) (i : Fin userPdes) :
    Prop where
  leaf : ∀ s : Slot, ¬ s.Table → target roots m' s = target roots m s
  table : ∀ (s : Slot) q, s.Table → target roots m s = some q → target roots m' s = some q
  free : ∃ l, m.pageFreeList = l ++ m'.pageFreeList ∧
    l.length = if target roots m (.pde e i) = none then 1 else 0
  mappable : ∀ M q, Mappable M roots m q → Mappable M roots m' q ∧ m'.ppRef q = m.ppRef q

theorem pgdirCreate_some (hd : roots e = some d) (hi : pdx va = i)
    (ht : target roots m (.pde e i) = some t) : pgdirCreate m d va = m := by
  rw [target_pde hd] at ht
  rw [pgdirCreate, hi, if_neg (entryPage_eq_some ht).1]

theorem MemInv.pgdirCreate_full (h : MemInv M roots none m) (hd : roots e = some d)
    (hi : pdx va = i) (ht : target roots m (.pde e i) = none) (hfree : m.pageFreeList = []) :
    pgdirCreate m d va = m := by
  rw [pgdirCreate, hi, if_pos (h.pde_eq_zero hd ht), pageAlloc, hfree]

/-- A new page table. -/
theorem MemInv.pgdirCreate_fresh (h : MemInv M roots none m) (hd : roots e = some d)
    (hi : pdx va = i) (ht : target roots m (.pde e i) = none) {rest : List Nat}
    (hfree : m.pageFreeList = t :: rest) :
    MemInv M roots none (pgdirCreate m d va) ∧
      pool roots none (pgdirCreate m d va) =
        ((({ pool roots none m with free := rest } : Pool Slot Nat).pin t).attach (.pde e i) t) := by
  have hmem : t ∈ m.pageFreeList := by
    rw [hfree]
    exact List.mem_cons_self
  obtain ⟨hM, href⟩ := h.sound.free t hmem
  replace href : m.ppRef t = 0 := href
  have hunused : ∀ s : Slot, target roots m s ≠ some t := fun s => h.sound.unused_of_free hmem
  have hnotmem : t ∉ rest := by
    have := h.sound.nodup
    rw [show (pool roots none m).free = t :: rest from hfree] at this
    exact (List.nodup_cons.mp this).1
  obtain ⟨h₁, htarget₁⟩ := h.taken hfree
  have heq : pgdirCreate m d va = ({ m.taken t rest with
      ppRef := Function.update m.ppRef t (m.ppRef t + 1), pageFreeList := rest } : Pmap).setWord
        ⟨d, i⟩ (page2pa t ||| pteP ||| pteW ||| pteU) := by
    rw [pgdirCreate, hi, if_pos (h.pde_eq_zero hd ht), pageAlloc_cons hfree]
    have hone : u16 (m.ppRef t + 1) = m.ppRef t + 1 := u16_succ (by omega)
    simp only [Pmap.incRef, Pmap.setRef, Pmap.taken, hone]
  have hentry := entryPage_table (h.page_lt hM)
  have hsound := ((h.sound.take hfree).pin rfl hM hnotmem).attach (s := Slot.pde e i) rfl ht
    (fun s' _ => hunused s') (fun _ => hunused)
  have hafter : ∀ t', entryPage (page2pa t ||| pteP ||| pteW ||| pteU) = some t' →
      t' ≠ d ∧ ∀ j : Fin nptentries, (m.taken t rest).frames t' j = 0 := by
    intro t' ht'
    rw [hentry] at ht'
    cases ht'
    refine ⟨?_, fun j => by simp [Pmap.taken]⟩
    rintro rfl
    exact hunused (.pgdir e) hd
  have hbefore : ∀ j, target roots (m.taken t rest) (.pte e i j) = none := by
    intro j
    rw [htarget₁]
    exact target_pte_none ht
  refine ⟨?_, ?_⟩
  · rw [heq]
    refine h₁.storePde hd (Or.inr (entryPage_eq_some hentry).2.1) hbefore hafter ?_ ?_
    · rw [htarget₁, hentry]
      exact hsound
    · intro q hq
      simp only [Function.update_apply]
      split
      · omega
      · exact h.bound q hq
  · have hnew := target_setWord_pde h₁ hd hbefore hafter
    rw [htarget₁, hentry] at hnew
    rw [heq, pool]
    simp only [Pool.attach, Pool.pin, Pool.mk.injEq]
    exact ⟨hnew, trivial, rfl, rfl⟩

/-- `pgdir_walk(pgdir, va, 1)`. -/
theorem MemInv.pgdirWalk_spec (h : MemInv M roots none m) (hd : roots e = some d)
    (hi : pdx va = i) :
    (pgdirWalk m d va = .ok (none, m) ∧ target roots m (.pde e i) = none ∧ m.pageFreeList = []) ∨
      ∃ t m', pgdirWalk m d va = .ok (some ⟨t, ptx va⟩, m') ∧ MemInv M roots none m' ∧
        target roots m' (.pde e i) = some t ∧ Walked roots m m' e i := by
  cases ht : target roots m (.pde e i) with
  | some t =>
      refine Or.inr ⟨t, m, ?_, h, ht, ?_⟩
      · rw [pgdirWalk, pgdirCreate_some hd hi ht, h.pgdirFind_some hd hi ht]
        rfl
      · exact ⟨fun _ _ => rfl, fun _ _ _ hs => hs, ⟨[], rfl, by simp [ht]⟩,
          fun _ _ hq => ⟨hq, rfl⟩⟩
  | none =>
      cases hfree : m.pageFreeList with
      | nil =>
          refine Or.inl ⟨?_, rfl, rfl⟩
          rw [pgdirWalk, h.pgdirCreate_full hd hi ht hfree, h.pgdirFind_none hd hi ht]
          rfl
      | cons t rest =>
          obtain ⟨h', hpool⟩ := h.pgdirCreate_fresh hd hi ht hfree
          have hmem : t ∈ m.pageFreeList := by
            rw [hfree]
            exact List.mem_cons_self
          have htarget : target roots (pgdirCreate m d va) =
              Function.update (target roots m) (.pde e i) (some t) := congrArg Pool.target hpool
          have hnew : target roots (pgdirCreate m d va) (.pde e i) = some t := by
            rw [htarget, Function.update_self]
          have hrest : (pgdirCreate m d va).pageFreeList = rest := congrArg Pool.free hpool
          have href : (pgdirCreate m d va).ppRef = Function.update m.ppRef t (m.ppRef t + 1) :=
            congrArg Pool.ref hpool
          refine Or.inr ⟨t, pgdirCreate m d va, ?_, h', hnew, ?_, ?_, ?_, ?_⟩
          · rw [pgdirWalk, h'.pgdirFind_some hd hi hnew]
            rfl
          · intro s hs
            rw [htarget, Function.update_of_ne]
            rintro rfl
            exact hs trivial
          · intro s q _ hs
            rw [htarget, Function.update_of_ne, hs]
            rintro rfl
            rw [ht] at hs
            cases hs
          · exact ⟨[t], by rw [hfree, hrest]; rfl, by simp [ht]⟩
          · intro M' q hq
            have hne : q ≠ t := by
              rintro rfl
              exact hq.taken hmem
            refine ⟨⟨hq.managed, ?_, ?_⟩, by rw [href, Function.update_of_ne hne]⟩
            · rw [hrest]
              exact fun hq' => hq.taken (by rw [hfree]; exact List.mem_cons_of_mem _ hq')
            · intro s hs
              rw [htarget, Function.update_apply]
              split
              · exact fun heq => hne (Option.some.inj heq).symm
              · exact hq.leaf s hs

/-! ## `page_insert` -/

/-- What `page_insert` does when it returns 0. -/
structure Inserted (roots : EnvIdx → Option Nat) (m m' : Pmap) (e : EnvIdx) (i : Fin userPdes)
    (j : Fin nptentries) (pp : Nat) : Prop where
  leaf : ∀ s : Slot, ¬ s.Table →
    target roots m' s = if s = .pte e i j then some pp else target roots m s
  table : ∀ (s : Slot) q, s.Table → target roots m s = some q → target roots m' s = some q
  covered : target roots m' (.pde e i) ≠ none
  length : m.pageFreeList.length ≤
    m'.pageFreeList.length + if target roots m (.pde e i) = none then 1 else 0

/-- The old page is dropped, or there was none. -/
theorem MemInv.pageRemove_spec (h : MemInv M roots held m) (hd : roots e = some d)
    (hi : pdx va = i) (hj : ptx va = j) :
    ∃ m', pageRemove m d va = .ok m' ∧ MemInv M roots held m' ∧
      target roots m' = Function.update (target roots m) (.pte e i j) none ∧
      ∃ l, m'.pageFreeList = l ++ m.pageFreeList := by
  cases hp : target roots m (.pte e i j) with
  | none =>
      refine ⟨m, h.pageRemove_none hd hi hj hp, h, ?_, [], rfl⟩
      rw [← hp, Function.update_eq_self]
  | some p =>
      obtain ⟨m', heq, h', hpool⟩ := h.pageRemove_some hd hi hj hp
      refine ⟨m', heq, h', congrArg Pool.target hpool, ?_⟩
      have hfree : m'.pageFreeList = if m.ppRef p = 1 then p :: m.pageFreeList
          else m.pageFreeList := congrArg Pool.free hpool
      rw [hfree]
      split
      · exact ⟨[p], rfl⟩
      · exact ⟨[], rfl⟩

theorem MemInv.pageInsert_spec (h : MemInv M roots none m) (hd : roots e = some d)
    (hi : pdx va = i) (hj : ptx va = j) (hpp : Mappable M roots m pp) (hperm : Harmless pp perm)
    (hlt : m.ppRef pp < 65535) :
    (pageInsert m d pp va perm = .ok (-eNoMem, m) ∧ target roots m (.pde e i) = none ∧
        m.pageFreeList = []) ∨
      ∃ m', pageInsert m d pp va perm = .ok (0, m') ∧ MemInv M roots none m' ∧
        Inserted roots m m' e i j pp := by
  rcases h.pgdirWalk_spec hd hi with ⟨hwalk, hnone, hempty⟩ | ⟨t, m₁, hwalk, h₁, ht, hwalked⟩
  · refine Or.inl ⟨?_, hnone, hempty⟩
    rw [pageInsert, hwalk]
    rfl
  · obtain ⟨hpp₁, href⟩ := hwalked.mappable M pp hpp
    obtain ⟨h₂, -⟩ := h₁.incRef hpp₁.managed hpp₁.taken (by rw [href]; exact hlt)
    obtain ⟨m₃, hremove, h₃, htarget₃, l, hfree₃⟩ := h₂.pageRemove_spec hd hi hj
    replace htarget₃ : target roots m₃ = Function.update (target roots m₁) (.pte e i j) none :=
      htarget₃
    have ht₃ : target roots m₃ (.pde e i) = some t := by
      rw [htarget₃, Function.update_of_ne (by simp), ht]
    have hnone₃ : target roots m₃ (.pte e i j) = none := by
      rw [htarget₃, Function.update_self]
    have hleaf₃ : ∀ s : Slot, s.Table → target roots m₃ s ≠ some pp := by
      intro s hs
      rw [htarget₃, Function.update_of_ne]
      · exact hpp₁.leaf s hs
      · rintro rfl
        exact hs
    have hentry := entryPage_entry (h.page_lt hpp.managed) hperm
    have hsound := h₃.sound.attach (s := Slot.pte e i j) rfl hnone₃ hleaf₃ (fun hs => hs.elim)
    have htarget₄ := target_setWord_pte (j := j) h₃ ht₃ (page2pa pp ||| perm ||| pteP)
    rw [htarget₃, Function.update_idem, hentry] at htarget₄
    refine Or.inr ⟨m₃.setWord ⟨t, j⟩ (page2pa pp ||| perm ||| pteP), ?_, ?_, ?_, ?_, ?_, ?_⟩
    · rw [pageInsert, hwalk, bind_ok]
      refine ⟨_, rfl, ?_⟩
      dsimp only
      rw [hremove, hj]
      rfl
    · refine h₃.storePte ht₃ (Or.inr (or_pteP_present _)) ?_ h₃.bound
      rw [hentry]
      exact hsound
    · intro s hs
      rw [htarget₄, Function.update_apply, hwalked.leaf s hs]
    · intro s q hs hq
      rw [htarget₄, Function.update_of_ne, hwalked.table s q hs hq]
      rintro rfl
      exact hs
    · rw [htarget₄, Function.update_of_ne (by simp), ht]
      simp
    · obtain ⟨l₁, hl₁, hlen⟩ := hwalked.free
      have hfree₄ : (m₃.setWord ⟨t, j⟩ (page2pa pp ||| perm ||| pteP)).pageFreeList
          = l ++ m₁.pageFreeList := hfree₃
      rw [hfree₄, hl₁, List.length_append, List.length_append, hlen]
      omega

/-! ## `env_setup_vm` -/

/-- A new page directory that is empty below `UTOP`. -/
theorem target_addRoot (hnone : roots e = none) (hunused : ∀ s, target roots m s ≠ some p)
    (hkeep : ∀ q x, q ≠ p → m'.frames q x = m.frames q x)
    (hzero : ∀ x < userPdes, m'.frames p x = 0) :
    target (Function.update roots e (some p)) m' =
      Function.update (target roots m) (.pgdir e) (some p) := by
  have hpde : ∀ e' i', target (Function.update roots e (some p)) m' (.pde e' i') =
      target roots m (.pde e' i') := by
    intro e' i'
    by_cases hee : e' = e
    · subst hee
      rw [target_pde (Function.update_self _ _ _), hzero i' i'.isLt]
      simp [target, hnone]
    · cases hd : roots e' with
      | none => simp [target, hee, hd]
      | some d' =>
          have hne : d' ≠ p := by
            rintro rfl
            exact hunused (.pgdir e') hd
          rw [target_pde (by rw [Function.update_of_ne hee, hd]), target_pde hd, hkeep d' _ hne]
  funext s
  cases s with
  | pgdir e' =>
      by_cases hee : e' = e
      · subst hee
        simp
      · simp [hee]
  | pde e' i' =>
      rw [Function.update_of_ne (by simp)]
      exact hpde e' i'
  | pte e' i' j' =>
      rw [Function.update_of_ne (by simp)]
      cases ht : target roots m (.pde e' i') with
      | none => rw [target_pte_none ht, target_pte_none (by rw [hpde, ht])]
      | some t' =>
          have hne : t' ≠ p := by
            rintro rfl
            exact hunused (.pde e' i') ht
          rw [target_pte_some ht, target_pte_some (by rw [hpde, ht]), hkeep t' _ hne]

/-- `env_setup_vm` takes a page and copies the kernel's directory. -/
theorem envSetupVm_some (hvm : envSetupVm m = some (p, m')) :
    m.pageFreeList = p :: m'.pageFreeList ∧ m'.npages = m.npages ∧ m'.kernPgdir = m.kernPgdir ∧
      m'.ppRef = Function.update m.ppRef p (u16 (m.ppRef p + 1)) ∧
      (∀ q x, q ≠ p → m'.frames q x = m.frames q x) ∧
      (m.kernPgdir ≠ p → ∀ x, x ≠ pdx uvpt → m'.frames p x = m.frames m.kernPgdir x) := by
  unfold envSetupVm at hvm
  cases hfree : m.pageFreeList with
  | nil =>
      rw [pageAlloc, hfree] at hvm
      cases hvm
  | cons pp rest =>
      rw [pageAlloc_cons hfree] at hvm
      cases hvm
      refine ⟨rfl, rfl, rfl, rfl, ?_, ?_⟩
      · intro q x hq
        rw [setWord_frames, if_neg (fun hc => hq hc.1)]
        simp [Pmap.incRef, Pmap.setRef, Pmap.taken, hq]
      · intro hkern x hx
        rw [setWord_frames, if_neg (fun hc => hx hc.2)]
        simp [Pmap.incRef, Pmap.setRef, Pmap.taken, hkern]

theorem MemInv.envSetupVm_spec (h : MemInv M roots none m) (hnone : roots e = none)
    (hvm : envSetupVm m = some (p, m')) :
    MemInv M (Function.update roots e (some p)) none m' ∧
      target (Function.update roots e (some p)) m' =
        Function.update (target roots m) (.pgdir e) (some p) ∧
      m.pageFreeList = p :: m'.pageFreeList := by
  obtain ⟨hfree, hnp, hkp, href, hkeep, hcopy⟩ := envSetupVm_some hvm
  have hmem : p ∈ m.pageFreeList := by
    rw [hfree]
    exact List.mem_cons_self
  obtain ⟨hM, hzeroRef⟩ := h.sound.free p hmem
  replace hzeroRef : m.ppRef p = 0 := hzeroRef
  have hunused : ∀ s : Slot, target roots m s ≠ some p := fun s => h.sound.unused_of_free hmem
  have hnotmem : p ∉ m'.pageFreeList := by
    have := h.sound.nodup
    rw [show (pool roots none m).free = p :: m'.pageFreeList from hfree] at this
    exact (List.nodup_cons.mp this).1
  have hkern : m.kernPgdir ≠ p := fun heq => (h.small p hM).2 heq.symm
  have hzero : ∀ x < userPdes, m'.frames p x = 0 := by
    intro x hx
    have huvpt : pdx uvpt = 957 := by decide
    have hlt : x < 955 := hx
    rw [hcopy hkern x (by omega), h.kernel x hx]
  have htarget := target_addRoot hnone hunused hkeep hzero
  rw [u16_succ (by omega)] at href
  refine ⟨⟨?_, by rw [hnp]; exact h.npages, by rw [hnp, hkp]; exact h.small, ?_, ?_, ?_, ?_⟩,
    htarget, hfree⟩
  · have hsound := ((h.sound.take hfree).pin rfl hM hnotmem).attach (s := Slot.pgdir e) rfl
      hnone (fun s' _ => hunused s') (fun _ => hunused)
    rw [pool, htarget, href]
    exact hsound
  · intro q hq
    rw [href, Function.update_apply]
    split
    · omega
    · exact h.bound q hq
  · intro x hx
    rw [hkp, hkeep _ x hkern]
    exact h.kernel x hx
  · intro e' d' i' hd'
    by_cases hdp : d' = p
    · subst hdp
      exact Or.inl (hzero i' i'.isLt)
    · by_cases hee : e' = e
      · subst hee
        rw [Function.update_self] at hd'
        exact absurd (Option.some.inj hd').symm hdp
      · rw [Function.update_of_ne hee] at hd'
        rw [hkeep d' _ hdp]
        exact h.pde e' d' i' hd'
  · intro e' i' t' j' ht'
    rw [htarget, Function.update_of_ne (by simp)] at ht'
    have hne : t' ≠ p := by
      rintro rfl
      exact hunused (.pde e' i') ht'
    rw [hkeep t' _ hne]
    exact h.pte e' i' t' j' ht'

/-! ## `env_free` -/

theorem pdx_pgaddr (i : Fin userPdes) (j : Fin nptentries) : pdx (pgaddr i j) = i := by
  have hi : (i : Nat) < 955 := i.isLt
  have hj : (j : Nat) < 1024 := j.isLt
  simp only [pdx, pgaddr, BitVec.toNat_ofNat]
  omega

theorem ptx_pgaddr (i : Fin userPdes) (j : Fin nptentries) : ptx (pgaddr i j) = j := by
  have hi : (i : Nat) < 955 := i.isLt
  have hj : (j : Nat) < 1024 := j.isLt
  simp only [ptx, pgaddr, BitVec.toNat_ofNat]
  omega

/-- One turn of the inner loop of `env_free`. -/
theorem MemInv.freePte_spec (h : MemInv M roots none m) (hd : roots e = some d)
    (ht : target roots m (.pde e i) = some t) :
    ∃ m', freePte d i t m j = .ok m' ∧ MemInv M roots none m' ∧
      target roots m' = Function.update (target roots m) (.pte e i j) none := by
  unfold freePte
  split
  · obtain ⟨m', hremove, h', htarget, -⟩ :=
      h.pageRemove_spec hd (pdx_pgaddr i j) (ptx_pgaddr i j)
    exact ⟨m', hremove, h', htarget⟩
  · rename_i hclear
    rw [not_not] at hclear
    refine ⟨m, rfl, h, ?_⟩
    have hnone : target roots m (.pte e i j) = none := by
      rw [target_pte_some ht, entryPage, if_pos hclear]
    rw [← hnone, Function.update_eq_self]

/-- The inner loop, up to entry `x`. -/
theorem MemInv.freePtes_spec (h : MemInv M roots none m) (hd : roots e = some d)
    (ht : target roots m (.pde e i) = some t) (x : Nat) (hx : x ≤ nptentries) :
    ∃ m', (List.range x).foldlM (freePte d i t) m = .ok m' ∧ MemInv M roots none m' ∧
      (∀ j : Fin nptentries, (j : Nat) < x → target roots m' (.pte e i j) = none) ∧
      ∀ s, (∀ j, s ≠ .pte e i j) → target roots m' s = target roots m s := by
  induction x with
  | zero => exact ⟨m, rfl, h, fun j hj => absurd hj (Nat.not_lt_zero _), fun _ _ => rfl⟩
  | succ x ih =>
      obtain ⟨m₁, hloop, h₁, hclear, hkeep⟩ := ih (by omega)
      have ht₁ : target roots m₁ (.pde e i) = some t := by
        rw [hkeep _ (by simp), ht]
      obtain ⟨m₂, hturn, h₂, htarget⟩ := h₁.freePte_spec (j := ⟨x, hx⟩) hd ht₁
      refine ⟨m₂, ?_, h₂, ?_, ?_⟩
      · rw [List.range_succ, List.foldlM_append, hloop]
        exact bind_ok.mpr ⟨m₁, rfl, bind_ok.mpr ⟨m₂, hturn, rfl⟩⟩
      · intro j hj
        rw [htarget, Function.update_apply]
        split
        · rfl
        · rename_i hne
          refine hclear j (Nat.lt_of_le_of_ne (Nat.lt_succ_iff.mp hj) ?_)
          intro heq
          exact hne (by rw [show j = ⟨x, hx⟩ from Fin.ext heq])
      · intro s hs
        rw [htarget, Function.update_of_ne (hs _), hkeep s hs]

/-- The slots below the first `x` entries of the page directory of `e`. -/
def Slot.Under (e : EnvIdx) (x : Nat) : Slot → Prop
  | .pgdir _ => False
  | .pde e' i => e' = e ∧ (i : Nat) < x
  | .pte e' i _ => e' = e ∧ (i : Nat) < x

/-- One turn of the outer loop of `env_free`. -/
theorem MemInv.freePde_spec (h : MemInv M roots none m) (hd : roots e = some d) :
    ∃ m', freePde d m i = .ok m' ∧ MemInv M roots none m' ∧
      target roots m' (.pde e i) = none ∧ (∀ j, target roots m' (.pte e i j) = none) ∧
      ∀ s, s ≠ .pde e i → (∀ j, s ≠ .pte e i j) → target roots m' s = target roots m s := by
  unfold freePde
  split
  · rename_i hclear
    have hnone : target roots m (.pde e i) = none := by
      rw [target_pde hd, entryPage, if_pos hclear]
    exact ⟨m, rfl, h, hnone, fun j => target_pte_none hnone, fun _ _ _ => rfl⟩
  · rename_i hpresent
    have ht : target roots m (.pde e i) = some (pgnum (m.frames d i)) := by
      rw [target_pde hd, entryPage, if_neg hpresent]
    have hM := h.managed ht
    obtain ⟨m₁, hloop, h₁, hclear, hkeep⟩ := h.freePtes_spec hd ht nptentries (Nat.le_refl _)
    have ht₁ : target roots m₁ (.pde e i) = some (pgnum (m.frames d i)) := by
      rw [hkeep _ (by simp), ht]
    have hempty : ∀ j, target roots m₁ (.pte e i j) = none := fun j => hclear j j.isLt
    have hsound := h₁.sound.detach (s := Slot.pde e i) ht₁
    have hstore := h₁.storePde hd (Or.inl rfl) hempty (fun t' ht' => by cases ht') hsound
      (h₁.dropRef_bound hM)
    have htarget := target_setWord_pde h₁ hd (w := 0) hempty (fun t' ht' => by cases ht')
    have hdecref : pageDecref (m₁.setWord ⟨d, i⟩ 0) (pgnum (m.frames d i)) =
        .ok ((m₁.setWord ⟨d, i⟩ 0).dropRef (pgnum (m.frames d i))) :=
      Kern.pageDecref_eq (h₁.sound.ref_pos (s := Slot.pde e i) ht₁) (h₁.bound _ hM)
        (h₁.sound.notMem_free (s := Slot.pde e i) ht₁)
    have hpa : pa2page (m₁.setWord ⟨d, i⟩ 0) (pteAddr (m.frames d i)) =
        .ok (pgnum (m.frames d i)) := (h₁.kaddr_eq hM).2
    refine ⟨(m₁.setWord ⟨d, i⟩ 0).dropRef (pgnum (m.frames d i)), ?_, hstore, ?_, ?_, ?_⟩
    · refine bind_ok.mpr ⟨_, (h.kaddr_eq hM).1, bind_ok.mpr ⟨m₁, hloop, ?_⟩⟩
      exact bind_ok.mpr ⟨_, hpa, hdecref⟩
    · show target roots (m₁.setWord ⟨d, i⟩ 0) (.pde e i) = none
      rw [htarget, Function.update_self]
      rfl
    · intro j
      show target roots (m₁.setWord ⟨d, i⟩ 0) (.pte e i j) = none
      rw [htarget, Function.update_of_ne (by simp)]
      exact hempty j
    · intro s hs hs'
      show target roots (m₁.setWord ⟨d, i⟩ 0) s = target roots m s
      rw [htarget, Function.update_of_ne hs, hkeep s hs']

/-- The outer loop, up to entry `x`. -/
theorem MemInv.freePdes_spec (h : MemInv M roots none m) (hd : roots e = some d) (x : Nat)
    (hx : x ≤ userPdes) :
    ∃ m', (List.range x).foldlM (freePde d) m = .ok m' ∧ MemInv M roots none m' ∧
      (∀ s : Slot, s.Under e x → target roots m' s = none) ∧
      ∀ s : Slot, ¬ s.Under e x → target roots m' s = target roots m s := by
  induction x with
  | zero =>
      refine ⟨m, rfl, h, fun s hs => ?_, fun _ _ => rfl⟩
      cases s with
      | pgdir e' => exact hs.elim
      | pde e' i' => exact absurd hs.2 (Nat.not_lt_zero _)
      | pte e' i' j' => exact absurd hs.2 (Nat.not_lt_zero _)
  | succ x ih =>
      obtain ⟨m₁, hloop, h₁, hclear, hkeep⟩ := ih (by omega)
      obtain ⟨m₂, hturn, h₂, hpde, hpte, hother⟩ := h₁.freePde_spec (i := ⟨x, hx⟩) hd
      have hslot : ∀ s : Slot, s.Under e (x + 1) →
          s.Under e x ∨ s = .pde e ⟨x, hx⟩ ∨ ∃ j, s = .pte e ⟨x, hx⟩ j := by
        intro s hs
        cases s with
        | pgdir e' => exact hs.elim
        | pde e' i' =>
            obtain ⟨rfl, hi'⟩ := hs
            rcases Nat.lt_or_eq_of_le (Nat.lt_succ_iff.mp hi') with hlt | heq
            · exact Or.inl ⟨rfl, hlt⟩
            · exact Or.inr (Or.inl (by rw [show i' = ⟨x, hx⟩ from Fin.ext heq]))
        | pte e' i' j' =>
            obtain ⟨rfl, hi'⟩ := hs
            rcases Nat.lt_or_eq_of_le (Nat.lt_succ_iff.mp hi') with hlt | heq
            · exact Or.inl ⟨rfl, hlt⟩
            · exact Or.inr (Or.inr ⟨j', by rw [show i' = ⟨x, hx⟩ from Fin.ext heq]⟩)
      refine ⟨m₂, ?_, h₂, ?_, ?_⟩
      · rw [List.range_succ, List.foldlM_append, hloop]
        exact bind_ok.mpr ⟨m₁, rfl, bind_ok.mpr ⟨m₂, hturn, rfl⟩⟩
      · intro s hs
        by_cases hp : s = .pde e ⟨x, hx⟩
        · rw [hp, hpde]
        · by_cases hq : ∃ j, s = .pte e ⟨x, hx⟩ j
          · obtain ⟨j, rfl⟩ := hq
            exact hpte j
          · rw [hother s hp (fun j hj => hq ⟨j, hj⟩)]
            refine hclear s ?_
            rcases hslot s hs with hu | hu | hu
            · exact hu
            · exact absurd hu hp
            · exact absurd hu hq
      · intro s hs
        have hp : s ≠ .pde e ⟨x, hx⟩ := by
          rintro rfl
          exact hs ⟨rfl, Nat.lt_succ_self x⟩
        have hq : ∀ j, s ≠ .pte e ⟨x, hx⟩ j := by
          rintro j rfl
          exact hs ⟨rfl, Nat.lt_succ_self x⟩
        have hu : ¬ s.Under e x := by
          intro hu
          cases s with
          | pgdir e' => exact hu
          | pde e' i' => exact hs ⟨hu.1, Nat.lt_succ_of_lt hu.2⟩
          | pte e' i' j' => exact hs ⟨hu.1, Nat.lt_succ_of_lt hu.2⟩
        rw [hother s hp hq, hkeep s hu]

/-- A page directory that is empty below `UTOP` goes away. -/
theorem target_dropRoot (hempty : ∀ i, target roots m (.pde e i) = none) :
    target (Function.update roots e none) m = Function.update (target roots m) (.pgdir e) none := by
  have hpde : ∀ e' i', target (Function.update roots e none) m (.pde e' i') =
      target roots m (.pde e' i') := by
    intro e' i'
    by_cases hee : e' = e
    · subst hee
      rw [hempty i']
      simp [target]
    · simp [target, hee]
  funext s
  cases s with
  | pgdir e' =>
      by_cases hee : e' = e
      · subst hee
        simp
      · simp [hee]
  | pde e' i' =>
      rw [Function.update_of_ne (by simp)]
      exact hpde e' i'
  | pte e' i' j' =>
      rw [Function.update_of_ne (by simp), target_pte, target_pte, hpde]

/-- `env_free`, as far as the memory goes. -/
theorem MemInv.freeRoot_spec (h : MemInv M roots none m) (hd : roots e = some d) :
    ∃ m₁ m', (List.range userPdes).foldlM (freePde d) m = .ok m₁ ∧ pageDecref m₁ d = .ok m' ∧
      MemInv M (Function.update roots e none) none m' ∧
      ∀ s p, target (Function.update roots e none) m' s = some p → target roots m s = some p := by
  obtain ⟨m₁, hloop, h₁, hclear, hkeep⟩ := h.freePdes_spec hd userPdes (Nat.le_refl _)
  have hroot : target roots m₁ (.pgdir e) = some d := hd
  have hempty : ∀ i, target roots m₁ (.pde e i) = none := fun i => hclear _ ⟨rfl, i.isLt⟩
  have htarget := target_dropRoot hempty
  have hsound := h₁.sound.detach (s := Slot.pgdir e) hroot
  refine ⟨m₁, m₁.dropRef d, hloop, h₁.pageDecref_eq hroot,
    ⟨?_, h₁.npages, h₁.small, h₁.dropRef_bound (h₁.root_managed hd), h₁.kernel, ?_, ?_⟩, ?_⟩
  · have htarget' : target (Function.update roots e none) (m₁.dropRef d) =
        Function.update (target roots m₁) (.pgdir e) none := htarget
    rw [pool, htarget']
    exact hsound
  · intro e' d' i' hd'
    by_cases hee : e' = e
    · subst hee
      rw [Function.update_self] at hd'
      cases hd'
    · rw [Function.update_of_ne hee] at hd'
      exact h₁.pde e' d' i' hd'
  · intro e' i' t' j' ht'
    replace ht' : target (Function.update roots e none) m₁ (.pde e' i') = some t' := ht'
    rw [htarget, Function.update_of_ne (by simp)] at ht'
    exact h₁.pte e' i' t' j' ht'
  · intro s p hs
    replace hs : target (Function.update roots e none) m₁ s = some p := hs
    rw [htarget, Function.update_apply] at hs
    split at hs
    · cases hs
    · by_cases hu : s.Under e userPdes
      · rw [hclear s hu] at hs
        cases hs
      · rw [← hkeep s hu, hs]

end SistemasOperativos.Kern
