/-
SistemasOperativos.Kern.BootTheorems — `mem_init` brings the kernel up.

While the kernel builds its address space every page table it needs comes
off the free list, and each of its own checks may panic. The proofs follow
the order of `mem_init`: `boot_alloc` and `page_init` give a free list of
the usable pages (`usable`), one region after another is mapped
(`Progress`), and the checks find what `KernelMaps` says. The page tables
must come from the first 4 MB, which is why `check_page_free_list` moves
those pages to the front (`lowPages`).
-/
import SistemasOperativos.Kern.LoaderTheorems
import SistemasOperativos.Kern.Boot

namespace SistemasOperativos.Kern

/-! ## `boot_alloc` -/

/-- The pages that `mem_init` takes with `boot_alloc`, from the end of the
kernel on: one for `kern_pgdir`, then the arrays. -/
def Linked.pgdirPage (l : Linked) : Nat := (l.kernEnd.toNat - kernbase.toNat + 4095) / 4096

def Linked.pagesPage (l : Linked) : Nat := l.pgdirPage + 1

def Linked.envsPage (l : Linked) (npages : Nat) : Nat := l.pagesPage + (npages * 8 + 4095) / 4096

/-- The first page behind the kernel's data. -/
def Linked.firstFree (l : Linked) (npages : Nat) : Nat := l.envsPage npages + 32

/-- What the machine and the linker promise: at most 256 megabytes, all of
which `KERNBASE` maps, and a kernel behind the IO hole that ends, with its
data, in the 4 megabytes of `entry_pgdir`. -/
structure Linked.Sane (l : Linked) (npages : Nat) : Prop where
  early : l.firstFree npages ≤ entryPages
  npages : npages ≤ 65536
  kernel : kernbase.toNat + extphysmem.toNat ≤ l.kernEnd.toNat
  aligned : l.percpuKstacks.toNat % 4096 = 0
  above : kernbase.toNat ≤ l.percpuKstacks.toNat
  kstacks : l.percpuKstacks.toNat + ncpu * kstksize.toNat ≤ l.kernEnd.toNat

/-- The kernel address of a page. -/
def page2kva (p : Nat) : Word := kernbase + page2pa p

variable {l : Linked} {n : Nat}

theorem toNat_page2pa {p : Nat} (hp : p < 1048576) : (page2pa p).toNat = p * 4096 := by
  rw [page2pa, BitVec.toNat_ofNat]
  omega

theorem toNat_page2kva {p : Nat} (hp : p < 65536) :
    (page2kva p).toNat = kernbase.toNat + p * 4096 := by
  have hbase : kernbase.toNat = 4026531840 := rfl
  rw [page2kva, BitVec.toNat_add, toNat_page2pa (by omega)]
  omega

theorem paddr_page2kva {p : Nat} (hp : p < 65536) : paddr (page2kva p) = .ok (page2pa p) := by
  have hge : ¬ page2kva p < kernbase := by
    show ¬ (page2kva p).toNat < kernbase.toNat
    rw [toNat_page2kva hp]
    omega
  rw [paddr, if_neg hge, page2kva, BitVec.add_comm, BitVec.add_sub_cancel]

theorem mappedSet_ok {p : Nat} {len : Word} (hfit : p * 4096 + len.toNat ≤ entryPages * 4096) :
    mappedSet entryPages (page2kva p) len = .ok () := by
  have hlimit : entryPages = 1024 := rfl
  rw [mappedSet, toNat_page2kva (by omega), if_pos]
  rw [show pgsize = 4096 from rfl]
  omega

/-- `boot_alloc` takes the pages that hold `n` bytes. -/
theorem bootAlloc_eq {s : Boot} {a : Nat} (len : Word) (hnext : s.nextfree = page2kva a)
    (hnpages : s.mem.npages ≤ 65536) (hfit : a + (len.toNat + 4095) / 4096 < s.mem.npages) :
    bootAlloc s len =
      .ok (page2kva a, { s with nextfree := page2kva (a + (len.toNat + 4095) / 4096) }) := by
  have hbase : kernbase.toNat = 4026531840 := rfl
  have hkva : (page2kva a + len).toNat = kernbase.toNat + (a * 4096 + len.toNat) := by
    rw [BitVec.toNat_add, toNat_page2kva (by omega)]
    omega
  have hge : ¬ page2kva a + len < kernbase := by
    show ¬ (page2kva a + len).toNat < kernbase.toNat
    omega
  have hlast : (page2kva a + len - kernbase).toNat = a * 4096 + len.toNat := by
    rw [BitVec.toNat_sub_of_le (by show kernbase.toNat ≤ _; omega), hkva]
    omega
  have hlimit : (BitVec.ofNat 32 (pgsize * s.mem.npages)).toNat = s.mem.npages * 4096 := by
    rw [BitVec.toNat_ofNat, show pgsize = 4096 from rfl]
    omega
  have hok : ¬ page2kva a + len - kernbase ≥ BitVec.ofNat 32 (pgsize * s.mem.npages) := by
    show ¬ (BitVec.ofNat 32 (pgsize * s.mem.npages)).toNat ≤ (page2kva a + len - kernbase).toNat
    omega
  have hpage : ¬ pgnum (page2kva a + len - kernbase) ≥ s.mem.npages := by
    rw [pgnum, hlast]
    omega
  have hnew : roundup (page2kva a + len - kernbase + kernbase) =
      page2kva (a + (len.toNat + 4095) / 4096) := by
    apply BitVec.eq_of_toNat_eq
    rw [BitVec.sub_add_cancel, toNat_roundup (by omega), hkva, toNat_page2kva (by omega)]
    omega
  rw [bootAlloc, hnext, paddr, if_neg hge]
  refine bind_ok.mpr ⟨_, rfl, ?_⟩
  rw [if_neg hok, kaddr, if_neg hpage]
  refine bind_ok.mpr ⟨_, rfl, ?_⟩
  rw [hnew]
  rfl

/-! ## `page_init` -/

/-- The pages that `page_init` frees: not page 0, nor the one where the
other CPUs start, nor the IO hole, nor what the kernel has taken. -/
def usable (first p : Nat) : Bool :=
  p != 0 && p != 7 && !(160 ≤ p && p < 256) && !(256 ≤ p && p < first)

/-- The same state with another free list. -/
def Boot.withFree (s : Boot) (free : List Nat) : Boot :=
  { s with mem := { s.mem with pageFreeList := free } }

theorem pageInitTurn_eq {s : Boot} {first i : Nat} (hnext : s.nextfree = page2kva first)
    (hnpages : s.mem.npages ≤ 65536) (hfit : first < s.mem.npages)
    (href : s.mem.ppRef = fun _ => 0) :
    pageInitTurn s i = .ok
      (s.withFree (if usable first i then i :: s.mem.pageFreeList else s.mem.pageFreeList)) := by
  have hmp : pgnum mpentryPaddr = 7 := by decide
  have hio : pgnum iophysmem = 160 := by decide
  have hext : pgnum extphysmem = 256 := by decide
  have halloc : bootAlloc s 0 = .ok (page2kva first, s) := by
    rw [bootAlloc_eq 0 hnext hnpages (by simpa using hfit), ← hnext]
    simp [← hnext]
  have hpaddr : paddr (page2kva first) = .ok (page2pa first) := paddr_page2kva (by omega)
  have hfirst : pgnum (page2pa first) = first := pgnum_page2pa (by omega)
  have hpush : s.push i = s.withFree (i :: s.mem.pageFreeList) := by
    have hzero : Function.update s.mem.ppRef i 0 = s.mem.ppRef := by
      rw [href]
      exact Function.update_eq_self i (fun _ => 0)
    rw [Boot.push, Pmap.setRef, hzero, Boot.withFree]
  rw [pageInitTurn, hmp, hio]
  by_cases h0 : i = 0
  · subst h0
    rfl
  · rw [if_neg h0]
    by_cases h7 : 7 = i
    · subst h7
      rfl
    · rw [if_neg h7, hext]
      by_cases hhole : i ≥ 160 ∧ i < 256
      · have hno : usable first i = false := by simp [usable, hhole.1, hhole.2]
        rw [if_pos hhole, hno]
        rfl
      · rw [if_neg hhole]
        have htaken : takenByKernel s i = .ok (decide (256 ≤ i ∧ i < first), s) := by
          rw [takenByKernel, hext]
          by_cases hge : i ≥ 256
          · rw [if_pos hge, halloc]
            refine bind_ok.mpr ⟨_, rfl, bind_ok.mpr ⟨_, hpaddr, ?_⟩⟩
            rw [hfirst]
            simp [hge]
            rfl
          · rw [if_neg hge]
            simp [hge]
            rfl
        have huse : usable first i = !decide (256 ≤ i ∧ i < first) := by
          simp only [usable]
          rw [Bool.eq_iff_iff]
          simp
          omega
        rw [htaken, huse]
        refine bind_ok.mpr ⟨_, rfl, ?_⟩
        cases decide (256 ≤ i ∧ i < first) with
        | true => rfl
        | false => exact congrArg Except.ok hpush

/-- The free list after `page_init`: the usable pages, the last one first. -/
theorem pageInit_eq {s : Boot} {first : Nat} (hnext : s.nextfree = page2kva first)
    (hnpages : s.mem.npages ≤ 65536) (hfit : first < s.mem.npages)
    (href : s.mem.ppRef = fun _ => 0) (hempty : s.mem.pageFreeList = []) :
    pageInit s =
      .ok (s.withFree ((List.range s.mem.npages).filter (usable first)).reverse) := by
  have hloop : ∀ n, (List.range n).foldlM pageInitTurn s =
      .ok (s.withFree ((List.range n).filter (usable first)).reverse) := by
    intro n
    induction n with
    | zero =>
        have hsame : s = s.withFree [] := by rw [Boot.withFree, ← hempty]
        exact congrArg Except.ok hsame
    | succ n ih =>
        have hturn := pageInitTurn_eq (i := n)
          (s := s.withFree ((List.range n).filter (usable first)).reverse) hnext hnpages hfit href
        rw [List.range_succ, List.foldlM_append, ih]
        refine bind_ok.mpr ⟨_, rfl, ?_⟩
        rw [List.foldlM_cons, hturn]
        refine bind_ok.mpr ⟨_, rfl, ?_⟩
        rw [List.filter_append, List.filter_cons, List.filter_nil, List.reverse_append]
        cases usable first n <;> rfl
  exact hloop s.mem.npages

theorem mem_usable {n first p : Nat} :
    p ∈ ((List.range n).filter (usable first)).reverse ↔
      p < n ∧ p ≠ 0 ∧ p ≠ 7 ∧ ¬ (160 ≤ p ∧ p < 256) ∧ ¬ (256 ≤ p ∧ p < first) := by
  rw [List.mem_reverse, List.mem_filter, List.mem_range]
  simp [usable, and_assoc]
  omega

/-! ## The kernel's page directory while it is built -/

/-- The entry that `UVPT` uses for the directory itself. -/
abbrev uvptPde : Nat := 957

/-- The pages at the front of the free list that `entry_pgdir` maps. -/
def lowPages (free : List Nat) : Nat := (free.takeWhile (fun p => p < entryPages)).length

theorem lowPages_append_le (l free : List Nat) : lowPages (l ++ free) ≤ l.length + lowPages free := by
  induction l with
  | nil => simp
  | cons p l ih =>
      rw [lowPages, List.cons_append, List.takeWhile_cons]
      split
      · rw [List.length_cons, List.length_cons]
        exact Nat.le_trans (Nat.succ_le_succ ih) (by omega)
      · exact Nat.zero_le _

theorem low_of_lowPages {free : List Nat} (h : lowPages free ≠ 0) :
    ∃ t rest, free = t :: rest ∧ t < entryPages := by
  cases free with
  | nil => exact absurd rfl h
  | cons t rest =>
      refine ⟨t, rest, rfl, ?_⟩
      by_contra hhigh
      refine h ?_
      rw [lowPages, List.takeWhile_cons, if_neg (by simpa using hhigh)]
      rfl

/-- The directory `K` in order: away from `UVPT`, each entry is empty or
has a page table of its own, in the first 4 MB. -/
structure KernDir (m : Pmap) (K : Nat) : Prop where
  npages : m.npages ≤ 65536
  free : ∀ p ∈ m.pageFreeList, p < m.npages ∧ p ≠ K
  nodup : m.pageFreeList.Nodup
  table : ∀ i < 1024, i ≠ uvptPde → m.frames K i ≠ 0 → ∃ t,
    m.frames K i = page2pa t ||| pteP ||| pteW ||| pteU ∧ t < m.npages ∧ t ≠ K ∧
      t ∉ m.pageFreeList ∧ t < entryPages
  distinct : ∀ i < 1024, i ≠ uvptPde → ∀ i' < 1024, i' ≠ uvptPde → m.frames K i ≠ 0 →
    m.frames K i = m.frames K i' → i = i'

variable {m m' : Pmap} {K : Nat} {va va' pa perm : Word}

theorem pdx_lt_1024 (va : Word) : pdx va < 1024 := by
  unfold pdx
  omega

/-- `*kern_pgdir_entry` of `va` after the walk. -/
structure KernWalk (m m₁ : Pmap) (K : Nat) (va : Word) (t : Nat) : Prop where
  dir : KernDir m₁ K
  pde : m₁.frames K (pdx va) = page2pa t ||| pteP ||| pteW ||| pteU
  table : t < m₁.npages ∧ t ≠ K ∧ t ∉ m₁.pageFreeList
  low : t < entryPages
  npages : m₁.npages = m.npages
  entries : ∀ va', pdx va' ≠ uvptPde → entryOf m₁ K va' = entryOf m K va'
  others : ∀ i, i ≠ pdx va → m₁.frames K i = m.frames K i
  frames : ∀ q, q ≠ K → q ∉ m.pageFreeList → m₁.frames q = m.frames q
  kernPgdir : m₁.kernPgdir = m.kernPgdir
  room : m.frames K (pdx va) ≠ 0 → m₁.pageFreeList = m.pageFreeList ∧ m₁.ppRef = m.ppRef
  taken : m.frames K (pdx va) = 0 → m.pageFreeList = t :: m₁.pageFreeList ∧
    ∀ p, p ≠ t → m₁.ppRef p = m.ppRef p

/-- A walk that finds the page table `t`. -/
theorem pgdirFind_table {t : Nat} (hnpages : m.npages ≤ 65536) (ht : t < m.npages)
    (hpde : m.frames K (pdx va) = page2pa t ||| pteP ||| pteW ||| pteU) :
    pgdirFind m K va = .ok (some ⟨t, ptx va⟩) := by
  have hnum : pgnum (pteAddr (page2pa t ||| pteP ||| pteW ||| pteU)) = t := by
    rw [pgnum_pteAddr, pgnum_pde (by omega)]
  have hne : m.frames K (pdx va) ≠ 0 := by
    rw [hpde]
    exact pde_ne_zero t
  rw [pgdirFind, if_pos hne, hpde, kaddr, hnum, if_neg (by omega)]
  rfl

theorem KernDir.walk (h : KernDir m K) (hva : pdx va ≠ uvptPde)
    (hroom : m.frames K (pdx va) = 0 → lowPages m.pageFreeList ≠ 0) :
    ∃ t m₁, pgdirWalk m K va = .ok (some ⟨t, ptx va⟩, m₁) ∧ KernWalk m m₁ K va t := by
  by_cases hpde : m.frames K (pdx va) = 0
  · obtain ⟨t, rest, hfree, hlow⟩ := low_of_lowPages (hroom hpde)
    have hmem : t ∈ m.pageFreeList := by
      rw [hfree]
      exact List.mem_cons_self
    obtain ⟨ht, htK⟩ := h.free t hmem
    have hnodup := h.nodup
    rw [hfree, List.nodup_cons] at hnodup
    have hnp := h.npages
    have hnum : pgnum (page2pa t ||| pteP ||| pteW ||| pteU) = t := pgnum_pde (by omega)
    have hframes := pgdirCreate_frames hpde hfree
    have hcreate : pgdirCreate m K va = ((m.taken t rest).incRef t).setWord ⟨K, pdx va⟩
        (page2pa t ||| pteP ||| pteW ||| pteU) := by
      rw [pgdirCreate, if_pos hpde, pageAlloc_cons hfree]
    have hK : ∀ i, (pgdirCreate m K va).frames K i =
        if i = pdx va then page2pa t ||| pteP ||| pteW ||| pteU else m.frames K i := by
      intro i
      rw [hframes]
      by_cases hi : i = pdx va
      · rw [if_pos ⟨rfl, hi⟩, if_pos hi]
      · rw [if_neg (fun hc => hi hc.2), if_neg (Ne.symm htK), if_neg hi]
    have hfree₁ : (pgdirCreate m K va).pageFreeList = rest := by
      rw [hcreate]
      rfl
    have hnp₁ : (pgdirCreate m K va).npages = m.npages := by
      rw [hcreate]
      rfl
    have hnew : ∀ i < 1024, i ≠ uvptPde → m.frames K i ≠ 0 →
        m.frames K i ≠ page2pa t ||| pteP ||| pteW ||| pteU := by
      intro i hi hu hne heq
      obtain ⟨t', ht', hlt', -, hnot', -⟩ := h.table i hi hu hne
      have hsame : t' = t := by
        rw [← hnum, ← heq, ht', pgnum_pde (by omega)]
      exact hnot' (hsame ▸ hmem)
    have hdir : KernDir (pgdirCreate m K va) K := by
      refine ⟨by rw [hnp₁]; exact hnp, ?_, by rw [hfree₁]; exact hnodup.2, ?_, ?_⟩
      · intro p hp
        rw [hfree₁] at hp
        rw [hnp₁]
        exact h.free p (by rw [hfree]; exact List.mem_cons_of_mem _ hp)
      · intro i hi hu hne
        rw [hK] at hne ⊢
        rw [hfree₁, hnp₁]
        split
        · exact ⟨t, rfl, ht, htK, hnodup.1, hlow⟩
        · rename_i hi'
          rw [if_neg hi'] at hne
          obtain ⟨t', ht', hlt', hK', hnot', hlow'⟩ := h.table i hi hu hne
          exact ⟨t', ht', hlt', hK',
            fun hc => hnot' (by rw [hfree]; exact List.mem_cons_of_mem _ hc), hlow'⟩
      · intro i hi hu i' hi' hu' hne heq
        rw [hK] at hne
        rw [hK, hK] at heq
        split at heq
        · rename_i hiv
          split at heq
          · rename_i hiv'
            rw [hiv, hiv']
          · have hne' : m.frames K i' ≠ 0 := by
              rw [← heq]
              exact pde_ne_zero t
            exact absurd heq.symm (hnew i' hi' hu' hne')
        · rename_i hiv
          rw [if_neg hiv] at hne
          split at heq
          · exact absurd heq (hnew i hi hu hne)
          · exact h.distinct i hi hu i' hi' hu' hne heq
    refine ⟨t, pgdirCreate m K va, ?_, hdir, by rw [hK, if_pos rfl],
      ⟨by rw [hnp₁]; exact ht, htK, by rw [hfree₁]; exact hnodup.1⟩, hlow, hnp₁, ?_, ?_, ?_, ?_, ?_, ?_⟩
    · rw [pgdirWalk, pgdirFind_table (t := t) (by omega) (by omega) (by rw [hK, if_pos rfl])]
      rfl
    · intro va' hu'
      rw [entryOf, entryOf, hK]
      by_cases heq : pdx va' = pdx va
      · rw [if_pos heq, if_neg (pde_ne_zero t), hnum, heq, if_pos hpde, hframes,
          if_neg (fun hc => htK hc.1), if_pos rfl]
      · rw [if_neg heq]
        by_cases hzero : m.frames K (pdx va') = 0
        · rw [if_pos hzero, if_pos hzero]
        · obtain ⟨t', ht', hlt', hK', hnot', -⟩ := h.table _ (pdx_lt_1024 va') hu' hzero
          have hnum' : pgnum (m.frames K (pdx va')) = t' := by rw [ht', pgnum_pde (by omega)]
          rw [if_neg hzero, if_neg hzero, hnum', hframes, if_neg (fun hc => hK' hc.1),
            if_neg (fun hc : t' = t => hnot' (hc ▸ hmem))]
    · intro i hi
      rw [hK, if_neg hi]
    · intro q hq hnot
      funext x
      rw [hframes, if_neg (fun hc => hq hc.1), if_neg (fun hc : q = t => hnot (hc ▸ hmem))]
    · rw [hcreate]
      rfl
    · exact fun hc => absurd hpde hc
    · intro _
      refine ⟨by rw [hfree₁, hfree], ?_⟩
      intro p hp
      rw [hcreate]
      simp [Pmap.setWord, Pmap.incRef, Pmap.setRef, Pmap.taken, hp]
  · obtain ⟨t, ht, hlt, hK, hnot, hlow⟩ := h.table _ (pdx_lt_1024 va) hva hpde
    refine ⟨t, m, ?_, h, ht, ⟨hlt, hK, hnot⟩, hlow, rfl, fun _ _ => rfl, fun _ _ => rfl,
      fun _ _ _ => rfl, rfl, fun _ => ⟨rfl, rfl⟩, fun hc => absurd hc hpde⟩
    rw [pgdirWalk, pgdirCreate, if_neg hpde, pgdirFind_table h.npages hlt ht]
    rfl

/-- What one turn of `boot_map_region` does at an address that is not
mapped. -/
structure BootMapped (m m' : Pmap) (K : Nat) (va w : Word) : Prop where
  dir : KernDir m' K
  npages : m'.npages = m.npages
  kernPgdir : m'.kernPgdir = m.kernPgdir
  pde : m'.frames K (pdx va) ≠ 0
  entries : ∀ va', pdx va' ≠ uvptPde →
    entryOf m' K va' = if pgnum va' = pgnum va then w else entryOf m K va'
  others : ∀ i, i ≠ pdx va → m'.frames K i = m.frames K i
  suffix : ∃ l, m.pageFreeList = l ++ m'.pageFreeList ∧
    l.length = if m.frames K (pdx va) = 0 then 1 else 0
  refs : ∀ p ∈ m'.pageFreeList, m'.ppRef p = m.ppRef p

theorem KernDir.bootMapPage_spec (h : KernDir m K) (pa perm : Word) (hva : pdx va ≠ uvptPde)
    (hroom : m.frames K (pdx va) = 0 → lowPages m.pageFreeList ≠ 0) (hzero : entryOf m K va = 0) :
    ∃ m', bootMapPage entryPages K perm m va pa = .ok m' ∧ BootMapped m m' K va (pa ||| perm ||| pteP) := by
  obtain ⟨t, m₁, hwalk, hw⟩ := h.walk hva hroom
  obtain ⟨ht, htK, hnot⟩ := hw.table
  have hnp₁ := hw.dir.npages
  have hnum : pgnum (m₁.frames K (pdx va)) = t := by rw [hw.pde, pgnum_pde (by omega)]
  have hpde : m₁.frames K (pdx va) ≠ 0 := by
    rw [hw.pde]
    exact pde_ne_zero t
  have hword : m₁.frames t (ptx va) = 0 := by
    have := hw.entries va hva
    rw [hzero, entryOf, if_neg hpde, hnum] at this
    exact this
  have hremove : pageRemove m₁ K va = .ok m₁ := by
    have hlookup : pageLookup m₁ K va = .ok none := by
      rw [pageLookup, pgdirFind_table hnp₁ ht hw.pde]
      refine bind_ok.mpr ⟨_, rfl, ?_⟩
      dsimp only
      rw [Pmap.word, if_pos hword]
      rfl
    rw [pageRemove, hlookup]
    rfl
  have hdirs : ∀ i, (m₁.setWord ⟨t, ptx va⟩ (pa ||| perm ||| pteP)).frames K i = m₁.frames K i := by
    intro i
    rw [setWord_frames, if_neg (fun hc => htK hc.1.symm)]
  refine ⟨m₁.setWord ⟨t, ptx va⟩ (pa ||| perm ||| pteP), ?_, ?_⟩
  · rw [bootMapPage, hwalk]
    refine bind_ok.mpr ⟨_, rfl, ?_⟩
    dsimp only
    rw [hremove]
    refine bind_ok.mpr ⟨_, rfl, ?_⟩
    rw [if_neg (Nat.not_le.mpr hw.low)]
    rfl
  · refine ⟨⟨hnp₁, hw.dir.free, hw.dir.nodup, ?_, ?_⟩, hw.npages, hw.kernPgdir, ?_, ?_, ?_, ?_, ?_⟩
    · intro i hi hu hne
      rw [hdirs] at hne ⊢
      exact hw.dir.table i hi hu hne
    · intro i hi hu i' hi' hu' hne heq
      rw [hdirs] at hne
      rw [hdirs, hdirs] at heq
      exact hw.dir.distinct i hi hu i' hi' hu' hne heq
    · rw [hdirs]
      exact hpde
    · intro va' hu'
      rw [← hw.entries va' hu', entryOf, entryOf, hdirs]
      by_cases hpage : pgnum va' = pgnum va
      · obtain ⟨hd, hx⟩ := pgnum_eq_iff.mp hpage
        rw [if_pos hpage, hd, if_neg hpde, hnum, hx, setWord_frames, if_pos ⟨rfl, rfl⟩]
      · rw [if_neg hpage]
        by_cases hzero' : m₁.frames K (pdx va') = 0
        · rw [if_pos hzero', if_pos hzero']
        · rw [if_neg hzero', if_neg hzero', setWord_frames, if_neg]
          rintro ⟨htab, hidx⟩
          obtain ⟨t', ht', hlt', -, -, -⟩ := hw.dir.table _ (pdx_lt_1024 va') hu' hzero'
          rw [ht', pgnum_pde (by omega)] at htab
          have hsame : t' = t := htab
          have hd := hw.dir.distinct _ (pdx_lt_1024 va') hu' _ (pdx_lt_1024 va) hva hzero'
            (by rw [ht', hw.pde, hsame])
          exact hpage (pgnum_eq_iff.mpr ⟨hd, hidx⟩)
    · intro i hi
      rw [hdirs, hw.others i hi]
    · by_cases hold : m.frames K (pdx va) = 0
      · exact ⟨[t], (hw.taken hold).1, by rw [if_pos hold]; rfl⟩
      · exact ⟨[], (hw.room hold).1.symm, by rw [if_neg hold]; rfl⟩
    · intro p hp
      by_cases hold : m.frames K (pdx va) = 0
      · exact (hw.taken hold).2 p (fun hc => hnot (hc ▸ hp))
      · exact congrFun (hw.room hold).2 p

/-- The page tables that `c` pages from page `a` on need. -/
def tablesFor (a c : Nat) : Nat := if c = 0 then 0 else (a + c - 1) / 1024 + 1 - a / 1024

/-- What `boot_map_region` does: `c` pages from page `a` on, the `i`-th with
the entry `f i`. -/
structure RegionMapped (m m' : Pmap) (K a c : Nat) (f : Nat → Word) : Prop where
  dir : KernDir m' K
  npages : m'.npages = m.npages
  kernPgdir : m'.kernPgdir = m.kernPgdir
  pde : ∀ x, a ≤ x → x < a + c → m'.frames K (x / 1024) ≠ 0
  entries : ∀ va, pdx va ≠ uvptPde → entryOf m' K va =
    if a ≤ pgnum va ∧ pgnum va < a + c then f (pgnum va - a) else entryOf m K va
  others : ∀ i, (∀ x, a ≤ x → x < a + c → x / 1024 ≠ i) → m'.frames K i = m.frames K i
  suffix : ∃ l, m.pageFreeList = l ++ m'.pageFreeList ∧ l.length ≤ tablesFor a c
  refs : ∀ p ∈ m'.pageFreeList, m'.ppRef p = m.ppRef p

/-- The `i`-th address of a region. -/
theorem toNat_regionVa {va : Word} {a c i : Nat} (hva : va.toNat = a * 4096) (hi : i < c)
    (hfit : a + c ≤ 1048576) : (va + BitVec.ofNat 32 (i * 4096)).toNat = (a + i) * 4096 := by
  rw [BitVec.toNat_add, BitVec.toNat_ofNat]
  omega

theorem tablesFor_mono {a k c : Nat} (h : k ≤ c) : tablesFor a k ≤ tablesFor a c := by
  unfold tablesFor
  split
  · exact Nat.zero_le _
  · rw [if_neg (by omega)]
    omega

/-- A page that starts a page table, or the first page. -/
theorem tablesFor_succ {a k : Nat} (h : k = 0 ∨ (a + k) % 1024 = 0) :
    tablesFor a k + 1 ≤ tablesFor a (k + 1) := by
  unfold tablesFor
  rcases h with rfl | hmod
  · simp
  · rw [if_neg (Nat.succ_ne_zero k)]
    split <;> omega

theorem KernDir.bootMapPages_spec (h : KernDir m K) (pa perm : Word) {a c : Nat} (hva : va.toNat = a * 4096)
    (hfit : a + c ≤ 1048576) (huvpt : ∀ x, a ≤ x → x < a + c → x / 1024 ≠ uvptPde)
    (hzero : ∀ va', pdx va' ≠ uvptPde → a ≤ pgnum va' → pgnum va' < a + c → entryOf m K va' = 0)
    (hroom : tablesFor a c ≤ lowPages m.pageFreeList) : ∀ k ≤ c,
    ∃ m', (List.range k).foldlM (fun m i => bootMapPage entryPages K perm m (va + BitVec.ofNat 32 (i * 4096))
        (pa + BitVec.ofNat 32 (i * 4096))) m = .ok m' ∧
      RegionMapped m m' K a k (fun i => pa + BitVec.ofNat 32 (i * 4096) ||| perm ||| pteP) := by
  intro k
  induction k with
  | zero =>
      intro _
      refine ⟨m, rfl, h, rfl, rfl, fun x hlo hhi => by omega, ?_, fun _ _ => rfl,
        ⟨[], rfl, Nat.zero_le _⟩, fun _ _ => rfl⟩
      intro va' _
      rw [if_neg (by omega)]
  | succ k ih =>
      intro hk
      obtain ⟨m₁, hloop, hr⟩ := ih (by omega)
      have hnat := toNat_regionVa hva (i := k) (c := c) (by omega) hfit
      have hpdx : pdx (va + BitVec.ofNat 32 (k * 4096)) = (a + k) / 1024 := by
        rw [pdx, hnat]
        omega
      have hpage : pgnum (va + BitVec.ofNat 32 (k * 4096)) = a + k := by
        rw [pgnum, hnat]
        omega
      have hu : pdx (va + BitVec.ofNat 32 (k * 4096)) ≠ uvptPde := by
        rw [hpdx]
        exact huvpt (a + k) (by omega) (by omega)
      obtain ⟨l, hl, hlen⟩ := hr.suffix
      -- a page table is only missing at the start of its range
      have hstart : m₁.frames K ((a + k) / 1024) = 0 → k = 0 ∨ (a + k) % 1024 = 0 := by
        intro hpde
        by_contra hc
        rw [not_or] at hc
        refine hr.pde (a + k - 1) (by omega) (by omega) ?_
        rw [show (a + k - 1) / 1024 = (a + k) / 1024 by omega]
        exact hpde
      have hleft : lowPages m.pageFreeList ≤ l.length + lowPages m₁.pageFreeList := by
        rw [hl]
        exact lowPages_append_le _ _
      have hroom₁ : m₁.frames K (pdx (va + BitVec.ofNat 32 (k * 4096))) = 0 →
          lowPages m₁.pageFreeList ≠ 0 := by
        intro hpde hnone
        rw [hpdx] at hpde
        have hsucc := tablesFor_succ (hstart hpde)
        have hmono := tablesFor_mono (a := a) hk
        omega
      have hzero₁ : entryOf m₁ K (va + BitVec.ofNat 32 (k * 4096)) = 0 := by
        rw [hr.entries _ hu, hpage, if_neg (by omega)]
        exact hzero _ hu (by omega) (by omega)
      obtain ⟨m', hturn, hb⟩ := hr.dir.bootMapPage_spec
        (pa + BitVec.ofNat 32 (k * 4096)) perm hu hroom₁ hzero₁
      obtain ⟨l', hl', hlen'⟩ := hb.suffix
      refine ⟨m', ?_, hb.dir, hb.npages.trans hr.npages, hb.kernPgdir.trans hr.kernPgdir,
        ?_, ?_, ?_, ⟨l ++ l', ?_, ?_⟩, ?_⟩
      · rw [List.range_succ, List.foldlM_append, hloop]
        refine bind_ok.mpr ⟨_, rfl, ?_⟩
        rw [List.foldlM_cons, hturn]
        rfl
      · intro x hlo hhi
        by_cases hx : x / 1024 = (a + k) / 1024
        · rw [hx, ← hpdx]
          exact hb.pde
        · rw [hb.others _ (by rw [hpdx]; exact hx)]
          exact hr.pde x hlo (by
            have : x ≠ a + k := fun hc => hx (by rw [hc])
            omega)
      · intro va' hu'
        rw [hb.entries va' hu', hpage, hr.entries va' hu']
        by_cases heq : pgnum va' = a + k
        · rw [if_pos heq, if_pos (by omega), heq, Nat.add_sub_cancel_left]
        · rw [if_neg heq]
          by_cases hin : a ≤ pgnum va' ∧ pgnum va' < a + k
          · rw [if_pos hin, if_pos (by omega)]
          · rw [if_neg hin, if_neg (by omega)]
      · intro i hi
        rw [hb.others i (by rw [hpdx]; exact (hi (a + k) (by omega) (by omega)).symm)]
        exact hr.others i (fun x hlo hhi => hi x hlo (by omega))
      · rw [hl, hl', List.append_assoc]
      · rw [List.length_append, hlen', hpdx]
        split
        · rename_i hpde
          have hsucc := tablesFor_succ (hstart hpde)
          omega
        · have hmono := tablesFor_mono (a := a) (show k ≤ k + 1 by omega)
          omega
      · intro p hp
        rw [hb.refs p hp]
        exact hr.refs p (by rw [hl']; exact List.mem_append_right _ hp)

/-- `boot_map_region` over addresses that are not mapped. -/
theorem KernDir.bootMapRegion_spec (h : KernDir m K) (pa perm : Word) {size : Word} {a c : Nat}
    (hva : va.toNat = a * 4096) (hsize : (size.toNat + 4095) / 4096 = c)
    (hfit : a + c ≤ 1048576) (huvpt : ∀ x, a ≤ x → x < a + c → x / 1024 ≠ uvptPde)
    (hzero : ∀ va', pdx va' ≠ uvptPde → a ≤ pgnum va' → pgnum va' < a + c → entryOf m K va' = 0)
    (hroom : tablesFor a c ≤ lowPages m.pageFreeList) :
    ∃ m', bootMapRegion entryPages K m va size pa perm = .ok m' ∧
      RegionMapped m m' K a c (fun i => pa + BitVec.ofNat 32 (i * 4096) ||| perm ||| pteP) := by
  rw [bootMapRegion, hsize]
  exact h.bootMapPages_spec pa perm hva hfit huvpt hzero hroom c (Nat.le_refl c)

/-! ## The mappings so far -/

/-- The directory entries of the kernel's part, without `UVPT`, hold what
`R` says: `R p w` when page `p` has the entry `w`. -/
def Holds (m : Pmap) (K : Nat) (R : Nat → Word → Prop) : Prop :=
  ∀ va, pdx va ≠ uvptPde → (∀ w, R (pgnum va) w → entryOf m K va = w) ∧
    ((∀ w, ¬ R (pgnum va) w) → entryOf m K va = 0)

/-- From `m₀` on, only what `R` says has been mapped: `S` are the page
tables there are for sure, and `used` bounds the pages that went into
new ones. -/
structure Progress (m₀ m : Pmap) (K : Nat) (R : Nat → Word → Prop) (S : Nat → Prop) (used : Nat) :
    Prop where
  dir : KernDir m K
  npages : m.npages = m₀.npages
  kernPgdir : m.kernPgdir = m₀.kernPgdir
  holds : Holds m K R
  pde : ∀ i, S i → m.frames K i ≠ 0
  user : ∀ i < userPdes, m.frames K i = 0
  uvptSelf : m.frames K uvptPde = m₀.frames K uvptPde
  suffix : ∃ l, m₀.pageFreeList = l ++ m.pageFreeList ∧ l.length ≤ used
  refs : ∀ p ∈ m.pageFreeList, m.ppRef p = m₀.ppRef p

variable {m₀ : Pmap} {R : Nat → Word → Prop} {S : Nat → Prop} {used : Nat}

/-- One more region, of pages that `R` does not speak of. -/
theorem Progress.region (h : Progress m₀ m K R S used) (va size pa perm : Word) {a c : Nat}
    (hva : va.toNat = a * 4096)
    (hsize : (size.toNat + 4095) / 4096 = c) (hlow : 977920 ≤ a) (hfit : a + c ≤ 1048576)
    (huvpt : a + c ≤ 979968 ∨ 980992 ≤ a)
    (hnew : ∀ p w, R p w → ¬ (a ≤ p ∧ p < a + c))
    (hroom : used + tablesFor a c ≤ lowPages m₀.pageFreeList) :
    ∃ m', bootMapRegion entryPages K m va size pa perm = .ok m' ∧
      Progress m₀ m' K
        (fun p w => R p w ∨ ∃ i < c, p = a + i ∧
          w = pa + BitVec.ofNat 32 (i * 4096) ||| perm ||| pteP)
        (fun i => S i ∨ ∃ x, a ≤ x ∧ x < a + c ∧ x / 1024 = i) (used + tablesFor a c) := by
  obtain ⟨l, hl, hlen⟩ := h.suffix
  have hleft : lowPages m₀.pageFreeList ≤ l.length + lowPages m.pageFreeList := by
    rw [hl]
    exact lowPages_append_le _ _
  have hzero : ∀ va', pdx va' ≠ uvptPde → a ≤ pgnum va' → pgnum va' < a + c →
      entryOf m K va' = 0 :=
    fun va' hu hlo hhi => (h.holds va' hu).2 (fun w hw => hnew _ w hw ⟨hlo, hhi⟩)
  have hplace : ∀ x, a ≤ x → x < a + c → x / 1024 ≠ uvptPde := by
    intro x hlo hhi heq
    have : x / 1024 = 957 := heq
    omega
  obtain ⟨m', hmap, hr⟩ := h.dir.bootMapRegion_spec pa perm hva hsize hfit hplace hzero
    (by omega)
  obtain ⟨l', hl', hlen'⟩ := hr.suffix
  refine ⟨m', hmap, hr.dir, hr.npages.trans h.npages, hr.kernPgdir.trans h.kernPgdir, ?_, ?_, ?_,
    ?_, ⟨l ++ l', ?_, ?_⟩, ?_⟩
  · intro va' hu
    rw [hr.entries va' hu]
    by_cases hin : a ≤ pgnum va' ∧ pgnum va' < a + c
    · rw [if_pos hin]
      refine ⟨?_, ?_⟩
      · rintro w (hw | ⟨i, hi, hp, rfl⟩)
        · exact absurd hin (hnew _ w hw)
        · rw [show pgnum va' - a = i by omega]
      · intro hnone
        exact absurd (Or.inr ⟨pgnum va' - a, by omega, by omega, rfl⟩) (hnone _)
    · rw [if_neg hin]
      refine ⟨?_, ?_⟩
      · rintro w (hw | ⟨i, hi, hp, -⟩)
        · exact (h.holds va' hu).1 w hw
        · exact absurd ⟨by omega, by omega⟩ hin
      · intro hnone
        exact (h.holds va' hu).2 (fun w hw => hnone w (Or.inl hw))
  · rintro i (hi | ⟨x, hlo, hhi, rfl⟩)
    · by_cases hin : ∃ x, a ≤ x ∧ x < a + c ∧ x / 1024 = i
      · obtain ⟨x, hlo, hhi, rfl⟩ := hin
        exact hr.pde x hlo hhi
      · rw [hr.others i (fun x hlo hhi heq => hin ⟨x, hlo, hhi, heq⟩)]
        exact h.pde i hi
    · exact hr.pde x hlo hhi
  · intro i hi
    have hlt : i < 955 := hi
    rw [hr.others i (fun x hlo _ heq => by omega)]
    exact h.user i hi
  · rw [hr.others uvptPde hplace]
    exact h.uvptSelf
  · rw [hl, hl', List.append_assoc]
  · rw [List.length_append]
    omega
  · intro p hp
    rw [hr.refs p hp]
    exact h.refs p (by rw [hl']; exact List.mem_append_right _ hp)

/-- The same facts under another name for the mappings. -/
theorem Progress.congr {R' : Nat → Word → Prop} {S' : Nat → Prop} {used' : Nat}
    (h : Progress m₀ m K R S used) (hR : ∀ p w, R' p w ↔ R p w) (hS : ∀ i, S' i → S i)
    (hused : used ≤ used') : Progress m₀ m K R' S' used' := by
  obtain ⟨l, hl, hlen⟩ := h.suffix
  refine ⟨h.dir, h.npages, h.kernPgdir, ?_, fun i hi => h.pde i (hS i hi), h.user, h.uvptSelf,
    ⟨l, hl, by omega⟩, h.refs⟩
  intro va hu
  refine ⟨fun w hw => (h.holds va hu).1 w ((hR _ _).mp hw), fun hnone => (h.holds va hu).2 ?_⟩
  intro w hw
  exact hnone w ((hR _ _).mpr hw)

theorem Progress.tables {S' : Nat → Prop} {used' : Nat} (h : Progress m₀ m K R S used)
    (hS : ∀ i, S' i → S i) (hused : used ≤ used') : Progress m₀ m K R S' used' :=
  h.congr (fun _ _ => Iff.rfl) hS hused

/-! ## `mem_init`, the mappings -/

/-- The first page of the stack of CPU `i`. -/
def Linked.kstackPage (l : Linked) (i : Nat) : Nat :=
  (l.percpuKstacks.toNat - kernbase.toNat) / 4096 + 8 * i

/-- The entry of page `p` of the kernel's address space. What it says
nothing about is not mapped. -/
inductive KernelMaps (l : Linked) (npages : Nat) : Nat → Word → Prop where
  | pages (i : Nat) (h : i < (npages * 8 + 4095) / 4096) : KernelMaps l npages (978944 + i)
      (page2pa (l.pagesPage + i) ||| (pteU ||| pteP) ||| pteP)
  | envs (i : Nat) (h : i < 32) : KernelMaps l npages (977920 + i)
      (page2pa (l.envsPage npages + i) ||| (pteU ||| pteP) ||| pteP)
  | memory (i : Nat) (h : i < 65536) : KernelMaps l npages (983040 + i)
      (page2pa i ||| (pteW ||| pteP) ||| pteP)
  | stack (cpu i : Nat) (hcpu : cpu < ncpu) (h : i < 8) : KernelMaps l npages
      (983040 - 16 * cpu - 8 + i)
      (page2pa (l.kstackPage cpu + i) ||| (pteW ||| pteP) ||| pteP)

theorem page2pa_add (p i : Nat) : page2pa p + BitVec.ofNat 32 (i * 4096) = page2pa (p + i) := by
  rw [page2pa, page2pa, ← BitVec.ofNat_add, Nat.add_mul]

/-- The stacks that are mapped after `k` turns of `mem_init_mp`. -/
def StackMaps (l : Linked) (k p : Nat) (w : Word) : Prop :=
  ∃ cpu < k, ∃ i < 8, p = 983040 - 16 * cpu - 8 + i ∧
    w = page2pa (l.kstackPage cpu + i) ||| (pteW ||| pteP) ||| pteP

theorem Linked.Sane.paddr_kstack {npages : Nat} (hl : l.Sane npages) {cpu : Nat}
    (hcpu : cpu < ncpu) :
    paddr (l.percpuKstacks + BitVec.ofNat 32 cpu * kstksize) =
      .ok (page2pa (l.kstackPage cpu)) := by
  have hbase : kernbase.toNat = 4026531840 := rfl
  have hsize : kstksize.toNat = 32768 := rfl
  have hn : ncpu = 8 := rfl
  have h₁ := hl.npages
  have h₂ := hl.aligned
  have h₃ := hl.above
  have h₄ : l.percpuKstacks.toNat + 262144 ≤ l.kernEnd.toNat := hl.kstacks
  have hmul : (BitVec.ofNat 32 cpu * kstksize).toNat = cpu * 32768 := by
    rw [BitVec.toNat_mul, BitVec.toNat_ofNat, hsize]
    omega
  have hsum : (l.percpuKstacks + BitVec.ofNat 32 cpu * kstksize).toNat =
      l.percpuKstacks.toNat + cpu * 32768 := by
    rw [BitVec.toNat_add, hmul]
    omega
  have hge : ¬ l.percpuKstacks + BitVec.ofNat 32 cpu * kstksize < kernbase := by
    show ¬ (l.percpuKstacks + BitVec.ofNat 32 cpu * kstksize).toNat < kernbase.toNat
    omega
  rw [paddr, if_neg hge]
  refine congrArg Except.ok (BitVec.eq_of_toNat_eq ?_)
  rw [BitVec.toNat_sub_of_le (by show kernbase.toNat ≤ _; omega), hsum, toNat_page2pa
    (by unfold Linked.kstackPage; omega), Linked.kstackPage]
  omega

theorem Progress.memInitMp_spec {npages : Nat} (hl : l.Sane npages)
    (h : Progress m₀ m K R S used)
    (hK : m₀.kernPgdir = K) (hnew : ∀ p w, R p w → ¬ (982912 ≤ p ∧ p < 983040))
    (hroom : used + 8 ≤ lowPages m₀.pageFreeList) :
    ∃ m', memInitMp l m = .ok m' ∧ Progress m₀ m' K (fun p w => R p w ∨ StackMaps l ncpu p w)
      (fun i => S i ∨ i = 959) (used + 8) := by
  have hloop : ∀ k ≤ ncpu, ∃ m', (List.range k).foldlM
      (fun m i => do
        let start := kstacktop - BitVec.ofNat 32 i * (kstksize + kstkgap) - kstksize
        let pa ← paddr (l.percpuKstacks + BitVec.ofNat 32 i * kstksize)
        bootMapRegion entryPages m.kernPgdir m start kstksize pa (pteW ||| pteP)) m = .ok m' ∧
      Progress m₀ m' K (fun p w => R p w ∨ StackMaps l k p w)
        (fun i => S i ∨ (0 < k ∧ i = 959)) (used + k) := by
    intro k
    induction k with
    | zero =>
        intro _
        refine ⟨m, rfl, h.congr ?_ ?_ (Nat.le_refl _)⟩
        · intro p w
          refine ⟨?_, Or.inl⟩
          rintro (hw | ⟨cpu, hcpu, -⟩)
          · exact hw
          · omega
        · rintro i (hi | ⟨hpos, -⟩)
          · exact hi
          · omega
    | succ k ih =>
        intro hk
        have hn : ncpu = 8 := rfl
        obtain ⟨m₁, hfold, hp⟩ := ih (by omega)
        have hstart : ∀ k < ncpu, (kstacktop - BitVec.ofNat 32 k * (kstksize + kstkgap) -
            kstksize).toNat = (983040 - 16 * k - 8) * 4096 := by decide
        have hone : ∀ k < ncpu, tablesFor (983040 - 16 * k - 8) 8 = 1 := by decide
        obtain ⟨m', hmap, hp'⟩ := hp.region
          (kstacktop - BitVec.ofNat 32 k * (kstksize + kstkgap) - kstksize) kstksize
          (page2pa (l.kstackPage k)) (pteW ||| pteP) (a := 983040 - 16 * k - 8) (c := 8) (hstart k (by omega)) (by decide)
          (by omega) (by omega) (by omega)
          (by
            rintro p w (hw | ⟨cpu, hcpu, i, hi, rfl, -⟩)
            · intro hc
              exact hnew p w hw (by omega)
            · omega)
          (by rw [hone k (by omega)]; omega)
        refine ⟨m', ?_, hp'.congr ?_ ?_ (by rw [hone k (by omega)]; omega)⟩
        · rw [List.range_succ, List.foldlM_append, hfold]
          refine bind_ok.mpr ⟨_, rfl, ?_⟩
          rw [List.foldlM_cons, hl.paddr_kstack (by omega), hp.kernPgdir, hK]
          exact bind_ok.mpr ⟨_, hmap, rfl⟩
        · intro p w
          constructor
          · rintro (hw | ⟨cpu, hcpu, i, hi, hpage, hw⟩)
            · exact Or.inl (Or.inl hw)
            · by_cases heq : cpu = k
              · subst heq
                exact Or.inr ⟨i, hi, hpage, by rw [hw, page2pa_add]⟩
              · exact Or.inl (Or.inr ⟨cpu, by omega, i, hi, hpage, hw⟩)
          · rintro ((hw | ⟨cpu, hcpu, hrest⟩) | ⟨i, hi, hpage, hw⟩)
            · exact Or.inl hw
            · exact Or.inr ⟨cpu, by omega, hrest⟩
            · exact Or.inr ⟨k, by omega, i, hi, hpage, by rw [hw, page2pa_add]⟩
        · rintro i (hi | ⟨-, rfl⟩)
          · exact Or.inl (Or.inl hi)
          · exact Or.inr ⟨983040 - 16 * k - 8, by omega, by omega, by omega⟩
  obtain ⟨m', hfold, hp⟩ := hloop ncpu (Nat.le_refl _)
  refine ⟨m', hfold, hp.congr (fun _ _ => Iff.rfl) ?_ (Nat.le_refl _)⟩
  rintro i (hi | rfl)
  · exact Or.inl hi
  · exact Or.inr ⟨by decide, rfl⟩

/-- The page tables that `mem_init` leaves for sure. -/
def KernelTables (i : Nat) : Prop := 955 ≤ i ∧ i < 1024 ∧ i ≠ uvptPde

theorem Progress.memInitMap_spec {s : Booting} (hl : l.Sane s.mem.npages)
    (hfit : l.firstFree s.mem.npages < s.mem.npages) (hpages : s.pages = page2kva l.pagesPage)
    (henvs : s.envs = page2kva (l.envsPage s.mem.npages))
    (h : Progress m₀ s.mem K (fun _ _ => False) (fun i => i = 958) used) (hK : m₀.kernPgdir = K)
    (hroom : used + 74 ≤ lowPages m₀.pageFreeList) :
    ∃ m', memInitMap l s = .ok m' ∧
      Progress m₀ m' K (KernelMaps l s.mem.npages) KernelTables (used + 74) := by
  have hn := hl.npages
  have hpos : 0 < s.mem.npages := by omega
  have hsK : s.mem.kernPgdir = K := h.kernPgdir.trans hK
  have hpp : l.pagesPage = l.pgdirPage + 1 := rfl
  have hep : l.envsPage s.mem.npages = l.pagesPage + (s.mem.npages * 8 + 4095) / 4096 := rfl
  have hbound : l.firstFree s.mem.npages = l.pgdirPage + 1 + (s.mem.npages * 8 + 4095) / 4096 + 32 :=
    rfl
  -- `pages` at `UPAGES`
  have hsize₁ : (roundup (BitVec.ofNat 32 (s.mem.npages * sizeofPageInfo))).toNat =
      (s.mem.npages * 8 + 4095) / 4096 * 4096 := by
    have hnat : (BitVec.ofNat 32 (s.mem.npages * sizeofPageInfo)).toNat = s.mem.npages * 8 := by
      rw [BitVec.toNat_ofNat, show sizeofPageInfo = 8 from rfl]
      omega
    rw [toNat_roundup (by omega), hnat]
  have htables₁ : tablesFor 978944 ((s.mem.npages * 8 + 4095) / 4096) = 1 := by
    rw [tablesFor, if_neg (by omega)]
    omega
  obtain ⟨m₁, hmap₁, h₁⟩ := h.region upages (roundup (BitVec.ofNat 32 (s.mem.npages * sizeofPageInfo))) (page2pa l.pagesPage)
    (pteU ||| pteP) (a := 978944) (c := (s.mem.npages * 8 + 4095) / 4096) (by decide) (by rw [hsize₁]; omega)
    (by omega) (by omega) (by omega) (fun _ _ hf => hf.elim) (by omega)
  -- `envs` at `UENVS`
  obtain ⟨m₂, hmap₂, h₂⟩ := h₁.region uenvs (roundup (BitVec.ofNat 32 (nenv * sizeofEnv))) (page2pa (l.envsPage s.mem.npages))
    (pteU ||| pteP) (a := 977920) (c := 32) (by decide) (by decide)
    (by omega) (by omega) (by omega)
    (by
      rintro p w (hf | ⟨i, hi, rfl, -⟩)
      · exact hf.elim
      · omega)
    (by rw [htables₁, show tablesFor 977920 32 = 1 by decide]; omega)
  -- all of physical memory at `KERNBASE`
  obtain ⟨m₃, hmap₃, h₃⟩ := h₂.region kernbase (0x10000000) (0)
    (pteW ||| pteP) (a := 983040) (c := 65536) (by decide) (by decide)
    (by omega) (by omega) (by omega)
    (by
      rintro p w ((hf | ⟨i, hi, rfl, -⟩) | ⟨i, hi, rfl, -⟩)
      · exact hf.elim
      · omega
      · omega)
    (by rw [htables₁, show tablesFor 977920 32 = 1 by decide,
      show tablesFor 983040 65536 = 64 by decide]; omega)
  rw [htables₁, show tablesFor 977920 32 = 1 by decide,
    show tablesFor 983040 65536 = 64 by decide] at h₃
  obtain ⟨m₄, hmap₄, h₄⟩ := h₃.memInitMp_spec hl hK
    (by
      rintro p w (((hf | ⟨i, hi, rfl, -⟩) | ⟨i, hi, rfl, -⟩) | ⟨i, hi, rfl, -⟩)
      · exact hf.elim
      · omega
      · omega
      · omega)
    (by omega)
  refine ⟨m₄, ?_, h₄.congr ?_ ?_ (by omega)⟩
  · rw [memInitMap, hpages, henvs]
    refine bind_ok.mpr ⟨_, paddr_page2kva (by omega), ?_⟩
    refine bind_ok.mpr ⟨m₁, by rw [hsK]; exact hmap₁, ?_⟩
    refine bind_ok.mpr ⟨_, paddr_page2kva (by omega), ?_⟩
    refine bind_ok.mpr ⟨m₂, by rw [h₁.kernPgdir, hK]; exact hmap₂, ?_⟩
    exact bind_ok.mpr ⟨m₃, by rw [h₂.kernPgdir, hK]; exact hmap₃, hmap₄⟩
  · intro p w
    constructor
    · intro hw
      cases hw with
      | pages i hi => exact Or.inl (Or.inl (Or.inl (Or.inr ⟨i, hi, rfl, by rw [page2pa_add]⟩)))
      | envs i hi => exact Or.inl (Or.inl (Or.inr ⟨i, hi, rfl, by rw [page2pa_add]⟩))
      | memory i hi =>
          refine Or.inl (Or.inr ⟨i, hi, rfl, ?_⟩)
          rw [show (0 : Word) = page2pa 0 from rfl, page2pa_add, Nat.zero_add]
      | stack cpu i hcpu hi => exact Or.inr ⟨cpu, hcpu, i, hi, rfl, rfl⟩
    · rintro ((((hf | ⟨i, hi, rfl, rfl⟩) | ⟨i, hi, rfl, rfl⟩) | ⟨i, hi, rfl, rfl⟩) |
        ⟨cpu, hcpu, i, hi, rfl, rfl⟩)
      · exact hf.elim
      · rw [page2pa_add]
        exact .pages i hi
      · rw [page2pa_add]
        exact .envs i hi
      · rw [show (0 : Word) = page2pa 0 from rfl, page2pa_add, Nat.zero_add]
        exact .memory i hi
      · exact .stack cpu i hcpu hi
  · rintro i ⟨hlo, hhi, hu⟩
    have hu' : i ≠ 957 := hu
    by_cases h₅ : i = 955
    · exact Or.inl (Or.inl (Or.inr ⟨977920, by omega, by omega, by omega⟩))
    · by_cases h₆ : i = 956
      · exact Or.inl (Or.inl (Or.inl (Or.inr ⟨978944, by omega, by omega, by omega⟩)))
      · by_cases h₈ : i = 958
        · exact Or.inl (Or.inl (Or.inl (Or.inl h₈)))
        · by_cases h₉ : i = 959
          · exact Or.inr h₉
          · exact Or.inl (Or.inr ⟨i * 1024, by omega, by omega, by omega⟩)

/-! ## `check_va2pa` -/

/-- The address in an entry is that of its page. -/
theorem pteAddr_eq (w : Word) : pteAddr w = page2pa (pgnum w) := by
  have hmask : ∀ y : Fin 32, (0xFFFFF000 : Word).getLsbD y = decide (12 ≤ y.val) := by decide
  rw [page2pa_eq, pgnum_eq, BitVec.ofNat_toNat, BitVec.setWidth_eq, pteAddr]
  apply BitVec.eq_of_getLsbD_eq
  intro i hi
  rw [BitVec.getLsbD_and, hmask ⟨i, hi⟩, BitVec.getLsbD_shiftLeft, BitVec.getLsbD_ushiftRight]
  by_cases hlow : i < 12
  · simp [hlow]
  · have hsum : 12 + (i - 12) = i := by omega
    simp [hlow, hsum, hi]
    omega

/-- The low bits of an entry are its permissions. -/
theorem entry_and (p : Nat) (perm f : Word) (hf : f.toNat < 4096) :
    (page2pa p ||| perm) &&& f = perm &&& f := by
  apply BitVec.eq_of_getLsbD_eq
  intro i hi
  rw [BitVec.getLsbD_and, BitVec.getLsbD_and, BitVec.getLsbD_or, page2pa_eq,
    BitVec.getLsbD_shiftLeft]
  by_cases hlow : i < 12
  · simp [hlow]
  · rw [getLsbD_of_perm hf (by omega)]
    simp

theorem KernDir.checkVa2pa_eq (h : KernDir m K) (hva : pdx va ≠ uvptPde) :
    checkVa2pa m K va = .ok (if entryOf m K va &&& pteP = 0 then ~~~0
      else page2pa (pgnum (entryOf m K va))) := by
  rw [checkVa2pa]
  dsimp only
  by_cases hpde : m.frames K (pdx va) = 0
  · have hentry : entryOf m K va = 0 := if_pos hpde
    rw [hpde, hentry]
    rfl
  · obtain ⟨t, ht, hlt, -, -, -⟩ := h.table _ (pdx_lt_1024 va) hva hpde
    have hn := h.npages
    have hnum : pgnum (page2pa t ||| pteP ||| pteW ||| pteU) = t := pgnum_pde (by omega)
    have hentry : entryOf m K va = m.frames t (ptx va) := by
      rw [entryOf, if_neg hpde, ht, hnum]
    have hP : ¬ (page2pa t ||| pteP ||| pteW ||| pteU) &&& pteP = 0 := by
      rw [BitVec.or_assoc, BitVec.or_assoc, entry_and _ _ _ (by decide)]
      decide
    have hPS : ¬ (page2pa t ||| pteP ||| pteW ||| pteU) &&& ptePS ≠ 0 := by
      rw [BitVec.or_assoc, BitVec.or_assoc, entry_and _ _ _ (by decide)]
      decide
    rw [ht, if_neg hP, if_neg hPS, kaddr, pgnum_pteAddr, hnum, if_neg (by omega)]
    refine bind_ok.mpr ⟨t, rfl, ?_⟩
    rw [hentry, ← pteAddr_eq]
    split <;> rfl

/-- A page that is mapped. -/
theorem Progress.checkVa2pa_mapped (h : Progress m₀ m K R S used) (hva : pdx va ≠ uvptPde)
    {q : Nat} (perm : Word) (hq : q < 1048576) (hperm : perm.toNat < 4096)
    (hR : R (pgnum va) (page2pa q ||| perm ||| pteP)) :
    checkVa2pa m K va = .ok (page2pa q) := by
  have hP : ¬ (page2pa q ||| perm ||| pteP) &&& pteP = 0 := or_pteP_present _
  rw [h.dir.checkVa2pa_eq hva, (h.holds va hva).1 _ hR, if_neg hP, pgnum_inserted hq hperm]

/-- A page that is not. -/
theorem Progress.checkVa2pa_unmapped (h : Progress m₀ m K R S used) (hva : pdx va ≠ uvptPde)
    (hR : ∀ w, ¬ R (pgnum va) w) : checkVa2pa m K va = .ok (~~~0) := by
  rw [h.dir.checkVa2pa_eq hva, (h.holds va hva).2 hR]
  rfl

theorem assertMapped_ok {found : Word} (h : checkVa2pa m K va = .ok found) (heq : found = pa) :
    assertMapped m K va pa = .ok () := by
  rw [assertMapped, h]
  refine bind_ok.mpr ⟨_, rfl, ?_⟩
  rw [heq, assert, beq_self_eq_true, if_pos rfl]

/-! ## The end of `check_page` -/

theorem Progress.clearEntry_spec (h : Progress m₀ m K R S used) (va : Word) (hK : m₀.kernPgdir = K)
    (hva : pdx va ≠ uvptPde) (hS : S (pdx va)) :
    ∃ m', clearEntry m va = .ok m' ∧
      Progress m₀ m' K (fun p w => R p w ∧ p ≠ pgnum va) S used := by
  have hmK : m.kernPgdir = K := h.kernPgdir.trans hK
  obtain ⟨t, ht, hlt, htK, hnot, -⟩ := h.dir.table _ (pdx_lt_1024 va) hva (h.pde _ hS)
  have hn := h.dir.npages
  have hnum : pgnum (page2pa t ||| pteP ||| pteW ||| pteU) = t := pgnum_pde (by omega)
  have hdirs : ∀ i, (m.setWord ⟨t, ptx va⟩ 0).frames K i = m.frames K i := by
    intro i
    rw [setWord_frames, if_neg (fun hc => htK hc.1.symm)]
  refine ⟨m.setWord ⟨t, ptx va⟩ 0, ?_, ⟨hn, h.dir.free, h.dir.nodup, ?_, ?_⟩, h.npages, h.kernPgdir,
    ?_, ?_, ?_, ?_, h.suffix, h.refs⟩
  · rw [clearEntry, hmK, pgdirFind_table hn hlt ht]
    exact bind_ok.mpr ⟨_, rfl, rfl⟩
  · intro i hi hu hne
    rw [hdirs] at hne ⊢
    exact h.dir.table i hi hu hne
  · intro i hi hu i' hi' hu' hne heq
    rw [hdirs] at hne
    rw [hdirs, hdirs] at heq
    exact h.dir.distinct i hi hu i' hi' hu' hne heq
  · intro va' hu'
    have hentry : entryOf (m.setWord ⟨t, ptx va⟩ 0) K va' =
        if pgnum va' = pgnum va then 0 else entryOf m K va' := by
      rw [entryOf, entryOf, hdirs]
      by_cases hpage : pgnum va' = pgnum va
      · obtain ⟨hd, hx⟩ := pgnum_eq_iff.mp hpage
        rw [if_pos hpage, hd, if_neg (h.pde _ hS), ht, hnum, hx, setWord_frames, if_pos ⟨rfl, rfl⟩]
      · rw [if_neg hpage]
        by_cases hzero : m.frames K (pdx va') = 0
        · rw [if_pos hzero, if_pos hzero]
        · rw [if_neg hzero, if_neg hzero, setWord_frames, if_neg]
          rintro ⟨htab, hidx⟩
          obtain ⟨t', ht', hlt', -, -, -⟩ := h.dir.table _ (pdx_lt_1024 va') hu' hzero
          rw [ht', pgnum_pde (by omega)] at htab
          have hsame : t' = t := htab
          have hd := h.dir.distinct _ (pdx_lt_1024 va') hu' _ (pdx_lt_1024 va) hva hzero
            (by rw [ht', ht, hsame])
          exact hpage (pgnum_eq_iff.mpr ⟨hd, hidx⟩)
    rw [hentry]
    by_cases hpage : pgnum va' = pgnum va
    · rw [if_pos hpage]
      exact ⟨fun w hw => absurd hpage hw.2, fun _ => rfl⟩
    · rw [if_neg hpage]
      exact ⟨fun w hw => (h.holds va' hu').1 w hw.1,
        fun hnone => (h.holds va' hu').2 (fun w hw => hnone w ⟨hw, hpage⟩)⟩
  · intro i hi
    rw [hdirs]
    exact h.pde i hi
  · intro i hi
    rw [hdirs]
    exact h.user i hi
  · rw [hdirs]
    exact h.uvptSelf

/-- The checks on `mmio_map_region` pass, and leave a page table without
entries behind. -/
theorem Progress.checkMmio_spec {s : Boot}
    (h : Progress m₀ s.mem K (fun _ _ => False) (fun _ => False) 0) (hK : m₀.kernPgdir = K)
    (hbase : s.base = mmiobase) (hroom : 2 ≤ lowPages m₀.pageFreeList) :
    ∃ s', checkMmio s = .ok s' ∧ s'.nextfree = s.nextfree ∧
      Progress m₀ s'.mem K (fun _ _ => False) (fun i => i = 958) 2 := by
  have hsK : s.mem.kernPgdir = K := h.kernPgdir.trans hK
  obtain ⟨m₁, hmap₁, h₁⟩ := h.region mmiobase (8192) (page2pa 0)
    (pteW ||| pteP ||| ptePCD ||| ptePWT) (a := 980992) (c := 2) (by decide) (by decide)
    (by omega) (by omega) (by omega) (fun _ _ hf => hf.elim)
    (by rw [show tablesFor 980992 2 = 1 by decide]; omega)
  obtain ⟨m₂, hmap₂, h₂⟩ := h₁.region (mmiobase + 8192) (4096) (page2pa 0)
    (pteW ||| pteP ||| ptePCD ||| ptePWT) (a := 980994) (c := 1) (by decide) (by decide)
    (by omega) (by omega) (by omega)
    (by
      rintro p w (hf | ⟨i, hi, rfl, -⟩)
      · exact hf.elim
      · omega)
    (by rw [show tablesFor 980992 2 = 1 by decide, show tablesFor 980994 1 = 1 by decide]; omega)
  have hone : ∀ i, i = 958 → (False ∨ ∃ x, 980992 ≤ x ∧ x < 980992 + 2 ∧ x / 1024 = i) ∨
      ∃ x, 980994 ≤ x ∧ x < 980994 + 1 ∧ x / 1024 = i := by
    rintro i rfl
    exact Or.inr ⟨980994, by omega, by omega, by omega⟩
  have h₂' := h₂.tables hone
    (show 0 + tablesFor 980992 2 + tablesFor 980994 1 ≤ 2 by decide)
  obtain ⟨m₃, hclear₁, h₃⟩ := h₂'.clearEntry_spec mmiobase hK (by decide) (by decide)
  obtain ⟨m₄, hclear₂, h₄⟩ :=
    h₃.clearEntry_spec (mmiobase + 4096) hK (by decide) (by decide)
  obtain ⟨m₅, hclear₃, h₅⟩ :=
    h₄.clearEntry_spec (mmiobase + 8192) hK (by decide) (by decide)
  have hcall₁ : mmioMapRegion entryPages s 0 4097 =
      .ok (mmiobase, { s with mem := m₁, base := mmiobase + 8192 }) := by
    have hlim : ¬ mmiobase + roundup 4097 ≥ mmiolim := by decide
    rw [mmioMapRegion, hbase, if_neg hlim, hsK]
    exact bind_ok.mpr ⟨_, hmap₁, rfl⟩
  have hcall₂ : mmioMapRegion entryPages { s with mem := m₁, base := mmiobase + 8192 } 0 4096 =
      .ok (mmiobase + 8192, { s with mem := m₂, base := mmiobase + 8192 + 4096 }) := by
    have hlim : ¬ mmiobase + 8192 + roundup 4096 ≥ mmiolim := by decide
    rw [mmioMapRegion, if_neg hlim, h₁.kernPgdir, hK]
    exact bind_ok.mpr ⟨_, hmap₂, rfl⟩
  have hmapped : ∀ (va : Word) (q : Nat), pdx va ≠ uvptPde → q < 1048576 →
      (pgnum va = 980992 + q ∧ q < 2 ∨ pgnum va = 980994 ∧ q = 0) →
      assertMapped m₂ K va (page2pa q) = .ok () := by
    intro va q hu hq hwhere
    refine assertMapped_ok (h₂.checkVa2pa_mapped hu
      (pteW ||| pteP ||| ptePCD ||| ptePWT) hq (by decide) ?_) rfl
    rcases hwhere with ⟨hp, hlt⟩ | ⟨hp, rfl⟩
    · exact Or.inl (Or.inr ⟨q, hlt, hp, by rw [page2pa_add, Nat.zero_add]⟩)
    · exact Or.inr ⟨0, by decide, hp, by rw [page2pa_add]⟩
  have hunmapped : assertMapped m₂ K (mmiobase + 8192 + 4096) (~~~0) = .ok () := by
    refine assertMapped_ok (h₂.checkVa2pa_unmapped (by decide) ?_) rfl
    have hpage : pgnum (mmiobase + 8192 + 4096) = 980995 := by decide
    rintro w ((hf | ⟨i, hi, hp, -⟩) | ⟨i, hi, hp, -⟩)
    · exact hf
    · omega
    · omega
  have hrange : assert (decide (mmiobase ≤ mmiobase + 8192) &&
      decide (mmiobase + 8192 + 8096 < mmiolim)) = .ok () := by decide
  have happart : assert (decide (mmiobase + 8096 ≤ mmiobase + 8192)) = .ok () := by decide
  refine ⟨{ s with mem := m₅, base := mmiobase + 8192 + 4096 }, ?_, rfl, h₅.congr ?_ (fun _ hi => hi)
    (Nat.le_refl _)⟩
  · have hm₂K : m₂.kernPgdir = K := h₂.kernPgdir.trans hK
    rw [checkMmio, hcall₁]
    refine bind_ok.mpr ⟨_, rfl, ?_⟩
    dsimp only
    rw [hcall₂]
    refine bind_ok.mpr ⟨_, rfl, ?_⟩
    dsimp only
    rw [hm₂K]
    refine bind_ok.mpr ⟨(), rfl, bind_ok.mpr ⟨(), hrange, bind_ok.mpr ⟨(), rfl,
      bind_ok.mpr ⟨(), happart, ?_⟩⟩⟩⟩
    refine bind_ok.mpr ⟨(), hmapped mmiobase 0 (by decide) (by omega) (by decide), ?_⟩
    refine bind_ok.mpr ⟨(), hmapped (mmiobase + 4096) 1 (by decide) (by omega) (by decide), ?_⟩
    refine bind_ok.mpr ⟨(), hmapped (mmiobase + 8192) 0 (by decide) (by omega) (by decide), ?_⟩
    refine bind_ok.mpr ⟨(), hunmapped, ?_⟩
    exact bind_ok.mpr ⟨m₃, hclear₁, bind_ok.mpr ⟨m₄, hclear₂, bind_ok.mpr ⟨m₅, hclear₃, rfl⟩⟩⟩
  · have h₁ : pgnum mmiobase = 980992 := by decide
    have h₂ : pgnum (mmiobase + 4096) = 980993 := by decide
    have h₃ : pgnum (mmiobase + 8192) = 980994 := by decide
    intro p w
    refine ⟨False.elim, ?_⟩
    rintro ⟨⟨⟨(hf | ⟨i, hi, hp, -⟩) | ⟨i, hi, hp, -⟩, hne₁⟩, hne₂⟩, hne₃⟩
    · exact hf
    · omega
    · omega

/-! ## `mem_init`, the allocations -/

/-- What `mem_init` has built before its checks. -/
def Linked.allocated (l : Linked) (npages : Nat) (frames : Nat → Nat → Word) : Booting where
  mem :=
    { npages := npages
      kernPgdir := l.pgdirPage
      frames := Function.update frames l.pgdirPage
        (Function.update (fun _ => 0) uvptPde (page2pa l.pgdirPage ||| pteU ||| pteP))
      ppRef := fun _ => 0
      pageFreeList := ((List.range npages).filter (usable (l.firstFree npages))).reverse }
  nextfree := page2kva (l.firstFree npages)
  base := mmiobase
  pages := page2kva l.pagesPage
  envs := page2kva (l.envsPage npages)

theorem memInitAlloc_eq {npages : Nat} (hl : l.Sane npages) (hfit : l.firstFree npages < npages)
    (frames : Nat → Nat → Word) :
    memInitAlloc l npages frames = .ok (l.allocated npages frames) := by
  have hn := hl.npages
  have hbase : kernbase.toNat = 4026531840 := rfl
  have hext : extphysmem.toNat = 1048576 := rfl
  have hend := hl.kernel
  have hearly := hl.early
  have hpg : l.pgdirPage = (l.kernEnd.toNat - kernbase.toNat + 4095) / 4096 := rfl
  have hpp : l.pagesPage = l.pgdirPage + 1 := rfl
  have hep : l.envsPage npages = l.pagesPage + (npages * 8 + 4095) / 4096 := rfl
  have hff : l.firstFree npages = l.envsPage npages + 32 := rfl
  have hstart : roundup l.kernEnd = page2kva l.pgdirPage := by
    apply BitVec.eq_of_toNat_eq
    rw [toNat_roundup (by omega), toNat_page2kva (by omega)]
    omega
  have hnum : pgnum (page2pa l.pgdirPage) = l.pgdirPage := pgnum_page2pa (by omega)
  have hsize : (BitVec.ofNat 32 (npages * sizeofPageInfo)).toNat = npages * 8 := by
    rw [BitVec.toNat_ofNat, show sizeofPageInfo = 8 from rfl]
    omega
  have henvs : (BitVec.ofNat 32 (nenv * sizeofEnv)).toNat = 131072 := by decide
  have hone : ((4096 : Word).toNat + 4095) / 4096 = 1 := by decide
  have h₁ := bootAlloc_eq (s := (
    { mem := { npages := npages, kernPgdir := 0, frames := frames, ppRef := fun _ => 0,
               pageFreeList := [] }
      nextfree := page2kva l.pgdirPage, base := mmiobase } : Boot)) 4096 rfl hn
    (by rw [hone]; show l.pgdirPage + 1 < npages; omega)
  rw [hone, ← hpp] at h₁
  rw [memInitAlloc, hstart, h₁]
  refine bind_ok.mpr ⟨_, rfl, ?_⟩
  refine bind_ok.mpr ⟨(), mappedSet_ok (by rw [show (4096 : Word).toNat = 4096 from rfl]; omega), ?_⟩
  refine bind_ok.mpr ⟨_, paddr_page2kva (by omega), ?_⟩
  dsimp only
  rw [hnum, bootAlloc_eq (a := l.pagesPage) (BitVec.ofNat 32 (npages * sizeofPageInfo)) rfl hn
    (by rw [hsize, ← hep]; show l.envsPage npages < npages; omega), hsize, ← hep]
  refine bind_ok.mpr ⟨_, rfl, bind_ok.mpr ⟨(), mappedSet_ok (by rw [hsize]; omega), ?_⟩⟩
  dsimp only
  rw [bootAlloc_eq (a := l.envsPage npages) (BitVec.ofNat 32 (nenv * sizeofEnv)) rfl hn
    (by rw [henvs]; show l.envsPage npages + 32 < npages; omega), henvs]
  refine bind_ok.mpr ⟨_, rfl, bind_ok.mpr ⟨(), mappedSet_ok (by rw [henvs]; omega), ?_⟩⟩
  dsimp only
  rw [pageInit_eq (show _ = page2kva (l.firstFree npages) from rfl) hn hfit rfl rfl]
  rfl

/-! ## The checks -/

theorem forM_ok {α ε : Type} {xs : List α} {f : α → Except ε Unit} (h : ∀ x ∈ xs, f x = .ok ()) :
    xs.forM f = .ok () := by
  induction xs with
  | nil => rfl
  | cons x xs ih =>
      show (do f x; xs.forM f) = .ok ()
      rw [h x List.mem_cons_self]
      exact ih (fun y hy => h y (List.mem_cons_of_mem _ hy))

/-- The free list as `check_page_free_list` leaves it: reordered, the pages
written on. -/
structure FreeListChecked (s s' : Boot) : Prop where
  npages : s'.mem.npages = s.mem.npages
  kernPgdir : s'.mem.kernPgdir = s.mem.kernPgdir
  ppRef : s'.mem.ppRef = s.mem.ppRef
  free : s'.mem.pageFreeList.Perm s.mem.pageFreeList
  frames : ∀ p, p ∉ s.mem.pageFreeList → s'.mem.frames p = s.mem.frames p
  nextfree : s'.nextfree = s.nextfree
  base : s'.base = s.base

theorem checkFreePage_usable {first p : Nat} {m : Pmap} (hn : m.npages ≤ 65536)
    (hext : 256 < first) (hfirst : first < m.npages) (hp : p < m.npages) (huse : usable first p = true) :
    checkFreePage m (page2kva first) p = true := by
  have hpa : (page2pa p).toNat = p * 4096 := toNat_page2pa (by omega)
  have hne : ∀ w : Word, w.toNat ≠ p * 4096 → (page2pa p != w) = true := by
    intro w hw
    rw [bne_iff_ne]
    intro heq
    rw [← heq, hpa] at hw
    exact hw rfl
  have hfree : p ≠ 0 ∧ p ≠ 7 ∧ ¬ (160 ≤ p ∧ p < 256) ∧ ¬ (256 ≤ p ∧ p < first) := by
    simp [usable] at huse
    omega
  have hside : (decide (page2pa p < extphysmem) ||
      decide (page2pa p + kernbase ≥ page2kva first)) = true := by
    rw [Bool.or_eq_true, decide_eq_true_iff, decide_eq_true_iff]
    by_cases hlow : p < 256
    · left
      show (page2pa p).toNat < 1048576
      omega
    · right
      show (page2kva first).toNat ≤ (page2pa p + kernbase).toNat
      rw [BitVec.add_comm, ← page2kva, toNat_page2kva (by omega), toNat_page2kva (by omega)]
      omega
  have hzero : (0 : Word).toNat = 0 := rfl
  have hio : iophysmem.toNat = 655360 := rfl
  have hlast : (extphysmem - 4096).toNat = 1044480 := rfl
  have hextmem : extphysmem.toNat = 1048576 := rfl
  have hmp : mpentryPaddr.toNat = 28672 := rfl
  rw [checkFreePage, decide_eq_true hp, hside, hne 0 (by omega), hne iophysmem (by omega),
    hne (extphysmem - 4096) (by omega), hne extphysmem (by omega), hne mpentryPaddr (by omega)]
  rfl

/-- The asserts pass when the list has usable pages only, on both sides of
the IO hole. -/
theorem checkFreePages_eq {s : Boot} {first : Nat} (hnext : s.nextfree = page2kva first)
    (hn : s.mem.npages ≤ 65536) (hext : 256 < first) (hfirst : first < s.mem.npages)
    (huse : ∀ p ∈ s.mem.pageFreeList, p < s.mem.npages ∧ usable first p = true)
    (hlow : ∃ p ∈ s.mem.pageFreeList, p < 256) (hhigh : ∃ p ∈ s.mem.pageFreeList, 256 ≤ p) :
    checkFreePages s = .ok s := by
  obtain ⟨p, hp, hp256⟩ := hlow
  obtain ⟨q, hq, hq256⟩ := hhigh
  have halloc : bootAlloc s 0 = .ok (page2kva first, s) := by
    rw [bootAlloc_eq 0 hnext hn (by simpa using hfirst), ← hnext]
    simp [← hnext]
  have hpa : ∀ p ∈ s.mem.pageFreeList, (page2pa p).toNat = p * 4096 :=
    fun p hp => toNat_page2pa (by have := (huse p hp).1; omega)
  have hpages : s.mem.pageFreeList.forM
      (fun pp => assert (checkFreePage s.mem (page2kva first) pp)) = .ok () := by
    refine forM_ok (fun pp hpp => ?_)
    obtain ⟨hlt, hu⟩ := huse pp hpp
    rw [checkFreePage_usable hn hext hfirst hlt hu]
    rfl
  have hanyLow : s.mem.pageFreeList.any (fun pp => page2pa pp < extphysmem) = true := by
    rw [List.any_eq_true]
    refine ⟨p, hp, decide_eq_true ?_⟩
    show (page2pa p).toNat < 1048576
    rw [hpa p hp]
    omega
  have hanyHigh : s.mem.pageFreeList.any (fun pp => page2pa pp ≥ extphysmem) = true := by
    rw [List.any_eq_true]
    refine ⟨q, hq, decide_eq_true ?_⟩
    show 1048576 ≤ (page2pa q).toNat
    rw [hpa q hq]
    omega
  rw [checkFreePages, halloc]
  refine bind_ok.mpr ⟨_, rfl, ?_⟩
  dsimp only
  refine bind_ok.mpr ⟨(), hpages, ?_⟩
  rw [hanyLow, hanyHigh]
  rfl

/-- The free list starts with the pages that `entry_pgdir` maps, enough of
them for the page tables of `mem_init`. -/
def LowFirst (free : List Nat) : Prop :=
  ∃ lows highs, free = lows ++ highs ∧ (∀ p ∈ lows, p < entryPages) ∧ 76 ≤ lows.length

theorem LowFirst.lowPages {free : List Nat} (h : LowFirst free) : 76 ≤ lowPages free := by
  obtain ⟨lows, highs, rfl, hlow, hlen⟩ := h
  have hsplit : ∀ l : List Nat, (∀ p ∈ l, p < entryPages) →
      l.length ≤ Kern.lowPages (l ++ highs) := by
    intro l hl
    induction l with
    | nil => exact Nat.zero_le _
    | cons p l ih =>
        rw [Kern.lowPages, List.cons_append, List.takeWhile_cons_of_pos
          (by simpa using hl p List.mem_cons_self), List.length_cons, List.length_cons]
        exact Nat.succ_le_succ (ih (fun q hq => hl q (List.mem_cons_of_mem _ hq)))
  exact Nat.le_trans hlen (hsplit lows hlow)

/-- `check_page_free_list` passes on such a list. -/
theorem checkPageFreeList_spec {s : Boot} {first : Nat} (only : Bool)
    (hnext : s.nextfree = page2kva first) (hn : s.mem.npages ≤ 65536) (hext : 256 < first)
    (hfirst : first < s.mem.npages)
    (huse : ∀ p ∈ s.mem.pageFreeList, p < s.mem.npages ∧ usable first p = true)
    (hlow : ∃ p ∈ s.mem.pageFreeList, p < 256) (hhigh : ∃ p ∈ s.mem.pageFreeList, 256 ≤ p) :
    ∃ s', checkPageFreeList s only = .ok s' ∧ FreeListChecked s s' ∧
      (only = false → s'.mem.pageFreeList = s.mem.pageFreeList) ∧
      (only = true → ∃ lows highs, s'.mem.pageFreeList = lows ++ highs ∧
        ∀ p, p ∈ lows ↔ p ∈ s.mem.pageFreeList ∧ p < entryPages) := by
  obtain ⟨p, hp, hp256⟩ := hlow
  obtain ⟨q, hq, hq256⟩ := hhigh
  have hempty : s.mem.pageFreeList.isEmpty = false := by
    rw [List.isEmpty_eq_false_iff]
    exact List.ne_nil_of_mem hp
  have hbelow : ∀ pp ∈ s.mem.pageFreeList, pdx (page2pa pp) < 1 ↔ pp < entryPages := by
    intro pp hpp
    have hlt := (huse pp hpp).1
    have hlimit : entryPages = 1024 := rfl
    rw [pdx, toNat_page2pa (by omega)]
    omega
  obtain ⟨list, frames, hcheck, hperm, hsame, hfirst', hframes⟩ : ∃ list frames,
      checkPageFreeList s only =
        checkFreePages { s with mem := { s.mem with pageFreeList := list, frames := frames } } ∧
      list.Perm s.mem.pageFreeList ∧ (only = false → list = s.mem.pageFreeList) ∧
      (only = true → ∃ lows highs, list = lows ++ highs ∧
        ∀ p, p ∈ lows ↔ p ∈ s.mem.pageFreeList ∧ p < entryPages) ∧
      ∀ p, p ∉ s.mem.pageFreeList → frames p = s.mem.frames p := by
    refine ⟨_, _, by rw [checkPageFreeList, hempty]; rfl, ?_, ?_, ?_, ?_⟩
    · cases only with
      | false => exact List.Perm.refl _
      | true =>
          have hsplit : (fun pp => decide (pdx (page2pa pp) ≥ 1)) =
              fun pp => !decide (pdx (page2pa pp) < 1) := by
            funext pp
            rw [Bool.eq_iff_iff, Bool.not_eq_true', decide_eq_true_iff, decide_eq_false_iff_not,
              Nat.not_lt]
          show (List.filter _ _ ++ List.filter (fun pp => decide (pdx (page2pa pp) ≥ 1)) _).Perm _
          rw [hsplit]
          exact List.filter_append_perm _ _
    · rintro rfl
      rfl
    · rintro rfl
      refine ⟨_, _, rfl, fun p => ?_⟩
      rw [List.mem_filter, decide_eq_true_iff]
      exact ⟨fun hp => ⟨hp.1, (hbelow p hp.1).mp hp.2⟩, fun hp => ⟨hp.1, (hbelow p hp.1).mpr hp.2⟩⟩
    · intro p hp
      funext x
      exact if_neg (fun hc => hp (List.mem_of_mem_filter hc.1))
  refine ⟨_, hcheck.trans (checkFreePages_eq hnext hn hext hfirst ?_ ?_ ?_),
    ⟨rfl, rfl, rfl, hperm, hframes, rfl, rfl⟩, hsame, hfirst'⟩
  · exact fun p hp => huse p (hperm.mem_iff.mp hp)
  · exact ⟨p, hperm.mem_iff.mpr hp, hp256⟩
  · exact ⟨q, hperm.mem_iff.mpr hq, hq256⟩

/-- Fewer than `k` pages do not hold all of `k` in a row. -/
theorem exists_not_mem_of_length_lt {l : List Nat} {a k : Nat} (h : l.length < k) :
    ∃ p, a ≤ p ∧ p < a + k ∧ p ∉ l := by
  by_contra hall
  push Not at hall
  have hsub : List.range' a k ⊆ l := by
    intro p hp
    rw [List.mem_range'_1] at hp
    exact hall p hp.1 hp.2
  have hle := (List.subperm_of_subset List.nodup_range' hsub).length_le
  rw [List.length_range'] at hle
  omega

/-- The loop over the pages of a region that is mapped. -/
theorem Progress.eachPage_mapped (h : Progress m₀ m K R S used) (va size perm : Word)
    {a q c : Nat} (hva : va.toNat = a * 4096) (hsize : (size.toNat + 4095) / 4096 = c)
    (hfit : a + c ≤ 1048576) (huvpt : a + c ≤ 979968 ∨ 980992 ≤ a) (hq : q + c ≤ 1048576)
    (hperm : perm.toNat < 4096) (hR : ∀ i < c, R (a + i) (page2pa (q + i) ||| perm ||| pteP)) :
    eachPage size (fun i => assertMapped m K (va + i) (page2pa q + i)) = .ok () := by
  refine forM_ok (fun i hi => ?_)
  rw [hsize, List.mem_range] at hi
  have hnat := toNat_regionVa hva (i := i) hi hfit
  have hpage : pgnum (va + BitVec.ofNat 32 (i * 4096)) = a + i := by
    rw [pgnum, hnat]
    omega
  have hu : pdx (va + BitVec.ofNat 32 (i * 4096)) ≠ uvptPde := by
    have hpdx : pdx (va + BitVec.ofNat 32 (i * 4096)) = (a + i) / 1024 := by
      rw [pdx, hnat]
      omega
    intro heq
    have : pdx (va + BitVec.ofNat 32 (i * 4096)) = 957 := heq
    omega
  exact assertMapped_ok (h.checkVa2pa_mapped hu perm (by omega) hperm (by rw [hpage]; exact hR i hi))
    (page2pa_add q i).symm

/-- The loop over the pages of a guard region. -/
theorem Progress.eachPage_unmapped (h : Progress m₀ m K R S used) {size : Word} {a c : Nat}
    (hva : va.toNat = a * 4096) (hsize : (size.toNat + 4095) / 4096 = c)
    (hfit : a + c ≤ 1048576) (huvpt : a + c ≤ 979968 ∨ 980992 ≤ a)
    (hR : ∀ i < c, ∀ w, ¬ R (a + i) w) :
    eachPage size (fun i => assertMapped m K (va + i) (~~~0)) = .ok () := by
  refine forM_ok (fun i hi => ?_)
  rw [hsize, List.mem_range] at hi
  have hnat := toNat_regionVa hva (i := i) hi hfit
  have hpage : pgnum (va + BitVec.ofNat 32 (i * 4096)) = a + i := by
    rw [pgnum, hnat]
    omega
  have hu : pdx (va + BitVec.ofNat 32 (i * 4096)) ≠ uvptPde := by
    have hpdx : pdx (va + BitVec.ofNat 32 (i * 4096)) = (a + i) / 1024 := by
      rw [pdx, hnat]
      omega
    intro heq
    have : pdx (va + BitVec.ofNat 32 (i * 4096)) = 957 := heq
    omega
  exact assertMapped_ok (h.checkVa2pa_unmapped hu (by rw [hpage]; exact hR i hi)) rfl

/-- The directory passes the last loop of `check_kern_pgdir`. -/
theorem Progress.checkPde_ok (h : Progress m₀ m K R KernelTables used)
    (huvpt : m₀.frames K uvptPde = page2pa K ||| pteU ||| pteP) {i : Nat} (hi : i < 1024) :
    checkPde (m.frames K i) i = true := by
  have h₁ : pdx uvpt = 957 := by decide
  have h₂ : pdx (kstacktop - 1) = 959 := by decide
  have h₃ : pdx upages = 956 := by decide
  have h₄ : pdx uenvs = 955 := by decide
  have h₅ : pdx mmiobase = 958 := by decide
  have h₆ : pdx kernbase = 960 := by decide
  have htable : KernelTables i → (m.frames K i &&& pteP != 0) = true ∧
      (m.frames K i &&& pteW != 0) = true := by
    rintro hki
    obtain ⟨t, ht, -, -, -, -⟩ := h.dir.table i hi hki.2.2 (h.pde i hki)
    have hand : ∀ f : Word, f.toNat < 4096 → (page2pa t ||| pteP ||| pteW ||| pteU) &&& f =
        (pteP ||| (pteW ||| pteU)) &&& f := by
      intro f hf
      rw [BitVec.or_assoc, BitVec.or_assoc, entry_and _ _ _ hf]
    rw [ht, hand pteP (by decide), hand pteW (by decide)]
    decide
  rw [checkPde, h₁, h₂, h₃, h₄, h₅, h₆]
  by_cases h957 : i = 957
  · subst h957
    rw [if_pos (Or.inl rfl), show m.frames K 957 = _ from h.uvptSelf, huvpt, BitVec.or_assoc,
      entry_and _ _ _ (by decide)]
    decide
  · by_cases hlow : i < 955
    · rw [if_neg (by omega), if_neg (by omega), h.user i hlow]
      rfl
    · have hki : KernelTables i := ⟨by omega, hi, h957⟩
      obtain ⟨hP, hW⟩ := htable hki
      split
      · exact hP
      · rw [if_pos (by omega), hP, hW]
        rfl

/-- `check_kern_pgdir` passes. -/
theorem Progress.checkKernPgdir_spec {s : Booting} {npages : Nat} (hl : l.Sane npages)
    (hfit : l.firstFree npages < npages) (hpages : s.pages = page2kva l.pagesPage)
    (henvs : s.envs = page2kva (l.envsPage npages)) (hnpages : m₀.npages = npages)
    (h : Progress m₀ m K (KernelMaps l npages) KernelTables used) (hK : m₀.kernPgdir = K)
    (huvpt : m₀.frames K uvptPde = page2pa K ||| pteU ||| pteP) :
    checkKernPgdir l s m = .ok () := by
  have hn := hl.npages
  have hmK : m.kernPgdir = K := h.kernPgdir.trans hK
  have hmn : m.npages = npages := h.npages.trans hnpages
  have hpp : l.pagesPage = l.pgdirPage + 1 := rfl
  have hep : l.envsPage npages = l.pagesPage + (npages * 8 + 4095) / 4096 := rfl
  have hff : l.firstFree npages = l.envsPage npages + 32 := rfl
  have hsize : (roundup (BitVec.ofNat 32 (npages * sizeofPageInfo))).toNat =
      (npages * 8 + 4095) / 4096 * 4096 := by
    have hnat : (BitVec.ofNat 32 (npages * sizeofPageInfo)).toNat = npages * 8 := by
      rw [BitVec.toNat_ofNat, show sizeofPageInfo = 8 from rfl]
      omega
    rw [toNat_roundup (by omega), hnat]
  have hmemory : (BitVec.ofNat 32 (npages * pgsize)).toNat = npages * 4096 := by
    rw [BitVec.toNat_ofNat, show pgsize = 4096 from rfl]
    omega
  rw [checkKernPgdir, hmK, hmn, hpages, henvs]
  refine bind_ok.mpr ⟨_, paddr_page2kva (by omega), ?_⟩
  refine bind_ok.mpr ⟨(), h.eachPage_mapped _ _ (pteU ||| pteP) (a := 978944) (by decide) rfl
    (by rw [hsize]; omega) (by rw [hsize]; omega) (by rw [hsize]; omega) (by decide)
    (fun i hi => .pages i (by rw [hsize] at hi; omega)), ?_⟩
  refine bind_ok.mpr ⟨_, paddr_page2kva (by omega), ?_⟩
  refine bind_ok.mpr ⟨(), h.eachPage_mapped _ _ (pteU ||| pteP) (a := 977920) (c := 32) (by decide)
    (by decide) (by omega) (by omega) (by omega) (by decide) (fun i hi => .envs i hi), ?_⟩
  have hident : eachPage (BitVec.ofNat 32 (npages * pgsize))
      (fun i => assertMapped m K (kernbase + i) i) = .ok () := by
    have hmapped := h.eachPage_mapped kernbase (BitVec.ofNat 32 (npages * pgsize))
      (pteW ||| pteP) (a := 983040) (q := 0) (c := npages) (by decide)
      (by rw [hmemory]; omega) (by omega) (by omega) (by omega) (by decide)
      (fun i hi => by rw [Nat.zero_add]; exact .memory i (by omega))
    have hzero : ∀ i : Word, page2pa 0 + i = i := fun i => BitVec.zero_add i
    simpa only [hzero] using hmapped
  refine bind_ok.mpr ⟨(), hident, ?_⟩
  have hstacks : (List.range ncpu).forM (fun n => do
      let base := kstacktop - (kstksize + kstkgap) * BitVec.ofNat 32 (n + 1)
      let pa ← paddr (l.percpuKstacks + BitVec.ofNat 32 n * kstksize)
      eachPage kstksize fun i => assertMapped m K (base + kstkgap + i) (pa + i)
      eachPage kstkgap fun i => assertMapped m K (base + i) (~~~0)) = .ok () := by
    refine forM_ok (fun n hin => ?_)
    rw [List.mem_range] at hin
    have h8 : ncpu = 8 := rfl
    have hkb : kernbase.toNat = 4026531840 := rfl
    have hkp : l.kstackPage n =
        (l.percpuKstacks.toNat - kernbase.toNat) / 4096 + 8 * n := rfl
    have hks : l.percpuKstacks.toNat < 4294967296 := l.percpuKstacks.isLt
    have hbase : ∀ n < ncpu, (kstacktop - (kstksize + kstkgap) * BitVec.ofNat 32 (n + 1)).toNat =
        (983040 - 16 * n - 16) * 4096 := by decide
    have hstack : ∀ n < ncpu, (kstacktop - (kstksize + kstkgap) * BitVec.ofNat 32 (n + 1) +
        kstkgap).toNat = (983040 - 16 * n - 8) * 4096 := by decide
    refine bind_ok.mpr ⟨_, hl.paddr_kstack hin, ?_⟩
    refine bind_ok.mpr ⟨(), h.eachPage_mapped _ _ (pteW ||| pteP) (c := 8) (hstack n hin)
      (by decide) (by omega) (by omega) (by omega) (by decide)
      (fun i hi => .stack n i hin hi), ?_⟩
    refine h.eachPage_unmapped (c := 8) (hbase n hin) (by decide) (by omega) (by omega) ?_
    intro i hi w hw
    generalize hp : 983040 - 16 * n - 16 + i = p at hw
    cases hw with
    | pages j hj => omega
    | envs j hj => omega
    | memory j hj => omega
    | stack cpu j hcpu hj => omega
  refine bind_ok.mpr ⟨(), hstacks, ?_⟩
  refine forM_ok (fun i hi => ?_)
  rw [h.checkPde_ok huvpt (List.mem_range.mp hi)]
  rfl

/-! ## The whole of `mem_init` -/

/-- The contents of pages that are free play no part. -/
theorem Progress.rewritten (h : Progress m₀ m K R S used) (hn : m'.npages = m.npages)
    (hK : m'.kernPgdir = m.kernPgdir) (href : m'.ppRef = m.ppRef)
    (hfree : m'.pageFreeList = m.pageFreeList) (hdirK : K ∉ m.pageFreeList)
    (hframes : ∀ p, p ∉ m.pageFreeList → m'.frames p = m.frames p) :
    Progress m₀ m' K R S used := by
  have hdir := hframes K hdirK
  have hentry : ∀ va, pdx va ≠ uvptPde → entryOf m' K va = entryOf m K va := by
    intro va hu
    rw [entryOf, entryOf, hdir]
    by_cases hpde : m.frames K (pdx va) = 0
    · rw [if_pos hpde, if_pos hpde]
    · obtain ⟨t, ht, hlt, -, hnot, -⟩ := h.dir.table _ (pdx_lt_1024 va) hu hpde
      have hnp := h.dir.npages
      have hnum : pgnum (m.frames K (pdx va)) = t := by rw [ht, pgnum_pde (by omega)]
      rw [if_neg hpde, if_neg hpde, hnum, hframes t hnot]
  refine ⟨⟨by rw [hn]; exact h.dir.npages, ?_, by rw [hfree]; exact h.dir.nodup, ?_, ?_⟩,
    hn.trans h.npages, hK.trans h.kernPgdir, ?_, ?_, ?_, ?_, by rw [hfree]; exact h.suffix, ?_⟩
  · rw [hfree, hn]
    exact h.dir.free
  · rw [hfree, hn, hdir]
    exact h.dir.table
  · rw [hdir]
    exact h.dir.distinct
  · intro va hu
    rw [hentry va hu]
    exact h.holds va hu
  · rw [hdir]
    exact h.pde
  · rw [hdir]
    exact h.user
  · rw [hdir]
    exact h.uvptSelf
  · rw [hfree, href]
    exact h.refs

/-- The state in which the checks start: the free list has the usable
pages, and the directory nothing but itself. -/
structure MemReady (l : Linked) (n : Nat) (s : Booting) : Prop where
  npages : s.mem.npages = n
  kernPgdir : s.mem.kernPgdir = l.pgdirPage
  ppRef : s.mem.ppRef = fun _ => 0
  free : s.mem.pageFreeList.Perm (l.allocated n s.mem.frames).mem.pageFreeList
  dir : s.mem.frames l.pgdirPage =
    Function.update (fun _ => 0) uvptPde (page2pa l.pgdirPage ||| pteU ||| pteP)
  nextfree : s.nextfree = page2kva (l.firstFree n)
  base : s.base = mmiobase
  pages : s.pages = page2kva l.pagesPage
  envs : s.envs = page2kva (l.envsPage n)

variable {npages : Nat} {s s' : Booting}

theorem MemReady.mem_free (h : MemReady l npages s) {p : Nat} :
    p ∈ s.mem.pageFreeList ↔ p < npages ∧ p ≠ 0 ∧ p ≠ 7 ∧ ¬ (160 ≤ p ∧ p < 256) ∧
      ¬ (256 ≤ p ∧ p < l.firstFree npages) := by
  rw [h.free.mem_iff]
  exact mem_usable

/-- The page of `kern_pgdir` is not free. -/
theorem MemReady.pgdir_not_free (h : MemReady l npages s) (hl : l.Sane npages) :
    l.pgdirPage ∉ s.mem.pageFreeList := by
  have hend := hl.kernel
  have hbase : kernbase.toNat = 4026531840 := rfl
  have hext : extphysmem.toNat = 1048576 := rfl
  have hpg : l.pgdirPage = (l.kernEnd.toNat - kernbase.toNat + 4095) / 4096 := rfl
  have hff : l.firstFree npages = l.pgdirPage + 1 + (npages * 8 + 4095) / 4096 + 32 := rfl
  rw [h.mem_free]
  omega

/-- A free list in another order is as good. -/
theorem MemReady.reordered (h : MemReady l npages s) (hl : l.Sane npages)
    (hc : FreeListChecked s.toBoot s'.toBoot) (hpages : s'.pages = s.pages) (henvs : s'.envs = s.envs) :
    MemReady l npages s' where
  npages := hc.npages.trans h.npages
  kernPgdir := hc.kernPgdir.trans h.kernPgdir
  ppRef := hc.ppRef.trans h.ppRef
  free := hc.free.trans h.free
  dir := (hc.frames _ (h.pgdir_not_free hl)).trans h.dir
  nextfree := hc.nextfree.trans h.nextfree
  base := hc.base.trans h.base
  pages := hpages.trans h.pages
  envs := henvs.trans h.envs

/-- So is what the other checks leave behind. -/
theorem MemReady.checked (h : MemReady l npages s) (hl : l.Sane npages) (hc : Checked s s') :
    MemReady l npages s' := by
  obtain ⟨taken, given, rest, hfree, hfree', hperm, -⟩ := hc.free
  refine h.reordered hl ⟨hc.npages, hc.kernPgdir, hc.ppRef, ?_, hc.frames, hc.nextfree, hc.base⟩
    hc.pages hc.envs
  rw [hfree, hfree']
  exact hperm.append_right rest

/-- The three pages that are given back are low ones. -/
theorem LowFirst.checked (h : LowFirst s.mem.pageFreeList) (hc : Checked s s') :
    LowFirst s'.mem.pageFreeList := by
  obtain ⟨lows, highs, hsplit, hlow, hlen⟩ := h
  obtain ⟨taken, given, rest, hfree, hfree', hperm, hthree⟩ := hc.free
  have htaken : taken <+: s.mem.pageFreeList := ⟨rest, hfree.symm⟩
  have hlows : lows <+: s.mem.pageFreeList := ⟨highs, hsplit.symm⟩
  have hprefix : taken <+: lows := List.prefix_of_prefix_length_le htaken hlows (by omega)
  obtain ⟨lows', rfl⟩ := hprefix
  have hrest : rest = lows' ++ highs := by
    rw [hfree, List.append_assoc] at hsplit
    exact List.append_cancel_left hsplit
  refine ⟨given ++ lows', highs, by rw [hfree', hrest, List.append_assoc], ?_, ?_⟩
  · intro p hp
    rcases List.mem_append.mp hp with hgiven | hleft
    · exact hlow p (List.mem_append_left _ (hperm.mem_iff.mp hgiven))
    · exact hlow p (List.mem_append_right _ hleft)
  · rw [List.length_append, hperm.length_eq, ← List.length_append]
    exact hlen

theorem MemReady.progress (h : MemReady l npages s) (hl : l.Sane npages) :
    Progress s.mem s.mem l.pgdirPage (fun _ _ => False) (fun _ => False) 0 := by
  have hdir : ∀ i, i ≠ uvptPde → s.mem.frames l.pgdirPage i = 0 := by
    intro i hi
    rw [h.dir, Function.update_of_ne hi]
  have hnodup : s.mem.pageFreeList.Nodup := by
    rw [h.free.nodup_iff]
    exact List.nodup_reverse.mpr (List.nodup_range.filter _)
  refine ⟨⟨by rw [h.npages]; exact hl.npages, ?_, hnodup, ?_, ?_⟩, rfl, rfl, ?_,
    fun _ hf => hf.elim, ?_, rfl, ⟨[], rfl, Nat.le_refl _⟩, fun _ _ => rfl⟩
  · intro p hp
    refine ⟨by rw [h.npages]; exact (h.mem_free.mp hp).1, ?_⟩
    rintro rfl
    exact h.pgdir_not_free hl hp
  · exact fun i _ hu hne => absurd (hdir i hu) hne
  · exact fun i _ hu _ _ _ hne => absurd (hdir i hu) hne
  · intro va hu
    exact ⟨fun _ hf => hf.elim, fun _ => if_pos (hdir _ hu)⟩
  · intro i hi
    have hlt : i < 955 := hi
    exact hdir i (fun heq => by
      have : i = 957 := heq
      omega)

theorem Linked.Sane.checkAllocated (hl : l.Sane n) (hfit : l.firstFree n < n)
    (frames : Nat → Nat → Word) :
    ∃ b, checkPageFreeList (l.allocated n frames).toBoot true = .ok b ∧
      MemReady l n { l.allocated n frames with toBoot := b } ∧ LowFirst b.mem.pageFreeList := by
  have hready : MemReady l n (l.allocated n frames) :=
    ⟨rfl, rfl, rfl, List.Perm.refl _, Function.update_self _ _ _, rfl, rfl, rfl, rfl⟩
  have hfirst : 256 < l.firstFree n := by
    have hend := hl.kernel
    have hbase : kernbase.toNat = 4026531840 := rfl
    have hext : extphysmem.toNat = 1048576 := rfl
    have hpg : l.pgdirPage = (l.kernEnd.toNat - kernbase.toNat + 4095) / 4096 := rfl
    show 256 < l.pgdirPage + 1 + (n * 8 + 4095) / 4096 + 32
    omega
  have huse : ∀ p ∈ (l.allocated n frames).mem.pageFreeList,
      p < n ∧ usable (l.firstFree n) p = true := by
    intro p hp
    have hmem := List.mem_filter.mp (List.mem_reverse.mp hp)
    exact ⟨List.mem_range.mp hmem.1, hmem.2⟩
  obtain ⟨b, hcheck, hb, -, hsplit⟩ := checkPageFreeList_spec true (s := (l.allocated n frames).toBoot)
    rfl hl.npages hfirst hfit huse ⟨1, mem_usable.mpr (by omega), by decide⟩
    ⟨l.firstFree n, mem_usable.mpr (by omega), by omega⟩
  obtain ⟨lows, highs, hfree, hmem⟩ := hsplit rfl
  refine ⟨b, hcheck, hready.reordered hl hb rfl rfl, lows, highs, hfree,
    fun p hp => ((hmem p).mp hp).2, ?_⟩
  -- the pages from 8 to 84 are free, and low
  by_contra hc
  obtain ⟨p, hlo, hhi, hnot⟩ := exists_not_mem_of_length_lt (l := lows) (a := 8) (k := 77) (by omega)
  exact hnot ((hmem p).mpr ⟨mem_usable.mpr (by omega), by
    show p < 1024
    omega⟩)

/-- What `mem_init` leaves. -/
structure MemBooted (l : Linked) (n : Nat) (m : Pmap) : Prop where
  npages : m.npages = n
  kernPgdir : m.kernPgdir = l.pgdirPage
  mapped : ∀ va, pdx va ≠ uvptPde →
    ∀ w, KernelMaps l n (pgnum va) w → entryOf m l.pgdirPage va = w
  unmapped : ∀ va, pdx va ≠ uvptPde →
    (∀ w, ¬ KernelMaps l n (pgnum va) w) → entryOf m l.pgdirPage va = 0
  uvptSelf : m.frames l.pgdirPage uvptPde = page2pa l.pgdirPage ||| pteU ||| pteP
  /-- An environment writes nothing of the kernel. -/
  readOnly : ∀ va, pdx va ≠ uvptPde → entryOf m l.pgdirPage va &&& pteU ≠ 0 →
    entryOf m l.pgdirPage va &&& pteW = 0
  /-- The usable pages are free but for the new page tables. -/
  free : ∃ tables : List Nat, tables.length ≤ 76 ∧ (tables ++ m.pageFreeList).Nodup ∧
    ∀ p, p ∈ tables ++ m.pageFreeList ↔ p < n ∧ usable (l.firstFree n) p = true
  booted : ∀ k : Kernel, k.mem = m → PagesBooted (envInit k)

theorem KernelMaps.readOnly {p : Nat} {w : Word} (h : KernelMaps l n p w) (hU : w &&& pteU ≠ 0) :
    w &&& pteW = 0 := by
  have hperm : ∀ (q : Nat) (perm f : Word), f.toNat < 4096 →
      (page2pa q ||| perm ||| pteP) &&& f = (perm ||| pteP) &&& f := by
    intro q perm f hf
    rw [BitVec.or_assoc, entry_and _ _ _ hf]
  cases h with
  | pages i hi => rw [hperm _ _ _ (by decide)]; decide
  | envs i hi => rw [hperm _ _ _ (by decide)]; decide
  | memory i hi =>
      rw [hperm _ _ _ (by decide)] at hU
      exact absurd (by decide) hU
  | stack cpu i hcpu hi =>
      rw [hperm _ _ _ (by decide)] at hU
      exact absurd (by decide) hU

theorem MemReady.memInitFinish_spec (h : MemReady l n s) (hl : l.Sane n)
    (hfirst : LowFirst s.mem.pageFreeList) (hfit : l.firstFree n + 76 < n) : ∃ s', memInitFinish l s = .ok s' ∧ MemBooted l n s'.mem := by
  have hn := hl.npages
  have hend := hl.kernel
  have hbase : kernbase.toNat = 4026531840 := rfl
  have hext : extphysmem.toNat = 1048576 := rfl
  have hpg : l.pgdirPage = (l.kernEnd.toNat - kernbase.toNat + 4095) / 4096 := rfl
  have hff : l.firstFree n = l.pgdirPage + 1 + (n * 8 + 4095) / 4096 + 32 := rfl
  have hlow : ∀ p, 8 ≤ p → p < 8 + 77 → p ∈ s.mem.pageFreeList :=
    fun p hlo hhi => h.mem_free.mpr (by omega)
  have hhigh : ∀ p, l.firstFree n ≤ p → p < l.firstFree n + 77 → p ∈ s.mem.pageFreeList :=
    fun p hlo hhi => h.mem_free.mpr (by omega)
  have hroom := hfirst.lowPages
  -- the end of `check_page`, and the mappings
  obtain ⟨b, hmmio, hnext, h₁⟩ :=
    (h.progress hl).checkMmio_spec h.kernPgdir h.base (by omega)
  have hbn : b.mem.npages = n := h₁.npages.trans h.npages
  obtain ⟨m, hmap, h₂⟩ := Progress.memInitMap_spec (l := l) (s := { s with toBoot := b })
    (by rw [hbn]; exact hl) (by rw [hbn]; omega) h.pages
    (by rw [hbn]; exact h.envs) h₁ h.kernPgdir (by omega)
  have h₂' : Progress s.mem m l.pgdirPage (KernelMaps l n) KernelTables 76 := by
    rw [← hbn]
    exact h₂
  have huvpt : s.mem.frames l.pgdirPage uvptPde = page2pa l.pgdirPage ||| pteU ||| pteP := by
    rw [h.dir, Function.update_self]
  have hcheck : checkKernPgdir l { s with toBoot := b } m = .ok () :=
    h₂'.checkKernPgdir_spec hl (by omega) h.pages h.envs h.npages h.kernPgdir huvpt
  -- the free list afterwards
  obtain ⟨tables, htables, hlen⟩ := h₂'.suffix
  have hmem : ∀ p, p ∈ tables ++ m.pageFreeList ↔ p < n ∧ usable (l.firstFree n) p = true := by
    intro p
    rw [← htables, h.free.mem_iff]
    show p ∈ ((List.range n).filter _).reverse ↔ _
    rw [List.mem_reverse, List.mem_filter, List.mem_range]
  have hleft : ∀ p, p ∈ s.mem.pageFreeList → p ∉ tables → p ∈ m.pageFreeList := by
    intro p hp hnot
    rw [htables, List.mem_append] at hp
    exact hp.resolve_left hnot
  have hmn : m.npages = n := h₂'.npages.trans h.npages
  obtain ⟨p, hplo, hphi, hp⟩ := exists_not_mem_of_length_lt (l := tables) (a := 8) (k := 77)
    (by omega)
  obtain ⟨q, hqlo, hqhi, hq⟩ := exists_not_mem_of_length_lt (l := tables) (a := l.firstFree n)
    (k := 77) (by omega)
  obtain ⟨b', hlast, hb', hsame, -⟩ := checkPageFreeList_spec (s := { b with mem := m }) false
    (hnext.trans h.nextfree) (by rw [hmn]; exact hn) (by omega)
    (by show _ < m.npages; omega)
    (fun p hp => by
      rw [hmn]
      exact (hmem p).mp (List.mem_append_right _ hp))
    ⟨p, hleft p (hlow p hplo hphi) hp, by omega⟩
    ⟨q, hleft q (hhigh q hqlo hqhi) hq, by omega⟩
  have hfree : b'.mem.pageFreeList = m.pageFreeList := hsame rfl
  have hnotK : l.pgdirPage ∉ m.pageFreeList := fun hc => (h₂'.dir.free _ hc).2 rfl
  have h₃ := h₂'.rewritten hb'.npages hb'.kernPgdir hb'.ppRef hfree hnotK hb'.frames
  refine ⟨{ s with toBoot := b' }, ?_, h₃.npages.trans h.npages, h₃.kernPgdir.trans h.kernPgdir,
    fun va hu => (h₃.holds va hu).1, fun va hu => (h₃.holds va hu).2, h₃.uvptSelf.trans huvpt,
    ?_, ⟨tables, hlen, ?_, ?_⟩, ?_⟩
  · rw [memInitFinish]
    refine bind_ok.mpr ⟨b, hmmio, ?_⟩
    refine bind_ok.mpr ⟨m, hmap, ?_⟩
    refine bind_ok.mpr ⟨(), hcheck, ?_⟩
    exact bind_ok.mpr ⟨b', hlast, rfl⟩
  · show ∀ va, pdx va ≠ uvptPde → entryOf b'.mem l.pgdirPage va &&& pteU ≠ 0 → _
    intro va hu hU
    by_cases hsome : ∃ w, KernelMaps l n (pgnum va) w
    · obtain ⟨w, hw⟩ := hsome
      rw [(h₃.holds va hu).1 w hw] at hU ⊢
      exact hw.readOnly hU
    · rw [(h₃.holds va hu).2 (fun w hw => hsome ⟨w, hw⟩)] at hU
      exact absurd (by decide) hU
  · show (tables ++ b'.mem.pageFreeList).Nodup
    rw [hfree, ← htables]
    exact (h.progress hl).dir.nodup
  · show ∀ p, p ∈ tables ++ b'.mem.pageFreeList ↔ _
    rw [hfree]
    exact hmem
  · rintro k hk
    have hkm : (envInit k).mem = b'.mem := hk
    have hslots : (envInit k).envFreeList = List.finRange nenv := by rw [envInit]
    refine ⟨fun _ => rfl, by rw [hslots]; exact List.nodup_finRange nenv, by rw [hkm]; exact h₃.dir.nodup, ?_, ?_, ?_⟩
    · rw [hkm]
      have := h₃.dir.npages
      omega
    · rw [hkm]
      intro p hp
      obtain ⟨hlt, hne⟩ := h₃.dir.free p hp
      refine ⟨hlt, ?_, ?_⟩
      · rw [h₃.kernPgdir, h.kernPgdir]
        exact hne
      · rw [h₃.refs p hp, h.ppRef]
    · rw [hkm, h₃.kernPgdir, h.kernPgdir]
      exact h₃.user

/-- The kernel starts on every machine with up to 256 megabytes that has 77
pages behind the kernel's data, if the data ends in the first 4 megabytes:
`mem_init` stops in no panic and in no fault and fails none of its checks,
and leaves the address space that `memlayout.h` draws. -/
theorem mem_init_boots {basemem extmem ext16 : Nat}
    (hl : l.Sane (i386DetectMemory basemem extmem ext16))
    (hfit : l.firstFree (i386DetectMemory basemem extmem ext16) + 76 <
      i386DetectMemory basemem extmem ext16) (frames : Nat → Nat → Word) :
    ∃ s, memInitStart l basemem extmem ext16 frames = .ok s ∧ ∀ s', Checked s s' →
      ∃ s'', memInitFinish l s' = .ok s'' ∧
        MemBooted l (i386DetectMemory basemem extmem ext16) s''.mem := by
  obtain ⟨b, hcheck, hready, hfirst⟩ := hl.checkAllocated (by omega) frames
  refine ⟨_, ?_, fun s' hs => (hready.checked hl hs).memInitFinish_spec hl
    (LowFirst.checked (s := { l.allocated _ frames with toBoot := b }) hfirst hs) hfit⟩
  rw [memInitStart, memInitAlloc_eq hl (by omega)]
  exact bind_ok.mpr ⟨_, rfl, bind_ok.mpr ⟨b, hcheck, rfl⟩⟩

/-- A kernel of three megabytes. -/
def smallKernel : Linked where
  kernEnd := 0xF0300000
  percpuKstacks := 0xF0200000

theorem Checked.refl (s : Booting) : Checked s s :=
  ⟨rfl, rfl, rfl, ⟨[], [], _, rfl, rfl, List.Perm.refl _, Nat.zero_le _⟩, fun _ _ => rfl, rfl, rfl, rfl,
    rfl⟩

/-- With 128 megabytes: the kernel's first page is where it was loaded, and
below the stack of the first CPU there is nothing. -/
theorem smallKernel_boots : ∃ s s', memInitStart smallKernel 640 65535 1792 (fun _ _ => 0) = .ok s ∧
    memInitFinish smallKernel s = .ok s' ∧ entryOf s'.mem 768 0xF0100000 = 0x100003 ∧
    entryOf s'.mem 768 0xEFFF7000 = 0 := by
  have hsane : smallKernel.Sane (i386DetectMemory 640 65535 1792) :=
    ⟨by decide, by decide, by decide, by decide, by decide, by decide⟩
  obtain ⟨s, hstart, hrest⟩ := mem_init_boots hsane (by decide) (fun _ _ => 0)
  obtain ⟨s', hfinish, hboot⟩ := hrest s (Checked.refl s)
  have hpgdir : smallKernel.pgdirPage = 768 := by decide
  have hmapped := hboot.mapped 0xF0100000 (by decide) _ (.memory 256 (by decide))
  have hguard := hboot.unmapped 0xEFFF7000 (by decide) (by
    intro w hw
    have hpage : pgnum 0xEFFF7000 = 983031 := by decide
    have hcpu : ncpu = 8 := rfl
    have hn : i386DetectMemory 640 65535 1792 = 32768 := by decide
    generalize hp : pgnum 0xEFFF7000 = p at hw
    cases hw with
    | pages i hi => omega
    | envs i hi => omega
    | memory i hi => omega
    | stack cpu i hlt hi => omega)
  rw [hpgdir] at hmapped hguard
  exact ⟨s, s', hstart, hfinish, hmapped, hguard⟩

end SistemasOperativos.Kern
