/-
SistemasOperativos.Kern.PageMapTheorems — a page directory is a map from
page addresses to pages and permissions.

Only one directory is looked at, so nothing is asked of the other
environments: `Tables` says that its page tables can be walked and are
not shared, `WellFormed` adds what the allocator has to do with them. The
entry behind an address is `entryOf`; `page_insert` and `page_remove`
each write one entry, and `page_lookup` reads it back.
-/
import SistemasOperativos.Kern.EntryTheorems

namespace SistemasOperativos.Kern

/-! ## The specification -/

/-- The page tables of the entries below `lim` are pages, none of them the
directory and no two of them the same, and so are the pages they map. -/
structure Tables (m : Pmap) (pgdir lim : Nat) : Prop where
  table : ∀ i < lim, m.frames pgdir i ≠ 0 →
    pgnum (m.frames pgdir i) < m.npages ∧ pgnum (m.frames pgdir i) ≠ pgdir
  distinct : ∀ i < lim, ∀ i' < lim, m.frames pgdir i ≠ 0 → m.frames pgdir i' ≠ 0 →
    pgnum (m.frames pgdir i) = pgnum (m.frames pgdir i') → i = i'
  entry : ∀ i < lim, m.frames pgdir i ≠ 0 → ∀ j < nptentries,
    m.frames (pgnum (m.frames pgdir i)) j ≠ 0 →
      pgnum (m.frames (pgnum (m.frames pgdir i)) j) < m.npages

/-- A page directory in order. `lim` bounds the part that is: for the
directory of an environment it is `PDX(UTOP)`. -/
structure WellFormed (m : Pmap) (pgdir lim : Nat) : Prop extends Tables m pgdir lim where
  npages : m.npages ≤ 1048576
  freePage : ∀ p ∈ m.pageFreeList, p < m.npages
  dirInUse : pgdir ∉ m.pageFreeList
  tableInUse : ∀ i < lim, m.frames pgdir i ≠ 0 → pgnum (m.frames pgdir i) ∉ m.pageFreeList
  present : ∀ i < lim, m.frames pgdir i ≠ 0 → ∀ j < nptentries,
    m.frames (pgnum (m.frames pgdir i)) j ≠ 0 →
      m.frames (pgnum (m.frames pgdir i)) j &&& pteP ≠ 0
  counted : ∀ i < lim, m.frames pgdir i ≠ 0 → ∀ j < nptentries,
    m.frames (pgnum (m.frames pgdir i)) j ≠ 0 →
      0 < m.ppRef (pgnum (m.frames (pgnum (m.frames pgdir i)) j)) ∧
        m.ppRef (pgnum (m.frames (pgnum (m.frames pgdir i)) j)) < 65536

/-- `page_lookup`, as the page and the flags of its entry. -/
def lookup (m : Pmap) (pgdir : Nat) (va : Word) : Except Panic (Option (Nat × Word)) :=
  (pageLookup m pgdir va).map (Option.map (fun found => (found.1, m.word found.2 &&& 0xFFF)))

/-- The counts after `pp` has been mapped where `old` was. -/
def Recounted (m m' : Pmap) (pp : Nat) : Option (Nat × Word) → Prop
  | none => m'.ppRef pp = m.ppRef pp + 1
  | some (q, _) =>
      if q = pp then m'.ppRef pp = m.ppRef pp ∧ pp ∉ m'.pageFreeList
      else m'.ppRef pp = m.ppRef pp + 1 ∧ m'.ppRef q + 1 = m.ppRef q

/-- `m'` is `m` with `pp` mapped at `va`. -/
structure MapsPage (m m' : Pmap) (pgdir lim pp : Nat) (va perm : Word) : Prop where
  here : lookup m' pgdir va = .ok (some (pp, perm ||| pteP))
  elsewhere : ∀ va', pdx va' < lim → pgnum va' ≠ pgnum va →
    lookup m' pgdir va' = lookup m pgdir va'
  counts : ∃ old, lookup m pgdir va = .ok old ∧ Recounted m m' pp old

/-- The count of the page that was mapped, and the free list, after it
has been unmapped. -/
def Released (m m' : Pmap) : Option (Nat × Word) → Prop
  | none => m'.ppRef = m.ppRef ∧ m'.pageFreeList = m.pageFreeList
  | some (q, _) => m'.ppRef q + 1 = m.ppRef q ∧
      m'.pageFreeList = if m'.ppRef q = 0 then q :: m.pageFreeList else m.pageFreeList

/-- `m'` is `m` with nothing mapped at `va`. -/
structure UnmapsPage (m m' : Pmap) (pgdir lim : Nat) (va : Word) : Prop where
  here : lookup m' pgdir va = .ok none
  elsewhere : ∀ va', pdx va' < lim → pgnum va' ≠ pgnum va →
    lookup m' pgdir va' = lookup m pgdir va'
  counts : ∃ old, lookup m pgdir va = .ok old ∧ Released m m' old

/-! ## Entries -/

variable {m m' : Pmap} {pgdir lim pp : Nat} {va va' perm w : Word}

/-- The entry behind `va`, 0 when it has no page table. -/
def entryOf (m : Pmap) (pgdir : Nat) (va : Word) : Word :=
  if m.frames pgdir (pdx va) = 0 then 0
  else m.frames (pgnum (m.frames pgdir (pdx va))) (ptx va)

theorem Tables.kaddr_pde (h : Tables m pgdir lim) (hva : pdx va < lim)
    (hpde : m.frames pgdir (pdx va) ≠ 0) :
    kaddr m (pteAddr (m.frames pgdir (pdx va))) = .ok (pgnum (m.frames pgdir (pdx va))) := by
  have hlt := (h.table _ hva hpde).1
  rw [kaddr, pgnum_pteAddr, if_neg (by omega)]

theorem pgdirFind_zero (hpde : m.frames pgdir (pdx va) = 0) :
    pgdirFind m pgdir va = .ok none := by
  rw [pgdirFind]
  simp only [hpde, ne_eq, not_true_eq_false, if_false]
  rfl

theorem Tables.pgdirFind_eq (h : Tables m pgdir lim) (hva : pdx va < lim)
    (hpde : m.frames pgdir (pdx va) ≠ 0) :
    pgdirFind m pgdir va = .ok (some ⟨pgnum (m.frames pgdir (pdx va)), ptx va⟩) := by
  rw [pgdirFind]
  simp only [hpde, ne_eq, not_false_eq_true, if_true, h.kaddr_pde hva hpde]
  rfl

theorem Tables.entryOf_lt (h : Tables m pgdir lim) (hva : pdx va < lim)
    (hne : entryOf m pgdir va ≠ 0) : pgnum (entryOf m pgdir va) < m.npages := by
  unfold entryOf at *
  by_cases hpde : m.frames pgdir (pdx va) = 0
  · rw [if_pos hpde] at hne
    exact absurd rfl hne
  · rw [if_neg hpde] at *
    exact h.entry _ hva hpde _ (ptx_lt va) hne

/-- `page_lookup` reads the entry. -/
theorem Tables.pageLookup_eq (h : Tables m pgdir lim) (hva : pdx va < lim) :
    pageLookup m pgdir va =
      .ok (if entryOf m pgdir va = 0 then none
        else some (pgnum (entryOf m pgdir va),
          ⟨pgnum (m.frames pgdir (pdx va)), ptx va⟩)) := by
  by_cases hpde : m.frames pgdir (pdx va) = 0
  · have hentry : entryOf m pgdir va = 0 := if_pos hpde
    rw [pageLookup, pgdirFind_zero hpde, if_pos hentry]
    rfl
  · have hentry : entryOf m pgdir va =
        m.word ⟨pgnum (m.frames pgdir (pdx va)), ptx va⟩ := if_neg hpde
    rw [pageLookup, h.pgdirFind_eq hva hpde, bind_ok]
    refine ⟨_, rfl, ?_⟩
    dsimp only
    rw [← hentry]
    by_cases hzero : entryOf m pgdir va = 0
    · rw [if_pos hzero, if_pos hzero]
      rfl
    · have hlt := h.entryOf_lt hva hzero
      rw [if_neg hzero, if_neg hzero, pa2page, pgnum_pteAddr, if_neg (by omega)]
      rfl

theorem Tables.lookup_eq (h : Tables m pgdir lim) (hva : pdx va < lim) :
    lookup m pgdir va =
      .ok (if entryOf m pgdir va = 0 then none
        else some (pgnum (entryOf m pgdir va), entryOf m pgdir va &&& 0xFFF)) := by
  rw [lookup, h.pageLookup_eq hva]
  by_cases hzero : entryOf m pgdir va = 0
  · rw [if_pos hzero, if_pos hzero]
    rfl
  · have hpde : m.frames pgdir (pdx va) ≠ 0 := fun hpde => hzero (if_pos hpde)
    have hentry : entryOf m pgdir va =
        m.word ⟨pgnum (m.frames pgdir (pdx va)), ptx va⟩ := if_neg hpde
    rw [if_neg hzero, if_neg hzero]
    simp only [Except.map, Option.map, hentry]

theorem pgnum_eq_iff : pgnum va' = pgnum va ↔ pdx va' = pdx va ∧ ptx va' = ptx va := by
  simp only [pgnum, pdx, ptx]
  omega

/-! ## A store into a page table -/

section Store

variable (h : Tables m pgdir lim) (hva : pdx va < lim) (hpde : m.frames pgdir (pdx va) ≠ 0)
include h hva hpde

/-- The directory is none of its own page tables. -/
theorem Tables.setWord_dir (w : Word) (i : Nat) :
    (m.setWord ⟨pgnum (m.frames pgdir (pdx va)), ptx va⟩ w).frames pgdir i =
      m.frames pgdir i := by
  have hne := (h.table _ hva hpde).2
  rw [setWord_frames, if_neg (fun hc => hne hc.1.symm)]

/-- One entry changes: page tables are not shared. -/
theorem Tables.entryOf_setWord (hva' : pdx va' < lim) (w : Word) :
    entryOf (m.setWord ⟨pgnum (m.frames pgdir (pdx va)), ptx va⟩ w) pgdir va' =
      if pgnum va' = pgnum va then w else entryOf m pgdir va' := by
  rw [entryOf, entryOf, h.setWord_dir hva hpde]
  by_cases hpde' : m.frames pgdir (pdx va') = 0
  · have hne : pgnum va' ≠ pgnum va := by
      intro heq
      rw [(pgnum_eq_iff.mp heq).1] at hpde'
      exact hpde hpde'
    rw [if_pos hpde', if_pos hpde', if_neg hne]
  · rw [if_neg hpde', if_neg hpde', setWord_frames]
    by_cases heq : pgnum va' = pgnum va
    · obtain ⟨hd, ht⟩ := pgnum_eq_iff.mp heq
      rw [if_pos heq, hd, ht, if_pos ⟨rfl, rfl⟩]
    · rw [if_neg heq, if_neg]
      rintro ⟨htable, hidx⟩
      exact heq (pgnum_eq_iff.mpr ⟨h.distinct _ hva' _ hva hpde' hpde htable, hidx⟩)

theorem Tables.setWord (hw : w ≠ 0 → pgnum w < m.npages) :
    Tables (m.setWord ⟨pgnum (m.frames pgdir (pdx va)), ptx va⟩ w) pgdir lim where
  table := by
    intro i hi hne
    rw [h.setWord_dir hva hpde] at *
    exact h.table i hi hne
  distinct := by
    intro i hi i' hi' hne hne'
    rw [h.setWord_dir hva hpde] at *
    rw [h.setWord_dir hva hpde]
    exact h.distinct i hi i' hi' hne hne'
  entry := by
    intro i hi hne j hj
    rw [h.setWord_dir hva hpde] at *
    rw [setWord_frames]
    split
    · exact hw
    · exact h.entry i hi hne j hj

end Store

/-- Walking reads the frames and the number of pages. -/
theorem Tables.congr (h : Tables m pgdir lim) (hframes : m'.frames = m.frames)
    (hnpages : m'.npages = m.npages) : Tables m' pgdir lim where
  table := by
    rw [hframes, hnpages]
    exact h.table
  distinct := by
    rw [hframes]
    exact h.distinct
  entry := by
    rw [hframes, hnpages]
    exact h.entry

theorem entryOf_congr (hframes : m'.frames = m.frames) :
    entryOf m' pgdir va = entryOf m pgdir va := by
  rw [entryOf, entryOf, hframes]

/-! ## `pgdir_walk` -/

/-- The words `pgdir_walk` stores into a directory. -/
theorem pde_ne_zero (t : Nat) : page2pa t ||| pteP ||| pteW ||| pteU ≠ 0 := by
  intro hzero
  have hbit : (page2pa t ||| pteP ||| pteW ||| pteU).getLsbD 0 = false := by
    rw [hzero]
    rfl
  simp at hbit

theorem pgnum_pde {t : Nat} (ht : t < 1048576) :
    pgnum (page2pa t ||| pteP ||| pteW ||| pteU) = t :=
  (entryPage_eq_some (entryPage_table ht)).2.2

/-- What the creation of a page table leaves in the frames. -/
theorem pgdirCreate_frames {t : Nat} {rest : List Nat} (hpde : m.frames pgdir (pdx va) = 0)
    (hfree : m.pageFreeList = t :: rest) (q x : Nat) :
    (pgdirCreate m pgdir va).frames q x =
      if q = pgdir ∧ x = pdx va then page2pa t ||| pteP ||| pteW ||| pteU
      else if q = t then 0 else m.frames q x := by
  rw [pgdirCreate, if_pos hpde, pageAlloc_cons hfree]
  dsimp only
  rw [setWord_frames]
  by_cases hq : q = t
  · subst hq
    simp [Pmap.taken, Pmap.incRef, Pmap.setRef]
  · simp [Pmap.taken, Pmap.incRef, Pmap.setRef, hq]

/-- A new page table is empty, so that no entry changes. -/
theorem WellFormed.pgdirCreate (h : WellFormed m pgdir lim) {t : Nat} {rest : List Nat}
    (hpde : m.frames pgdir (pdx va) = 0) (hfree : m.pageFreeList = t :: rest) :
    Tables (Kern.pgdirCreate m pgdir va) pgdir lim ∧
      ∀ va', pdx va' < lim →
        entryOf (Kern.pgdirCreate m pgdir va) pgdir va' = entryOf m pgdir va' := by
  have hmem : t ∈ m.pageFreeList := by
    rw [hfree]
    exact List.mem_cons_self
  have ht : t < m.npages := h.freePage t hmem
  have hdir : pgdir ≠ t := fun heq => h.dirInUse (heq ▸ hmem)
  have hnum := pgnum_pde (Nat.lt_of_lt_of_le ht h.npages)
  have hnpages : (Kern.pgdirCreate m pgdir va).npages = m.npages := by
    rw [Kern.pgdirCreate, if_pos hpde, pageAlloc_cons hfree]
    rfl
  have hpdes : ∀ i, (Kern.pgdirCreate m pgdir va).frames pgdir i =
      if i = pdx va then page2pa t ||| pteP ||| pteW ||| pteU else m.frames pgdir i := by
    intro i
    rw [pgdirCreate_frames hpde hfree]
    simp [hdir]
  have htable : ∀ i < lim, m.frames pgdir i ≠ 0 →
      ∀ x, (Kern.pgdirCreate m pgdir va).frames (pgnum (m.frames pgdir i)) x =
        m.frames (pgnum (m.frames pgdir i)) x := by
    intro i hi hne x
    have hnt : pgnum (m.frames pgdir i) ≠ t := fun heq => h.tableInUse i hi hne (heq ▸ hmem)
    have hnd := (h.table i hi hne).2
    rw [pgdirCreate_frames hpde hfree, if_neg (fun hc => hnd hc.1), if_neg hnt]
  have hnew : ∀ x, (Kern.pgdirCreate m pgdir va).frames t x = 0 := by
    intro x
    rw [pgdirCreate_frames hpde hfree, if_neg (fun hc => hdir hc.1.symm), if_pos rfl]
  refine ⟨⟨?_, ?_, ?_⟩, ?_⟩
  · intro i hi hne
    rw [hpdes, hnpages] at *
    split at hne
    · rename_i hi'
      rw [if_pos hi', hnum]
      exact ⟨ht, hdir.symm⟩
    · rename_i hi'
      rw [if_neg hi']
      exact h.table i hi hne
  · intro i hi i' hi' hne hne' heq
    rw [hpdes] at hne hne'
    rw [hpdes, hpdes] at heq
    split at heq
    · rename_i hpi
      split at heq
      · rename_i hpi'
        rw [hpi, hpi']
      · rename_i hpi'
        rw [if_neg hpi'] at hne'
        rw [hnum] at heq
        exact absurd (heq ▸ hmem) (h.tableInUse i' hi' hne')
    · rename_i hpi
      rw [if_neg hpi] at hne
      split at heq
      · rw [hnum] at heq
        exact absurd (heq ▸ hmem) (h.tableInUse i hi hne)
      · rename_i hpi'
        rw [if_neg hpi'] at hne'
        exact h.distinct i hi i' hi' hne hne' heq
  · intro i hi hne j hj
    rw [hpdes, hnpages] at *
    split at hne
    · rename_i hpi
      rw [if_pos hpi, hnum, hnew]
      intro hc
      exact absurd rfl hc
    · rename_i hpi
      rw [if_neg hpi, htable i hi hne]
      exact h.entry i hi hne j hj
  · intro va' hva'
    rw [entryOf, entryOf, hpdes]
    by_cases heq : pdx va' = pdx va
    · rw [if_pos heq, heq, if_pos hpde, if_neg (pde_ne_zero t), hnum, hnew]
    · rw [if_neg heq]
      by_cases hzero : m.frames pgdir (pdx va') = 0
      · rw [if_pos hzero, if_pos hzero]
      · rw [if_neg hzero, if_neg hzero, htable _ hva' hzero]

/-! ## `page_remove` -/

/-- What `page_decref` does to the memory. -/
theorem pageDecref_ok {q : Nat} (h : pageDecref m q = .ok m') :
    m'.frames = m.frames ∧ m'.npages = m.npages ∧
      m'.ppRef = Function.update m.ppRef q (u16Dec (m.ppRef q)) ∧
      m'.pageFreeList =
        if u16Dec (m.ppRef q) = 0 then q :: m.pageFreeList else m.pageFreeList := by
  unfold pageDecref at h
  simp only [Pmap.setRef, Function.update_self] at h
  by_cases hzero : u16Dec (m.ppRef q) = 0
  · rw [if_pos hzero, pageFree] at h
    split at h
    · cases h
    · split at h
      · cases h
      · cases h
        exact ⟨rfl, rfl, rfl, (if_pos hzero).symm⟩
  · rw [if_neg hzero] at h
    cases h
    exact ⟨rfl, rfl, rfl, (if_neg hzero).symm⟩

/-- Nothing is mapped: `page_remove` leaves at once. -/
theorem Tables.pageRemove_zero (h : Tables m pgdir lim) (hva : pdx va < lim)
    (hzero : entryOf m pgdir va = 0) : pageRemove m pgdir va = .ok m := by
  rw [pageRemove, h.pageLookup_eq hva, if_pos hzero]
  rfl

/-- A page is mapped: its count goes down and its entry is cleared. -/
theorem Tables.pageRemove_eq (h : Tables m pgdir lim) (hva : pdx va < lim)
    (hne : entryOf m pgdir va ≠ 0) :
    pageRemove m pgdir va = (pageDecref m (pgnum (entryOf m pgdir va))).map
      (fun m₁ => m₁.setWord ⟨pgnum (m.frames pgdir (pdx va)), ptx va⟩ 0) := by
  rw [pageRemove, h.pageLookup_eq hva, if_neg hne]
  cases hdec : pageDecref m (pgnum (entryOf m pgdir va)) with
  | error e =>
      simp only [bind, Except.bind, hdec]
      rfl
  | ok m₁ =>
      simp only [bind, Except.bind, hdec]
      rfl

theorem pde_of_entryOf (hne : entryOf m pgdir va ≠ 0) : m.frames pgdir (pdx va) ≠ 0 :=
  fun hpde => hne (if_pos hpde)

/-- The entry is 0 afterwards, whichever way `page_remove` returned. -/
theorem Tables.pageRemove_tables (h : Tables m pgdir lim) (hva : pdx va < lim)
    (hrem : pageRemove m pgdir va = .ok m') :
    Tables m' pgdir lim ∧ m'.npages = m.npages ∧
      (∀ va', pdx va' < lim → entryOf m' pgdir va' =
        if pgnum va' = pgnum va then 0 else entryOf m pgdir va') ∧
      ∀ i, m'.frames pgdir i = m.frames pgdir i := by
  by_cases hzero : entryOf m pgdir va = 0
  · rw [h.pageRemove_zero hva hzero] at hrem
    cases hrem
    refine ⟨h, rfl, ?_, fun _ => rfl⟩
    intro va' _
    split
    · rename_i heq
      obtain ⟨hd, ht⟩ := pgnum_eq_iff.mp heq
      rw [entryOf, hd, ht]
      exact hzero
    · rfl
  · have hpde := pde_of_entryOf hzero
    rw [h.pageRemove_eq hva hzero] at hrem
    cases hdec : pageDecref m (pgnum (entryOf m pgdir va)) with
    | error e =>
        rw [hdec] at hrem
        cases hrem
    | ok m₁ =>
        rw [hdec] at hrem
        cases hrem
        obtain ⟨hframes, hnpages, -, -⟩ := pageDecref_ok hdec
        have h₁ := h.congr hframes hnpages
        rw [← hframes] at hpde ⊢
        refine ⟨h₁.setWord hva hpde (fun hc => absurd rfl hc), hnpages, ?_,
          h₁.setWord_dir hva hpde 0⟩
        intro va' hva'
        rw [h₁.entryOf_setWord hva hpde hva', entryOf_congr hframes]

/-- The counts and the free list after `page_remove`. -/
theorem Tables.pageRemove_counts (h : Tables m pgdir lim) (hva : pdx va < lim)
    (hne : entryOf m pgdir va ≠ 0) (hrem : pageRemove m pgdir va = .ok m') :
    m'.ppRef = Function.update m.ppRef (pgnum (entryOf m pgdir va))
        (u16Dec (m.ppRef (pgnum (entryOf m pgdir va)))) ∧
      m'.pageFreeList =
        if u16Dec (m.ppRef (pgnum (entryOf m pgdir va))) = 0 then
          pgnum (entryOf m pgdir va) :: m.pageFreeList
        else m.pageFreeList := by
  rw [h.pageRemove_eq hva hne] at hrem
  cases hdec : pageDecref m (pgnum (entryOf m pgdir va)) with
  | error e =>
      rw [hdec] at hrem
      cases hrem
  | ok m₁ =>
      rw [hdec] at hrem
      cases hrem
      obtain ⟨-, -, href, hfree⟩ := pageDecref_ok hdec
      exact ⟨href, hfree⟩

/-- A lookup is decided by the entry. -/
theorem lookup_congr (h : Tables m pgdir lim) (h' : Tables m' pgdir lim) (hva : pdx va < lim)
    (hentry : entryOf m' pgdir va = entryOf m pgdir va) :
    lookup m' pgdir va = lookup m pgdir va := by
  rw [h.lookup_eq hva, h'.lookup_eq hva, hentry]

/-- The count of a mapped page is a `uint16_t` that is not 0. -/
theorem WellFormed.ref_range (h : WellFormed m pgdir lim) (hva : pdx va < lim)
    (hne : entryOf m pgdir va ≠ 0) :
    0 < m.ppRef (pgnum (entryOf m pgdir va)) ∧ m.ppRef (pgnum (entryOf m pgdir va)) < 65536 := by
  have hpde := pde_of_entryOf hne
  rw [entryOf, if_neg hpde] at hne ⊢
  exact h.counted _ hva hpde _ (ptx_lt va) hne

theorem WellFormed.unmapsPage (h : WellFormed m pgdir lim) (hva : pdx va < lim)
    (hrem : pageRemove m pgdir va = .ok m') : UnmapsPage m m' pgdir lim va := by
  obtain ⟨h', -, hentry, -⟩ := h.toTables.pageRemove_tables hva hrem
  refine ⟨?_, ?_, ?_⟩
  · rw [h'.lookup_eq hva, hentry va hva, if_pos rfl]
    rfl
  · intro va' hva' hne
    refine lookup_congr h.toTables h' hva' ?_
    rw [hentry va' hva', if_neg hne]
  · refine ⟨_, h.toTables.lookup_eq hva, ?_⟩
    by_cases hzero : entryOf m pgdir va = 0
    · rw [h.toTables.pageRemove_zero hva hzero] at hrem
      cases hrem
      rw [if_pos hzero]
      exact ⟨rfl, rfl⟩
    · obtain ⟨href, hfree⟩ := h.toTables.pageRemove_counts hva hzero hrem
      obtain ⟨hpos, hmax⟩ := h.ref_range hva hzero
      have hdec := u16Dec_eq hpos hmax
      rw [if_neg hzero]
      have hq : m'.ppRef (pgnum (entryOf m pgdir va)) =
          m.ppRef (pgnum (entryOf m pgdir va)) - 1 := by
        rw [href, Function.update_self, hdec]
      refine ⟨by omega, ?_⟩
      rw [hq, hfree, hdec]

/-- Free pages have no references: then `page_remove` returns. -/
theorem WellFormed.pageRemove_returns (h : WellFormed m pgdir lim) (hva : pdx va < lim)
    (hunref : ∀ p ∈ m.pageFreeList, m.ppRef p = 0) : ∃ m', pageRemove m pgdir va = .ok m' := by
  by_cases hzero : entryOf m pgdir va = 0
  · exact ⟨m, h.toTables.pageRemove_zero hva hzero⟩
  · obtain ⟨hpos, hmax⟩ := h.ref_range hva hzero
    have hnot : pgnum (entryOf m pgdir va) ∉ m.pageFreeList := by
      intro hmem
      have := hunref _ hmem
      omega
    rw [h.toTables.pageRemove_eq hva hzero, pageDecref_eq hpos hmax hnot]
    exact ⟨_, rfl⟩

/-! ## `page_insert` -/

theorem page2pa_eq (pp : Nat) : page2pa pp = BitVec.ofNat 32 pp <<< 12 := by
  apply BitVec.eq_of_toNat_eq
  simp only [page2pa, BitVec.toNat_shiftLeft, BitVec.toNat_ofNat, Nat.shiftLeft_eq]
  omega

theorem getLsbD_of_perm (hperm : perm.toNat < 4096) {i : Nat} (hi : 12 ≤ i) :
    perm.getLsbD i = false := by
  rw [BitVec.getLsbD]
  have hpow : 4096 ≤ 2 ^ i := Nat.pow_le_pow_right (i := 12) Nat.two_pos hi
  exact Nat.testBit_lt_two_pow (Nat.lt_of_lt_of_le hperm hpow)

/-- The address part of the entry that `page_insert` stores. -/
theorem pgnum_inserted (hpp : pp < 1048576) (hperm : perm.toNat < 4096) :
    pgnum (page2pa pp ||| perm ||| pteP) = pp := by
  have hpres : ∀ i < 20, pteP.getLsbD (12 + i) = false := by decide
  have hshift : (page2pa pp ||| perm ||| pteP) >>> 12 = page2pa pp >>> 12 := by
    ext i hi
    rw [BitVec.getElem_ushiftRight, BitVec.getElem_ushiftRight, BitVec.getLsbD_or,
      BitVec.getLsbD_or, getLsbD_of_perm hperm (by omega), Bool.or_false]
    by_cases hlow : i < 20
    · rw [hpres i hlow, Bool.or_false]
    · rw [BitVec.getLsbD_of_ge _ (12 + i) (by omega), BitVec.getLsbD_of_ge _ (12 + i) (by omega),
        Bool.or_false]
  rw [pgnum_eq, hshift, ← pgnum_eq, pgnum_page2pa hpp]

/-- Its flags. -/
theorem flags_inserted (hperm : perm.toNat < 4096) :
    (page2pa pp ||| perm ||| pteP) &&& 0xFFF = perm ||| pteP := by
  have hmask : ∀ i < 32, (0xFFF : Word).getLsbD i = decide (i < 12) := by decide
  have hpres : ∀ i < 32, 12 ≤ i → pteP.getLsbD i = false := by decide
  apply BitVec.eq_of_getLsbD_eq
  intro i hi
  rw [BitVec.getLsbD_and, BitVec.getLsbD_or, BitVec.getLsbD_or, BitVec.getLsbD_or, hmask i hi,
    page2pa_eq, BitVec.getLsbD_shiftLeft]
  by_cases hlow : i < 12
  · simp [hlow]
  · rw [getLsbD_of_perm hperm (by omega), hpres i hi (by omega)]
    simp [hlow]

/-- The walk has ended at the entry, in `m₁`. -/
structure WalksTo (m m₁ : Pmap) (pgdir lim : Nat) (va : Word) : Prop where
  found : pgdirWalk m pgdir va = .ok (some ⟨pgnum (m₁.frames pgdir (pdx va)), ptx va⟩, m₁)
  pde : m₁.frames pgdir (pdx va) ≠ 0
  tables : Tables m₁ pgdir lim
  npages : m₁.npages = m.npages
  entries : ∀ va', pdx va' < lim → entryOf m₁ pgdir va' = entryOf m pgdir va'
  refs : ∀ p, p ∉ m.pageFreeList → m₁.ppRef p = m.ppRef p
  same : m.frames pgdir (pdx va) ≠ 0 → m₁ = m

/-- The walk finds no room for a page table, or it ends at the entry and
has changed none. -/
theorem WellFormed.pgdirWalk_cases (h : WellFormed m pgdir lim) (hva : pdx va < lim) :
    pgdirWalk m pgdir va = .ok (none, m) ∨ ∃ m₁, WalksTo m m₁ pgdir lim va := by
  by_cases hpde : m.frames pgdir (pdx va) = 0
  · cases hfree : m.pageFreeList with
    | nil =>
        have hcreate : Kern.pgdirCreate m pgdir va = m := by
          rw [Kern.pgdirCreate, if_pos hpde, pageAlloc, hfree]
        refine Or.inl ?_
        rw [pgdirWalk, hcreate, pgdirFind_zero hpde]
        rfl
    | cons t rest =>
        obtain ⟨h₁, hentry⟩ := h.pgdirCreate hpde hfree
        have hne : (Kern.pgdirCreate m pgdir va).frames pgdir (pdx va) ≠ 0 := by
          rw [pgdirCreate_frames hpde hfree, if_pos ⟨rfl, rfl⟩]
          exact pde_ne_zero t
        refine Or.inr ⟨Kern.pgdirCreate m pgdir va, ?_, hne, h₁, ?_, hentry, ?_,
          fun hc => absurd hpde hc⟩
        · rw [pgdirWalk, h₁.pgdirFind_eq hva hne]
          rfl
        · rw [Kern.pgdirCreate, if_pos hpde, pageAlloc_cons hfree]
          rfl
        · intro p hp
          have hpt : p ≠ t := by
            rintro rfl
            exact hp (by rw [hfree]; exact List.mem_cons_self)
          rw [Kern.pgdirCreate, if_pos hpde, pageAlloc_cons hfree]
          simp [Pmap.setWord, Pmap.incRef, Pmap.setRef, Pmap.taken, hpt]
  · have hcreate : Kern.pgdirCreate m pgdir va = m := by
      rw [Kern.pgdirCreate, if_neg hpde]
    refine Or.inr ⟨m, ?_, hpde, h.toTables, rfl, fun _ _ => rfl, fun _ _ => rfl, fun _ => rfl⟩
    rw [pgdirWalk, hcreate, h.toTables.pgdirFind_eq hva hpde]
    rfl

/-- What is left of `page_insert` after the walk. -/
theorem WalksTo.pageInsert_iff {m₁ : Pmap} (hw : WalksTo m m₁ pgdir lim va) {r : Int} :
    pageInsert m pgdir pp va perm = .ok (r, m') ↔
      r = 0 ∧ ∃ m₃, pageRemove (m₁.incRef pp) pgdir va = .ok m₃ ∧
        m' = m₃.setWord ⟨pgnum (m₁.frames pgdir (pdx va)), ptx va⟩
          (page2pa pp ||| perm ||| pteP) := by
  rw [pageInsert, hw.found]
  constructor
  · intro hins
    obtain ⟨_, hpair, hins⟩ := bind_ok.mp hins
    cases hpair
    obtain ⟨m₃, hrem, hins⟩ := bind_ok.mp hins
    cases hins
    exact ⟨rfl, m₃, hrem, rfl⟩
  · rintro ⟨rfl, m₃, hrem, rfl⟩
    refine bind_ok.mpr ⟨_, rfl, ?_⟩
    exact bind_ok.mpr ⟨m₃, hrem, rfl⟩

/-- A failed `page_insert` has changed nothing. -/
theorem WellFormed.pageInsert_noMem (h : WellFormed m pgdir lim) (hva : pdx va < lim)
    (hins : pageInsert m pgdir pp va perm = .ok (-eNoMem, m')) : m' = m := by
  rcases h.pgdirWalk_cases hva with hnone | ⟨m₁, hw⟩
  · rw [pageInsert, hnone] at hins
    cases hins
    rfl
  · exact absurd (hw.pageInsert_iff.mp hins).1 (by decide)

/-- A count that is raised and perhaps lowered again. -/
theorem u16Dec_succ {x : Nat} (hx : x < 65535) : u16Dec (x + 1) = x := by
  rw [u16Dec_eq (Nat.succ_pos x) (by omega)]
  rfl

theorem Recounted.congr {m'' : Pmap} {old : Option (Nat × Word)} (h : Recounted m m' pp old)
    (href : m''.ppRef = m'.ppRef) (hlist : m''.pageFreeList = m'.pageFreeList) :
    Recounted m m'' pp old := by
  cases old with
  | none => simpa [Recounted, href] using h
  | some q => simpa [Recounted, href, hlist] using h

/-- The counts after the page that was mapped at `va` has been removed. -/
theorem WalksTo.recounted {m₁ m₃ : Pmap} (hw : WalksTo m m₁ pgdir lim va)
    (h : WellFormed m pgdir lim) (hva : pdx va < lim) (hnot : pp ∉ m.pageFreeList)
    (href : m.ppRef pp < 65535) (hrem : pageRemove (m₁.incRef pp) pgdir va = .ok m₃) :
    Recounted m m₃ pp (if entryOf m pgdir va = 0 then none
      else some (pgnum (entryOf m pgdir va), entryOf m pgdir va &&& 0xFFF)) := by
  have h₂ : Tables (m₁.incRef pp) pgdir lim := hw.tables.congr rfl rfl
  have hcount : (m₁.incRef pp).ppRef pp = m.ppRef pp + 1 := by
    simp only [Pmap.incRef, Pmap.setRef, Function.update_self]
    rw [hw.refs pp hnot, u16_succ href]
  have hentry : entryOf (m₁.incRef pp) pgdir va = entryOf m pgdir va := hw.entries va hva
  by_cases hzero : entryOf m pgdir va = 0
  · rw [h₂.pageRemove_zero hva (hentry.trans hzero)] at hrem
    cases hrem
    rw [if_pos hzero]
    exact hcount
  · have heq : m₁ = m := hw.same (pde_of_entryOf hzero)
    subst heq
    obtain ⟨hpos, hmax⟩ := h.ref_range hva hzero
    obtain ⟨hrefs, hlist⟩ := h₂.pageRemove_counts hva (hentry ▸ hzero) hrem
    rw [hentry] at hrefs hlist
    rw [if_neg hzero]
    show if _ then _ else _
    by_cases hq : pgnum (entryOf m₁ pgdir va) = pp
    · -- the page is taken off its own entry: up by one, down by one
      rw [hq] at hpos hrefs hlist
      rw [hcount, u16Dec_succ href] at hrefs hlist
      rw [if_neg (by omega)] at hlist
      rw [if_pos hq]
      refine ⟨?_, ?_⟩
      · rw [hrefs, Function.update_self]
      · rw [hlist]
        exact hnot
    · have hold : (m₁.incRef pp).ppRef (pgnum (entryOf m₁ pgdir va)) =
          m₁.ppRef (pgnum (entryOf m₁ pgdir va)) := by
        simp [Pmap.incRef, Pmap.setRef, hq]
      rw [hold, u16Dec_eq hpos hmax] at hrefs
      rw [if_neg hq]
      refine ⟨?_, ?_⟩
      · rw [hrefs, Function.update_of_ne (Ne.symm hq), hcount]
      · rw [hrefs, Function.update_self]
        omega

theorem WellFormed.mapsPage (h : WellFormed m pgdir lim) (hva : pdx va < lim)
    (hpp : pp < m.npages) (hnot : pp ∉ m.pageFreeList) (hperm : perm.toNat < 4096)
    (href : m.ppRef pp < 65535) (hins : pageInsert m pgdir pp va perm = .ok (0, m')) :
    MapsPage m m' pgdir lim pp va perm := by
  rcases h.pgdirWalk_cases hva with hnone | ⟨m₁, hw⟩
  · rw [pageInsert, hnone] at hins
    cases hins
  · obtain ⟨-, m₃, hrem, rfl⟩ := hw.pageInsert_iff.mp hins
    have h₂ : Tables (m₁.incRef pp) pgdir lim := hw.tables.congr rfl rfl
    obtain ⟨h₃, hnpages₃, hentry₃, hdir⟩ := h₂.pageRemove_tables hva hrem
    have hdir₁ : m₃.frames pgdir (pdx va) = m₁.frames pgdir (pdx va) := hdir _
    have hpde₃ : m₃.frames pgdir (pdx va) ≠ 0 := by
      rw [hdir₁]
      exact hw.pde
    have hnum := pgnum_inserted (Nat.lt_of_lt_of_le hpp h.npages) hperm
    have hne : page2pa pp ||| perm ||| pteP ≠ 0 := by
      intro hzero
      have hpres := or_pteP_present (page2pa pp ||| perm)
      rw [hzero] at hpres
      exact hpres rfl
    have hlt : pgnum (page2pa pp ||| perm ||| pteP) < m₃.npages := by
      have : m₃.npages = m.npages := hnpages₃.trans hw.npages
      rw [hnum, this]
      exact hpp
    rw [← hdir₁]
    have h' := h₃.setWord hva hpde₃ (w := page2pa pp ||| perm ||| pteP) (fun _ => hlt)
    refine ⟨?_, ?_, _, h.toTables.lookup_eq hva, ?_⟩
    · rw [h'.lookup_eq hva, h₃.entryOf_setWord hva hpde₃ hva, if_pos rfl, if_neg hne, hnum,
        flags_inserted hperm]
    · intro va' hva' hother
      refine lookup_congr h.toTables h' hva' ?_
      rw [h₃.entryOf_setWord hva hpde₃ hva', if_neg hother, hentry₃ va' hva', if_neg hother]
      exact hw.entries va' hva'
    · exact (hw.recounted h hva hnot href hrem).congr rfl rfl

/-- Free pages have no references: then `page_insert` returns too. -/
theorem WellFormed.pageInsert_returns (h : WellFormed m pgdir lim) (hva : pdx va < lim)
    (href : m.ppRef pp < 65535) (hunref : ∀ p ∈ m.pageFreeList, m.ppRef p = 0) :
    ∃ r m', pageInsert m pgdir pp va perm = .ok (r, m') ∧ (r = 0 ∨ r = -eNoMem) := by
  rcases h.pgdirWalk_cases hva with hnone | ⟨m₁, hw⟩
  · refine ⟨-eNoMem, m, ?_, Or.inr rfl⟩
    rw [pageInsert, hnone]
    rfl
  · have hremove : ∃ m₃, pageRemove (m₁.incRef pp) pgdir va = .ok m₃ := by
      have h₂ : Tables (m₁.incRef pp) pgdir lim := hw.tables.congr rfl rfl
      have hentry : entryOf (m₁.incRef pp) pgdir va = entryOf m pgdir va := hw.entries va hva
      by_cases hzero : entryOf m pgdir va = 0
      · exact ⟨_, h₂.pageRemove_zero hva (hentry.trans hzero)⟩
      · have heq : m₁ = m := hw.same (pde_of_entryOf hzero)
        subst heq
        obtain ⟨hpos, hmax⟩ := h.ref_range hva hzero
        have hnot : pgnum (entryOf m₁ pgdir va) ∉ m₁.pageFreeList := by
          intro hmem
          have := hunref _ hmem
          omega
        have hrange : 0 < (m₁.incRef pp).ppRef (pgnum (entryOf m₁ pgdir va)) ∧
            (m₁.incRef pp).ppRef (pgnum (entryOf m₁ pgdir va)) < 65536 := by
          simp only [Pmap.incRef, Pmap.setRef, Function.update_apply, u16_succ href]
          split <;> omega
        rw [h₂.pageRemove_eq hva (hentry ▸ hzero), hentry,
          pageDecref_eq hrange.1 hrange.2 hnot]
        exact ⟨_, rfl⟩
    obtain ⟨m₃, hrem⟩ := hremove
    exact ⟨0, _, hw.pageInsert_iff.mpr ⟨rfl, m₃, hrem, rfl⟩, Or.inl rfl⟩

/-- **Page tables are a map.** What `page_insert` and `page_remove` do to
the lookups, the counts and the free list; a failed insertion does
nothing. -/
theorem page_tables_map (h : WellFormed m pgdir lim) (hlim : userPdes ≤ lim)
    (hpp : pp < m.npages) (hnot : pp ∉ m.pageFreeList) (hva : userPage va = true)
    (hperm : perm.toNat < 4096) (href : m.ppRef pp < 65535) :
    (∀ m', pageInsert m pgdir pp va perm = .ok (0, m') →
      MapsPage m m' pgdir lim pp va perm) ∧
    (∀ m', pageInsert m pgdir pp va perm = .ok (-eNoMem, m') → m' = m) ∧
    (∀ m', pageRemove m pgdir va = .ok m' → UnmapsPage m m' pgdir lim va) ∧
    ((∀ p ∈ m.pageFreeList, m.ppRef p = 0) →
      (∃ r m', pageInsert m pgdir pp va perm = .ok (r, m') ∧ (r = 0 ∨ r = -eNoMem)) ∧
      ∃ m', pageRemove m pgdir va = .ok m') := by
  have hlt : pdx va < lim := Nat.lt_of_lt_of_le (pdx_lt hva) hlim
  refine ⟨?_, ?_, ?_, ?_⟩
  · intro m' hins
    exact h.mapsPage hlt hpp hnot hperm href hins
  · intro m' hins
    exact h.pageInsert_noMem hlt hins
  · intro m' hrem
    exact h.unmapsPage hlt hrem
  · intro hunref
    exact ⟨h.pageInsert_returns hlt href hunref, h.pageRemove_returns hlt hunref⟩

/-- A directory without page tables, at page 1, and one free page. -/
def emptyDirectory : Pmap where
  npages := 4
  kernPgdir := 0
  frames _ _ := 0
  ppRef p := if p = 1 then 1 else 0
  pageFreeList := [2]

theorem emptyDirectory_wellFormed : WellFormed emptyDirectory 1 nptentries where
  table i _ hne := absurd rfl hne
  distinct i _ i' _ hne := absurd rfl hne
  entry i _ hne := absurd rfl hne
  npages := by decide
  freePage := by decide
  dirInUse := by decide
  tableInUse i _ hne := absurd rfl hne
  present i _ hne := absurd rfl hne
  counted i _ hne := absurd rfl hne

/-- The first insertion makes page 2 a page table. -/
theorem page_tables_map_first : ∃ m', pageInsert emptyDirectory 1 3 0x1000 pteU = .ok (0, m') ∧
    MapsPage emptyDirectory m' 1 nptentries 3 0x1000 pteU := by
  have hpage : 3 < emptyDirectory.npages := by decide
  have hva : userPage 0x1000 = true := by decide
  have hperm : pteU.toNat < 4096 := by decide
  obtain ⟨hins, -, -, -⟩ := page_tables_map emptyDirectory_wellFormed (by decide) hpage
    (by decide) hva hperm (by decide)
  obtain ⟨⟨r, m'⟩, heq, hr⟩ := eval_ok (x := pageInsert emptyDirectory 1 3 0x1000 pteU)
    (f := Prod.fst) (v := (0 : Int)) (by decide +kernel)
  cases hr
  exact ⟨m', heq, hins m' heq⟩

/-! ## The directories of a kernel in order -/

/-- The directory of a live environment is well formed up to `UTOP`. -/
theorem KernelInv.wellFormed {M : Nat → Prop} {k : Kernel} {e : EnvIdx} (h : KernelInv M k)
    (hlive : (k.envs e).envStatus ≠ .free) {d : Nat} (hd : (k.envs e).envPgdir = some d) :
    WellFormed k.mem d userPdes := by
  have hroot : liveRoot k e = some d := by
    rw [liveRoot_of_live hlive, hd]
  have htarget : ∀ i (hi : i < userPdes), k.mem.frames d i ≠ 0 →
      target (liveRoot k) k.mem (.pde e ⟨i, hi⟩) = some (pgnum (k.mem.frames d i)) := by
    intro i hi hne
    rcases h.mem.pde e d ⟨i, hi⟩ hroot with hzero | hp
    · exact absurd hzero hne
    · rw [target_pde hroot, entryPage, if_neg hp]
  have hentry : ∀ i (hi : i < userPdes), k.mem.frames d i ≠ 0 → ∀ j (hj : j < nptentries),
      k.mem.frames (pgnum (k.mem.frames d i)) j ≠ 0 →
        k.mem.frames (pgnum (k.mem.frames d i)) j &&& pteP ≠ 0 ∧
        target (liveRoot k) k.mem (.pte e ⟨i, hi⟩ ⟨j, hj⟩) =
          some (pgnum (k.mem.frames (pgnum (k.mem.frames d i)) j)) := by
    intro i hi hne j hj hne'
    have ht := htarget i hi hne
    rcases h.mem.pte e ⟨i, hi⟩ _ ⟨j, hj⟩ ht with hzero | hp
    · exact absurd hzero hne'
    · refine ⟨hp, ?_⟩
      rw [target_pte_some ht, entryPage, if_neg hp]
  refine ⟨⟨?_, ?_, ?_⟩, h.mem.npages, ?_, ?_, ?_, ?_, ?_⟩
  · intro i hi hne
    refine ⟨(h.mem.small _ (h.mem.managed (htarget i hi hne))).1, ?_⟩
    intro heq
    have ht := htarget i hi hne
    rw [heq] at ht
    cases h.mem.table_eq (s := .pgdir e) trivial hroot ht
  · intro i hi i' hi' hne hne' heq
    have ht := htarget i hi hne
    rw [heq] at ht
    cases h.mem.table_eq (s := .pde e ⟨i', hi'⟩) trivial (htarget i' hi' hne') ht
    rfl
  · intro i hi hne j hj hne'
    exact (h.mem.small _ (h.mem.managed (hentry i hi hne j hj hne').2)).1
  · intro p hp
    exact (h.mem.small p (h.mem.sound.free p hp).1).1
  · exact h.mem.notMem_free (s := .pgdir e) hroot
  · intro i hi hne
    exact h.mem.notMem_free (htarget i hi hne)
  · intro i hi hne j hj hne'
    exact (hentry i hi hne j hj hne').1
  · intro i hi hne j hj hne'
    have ht := (hentry i hi hne j hj hne').2
    exact ⟨h.mem.sound.ref_pos (s := Slot.pte e ⟨i, hi⟩ ⟨j, hj⟩) ht,
      h.mem.bound _ (h.mem.managed ht)⟩

/-! ## A failed `sys_page_alloc` -/

/-- The allocator and the address spaces are as they were. -/
structure SamePages (k k' : Kernel) : Prop where
  free : ∀ p, p ∈ k'.mem.pageFreeList ↔ p ∈ k.mem.pageFreeList
  refs : k'.mem.ppRef = k.mem.ppRef
  entries : ∀ e va, userEntry k' e va = userEntry k e va

theorem SamePages.refl (k : Kernel) : SamePages k k :=
  ⟨fun _ => Iff.rfl, rfl, fun _ _ => rfl⟩

/-- A call that fails leaves nothing behind. -/
def FailsClean (k : Kernel) (cur : EnvIdx) (envid : Int) (va perm : Word) : Prop :=
  ∀ r k', sysPageAlloc k cur envid va perm = .ok (r, k') → r < 0 → SamePages k k'

/-- The arguments pass every test, one page is free, and the address has
no page table yet (or the directory itself is that free page). -/
structure OnePageShort (k : Kernel) (cur : EnvIdx) (envid : Int) (va perm : Word)
    (e : EnvIdx) (d pp : Nat) : Prop where
  page : userPage va = true
  env : envid2env k cur envid true = some e
  perm : 0 ≤ checkPerm (perm ||| pteU ||| pteP) none
  pgdir : (k.envs e).envPgdir = some d
  free : k.mem.pageFreeList = [pp]
  table : k.mem.frames d (pdx va) = 0 ∨ d = pp

/-- `page_insert` fails for want of a page table only, and stores nothing
then. -/
theorem pageInsert_neg {r : Int} (hins : pageInsert m pgdir pp va perm = .ok (r, m'))
    (hr : r < 0) : m' = m ∧ m.frames pgdir (pdx va) = 0 ∧ m.pageFreeList = [] := by
  rw [pageInsert, bind_ok] at hins
  obtain ⟨⟨found, m₁⟩, hwalk, hins⟩ := hins
  cases found with
  | some pte =>
      dsimp only at hins
      rw [bind_ok] at hins
      obtain ⟨_, -, hins⟩ := hins
      cases hins
      exact absurd hr (by decide)
  | none =>
      cases hins
      rw [pgdirWalk, bind_ok] at hwalk
      obtain ⟨found, hfind, hwalk⟩ := hwalk
      cases hwalk
      have hnone : (Kern.pgdirCreate m pgdir va).frames pgdir (pdx va) = 0 := by
        by_contra hne
        rw [pgdirFind] at hfind
        simp only [hne, ne_eq, not_false_eq_true, if_true, bind_ok] at hfind
        obtain ⟨_, -, hfind⟩ := hfind
        cases hfind
      by_cases hpde : m.frames pgdir (pdx va) = 0
      · cases hfree : m.pageFreeList with
        | nil =>
            refine ⟨?_, hpde, rfl⟩
            rw [Kern.pgdirCreate, if_pos hpde, pageAlloc, hfree]
        | cons t rest =>
            rw [pgdirCreate_frames hpde hfree, if_pos ⟨rfl, rfl⟩] at hnone
            exact absurd hnone (pde_ne_zero t)
      · rw [Kern.pgdirCreate, if_neg hpde] at hnone
        exact absurd hnone hpde

theorem pageInsert_full (hpde : m.frames pgdir (pdx va) = 0) (hfree : m.pageFreeList = []) :
    pageInsert m pgdir pp va perm = .ok (-eNoMem, m) := by
  have hcreate : Kern.pgdirCreate m pgdir va = m := by
    rw [Kern.pgdirCreate, if_pos hpde, pageAlloc, hfree]
  rw [pageInsert, pgdirWalk, hcreate, pgdirFind_zero hpde]
  rfl

/-- A taken page is zeroed: the directory has no entry for `va` then. -/
theorem frames_taken_eq_zero {t : Nat} {rest : List Nat} :
    (m.taken t rest).frames pgdir (pdx va) = 0 ↔ m.frames pgdir (pdx va) = 0 ∨ pgdir = t := by
  by_cases heq : pgdir = t
  · subst heq
    simp [Pmap.taken]
  · simp [Pmap.taken, heq]

variable {k k' : Kernel} {cur e : EnvIdx} {envid : Int}

/-- The call once the address and the environment are accepted. -/
theorem sysPageAlloc_eq (hva : userPage va = true) (henv : envid2env k cur envid true = some e) :
    sysPageAlloc k cur envid va perm = envPageAlloc k e va (perm ||| pteU ||| pteP) := by
  rw [sysPageAlloc, if_neg (by simp [hva]), henv]

/-- A failure that is not clean has taken the only free page. -/
theorem short_of_failed {r : Int} (hcall : sysPageAlloc k cur envid va perm = .ok (r, k'))
    (hr : r < 0) : k' = k ∨ ∃ e d pp, OnePageShort k cur envid va perm e d pp := by
  by_cases hva : userPage va = true
  swap
  · rw [sysPageAlloc, if_pos hva] at hcall
    cases hcall
    exact Or.inl rfl
  cases henv : envid2env k cur envid true with
  | none =>
      rw [sysPageAlloc, if_neg (by simp [hva]), henv] at hcall
      cases hcall
      exact Or.inl rfl
  | some e =>
      rw [sysPageAlloc_eq hva henv, envPageAlloc] at hcall
      by_cases hperm : checkPerm (perm ||| pteU ||| pteP) none < 0
      · rw [if_pos hperm] at hcall
        cases hcall
        exact Or.inl rfl
      · rw [if_neg hperm] at hcall
        cases hfree : k.mem.pageFreeList with
        | nil =>
            rw [pageAlloc, hfree] at hcall
            cases hcall
            exact Or.inl rfl
        | cons pp rest =>
            rw [pageAlloc_cons hfree] at hcall
            dsimp only at hcall
            rw [bind_ok] at hcall
            obtain ⟨d, hd, hcall⟩ := hcall
            rw [bind_ok] at hcall
            obtain ⟨⟨r', mem⟩, hins, hcall⟩ := hcall
            cases hcall
            obtain ⟨-, hpde, hrest⟩ := pageInsert_neg hins hr
            have hnil : rest = [] := hrest
            refine Or.inr ⟨e, d, pp, hva, henv, Int.not_lt.mp hperm, pgdirOf_ok hd, ?_,
              frames_taken_eq_zero.mp hpde⟩
            rw [hfree, hnil]

/-- In that case the page is on no list any more. -/
theorem OnePageShort.leaks {d pp : Nat} (h : OnePageShort k cur envid va perm e d pp) :
    ∃ k', sysPageAlloc k cur envid va perm = .ok (-eNoMem, k') ∧ k'.mem.pageFreeList = [] := by
  refine ⟨{ k with mem := k.mem.taken pp [] }, ?_, rfl⟩
  rw [sysPageAlloc_eq h.page h.env, envPageAlloc, if_neg (Int.not_lt.mpr h.perm),
    pageAlloc_cons h.free]
  dsimp only
  rw [pgdirOf_eq h.pgdir, bind_ok]
  refine ⟨d, rfl, ?_⟩
  rw [pageInsert_full (frames_taken_eq_zero.mpr h.table) rfl]
  rfl

/-- **A failed `sys_page_alloc` leaks** exactly when it finds one free page
and needs two. -/
theorem sysPageAlloc_failsClean_iff (k : Kernel) (cur : EnvIdx) (envid : Int) (va perm : Word) :
    FailsClean k cur envid va perm ↔ ∀ e d pp, ¬ OnePageShort k cur envid va perm e d pp := by
  constructor
  · intro hclean e d pp hshort
    obtain ⟨k', hcall, hempty⟩ := hshort.leaks
    have hsame := (hclean _ _ hcall (by decide)).free pp
    rw [hempty, hshort.free] at hsame
    simp at hsame
  · intro hnone r k' hcall hr
    rcases short_of_failed hcall hr with rfl | ⟨e, d, pp, hshort⟩
    · exact SamePages.refl _
    · exact absurd hshort (hnone e d pp)

/-- Environment 0 is alone, its directory has no page table, and one page
is free. -/
def onePageLeft : Kernel where
  envs e := if e = 0 then { envId := 4096, envStatus := .running, envPgdir := some 1 } else {}
  envFreeList := (List.finRange nenv).drop 1
  mem := emptyDirectory

/-- The call says that there is no memory, and the page is gone. -/
theorem free_page_lost : ∃ k',
    sysPageAlloc onePageLeft 0 0 0x1000 pteW = .ok (-eNoMem, k') ∧
    onePageLeft.mem.pageFreeList = [2] ∧ k'.mem.pageFreeList = [] ∧
    ¬ FailsClean onePageLeft 0 0 0x1000 pteW := by
  have hshort : OnePageShort onePageLeft 0 0 0x1000 pteW 0 1 2 :=
    ⟨by decide, rfl, by decide, rfl, rfl, Or.inl rfl⟩
  obtain ⟨k', hcall, hempty⟩ := hshort.leaks
  refine ⟨k', hcall, rfl, hempty, ?_⟩
  intro hclean
  have hsame := (hclean _ _ hcall (by decide)).free 2
  rw [hempty] at hsame
  exact absurd (hsame.mpr (by decide)) (by decide)

end SistemasOperativos.Kern
