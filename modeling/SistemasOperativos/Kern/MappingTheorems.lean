/-
SistemasOperativos.Kern.MappingTheorems — what `sys_page_alloc` and
`sys_page_map` write into a page table.

`sys_page_alloc` checks the permissions; `sys_page_map` only looks at
`PTE_W`, and `page_insert` ORs all 32 bits of `perm` into the entry. So
what it writes is the address of the source page with permitted bits if
and only if the other bits of `perm` are in that address already. With a
higher bit an environment maps a page that nobody gave it, as the last
result shows.
-/
import SistemasOperativos.Kern.RefcountTheorems

namespace SistemasOperativos.Kern

/-! ## The specification -/

/-- `f` is made of bits a system call may set, with `PTE_P` and `PTE_U`
among them. -/
structure UserBits (f : Word) : Prop where
  syscall : f &&& ~~~pteSyscall = 0
  present : f &&& pteP ≠ 0
  user : f &&& pteU ≠ 0

/-- A `sys_page_alloc` that has returned 0 has written the address of the
first free page, with permitted bits, at the destination. -/
def AllocConfined (k : Kernel) (curenv : EnvIdx) (envid : Int) (va : Word) (k' : Kernel) : Prop :=
  ∃ e pgdir pp rest pte m f, envid2env k curenv envid true = some e ∧
    (k.envs e).envPgdir = some pgdir ∧ k.mem.pageFreeList = pp :: rest ∧
    pgdirWalk (k.mem.taken pp rest) pgdir va = .ok (some pte, m) ∧
    k'.mem.word pte = page2pa pp ||| f ∧ UserBits f

/-- A `sys_page_map` that has returned 0 has written the address of the
page at the source, with permitted bits, at the destination; it is
writable only if the source is. -/
def MapConfined (k : Kernel) (curenv : EnvIdx) (srcenvid : Int) (srcva : Word) (dstenvid : Int)
    (dstva : Word) (k' : Kernel) : Prop :=
  ∃ src dst srcdir dstdir page srcpte pte m f, envid2env k curenv srcenvid true = some src ∧
    envid2env k curenv dstenvid true = some dst ∧
    (k.envs src).envPgdir = some srcdir ∧ (k.envs dst).envPgdir = some dstdir ∧
    pageLookup k.mem srcdir srcva = .ok (some (page, srcpte)) ∧
    pgdirWalk k.mem dstdir dstva = .ok (some pte, m) ∧
    k'.mem.word pte = page2pa page ||| f ∧ UserBits f ∧
    (f &&& pteW ≠ 0 → k.mem.word srcpte &&& pteW ≠ 0)

/-- The pages given to each environment, after one more operation. A slot
that is freed starts again. -/
def grantedAfter (k : Kernel) (op : PageOp) (given : EnvIdx → Nat → Prop) (e : EnvIdx) (p : Nat) :
    Prop :=
  grant k op = some (e, p) ∨ given e p ∧ op ≠ .envFree e

/-- The runs all of whose steps meet `P`, with the pages each environment
has been given: allocated to it, or shared with it. -/
inductive GrantRun (P : Kernel → PageOp → Prop) (k₀ : Kernel) :
    Kernel → (EnvIdx → Nat → Prop) → Prop where
  | start : GrantRun P k₀ k₀ (fun _ _ => False)
  | step {k k' : Kernel} {given : EnvIdx → Nat → Prop} {op : PageOp} :
      GrantRun P k₀ k given → op.Live k → P k op → pageStep k op = .ok k' →
      GrantRun P k₀ k' (grantedAfter k op given)

/-- Every page that an environment has mapped was given to it. -/
def OnlyGiven (k : Kernel) (given : EnvIdx → Nat → Prop) : Prop :=
  ∀ e i j p, target (liveRoot k) k.mem (.pte e i j) = some p → given e p

/-- The permissions are harmless and no count wraps. -/
def ConfinedStep (k : Kernel) (op : PageOp) : Prop := op.HarmlessPerm k ∧ op.RoomForRef k

/-! ## The entry that is written -/

variable {k k' : Kernel} {curenv : EnvIdx} {va perm : Word}

/-- `page_insert` ends by writing the entry that the walk found. -/
theorem pageInsert_ok {m m' : Pmap} {pgdir pp : Nat} {r : Int}
    (h : pageInsert m pgdir pp va perm = .ok (r, m')) (hr : r = 0) :
    ∃ pte m₁, pgdirWalk m pgdir va = .ok (some pte, m₁) ∧
      m'.word pte = page2pa pp ||| perm ||| pteP := by
  unfold pageInsert at h
  rw [bind_ok] at h
  obtain ⟨⟨found, m₁⟩, hwalk, h⟩ := h
  cases found with
  | none =>
      cases h
      exact absurd hr (by decide)
  | some pte =>
      dsimp only at h
      rw [bind_ok] at h
      obtain ⟨m₂, -, h⟩ := h
      cases h
      refine ⟨pte, m₁, hwalk, ?_⟩
      rw [Pmap.word, setWord_frames]
      exact if_pos ⟨rfl, rfl⟩

theorem and_or_absorb (a b d : Word) (h : b &&& d = d) : a ||| b ||| d = a ||| b := by
  ext i hi
  have hbit := congrArg (fun w : Word => w[i]) h
  simp only [BitVec.getElem_and, BitVec.getElem_or] at hbit ⊢
  cases hd : d[i] with
  | false => rw [Bool.or_false]
  | true =>
      rw [hd, Bool.and_true] at hbit
      rw [hbit, Bool.or_true, Bool.or_true]

theorem userBits_present {f : Word} : (f ||| pteU ||| pteP) &&& pteP = pteP := by
  ext i hi
  simp only [BitVec.getElem_and, BitVec.getElem_or]
  cases pteP[i] <;> simp

theorem pgdirOf_ok {e : EnvIdx} {pgdir : Nat} (h : pgdirOf k e = .ok pgdir) :
    (k.envs e).envPgdir = some pgdir := by
  unfold pgdirOf at h
  split at h
  · cases h
  · rename_i heq
    cases h
    exact heq

theorem sysPageAlloc_confined {envid : Int}
    (h : sysPageAlloc k curenv envid va perm = .ok (0, k')) :
    AllocConfined k curenv envid va k' := by
  unfold sysPageAlloc at h
  split at h
  · cases h
  · split at h
    · cases h
    · rename_i e he
      unfold envPageAlloc at h
      split at h
      · rename_i hneg
        have hzero := (Prod.mk.inj (pure_ok.mp h)).1
        rw [hzero] at hneg
        exact absurd hneg (by decide)
      · rename_i hperm
        cases hfree : k.mem.pageFreeList with
        | nil =>
            rw [pageAlloc, hfree] at h
            cases h
        | cons pp rest =>
            rw [pageAlloc_cons hfree] at h
            simp only [bind_ok, pure_ok] at h
            obtain ⟨pgdir, hpgdir, ⟨r, m'⟩, hins, heq⟩ := h
            cases heq
            obtain ⟨pte, m, hwalk, hword⟩ := pageInsert_ok hins rfl
            obtain ⟨hsys, hp, hu⟩ := checkPerm_ok hperm
            refine ⟨e, pgdir, pp, rest, pte, m, perm ||| pteU ||| pteP, he, pgdirOf_ok hpgdir,
              hfree, hwalk, ?_, hsys, hp, hu⟩
            rw [← and_or_absorb (page2pa pp) _ pteP userBits_present]
            exact hword

/-- The two bits `sys_page_map` adds are there. -/
theorem userPerm_bits (perm : Word) :
    (pteP ||| pteU ||| perm) &&& pteP = pteP ∧ (pteP ||| pteU ||| perm) &&& pteU = pteU := by
  constructor
  · ext i hi
    simp only [BitVec.getElem_and, BitVec.getElem_or]
    cases pteP[i] <;> simp
  · ext i hi
    simp only [BitVec.getElem_and, BitVec.getElem_or]
    cases pteU[i] <;> simp

/-- What a `sys_page_map` that has returned 0 has done. -/
theorem sysPageMap_ok {srcenvid dstenvid : Int} {srcva dstva : Word}
    (h : sysPageMap k curenv srcenvid srcva dstenvid dstva perm = .ok (0, k')) :
    ∃ src dst srcdir dstdir page srcpte pte m, envid2env k curenv srcenvid true = some src ∧
      envid2env k curenv dstenvid true = some dst ∧
      (k.envs src).envPgdir = some srcdir ∧ (k.envs dst).envPgdir = some dstdir ∧
      pageLookup k.mem srcdir srcva = .ok (some (page, srcpte)) ∧
      pgdirWalk k.mem dstdir dstva = .ok (some pte, m) ∧
      ((pteP ||| pteU ||| perm) &&& pteW) &&& ~~~(pteW &&& k.mem.word srcpte) = 0 ∧
      k'.mem.word pte = page2pa page ||| (pteP ||| pteU ||| perm) := by
  unfold sysPageMap at h
  split at h
  · cases h
  · split at h
    · cases h
    · split at h
      · cases h
      · rename_i src hsrc
        split at h
        · cases h
        · rename_i dst hdst
          unfold envPageMap at h
          simp only [bind_ok] at h
          obtain ⟨srcdir, hsrcdir, found, hlookup, h⟩ := h
          cases found with
          | none => cases h
          | some x =>
              obtain ⟨page, srcpte⟩ := x
              dsimp only at h
              split at h
              · cases h
              · rename_i hw
                simp only [bind_ok, pure_ok] at h
                obtain ⟨dstdir, hdstdir, ⟨r, m'⟩, hins, heq⟩ := h
                cases heq
                obtain ⟨pte, m, hwalk, hword⟩ := pageInsert_ok hins rfl
                refine ⟨src, dst, srcdir, dstdir, page, srcpte, pte, m, hsrc, hdst,
                  pgdirOf_ok hsrcdir, pgdirOf_ok hdstdir, hlookup, hwalk, not_not.mp hw, ?_⟩
                rw [← and_or_absorb (page2pa page) _ pteP (userPerm_bits perm).1]
                exact hword

/-! ## Bits -/

section Bits

variable (a b s : Word)

/-- What lies outside `s` in `b` is in `a`, if some part of `s` would do in
its place. -/
theorem outside_of_or_eq {f : Word} (hf : f &&& ~~~s = 0) (h : a ||| b = a ||| f) :
    b &&& ~~~s &&& ~~~a = 0 := by
  ext i hi
  have hword := congrArg (fun w : Word => w[i]) h
  have hbit := congrArg (fun w : Word => w[i]) hf
  simp only [BitVec.getElem_or, BitVec.getElem_and, BitVec.getElem_not] at hword hbit ⊢
  cases ha : a[i] <;> cases hb : b[i] <;> cases hs : s[i] <;> simp_all

theorem or_eq_of_outside (h : b &&& ~~~s &&& ~~~a = 0) : a ||| b = a ||| b &&& s := by
  ext i hi
  have hbit := congrArg (fun w : Word => w[i]) h
  simp only [BitVec.getElem_or, BitVec.getElem_and, BitVec.getElem_not] at hbit ⊢
  cases ha : a[i] <;> cases hb : b[i] <;> cases hs : s[i] <;> simp_all

theorem and_and_not_self : b &&& s &&& ~~~s = 0 := by
  ext i hi
  simp only [BitVec.getElem_and, BitVec.getElem_not]
  cases s[i] <;> simp

end Bits

/-- The permitted part of what a `sys_page_map` writes. -/
theorem userBits_of_userPerm (perm : Word) :
    UserBits ((pteP ||| pteU ||| perm) &&& pteSyscall) where
  syscall := and_and_not_self _ _
  present := by
    rw [BitVec.and_assoc, show pteSyscall &&& pteP = pteP by decide, (userPerm_bits perm).1]
    decide
  user := by
    rw [BitVec.and_assoc, show pteSyscall &&& pteU = pteU by decide, (userPerm_bits perm).2]
    decide

/-- The test of `env_page_map`: a writable mapping has a writable source. -/
theorem writable_of_test {x w : Word} (h : (x &&& pteW) &&& ~~~(pteW &&& w) = 0)
    (hx : x &&& pteSyscall &&& pteW ≠ 0) : w &&& pteW ≠ 0 := by
  intro hzero
  refine hx ?_
  rw [BitVec.and_comm] at hzero
  rw [hzero] at h
  rw [BitVec.and_assoc, show pteSyscall &&& pteW = pteW by decide]
  exact (BitVec.and_allOnes (x := x &&& pteW)).symm.trans h

/-! ## The two calls -/

/-- `sys_page_map` confines its mapping if and only if the other bits of
`perm` are bits of the page's address. -/
theorem mapConfined_iff {srcenvid dstenvid : Int} {srcva dstva : Word}
    (h : sysPageMap k curenv srcenvid srcva dstenvid dstva perm = .ok (0, k')) :
    MapConfined k curenv srcenvid srcva dstenvid dstva k' ↔
      PageOp.HarmlessPerm k (.pageMap curenv srcenvid srcva dstenvid dstva perm) := by
  obtain ⟨src, dst, srcdir, dstdir, page, srcpte, pte, m, hsrc, hdst, hsd, hdd, hlookup, hwalk, hw,
    hword⟩ := sysPageMap_ok h
  have hpage : sourcePage k (.pageMap curenv srcenvid srcva dstenvid dstva perm) = some page := by
    rw [sourcePage, hsrc]
    dsimp only
    rw [hsd]
    dsimp only
    rw [hlookup]
  constructor
  · rintro ⟨src', dst', srcdir', dstdir', page', srcpte', pte', m', f, hsrc', hdst', hsd', hdd',
      hlookup', hwalk', hword', hf, -⟩ q hq
    rw [hpage] at hq
    cases hq
    rw [hsrc] at hsrc'
    cases hsrc'
    rw [hdst] at hdst'
    cases hdst'
    rw [hsd] at hsd'
    cases hsd'
    rw [hdd] at hdd'
    cases hdd'
    rw [hlookup] at hlookup'
    cases hlookup'
    rw [hwalk] at hwalk'
    cases hwalk'
    rw [hword] at hword'
    exact harmless_userPerm.mp (outside_of_or_eq _ _ _ hf.syscall hword')
  · intro hharm
    refine ⟨src, dst, srcdir, dstdir, page, srcpte, pte, m,
      (pteP ||| pteU ||| perm) &&& pteSyscall, hsrc, hdst, hsd, hdd, hlookup, hwalk, ?_,
      userBits_of_userPerm perm, writable_of_test hw⟩
    rw [hword]
    exact or_eq_of_outside _ _ _ (harmless_userPerm.mpr (hharm page hpage))

/-! ## Runs -/

theorem onlyGiven_of_run {k₀ : Kernel} {given : EnvIdx → Nat → Prop} (h₀ : PagesBooted k₀)
    (hrun : GrantRun ConfinedStep k₀ k given) :
    KernelInv (fun p => p ∈ k₀.mem.pageFreeList) k ∧ OnlyGiven k given := by
  induction hrun with
  | start =>
      refine ⟨h₀.kernelInv, ?_⟩
      intro e i j p hp
      have hroot : liveRoot k₀ e = none := if_pos (h₀.noEnv e)
      simp [target, hroot] at hp
  | @step k k' given op _ hlive hop heq ih =>
      obtain ⟨hinv, hgiven⟩ := ih
      obtain ⟨k₂, heq₂, hinv', honly⟩ := hinv.step hlive hop.2 hop.1
      rw [heq] at heq₂
      cases heq₂
      refine ⟨hinv', ?_⟩
      intro e i j p hp
      rcases honly e i j p hp with hbefore | hgrant
      · refine Or.inr ⟨hgiven e i j p hbefore, ?_⟩
        -- a freed environment has no mapping left
        rintro rfl
        obtain ⟨mem, rfl⟩ := envFree_ok heq
        have hroot : liveRoot (({ k with mem := mem, envFreeList := e :: k.envFreeList } :
            Kernel).modifyEnv e (fun v => { v with envPgdir := none, envStatus := .free })) e =
            none := by
          rw [liveRoot, Kernel.modifyEnv_self, if_pos rfl]
        rw [target_pte] at hp
        simp [target, hroot] at hp
      · exact Or.inl hgrant

/-- Every `sys_page_alloc` that returns 0 is confined; a `sys_page_map`
that returns 0 is confined if and only if the bits of `perm` beyond
`PTE_SYSCALL` are bits of the page's address; and in a run of such calls
every environment maps only what was allocated to it or shared with it. -/
theorem mappings_confined (k k' : Kernel) :
    (∀ curenv envid va perm, sysPageAlloc k curenv envid va perm = .ok (0, k') →
      AllocConfined k curenv envid va k') ∧
    (∀ curenv srcenvid srcva dstenvid dstva perm,
      sysPageMap k curenv srcenvid srcva dstenvid dstva perm = .ok (0, k') →
      (MapConfined k curenv srcenvid srcva dstenvid dstva k' ↔
        PageOp.HarmlessPerm k (.pageMap curenv srcenvid srcva dstenvid dstva perm))) ∧
    (∀ given, PagesBooted k → GrantRun ConfinedStep k k' given → OnlyGiven k' given) := by
  refine ⟨?_, ?_, ?_⟩
  · intro curenv envid va perm h
    exact sysPageAlloc_confined h
  · intro curenv srcenvid srcva dstenvid dstva perm h
    exact mapConfined_iff h
  · intro given h₀ hrun
    exact (onlyGiven_of_run h₀ hrun).2

/-- One environment, with page 12 at address 0. -/
def onePage : Kernel where
  envs e := if e = 0 then { envId := 4096, envStatus := .running, priority := 8,
                            envPgdir := some 10 } else {}
  envFreeList := allSlots.tail
  mem :=
    { npages := 64
      kernPgdir := 1
      frames := fun p i =>
        if p = 10 ∧ i = 0 then 0xB007 else if p = 11 ∧ i = 0 then 0xC007 else 0
      ppRef := fun p => if p = 10 ∨ p = 11 ∨ p = 12 then 1 else 0
      pageFreeList := [13, 14, 15, 16] }

/-- The state after a call that has returned 0. -/
theorem exists_ok_of_eval {x : Except Panic (Int × Kernel)} (h : x.toOption.map Prod.fst = some 0) :
    ∃ k', x = .ok (0, k') := by
  obtain ⟨⟨v, k'⟩, hx, hv⟩ := eval_ok h
  replace hv : v = 0 := hv
  exact ⟨k', by rw [hx, hv]⟩

/-- A run that meets the condition of the counts has its list of pages
given. -/
theorem exists_grantRun {k₀ k : Kernel} (hrun : PageRun RoomyStep k₀ k) :
    ∃ given, GrantRun ConfinedStep k₀ k given := by
  induction hrun with
  | refl => exact ⟨_, GrantRun.start⟩
  | tail _ hstep ih =>
      obtain ⟨given, hgiven⟩ := ih
      obtain ⟨op, hlive, hroomy, heq⟩ := hstep
      exact ⟨_, hgiven.step hlive ⟨hroomy.1.harmless, hroomy.2⟩ heq⟩

/-- After boot an environment is made, which allocates a page and maps it a
second time. -/
theorem mappings_confined_onePage :
    (∃ k', sysPageMap onePage 0 0 0 0 0x1000 pteAvail = .ok (0, k') ∧
      MapConfined onePage 0 0 0 0 0x1000 k') ∧
    (∃ k', sysPageAlloc onePage 0 0 0x2000 pteW = .ok (0, k') ∧
      AllocConfined onePage 0 0 0x2000 k') ∧
    ∃ e p k given, GrantRun ConfinedStep pagesBoot k given ∧
      target (liveRoot k) k.mem (nthSlot e 0) = some p ∧
      target (liveRoot k) k.mem (nthSlot e 1) = some p ∧
      given e p ∧ OnlyGiven k given := by
  obtain ⟨k', hk'⟩ := exists_ok_of_eval
    (show (sysPageMap onePage 0 0 0 0 0x1000 pteAvail).toOption.map Prod.fst = some 0 by
      decide +kernel)
  obtain ⟨k₂, hk₂⟩ := exists_ok_of_eval
    (show (sysPageAlloc onePage 0 0 0x2000 pteW).toOption.map Prod.fst = some 0 by
      decide +kernel)
  obtain ⟨e, p, k, hfilled⟩ := exists_filled (x := 2) (by decide) (by decide)
  obtain ⟨given, hrun⟩ := exists_grantRun hfilled.run
  have halloc := (mappings_confined onePage k₂).1 _ _ _ _ hk₂
  have hmap := (mappings_confined onePage k').2.1 _ _ _ _ _ _ hk'
  have honly := (mappings_confined pagesBoot k).2.2 given pagesBoot_booted hrun
  have hfirst := hfilled.lower 0 (by decide)
  refine ⟨⟨k', hk', hmap.mpr ?_⟩, ⟨k₂, hk₂, halloc⟩, e, p, k, given, hrun, hfirst,
    hfilled.lower 1 (by decide), honly e _ _ p hfirst, honly⟩
  exact fun page _ => harmless_of_syscallPerm (by decide)

/-- With bit 12 in `perm` the environment maps page 13, which is free. -/
theorem free_page_mapped :
    ∃ k', sysPageMap onePage 0 0 0 0 0x1000 0x1000 = .ok (0, k') ∧
      ¬ MapConfined onePage 0 0 0 0 0x1000 k' ∧
      k'.mem.frames 11 1 = 0xD005 ∧ 13 ∈ k'.mem.pageFreeList := by
  obtain ⟨⟨r, k'⟩, hk', hvalues⟩ := eval_ok (x := sysPageMap onePage 0 0 0 0 0x1000 0x1000)
    (f := fun r => (r.1, r.2.mem.frames 11 1, r.2.mem.pageFreeList))
    (v := (0, 0xD005, [13, 14, 15, 16])) (by decide +kernel)
  obtain ⟨hr, hvalues⟩ := Prod.mk.inj hvalues
  obtain ⟨hword, hfree⟩ := Prod.mk.inj hvalues
  replace hr : r = 0 := hr
  subst hr
  refine ⟨k', hk', ?_, hword, by rw [hfree]; decide⟩
  intro hconfined
  have hharm := (mapConfined_iff hk').mp hconfined 12 (by decide +kernel)
  unfold Harmless at hharm
  exact absurd hharm (by decide)

end SistemasOperativos.Kern
