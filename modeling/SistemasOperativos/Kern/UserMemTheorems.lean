/-
SistemasOperativos.Kern.UserMemTheorems — when `user_mem_check` is exact.

The check should accept a range when it ends at or below `UTOP` and each
of its pages grants the permissions. The end is computed in 32 bits: the
sum `va + len` wraps, and rounding it up wraps again in the last page. A
wrapped end is a small number, so the limit test passes and the loop over
the pages has little or nothing to do. The theorem names the ranges on
which the check is still right; the last result is a range of kernel
memory that it accepts.
-/
import SistemasOperativos.Kern.UserMem
import SistemasOperativos.Kern.MappingTheorems

namespace SistemasOperativos.Kern

/-! ## The specification -/

/-- Page `p` of the address space of `e` has a page table entry with all
bits of `perm | PTE_P`. -/
def PageGranted (k : Kernel) (e : EnvIdx) (perm : Word) (p : Nat) : Prop :=
  ∃ d pte, (k.envs e).envPgdir = some d ∧
    pgdirFind k.mem d (BitVec.ofNat 32 (p * 4096)) = .ok (some pte) ∧
    k.mem.word pte &&& (perm ||| pteP) = perm ||| pteP

/-- Page `p` contains a byte of `[va, va + len)`, the sum taken as an
unbounded number. -/
def Touches (va len : Word) (p : Nat) : Prop :=
  ∃ x, va.toNat ≤ x ∧ x < va.toNat + len.toNat ∧ x / 4096 = p

/-- The range is below `UTOP` and all its pages are granted. -/
def MayAccess (k : Kernel) (e : EnvIdx) (va len perm : Word) : Prop :=
  va.toNat + len.toNat ≤ utop.toNat ∧ ∀ p, Touches va len p → PageGranted k e perm p

/-- The check returns 0 for a range that may be accessed, and `-E_FAULT`
for every other. -/
def CheckExact (k : Kernel) (e : EnvIdx) (va len perm : Word) : Prop :=
  ∀ checkAddr,
    (MayAccess k e va len perm → ∃ addr, userMemCheck k e va len perm checkAddr = .ok (0, addr)) ∧
    (¬ MayAccess k e va len perm →
      ∃ addr, userMemCheck k e va len perm checkAddr = .ok (-eFault, addr))

/-- The environment has a page directory, and every page table in it
below `UTOP` is a page of memory: `KADDR` does not panic. -/
structure Walkable (k : Kernel) (e : EnvIdx) : Prop where
  pgdir : ∃ d, (k.envs e).envPgdir = some d
  tables : ∀ d, (k.envs e).envPgdir = some d → ∀ i < userPdes, k.mem.frames d i ≠ 0 →
    pgnum (k.mem.frames d i) < k.mem.npages

/-- Neither the sum nor its rounding wraps; or the sum wraps to an end
that still fails the limit test; or it wraps into the page of `va`, past
its first byte, and that page is refused. -/
def EndRecognised (k : Kernel) (e : EnvIdx) (va len perm : Word) : Prop :=
  va.toNat + len.toNat ≤ 4294963200 ∨
  (4294967296 + utop.toNat < va.toNat + len.toNat ∧ va.toNat + len.toNat ≤ 8589930496) ∨
  (4294967296 + va.toNat / 4096 * 4096 < va.toNat + len.toNat ∧
    va.toNat + len.toNat ≤ 4294967296 + utop.toNat ∧ ¬ PageGranted k e perm (va.toNat / 4096))

/-! ## Rounding -/

variable {k : Kernel} {e : EnvIdx} {va len perm : Word}

theorem toNat_pgsize : (4096 : Word).toNat = 4096 := rfl

theorem toNat_rounddown (a : Word) : (rounddown a).toNat = a.toNat / 4096 * 4096 := by
  have hlt := a.isLt
  simp only [rounddown, BitVec.toNat_sub, BitVec.toNat_umod, toNat_pgsize]
  omega

theorem toNat_add_pgsize_sub (a : Word) : (a + 4096 - 1).toNat = (a.toNat + 4095) % 4294967296 := by
  have hone : (1 : Word).toNat = 1 := rfl
  simp only [BitVec.toNat_sub, BitVec.toNat_add, toNat_pgsize, hone]
  omega

theorem toNat_roundup {a : Word} (h : a.toNat ≤ 4294963200) :
    (roundup a).toNat = (a.toNat + 4095) / 4096 * 4096 := by
  rw [roundup, toNat_rounddown, toNat_add_pgsize_sub]
  omega

/-- In the last page of the address space, rounding up gives 0. -/
theorem toNat_roundup_last {a : Word} (h : 4294963200 < a.toNat) : (roundup a).toNat = 0 := by
  have hlt := a.isLt
  rw [roundup, toNat_rounddown, toNat_add_pgsize_sub]
  omega

/-! ## The loop -/

theorem permits_iff {m : Pmap} {pte : Option PtePtr} : permits m perm pte = true ↔
    ∃ q, pte = some q ∧ m.word q &&& (perm ||| pteP) = perm ||| pteP := by
  cases pte with
  | none => simp [permits]
  | some q => simp [permits]

theorem Walkable.pgdirFind_ok (h : Walkable k e) {d : Nat} (hd : (k.envs e).envPgdir = some d)
    {p : Nat} (hp : p < 977920) :
    ∃ pte, pgdirFind k.mem d (BitVec.ofNat 32 (p * 4096)) = .ok pte := by
  have hi : pdx (BitVec.ofNat 32 (p * 4096)) < userPdes := by
    simp only [pdx, BitVec.toNat_ofNat]
    show _ < 955
    omega
  rw [pgdirFind]
  by_cases hz : k.mem.frames d (pdx (BitVec.ofNat 32 (p * 4096))) = 0
  · rw [hz]
    exact ⟨none, rfl⟩
  · have htab := h.tables d hd _ hi hz
    rw [if_pos hz, kaddr, pgnum_pteAddr, if_neg (by omega)]
    exact ⟨_, rfl⟩

/-- The loop ends without a complaint exactly when every page up to
`vaHi` is granted. -/
theorem Walkable.checkPages_spec (h : Walkable k e) {d : Nat}
    (hd : (k.envs e).envPgdir = some d) (perm vaLo : Word) {vaHi : Word} {top : Nat}
    (htop : top ≤ 977920) (hhi : vaHi.toNat = top * 4096) (fuel p : Nat)
    (hfuel : top ≤ p + fuel) (hp : p < 1048576) :
    ∃ r, checkPages k.mem d perm vaLo vaHi fuel (BitVec.ofNat 32 (p * 4096)) = .ok r ∧
      (r = none ↔ ∀ q, p ≤ q → q < top → PageGranted k e perm q) := by
  induction fuel generalizing p with
  | zero => exact ⟨none, rfl, iff_of_true rfl (fun q hpq hq => by omega)⟩
  | succ fuel ih =>
      have hpage : (BitVec.ofNat 32 (p * 4096) : Word).toNat = p * 4096 := by
        simp only [BitVec.toNat_ofNat]
        omega
      rw [checkPages]
      by_cases hlt : p < top
      · rw [if_pos (by rw [BitVec.lt_def]; omega)]
        obtain ⟨pte, hpte⟩ := h.pgdirFind_ok hd (by omega : p < 977920)
        rw [hpte]
        by_cases hgrant : permits k.mem perm pte = true
        · -- the page is granted: the rest of the loop decides
          have hself : PageGranted k e perm p := by
            obtain ⟨q, rfl, hq⟩ := permits_iff.mp hgrant
            exact ⟨d, q, hd, hpte, hq⟩
          have hnext : (BitVec.ofNat 32 (p * 4096) : Word) + 4096
              = BitVec.ofNat 32 ((p + 1) * 4096) := by
            apply BitVec.eq_of_toNat_eq
            simp only [BitVec.toNat_add, BitVec.toNat_ofNat, toNat_pgsize]
            omega
          obtain ⟨r, hr, hiff⟩ := ih (p + 1) (by omega) (by omega)
          refine ⟨r, ?_, hiff.trans ⟨fun hall q hpq hq => ?_, fun hall q hpq hq => ?_⟩⟩
          · rw [← hnext] at hr
            show (if permits k.mem perm pte = true then _ else _) = _
            rw [if_pos hgrant]
            exact hr
          · rcases Nat.eq_or_lt_of_le hpq with rfl | hpq'
            · exact hself
            · exact hall q hpq' hq
          · exact hall q (by omega) hq
        · refine ⟨some (if BitVec.ofNat 32 (p * 4096) > vaLo then BitVec.ofNat 32 (p * 4096)
            else vaLo), ?_, ?_⟩
          · show (if permits k.mem perm pte = true then _ else _) = _
            rw [if_neg hgrant]
            rfl
          · refine iff_of_false (by simp) (fun hall => hgrant ?_)
            obtain ⟨d', q, hd', hq, hbits⟩ := hall p le_rfl hlt
            cases Option.some.inj (hd.symm.trans hd')
            rw [hpte] at hq
            cases hq
            exact permits_iff.mpr ⟨q, rfl, hbits⟩
      · rw [if_neg (by rw [BitVec.lt_def]; omega)]
        exact ⟨none, rfl, iff_of_true rfl (fun q hpq hq => by omega)⟩

/-- The check, when the rounded end passes the limit test: the pages from
the one of `va` up to the rounded end decide. -/
theorem Walkable.userMemCheck_spec (h : Walkable k e) (perm : Word) {top : Nat} (htop : top ≤ 977920)
    (hhi : (roundup (va + len)).toNat = top * 4096) (checkAddr : Word) :
    ((∀ q, va.toNat / 4096 ≤ q → q < top → PageGranted k e perm q) ∧
      ∃ addr, userMemCheck k e va len perm checkAddr = .ok (0, addr)) ∨
    ((¬ ∀ q, va.toNat / 4096 ≤ q → q < top → PageGranted k e perm q) ∧
      ∃ addr, userMemCheck k e va len perm checkAddr = .ok (-eFault, addr)) := by
  obtain ⟨d, hd⟩ := h.pgdir
  have hva := va.isLt
  have hutop : utop.toNat = 4005560320 := rfl
  have hstart : rounddown va = BitVec.ofNat 32 (va.toNat / 4096 * 4096) := by
    apply BitVec.eq_of_toNat_eq
    rw [toNat_rounddown, BitVec.toNat_ofNat]
    omega
  have hlimit : ¬ roundup (va + len) > utop := by
    rw [gt_iff_lt, BitVec.lt_def]
    omega
  obtain ⟨r, hr, hiff⟩ := h.checkPages_spec hd perm va htop hhi npages32 (va.toNat / 4096)
    (by show top ≤ va.toNat / 4096 + 1048576; omega) (by omega)
  rw [← hstart] at hr
  rw [userMemCheck, if_neg hlimit, pgdirOf_eq hd]
  cases r with
  | none =>
      exact Or.inl ⟨hiff.mp rfl, checkAddr, bind_ok.mpr ⟨d, rfl, bind_ok.mpr ⟨none, hr, rfl⟩⟩⟩
  | some addr =>
      exact Or.inr ⟨fun hall => Option.some_ne_none addr (hiff.mpr hall), addr,
        bind_ok.mpr ⟨d, rfl, bind_ok.mpr ⟨some addr, hr, rfl⟩⟩⟩

theorem userMemCheck_limit (h : utop.toNat < (roundup (va + len)).toNat) (checkAddr : Word) :
    userMemCheck k e va len perm checkAddr = .ok (-eFault, va) := by
  rw [userMemCheck, if_pos (by rw [gt_iff_lt, BitVec.lt_def]; exact h)]
  rfl

/-! ## Exactness -/

theorem touches_iff (hlen : 0 < len.toNat) {p : Nat} : Touches va len p ↔
    va.toNat / 4096 ≤ p ∧ p < (va.toNat + len.toNat + 4095) / 4096 := by
  constructor
  · rintro ⟨x, hlo, hhi, rfl⟩
    omega
  · rintro ⟨hlo, hhi⟩
    by_cases hfirst : p = va.toNat / 4096
    · exact ⟨va.toNat, le_rfl, by omega, hfirst.symm⟩
    · exact ⟨p * 4096, by omega, by omega, by omega⟩

/-- Nothing wraps. -/
theorem Walkable.checkExact_small (h : Walkable k e) (hlen : 0 < len.toNat)
    (hsum : va.toNat + len.toNat ≤ 4294963200) : CheckExact k e va len perm := by
  have hutop : utop.toNat = 4005560320 := rfl
  have hadd : (va + len).toNat = va.toNat + len.toNat := by
    rw [BitVec.toNat_add]
    omega
  have hround := toNat_roundup (a := va + len) (by omega)
  rw [hadd] at hround
  intro checkAddr
  by_cases hend : va.toNat + len.toNat ≤ utop.toNat
  · have hpages : (∀ q, va.toNat / 4096 ≤ q → q < (va.toNat + len.toNat + 4095) / 4096 →
        PageGranted k e perm q) ↔ MayAccess k e va len perm := by
      constructor
      · intro hall
        exact ⟨hend, fun p hp => hall p ((touches_iff hlen).mp hp).1 ((touches_iff hlen).mp hp).2⟩
      · intro hmay q hlo hhi
        exact hmay.2 q ((touches_iff hlen).mpr ⟨hlo, hhi⟩)
    have hspec := h.userMemCheck_spec perm (by omega) hround checkAddr
    rw [hpages] at hspec
    rcases hspec with ⟨hmay, hret⟩ | ⟨hnot, hret⟩
    · exact ⟨fun _ => hret, fun hno => absurd hmay hno⟩
    · exact ⟨fun hmay => absurd hmay hnot, fun _ => hret⟩
  · refine ⟨fun hmay => absurd hmay.1 hend, fun _ => ⟨va, userMemCheck_limit ?_ checkAddr⟩⟩
    omega

/-- The check on a range that wraps: the pages that are looked at, if
any, decide. -/
theorem Walkable.checkExact_wrapped (h : Walkable k e)
    (hsum : 4294963200 < va.toNat + len.toNat) {top : Nat} (htop : top ≤ 977920)
    (hhi : (roundup (va + len)).toNat = top * 4096) :
    CheckExact k e va len perm ↔
      ¬ ∀ q, va.toNat / 4096 ≤ q → q < top → PageGranted k e perm q := by
  have hutop : utop.toNat = 4005560320 := rfl
  have hno : ¬ MayAccess k e va len perm := fun hmay => absurd hmay.1 (by omega)
  constructor
  · intro hexact hall
    obtain ⟨addr, haddr⟩ := (hexact 0).2 hno
    rcases h.userMemCheck_spec perm htop hhi 0 with ⟨-, addr', haddr'⟩ | ⟨hnot, -⟩
    · rw [haddr] at haddr'
      cases haddr'
    · exact hnot hall
  · intro hnot checkAddr
    refine ⟨fun hmay => absurd hmay hno, fun _ => ?_⟩
    rcases h.userMemCheck_spec perm htop hhi checkAddr with ⟨hall, -⟩ | ⟨-, hret⟩
    · exact absurd hall hnot
    · exact hret

/-- In every state of the runs of the page system calls, a live
environment can be walked. -/
theorem KernelInv.walkable {M : Nat → Prop} (h : KernelInv M k)
    (hlive : (k.envs e).envStatus ≠ .free) : Walkable k e where
  pgdir := h.live e hlive
  tables := by
    intro d hd i hi hne
    have hroot : liveRoot k e = some d := (liveRoot_of_live hlive).trans hd
    have hpres : k.mem.frames d i &&& pteP ≠ 0 :=
      (h.mem.pde e d ⟨i, hi⟩ hroot).resolve_left hne
    have ht : target (liveRoot k) k.mem (.pde e ⟨i, hi⟩) = some (pgnum (k.mem.frames d i)) := by
      rw [target_pde hroot, entryPage, if_neg hpres]
    exact (h.mem.small _ (h.mem.managed ht)).1

/-- The end of the range is its sum, or it wraps: past the last page, past
the limit, or below it. -/
theorem Walkable.checkExact_iff (h : Walkable k e) (hlen : 1 ≤ len.toNat) :
    CheckExact k e va len perm ↔ EndRecognised k e va len perm := by
  have hutop : utop.toNat = 4005560320 := rfl
  have hva := va.isLt
  have hlenlt := len.isLt
  by_cases hsum : va.toNat + len.toNat ≤ 4294963200
  · exact iff_of_true (h.checkExact_small hlen hsum) (Or.inl hsum)
  · have hadd : (va + len).toNat = (va.toNat + len.toNat) % 4294967296 := BitVec.toNat_add va len
    by_cases hlast : 4294963200 < (va + len).toNat
    · -- the rounding wraps: no page is looked at
      have hround := toNat_roundup_last hlast
      rw [h.checkExact_wrapped (by omega) (Nat.zero_le _) (by omega : _ = 0 * 4096)]
      refine iff_of_false (fun hnot => hnot (fun q _ hq => by omega)) ?_
      rintro (hrec | hrec | hrec) <;> omega
    · have hround := toNat_roundup (a := va + len) (by omega)
      by_cases hlimit : utop.toNat < (va + len).toNat
      · -- the wrapped end is past the limit
        have hno : ¬ MayAccess k e va len perm := fun hmay => absurd hmay.1 (by omega)
        refine iff_of_true (fun checkAddr => ⟨fun hmay => absurd hmay hno, fun _ => ?_⟩)
          (Or.inr (Or.inl ⟨by omega, by omega⟩))
        exact ⟨va, userMemCheck_limit (by omega) checkAddr⟩
      · rw [h.checkExact_wrapped (by omega) (by omega) hround]
        constructor
        · intro hnot
          by_cases hpage : va.toNat / 4096 * 4096 < (va + len).toNat
          · -- one page is looked at, the page of `va`
            refine Or.inr (Or.inr ⟨by omega, by omega, fun hgrant => hnot (fun q hlo hhi => ?_)⟩)
            have hq : q = va.toNat / 4096 := by omega
            rw [hq]
            exact hgrant
          · exact absurd (fun q hlo hhi => by omega) hnot
        · rintro (hrec | hrec | ⟨hlo, hhi, hrefused⟩) hall
          · omega
          · omega
          · exact hrefused (hall _ le_rfl (by omega))

/-- `user_mem_check` is exact on a range if and only if the end of the
range is recognised. -/
theorem userMemCheck_exact_iff {k : Kernel} {e : EnvIdx} (h : Walkable k e) {va len : Word}
    (hlen : 1 ≤ len.toNat) (perm : Word) :
    CheckExact k e va len perm ↔ EndRecognised k e va len perm :=
  h.checkExact_iff hlen

/-- The environment of `onePage` may read and write its page. -/
theorem userMemCheck_exact_iff_onePage :
    EndRecognised onePage 0 0x10 0x20 pteU ∧ CheckExact onePage 0 0x10 0x20 pteU := by
  have hwalk : Walkable onePage 0 := by
    refine ⟨⟨10, rfl⟩, ?_⟩
    intro d hd i hi hne
    cases hd
    have hi0 : i = 0 := by
      by_contra hpos
      exact hne (by simp [onePage, hpos])
    subst hi0
    decide
  have hend : EndRecognised onePage 0 0x10 0x20 pteU := Or.inl (by decide)
  exact ⟨hend, (userMemCheck_exact_iff hwalk (by decide) pteU).mpr hend⟩

/-! ## `sys_cputs` -/

/-- An environment that destroys itself does not return. -/
theorem envDestroy_self {sched : Scheduler} {k' : Kernel} {leave : Option Leave}
    (h : envDestroy sched k e e = .ok (k', leave)) : leave.isNone = false := by
  rw [envDestroy, if_neg (fun hother => hother.2 rfl)] at h
  cases hfree : envFree k e with
  | error panic =>
      rw [hfree] at h
      cases h
  | ok k₁ =>
      rw [hfree] at h
      change (if e = e then _ else _) = _ at h
      rw [if_pos rfl] at h
      cases h
      rfl

theorem sysCputs_of_accepted (sched : Scheduler) {checkAddr addr : Word}
    (h : userMemCheck k e va len (pteP ||| pteW ||| pteU) checkAddr = .ok (0, addr)) :
    sysCputs sched k e va len checkAddr = .ok (k, none, some (va, len), addr) := by
  have hbits : pteP ||| pteW ||| pteU ||| pteU = pteP ||| pteW ||| pteU := by decide
  rw [sysCputs, userMemAssert, hbits, h]
  rfl

/-- After a refusal the caller is gone, and nothing is printed. -/
theorem sysCputs_of_refused {sched : Scheduler} {checkAddr addr addr' : Word} {k' : Kernel}
    {leave : Option Leave} {out : Option (Word × Word)}
    (h : userMemCheck k e va len (pteP ||| pteW ||| pteU) checkAddr = .ok (-eFault, addr))
    (hrun : sysCputs sched k e va len checkAddr = .ok (k', leave, out, addr')) : out = none := by
  have hbits : pteP ||| pteW ||| pteU ||| pteU = pteP ||| pteW ||| pteU := by decide
  rw [sysCputs, userMemAssert, hbits, h] at hrun
  change ((envDestroy sched k e e >>= _) >>= _) = _ at hrun
  cases hdestroy : envDestroy sched k e e with
  | error panic =>
      rw [hdestroy] at hrun
      cases hrun
  | ok r =>
      obtain ⟨k₁, leave₁⟩ := r
      have hgone := envDestroy_self hdestroy
      rw [hdestroy] at hrun
      cases hrun
      rw [hgone]
      rfl

/-- `sys_cputs` of a range whose end is recognised prints it exactly if
the caller may read and write it, and else prints nothing. -/
theorem sysCputs_prints_iff {sched : Scheduler} (h : Walkable k e) (hlen : 1 ≤ len.toNat)
    (hend : EndRecognised k e va len (pteP ||| pteW ||| pteU)) {checkAddr addr : Word}
    {k' : Kernel} {leave : Option Leave} {out : Option (Word × Word)}
    (hrun : sysCputs sched k e va len checkAddr = .ok (k', leave, out, addr)) :
    (out = some (va, len) ↔ MayAccess k e va len (pteP ||| pteW ||| pteU)) ∧
      (out = none ∨ out = some (va, len)) := by
  have hexact := (h.checkExact_iff hlen).mpr hend checkAddr
  by_cases hmay : MayAccess k e va len (pteP ||| pteW ||| pteU)
  · obtain ⟨addr₁, haccepted⟩ := hexact.1 hmay
    rw [sysCputs_of_accepted sched haccepted] at hrun
    cases hrun
    exact ⟨iff_of_true rfl hmay, Or.inr rfl⟩
  · obtain ⟨addr₁, hrefused⟩ := hexact.2 hmay
    have hout := sysCputs_of_refused hrefused hrun
    refine ⟨iff_of_false ?_ hmay, Or.inl hout⟩
    rw [hout]
    exact (Option.some_ne_none _).symm

/-- A range in kernel memory whose end wraps to 0. The check accepts it,
and `sys_cputs` goes on to print it. -/
theorem kernel_range_accepted :
    userMemCheck onePage 0 0xF0100000 0x0FF00000 (pteP ||| pteW ||| pteU) 0 = .ok (0, 0) ∧
      (∀ sched, sysCputs sched onePage 0 0xF0100000 0x0FF00000 0 =
        .ok (onePage, none, some (0xF0100000, 0x0FF00000), 0)) ∧
      ¬ MayAccess onePage 0 0xF0100000 0x0FF00000 (pteP ||| pteW ||| pteU) ∧
      ¬ CheckExact onePage 0 0xF0100000 0x0FF00000 (pteP ||| pteW ||| pteU) := by
  have hret : userMemCheck onePage 0 0xF0100000 0x0FF00000 (pteP ||| pteW ||| pteU) 0
      = .ok (0, 0) := by decide +kernel
  have hno : ¬ MayAccess onePage 0 0xF0100000 0x0FF00000 (pteP ||| pteW ||| pteU) :=
    fun hmay => absurd hmay.1 (by decide)
  refine ⟨hret, fun sched => sysCputs_of_accepted sched hret, hno, fun hexact => ?_⟩
  obtain ⟨addr, haddr⟩ := (hexact 0).2 hno
  rw [hret] at haddr
  cases haddr

end SistemasOperativos.Kern
