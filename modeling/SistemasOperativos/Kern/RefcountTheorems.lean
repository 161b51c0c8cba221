/-
SistemasOperativos.Kern.RefcountTheorems — `pp_ref` counts the uses of a
page.

The runs are all sequences of `sys_page_alloc`, `sys_page_map`,
`sys_page_unmap`, `env_alloc` and `env_free`. `pp_ref` has 16 bits and
`page_insert` does not look at its value, so it is right up to the 65535th
mapping of a page: the theorem is about the runs in which no page is
mapped while its count is 65535. The last result is a run of 65537
operations at whose end a page that is mapped 65536 times has count 0.
-/
import SistemasOperativos.Kern.PageTheorems
import Mathlib.Logic.Relation

namespace SistemasOperativos.Kern

open RefCount

/-! ## The specification -/

/-- The page directories of the live environments. -/
def liveRoot (k : Kernel) (e : EnvIdx) : Option Nat :=
  if (k.envs e).envStatus = .free then none else (k.envs e).envPgdir

/-- The entries below `UTOP` of live environments' page tables that map
`p`, the entries below `UTOP` of their page directories for which it is
the page table, and the `env_pgdir`s that are `p`. -/
noncomputable def pageUses (k : Kernel) (p : Nat) : Nat := uses (target (liveRoot k) k.mem) p

/-- An operation on the memory of environments. -/
inductive PageOp where
  | pageAlloc (curenv : EnvIdx) (envid : Int) (va perm : Word)
  | pageMap (curenv : EnvIdx) (srcenvid : Int) (srcva : Word) (dstenvid : Int) (dstva perm : Word)
  | pageUnmap (curenv : EnvIdx) (envid : Int) (va : Word)
  | envAlloc (parentId : Int)
  | envFree (e : EnvIdx)
  deriving DecidableEq

/-- The state after the operation, whatever it returns. -/
def pageStep (k : Kernel) : PageOp → Except Panic Kernel
  | .pageAlloc curenv envid va perm => (sysPageAlloc k curenv envid va perm).map Prod.snd
  | .pageMap curenv srcenvid srcva dstenvid dstva perm =>
      (sysPageMap k curenv srcenvid srcva dstenvid dstva perm).map Prod.snd
  | .pageUnmap curenv envid va => (sysPageUnmap k curenv envid va).map Prod.snd
  | .envAlloc parentId =>
      match Kern.envAlloc k parentId with
      | .error _ => .ok k
      | .ok (_, k') => .ok k'
  | .envFree e => Kern.envFree k e

/-- The caller, or the environment that is freed, is live. -/
def PageOp.Live (k : Kernel) : PageOp → Prop
  | .pageAlloc curenv _ _ _ => (k.envs curenv).envStatus ≠ .free
  | .pageMap curenv _ _ _ _ _ => (k.envs curenv).envStatus ≠ .free
  | .pageUnmap curenv _ _ => (k.envs curenv).envStatus ≠ .free
  | .envAlloc _ => True
  | .envFree e => (k.envs e).envStatus ≠ .free

/-- The permissions of a `sys_page_map` are among `PTE_SYSCALL`. -/
def PageOp.SyscallPerm : PageOp → Prop
  | .pageMap _ _ _ _ _ perm => perm &&& ~~~pteSyscall = 0
  | _ => True

/-- The page that a `sys_page_map` finds at its source address. -/
def sourcePage (k : Kernel) : PageOp → Option Nat
  | .pageMap curenv srcenvid srcva _ _ _ =>
      match envid2env k curenv srcenvid true with
      | none => none
      | some src =>
          match (k.envs src).envPgdir with
          | none => none
          | some pgdir =>
              match pageLookup k.mem pgdir srcva with
              | .ok (some (page, _)) => some page
              | _ => none
  | _ => none

/-- `pp_ref` of the page that is about to be mapped can still go up. -/
def PageOp.RoomForRef (k : Kernel) (op : PageOp) : Prop :=
  ∀ page, sourcePage k op = some page → k.mem.ppRef page < 65535

/-- An operation that does not wrap a count. -/
def RoomyStep (k : Kernel) (op : PageOp) : Prop := op.SyscallPerm ∧ op.RoomForRef k

/-- The state after boot: no environment yet, and the pages of the free
list are unused. Entries of `kern_pgdir` below `UTOP` are empty. -/
structure PagesBooted (k : Kernel) : Prop where
  noEnv : ∀ e, (k.envs e).envStatus = .free
  envNodup : k.envFreeList.Nodup
  nodup : k.mem.pageFreeList.Nodup
  npages : k.mem.npages ≤ 1048576
  free : ∀ p ∈ k.mem.pageFreeList,
    p < k.mem.npages ∧ p ≠ k.mem.kernPgdir ∧ k.mem.ppRef p = 0
  kernel : ∀ i < userPdes, k.mem.frames k.mem.kernPgdir i = 0

/-- One step that meets `P`. -/
def PageStepWith (P : Kernel → PageOp → Prop) (k k' : Kernel) : Prop :=
  ∃ op, op.Live k ∧ P k op ∧ pageStep k op = .ok k'

/-- The runs all of whose steps meet `P`. -/
abbrev PageRun (P : Kernel → PageOp → Prop) : Kernel → Kernel → Prop :=
  Relation.ReflTransGen (PageStepWith P)

/-- The counts are right, nothing uses a free page, and no operation that
meets `P` stops in a panic. -/
structure CountsUses (P : Kernel → PageOp → Prop) (k₀ k : Kernel) : Prop where
  count : ∀ p ∈ k₀.mem.pageFreeList, k.mem.ppRef p = pageUses k p
  unmapped : ∀ p ∈ k.mem.pageFreeList, pageUses k p = 0
  noPanic : ∀ op, op.Live k → P k op → ∃ k', pageStep k op = .ok k'

/-! ## The invariant -/

structure KernelInv (M : Nat → Prop) (k : Kernel) : Prop where
  mem : MemInv M (liveRoot k) none k.mem
  live : ∀ e, (k.envs e).envStatus ≠ .free → ∃ d, (k.envs e).envPgdir = some d
  free : ∀ e ∈ k.envFreeList, (k.envs e).envStatus = .free
  nodup : k.envFreeList.Nodup

variable {M : Nat → Prop} {k k' : Kernel} {cur e : EnvIdx} {va perm : Word} {d p : Nat}

theorem liveRoot_of_live (hlive : (k.envs e).envStatus ≠ .free) :
    liveRoot k e = (k.envs e).envPgdir := if_neg hlive

theorem KernelInv.rooted (h : KernelInv M k) (hlive : (k.envs e).envStatus ≠ .free) :
    ∃ d, (k.envs e).envPgdir = some d ∧ liveRoot k e = some d := by
  obtain ⟨d, hd⟩ := h.live e hlive
  exact ⟨d, hd, by rw [liveRoot_of_live hlive, hd]⟩

/-- An id that is accepted names an environment that is live. -/
theorem KernelInv.live_of_envid2env (h : KernelInv M k)
    (hcur : (k.envs cur).envStatus ≠ .free) {envid : Int} {perm : Bool}
    (he : envid2env k cur envid perm = some e) :
    ∃ d, (k.envs e).envPgdir = some d ∧ liveRoot k e = some d := by
  have hlive : (k.envs e).envStatus ≠ .free := by
    rcases envid2env_some he with rfl | ⟨hs, -⟩
    · exact hcur
    · exact hs
  exact h.rooted hlive

theorem userPage_lt (hva : userPage va = true) : va.toNat < 4005560320 := by
  simp only [userPage, Bool.and_eq_true, decide_eq_true_eq] at hva
  exact hva.1

theorem pdx_lt (hva : userPage va = true) : pdx va < userPdes := by
  have := userPage_lt hva
  show va.toNat / 4194304 < 955
  omega

theorem ptx_lt (va : Word) : ptx va < nptentries := Nat.mod_lt _ (by decide)

/-- The slot of a user address. -/
def slotOf (e : EnvIdx) (va : Word) (hva : userPage va = true) : Slot :=
  .pte e ⟨pdx va, pdx_lt hva⟩ ⟨ptx va, ptx_lt va⟩

/-- The environments are untouched while the memory is in order. -/
theorem KernelInv.withMem (h : KernelInv M k) {mem : Pmap}
    (hm : MemInv M (liveRoot k) none mem) : KernelInv M { k with mem := mem } where
  mem := hm
  live := h.live
  free := h.free
  nodup := h.nodup

/-- The page that `op` gives out when it returns 0, and to whom. -/
def grant (k : Kernel) (op : PageOp) : Option (EnvIdx × Nat) :=
  match op with
  | .pageAlloc curenv envid va perm =>
      match sysPageAlloc k curenv envid va perm with
      | .ok (0, _) =>
          (envid2env k curenv envid true).bind
            (fun e => k.mem.pageFreeList.head?.map (fun page => (e, page)))
      | _ => none
  | .pageMap curenv srcenvid srcva dstenvid dstva perm =>
      match sysPageMap k curenv srcenvid srcva dstenvid dstva perm with
      | .ok (0, _) =>
          (envid2env k curenv dstenvid true).bind
            (fun e => (sourcePage k op).map (fun page => (e, page)))
      | _ => none
  | _ => none

/-- The mappings after a step: those before it, and one for what it gives
out. -/
def OnlyGrants (k : Kernel) (op : PageOp) (k' : Kernel) : Prop :=
  ∀ e i j p, target (liveRoot k') k'.mem (.pte e i j) = some p →
    target (liveRoot k) k.mem (.pte e i j) = some p ∨ grant k op = some (e, p)

/-! ## `sys_page_alloc` -/

theorem harmless_of_syscallPerm {pp : Nat} (h : perm &&& ~~~pteSyscall = 0) : Harmless pp perm := by
  rw [Harmless, h]
  exact BitVec.zero_and

theorem checkPerm_ok {pte : Option Word} (h : ¬ checkPerm perm pte < 0) :
    perm &&& ~~~pteSyscall = 0 ∧ perm &&& pteP ≠ 0 ∧ perm &&& pteU ≠ 0 := by
  unfold checkPerm at h
  split at h
  · exact absurd (by decide : -eInval < 0) h
  · rename_i hsys
    split at h
    · exact absurd (by decide : -eInval < 0) h
    · rename_i hpu
      rw [not_or] at hpu
      exact ⟨not_not.mp hsys, hpu.1, hpu.2⟩

theorem pgdirOf_eq (hd : (k.envs e).envPgdir = some d) : pgdirOf k e = .ok d := by
  rw [pgdirOf, hd]

/-- How `env_page_alloc` ends: `check_perm` refuses, there is no page, there
is no second page for the page table, or the page is mapped. -/
theorem KernelInv.envPageAlloc_cases (h : KernelInv M k) (hd : (k.envs e).envPgdir = some d)
    (hroot : liveRoot k e = some d) (hva : userPage va = true) (perm : Word) :
    (checkPerm perm none < 0 ∧ envPageAlloc k e va perm = .ok (checkPerm perm none, k)) ∨
    (k.mem.pageFreeList = [] ∧ envPageAlloc k e va perm = .ok (-eNoMem, k)) ∨
    ∃ pp rest, ¬ checkPerm perm none < 0 ∧ k.mem.pageFreeList = pp :: rest ∧
      MemInv M (liveRoot k) none (k.mem.taken pp rest) ∧
      target (liveRoot k) (k.mem.taken pp rest) = target (liveRoot k) k.mem ∧
      ((envPageAlloc k e va perm = .ok (-eNoMem, { k with mem := k.mem.taken pp rest }) ∧
          target (liveRoot k) k.mem (.pde e ⟨pdx va, pdx_lt hva⟩) = none ∧ rest = []) ∨
        ∃ mem, envPageAlloc k e va perm = .ok (0, { k with mem := mem }) ∧
          pageInsert (k.mem.taken pp rest) d pp va perm = .ok (0, mem) ∧
          MemInv M (liveRoot k) none mem ∧
          Inserted (liveRoot k) (k.mem.taken pp rest) mem e ⟨pdx va, pdx_lt hva⟩
            ⟨ptx va, ptx_lt va⟩ pp) := by
  unfold envPageAlloc
  by_cases hperm : checkPerm perm none < 0
  · exact Or.inl ⟨hperm, if_pos hperm⟩
  · rw [if_neg hperm]
    refine Or.inr ?_
    cases hfree : k.mem.pageFreeList with
    | nil =>
        rw [pageAlloc, hfree]
        exact Or.inl ⟨rfl, rfl⟩
    | cons pp rest =>
        rw [pageAlloc_cons hfree]
        have hmem : pp ∈ k.mem.pageFreeList := by
          rw [hfree]
          exact List.mem_cons_self
        obtain ⟨hM, href⟩ := h.mem.sound.free pp hmem
        replace href : k.mem.ppRef pp = 0 := href
        obtain ⟨h₁, htarget⟩ := h.mem.taken hfree
        have hmap : Mappable M (liveRoot k) (k.mem.taken pp rest) pp := by
          refine ⟨hM, ?_, ?_⟩
          · have := h.mem.sound.nodup
            rw [show (pool (liveRoot k) none k.mem).free = pp :: rest from hfree] at this
            exact (List.nodup_cons.mp this).1
          · intro s _
            rw [htarget]
            exact h.mem.unused_of_free hmem
        have hharm : Harmless pp perm := harmless_of_syscallPerm (checkPerm_ok hperm).1
        have hlt : (k.mem.taken pp rest).ppRef pp < 65535 := by
          show k.mem.ppRef pp < 65535
          omega
        dsimp only
        rw [pgdirOf_eq hd]
        refine Or.inr ⟨pp, rest, hperm, rfl, h₁, htarget, ?_⟩
        rcases h₁.pageInsert_spec (i := ⟨pdx va, pdx_lt hva⟩) (j := ⟨ptx va, ptx_lt va⟩) hroot rfl
          rfl hmap hharm hlt with ⟨heq, hnone, hempty⟩ | ⟨mem, heq, hinv, hins⟩
        · refine Or.inl ⟨bind_ok.mpr ⟨d, rfl, bind_ok.mpr ⟨_, heq, rfl⟩⟩, ?_, hempty⟩
          rw [← htarget, hnone]
        · exact Or.inr ⟨mem, bind_ok.mpr ⟨d, rfl, bind_ok.mpr ⟨_, heq, rfl⟩⟩, heq, hinv, hins⟩

/-- `env_page_alloc` fails and at most leaks the page, or maps it. -/
theorem KernelInv.envPageAlloc_spec (h : KernelInv M k) (hd : (k.envs e).envPgdir = some d)
    (hroot : liveRoot k e = some d) (hva : userPage va = true) (perm : Word) :
    ∃ r mem, envPageAlloc k e va perm = .ok (r, { k with mem := mem }) ∧
      MemInv M (liveRoot k) none mem ∧
      ((∀ s, target (liveRoot k) mem s = target (liveRoot k) k.mem s) ∧
          (checkPerm perm none < 0 ∨ k.mem.pageFreeList.length ≤ 1) ∨
        ∃ pp rest, k.mem.pageFreeList = pp :: rest ∧
          Inserted (liveRoot k) (k.mem.taken pp rest) mem e ⟨pdx va, pdx_lt hva⟩
            ⟨ptx va, ptx_lt va⟩ pp ∧
          target (liveRoot k) (k.mem.taken pp rest) = target (liveRoot k) k.mem ∧ r = 0) := by
  rcases h.envPageAlloc_cases hd hroot hva perm with ⟨hperm, heq⟩ | ⟨hempty, heq⟩ |
    ⟨pp, rest, -, hfree, h₁, htarget, ⟨heq, -, hrest⟩ | ⟨mem, heq, -, hinv, hins⟩⟩
  · exact ⟨_, k.mem, heq, h.mem, Or.inl ⟨fun _ => rfl, Or.inl hperm⟩⟩
  · exact ⟨_, k.mem, heq, h.mem, Or.inl ⟨fun _ => rfl, Or.inr (by simp [hempty])⟩⟩
  · exact ⟨_, _, heq, h₁, Or.inl ⟨fun s => by rw [htarget], Or.inr (by simp [hfree, hrest])⟩⟩
  · exact ⟨0, mem, heq, hinv, Or.inr ⟨pp, rest, hfree, hins, htarget, rfl⟩⟩

theorem KernelInv.pageAlloc_step (h : KernelInv M k) (hcur : (k.envs cur).envStatus ≠ .free)
    {envid : Int} :
    ∃ k', pageStep k (.pageAlloc cur envid va perm) = .ok k' ∧ KernelInv M k' ∧
      OnlyGrants k (.pageAlloc cur envid va perm) k' := by
  have hsame : OnlyGrants k (.pageAlloc cur envid va perm) k := fun _ _ _ _ hs => Or.inl hs
  by_cases hva : userPage va = true
  · cases he : envid2env k cur envid true with
    | none =>
        refine ⟨k, ?_, h, hsame⟩
        rw [pageStep, sysPageAlloc, if_neg (by simp [hva]), he]
        rfl
    | some e =>
        obtain ⟨d, hd, hroot⟩ := h.live_of_envid2env hcur he
        obtain ⟨r, mem, heq, hinv, htarget⟩ :=
          h.envPageAlloc_spec hd hroot hva (perm ||| pteU ||| pteP)
        have hcall : sysPageAlloc k cur envid va perm = .ok (r, { k with mem := mem }) := by
          rw [sysPageAlloc, if_neg (by simp [hva]), he]
          exact heq
        refine ⟨{ k with mem := mem }, ?_, h.withMem hinv, ?_⟩
        · rw [pageStep, hcall]
          rfl
        · intro e' i j p hp
          replace hp : target (liveRoot k) mem (.pte e' i j) = some p := hp
          rcases htarget with ⟨hkeep, -⟩ | ⟨pp, rest, hfree, hins, hbefore, rfl⟩
          · exact Or.inl (by rw [← hkeep, hp])
          · rw [hins.leaf _ (Slot.not_table_pte _ _ _)] at hp
            split at hp
            · rename_i hslot
              cases hp
              cases hslot
              refine Or.inr ?_
              rw [grant, hcall, he, hfree]
              rfl
            · exact Or.inl (by rw [← hbefore, hp])
  · refine ⟨k, ?_, h, hsame⟩
    rw [pageStep, sysPageAlloc, if_pos hva]
    rfl

/-! ## `sys_page_map` -/

/-- `env_page_map` when the page is there and the permissions pass. -/
theorem envPageMap_eq {src dst : EnvIdx} {ds dd page : Nat} {srcva dstva : Word} {pte : PtePtr}
    {r : Int} {mem : Pmap} (hds : (k.envs src).envPgdir = some ds)
    (hdd : (k.envs dst).envPgdir = some dd)
    (hlookup : pageLookup k.mem ds srcva = .ok (some (page, pte)))
    (hw : ¬ (perm &&& pteW) &&& ~~~(pteW &&& k.mem.word pte) ≠ 0)
    (hins : pageInsert k.mem dd page dstva perm = .ok (r, mem)) :
    envPageMap k src srcva dst dstva perm = .ok (r, { k with mem := mem }) := by
  rw [envPageMap, pgdirOf_eq hds]
  refine bind_ok.mpr ⟨ds, rfl, bind_ok.mpr ⟨_, hlookup, ?_⟩⟩
  dsimp only
  rw [if_neg hw, pgdirOf_eq hdd]
  exact bind_ok.mpr ⟨dd, rfl, bind_ok.mpr ⟨_, hins, rfl⟩⟩

/-- `env_page_map` fails and changes nothing, or maps the page. -/
theorem KernelInv.envPageMap_spec (h : KernelInv M k) {src dst : EnvIdx} {ds dd : Nat}
    (hds : (k.envs src).envPgdir = some ds) (hsrc : liveRoot k src = some ds)
    (hdd : (k.envs dst).envPgdir = some dd) (hdst : liveRoot k dst = some dd)
    {srcva dstva : Word} (hs : userPage srcva = true) (hdv : userPage dstva = true) (perm : Word)
    (hroom : ∀ page, target (liveRoot k) k.mem (slotOf src srcva hs) = some page →
      k.mem.ppRef page < 65535 ∧ Harmless page perm) :
    (∃ r, envPageMap k src srcva dst dstva perm = .ok (r, k) ∧
      (target (liveRoot k) k.mem (slotOf src srcva hs) = none ∨ perm &&& pteW ≠ 0 ∨
        target (liveRoot k) k.mem (.pde dst ⟨pdx dstva, pdx_lt hdv⟩) = none ∧
          k.mem.pageFreeList = [])) ∨
      ∃ page mem, target (liveRoot k) k.mem (slotOf src srcva hs) = some page ∧
        envPageMap k src srcva dst dstva perm = .ok (0, { k with mem := mem }) ∧
        MemInv M (liveRoot k) none mem ∧
        Inserted (liveRoot k) k.mem mem dst ⟨pdx dstva, pdx_lt hdv⟩ ⟨ptx dstva, ptx_lt dstva⟩
          page := by
  cases hp : target (liveRoot k) k.mem (slotOf src srcva hs) with
  | none =>
      refine Or.inl ⟨-eInval, ?_, Or.inl rfl⟩
      rw [envPageMap, pgdirOf_eq hds]
      refine bind_ok.mpr ⟨ds, rfl, bind_ok.mpr ⟨none, ?_, rfl⟩⟩
      exact h.mem.pageLookup_none hsrc rfl rfl hp
  | some page =>
      obtain ⟨t, ht⟩ := table_of_mapped hp
      have hlookup := h.mem.pageLookup_some hsrc rfl rfl ht hp
      obtain ⟨hlt, hharm⟩ := hroom page hp
      have hmap := h.mem.mappable (Slot.not_table_pte _ _ _) hp
      by_cases hw : (perm &&& pteW) &&& ~~~(pteW &&& k.mem.word ⟨t, ptx srcva⟩) ≠ 0
      · refine Or.inl ⟨-eInval, ?_, Or.inr (Or.inl ?_)⟩
        · rw [envPageMap, pgdirOf_eq hds]
          refine bind_ok.mpr ⟨ds, rfl, bind_ok.mpr ⟨_, hlookup, ?_⟩⟩
          dsimp only
          rw [if_pos hw]
          rfl
        · intro hzero
          rw [hzero] at hw
          exact hw BitVec.zero_and
      · rcases h.mem.pageInsert_spec (i := ⟨pdx dstva, pdx_lt hdv⟩)
          (j := ⟨ptx dstva, ptx_lt dstva⟩) hdst rfl rfl hmap hharm hlt with
          ⟨heq, hnone, hempty⟩ | ⟨mem, heq, hinv, hins⟩
        · exact Or.inl ⟨-eNoMem, envPageMap_eq hds hdd hlookup hw heq,
            Or.inr (Or.inr ⟨hnone, hempty⟩)⟩
        · exact Or.inr ⟨page, mem, rfl, envPageMap_eq hds hdd hlookup hw heq, hinv, hins⟩

/-- The source page of a call, as the references show it. -/
theorem KernelInv.sourcePage_eq (h : KernelInv M k) {src : EnvIdx} {srcenvid : Int}
    {srcva : Word} (hsrc : envid2env k cur srcenvid true = some src)
    (hd : (k.envs src).envPgdir = some d) (hroot : liveRoot k src = some d)
    (hs : userPage srcva = true) (dstenvid : Int) (dstva perm : Word) :
    sourcePage k (.pageMap cur srcenvid srcva dstenvid dstva perm) =
      target (liveRoot k) k.mem (slotOf src srcva hs) := by
  rw [sourcePage, hsrc]
  dsimp only
  rw [hd]
  dsimp only
  cases hp : target (liveRoot k) k.mem (slotOf src srcva hs) with
  | none => rw [h.mem.pageLookup_none hroot rfl rfl hp]
  | some page =>
      obtain ⟨t, ht⟩ := table_of_mapped hp
      rw [h.mem.pageLookup_some hroot rfl rfl ht hp]

/-- The extra bits of a `sys_page_map`'s permissions are in the address of
the page already. -/
def PageOp.HarmlessPerm (k : Kernel) (op : PageOp) : Prop :=
  match op with
  | .pageMap _ _ _ _ _ perm => ∀ page, sourcePage k op = some page → Harmless page perm
  | _ => True

theorem harmless_userPerm {pp : Nat} :
    Harmless pp (pteP ||| pteU ||| perm) ↔ Harmless pp perm := by
  have hzero : (pteP ||| pteU) &&& ~~~pteSyscall = 0 := by decide
  have hdist : (pteP ||| pteU ||| perm) &&& ~~~pteSyscall = perm &&& ~~~pteSyscall := by
    rw [BitVec.and_comm, BitVec.and_or_distrib_left, BitVec.and_comm (~~~pteSyscall), hzero,
      BitVec.and_comm]
    exact BitVec.zero_or
  rw [Harmless, hdist, Harmless]

theorem KernelInv.pageMap_step (h : KernelInv M k) (hcur : (k.envs cur).envStatus ≠ .free)
    {srcenvid dstenvid : Int} {srcva dstva : Word}
    (hroom : PageOp.RoomForRef k (.pageMap cur srcenvid srcva dstenvid dstva perm))
    (hharm : PageOp.HarmlessPerm k (.pageMap cur srcenvid srcva dstenvid dstva perm)) :
    ∃ k', pageStep k (.pageMap cur srcenvid srcva dstenvid dstva perm) = .ok k' ∧
      KernelInv M k' ∧ OnlyGrants k (.pageMap cur srcenvid srcva dstenvid dstva perm) k' := by
  have hsame : OnlyGrants k (.pageMap cur srcenvid srcva dstenvid dstva perm) k :=
    fun _ _ _ _ hs => Or.inl hs
  by_cases hs : userPage srcva = true
  · by_cases hdv : userPage dstva = true
    · have hcall : ∀ src dst, envid2env k cur srcenvid true = some src →
          envid2env k cur dstenvid true = some dst →
          sysPageMap k cur srcenvid srcva dstenvid dstva perm =
            envPageMap k src srcva dst dstva (pteP ||| pteU ||| perm) := by
        intro src dst hsrc hdst
        rw [sysPageMap, if_neg (by simp [hs]), if_neg (by simp [hdv]), hsrc]
        dsimp only
        rw [hdst]
      cases hsrc : envid2env k cur srcenvid true with
      | none =>
          refine ⟨k, ?_, h, hsame⟩
          rw [pageStep, sysPageMap, if_neg (by simp [hs]), if_neg (by simp [hdv]), hsrc]
          rfl
      | some src =>
          cases hdst : envid2env k cur dstenvid true with
          | none =>
              refine ⟨k, ?_, h, hsame⟩
              rw [pageStep, sysPageMap, if_neg (by simp [hs]), if_neg (by simp [hdv]), hsrc]
              dsimp only
              rw [hdst]
              rfl
          | some dst =>
              obtain ⟨ds, hds, hrs⟩ := h.live_of_envid2env hcur hsrc
              obtain ⟨dd, hdd, hrd⟩ := h.live_of_envid2env hcur hdst
              have hpage := h.sourcePage_eq hsrc hds hrs hs dstenvid dstva perm
              rcases h.envPageMap_spec hds hrs hdd hrd hs hdv (pteP ||| pteU ||| perm)
                (fun page hp => ⟨hroom page (by rw [hpage, hp]),
                  harmless_userPerm.mpr (hharm page (by rw [hpage, hp]))⟩) with
                ⟨r, heq, -⟩ | ⟨page, mem, hp, heq, hinv, hins⟩
              · refine ⟨k, ?_, h, hsame⟩
                rw [pageStep, hcall src dst hsrc hdst, heq]
                rfl
              · refine ⟨{ k with mem := mem }, ?_, h.withMem hinv, ?_⟩
                · rw [pageStep, hcall src dst hsrc hdst, heq]
                  rfl
                · intro e' i j p hp'
                  replace hp' : target (liveRoot k) mem (.pte e' i j) = some p := hp'
                  rw [hins.leaf _ (Slot.not_table_pte _ _ _)] at hp'
                  split at hp'
                  · rename_i hslot
                    cases hp'
                    cases hslot
                    refine Or.inr ?_
                    rw [grant, hcall src dst hsrc hdst, heq, hdst, hpage, hp]
                    rfl
                  · exact Or.inl hp'
    · refine ⟨k, ?_, h, hsame⟩
      rw [pageStep, sysPageMap, if_neg (by simp [hs]), if_pos hdv]
      rfl
  · refine ⟨k, ?_, h, hsame⟩
    rw [pageStep, sysPageMap, if_pos hs]
    rfl

/-! ## `sys_page_unmap`, `env_alloc`, `env_free` -/

theorem KernelInv.pageUnmap_step (h : KernelInv M k) (hcur : (k.envs cur).envStatus ≠ .free)
    {envid : Int} :
    ∃ k', pageStep k (.pageUnmap cur envid va) = .ok k' ∧ KernelInv M k' ∧
      OnlyGrants k (.pageUnmap cur envid va) k' := by
  have hsame : OnlyGrants k (.pageUnmap cur envid va) k := fun _ _ _ _ hs => Or.inl hs
  simp only [pageStep, sysPageUnmap]
  by_cases hva : userPage va = true
  · rw [if_neg (by simp [hva])]
    cases he : envid2env k cur envid true with
    | none => exact ⟨k, rfl, h, hsame⟩
    | some e =>
        obtain ⟨d, hd, hroot⟩ := h.live_of_envid2env hcur he
        obtain ⟨mem, heq, hinv, htarget, -⟩ :=
          h.mem.pageRemove_spec (i := ⟨pdx va, pdx_lt hva⟩) (j := ⟨ptx va, ptx_lt va⟩) hroot rfl rfl
        refine ⟨{ k with mem := mem }, ?_, h.withMem hinv, ?_⟩
        · dsimp only
          rw [pgdirOf_eq hd]
          show Except.map Prod.snd (pageRemove k.mem d va >>= _) = _
          rw [heq]
          rfl
        · intro e' i j p hp
          replace hp : target (liveRoot k) mem (.pte e' i j) = some p := hp
          rw [htarget, Function.update_apply] at hp
          split at hp
          · cases hp
          · exact Or.inl hp
  · rw [if_pos hva]
    exact ⟨k, rfl, h, hsame⟩

/-- The root of one environment changes with its slot in the table. -/
theorem liveRoot_modifyEnv (k : Kernel) (e : EnvIdx) (f : Env → Env) :
    liveRoot (k.modifyEnv e f) = Function.update (liveRoot k) e
      (if (f (k.envs e)).envStatus = .free then none else (f (k.envs e)).envPgdir) := by
  funext j
  by_cases hj : j = e
  · subst hj
    rw [Function.update_self, liveRoot, Kernel.modifyEnv_self]
  · rw [Function.update_of_ne hj, liveRoot, liveRoot, Kernel.modifyEnv_of_ne _ _ hj]

theorem KernelInv.envAlloc_step (h : KernelInv M k) (parentId : Int) :
    ∃ k', pageStep k (.envAlloc parentId) = .ok k' ∧ KernelInv M k' ∧
      OnlyGrants k (.envAlloc parentId) k' := by
  rw [pageStep]
  cases halloc : envAlloc k parentId with
  | error r => exact ⟨k, rfl, h, fun _ _ _ _ hs => Or.inl hs⟩
  | ok r =>
      obtain ⟨e, k'⟩ := r
      obtain ⟨rest, d, mem, hlist, hvm, rfl⟩ := envAlloc_ok halloc
      have hfree : (k.envs e).envStatus = .free := h.free e (by rw [hlist]; exact List.mem_cons_self)
      have hroot : liveRoot k e = none := if_pos hfree
      have hnodup := h.nodup
      rw [hlist, List.nodup_cons] at hnodup
      obtain ⟨hinv, htarget, -⟩ := h.mem.envSetupVm_spec hroot hvm
      have hroots : liveRoot (({ k with mem := mem, envFreeList := rest } : Kernel).modifyEnv e
          (freshEnv e parentId d)) = Function.update (liveRoot k) e (some d) :=
        liveRoot_modifyEnv _ e _
      refine ⟨_, rfl, ⟨?_, ?_, ?_, hnodup.2⟩, ?_⟩
      · rw [hroots]
        exact hinv
      · intro j hj
        by_cases hje : j = e
        · subst hje
          exact ⟨d, by rw [Kernel.modifyEnv_self, freshEnv]⟩
        · rw [Kernel.modifyEnv_of_ne _ _ hje] at hj ⊢
          exact h.live j hj
      · intro j hj
        have hje : j ≠ e := by
          rintro rfl
          exact hnodup.1 hj
        rw [Kernel.modifyEnv_of_ne _ _ hje]
        exact h.free j (by rw [hlist]; exact List.mem_cons_of_mem _ hj)
      · intro e' i j p hp
        rw [hroots] at hp
        replace hp : target (Function.update (liveRoot k) e (some d)) mem (.pte e' i j) = some p :=
          hp
        rw [htarget, Function.update_of_ne (by simp)] at hp
        exact Or.inl hp

theorem KernelInv.envFree_step (h : KernelInv M k) (hlive : (k.envs e).envStatus ≠ .free) :
    ∃ k', pageStep k (.envFree e) = .ok k' ∧ KernelInv M k' ∧ OnlyGrants k (.envFree e) k' := by
  obtain ⟨d, hd, hroot⟩ := h.rooted hlive
  obtain ⟨m₁, mem, hloop, hdecref, hinv, htarget⟩ := h.mem.freeRoot_spec hroot
  have hroots : liveRoot (({ k with mem := mem, envFreeList := e :: k.envFreeList } :
      Kernel).modifyEnv e (fun v => { v with envPgdir := none, envStatus := .free })) =
      Function.update (liveRoot k) e none := liveRoot_modifyEnv _ e _
  have hnot : e ∉ k.envFreeList := fun he => hlive (h.free e he)
  refine ⟨({ k with mem := mem, envFreeList := e :: k.envFreeList } : Kernel).modifyEnv e
    (fun v => { v with envPgdir := none, envStatus := .free }), ?_,
    ⟨?_, ?_, ?_, List.nodup_cons.mpr ⟨hnot, h.nodup⟩⟩, ?_⟩
  · rw [pageStep, envFree, hd]
    exact bind_ok.mpr ⟨m₁, hloop, bind_ok.mpr ⟨mem, hdecref, rfl⟩⟩
  · rw [hroots]
    exact hinv
  · intro j hj
    have hje : j ≠ e := by
      rintro rfl
      rw [Kernel.modifyEnv_self] at hj
      exact hj rfl
    rw [Kernel.modifyEnv_of_ne _ _ hje] at hj ⊢
    exact h.live j hj
  · intro j hj
    by_cases hje : j = e
    · subst hje
      rw [Kernel.modifyEnv_self]
    · rw [Kernel.modifyEnv_of_ne _ _ hje]
      exact h.free j ((List.mem_cons.mp hj).resolve_left hje)
  · intro e' i j p hp
    rw [hroots] at hp
    exact Or.inl (htarget _ p hp)

/-! ## Runs -/

/-- One step keeps the invariant, does not panic and maps no more than it
gives out. -/
theorem KernelInv.step (h : KernelInv M k) {op : PageOp} (hlive : op.Live k)
    (hroom : op.RoomForRef k) (hharm : op.HarmlessPerm k) :
    ∃ k', pageStep k op = .ok k' ∧ KernelInv M k' ∧ OnlyGrants k op k' := by
  cases op with
  | pageAlloc cur envid va perm => exact h.pageAlloc_step hlive
  | pageMap cur srcenvid srcva dstenvid dstva perm => exact h.pageMap_step hlive hroom hharm
  | pageUnmap cur envid va => exact h.pageUnmap_step hlive
  | envAlloc parentId => exact h.envAlloc_step parentId
  | envFree e => exact h.envFree_step hlive

theorem PageOp.SyscallPerm.harmless {op : PageOp} (h : op.SyscallPerm) : op.HarmlessPerm k := by
  cases op with
  | pageMap cur srcenvid srcva dstenvid dstva perm =>
      exact fun page _ => harmless_of_syscallPerm h
  | pageAlloc cur envid va perm => trivial
  | pageUnmap cur envid va => trivial
  | envAlloc parentId => trivial
  | envFree e => trivial

theorem PagesBooted.kernelInv (h : PagesBooted k) :
    KernelInv (fun p => p ∈ k.mem.pageFreeList) k := by
  have hroot : liveRoot k = fun _ => none := by
    funext e
    exact if_pos (h.noEnv e)
  have hnone : ∀ s, target (liveRoot k) k.mem s = none := by
    intro s
    rw [hroot]
    cases s <;> rfl
  refine ⟨⟨⟨?_, ?_, ?_, ?_, h.nodup, ?_⟩, h.npages, ?_, ?_, h.kernel, ?_, ?_⟩, ?_, ?_, h.envNodup⟩
  · intro s p hs
    replace hs : target (liveRoot k) k.mem s = some p := hs
    rw [hnone] at hs
    cases hs
  · intro p hp
    cases hp
  · intro s s' p _ hs
    replace hs : target (liveRoot k) k.mem s = some p := hs
    rw [hnone] at hs
    cases hs
  · exact fun p hp => ⟨hp, (h.free p hp).2.2⟩
  · intro p hp
    have huses : uses (target (liveRoot k) k.mem) p = 0 := by
      rw [uses_eq_zero]
      intro s hs
      rw [hnone] at hs
      cases hs
    show k.mem.ppRef p = uses (target (liveRoot k) k.mem) p + 0
    rw [huses, (h.free p hp).2.2]
  · exact fun p hp => ⟨(h.free p hp).1, (h.free p hp).2.1⟩
  · intro p hp
    rw [(h.free p hp).2.2]
    decide
  · intro e d i hd
    rw [hroot] at hd
    cases hd
  · intro e i t j ht
    rw [hnone] at ht
    cases ht
  · exact fun e he => absurd (h.noEnv e) he
  · exact fun e _ => h.noEnv e

/-- What a run keeps. -/
theorem kernelInv_of_run {P : Kernel → PageOp → Prop}
    (hP : ∀ k op, P k op → op.RoomForRef k ∧ op.HarmlessPerm k) (h : KernelInv M k)
    (hrun : PageRun P k k') : KernelInv M k' := by
  induction hrun with
  | refl => exact h
  | tail _ hlast ih =>
      obtain ⟨op, hlive, hop, heq⟩ := hlast
      obtain ⟨k₂, heq₂, hinv, -⟩ := ih.step hlive (hP _ _ hop).1 (hP _ _ hop).2
      rw [heq] at heq₂
      cases heq₂
      exact hinv

/-- In every run after boot in which no page is mapped while its count is
65535, the counts are right. -/
theorem refcounts_of_room {k₀ k : Kernel} (h₀ : PagesBooted k₀)
    (hrun : PageRun RoomyStep k₀ k) : CountsUses RoomyStep k₀ k := by
  have hinv := kernelInv_of_run (fun _ _ hop => ⟨hop.2, hop.1.harmless⟩) h₀.kernelInv hrun
  refine ⟨?_, ?_, ?_⟩
  · exact fun p hp => hinv.mem.sound.count p hp
  · intro p hp
    rw [pageUses, uses_eq_zero]
    exact fun s => hinv.mem.unused_of_free hp
  · intro op hlive hop
    obtain ⟨k', heq, -⟩ := hinv.step hlive hop.2 hop.1.harmless
    exact ⟨k', heq⟩

/-! ## One page at 65536 addresses -/

/-- The 65536th reference: the count starts again at 0. -/
theorem MemInv.pageInsert_wraps {roots : EnvIdx → Option Nat} {m : Pmap} {i : Fin userPdes}
    {j : Fin nptentries} {pp : Nat} (perm : Word) (h : MemInv M roots none m) (hd : roots e = some d)
    (hi : pdx va = i) (hj : ptx va = j) (hpp : Mappable M roots m pp)
    (hmax : m.ppRef pp = 65535) (hnew : target roots m (.pte e i j) = none)
    (hfree : m.pageFreeList ≠ []) {s : Slot} (hleaf : ¬ s.Table)
    (hs : target roots m s = some pp) :
    ∃ m', pageInsert m d pp va perm = .ok (0, m') ∧ m'.ppRef pp = 0 ∧
      target roots m' s = some pp := by
  rcases h.pgdirWalk_spec hd hi with ⟨-, -, hempty⟩ | ⟨t, m₁, hwalk, h₁, ht, hwalked⟩
  · exact absurd hempty hfree
  · obtain ⟨-, href⟩ := hwalked.mappable M pp hpp
    have hnew₁ : target roots m₁ (.pte e i j) = none := by
      rw [hwalked.leaf _ (Slot.not_table_pte _ _ _), hnew]
    have hlookup : pageLookup (m₁.incRef pp) d va = .ok none := h₁.pageLookup_none hd hi hj hnew₁
    have hremove : pageRemove (m₁.incRef pp) d va = .ok (m₁.incRef pp) := by
      rw [pageRemove, hlookup]
      rfl
    have htarget := target_setWord_pte (j := j) h₁ ht (page2pa pp ||| perm ||| pteP)
    refine ⟨(m₁.incRef pp).setWord ⟨t, j⟩ (page2pa pp ||| perm ||| pteP), ?_, ?_, ?_⟩
    · rw [pageInsert, hwalk, bind_ok]
      refine ⟨_, rfl, ?_⟩
      dsimp only
      rw [hremove, hj]
      rfl
    · show Function.update m₁.ppRef pp (u16 (m₁.ppRef pp + 1)) pp = 0
      rw [Function.update_self, href, hmax]
      unfold u16
      rfl
    · show target roots (m₁.setWord ⟨t, j⟩ (page2pa pp ||| perm ||| pteP)) s = some pp
      rw [htarget, Function.update_of_ne, hwalked.leaf s hleaf, hs]
      rintro rfl
      rw [hnew] at hs
      cases hs

/-- The pages of the free list after boot. -/
@[irreducible] def bootPages : List Nat := List.range' 1024 30000

theorem mem_bootPages (hp : p ∈ bootPages) : 1024 ≤ p ∧ p < 31024 := by
  unfold bootPages at hp
  rw [List.mem_range'_1] at hp
  omega

theorem nodup_bootPages : bootPages.Nodup := by
  unfold bootPages
  exact List.nodup_range'

theorem length_bootPages : bootPages.length = 30000 := by
  unfold bootPages
  exact List.length_range'

/-- `env_free_list` after `env_init`. -/
@[irreducible] def allSlots : List EnvIdx := List.finRange nenv

theorem nodup_allSlots : allSlots.Nodup := by
  unfold allSlots
  exact List.nodup_finRange nenv

theorem allSlots_cons : ∃ e rest, allSlots = e :: rest := by
  unfold allSlots
  exact ⟨0, _, List.finRange_succ⟩

/-- 128 megabytes of memory, and no environment. -/
def pagesBoot : Kernel where
  envs _ := {}
  envFreeList := allSlots
  mem := { npages := 32768, kernPgdir := 1, frames := fun _ _ => 0, ppRef := fun _ => 0,
           pageFreeList := bootPages }

theorem pagesBoot_booted : PagesBooted pagesBoot where
  noEnv := fun _ => rfl
  envNodup := nodup_allSlots
  nodup := nodup_bootPages
  npages := by decide
  free := by
    intro p hp
    obtain ⟨hlow, hhigh⟩ := mem_bootPages hp
    refine ⟨?_, ?_, rfl⟩
    · show p < 32768
      omega
    · show p ≠ 1
      omega
  kernel := fun _ _ => rfl

/-- The `x`-th user page. -/
def nthVa (x : Nat) : Word := BitVec.ofNat 32 (x * 4096)

theorem toNat_nthVa {x : Nat} (hx : x < 65536) : (nthVa x).toNat = x * 4096 := by
  rw [nthVa, BitVec.toNat_ofNat]
  omega

theorem userPage_nthVa {x : Nat} (hx : x < 65536) : userPage (nthVa x) = true := by
  have hlt : nthVa x < utop := by
    show (nthVa x).toNat < 4005560320
    rw [toNat_nthVa hx]
    omega
  simp only [userPage, Bool.and_eq_true, decide_eq_true_eq, beq_iff_eq]
  refine ⟨hlt, ?_⟩
  rw [toNat_nthVa hx]
  exact Nat.mul_mod_left x 4096

/-- The number of its page table. -/
def nthTable (x : Nat) : Fin userPdes := ⟨x / 1024 % 955, Nat.mod_lt _ (by decide)⟩

/-- The slot of the `x`-th user page. -/
def nthSlot (e : EnvIdx) (x : Nat) : Slot :=
  .pte e (nthTable x) ⟨x % 1024, Nat.mod_lt _ (by decide)⟩

theorem not_table_nthSlot (e : EnvIdx) (x : Nat) : ¬ (nthSlot e x).Table :=
  Slot.not_table_pte _ _ _

theorem slotOf_nthVa {x : Nat} (hx : x < 65536) :
    slotOf e (nthVa x) (userPage_nthVa hx) = nthSlot e x := by
  simp only [slotOf, nthSlot, nthTable, pdx, ptx, toNat_nthVa hx, Slot.pte.injEq, Fin.mk.injEq, true_and]
  omega

theorem nthSlot_inj {x y : Nat} (hx : x < 65536) (hy : y < 65536)
    (h : nthSlot e x = nthSlot e y) : x = y := by
  simp only [nthSlot, nthTable, Slot.pte.injEq, Fin.mk.injEq, true_and] at h
  omega

/-- `e` has mapped `p` at the first `x` addresses and nowhere else. -/
structure Filled (e : EnvIdx) (p x : Nat) (k : Kernel) : Prop where
  run : PageRun RoomyStep pagesBoot k
  live : (k.envs e).envStatus ≠ .free
  lower : ∀ y < x, target (liveRoot k) k.mem (nthSlot e y) = some p
  upper : ∀ s, target (liveRoot k) k.mem s = some p → ∃ y < x, s = nthSlot e y
  beyond : ∀ y, x ≤ y → y < 65536 → target (liveRoot k) k.mem (nthSlot e y) = none
  length : 29900 ≤ k.mem.pageFreeList.length + (x + 1023) / 1024

theorem kernelInv_of_roomyRun (hrun : PageRun RoomyStep pagesBoot k) :
    KernelInv (fun p => p ∈ bootPages) k :=
  kernelInv_of_run (fun _ _ hop => ⟨hop.2, hop.1.harmless⟩) pagesBoot_booted.kernelInv hrun

/-- The first step: an environment. -/
theorem env_after_boot : ∃ e k, PageRun RoomyStep pagesBoot k ∧
    (k.envs e).envStatus ≠ .free ∧ k.mem.pageFreeList.length = 29999 ∧
    ∀ e' i j, target (liveRoot k) k.mem (.pte e' i j) = none := by
  obtain ⟨e, rest, hlist⟩ := allSlots_cons
  obtain ⟨d, pages, hpages⟩ : ∃ d pages, bootPages = d :: pages :=
    List.exists_cons_of_length_pos (by rw [length_bootPages]; decide)
  obtain ⟨mem, hvm⟩ : ∃ mem, envSetupVm pagesBoot.mem = some (d, mem) := by
    unfold envSetupVm
    rw [pageAlloc_cons (m := pagesBoot.mem) hpages]
    exact ⟨_, rfl⟩
  have hcons : pagesBoot.envFreeList = e :: rest := hlist
  have halloc : envAlloc pagesBoot 0 = .ok (e,
      ({ pagesBoot with mem := mem, envFreeList := rest } : Kernel).modifyEnv e
        (freshEnv e 0 d)) := by
    rw [envAlloc, hcons]
    dsimp only
    rw [hvm]
  have hstep : pageStep pagesBoot (.envAlloc 0) =
      .ok (({ pagesBoot with mem := mem, envFreeList := rest } : Kernel).modifyEnv e
        (freshEnv e 0 d)) := by
    rw [pageStep, halloc]
  refine ⟨e, ({ pagesBoot with mem := mem, envFreeList := rest } : Kernel).modifyEnv e
    (freshEnv e 0 d), ?_, ?_, ?_, ?_⟩
  · refine Relation.ReflTransGen.single ⟨.envAlloc 0, trivial, ⟨trivial, ?_⟩, hstep⟩
    intro page hpage
    cases hpage
  · rw [Kernel.modifyEnv_self, freshEnv]
    simp
  · have hfree : bootPages = d :: mem.pageFreeList := (envSetupVm_some hvm).1
    have hlen := length_bootPages
    rw [hfree, List.length_cons] at hlen
    show mem.pageFreeList.length = 29999
    omega
  · obtain ⟨k', heq, -, honly⟩ := pagesBoot_booted.kernelInv.envAlloc_step 0
    rw [hstep] at heq
    cases heq
    intro e' i j
    by_contra hsome
    obtain ⟨p, hp⟩ := Option.ne_none_iff_exists'.mp hsome
    rcases honly e' i j p hp with hbefore | hgrant
    · cases hbefore
    · cases hgrant

theorem envid2env_self (k : Kernel) (cur : EnvIdx) (checkperm : Bool) :
    envid2env k cur 0 checkperm = some cur := rfl

/-- The second step: its first page. -/
theorem filled_one : ∃ e p k, Filled e p 1 k := by
  obtain ⟨e, k, hrun, hlive, hlen, hempty⟩ := env_after_boot
  have hinv := kernelInv_of_roomyRun hrun
  have hva := userPage_nthVa (x := 0) (by decide)
  obtain ⟨d, hd, hroot⟩ := hinv.rooted hlive
  obtain ⟨r, mem, heq, -, hcase⟩ :=
    hinv.envPageAlloc_spec hd hroot hva (0 ||| pteU ||| pteP)
  rcases hcase with ⟨-, hperm | hshort⟩ | ⟨pp, rest, hfree, hins, htarget, -⟩
  · exact absurd hperm (by decide)
  · omega
  · have hstep : pageStep k (.pageAlloc e 0 (nthVa 0) 0) = .ok { k with mem := mem } := by
      simp only [pageStep, sysPageAlloc]
      rw [if_neg (by simp [hva]), envid2env_self]
      dsimp only
      rw [heq]
      rfl
    have hrun' : PageRun RoomyStep pagesBoot { k with mem := mem } := by
      refine hrun.tail ⟨.pageAlloc e 0 (nthVa 0) 0, hlive, ⟨trivial, ?_⟩, hstep⟩
      intro page hpage
      cases hpage
    have hinv' := kernelInv_of_roomyRun hrun'
    have hmem : pp ∈ k.mem.pageFreeList := by
      rw [hfree]
      exact List.mem_cons_self
    have hslot : slotOf e (nthVa 0) hva = nthSlot e 0 := slotOf_nthVa (by decide)
    have hself : target (liveRoot k) mem (nthSlot e 0) = some pp := by
      rw [← hslot, slotOf, hins.leaf _ (Slot.not_table_pte _ _ _)]
      exact if_pos rfl
    refine ⟨e, pp, { k with mem := mem }, hrun', hlive, ?_, ?_, ?_, ?_⟩
    · intro y hy
      rw [show y = 0 by omega]
      exact hself
    · intro s hs
      refine ⟨0, by decide, ?_⟩
      by_cases htable : s.Table
      · have := hinv'.mem.table_eq htable hs hself
        rw [← this] at htable
        exact absurd htable (not_table_nthSlot _ _)
      · replace hs : target (liveRoot k) mem s = some pp := hs
        rw [hins.leaf s htable] at hs
        split at hs
        · rename_i heq'
          rw [heq', ← hslot]
          rfl
        · rw [htarget] at hs
          exact absurd hs (hinv.mem.unused_of_free hmem)
    · intro y hy hlt
      show target (liveRoot k) mem (nthSlot e y) = none
      rw [hins.leaf _ (not_table_nthSlot e y), if_neg, htarget]
      · exact hempty _ _ _
      · intro heq'
        have := nthSlot_inj (x := y) (y := 0) hlt (by decide) (heq'.trans hslot)
        omega
    · have hlen' := hins.length
      have hle : (if target (liveRoot k) (k.mem.taken pp rest)
          (.pde e ⟨pdx (nthVa 0), pdx_lt hva⟩) = none then 1 else 0) ≤ 1 := by
        split <;> omega
      replace hlen' : rest.length ≤ mem.pageFreeList.length + _ := hlen'
      rw [hfree, List.length_cons] at hlen
      show 29900 ≤ mem.pageFreeList.length + (1 + 1023) / 1024
      omega

/-- The table of the next address is there, or it is the first of its
table. -/
theorem Filled.table {x : Nat} (h : Filled e p x k) (hmod : x % 1024 ≠ 0) :
    target (liveRoot k) k.mem (.pde e (nthTable x)) ≠ none := by
  have hprev := h.lower (x - 1) (by omega)
  obtain ⟨t, ht⟩ := table_of_mapped hprev
  have hsame : nthTable (x - 1) = nthTable x := by
    have hdiv : (x - 1) / 1024 = x / 1024 := by omega
    simp only [nthTable, hdiv]
  rw [hsame] at ht
  rw [ht]
  simp

theorem Filled.count {x : Nat} (h : Filled e p x k) (hx : x ≤ 65536) (hM : p ∈ bootPages) :
    k.mem.ppRef p = x := by
  have hcount : k.mem.ppRef p = uses (target (liveRoot k) k.mem) p :=
    (kernelInv_of_roomyRun h.run).mem.sound.count p hM
  have hle : uses (target (liveRoot k) k.mem) p ≤ Nat.card (Fin x) :=
    uses_le_card (f := fun y : Fin x => nthSlot e y) (by
      intro s hs
      obtain ⟨y, hy, heq⟩ := h.upper s hs
      exact ⟨⟨y, hy⟩, heq.symm⟩)
  have hge : Nat.card (Fin x) ≤ uses (target (liveRoot k) k.mem) p := by
    refine card_le_uses (f := fun y : Fin x => nthSlot e y) ?_ (fun y => h.lower y y.isLt)
    intro y z hyz
    exact Fin.ext (nthSlot_inj (by omega) (by omega) hyz)
  rw [Nat.card_eq_fintype_card, Fintype.card_fin] at hle hge
  omega

/-- The page itself is one of the pool's. -/
theorem Filled.managed {x : Nat} (h : Filled e p x k) (hpos : 0 < x) : p ∈ bootPages :=
  (kernelInv_of_roomyRun h.run).mem.managed (h.lower 0 hpos)

/-- `sys_page_map` of the first address at the `x`-th. -/
abbrev mapAt (e : EnvIdx) (x : Nat) : PageOp := .pageMap e 0 (nthVa 0) 0 (nthVa x) 0

theorem pageStep_mapAt {x : Nat} (hx : x < 65536) :
    pageStep k (mapAt e x) =
      (envPageMap k e (nthVa 0) e (nthVa x) (pteP ||| pteU ||| 0)).map Prod.snd := by
  simp only [pageStep, sysPageMap]
  rw [if_neg (by simp [userPage_nthVa]), if_neg (by simp [userPage_nthVa hx]), envid2env_self]

/-- One more address. -/
theorem Filled.succ {x : Nat} (h : Filled e p x k) (hpos : 0 < x) (hx : x < 65535) :
    ∃ k', Filled e p (x + 1) k' := by
  have hinv := kernelInv_of_roomyRun h.run
  have hM := h.managed hpos
  have hva₀ := userPage_nthVa (x := 0) (by decide)
  have hva := userPage_nthVa (x := x) (by omega)
  obtain ⟨d, hd, hroot⟩ := hinv.rooted h.live
  have hsrc : target (liveRoot k) k.mem (slotOf e (nthVa 0) hva₀) = some p := by
    rw [slotOf_nthVa (by decide)]
    exact h.lower 0 hpos
  have hroom : PageOp.RoomForRef k (mapAt e x) := by
    intro page hpage
    rw [hinv.sourcePage_eq (envid2env_self k e true) hd hroot hva₀, hsrc] at hpage
    cases hpage
    rw [h.count (by omega) hM]
    exact hx
  have hslot : slotOf e (nthVa x) hva = nthSlot e x := slotOf_nthVa (by omega)
  have htab : (⟨pdx (nthVa x), pdx_lt hva⟩ : Fin userPdes) = nthTable x := by
    have := hslot
    simp only [slotOf, nthSlot, Slot.pte.injEq, true_and] at this
    exact this.1
  have hperm : (pteP ||| pteU ||| 0) &&& ~~~pteSyscall = 0 := by decide
  rcases hinv.envPageMap_spec hd hroot hd hroot hva₀ hva (pteP ||| pteU ||| 0)
    (fun page hp => ⟨hroom page (by
        rw [hinv.sourcePage_eq (envid2env_self k e true) hd hroot hva₀, hp]),
      harmless_of_syscallPerm hperm⟩) with
    ⟨r, -, hnone | hw | ⟨-, hempty⟩⟩ | ⟨page, mem, hp, heq, -, hins⟩
  · rw [hsrc] at hnone
    cases hnone
  · exact absurd (by decide) hw
  · have := h.length
    rw [hempty, List.length_nil] at this
    omega
  · rw [hsrc] at hp
    cases hp
    have hstep : pageStep k (mapAt e x) = .ok { k with mem := mem } := by
      rw [pageStep_mapAt (by omega), heq]
      rfl
    have hrun' : PageRun RoomyStep pagesBoot { k with mem := mem } :=
      h.run.tail ⟨mapAt e x, h.live, ⟨BitVec.zero_and, hroom⟩, hstep⟩
    have hinv' := kernelInv_of_roomyRun hrun'
    have hleaf : ∀ s : Slot, ¬ s.Table → target (liveRoot k) mem s =
        if s = nthSlot e x then some p else target (liveRoot k) k.mem s := by
      intro s hs
      rw [← hslot, slotOf, hins.leaf s hs]
    refine ⟨{ k with mem := mem }, hrun', h.live, ?_, ?_, ?_, ?_⟩
    · intro y hy
      show target (liveRoot k) mem (nthSlot e y) = some p
      rw [hleaf _ (not_table_nthSlot e y)]
      split
      · rfl
      · rename_i hne
        refine h.lower y (Nat.lt_of_le_of_ne (Nat.lt_succ_iff.mp hy) ?_)
        rintro rfl
        exact hne rfl
    · intro s hs
      replace hs : target (liveRoot k) mem s = some p := hs
      by_cases htable : s.Table
      · have hself : target (liveRoot k) mem (nthSlot e x) = some p := by
          rw [hleaf _ (not_table_nthSlot e x), if_pos rfl]
        have := hinv'.mem.table_eq htable hs hself
        rw [← this] at htable
        exact absurd htable (not_table_nthSlot _ _)
      · rw [hleaf s htable] at hs
        split at hs
        · rename_i heq'
          exact ⟨x, Nat.lt_succ_self x, heq'⟩
        · obtain ⟨y, hy, heq'⟩ := h.upper s hs
          exact ⟨y, Nat.lt_succ_of_lt hy, heq'⟩
    · intro y hy hlt
      show target (liveRoot k) mem (nthSlot e y) = none
      rw [hleaf _ (not_table_nthSlot e y), if_neg]
      · exact h.beyond y (by omega) hlt
      · intro heq'
        have := nthSlot_inj hlt (by omega) heq'
        omega
    · have hlen := hins.length
      have hold := h.length
      rw [htab] at hlen
      show 29900 ≤ mem.pageFreeList.length + (x + 1 + 1023) / 1024
      by_cases hmod : x % 1024 = 0
      · have hle : (if target (liveRoot k) k.mem (.pde e (nthTable x)) = none then 1 else 0) ≤ 1 := by
          split <;> omega
        omega
      · rw [if_neg (h.table hmod)] at hlen
        omega

theorem exists_filled {x : Nat} (hpos : 0 < x) (hx : x ≤ 65535) : ∃ e p k, Filled e p x k := by
  induction x with
  | zero => exact absurd hpos (Nat.lt_irrefl 0)
  | succ x ih =>
      by_cases hzero : x = 0
      · rw [hzero]
        exact filled_one
      · obtain ⟨e, p, k, h⟩ := ih (by omega) (by omega)
        obtain ⟨k', h'⟩ := h.succ (by omega) (by omega)
        exact ⟨e, p, k', h'⟩

/-- A page that is mapped 65535 times is still counted. -/
theorem refcounts_of_room_filled : ∃ k, CountsUses RoomyStep pagesBoot k ∧
    ∃ p ∈ pagesBoot.mem.pageFreeList, k.mem.ppRef p = 65535 := by
  obtain ⟨e, p, k, h⟩ := exists_filled (x := 65535) (by decide) (by decide)
  have hM := h.managed (by decide)
  exact ⟨k, refcounts_of_room pagesBoot_booted h.run, p, hM, h.count (by decide) hM⟩

/-- One more mapping, and the count is 0. -/
theorem mapped_page_uncounted :
    ¬ ∀ k₀ k, PagesBooted k₀ → PageRun (fun _ op => op.SyscallPerm) k₀ k →
      CountsUses (fun _ op => op.SyscallPerm) k₀ k := by
  intro hall
  obtain ⟨e, p, k, h⟩ := exists_filled (x := 65535) (by decide) (by decide)
  have hinv := kernelInv_of_roomyRun h.run
  have hM := h.managed (by decide)
  have hva₀ := userPage_nthVa (x := 0) (by decide)
  have hva := userPage_nthVa (x := 65535) (by decide)
  obtain ⟨d, hd, hroot⟩ := hinv.rooted h.live
  have hfirst := h.lower 0 (by decide)
  have hsrc : target (liveRoot k) k.mem (slotOf e (nthVa 0) hva₀) = some p := by
    rw [slotOf_nthVa (by decide)]
    exact hfirst
  have hlast : target (liveRoot k) k.mem (slotOf e (nthVa 65535) hva) = none := by
    rw [slotOf_nthVa (by decide)]
    exact h.beyond 65535 (Nat.le_refl _) (by decide)
  obtain ⟨t, ht⟩ := table_of_mapped hsrc
  have hfree : k.mem.pageFreeList ≠ [] := by
    intro hempty
    have := h.length
    rw [hempty, List.length_nil] at this
    omega
  obtain ⟨mem, hins, hzero, hstill⟩ := hinv.mem.pageInsert_wraps (pteP ||| pteU ||| 0)
    (i := ⟨pdx (nthVa 65535), pdx_lt hva⟩) (j := ⟨ptx (nthVa 65535), ptx_lt _⟩) hroot rfl rfl
    (hinv.mem.mappable (not_table_nthSlot e 0) hfirst) (h.count (by decide) hM) hlast hfree
    (not_table_nthSlot e 0) hfirst
  have hmap : envPageMap k e (nthVa 0) e (nthVa 65535) (pteP ||| pteU ||| 0) =
      .ok (0, { k with mem := mem }) := by
    refine envPageMap_eq hd hd (hinv.mem.pageLookup_some hroot rfl rfl ht hsrc) ?_ hins
    have hnoW : (pteP ||| pteU ||| 0) &&& pteW = 0 := by decide
    rw [hnoW, not_not]
    exact BitVec.zero_and
  have hstep : pageStep k (mapAt e 65535) = .ok { k with mem := mem } := by
    rw [pageStep_mapAt (by decide), hmap]
    rfl
  have hrun : PageRun (fun _ op => op.SyscallPerm) pagesBoot { k with mem := mem } := by
    have hweaker : ∀ k₁ k₂, PageStepWith RoomyStep k₁ k₂ →
        PageStepWith (fun _ op => op.SyscallPerm) k₁ k₂ := by
      rintro k₁ k₂ ⟨op, hlive, hop, heq⟩
      exact ⟨op, hlive, hop.1, heq⟩
    exact (Relation.ReflTransGen.mono hweaker _ _ h.run).tail
      ⟨mapAt e 65535, h.live, BitVec.zero_and, hstep⟩
  have hcount := (hall pagesBoot _ pagesBoot_booted hrun).count p hM
  have hused : 0 < pageUses { k with mem := mem } p := uses_pos (s := nthSlot e 0) hstill
  rw [← hcount] at hused
  replace hused : 0 < mem.ppRef p := hused
  omega

end SistemasOperativos.Kern
