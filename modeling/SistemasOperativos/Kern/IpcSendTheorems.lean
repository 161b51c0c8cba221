/-
SistemasOperativos.Kern.IpcSendTheorems — a send is all or nothing.

A `sys_ipc_try_send` that fails should leave the target as it was, and one
that returns 0 should fill in all of its IPC fields. Three things stand in
the way. The result of `page_lookup` is not tested, so a page that is not
mapped is read through a pointer that was never set. When the target does
not want the page nothing is written to `env_ipc_perm`, and the field
keeps what an earlier message left. And `env_page_alloc` maps a new page
at the target's address before `env_page_map` looks the sender's page up,
which is the same address when an environment sends to itself. The theorem
says that nothing else does.
-/
import SistemasOperativos.Kern.EntryTheorems
import SistemasOperativos.Kern.IpcTheorems

namespace SistemasOperativos.Kern

open RefCount

/-! ## The specification -/

/-- Status, registers and IPC fields of `e` are the same, and so are the
translation of every user address and what is in the pages behind it. -/
structure Untouched (k k' : Kernel) (e : EnvIdx) : Prop where
  env : k'.envs e = k.envs e
  entry : ∀ va, va < utop → userEntry k' e va = userEntry k e va
  contents : ∀ va p, va < utop → mappedPage k e va = some p → k'.mem.frames p = k.mem.frames p

/-- The permissions that a send gives. -/
def granted (perm : Word) : Word := perm ||| pteU ||| pteP

/-- The page that was at `srcva` in the sender is now at the address at
which the target wanted one. -/
def Transferred (k k' : Kernel) (cur dst : EnvIdx) (srcva : Word) (p : Nat) : Prop :=
  srcva < utop ∧ (k.envs dst).envIpcDstva ≠ 0 ∧ mappedPage k cur srcva = some p ∧
    mappedPage k' dst (k.envs dst).envIpcDstva = some p

/-- What the target finds after a send that has returned 0. -/
structure Delivered (k k' : Kernel) (cur dst : EnvIdx) (value srcva perm : Word) : Prop where
  sender : (k'.envs dst).envIpcFrom = (k.envs cur).envId
  value : (k'.envs dst).envIpcValue = value
  recving : (k'.envs dst).envIpcRecving = false
  perm : ∀ p, Transferred k k' cur dst srcva p → (k'.envs dst).envIpcPerm = granted perm ∧
    userEntry k' dst (k.envs dst).envIpcDstva = page2pa p ||| granted perm
  noPage : (∀ p, ¬ Transferred k k' cur dst srcva p) → (k'.envs dst).envIpcPerm = 0

/-- The call gets as far as the page: the target is there and receives,
and `srcva` is the address of a user page. -/
structure PageOffered (k : Kernel) (cur : EnvIdx) (envid : Int) (srcva : Word) (dst : EnvIdx) :
    Prop where
  target : envid2env k cur envid false = some dst
  recving : (k.envs dst).envIpcRecving = true
  page : userPage srcva = true

/-- The send returns, and it has done everything or nothing. -/
def AllOrNothing (k : Kernel) (cur : EnvIdx) (envid : Int) (value srcva perm : Word) : Prop :=
  ∃ r k', sysIpcTrySend k cur envid value srcva perm = .ok (r, k') ∧
    (r < 0 → ∀ dst, envid2env k cur envid false = some dst → Untouched k k' dst) ∧
    (0 ≤ r → r = 0 ∧ ∃ dst, envid2env k cur envid false = some dst ∧
      Delivered k k' cur dst value srcva perm) ∧
    (∀ dst, PageOffered k cur envid srcva dst → mappedPage k cur srcva = none → r = -eInval)

/-- An environment that sends itself the page at the address at which it
wants one, with permissions that `check_perm` accepts, while there is a
free page. -/
structure SelfSend (k : Kernel) (cur dst : EnvIdx) (srcva perm : Word) : Prop where
  target : dst = cur
  dstva : (k.envs dst).envIpcDstva = srcva
  wanted : srcva ≠ 0
  perm : checkPerm (granted perm) none = 0
  free : k.mem.pageFreeList ≠ []

/-- None of the three defects is reached: a page that is offered is
mapped, and if it may be passed on, then a target that does not want it
has no permissions left over, and the page is not sent to where it is. -/
def SoundSend (k : Kernel) (cur : EnvIdx) (envid : Int) (srcva perm : Word) : Prop :=
  ∀ dst, PageOffered k cur envid srcva dst →
    mappedPage k cur srcva ≠ none ∧
    (MayPass k cur srcva perm →
      ((k.envs dst).envIpcDstva = 0 → (k.envs dst).envIpcPerm = 0) ∧
      ¬ SelfSend k cur dst srcva perm)

/-- The states in which a call is made: the memory is in order, and the
address at which a page is wanted is the one of a user page, which
`sys_ipc_recv` sees to. -/
structure IpcState (M : Nat → Prop) (k : Kernel) : Prop where
  kernel : KernelInv M k
  dstva : ∀ e, (k.envs e).envIpcDstva = 0 ∨ userPage (k.envs e).envIpcDstva = true

/-! ## The page -/

variable {k k' : Kernel} {cur dst e : EnvIdx} {srcva dstva value perm : Word} {envid : Int}
  {M : Nat → Prop} {d p : Nat}

/-- Pages that are not free keep their contents, and so does every address
space. -/
theorem KernelInv.untouched (h : KernelInv M k) (hroot : liveRoot k e = (k.envs e).envPgdir)
    {mem : Pmap} (hkeep : ∀ q, q ∉ k.mem.pageFreeList → mem.frames q = k.mem.frames q) :
    Untouched k { k with mem := mem } e := by
  refine ⟨rfl, ?_, ?_⟩
  · intro va hva
    have hroot' : liveRoot { k with mem := mem } e = (k.envs e).envPgdir := hroot
    rw [userEntry_eq hroot hva, userEntry_eq hroot' hva]
    exact congrFun (congrFun (congrFun (h.mem.entryAt_of_kept hkeep) e) _) _
  · intro va q hva hq
    rw [mappedPage, userEntry_eq hroot hva, ← target_pte_entryAt] at hq
    exact hkeep q (h.mem.notMem_free hq)

theorem mayPass_granted : MayPass k cur srcva (granted perm) ↔ MayPass k cur srcva perm := by
  have hsame : granted perm &&& pteW = perm &&& pteW := by
    have hzero : (pteU ||| pteP) &&& pteW = 0 := by decide
    rw [granted, BitVec.or_assoc, BitVec.and_comm, BitVec.and_or_distrib_left,
      BitVec.and_comm pteW (pteU ||| pteP), hzero, BitVec.and_comm]
    exact BitVec.or_zero
  rw [MayPass, MayPass, hsame]

/-- What a send does for a target that wants the page. -/
def passPage (k : Kernel) (cur dst : EnvIdx) (srcva dstva perm : Word) :
    Except Panic (Int × Kernel) := do
  let x ← envPageAlloc k dst dstva perm
  if x.1 < 0 then return x
  else do
    let y ← envPageMap x.2 cur srcva dst dstva perm
    if y.1 < 0 then return y
    else return (0, y.2.modifyEnv dst (fun v => { v with envIpcPerm := perm }))

/-- The page part of a send, for a page that is mapped. -/
theorem KernelInv.ipcSendPage_mapped (h : KernelInv M k) (hd : (k.envs cur).envPgdir = some d)
    (hroot : liveRoot k cur = some d) (hs : userPage srcva = true)
    (hp : mappedPage k cur srcva = some p) (dst : EnvIdx) (perm : Word) :
    ipcSendPage k cur dst srcva perm =
      if perm &&& pteW ≠ 0 ∧ userEntry k cur srcva &&& pteW = 0 then .ok (-eInval, k)
      else if (k.envs dst).envIpcDstva ≠ 0 then
        passPage k cur dst srcva (k.envs dst).envIpcDstva (granted perm)
      else .ok (0, k) := by
  obtain ⟨pte, hlookup, hword⟩ := h.pageLookup_mapped hd hroot hs hp
  obtain ⟨-, hpresent, -⟩ := entryPage_eq_some hp
  rw [ipcSendPage, pgdirOf_eq hd]
  show (pageLookup k.mem d srcva >>= _) = _
  rw [hlookup]
  show (if _ then _ else _) = _
  rw [hword, if_neg (fun hc => hpresent hc.2)]
  rfl

/-- A page that is not mapped is read through the pointer all the same. -/
theorem KernelInv.ipcSendPage_unmapped (h : KernelInv M k) (hd : (k.envs cur).envPgdir = some d)
    (hroot : liveRoot k cur = some d) (hs : userPage srcva = true)
    (hp : mappedPage k cur srcva = none) (dst : EnvIdx) (perm : Word) :
    ipcSendPage k cur dst srcva perm = .error .wildPte := by
  rw [mappedPage_eq (hroot.trans hd.symm) hs] at hp
  rw [ipcSendPage, pgdirOf_eq hd]
  show (pageLookup k.mem d srcva >>= _) = _
  rw [h.mem.pageLookup_none hroot rfl rfl hp]
  rfl

theorem granted_present (perm w : Word) : w ||| granted perm ||| pteP = w ||| granted perm :=
  and_or_absorb _ _ _ userBits_present

theorem and_ne_zero_of_or {a b c w : Word} (h : b &&& w ≠ 0) : (a ||| b ||| c) &&& w ≠ 0 := by
  intro hzero
  refine h ?_
  ext i hi
  have hbit := congrArg (fun x : Word => x[i]) hzero
  simp only [BitVec.getElem_and, BitVec.getElem_or] at hbit ⊢
  cases hb : b[i] <;> cases hw : w[i] <;> simp_all

/-- With the new page in place, `env_page_map` ends the matter. -/
theorem passPage_ok {k₁ : Kernel} {q : Nat} (halloc : envPageAlloc k dst dstva perm = .ok (0, k₁))
    (hmap : ∀ r k', envPageMap k₁ cur srcva dst dstva perm = .ok (r, k') →
      r = 0 ∧ ∃ mem, k' = { k₁ with mem := mem } ∧
        userEntry { k₁ with mem := mem } dst dstva = page2pa q ||| perm ||| pteP) {r : Int}
    (h : passPage k cur dst srcva dstva perm = .ok (r, k')) :
    r = 0 ∧ ∃ mem, k' = ({ k₁ with mem := mem } : Kernel).modifyEnv dst
        (fun v => { v with envIpcPerm := perm }) ∧
      userEntry { k₁ with mem := mem } dst dstva = page2pa q ||| perm ||| pteP := by
  rw [passPage, halloc, bind_ok] at h
  obtain ⟨_, hx, h⟩ := h
  cases hx
  dsimp only at h
  rw [if_neg (by decide), bind_ok] at h
  obtain ⟨⟨r', k₂⟩, hy, h⟩ := h
  obtain ⟨rfl, mem, rfl, hentry⟩ := hmap r' k₂ hy
  dsimp only at h
  rw [if_neg (by decide)] at h
  cases h
  exact ⟨rfl, mem, rfl, hentry⟩

/-- A page is passed on, or the target's address space stays as it is;
unless the page is sent to where it is, when a new one takes its place. -/
theorem KernelInv.passPage_spec (h : KernelInv M k) {ds dd : Nat}
    (hds : (k.envs cur).envPgdir = some ds) (hsrc : liveRoot k cur = some ds)
    (hdd : (k.envs dst).envPgdir = some dd) (hdst : liveRoot k dst = some dd)
    (hs : userPage srcva = true) (hdv : userPage dstva = true)
    (hp : mappedPage k cur srcva = some p) (hpass : MayPass k cur srcva perm) :
    (∃ r mem, passPage k cur dst srcva dstva (granted perm) = .ok (r, { k with mem := mem }) ∧
      r < 0 ∧ (∀ q, q ∉ k.mem.pageFreeList → mem.frames q = k.mem.frames q) ∧
      (checkPerm (granted perm) none ≠ 0 ∨ k.mem.pageFreeList = [] ∨
        mappedPage k dst dstva = none)) ∨
    ∃ q, checkPerm (granted perm) none = 0 ∧ k.mem.pageFreeList ≠ [] ∧ q < 1048576 ∧
      (if cur = dst ∧ srcva = dstva then q ∈ k.mem.pageFreeList
        else q = p ∧ ∃ x, passPage k cur dst srcva dstva (granted perm) = .ok x) ∧
      ∀ r k', passPage k cur dst srcva dstva (granted perm) = .ok (r, k') →
        r = 0 ∧ ∃ mem, k' = ({ k with mem := mem } : Kernel).modifyEnv dst
            (fun v => { v with envIpcPerm := granted perm }) ∧
          userEntry { k with mem := mem } dst dstva = page2pa q ||| granted perm := by
  rcases h.envPageAlloc_entries hdd hdst hdv (granted perm) with
    ⟨r, mem, heq, hneg, hkeep, hwhy⟩ | ⟨pp, mem, heq, hperm, hfree, hinv, hentry⟩
  · refine Or.inl ⟨r, mem, ?_, hneg, hkeep, hwhy⟩
    rw [passPage, heq]
    exact if_pos hneg
  · have h₁ := h.withMem hinv
    have hdst' : liveRoot { k with mem := mem } dst = some dd := hdst
    have hnew := hentry dst dstva (hdst.trans hdd.symm) hdv
    rw [if_pos ⟨rfl, rfl⟩] at hnew
    have hM := (h.mem.sound.free pp hfree).1
    have hharm : Harmless pp (granted perm) :=
      harmless_of_syscallPerm (checkPerm_ok (by rw [hperm]; decide)).1
    have hq : mappedPage { k with mem := mem } dst dstva = some pp := by
      rw [mappedPage, hnew, entryPage_entry (h.mem.page_lt hM) hharm]
    have hne : k.mem.pageFreeList ≠ [] := List.ne_nil_of_mem hfree
    by_cases hself : cur = dst ∧ srcva = dstva
    · -- the new page is what `env_page_map` finds
      obtain ⟨rfl, rfl⟩ := hself
      have hpass' : MayPass { k with mem := mem } cur srcva (granted perm) := by
        intro hw
        rw [hnew]
        exact and_ne_zero_of_or hw
      have hmap := (h₁.envPageMap_over hds hsrc hds hsrc hs hs hq hq hpass').2
      refine Or.inr ⟨pp, hperm, hne, h.mem.page_lt hM, by rw [if_pos ⟨rfl, rfl⟩]; exact hfree, ?_⟩
      intro r k' hpassed
      rw [← granted_present perm (page2pa pp)]
      exact passPage_ok heq hmap hpassed
    · have hold := hentry cur srcva (hsrc.trans hds.symm) hs
      rw [if_neg hself] at hold
      have hp' : mappedPage { k with mem := mem } cur srcva = some p := by
        rw [mappedPage, hold]
        exact hp
      have hpass' : MayPass { k with mem := mem } cur srcva (granted perm) := by
        rw [mayPass_granted, MayPass, hold]
        exact hpass
      have hslot := hp
      rw [mappedPage_eq (hsrc.trans hds.symm) hs] at hslot
      have hpp : pp ≠ p := fun hpp => h.mem.notMem_free hslot (hpp ▸ hfree)
      obtain ⟨hok, hmap⟩ := h₁.envPageMap_over hds hsrc hdd hdst' hs hdv hp' hq hpass'
      obtain ⟨mem', hok⟩ := hok hpp
      refine Or.inr ⟨p, hperm, hne, h.mem.page_lt (h.mem.managed hslot), ?_, ?_⟩
      · rw [if_neg hself]
        refine ⟨rfl, (0, ({ k with mem := mem' } : Kernel).modifyEnv dst
          (fun v => { v with envIpcPerm := granted perm })), ?_⟩
        rw [passPage, heq]
        show (envPageMap _ _ _ _ _ _ >>= _) = _
        rw [hok]
        rfl
      · intro r k' hpassed
        rw [← granted_present perm (page2pa p)]
        exact passPage_ok heq hmap hpassed

/-! ## `sys_ipc_try_send` -/

theorem Untouched.refl (k : Kernel) (e : EnvIdx) : Untouched k k e :=
  ⟨rfl, fun _ _ => rfl, fun _ _ _ _ => rfl⟩

/-- `bail:` touches no address space. -/
theorem userEntry_ipcDeliver (k : Kernel) (cur dst e : EnvIdx) (value va : Word) :
    userEntry (ipcDeliver k cur dst value) e va = userEntry k e va := by
  refine userEntry_congr rfl ?_
  rw [ipcDeliver, Kernel.modifyEnv_apply]
  split <;> rfl

/-- What `bail:` fills in; the permissions are there already. -/
theorem delivered_of_perm {k₁ : Kernel} (hid : (k₁.envs cur).envId = (k.envs cur).envId)
    (hpage : ∀ p, Transferred k (ipcDeliver k₁ cur dst value) cur dst srcva p →
      (k₁.envs dst).envIpcPerm = granted perm ∧
      userEntry k₁ dst (k.envs dst).envIpcDstva = page2pa p ||| granted perm)
    (hnone : (∀ p, ¬ Transferred k (ipcDeliver k₁ cur dst value) cur dst srcva p) →
      (k₁.envs dst).envIpcPerm = 0) :
    Delivered k (ipcDeliver k₁ cur dst value) cur dst value srcva perm where
  sender := by
    rw [ipcDeliver, Kernel.modifyEnv_self]
    exact hid
  value := by rw [ipcDeliver, Kernel.modifyEnv_self]
  recving := by rw [ipcDeliver, Kernel.modifyEnv_self]
  perm := by
    intro p hp
    rw [userEntry_ipcDeliver, ipcDeliver, Kernel.modifyEnv_self]
    exact hpage p hp
  noPage := by
    intro hp
    have hzero := hnone hp
    rw [ipcDeliver, Kernel.modifyEnv_self]
    exact hzero

theorem ipcDeliver_perm (k : Kernel) (cur dst : EnvIdx) (value : Word) :
    ((ipcDeliver k cur dst value).envs dst).envIpcPerm = (k.envs dst).envIpcPerm := by
  rw [ipcDeliver, Kernel.modifyEnv_self]

/-- A send that offers a page goes on to `page_lookup`. -/
theorem PageOffered.sysIpcTrySend_eq (h : PageOffered k cur envid srcva dst) (value perm : Word) :
    sysIpcTrySend k cur envid value srcva perm = (do
      let x ← ipcSendPage k cur dst srcva perm
      if x.1 < 0 then return x else return (0, ipcDeliver x.2 cur dst value)) := by
  have hpage := h.page
  simp only [userPage, Bool.and_eq_true, decide_eq_true_eq, beq_iff_eq] at hpage
  rw [sysIpcTrySend, h.target]
  dsimp only
  rw [if_neg (by rw [h.recving]; decide), if_neg (BitVec.not_le.mpr hpage.1),
    if_neg (not_not.mpr hpage.2)]

theorem PageOffered.unique {dst' : EnvIdx} (h : PageOffered k cur envid srcva dst)
    (h' : envid2env k cur envid false = some dst') : dst' = dst := by
  rw [h.target] at h'
  exact (Option.some.inj h').symm

theorem PageOffered.soundSend_iff (h : PageOffered k cur envid srcva dst) :
    SoundSend k cur envid srcva perm ↔ mappedPage k cur srcva ≠ none ∧
      (MayPass k cur srcva perm →
        ((k.envs dst).envIpcDstva = 0 → (k.envs dst).envIpcPerm = 0) ∧
        ¬ SelfSend k cur dst srcva perm) := by
  constructor
  · intro hsound
    exact hsound dst h
  · intro hdst dst' h'
    rw [h.unique h'.target]
    exact hdst

/-- The same for a send that offers a mapped page and has returned. -/
theorem PageOffered.allOrNothing_iff (h : PageOffered k cur envid srcva dst) {r : Int}
    (hp : mappedPage k cur srcva = some p)
    (hcall : sysIpcTrySend k cur envid value srcva perm = .ok (r, k')) :
    AllOrNothing k cur envid value srcva perm ↔
      (r < 0 → Untouched k k' dst) ∧ (0 ≤ r → r = 0 ∧ Delivered k k' cur dst value srcva perm) := by
  constructor
  · rintro ⟨r', k₂, hcall', hfail, hsent, -⟩
    rw [hcall] at hcall'
    cases hcall'
    refine ⟨fun hr => hfail hr dst h.target, fun hr => ?_⟩
    obtain ⟨hzero, dst', hdst', hdel⟩ := hsent hr
    rw [h.unique hdst'] at hdel
    exact ⟨hzero, hdel⟩
  · rintro ⟨hfail, hsent⟩
    refine ⟨r, k', hcall, ?_, ?_, ?_⟩
    · intro hr dst' hdst'
      rw [h.unique hdst']
      exact hfail hr
    · intro hr
      exact ⟨(hsent hr).1, dst, h.target, (hsent hr).2⟩
    · intro dst' _ hnone
      rw [hp] at hnone
      cases hnone

/-- A send that does not offer a page, for one reason or another. -/
theorem allOrNothing_of_no_page (hno : ∀ dst, ¬ PageOffered k cur envid srcva dst) :
    AllOrNothing k cur envid value srcva perm := by
  have hfailed : ∀ r, r < 0 → sysIpcTrySend k cur envid value srcva perm = .ok (r, k) →
      AllOrNothing k cur envid value srcva perm := fun r hr hcall =>
    ⟨r, k, hcall, fun _ dst _ => Untouched.refl k dst, fun hr' => absurd hr (not_lt.mpr hr'),
      fun dst ho _ => absurd ho (hno dst)⟩
  unfold sysIpcTrySend at hfailed
  cases hdst : envid2env k cur envid false with
  | none => exact hfailed (-eBadEnv) (by decide) (by rw [hdst]; rfl)
  | some dst =>
      cases hrecv : (k.envs dst).envIpcRecving with
      | false =>
          refine hfailed (-eIpcNotRecv) (by decide) ?_
          rw [hdst]
          exact if_pos hrecv
      | true =>
          by_cases hhigh : utop ≤ srcva
          · have hcall : sysIpcTrySend k cur envid value srcva perm = .ok (0, ipcDeliver
                (k.modifyEnv dst (fun v => { v with envIpcPerm := 0 })) cur dst value) := by
              rw [sysIpcTrySend, hdst]
              dsimp only
              rw [if_neg (by rw [hrecv]; decide), if_pos hhigh]
              rfl
            refine ⟨0, _, hcall, fun hr => absurd hr (by decide), fun _ => ⟨rfl, dst, hdst, ?_⟩,
              fun dst' ho _ => absurd ho (hno dst')⟩
            refine delivered_of_perm ?_ ?_ ?_
            · rw [Kernel.modifyEnv_apply]
              split <;> rfl
            · intro p hp
              exact absurd hp.1 (BitVec.not_lt.mpr hhigh)
            · intro _
              rw [Kernel.modifyEnv_self]
          · by_cases hmis : srcva.toNat % pgsize ≠ 0
            · refine hfailed (-eInval) (by decide) ?_
              rw [hdst]
              dsimp only
              rw [if_neg (by rw [hrecv]; decide), if_neg hhigh, if_pos hmis]
              rfl
            · refine absurd ⟨hdst, hrecv, ?_⟩ (hno dst)
              simp only [userPage, Bool.and_eq_true, decide_eq_true_eq, beq_iff_eq]
              exact ⟨BitVec.not_le.mp hhigh, not_not.mp hmis⟩

/-- A page that is not mapped: the call does not return. -/
theorem IpcState.unmapped (h : IpcState M k) (hcur : (k.envs cur).envStatus ≠ .free)
    (ho : PageOffered k cur envid srcva dst) (hp : mappedPage k cur srcva = none) :
    ¬ AllOrNothing k cur envid value srcva perm := by
  rintro ⟨r, k', hcall, -⟩
  obtain ⟨d, hd, hroot⟩ := h.kernel.rooted hcur
  rw [ho.sysIpcTrySend_eq, h.kernel.ipcSendPage_unmapped hd hroot ho.page hp] at hcall
  cases hcall

/-- A page that may not be passed on: the call fails at once. -/
theorem IpcState.refused (h : IpcState M k) (hcur : (k.envs cur).envStatus ≠ .free)
    (ho : PageOffered k cur envid srcva dst) (hp : mappedPage k cur srcva = some p)
    (hpass : ¬ MayPass k cur srcva perm) : AllOrNothing k cur envid value srcva perm := by
  obtain ⟨d, hd, hroot⟩ := h.kernel.rooted hcur
  have hcall : sysIpcTrySend k cur envid value srcva perm = .ok (-eInval, k) := by
    rw [MayPass, Classical.not_imp, not_not] at hpass
    rw [ho.sysIpcTrySend_eq, h.kernel.ipcSendPage_mapped hd hroot ho.page hp, if_pos hpass]
    rfl
  rw [ho.allOrNothing_iff hp hcall]
  exact ⟨fun _ => Untouched.refl k dst, fun hr => absurd hr (by decide)⟩

/-- A page that the target does not want: nothing is written to
`env_ipc_perm`. -/
theorem IpcState.unwanted (h : IpcState M k) (hcur : (k.envs cur).envStatus ≠ .free)
    (ho : PageOffered k cur envid srcva dst) (hp : mappedPage k cur srcva = some p)
    (hpass : MayPass k cur srcva perm) (hdstva : (k.envs dst).envIpcDstva = 0) :
    AllOrNothing k cur envid value srcva perm ↔ (k.envs dst).envIpcPerm = 0 := by
  obtain ⟨d, hd, hroot⟩ := h.kernel.rooted hcur
  have hcall : sysIpcTrySend k cur envid value srcva perm =
      .ok (0, ipcDeliver k cur dst value) := by
    rw [ho.sysIpcTrySend_eq, h.kernel.ipcSendPage_mapped hd hroot ho.page hp,
      if_neg (fun hc => hpass hc.1 hc.2), if_neg (not_not.mpr hdstva)]
    rfl
  have hnever : ∀ k' p, ¬ Transferred k k' cur dst srcva p := fun _ _ ht => ht.2.1 hdstva
  rw [ho.allOrNothing_iff hp hcall]
  constructor
  · rintro ⟨-, hsent⟩
    have hzero := (hsent (Int.le_refl 0)).2.noPage (hnever _)
    rw [ipcDeliver_perm] at hzero
    exact hzero
  · intro hzero
    refine ⟨fun hr => absurd hr (by decide), fun _ => ⟨rfl, ?_⟩⟩
    exact delivered_of_perm rfl (fun p ht => absurd ht (hnever _ p)) (fun _ => hzero)

theorem granted_ne_zero (perm : Word) : granted perm ≠ 0 := by
  intro hzero
  have hbit : granted perm &&& pteP = pteP := userBits_present
  rw [hzero] at hbit
  exact absurd hbit (by decide)

/-- The target after a page has been put at its address. -/
def passed (k : Kernel) (mem : Pmap) (cur dst : EnvIdx) (value perm : Word) : Kernel :=
  ipcDeliver (({ k with mem := mem } : Kernel).modifyEnv dst
    (fun v => { v with envIpcPerm := granted perm })) cur dst value

theorem userEntry_passed (k : Kernel) (mem : Pmap) (cur dst : EnvIdx) (value perm va : Word) :
    userEntry (passed k mem cur dst value perm) dst va =
      userEntry { k with mem := mem } dst va := by
  rw [passed, userEntry_ipcDeliver]
  refine userEntry_congr rfl ?_
  rw [Kernel.modifyEnv_self]

theorem passed_perm (k : Kernel) (mem : Pmap) (cur dst : EnvIdx) (value perm : Word) :
    ((passed k mem cur dst value perm).envs dst).envIpcPerm = granted perm := by
  rw [passed, ipcDeliver_perm, Kernel.modifyEnv_self]

/-- The entry that has been written is the one of page `q`. -/
theorem mappedPage_passed {mem : Pmap} {q : Nat} {va : Word} (hlt : q < 1048576)
    (hperm : checkPerm (granted perm) none = 0)
    (hentry : userEntry { k with mem := mem } dst va = page2pa q ||| granted perm) :
    mappedPage (passed k mem cur dst value perm) dst va = some q := by
  have hharm : Harmless q (granted perm) :=
    harmless_of_syscallPerm (checkPerm_ok (by rw [hperm]; decide)).1
  rw [mappedPage, userEntry_passed, hentry, ← granted_present, entryPage_entry hlt hharm]

/-- With the sender's page in place the message is complete. -/
theorem delivered_passed {mem : Pmap} (hs : srcva < utop) (hdstva : (k.envs dst).envIpcDstva ≠ 0)
    (hp : mappedPage k cur srcva = some p)
    (hentry : userEntry { k with mem := mem } dst (k.envs dst).envIpcDstva =
      page2pa p ||| granted perm)
    (hthere : mappedPage (passed k mem cur dst value perm) dst (k.envs dst).envIpcDstva = some p) :
    Delivered k (passed k mem cur dst value perm) cur dst value srcva perm := by
  refine delivered_of_perm ?_ ?_ ?_
  · rw [Kernel.modifyEnv_apply]
    split <;> rfl
  · intro p' hp'
    rw [hp'.2.2.1] at hp
    cases hp
    refine ⟨by rw [Kernel.modifyEnv_self], ?_⟩
    rw [← userEntry_passed k mem cur dst value perm] at hentry
    rw [← userEntry_ipcDeliver _ cur dst dst value]
    exact hentry
  · intro hno
    exact absurd ⟨hs, hdstva, hp, hthere⟩ (hno p)

/-- With another page in its place it is not: permissions are set, and no
page was transferred. -/
theorem not_delivered_passed {mem : Pmap} {q : Nat} (hp : mappedPage k cur srcva = some p)
    (hne : q ≠ p)
    (hthere : mappedPage (passed k mem cur dst value perm) dst (k.envs dst).envIpcDstva = some q) :
    ¬ Delivered k (passed k mem cur dst value perm) cur dst value srcva perm := by
  intro hdel
  have hzero := hdel.noPage (by
    rintro p' ⟨-, -, hp', hthere'⟩
    rw [hp] at hp'
    cases hp'
    rw [hthere] at hthere'
    exact hne (Option.some.inj hthere'))
  rw [passed_perm] at hzero
  exact granted_ne_zero perm hzero

/-- A page that the target wants is transferred, unless it is sent to
where it is. -/
theorem IpcState.wanted (h : IpcState M k) (hcur : (k.envs cur).envStatus ≠ .free)
    (ho : PageOffered k cur envid srcva dst) (hp : mappedPage k cur srcva = some p)
    (hpass : MayPass k cur srcva perm) (hdstva : (k.envs dst).envIpcDstva ≠ 0) :
    AllOrNothing k cur envid value srcva perm ↔ ¬ SelfSend k cur dst srcva perm := by
  obtain ⟨ds, hds, hsrc⟩ := h.kernel.rooted hcur
  obtain ⟨dd, hdd, hdst⟩ := h.kernel.live_of_envid2env hcur ho.target
  have hdv := (h.dstva dst).resolve_left hdstva
  have hcall := ho.sysIpcTrySend_eq value perm
  rw [h.kernel.ipcSendPage_mapped hds hsrc ho.page hp, if_neg (fun hc => hpass hc.1 hc.2),
    if_pos hdstva] at hcall
  rcases h.kernel.passPage_spec hds hsrc hdd hdst ho.page hdv hp hpass with
    ⟨r, mem, heq, hneg, hkeep, hwhy⟩ | ⟨q, hperm, hfree, hlt, hpage, hok⟩
  · rw [heq] at hcall
    replace hcall := hcall.trans (if_pos hneg)
    refine iff_of_true ((ho.allOrNothing_iff hp hcall).mpr ⟨fun _ => ?_, fun hr => ?_⟩) ?_
    · exact h.kernel.untouched (hdst.trans hdd.symm) hkeep
    · exact absurd hneg (not_lt.mpr hr)
    · rintro ⟨rfl, hva, -, hperm, hfree⟩
      rw [hva, hp] at hwhy
      rcases hwhy with hperm' | hfree' | hnone
      · exact hperm' hperm
      · exact hfree hfree'
      · cases hnone
  · have hreturns : ∀ {x},
        passPage k cur dst srcva (k.envs dst).envIpcDstva (granted perm) = .ok x →
        ∃ mem, sysIpcTrySend k cur envid value srcva perm =
            .ok (0, passed k mem cur dst value perm) ∧
          userEntry { k with mem := mem } dst (k.envs dst).envIpcDstva =
            page2pa q ||| granted perm := by
      intro x hx
      obtain ⟨hr, mem, hk', hentry⟩ := hok x.1 x.2 hx
      rw [hx] at hcall
      refine ⟨mem, hcall.trans ?_, hentry⟩
      show (if x.1 < 0 then _ else _) = _
      rw [hr, hk']
      rfl
    by_cases hself : cur = dst ∧ srcva = (k.envs dst).envIpcDstva
    · rw [if_pos hself] at hpage
      have hne : q ≠ p := by
        rintro rfl
        rw [mappedPage_eq (hsrc.trans hds.symm) ho.page] at hp
        exact h.kernel.mem.notMem_free hp hpage
      refine iff_of_false ?_ (not_not.mpr ⟨hself.1.symm, hself.2.symm, ?_, hperm, hfree⟩)
      · intro hall
        obtain ⟨r, k', hr, -⟩ := id hall
        rw [hcall, bind_ok] at hr
        obtain ⟨x, hx, -⟩ := hr
        obtain ⟨mem, hsend, hentry⟩ := hreturns hx
        exact not_delivered_passed hp hne (mappedPage_passed hlt hperm hentry)
          (((ho.allOrNothing_iff hp hsend).mp hall).2 (Int.le_refl 0)).2
      · rw [hself.2]
        exact hdstva
    · rw [if_neg hself] at hpage
      obtain ⟨rfl, x, hx⟩ := hpage
      obtain ⟨mem, hsend, hentry⟩ := hreturns hx
      refine iff_of_true ((ho.allOrNothing_iff hp hsend).mpr ⟨fun hr => absurd hr (by decide),
        fun _ => ⟨rfl, ?_⟩⟩) (fun hs => hself ⟨hs.target.symm, hs.dstva.symm⟩)
      exact delivered_passed (utop_of_userPage ho.page) hdstva hp hentry
        (mappedPage_passed hlt hperm hentry)

/-! ## Runs -/

theorem liveRoot_congr (henv : ∀ e, (k'.envs e).envPgdir = (k.envs e).envPgdir ∧
    ((k'.envs e).envStatus = .free ↔ (k.envs e).envStatus = .free)) : liveRoot k' = liveRoot k := by
  funext e
  obtain ⟨hpgdir, hfree⟩ := henv e
  rw [liveRoot, liveRoot, hpgdir]
  exact if_congr hfree rfl rfl

/-- The state is in order whatever the other fields of an environment
are. -/
theorem IpcState.congr (h : IpcState M k) (hmem : MemInv M (liveRoot k) none k'.mem)
    (hlist : k'.envFreeList = k.envFreeList)
    (henv : ∀ e, (k'.envs e).envPgdir = (k.envs e).envPgdir ∧
      ((k'.envs e).envStatus = .free ↔ (k.envs e).envStatus = .free))
    (hdstva : ∀ e, (k'.envs e).envIpcDstva = (k.envs e).envIpcDstva ∨
      userPage (k'.envs e).envIpcDstva = true) : IpcState M k' where
  kernel :=
    { mem := by
        rw [liveRoot_congr henv]
        exact hmem
      live := by
        intro e he
        rw [(henv e).1]
        exact h.kernel.live e (fun hfree => he ((henv e).2.mpr hfree))
      free := by
        intro e he
        rw [hlist] at he
        exact (henv e).2.mpr (h.kernel.free e he)
      nodup := by
        rw [hlist]
        exact h.kernel.nodup }
  dstva := by
    intro e
    rcases hdstva e with hsame | hpage
    · rw [hsame]
      exact h.dstva e
    · exact Or.inr hpage

theorem UpToPriority.ipcState (hp : UpToPriority k k') (h : IpcState M k) : IpcState M k' := by
  refine h.congr (by rw [hp.mem]; exact h.kernel.mem) hp.freeList (fun e => ?_) (fun e => ?_)
  · rw [hp.env e]
    exact ⟨rfl, Iff.rfl⟩
  · rw [hp.env e]
    exact Or.inl rfl

/-- The scheduler does not touch the memory. -/
theorem IpcState.schedYield (h : IpcState M k) (sched : Scheduler) (curenv : Option EnvIdx) :
    IpcState M (schedYield sched k curenv).1 := by
  obtain ⟨k₀, hp, ⟨e, hready, heq⟩ | heq | heq⟩ := schedYield_cases sched k curenv
  · have h₀ := hp.ipcState h
    have hlive : (k₀.envs e).envStatus ≠ .free := by
      rw [hp.status]
      rcases hready with hr | ⟨-, hr⟩
      · rw [hr]
        decide
      · rw [hr]
        decide
    rw [heq]
    refine h₀.congr (by rw [envRun_mem]; exact h₀.kernel.mem) (envRun_envFreeList k₀ curenv e)
      (fun e' => ?_) (fun e' => ?_)
    · rw [envRun_apply]
      split
      · rename_i he
        rw [he]
        exact ⟨rfl, iff_of_false (by simp) hlive⟩
      · split
        · rename_i hrun
          exact ⟨rfl, iff_of_false (by simp) (by rw [hrun.2]; decide)⟩
        · exact ⟨rfl, Iff.rfl⟩
    · rw [envRun_apply]
      split
      · rename_i he
        rw [he]
        exact Or.inl rfl
      · split
        · exact Or.inl rfl
        · exact Or.inl rfl
  · rw [heq]
    exact hp.ipcState h
  · rw [heq]
    exact hp.ipcState h

/-- The state a call has left. -/
def Outcome.kernel : Outcome → Kernel
  | .ret _ k => k
  | .left _ k => k

/-- `sys_ipc_recv` only keeps the address of a user page. -/
theorem IpcState.ipcRecv (h : IpcState M k) (hcur : (k.envs cur).envStatus ≠ .free)
    (sched : Scheduler) (dstva : Word) : IpcState M (sysIpcRecv sched k cur dstva).kernel := by
  have hrecv : IpcState M (k.modifyEnv cur (fun v => { v with envIpcRecving := true })) := by
    refine h.congr h.kernel.mem rfl (fun e => ?_) (fun e => ?_)
    · rw [Kernel.modifyEnv_apply]
      split <;> exact ⟨rfl, Iff.rfl⟩
    · rw [Kernel.modifyEnv_apply]
      split <;> exact Or.inl rfl
  unfold sysIpcRecv
  dsimp only
  split
  · exact hrecv
  · rename_i hpage
    refine IpcState.schedYield ?_ sched (some cur)
    refine hrecv.congr hrecv.kernel.mem rfl (fun e => ?_) (fun e => ?_)
    · rw [Kernel.modifyEnv_apply]
      split
      · rename_i he
        subst he
        rw [Kernel.modifyEnv_self]
        exact ⟨rfl, iff_of_false (by simp) hcur⟩
      · exact ⟨rfl, Iff.rfl⟩
    · rw [Kernel.modifyEnv_apply]
      split
      · exact Or.inr (not_not.mp hpage)
      · exact Or.inl rfl

theorem exists_ok_of_snd {x : Except Panic (Int × Kernel)} (h : x.map Prod.snd = .ok k') :
    ∃ r, x = .ok (r, k') := by
  cases x with
  | error e => cases h
  | ok y =>
      cases h
      exact ⟨y.1, rfl⟩

/-- The operations on the memory leave the IPC fields alone. -/
theorem pageStep_dstva {op : PageOp} (hstep : pageStep k op = .ok k') (e : EnvIdx) :
    (k'.envs e).envIpcDstva = (k.envs e).envIpcDstva := by
  cases op with
  | pageAlloc cur envid va perm =>
      obtain ⟨r, hcall⟩ := exists_ok_of_snd hstep
      rw [(sysPageAlloc_memOnly hcall).envs]
  | pageMap cur srcenvid srcva dstenvid dstva perm =>
      obtain ⟨r, hcall⟩ := exists_ok_of_snd hstep
      rw [(sysPageMap_memOnly hcall).envs]
  | pageUnmap cur envid va =>
      obtain ⟨r, hcall⟩ := exists_ok_of_snd hstep
      rw [(sysPageUnmap_memOnly hcall).envs]
  | envAlloc parentId =>
      unfold pageStep at hstep
      dsimp only at hstep
      split at hstep
      · cases hstep
        rfl
      · rename_i e' k₂ halloc
        cases hstep
        obtain ⟨rest, pgdir, mem, -, -, rfl⟩ := envAlloc_ok halloc
        rw [Kernel.modifyEnv_apply]
        split <;> rfl
  | envFree e' =>
      obtain ⟨mem, rfl⟩ := envFree_ok hstep
      rw [Kernel.modifyEnv_apply]
      split <;> rfl

theorem IpcState.pageStep {op : PageOp} (h : IpcState M k) (hlive : op.Live k)
    (hop : ConfinedStep k op) (hstep : pageStep k op = .ok k') : IpcState M k' := by
  obtain ⟨k₂, heq, hinv, -⟩ := h.kernel.step hlive hop.2 hop.1
  rw [hstep] at heq
  cases heq
  refine ⟨hinv, fun e => ?_⟩
  rw [pageStep_dstva hstep]
  exact h.dstva e

/-- The count of the page that is about to be sent can still go up. -/
def RoomToSend (k : Kernel) (cur : EnvIdx) (srcva : Word) : Prop :=
  ∀ p, mappedPage k cur srcva = some p → k.mem.ppRef p < 65535

/-- A page that is mapped has no more uses after another one has been
mapped; the new page has one. -/
theorem MemInv.ppRef_inserted {roots : EnvIdx → Option Nat} {m mem : Pmap} {i : Fin userPdes}
    {j : Fin nptentries} {pp q : Nat} {s : Slot} (h : MemInv M roots none m)
    (h' : MemInv M roots none mem) (hfree : pp ∈ m.pageFreeList)
    (hleaf : ∀ s : Slot, ¬ s.Table →
      target roots mem s = if s = .pte e i j then some pp else target roots m s)
    (hs : ¬ s.Table) (hq : target roots mem s = some q) :
    mem.ppRef q ≤ max 1 (m.ppRef q) := by
  have hcount : mem.ppRef q = uses (target roots mem) q := h'.sound.count q (h'.managed hq)
  have hslots : ∀ s', target roots mem s' = some q → ¬ s'.Table := by
    intro s' hs' htable
    rw [h'.table_eq htable hs' hq] at hs
    exact hs htable
  rw [hcount]
  by_cases hnew : q = pp
  · subst hnew
    refine Nat.le_trans (uses_le_card (κ := Unit) (f := fun _ => Slot.pte e i j) ?_) (by simp)
    intro s' hs'
    refine ⟨(), ?_⟩
    have htarget := hleaf s' (hslots s' hs')
    rw [hs'] at htarget
    by_contra hne
    rw [if_neg (fun heq => hne heq.symm)] at htarget
    exact h.unused_of_free hfree htarget.symm
  · have hold : ∀ s', target roots mem s' = some q → target roots m s' = some q := by
      intro s' hs'
      have htarget := hleaf s' (hslots s' hs')
      rw [hs'] at htarget
      split at htarget
      · exact absurd (Option.some.inj htarget) hnew
      · exact htarget.symm
    have hbefore : m.ppRef q = uses (target roots m) q := h.sound.count q (h'.managed hq)
    rw [hbefore]
    exact Nat.le_trans (Set.ncard_le_ncard hold) (Nat.le_max_right _ _)

/-- The memory is in order after a page has been passed on. -/
theorem KernelInv.passPage_mem (h : KernelInv M k) {ds dd : Nat}
    (hds : (k.envs cur).envPgdir = some ds) (hsrc : liveRoot k cur = some ds)
    (hdd : (k.envs dst).envPgdir = some dd) (hdst : liveRoot k dst = some dd)
    (hs : userPage srcva = true) (hdv : userPage dstva = true) (hroom : RoomToSend k cur srcva)
    {r : Int} (hpassed : passPage k cur dst srcva dstva perm = .ok (r, k')) :
    MemInv M (liveRoot k) none k'.mem := by
  unfold passPage at hpassed
  rcases h.envPageAlloc_cases hdd hdst hdv perm with ⟨hperm, heq⟩ | ⟨-, heq⟩ |
    ⟨pp, rest, hperm, hfree, h₁, htarget, ⟨heq, -, -⟩ | ⟨mem, heq, -, hinv, hins⟩⟩
  · rw [heq] at hpassed
    replace hpassed := (if_pos hperm).symm.trans hpassed
    cases hpassed
    exact h.mem
  · rw [heq] at hpassed
    cases hpassed
    exact h.mem
  · rw [heq] at hpassed
    cases hpassed
    exact h₁
  · have hmem : pp ∈ k.mem.pageFreeList := by
      rw [hfree]
      exact List.mem_cons_self
    have hcount : ∀ page, target (liveRoot k) mem (slotOf cur srcva hs) = some page →
        mem.ppRef page < 65535 ∧ Harmless page perm := by
      intro page hpage
      refine ⟨?_, harmless_of_syscallPerm (checkPerm_ok hperm).1⟩
      have hleaf := hins.leaf
      rw [htarget] at hleaf
      have hle := h.mem.ppRef_inserted hinv hmem hleaf (Slot.not_table_pte _ _ _) hpage
      rw [slotOf, hleaf _ (Slot.not_table_pte _ _ _)] at hpage
      split at hpage
      · cases hpage
        have hzero : k.mem.ppRef pp = 0 := (h.mem.sound.free pp hmem).2
        omega
      · have hlt := hroom page (by rw [mappedPage_eq (hsrc.trans hds.symm) hs]; exact hpage)
        omega
    rw [heq, bind_ok] at hpassed
    obtain ⟨_, hx, hpassed⟩ := hpassed
    cases hx
    dsimp only at hpassed
    rw [if_neg (by decide), bind_ok] at hpassed
    obtain ⟨⟨r', k₂⟩, hmap, hpassed⟩ := hpassed
    have hinv₂ : MemInv M (liveRoot k) none k₂.mem := by
      rcases (h.withMem hinv).envPageMap_spec hds hsrc hdd hdst hs hdv perm hcount with
        ⟨_, heq₂, -⟩ | ⟨_, mem₂, -, heq₂, hinv₂, -⟩
      · rw [hmap] at heq₂
        cases heq₂
        exact hinv
      · rw [hmap] at heq₂
        cases heq₂
        exact hinv₂
    dsimp only at hpassed
    split at hpassed
    · cases hpassed
      exact hinv₂
    · cases hpassed
      exact hinv₂

theorem IpcState.ipcDeliver (h : IpcState M k) (hdst : (k.envs dst).envStatus ≠ .free)
    (cur : EnvIdx) (value : Word) : IpcState M (ipcDeliver k cur dst value) := by
  refine h.congr h.kernel.mem rfl (fun e => ?_) (fun e => ?_)
  · rw [Kern.ipcDeliver, Kernel.modifyEnv_apply]
    split
    · rename_i he
      subst he
      exact ⟨rfl, iff_of_false (by simp) hdst⟩
    · exact ⟨rfl, Iff.rfl⟩
  · rw [Kern.ipcDeliver, Kernel.modifyEnv_apply]
    split <;> exact Or.inl rfl

theorem IpcState.upToPerm (h : IpcState M k) (hmem : MemInv M (liveRoot k) none k'.mem)
    (hlist : k'.envFreeList = k.envFreeList) (hp : UpToPerm k k') : IpcState M k' := by
  refine h.congr hmem hlist (fun e => ?_) (fun e => ?_)
  · rw [hp e]
    exact ⟨rfl, Iff.rfl⟩
  · rw [hp e]
    exact Or.inl rfl

theorem IpcState.ipcSendPage (h : IpcState M k) (hcur : (k.envs cur).envStatus ≠ .free)
    (ho : PageOffered k cur envid srcva dst) (hroom : RoomToSend k cur srcva) {r : Int}
    (hsend : ipcSendPage k cur dst srcva perm = .ok (r, k')) : IpcState M k' := by
  obtain ⟨ds, hds, hsrc⟩ := h.kernel.rooted hcur
  obtain ⟨dd, hdd, hdst⟩ := h.kernel.live_of_envid2env hcur ho.target
  refine h.upToPerm ?_ (ipcSendPage_envs hsend).1 (ipcSendPage_envs hsend).2
  cases hp : mappedPage k cur srcva with
  | none =>
      rw [h.kernel.ipcSendPage_unmapped hds hsrc ho.page hp] at hsend
      cases hsend
  | some p =>
      rw [h.kernel.ipcSendPage_mapped hds hsrc ho.page hp] at hsend
      split at hsend
      · cases hsend
        exact h.kernel.mem
      · split at hsend
        · rename_i hwant
          exact h.kernel.passPage_mem hds hsrc hdd hdst ho.page ((h.dstva dst).resolve_left hwant)
            hroom hsend
        · cases hsend
          exact h.kernel.mem

/-- A send that returns leaves the state in order. -/
theorem IpcState.ipcTrySend (h : IpcState M k) (hcur : (k.envs cur).envStatus ≠ .free)
    (hroom : RoomToSend k cur srcva) {r : Int}
    (hcall : sysIpcTrySend k cur envid value srcva perm = .ok (r, k')) : IpcState M k' := by
  unfold sysIpcTrySend at hcall
  split at hcall
  · cases hcall
    exact h
  · rename_i dst hdst
    have hlive : (k.envs dst).envStatus ≠ .free := by
      obtain ⟨d, -, hroot⟩ := h.kernel.live_of_envid2env hcur hdst
      intro hfree
      rw [liveRoot, if_pos hfree] at hroot
      cases hroot
    split at hcall
    · cases hcall
      exact h
    · rename_i hrecv
      split at hcall
      · cases hcall
        refine IpcState.ipcDeliver ?_ ?_ cur value
        · refine h.upToPerm h.kernel.mem rfl (fun e => ?_)
          rw [Kernel.modifyEnv_apply]
          split <;> rfl
        · rw [Kernel.modifyEnv_self]
          exact hlive
      · rename_i hlow
        split at hcall
        · cases hcall
          exact h
        · rename_i halign
          have ho : PageOffered k cur envid srcva dst := by
            refine ⟨hdst, by simpa using hrecv, ?_⟩
            simp only [userPage, Bool.and_eq_true, decide_eq_true_eq, beq_iff_eq]
            exact ⟨BitVec.not_le.mp hlow, not_not.mp halign⟩
          rw [bind_ok] at hcall
          obtain ⟨⟨r', k₁⟩, hsend, hcall⟩ := hcall
          have h₁ := h.ipcSendPage hcur ho hroom hsend
          dsimp only at hcall
          split at hcall
          · cases hcall
            exact h₁
          · cases hcall
            refine h₁.ipcDeliver ?_ cur value
            rw [(ipcSendPage_envs hsend).2 dst]
            exact hlive

/-- The steps of a system that allocates, maps and sends pages, none of
which wraps a count. -/
inductive IpcStep (sched : Scheduler) (k : Kernel) : Kernel → Prop where
  | page {k' : Kernel} (op : PageOp) : op.Live k → ConfinedStep k op → pageStep k op = .ok k' →
      IpcStep sched k k'
  | recv {cur : EnvIdx} (dstva : Word) : (k.envs cur).envStatus ≠ .free →
      IpcStep sched k (sysIpcRecv sched k cur dstva).kernel
  | send {cur : EnvIdx} {envid r : Int} {value srcva perm : Word} {k' : Kernel} :
      (k.envs cur).envStatus ≠ .free → RoomToSend k cur srcva →
      sysIpcTrySend k cur envid value srcva perm = .ok (r, k') → IpcStep sched k k'

theorem IpcState.step {sched : Scheduler} (h : IpcState M k) (hstep : IpcStep sched k k') :
    IpcState M k' := by
  cases hstep with
  | page op hlive hop heq => exact h.pageStep hlive hop heq
  | recv dstva hcur => exact h.ipcRecv hcur sched dstva
  | send hcur hroom hcall => exact h.ipcTrySend hcur hroom hcall

/-- Every state of a run after boot is in order. -/
theorem ipcState_of_run {sched : Scheduler} {k₀ : Kernel} (h₀ : PagesBooted k₀)
    (hdstva : ∀ e, (k₀.envs e).envIpcDstva = 0)
    (hrun : Relation.ReflTransGen (IpcStep sched) k₀ k) :
    IpcState (fun p => p ∈ k₀.mem.pageFreeList) k := by
  induction hrun with
  | refl => exact ⟨h₀.kernelInv, fun e => Or.inl (hdstva e)⟩
  | tail _ hlast ih => exact ih.step hlast

/-- A send is all or nothing if and only if it reaches none of the three
defects. -/
theorem sysIpcTrySend_all_or_nothing_iff (h : IpcState M k)
    (hcur : (k.envs cur).envStatus ≠ .free) (envid : Int) (value srcva perm : Word) :
    AllOrNothing k cur envid value srcva perm ↔ SoundSend k cur envid srcva perm := by
  by_cases hoffer : ∃ dst, PageOffered k cur envid srcva dst
  · obtain ⟨dst, ho⟩ := hoffer
    rw [ho.soundSend_iff]
    cases hp : mappedPage k cur srcva with
    | none => exact iff_of_false (h.unmapped hcur ho hp) (fun hs => hs.1 rfl)
    | some p =>
        have hsome : (some p : Option Nat) ≠ none := Option.some_ne_none p
        by_cases hpass : MayPass k cur srcva perm
        · by_cases hdstva : (k.envs dst).envIpcDstva = 0
          · rw [h.unwanted hcur ho hp hpass hdstva]
            constructor
            · intro hzero
              refine ⟨hsome, fun _ => ⟨fun _ => hzero, ?_⟩⟩
              rintro ⟨-, hva, hne, -, -⟩
              exact hne (hva.symm.trans hdstva)
            · rintro ⟨-, hs⟩
              exact (hs hpass).1 hdstva
          · rw [h.wanted hcur ho hp hpass hdstva]
            constructor
            · intro hself
              exact ⟨hsome, fun _ => ⟨fun hzero => absurd hzero hdstva, hself⟩⟩
            · rintro ⟨-, hs⟩
              exact (hs hpass).2
        · exact iff_of_true (h.refused hcur ho hp hpass) ⟨hsome, fun hs => absurd hs hpass⟩
  · refine iff_of_true (allOrNothing_of_no_page (fun dst ho => hoffer ⟨dst, ho⟩)) ?_
    exact fun dst ho => absurd ⟨dst, ho⟩ hoffer

/-- Seven pages and two slots. -/
def ipcBoot : Kernel where
  envs _ := {}
  envFreeList := [0, 1]
  mem := { npages := 64, kernPgdir := 1, frames := fun _ _ => 0, ppRef := fun _ => 0,
           pageFreeList := [10, 11, 12, 13, 14, 15, 16] }

theorem ipcBoot_booted : PagesBooted ipcBoot where
  noEnv := fun _ => rfl
  envNodup := by decide
  nodup := by decide
  npages := by decide
  free := by decide
  kernel := fun _ _ => rfl

/-- Two environments. -/
def ipcEnvs : Except Panic Kernel := do
  let k ← pageStep ipcBoot (.envAlloc 0)
  pageStep k (.envAlloc 0)

/-- The first one has a page at `0x1000`. -/
def ipcPair : Except Panic Kernel := do
  let k ← ipcEnvs
  pageStep k (.pageAlloc 0 0 0x1000 pteW)

/-- The second one waits for a page at `dstva`. -/
def ipcWaiting (dstva : Word) : Except Panic Kernel :=
  ipcPair.map (fun k => (sysIpcRecv .roundRobin k 1 dstva).kernel)

theorem ipcWaiting_state {dstva : Word} (h : ipcWaiting dstva = .ok k) :
    IpcState (fun p => p ∈ ipcBoot.mem.pageFreeList) k := by
  obtain ⟨k₂, henvs, hfirst⟩ := eval_ok (x := ipcEnvs) (f := fun k => (k.envs 0).envStatus)
    (v := .runnable) (by decide +kernel)
  obtain ⟨k₃, hpair, hsecond⟩ := eval_ok (x := ipcPair) (f := fun k => (k.envs 1).envStatus)
    (v := .runnable) (by decide +kernel)
  rw [ipcWaiting, hpair] at h
  cases h
  rw [ipcPair, henvs] at hpair
  replace hpair : pageStep k₂ (.pageAlloc 0 0 0x1000 pteW) = .ok k₃ := hpair
  rw [ipcEnvs, bind_ok] at henvs
  obtain ⟨k₁, h₁, h₂⟩ := henvs
  have halloc : ∀ k parentId, ConfinedStep k (.envAlloc parentId) := fun _ _ =>
    ⟨trivial, fun _ hp => by cases hp⟩
  have hlive : (k₂.envs 0).envStatus ≠ .free := by
    rw [hfirst]
    decide
  have hlive' : (k₃.envs 1).envStatus ≠ .free := by
    rw [hsecond]
    decide
  have hrun : Relation.ReflTransGen (IpcStep .roundRobin) ipcBoot k₃ :=
    ((Relation.ReflTransGen.single (.page (.envAlloc 0) trivial (halloc _ _) h₁)).tail
      (.page (.envAlloc 0) trivial (halloc _ _) h₂)).tail
      (.page (.pageAlloc 0 0 0x1000 pteW) hlive ⟨trivial, fun _ hp => by cases hp⟩ hpair)
  exact ipcState_of_run ipcBoot_booted (fun _ => rfl) (hrun.tail (.recv dstva hlive'))

/-- A page is sent to an environment that waits for one. -/
theorem sysIpcTrySend_all_or_nothing_iff_page : ∃ k, ipcWaiting 0x2000 = .ok k ∧
    AllOrNothing k 0 4097 7 0x1000 pteW := by
  obtain ⟨k, hk, hfacts⟩ := eval_ok (x := ipcWaiting 0x2000)
    (f := fun k => (envid2env k 0 4097 false, mappedPage k 0 0x1000, (k.envs 1).envIpcDstva,
      (k.envs 0).envStatus)) (v := (some 1, some 12, 0x2000, .running)) (by decide +kernel)
  obtain ⟨hdst, hfacts⟩ := Prod.mk.inj hfacts
  obtain ⟨hpage, hfacts⟩ := Prod.mk.inj hfacts
  obtain ⟨hdstva, hcur⟩ := Prod.mk.inj hfacts
  refine ⟨k, hk, (sysIpcTrySend_all_or_nothing_iff (ipcWaiting_state hk) ?_ _ _ _ _).mpr ?_⟩
  · rw [hcur]
    decide
  · intro dst ho
    obtain rfl := ho.unique hdst
    refine ⟨by rw [hpage]; simp, fun _ => ⟨?_, ?_⟩⟩
    · rw [hdstva]
      exact fun hzero => absurd hzero (by decide)
    · rintro ⟨hself, -⟩
      exact absurd hself (by decide)

/-- The page has been received, and the second environment waits again,
this time for no page. -/
def ipcAgain : Except Panic Kernel := do
  let k ← ipcWaiting 0x2000
  let x ← sysIpcTrySend k 0 4097 7 0x1000 pteW
  return (sysIpcRecv .roundRobin x.2 1 0).kernel

/-- The next message carries no page and leaves the permissions of the
last one; and the address of a page that is not mapped is not refused. -/
theorem stale_permissions : ∃ k k', ipcAgain = .ok k ∧
    sysIpcTrySend k 0 4097 8 0x1000 pteW = .ok (0, k') ∧ (k.envs 1).envIpcDstva = 0 ∧
    (k'.envs 1).envIpcPerm = 7 ∧ ¬ AllOrNothing k 0 4097 8 0x1000 pteW ∧
    ¬ AllOrNothing k 0 4097 8 0x3000 0 := by
  obtain ⟨k, hk, hfacts⟩ := eval_ok (x := ipcAgain)
    (f := fun k => (envid2env k 0 4097 false, (k.envs 1).envIpcDstva,
      (sysIpcTrySend k 0 4097 8 0x1000 pteW).toOption.map (fun x => (x.1, (x.2.envs 1).envIpcPerm)),
      (sysIpcTrySend k 0 4097 8 0x3000 0).toOption.isNone))
    (v := (some 1, 0, some (0, 7), true)) (by decide +kernel)
  obtain ⟨hdst, hfacts⟩ := Prod.mk.inj hfacts
  obtain ⟨hdstva, hfacts⟩ := Prod.mk.inj hfacts
  obtain ⟨hsent, hwild⟩ := Prod.mk.inj hfacts
  obtain ⟨⟨r, k'⟩, hcall, hresult⟩ := eval_ok hsent
  obtain ⟨hr, hperm⟩ := Prod.mk.inj hresult
  replace hr : r = 0 := hr
  replace hperm : (k'.envs 1).envIpcPerm = 7 := hperm
  subst hr
  refine ⟨k, k', hk, hcall, hdstva, hperm, ?_, ?_⟩
  · rintro ⟨r, k₂, hcall₂, -, hdelivered, -⟩
    rw [hcall] at hcall₂
    cases hcall₂
    obtain ⟨-, dst, hdst', hdel⟩ := hdelivered (Int.le_refl 0)
    rw [hdst] at hdst'
    cases hdst'
    have hzero := hdel.noPage (fun _ ht => ht.2.1 hdstva)
    rw [hperm] at hzero
    exact absurd hzero (by decide)
  · rintro ⟨r, k₂, hcall₂, -⟩
    rw [hcall₂] at hwild
    cases hwild

end SistemasOperativos.Kern
