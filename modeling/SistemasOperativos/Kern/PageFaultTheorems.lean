/-
SistemasOperativos.Kern.PageFaultTheorems — what a page fault in user mode
can do to the kernel.

The frame goes to the top of the exception stack, or below the stack
pointer when the fault is nested. Only in the nested case can it leave the
page, at the lower end, and there `page_fault_handler` stores first and
tests afterwards: the test is a `panic`, and the store may be one before
it. The comment over the code asks for the environment to be destroyed.
So the kernel survives exactly the faults that leave room for the scratch
word and the frame.
-/
import SistemasOperativos.Kern.PageFault
import SistemasOperativos.Kern.UserMemTheorems

namespace SistemasOperativos.Kern

open SistemasOperativos.Lib (wordBytes)

/-! ## The specification -/

/-- A fault in user mode, of an environment with an upcall and an
exception stack that it may write to. -/
structure UpcallReady (k : Kernel) (e : EnvIdx) : Prop where
  walkable : Walkable k e
  stack : grants k e (pteP ||| pteW ||| pteU) exstk = true
  user : (k.envs e).envTf.tfCs &&& 3 ≠ 0
  upcall : (k.envs e).envPgfaultUpcall ≠ 0

/-- The frame is on the exception stack, with the scratch word over it if
the fault was on that stack, and `curenv` runs at its upcall. -/
def Resumed (k : Kernel) (curenv : EnvIdx) (faultVa : Word) (r : FaultResult) : Prop :=
  ∃ k' tmp, r.ended = .ok (k', some (.run curenv)) ∧
    (k'.envs curenv).envTf = { (k.envs curenv).envTf with
      tfEsp := tmp, tfEip := (k.envs curenv).envPgfaultUpcall } ∧
    (k'.envs curenv).envStatus = .running ∧
    ⟨tmp, (utrapframe (k.envs curenv).envTf faultVa).bytes⟩ ∈ r.stores ∧
    (exstk ≤ (k.envs curenv).envTf.tfEsp ∧ (k.envs curenv).envTf.tfEsp < uxstacktop →
      ⟨(k.envs curenv).envTf.tfEsp - 4, wordBytes 0⟩ ∈ r.stores)

/-- The environment is destroyed, and nothing has been stored. -/
def Destroyed (sched : Scheduler) (k : Kernel) (curenv : EnvIdx) (r : FaultResult) : Prop :=
  r.stores = [] ∧ ∃ k' leave, envDestroy sched k curenv curenv = .ok (k', leave) ∧
    r.ended = .ok (k', leave)

/-- Nothing is stored outside the page of the exception stack, and the
fault costs at most the environment. -/
structure Contained (sched : Scheduler) (k : Kernel) (curenv : EnvIdx) (faultVa : Word)
    (r : FaultResult) : Prop where
  inPage : ∀ st ∈ r.stores, ∀ i < st.bytes.length,
    exstk ≤ st.addr + BitVec.ofNat 32 i ∧ st.addr + BitVec.ofNat 32 i < uxstacktop
  ends : Resumed k curenv faultVa r ∨ Destroyed sched k curenv r

/-! ## The exception stack -/

variable {k : Kernel} {e : EnvIdx} {va perm : Word} {st : Store}

/-- All addresses of the page have the entries of the first one. -/
theorem grants_page (hlo : exstk ≤ va) (hhi : va < uxstacktop) :
    grants k e perm va = grants k e perm exstk := by
  have hlo' : 0xEEBFF000 ≤ va.toNat := hlo
  have hhi' : va.toNat < 0xEEC00000 := hhi
  have hpdx : pdx va = pdx exstk := by
    show va.toNat / 4194304 = 954
    omega
  have hptx : ptx va = ptx exstk := by
    show va.toNat / 4096 % 1024 = 1023
    omega
  simp only [grants, hpdx, hptx]

/-- A page with more bits grants fewer. -/
theorem grants_writable (h : grants k e (pteP ||| pteW ||| pteU) va = true) :
    grants k e (pteP ||| pteW) va = true := by
  have hbits : ∀ w : Word, w &&& (pteP ||| pteW ||| pteU) = pteP ||| pteW ||| pteU →
      w &&& (pteP ||| pteW) = pteP ||| pteW := by
    intro w hw
    calc w &&& (pteP ||| pteW) = w &&& ((pteP ||| pteW ||| pteU) &&& (pteP ||| pteW)) := by
          rw [show (pteP ||| pteW ||| pteU) &&& (pteP ||| pteW) = pteP ||| pteW by decide]
      _ = pteP ||| pteW := by
          rw [← BitVec.and_assoc, hw]
          decide
  unfold grants at *
  cases hd : (k.envs e).envPgdir with
  | none =>
      rw [hd] at h
      cases h
  | some d =>
      rw [hd] at h
      simp only [Bool.and_eq_true, beq_iff_eq] at h ⊢
      exact ⟨hbits _ h.1, hbits _ h.2⟩

/-- A store that stays in the page can be made. -/
theorem storable_page (hstk : grants k e (pteP ||| pteW ||| pteU) exstk = true)
    (h : ∀ i < st.bytes.length,
      exstk ≤ st.addr + BitVec.ofNat 32 i ∧ st.addr + BitVec.ofNat 32 i < uxstacktop) :
    storable k e st = true := by
  rw [storable, List.all_eq_true]
  intro i hi
  obtain ⟨hlo, hhi⟩ := h i (List.mem_range.mp hi)
  rw [grants_page hlo hhi]
  exact grants_writable hstk

/-- `user_mem_assert` lets the handler go on. -/
theorem userMemAssert_exstk (hwalk : Walkable k e)
    (hstk : grants k e (pteP ||| pteW ||| pteU) exstk = true) (sched : Scheduler)
    (checkAddr : Word) :
    ∃ addr, userMemAssert sched k e e exstk 4096 (pteU ||| pteW) checkAddr =
      .ok (k, none, addr) := by
  obtain ⟨d, hd⟩ := hwalk.pgdir
  unfold grants at hstk
  rw [hd] at hstk
  simp only [Bool.and_eq_true, beq_iff_eq] at hstk
  have hpde : k.mem.frames d (pdx exstk) ≠ 0 := by
    intro hzero
    rw [hzero] at hstk
    exact absurd hstk.1 (by decide)
  have htable := hwalk.tables d hd (pdx exstk) (by decide) hpde
  have hgrant : PageGranted k e (pteU ||| pteW ||| pteU) 977919 := by
    refine ⟨d, ⟨pgnum (k.mem.frames d (pdx exstk)), ptx exstk⟩, hd, ?_, hstk.2⟩
    show pgdirFind k.mem d exstk = _
    rw [pgdirFind, if_pos hpde, kaddr, pgnum_pteAddr, if_neg (by omega)]
    rfl
  have hcheck : ∃ addr, userMemCheck k e exstk 4096 (pteU ||| pteW ||| pteU) checkAddr =
      .ok (0, addr) := by
    rcases hwalk.userMemCheck_spec (pteU ||| pteW ||| pteU) (le_refl 977920)
        (show (roundup (exstk + 4096)).toNat = 977920 * 4096 by decide) checkAddr with
      ⟨-, hok⟩ | ⟨hno, -⟩
    · exact hok
    · refine absurd (fun q hlo hhi => ?_) hno
      have hq : q = 977919 := by
        have hlo' : 977919 ≤ q := hlo
        omega
      rw [hq]
      exact hgrant
  obtain ⟨addr, haddr⟩ := hcheck
  refine ⟨addr, ?_⟩
  rw [userMemAssert, haddr]
  rfl

/-! ## The stores -/

@[simp] theorem length_bytes (utf : UTrapframe) : utf.bytes.length = 52 := rfl

variable {tf : Trapframe} {faultVa : Word}

/-- The frame goes to the top of the exception stack, or below the
scratch word. -/
theorem pushUTrapframe_cases (tf : Trapframe) (faultVa : Word) :
    ((tf.tfEsp < exstk ∨ tf.tfEsp > exstkTop) ∧ pushUTrapframe tf faultVa =
      ([⟨exstkTop - sizeofUTrapframe, (utrapframe tf faultVa).bytes⟩],
        exstkTop - sizeofUTrapframe)) ∨
    (exstk ≤ tf.tfEsp ∧ tf.tfEsp < uxstacktop ∧ pushUTrapframe tf faultVa =
      ([⟨tf.tfEsp - 4, wordBytes 0⟩,
        ⟨tf.tfEsp - 4 - sizeofUTrapframe, (utrapframe tf faultVa).bytes⟩],
        tf.tfEsp - 4 - sizeofUTrapframe)) := by
  have hutf : (utrapframe tf faultVa).utfEsp = tf.tfEsp := rfl
  unfold pushUTrapframe
  simp only [hutf]
  by_cases hordinary : tf.tfEsp < exstk ∨ tf.tfEsp > exstkTop
  · exact Or.inl ⟨hordinary, if_pos hordinary⟩
  · exact Or.inr ⟨by bv_omega, by bv_omega, if_neg hordinary⟩

/-- A run of bytes in the page of the exception stack. -/
theorem inPage_of_le {a : Word} {n i : Nat} (hlo : exstk ≤ a) (hn : n < 4096)
    (hhi : a.toNat + n ≤ uxstacktop.toNat) (hi : i < n) :
    exstk ≤ a + BitVec.ofNat 32 i ∧ a + BitVec.ofNat 32 i < uxstacktop := by
  bv_omega

/-- Everything stays in the page if there is room for the scratch word and
the frame. -/
theorem pushUTrapframe_inPage (hroom : ¬ (exstk ≤ tf.tfEsp ∧ tf.tfEsp < exstk + 56)) :
    (∀ st ∈ (pushUTrapframe tf faultVa).1, ∀ i < st.bytes.length,
      exstk ≤ st.addr + BitVec.ofNat 32 i ∧ st.addr + BitVec.ofNat 32 i < uxstacktop) ∧
    ¬ ((pushUTrapframe tf faultVa).2 < exstk ∨ (pushUTrapframe tf faultVa).2 > exstkTop) := by
  rcases pushUTrapframe_cases tf faultVa with ⟨-, hpush⟩ | ⟨hlo, hhi, hpush⟩
  · rw [hpush]
    refine ⟨fun st hst i hi => ?_, by dsimp only; decide⟩
    rw [List.mem_singleton] at hst
    subst hst
    exact inPage_of_le (a := exstkTop - sizeofUTrapframe) (n := 52) (by decide) (by decide)
      (by decide) hi
  · rw [hpush]
    have hlo' : exstk ≤ tf.tfEsp - 4 - sizeofUTrapframe := by bv_omega
    refine ⟨fun st hst i hi => ?_, by bv_omega⟩
    rcases List.mem_cons.mp hst with hscratch | hframe
    · subst hscratch
      exact inPage_of_le (a := tf.tfEsp - 4) (n := 4) (by bv_omega) (by decide) (by bv_omega) hi
    · rw [List.mem_singleton] at hframe
      subst hframe
      exact inPage_of_le (n := 52) hlo' (by decide) (by bv_omega) hi

/-! ## The handler -/

/-- The handler, once `user_mem_assert` has returned. -/
theorem UpcallReady.handler_eq (h : UpcallReady k e) (sched : Scheduler)
    (faultVa checkAddr : Word) :
    pageFaultHandler sched k e faultVa checkAddr =
      let (stores, tmp) := pushUTrapframe (k.envs e).envTf faultVa
      if stores.all (storable k e) then
        if tmp < exstk ∨ tmp > exstkTop then ⟨stores, .error .exceptionStackOverflow⟩
        else
          let k := k.modifyEnv e (fun v =>
            { v with envTf := { v.envTf with tfEsp := tmp, tfEip := v.envPgfaultUpcall } })
          ⟨stores, .ok (envRun k (some e) e, some (.run e))⟩
      else ⟨stores.takeWhile (storable k e), .error .kernelMode⟩ := by
  obtain ⟨addr, haddr⟩ := userMemAssert_exstk h.walkable h.stack sched checkAddr
  rw [pageFaultHandler]
  simp only [if_neg h.user, if_pos h.upcall, haddr]

/-- With room for the frame the environment goes on at its upcall. -/
theorem UpcallReady.resumes (h : UpcallReady k e) (sched : Scheduler) (faultVa checkAddr : Word)
    (hroom : ¬ (exstk ≤ (k.envs e).envTf.tfEsp ∧ (k.envs e).envTf.tfEsp < exstk + 56)) :
    ∃ k', pageFaultHandler sched k e faultVa checkAddr =
        ⟨(pushUTrapframe (k.envs e).envTf faultVa).1, .ok (k', some (.run e))⟩ ∧
      (k'.envs e).envTf = { (k.envs e).envTf with
        tfEsp := (pushUTrapframe (k.envs e).envTf faultVa).2
        tfEip := (k.envs e).envPgfaultUpcall } ∧
      (k'.envs e).envStatus = .running := by
  obtain ⟨hpage, hbounds⟩ := @pushUTrapframe_inPage _ faultVa hroom
  have hall : (pushUTrapframe (k.envs e).envTf faultVa).1.all (storable k e) = true := by
    rw [List.all_eq_true]
    exact fun st hst => storable_page h.stack (hpage st hst)
  rw [h.handler_eq]
  simp only [hall, if_true, if_neg hbounds]
  refine ⟨_, rfl, ?_, ?_⟩
  · rw [envRun_apply, if_pos rfl, Kernel.modifyEnv_self]
  · rw [envRun_apply, if_pos rfl]

/-- Without room the handler panics: at the store, or at the test after
it. -/
theorem UpcallReady.panics (h : UpcallReady k e) (sched : Scheduler) (faultVa checkAddr : Word)
    (hlo : exstk ≤ (k.envs e).envTf.tfEsp) (hhi : (k.envs e).envTf.tfEsp < exstk + 56) :
    ∃ p, (pageFaultHandler sched k e faultVa checkAddr).ended = .error p := by
  rcases pushUTrapframe_cases (k.envs e).envTf faultVa with ⟨hordinary, -⟩ | ⟨-, -, hpush⟩
  · exfalso
    bv_omega
  · have hbelow : (k.envs e).envTf.tfEsp - 4 - sizeofUTrapframe < exstk ∨
        (k.envs e).envTf.tfEsp - 4 - sizeofUTrapframe > exstkTop := by
      bv_omega
    rw [h.handler_eq, hpush]
    simp only [if_pos hbelow]
    split
    · exact ⟨_, rfl⟩
    · exact ⟨_, rfl⟩

/-- A page fault in user mode is contained exactly when the stack pointer
is not on the exception stack, or leaves room there for the scratch word
and the frame. -/
theorem pageFaultHandler_contained_iff (sched : Scheduler) (k : Kernel) (e : EnvIdx)
    (faultVa checkAddr : Word) (h : UpcallReady k e) :
    Contained sched k e faultVa (pageFaultHandler sched k e faultVa checkAddr) ↔
      ¬ (exstk ≤ (k.envs e).envTf.tfEsp ∧ (k.envs e).envTf.tfEsp < exstk + 56) := by
  constructor
  · rintro hc ⟨hlo, hhi⟩
    obtain ⟨p, hp⟩ := h.panics sched faultVa checkAddr hlo hhi
    rcases hc.ends with ⟨k', tmp, hended, -⟩ | ⟨-, k', leave, -, hended⟩
    · rw [hp] at hended
      cases hended
    · rw [hp] at hended
      cases hended
  · intro hroom
    obtain ⟨k', heq, htf, hstatus⟩ := h.resumes sched faultVa checkAddr hroom
    rw [heq]
    refine ⟨(pushUTrapframe_inPage hroom).1, Or.inl ⟨k', _, rfl, htf, hstatus, ?_⟩⟩
    rcases pushUTrapframe_cases (k.envs e).envTf faultVa with ⟨hordinary, hpush⟩ | ⟨-, -, hpush⟩
    · rw [hpush]
      refine ⟨List.mem_cons_self, fun hnested => ?_⟩
      exfalso
      bv_omega
    · rw [hpush]
      exact ⟨List.mem_cons_of_mem _ List.mem_cons_self, fun _ => List.mem_cons_self⟩

/-! ## A fault at the lower end -/

/-- Environment 0 with an upcall and an exception stack, and nothing else
mapped. -/
def faultingEnv (esp : Word) : Kernel where
  envs e := if e = 0 then { envId := 4096, envStatus := .running, envPgdir := some 1,
                            envPgfaultUpcall := 0x800020,
                            envTf := { initialTrapframe with tfEsp := esp } } else {}
  envFreeList := (List.finRange nenv).drop 1
  mem :=
    { npages := 64
      kernPgdir := 5
      frames := fun p i =>
        if p = 1 ∧ i = 954 then 0x2007 else if p = 2 ∧ i = 1023 then 0x3007 else 0
      ppRef := fun p => if p = 1 ∨ p = 2 ∨ p = 3 then 1 else 0
      pageFreeList := [6, 7] }

theorem faultingEnv_ready (esp : Word) : UpcallReady (faultingEnv esp) 0 := by
  -- neither the tables nor the upcall depend on the stack pointer
  have hstack : grants (faultingEnv 0) 0 (pteP ||| pteW ||| pteU) exstk = true := by decide
  refine ⟨⟨⟨1, rfl⟩, ?_⟩, hstack, ?_, ?_⟩
  · intro d hd i hi hne
    cases hd
    have hi' : i = 954 := by
      by_contra hother
      exact hne (by simp [faultingEnv, hother])
    subst hi'
    show pgnum 0x2007 < 64
    decide
  · show (0x1b : BitVec 16) &&& 3 ≠ 0
    decide
  · show (0x800020 : Word) ≠ 0
    decide

/-- A fault on the ordinary stack. -/
theorem pageFaultHandler_contained_iff_ordinary :
    Contained .roundRobin (faultingEnv 0xEEBFDFF0) 0 0x1000
      (pageFaultHandler .roundRobin (faultingEnv 0xEEBFDFF0) 0 0x1000 0) :=
  (pageFaultHandler_contained_iff .roundRobin (faultingEnv 0xEEBFDFF0) 0 0x1000 0
    (faultingEnv_ready _)).mpr (by decide)

/-- With the stack pointer one word into the exception stack the frame
goes below the page, which is not mapped: the kernel faults. -/
theorem nested_fault_panics :
    UpcallReady (faultingEnv 0xEEBFF004) 0 ∧
      (pageFaultHandler .roundRobin (faultingEnv 0xEEBFF004) 0 0x1000 0).ended =
        .error .kernelMode ∧
      ¬ Contained .roundRobin (faultingEnv 0xEEBFF004) 0 0x1000
        (pageFaultHandler .roundRobin (faultingEnv 0xEEBFF004) 0 0x1000 0) := by
  have hpanics : (pageFaultHandler .roundRobin (faultingEnv 0xEEBFF004) 0 0x1000 0).ended =
      .error .kernelMode := by
    have hfaults : ((pushUTrapframe ((faultingEnv 0xEEBFF004).envs 0).envTf 0x1000).1.all
        (storable (faultingEnv 0xEEBFF004) 0)) = false := by decide +kernel
    rw [(faultingEnv_ready _).handler_eq]
    simp only [hfaults, Bool.false_eq_true, if_false]
  refine ⟨faultingEnv_ready _, hpanics, fun hc => ?_⟩
  rcases hc.ends with ⟨k', tmp, hended, -⟩ | ⟨-, k', leave, -, hended⟩
  · rw [hpanics] at hended
    cases hended
  · rw [hpanics] at hended
    cases hended

end SistemasOperativos.Kern
