/-
SistemasOperativos.Kern.CpuTheorems — one environment, one CPU.

The scheduler picks by status alone, so an environment that runs must not
have status `ENV_RUNNABLE`. Three calls of another environment can give
it that status, or free it, while it runs: `sys_env_set_status`,
`sys_ipc_try_send` when its `env_ipc_recving` is set, and a second
`sys_env_destroy`. In a run without them every environment runs on one
CPU at most.
-/
import SistemasOperativos.Kern.KernelTheorems

namespace SistemasOperativos.Kern

variable {n : Nat}

/-! ## The specification -/

/-- No environment is current on two CPUs, and one that executes is
marked as running or dying and is not free. -/
structure Exclusive (m : Machine n) : Prop where
  one : ∀ c d e, (m.cpus c).curenv = some e → (m.cpus d).curenv = some e → c = d
  user : ∀ c e, (m.cpus c).mode = .user → (m.cpus c).curenv = some e →
    ((m.kern.envs e).envStatus = .running ∨ (m.kern.envs e).envStatus = .dying) ∧
      e ∉ m.kern.envFreeList

/-- The machine after boot: no CPU has an environment yet, and the free
list holds free slots, each once. -/
structure Booted (m : Machine n) : Prop where
  idle : ∀ c, m.cpus c = { curenv := none, mode := .halted }
  free : ∀ e ∈ m.kern.envFreeList, (m.kern.envs e).envStatus = .free
  nodup : m.kern.envFreeList.Nodup

/-- `e` is current on a CPU other than `c`. -/
def RunsElsewhere (m : Machine n) (c : Fin n) (e : EnvIdx) : Prop :=
  ∃ d, d ≠ c ∧ (m.cpus d).curenv = some e

/-- The call, made on CPU `c`, leaves the environments of other CPUs
alone: it gives none of them a status or a message, and it does not
destroy one that is dying already. -/
def LeavesOthers (m : Machine n) (c : Fin n) (cur : EnvIdx) : Syscall → Prop
  | .envSetStatus envid status =>
      ∀ e, settableStatus status ≠ none → envid2env m.kern cur envid true = some e →
        ¬ RunsElsewhere m c e
  | .ipcTrySend envid _ _ _ =>
      ∀ e, envid2env m.kern cur envid false = some e → (m.kern.envs e).envIpcRecving = true →
        ¬ RunsElsewhere m c e
  | .envDestroy envid =>
      ∀ e, envid2env m.kern cur envid true = some e → (m.kern.envs e).envStatus = .dying →
        ¬ RunsElsewhere m c e
  | _ => True

/-- The same for an entry of any kind. -/
def Benign (m : Machine n) (c : Fin n) : Entry → Prop
  | .timer _ => True
  | .syscall _ call => ∀ cur, (m.cpus c).curenv = some cur → LeavesOthers m c cur call

/-- One step that meets `P`. -/
def StepWith (sched : Scheduler) (P : Machine n → Fin n → Entry → Prop) (m m' : Machine n) : Prop :=
  ∃ c ev, Step sched m c ev m' ∧ P m c ev

/-- The runs all of whose steps meet `P`. -/
abbrev Run (sched : Scheduler) (P : Machine n → Fin n → Entry → Prop) :
    Machine n → Machine n → Prop :=
  Relation.ReflTransGen (StepWith sched P)

/-! ## One entry, seen from the other CPUs -/

/-- What an entry keeps while `O` are the environments of the other CPUs. -/
structure Keeps (O : EnvIdx → Prop) (k : Kernel) : Prop where
  held : ∀ e, O e → (k.envs e).envStatus = .running ∨ (k.envs e).envStatus = .dying
  free : ∀ e ∈ k.envFreeList, (k.envs e).envStatus = .free
  nodup : k.envFreeList.Nodup

/-- How an entry may end. -/
def Ends (O : EnvIdx → Prop) (r : Kernel × Leave) : Prop :=
  Keeps O r.1 ∧ ∀ e, r.2 = .run e →
    (r.1.envs e).envStatus = .running ∧ e ∉ r.1.envFreeList ∧ ¬ O e

variable {O : EnvIdx → Prop}

theorem Keeps.congr {k k' : Kernel} (h : Keeps O k) (hlist : k'.envFreeList = k.envFreeList)
    (hst : ∀ e, (k'.envs e).envStatus = (k.envs e).envStatus) : Keeps O k' where
  held := by
    intro e he
    rw [hst]
    exact h.held e he
  free := by
    intro e he
    rw [hlist] at he
    rw [hst]
    exact h.free e he
  nodup := by
    rw [hlist]
    exact h.nodup

/-- A new status for an environment of no other CPU that is not free. -/
theorem Keeps.modifyEnv {k : Kernel} (h : Keeps O k) {e : EnvIdx} (ho : ¬ O e)
    (hlive : (k.envs e).envStatus ≠ .free) (f : Env → Env) : Keeps O (k.modifyEnv e f) where
  held := by
    intro j hj
    have hne : j ≠ e := by
      rintro rfl
      exact ho hj
    rw [Kernel.modifyEnv_of_ne _ _ hne]
    exact h.held j hj
  free := by
    intro j hj
    have hne : j ≠ e := by
      rintro rfl
      exact hlive (h.free _ hj)
    rw [Kernel.modifyEnv_of_ne _ _ hne]
    exact h.free j hj
  nodup := h.nodup

theorem Keeps.notMem {k : Kernel} (h : Keeps O k) {e : EnvIdx}
    (hlive : (k.envs e).envStatus ≠ .free) : e ∉ k.envFreeList :=
  fun he => hlive (h.free e he)

theorem Keeps.notHeld {k : Kernel} (h : Keeps O k) {e : EnvIdx}
    (hrun : (k.envs e).envStatus ≠ .running) (hdying : (k.envs e).envStatus ≠ .dying) : ¬ O e := by
  intro he
  rcases h.held e he with hs | hs
  · exact hrun hs
  · exact hdying hs

theorem envRun_ends {k : Kernel} (h : Keeps O k) {curenv : Option EnvIdx} {e : EnvIdx}
    (hcur : ∀ c, curenv = some c → ¬ O c) (ho : ¬ O e) (hlive : (k.envs e).envStatus ≠ .free) :
    Ends O (envRun k curenv e, .run e) := by
  have hrunning : ((envRun k curenv e).envs e).envStatus = .running := by
    rw [envRun_apply, if_pos rfl]
  have hmem : e ∉ (envRun k curenv e).envFreeList := by
    rw [envRun_envFreeList]
    exact h.notMem hlive
  refine ⟨⟨?_, ?_, ?_⟩, ?_⟩
  · intro j hj
    have hne : j ≠ e := by
      rintro rfl
      exact ho hj
    rw [envRun_apply, if_neg hne, if_neg (fun hc => hcur j hc.1 hj)]
    exact h.held j hj
  · intro j hj
    rw [envRun_envFreeList] at hj
    have hfree := h.free j hj
    have hne : j ≠ e := by
      rintro rfl
      exact hlive hfree
    rw [envRun_apply, if_neg hne, if_neg, hfree]
    rw [hfree]
    simp
  · rw [envRun_envFreeList]
    exact h.nodup
  · intro j hj
    cases hj
    exact ⟨hrunning, hmem, ho⟩

theorem schedYield_ends (sched : Scheduler) {k : Kernel} (h : Keeps O k) {curenv : Option EnvIdx}
    (hcur : ∀ c, curenv = some c → ¬ O c) : Ends O (schedYield sched k curenv) := by
  obtain ⟨k₀, hk₀, hend⟩ := schedYield_cases sched k curenv
  have h₀ : Keeps O k₀ := h.congr hk₀.freeList hk₀.status
  have hidle : ∀ l, (∀ e, l ≠ .run e) → Ends O (k₀, l) := fun l hl =>
    ⟨h₀, fun e he => absurd he (hl e)⟩
  rcases hend with ⟨e, hstatus, heq⟩ | heq | heq
  · rw [heq]
    rcases hstatus with hrunnable | ⟨hself, hrunning⟩
    · refine envRun_ends h₀ hcur (h.notHeld ?_ ?_) ?_
      · rw [hrunnable]; decide
      · rw [hrunnable]; decide
      · rw [hk₀.status, hrunnable]; decide
    · refine envRun_ends h₀ hcur (hcur e hself) ?_
      rw [hk₀.status, hrunning]
      decide
  · rw [heq]
    exact hidle _ (by simp)
  · rw [heq]
    exact hidle _ (by simp)

/-! ## System calls -/

/-- A call that has returned keeps the others; one that has not, ends. -/
def OutcomeEnds (O : EnvIdx → Prop) : Outcome → Prop
  | .ret _ k => Keeps O k
  | .left l k => Ends O (k, l)

theorem returned_ok {x : Except Panic (Int × Kernel)} {o : Outcome} (h : returned x = .ok o) :
    ∃ r k, x = .ok (r, k) ∧ o = .ret r k := by
  cases x with
  | error e => cases h
  | ok p =>
      cases h
      exact ⟨p.1, p.2, rfl, rfl⟩

theorem envFree_keeps {k k' : Kernel} (h : Keeps O k) {e : EnvIdx} (ho : ¬ O e)
    (hlive : (k.envs e).envStatus ≠ .free) (hf : envFree k e = .ok k') : Keeps O k' := by
  obtain ⟨mem, rfl⟩ := envFree_ok hf
  refine ⟨?_, ?_, ?_⟩
  · intro j hj
    have hne : j ≠ e := by
      rintro rfl
      exact ho hj
    rw [Kernel.modifyEnv_of_ne _ _ hne]
    exact h.held j hj
  · intro j hj
    by_cases hne : j = e
    · subst hne
      rw [Kernel.modifyEnv_self]
    · rw [Kernel.modifyEnv_of_ne _ _ hne]
      exact h.free j ((List.mem_cons.mp hj).resolve_left hne)
  · exact List.nodup_cons.mpr ⟨h.notMem hlive, h.nodup⟩

theorem sysEnvDestroy_ends {sched : Scheduler} {k : Kernel} (h : Keeps O k) {cur : EnvIdx}
    {envid : Int} {o : Outcome} (hcur : ¬ O cur) (hrun : (k.envs cur).envStatus = .running)
    (hb : ∀ e, envid2env k cur envid true = some e → (k.envs e).envStatus = .dying → ¬ O e)
    (ho : sysEnvDestroy sched k cur envid = .ok o) : OutcomeEnds O o := by
  unfold sysEnvDestroy at ho
  split at ho
  · cases ho
    exact h
  · rename_i e he
    have hlive : (k.envs e).envStatus ≠ .free := by
      rcases envid2env_some he with rfl | hs
      · rw [hrun]; decide
      · exact hs.1
    simp only [bind_ok] at ho
    obtain ⟨⟨k', leave⟩, hd, ho⟩ := ho
    unfold envDestroy at hd
    split at hd
    · -- a running environment of another CPU is only marked
      rename_i hmark
      cases hd
      cases ho
      refine ⟨?_, ?_, h.nodup⟩
      · intro j hj
        by_cases hje : j = e
        · subst hje
          rw [Kernel.modifyEnv_self]
          exact Or.inr rfl
        · rw [Kernel.modifyEnv_of_ne _ _ hje]
          exact h.held j hj
      · intro j hj
        have hne : j ≠ e := by
          rintro rfl
          exact hlive (h.free _ hj)
        rw [Kernel.modifyEnv_of_ne _ _ hne]
        exact h.free j hj
    · rename_i hmark
      simp only [bind_ok] at hd
      obtain ⟨k₁, hf, hd⟩ := hd
      have hnot : ¬ O e := by
        by_cases hself : cur = e
        · subst hself
          exact hcur
        · intro hoe
          rcases h.held e hoe with hs | hs
          · exact hmark ⟨hs, hself⟩
          · exact hb e he hs hoe
      have hk₁ := envFree_keeps h hnot hlive hf
      split at hd
      · cases hd
        cases ho
        exact schedYield_ends sched hk₁ (fun c hc => by cases hc)
      · cases hd
        cases ho
        exact hk₁

theorem sysExofork_keeps {k : Kernel} (h : Keeps O k) (cur : EnvIdx) :
    Keeps O (sysExofork k cur).2 := by
  unfold sysExofork
  split
  · exact h
  · rename_i e k' halloc
    obtain ⟨rest, pgdir, mem, hlist, -, rfl⟩ := envAlloc_ok halloc
    have hfree : (k.envs e).envStatus = .free := h.free e (by rw [hlist]; simp)
    have hnodup := h.nodup
    rw [hlist, List.nodup_cons] at hnodup
    refine ⟨?_, ?_, hnodup.2⟩
    · intro j hj
      have hne : j ≠ e := by
        rintro rfl
        exact h.notHeld (by rw [hfree]; decide) (by rw [hfree]; decide) hj
      rw [Kernel.modifyEnv_of_ne _ _ hne, Kernel.modifyEnv_of_ne _ _ hne]
      exact h.held j hj
    · intro j hj
      have hne : j ≠ e := by
        rintro rfl
        exact hnodup.1 hj
      rw [Kernel.modifyEnv_of_ne _ _ hne, Kernel.modifyEnv_of_ne _ _ hne]
      exact h.free j (by rw [hlist]; exact List.mem_cons_of_mem _ hj)

theorem sysEnvSetStatus_keeps {k : Kernel} (h : Keeps O k) {cur : EnvIdx} {envid status : Int}
    (hrun : (k.envs cur).envStatus = .running)
    (hb : ∀ e, settableStatus status ≠ none → envid2env k cur envid true = some e → ¬ O e) :
    Keeps O (sysEnvSetStatus k cur envid status).2 := by
  unfold sysEnvSetStatus
  split
  · exact h
  · rename_i s hs
    split
    · exact h
    · rename_i e he
      dsimp only
      refine h.modifyEnv (hb e (by rw [hs]; simp) he) ?_ _
      rcases envid2env_some he with rfl | hl
      · rw [hrun]; decide
      · exact hl.1

theorem sysIpcTrySend_keeps {k k' : Kernel} (h : Keeps O k) {cur : EnvIdx} {envid : Int}
    {value srcva perm : Word} {r : Int} (hrun : (k.envs cur).envStatus = .running)
    (hb : ∀ e, envid2env k cur envid false = some e → (k.envs e).envIpcRecving = true → ¬ O e)
    (hs : sysIpcTrySend k cur envid value srcva perm = .ok (r, k')) : Keeps O k' := by
  unfold sysIpcTrySend at hs
  split at hs
  · cases hs
    exact h
  · rename_i dst hdst
    split at hs
    · cases hs
      exact h
    · rename_i hrecv
      have hnot : ¬ O dst := hb dst hdst (by simpa using hrecv)
      have hlive : (k.envs dst).envStatus ≠ .free := by
        rcases envid2env_some hdst with rfl | hd
        · rw [hrun]; decide
        · exact hd.1
      split at hs
      · cases hs
        refine (h.modifyEnv hnot hlive _).modifyEnv hnot ?_ _
        rw [Kernel.modifyEnv_self]
        exact hlive
      · split at hs
        · cases hs
          exact h
        · simp only [bind_ok] at hs
          obtain ⟨⟨r₁, k₁⟩, hpage, hs⟩ := hs
          obtain ⟨hlist, henvs⟩ := ipcSendPage_envs hpage
          have hst : ∀ e, (k₁.envs e).envStatus = (k.envs e).envStatus := by
            intro e
            rw [henvs e]
          have hk₁ : Keeps O k₁ := h.congr hlist hst
          split at hs
          · cases hs
            exact hk₁
          · cases hs
            exact hk₁.modifyEnv hnot (by rw [hst]; exact hlive) _

theorem syscall_ends {sched : Scheduler} {m : Machine n} {c : Fin n} {k : Kernel} {cur : EnvIdx}
    {tf : Trapframe} (hk : k = m.kern.modifyEnv cur (fun v => { v with envTf := tf }))
    (h : Keeps (RunsElsewhere m c) k) (hcur : ¬ RunsElsewhere m c cur)
    (hrun : (k.envs cur).envStatus = .running) {call : Syscall}
    (hb : LeavesOthers m c cur call) {o : Outcome} (ho : syscall sched k cur call = .ok o) :
    OutcomeEnds (RunsElsewhere m c) o := by
  have hsame : ∀ e, (k.envs e).envStatus = (m.kern.envs e).envStatus ∧
      (k.envs e).envIpcRecving = (m.kern.envs e).envIpcRecving ∧
      (k.envs e).envId = (m.kern.envs e).envId ∧
      (k.envs e).envParentId = (m.kern.envs e).envParentId := by
    intro e
    rw [hk, Kernel.modifyEnv_apply]
    split <;> exact ⟨rfl, rfl, rfl, rfl⟩
  have hid : ∀ envid perm, envid2env k cur envid perm = envid2env m.kern cur envid perm := by
    intro envid perm
    simp only [envid2env, (hsame _).1, (hsame _).2.2.1, (hsame _).2.2.2]
  cases call with
  | getenvid => cases ho; exact h
  | getpriority envid => cases ho; exact h
  | envDestroy envid =>
      refine sysEnvDestroy_ends h hcur hrun ?_ ho
      intro e he hdying
      rw [hid] at he
      rw [(hsame e).1] at hdying
      exact hb e he hdying
  | pageAlloc envid va perm =>
      obtain ⟨r, k', hx, rfl⟩ := returned_ok ho
      have hmem := sysPageAlloc_memOnly hx
      exact h.congr hmem.envFreeList (fun e => by rw [hmem.envs])
  | pageMap srcenvid srcva dstenvid dstva perm =>
      obtain ⟨r, k', hx, rfl⟩ := returned_ok ho
      have hmem := sysPageMap_memOnly hx
      exact h.congr hmem.envFreeList (fun e => by rw [hmem.envs])
  | pageUnmap envid va =>
      obtain ⟨r, k', hx, rfl⟩ := returned_ok ho
      have hmem := sysPageUnmap_memOnly hx
      exact h.congr hmem.envFreeList (fun e => by rw [hmem.envs])
  | exofork =>
      cases ho
      exact sysExofork_keeps h cur
  | envSetStatus envid status =>
      cases ho
      refine sysEnvSetStatus_keeps h hrun ?_
      intro e hs he
      rw [hid] at he
      exact hb e hs he
  | yield =>
      cases ho
      exact schedYield_ends sched h (fun c' hc' => by cases hc'; exact hcur)
  | ipcTrySend envid value srcva perm =>
      obtain ⟨r, k', hx, rfl⟩ := returned_ok ho
      refine sysIpcTrySend_keeps h hrun ?_ hx
      intro e he hrecv
      rw [hid] at he
      rw [(hsame e).2.1] at hrecv
      exact hb e he hrecv
  | ipcRecv dstva =>
      cases ho
      have hlive : (k.envs cur).envStatus ≠ .free := by
        rw [hrun]
        decide
      unfold sysIpcRecv
      dsimp only
      split
      · exact h.modifyEnv hcur hlive _
      · refine schedYield_ends sched ?_ (fun c' hc' => by cases hc'; exact hcur)
        refine (h.modifyEnv hcur hlive _).modifyEnv hcur ?_ _
        rw [Kernel.modifyEnv_self]
        exact hlive
  | setpriority envid priority =>
      cases ho
      refine h.congr ?_ ?_
      · unfold sysSetpriority
        repeat' split
        all_goals rfl
      · intro e
        unfold sysSetpriority
        split
        · rfl
        · repeat' split
          · rfl
          · rfl
          · rfl
          · rw [Kernel.modifyEnv_apply]
            split <;> rfl
  | invalid => cases ho; exact h

/-! ## Traps and runs -/

theorem trapUser_ends {sched : Scheduler} {m : Machine n} {c : Fin n} {cur : EnvIdx} {ev : Entry}
    (h : Keeps (RunsElsewhere m c) m.kern) (hcur : ¬ RunsElsewhere m c cur)
    (hstatus : (m.kern.envs cur).envStatus = .running ∨ (m.kern.envs cur).envStatus = .dying)
    (hb : ∀ tf call, ev = .syscall tf call → LeavesOthers m c cur call) {r : Kernel × Leave}
    (hr : trapUser sched m.kern cur ev = .ok r) : Ends (RunsElsewhere m c) r := by
  have hself : ∀ c', some cur = some c' → ¬ RunsElsewhere m c c' := by
    intro c' hc'
    cases hc'
    exact hcur
  unfold trapUser at hr
  split at hr
  · rename_i hdying
    simp only [bind_ok] at hr
    obtain ⟨k, hf, hr⟩ := hr
    cases hr
    exact schedYield_ends sched (envFree_keeps h hcur (by rw [hdying]; decide) hf)
      (fun c' hc' => by cases hc')
  · rename_i hnot
    have hrun := hstatus.resolve_right hnot
    have hk : Keeps (RunsElsewhere m c)
        (m.kern.modifyEnv cur (fun v => { v with envTf := ev.tf })) :=
      h.modifyEnv hcur (by rw [hrun]; decide) _
    cases ev with
    | timer tf =>
        cases hr
        exact schedYield_ends sched hk hself
    | syscall tf call =>
        simp only [trapDispatch, bind_ok] at hr
        obtain ⟨o, ho, hr⟩ := hr
        have hend := syscall_ends rfl hk hcur (by rw [Kernel.modifyEnv_self]; exact hrun)
          (hb tf call rfl) ho
        cases o with
        | left l k =>
            cases hr
            exact hend
        | ret v k =>
            dsimp only at hr
            have hk' : Keeps (RunsElsewhere m c) (k.modifyEnv cur (fun w =>
                { w with envTf := w.envTf.setEax (BitVec.ofInt 32 v) })) := by
              refine hend.congr rfl (fun e => ?_)
              rw [Kernel.modifyEnv_apply]
              split <;> rfl
            split at hr
            · rename_i hrunning
              cases hr
              exact envRun_ends hk' hself hcur (by rw [hrunning]; decide)
            · cases hr
              exact schedYield_ends sched hk' hself

/-- What every step keeps; a halted CPU has no environment and a CPU in
user mode has one. -/
structure CpuInv (m : Machine n) : Prop where
  exclusive : Exclusive m
  free : ∀ e ∈ m.kern.envFreeList, (m.kern.envs e).envStatus = .free
  nodup : m.kern.envFreeList.Nodup
  monitor : ∀ c e, (m.cpus c).mode ≠ .monitor → (m.cpus c).curenv = some e →
    (m.cpus c).mode = .user

theorem Booted.cpuInv {m : Machine n} (h : Booted m) : CpuInv m where
  exclusive :=
    { one := by
        intro c d e hc
        rw [h.idle] at hc
        cases hc
      user := by
        intro c e _ hc
        rw [h.idle] at hc
        cases hc }
  free := h.free
  nodup := h.nodup
  monitor := by
    intro c e _ hc
    rw [h.idle] at hc
    cases hc

theorem CpuInv.keeps {m : Machine n} (h : CpuInv m) (hnone : ∀ d, (m.cpus d).mode ≠ .monitor)
    (c : Fin n) : Keeps (RunsElsewhere m c) m.kern where
  held := by
    rintro e ⟨d, -, hd⟩
    exact (h.exclusive.user d e (h.monitor d e (hnone d) hd) hd).1
  free := h.free
  nodup := h.nodup

/-- The CPU that has left the kernel, beside the others. -/
theorem CpuInv.back {m : Machine n} (h : CpuInv m) {c : Fin n} {r : Kernel × Leave}
    (hr : Ends (RunsElsewhere m c) r) : CpuInv (m.back c r) := by
  obtain ⟨k, l⟩ := r
  obtain ⟨hkeeps, hrun⟩ := hr
  have hother : ∀ d, d ≠ c → (m.back c (k, l)).cpus d = m.cpus d := by
    intro d hd
    simp [Machine.back, hd]
  have hself : (m.back c (k, l)).cpus c = cpuAfter (m.cpus c) l := by
    simp [Machine.back]
  have hnew : ∀ e, ((m.back c (k, l)).cpus c).curenv = some e → ¬ RunsElsewhere m c e := by
    intro e he
    rw [hself] at he
    cases l with
    | run e' =>
        cases he
        exact (hrun e rfl).2.2
    | halt => cases he
    | monitor =>
        rintro ⟨d, hd, hde⟩
        exact hd (h.exclusive.one d c e hde he)
  refine ⟨⟨?_, ?_⟩, hkeeps.free, hkeeps.nodup, ?_⟩
  · intro d d' e hd hd'
    by_cases hdc : d = c
    · by_cases hdc' : d' = c
      · rw [hdc, hdc']
      · subst hdc
        rw [hother d' hdc'] at hd'
        exact absurd ⟨d', hdc', hd'⟩ (hnew e hd)
    · by_cases hdc' : d' = c
      · subst hdc'
        rw [hother d hdc] at hd
        exact absurd ⟨d, hdc, hd⟩ (hnew e hd')
      · rw [hother d hdc] at hd
        rw [hother d' hdc'] at hd'
        exact h.exclusive.one d d' e hd hd'
  · intro d e hmode hd
    by_cases hdc : d = c
    · subst hdc
      rw [hself] at hmode hd
      cases l with
      | run e' =>
          cases hd
          exact ⟨Or.inl (hrun e rfl).1, (hrun e rfl).2.1⟩
      | halt => cases hd
      | monitor => cases hmode
    · rw [hother d hdc] at hmode hd
      have hst := hkeeps.held e ⟨d, hdc, hd⟩
      refine ⟨hst, hkeeps.notMem ?_⟩
      rcases hst with hs | hs
      · rw [hs]; decide
      · rw [hs]; decide
  · intro d e hmode hd
    by_cases hdc : d = c
    · subst hdc
      rw [hself] at hmode hd ⊢
      cases l with
      | run e' => rfl
      | halt => cases hd
      | monitor => exact absurd rfl hmode
    · rw [hother d hdc] at hmode hd ⊢
      exact h.monitor d e hmode hd

theorem step_cpuInv {sched : Scheduler} {m m' : Machine n} {c : Fin n} {ev : Entry}
    (h : CpuInv m) (hs : Step sched m c ev m') (hb : Benign m c ev) : CpuInv m' := by
  obtain ⟨hnone, -, henter⟩ := hs
  have hkeeps := h.keeps hnone c
  rcases enter_ok henter with ⟨cur, r, hmode, hcur, htrap, rfl⟩ | ⟨tf, rfl, -, rfl⟩
  · have hnot : ¬ RunsElsewhere m c cur := by
      rintro ⟨d, hd, hde⟩
      exact hd (h.exclusive.one d c cur hde hcur)
    refine h.back (trapUser_ends hkeeps hnot (h.exclusive.user c cur hmode hcur).1 ?_ htrap)
    rintro tf call rfl
    exact hb cur hcur
  · exact h.back (schedYield_ends sched hkeeps (fun c' hc' => by cases hc'))

/-- In every run after boot whose calls leave the environments of other
CPUs alone, every state is exclusive. -/
theorem exclusive_of_benign (sched : Scheduler) {m₀ m : Machine n} (h₀ : Booted m₀)
    (hrun : Run sched Benign m₀ m) : Exclusive m := by
  have hinv : CpuInv m := by
    induction hrun with
    | refl => exact h₀.cpuInv
    | tail _ hlast ih =>
        obtain ⟨c, ev, hs, hb⟩ := hlast
        exact step_cpuInv ih hs hb
  exact hinv.exclusive

/-- Where nothing runs elsewhere, every entry is harmless to others. -/
theorem benign_of_alone {m : Machine n} {c : Fin n} (hnone : ∀ e, ¬ RunsElsewhere m c e)
    (ev : Entry) : Benign m c ev := by
  cases ev with
  | timer tf => trivial
  | syscall tf call =>
      intro cur _
      cases call with
      | envSetStatus envid status => exact fun e _ _ => hnone e
      | ipcTrySend envid value srcva perm => exact fun e _ _ => hnone e
      | envDestroy envid => exact fun e _ _ => hnone e
      | getenvid => trivial
      | getpriority envid => trivial
      | pageAlloc envid va perm => trivial
      | pageMap srcenvid srcva dstenvid dstva perm => trivial
      | pageUnmap envid va => trivial
      | exofork => trivial
      | yield => trivial
      | ipcRecv dstva => trivial
      | setpriority envid priority => trivial
      | invalid => trivial

/-! ## Two CPUs -/

instance (ev : Entry) : Decidable ev.Decoded :=
  match ev with
  | .timer _ => inferInstanceAs (Decidable True)
  | .syscall tf call => inferInstanceAs (Decidable (decode tf.tfRegs = some call))

/-- A list of entries, each made only if the test allows it. -/
def runEntries (sched : Scheduler) (allow : Machine n → Fin n → Entry → Bool) :
    Machine n → List (Fin n × Entry) → Option (Machine n)
  | m, [] => some m
  | m, (c, ev) :: rest =>
      if (List.finRange n).all (fun d => (m.cpus d).mode ≠ .monitor) && decide ev.Decoded &&
          allow m c ev then
        match enter sched m c ev with
        | .ok (some m') => runEntries sched allow m' rest
        | _ => none
      else none

theorem runEntries_run {sched : Scheduler} {allow : Machine n → Fin n → Entry → Bool}
    {P : Machine n → Fin n → Entry → Prop} (hP : ∀ m c ev, allow m c ev = true → P m c ev)
    {m m' : Machine n} {l : List (Fin n × Entry)} (h : runEntries sched allow m l = some m') :
    Run sched P m m' := by
  induction l generalizing m with
  | nil =>
      rw [runEntries, Option.some.injEq] at h
      rw [h]
  | cons x l ih =>
      obtain ⟨c, ev⟩ := x
      rw [runEntries] at h
      split at h
      · rename_i hok
        simp only [Bool.and_eq_true, List.all_eq_true, List.mem_finRange, true_implies,
          decide_eq_true_eq] at hok
        split at h
        · rename_i m₁ henter
          exact (ih h).head ⟨c, ev, ⟨hok.1.1, hok.1.2, henter⟩, hP m c ev hok.2⟩
        · cases h
      · cases h

/-- The end of a concrete run. -/
theorem runEntries_eval {α : Type} {sched : Scheduler} {allow : Machine n → Fin n → Entry → Bool}
    {m : Machine n} {l : List (Fin n × Entry)} {f : Machine n → α} {v : α}
    (h : (runEntries sched allow m l).map f = some v) :
    ∃ m', runEntries sched allow m l = some m' ∧ f m' = v :=
  Option.map_eq_some_iff.mp h

/-- The slots after slot 0. -/
@[irreducible] def otherSlots : List EnvIdx := (List.finRange nenv).filter (fun e => e ≠ 0)

theorem mem_otherSlots {e : EnvIdx} (h : e ∈ otherSlots) : e ≠ 0 := by
  unfold otherSlots at h
  exact of_decide_eq_true (List.mem_filter.mp h).2

theorem nodup_otherSlots : otherSlots.Nodup := by
  unfold otherSlots
  exact (List.nodup_finRange nenv).filter _

/-- One environment, in slot 0, and 64 pages. -/
def oneEnv : Kernel where
  envs e := if e = 0 then { envId := 4096, envStatus := .runnable, priority := 8,
                            envPgdir := some 10 } else {}
  envFreeList := otherSlots
  mem := { npages := 64, kernPgdir := 1, frames := fun _ _ => 0,
           ppRef := fun p => if p = 10 then 1 else 0, pageFreeList := [11, 12, 13, 14, 15, 16] }

/-- `oneEnv` on `n` CPUs, none of which has started to run it. -/
def bootMachine (n : Nat) : Machine n where
  kern := oneEnv
  cpus _ := { curenv := none, mode := .halted }

theorem bootMachine_booted (n : Nat) : Booted (bootMachine n) where
  idle := fun _ => rfl
  free := by
    intro e he
    have hne := mem_otherSlots he
    show (if e = 0 then _ else ({} : Env)).envStatus = .free
    rw [if_neg hne]
  nodup := nodup_otherSlots

/-- A system call with up to two arguments. -/
def sysTf (no a1 a2 : Word) : Trapframe :=
  { tfRegs := { regEax := no, regEdx := a1, regEcx := a2 } }

/-- Slot 0 runs on CPU 0, forks slot 1 and makes it runnable, and CPU 1
picks it up. -/
def forkAndRun : List (Fin 2 × Entry) :=
  [(0, .timer {}), (0, .syscall (sysTf 8 0 0) .exofork),
   (0, .syscall (sysTf 9 4097 2) (.envSetStatus 4097 2)), (1, .timer {})]

/-- The calls of that run, with no environment on another CPU. -/
def alone (m : Machine 2) (c : Fin 2) : Entry → Bool
  | .timer _ => true
  | .syscall _ _ => (List.finRange 2).all (fun d => d = c ∨ (m.cpus d).curenv = none)

theorem exclusive_after_fork : ∃ m : Machine 2, Exclusive m ∧
    (m.cpus 0).curenv = some 0 ∧ (m.cpus 1).curenv = some 1 := by
  have heval : (runEntries .roundRobin alone (bootMachine 2) forkAndRun).map
      (fun m => ((m.cpus 0).curenv, (m.cpus 1).curenv)) = some (some 0, some 1) := by
    decide +kernel
  obtain ⟨m, hrun, hcur⟩ := runEntries_eval heval
  have hbenign : ∀ (m : Machine 2) c ev, alone m c ev = true → Benign m c ev := by
    intro m c ev halone
    cases ev with
    | timer tf => trivial
    | syscall tf call =>
        simp only [alone, List.all_eq_true, List.mem_finRange, true_implies,
          decide_eq_true_eq] at halone
        refine benign_of_alone ?_ _
        rintro e ⟨d, hd, hde⟩
        rw [(halone d).resolve_left hd] at hde
        cases hde
  refine ⟨m, exclusive_of_benign .roundRobin (bootMachine_booted 2)
    (runEntries_run hbenign hrun), ?_⟩
  exact Prod.mk.inj hcur

/-- The parent makes its child runnable a second time, while it runs, and
yields: both CPUs run the child. -/
theorem child_on_two_cpus :
    ¬ ∀ m₀ m : Machine 2, Booted m₀ → Run .roundRobin (fun _ _ _ => True) m₀ m → Exclusive m := by
  intro h
  have heval : (runEntries .roundRobin (fun _ _ _ => true) (bootMachine 2) (forkAndRun ++
      [(0, .syscall (sysTf 9 4097 2) (.envSetStatus 4097 2)),
       (0, .syscall (sysTf 11 0 0) .yield)])).map
      (fun m => ((m.cpus 0).curenv, (m.cpus 1).curenv)) = some (some 1, some 1) := by
    decide +kernel
  obtain ⟨m, hrun, hcur⟩ := runEntries_eval heval
  obtain ⟨h0, h1⟩ := Prod.mk.inj hcur
  have hexcl := h (bootMachine 2) m (bootMachine_booted 2)
    (runEntries_run (fun _ _ _ _ => trivial) hrun)
  exact absurd (hexcl.one 0 1 1 h0 h1) (by decide)

end SistemasOperativos.Kern
