/-
SistemasOperativos.Kern.SpinlockTheorems — the big kernel lock.

Three machines. At the bottom the CPUs of `Kern.Spinlock`, access by
access. Above them critical sections under a lock with an owner
(`Lib.Serial`), where taking the lock is one step and the spinning and
the bookkeeping of `lk->cpu` are gone. At the top `Kern.Trap`, where a
kernel entry is one step. `Sim` relates the first two: it says which CPU
owns the lock at each point of the code, and that `lk->cpu` names it
while `spin_lock` and `spin_unlock` rely on it. `Serial` gives whole
sections, and a whole section computes what `enter` computes, because the
stages left to run always end the same way (`Stage.finish`).
-/
import SistemasOperativos.Kern.Spinlock
import SistemasOperativos.Lib.Serial

namespace SistemasOperativos.Kern.Smp

variable {n : Nat} {sched : Scheduler}

/-! ## Who owns the lock -/

/-- The CPU is past its exchange of 1 and before its exchange of 0. -/
def Core.owns (v : Core) : Bool :=
  match v.pc with
  | .testCs _ => !fromUser v
  | .lock .storeCpu _ => true
  | .work _ => true
  | .setHalted => true
  | .unlock _ _ => true
  | _ => false

/-- Where `lk->cpu` is this CPU. -/
def Core.named (v : Core) : Bool :=
  match v.pc with
  | .testCs _ => !fromUser v
  | .work _ => true
  | .setHalted => true
  | .unlock .xchg _ => false
  | .unlock _ _ => true
  | _ => false

/-- The work that `lock_kernel`'s caller goes on with. -/
def Caller.first : Caller → Stage
  | .trapHalted _ => .yield
  | .trapUser ev => .trapped ev
  | .mpMain => .yield

/-- A CPU as a thread: with the trap of the section it is in, and at
which stage of it. -/
abbrev Thread := Cpu × Option (Option Entry × Stage)

def Core.view (v : Core) : Thread :=
  match v.pc with
  | .testCs _ => (v.cpu, if fromUser v then none else some (v.trap, .yield))
  | .lock .storeCpu caller => (v.cpu, some (v.trap, caller.first))
  | .work st => (v.cpu, some (v.trap, st))
  | .setHalted => (v.cpu, some (v.trap, .done .halt))
  | .unlock _ l => (v.cpu, some (v.trap, .done l))
  | _ => (v.cpu, none)

/-- A CPU that entered from user mode, with the trap `ev`. -/
def Core.User (v : Core) (ev : Entry) : Prop :=
  v.cpu.mode = .user ∧ ev.Decoded ∧ v.trap = some ev

/-- A CPU that was halted, or is booting. -/
def Core.Idle (v : Core) : Prop := v.cpu.mode = .halted ∧ v.cpu.curenv = none

/-- A trap of a CPU that executes no instruction. -/
def OnTimer (trap : Option Entry) : Prop := ∀ ev, trap = some ev → ∃ tf, ev = .timer tf

/-- The timer has woken the CPU, or it is booting. -/
def Core.Woken (v : Core) : Prop := v.Idle ∧ OnTimer v.trap

/-- Which `cpu_status`, mode and trap go with each point of the code. -/
def Core.Wf (v : Core) : Prop :=
  match v.pc with
  | .outside => (v.cpu.mode = .user ∧ v.cpuStatus = .started) ∨ (v.Idle ∧ v.cpuStatus = .halted)
  | .trap ev => (v.User ev ∧ v.cpuStatus = .started) ∨ (v.Woken ∧ v.cpuStatus = .halted)
  | .testCs ev => (v.User ev ∨ v.Woken) ∧ v.cpuStatus = .started
  | .lock _ (.trapHalted _) => v.Woken ∧ v.cpuStatus = .started
  | .lock _ (.trapUser ev) => v.User ev ∧ v.cpuStatus = .started
  | .lock _ .mpMain => v.Woken ∧ v.cpuStatus = .started
  | .work st => v.cpuStatus = .started ∧ st ≠ .done .monitor
  | .setHalted => v.cpuStatus = .started
  | .unlock _ (.run _) => v.cpuStatus = .started
  | .unlock _ .halt => v.cpuStatus = .halted
  | .unlock _ .monitor => False
  | .lockPanic => False
  | .unlockPanic => False

/-! ## The sections -/

/-- The kernel's critical sections, labelled with their traps. -/
def sections (sched : Scheduler) (n : Nat) :
    Serial.Sections (Fin n) (Option Entry) Kernel Thread where
  enter _ t t' :=
    t.2 = none ∧ t'.1 = t.1 ∧
      ((t.1.mode = .user ∧ ∃ ev : Entry, ev.Decoded ∧ t'.2 = some (some ev, .trapped ev)) ∨
        (t.1.mode = .halted ∧ t.1.curenv = none ∧
          ∃ trap, OnTimer trap ∧ t'.2 = some (trap, .yield)))
  work _ p p' :=
    ∃ trap st st', p.1.2 = some (trap, st) ∧ p'.1.2 = some (trap, st') ∧
      st.run sched p.2 p.1.1 = some (p'.2, p'.1.1, st')
  leave _ trap t t' :=
    ∃ l, l ≠ .monitor ∧ t.2 = some (trap, .done l) ∧ t' = (cpuAfter t.1 l, none)

/-- The CPUs and the lock against the sections. -/
structure Sim (s : State n) (a : Serial.State (Fin n) Kernel Thread) : Prop where
  owner : ∀ c, a.owner = some c ↔ (s.cores c).owns = true
  locked : s.lock.locked = a.owner.isSome
  cpu : ∀ c, s.lock.cpu = some c ↔ (s.cores c).named = true
  shared : a.shared = s.kern
  thread : a.thread = fun c => (s.cores c).view
  core : ∀ c, (s.cores c).Wf

theorem Core.owns_of_named {v : Core} (h : v.named = true) : v.owns = true := by
  unfold Core.named at h
  unfold Core.owns
  split at h <;> simp_all

/-! ## What one CPU's step does to the relation

Each lemma is about a step of CPU `c` that ends in `v'`; the other CPUs
stay as they are. -/

section Update

variable {s : State n} {a : Serial.State (Fin n) Kernel Thread} {c : Fin n}
  {v' : Core}

theorem Sim.owner_iff_of_ne (h : Sim s a) (hc : (s.cores c).owns = true) {d : Fin n} (hd : d ≠ c) :
    (s.cores d).owns = false := by
  rw [← Bool.not_eq_true, ← h.owner d, (h.owner c).mpr hc]
  simpa using Ne.symm hd

theorem Sim.not_named_of_ne (h : Sim s a) (hc : (s.cores c).owns = true) {d : Fin n} (hd : d ≠ c) :
    (s.cores d).named = false := by
  rw [← Bool.not_eq_true]
  intro hnamed
  have hnot := h.owner_iff_of_ne hc hd
  rw [Core.owns_of_named hnamed] at hnot
  cases hnot

/-- The threads after a step of `c`. -/
theorem view_update (s : State n) (c : Fin n) (v' : Core) :
    (fun d => ((Function.update s.cores c v') d).view)
      = Function.update (fun d => (s.cores d).view) c v'.view := by
  funext d
  by_cases hd : d = c
  · subst hd
    simp
  · simp [hd]

/-- A property of every CPU after a step of `c`. -/
theorem forall_update {P : Fin n → Core → Prop} (hc : P c v') (hd : ∀ d, d ≠ c → P d (s.cores d)) :
    ∀ d, P d (Function.update s.cores c v' d) := by
  intro d
  by_cases h : d = c
  · subst h
    simpa using hc
  · simpa [h] using hd d h

/-- A step that only the CPU itself sees. -/
theorem Sim.local (h : Sim s a) (howns : v'.owns = (s.cores c).owns)
    (hnamed : v'.named = (s.cores c).named) (hview : v'.view = (s.cores c).view) (hwf : v'.Wf) :
    Sim (s.set c v') a where
  owner := forall_update (P := fun d v => a.owner = some d ↔ v.owns = true)
    (by rw [howns]; exact h.owner c) (fun d _ => h.owner d)
  locked := h.locked
  cpu := forall_update (P := fun d v => s.lock.cpu = some d ↔ v.named = true)
    (by rw [hnamed]; exact h.cpu c) (fun d _ => h.cpu d)
  shared := h.shared
  thread := by
    show a.thread = fun d => (Function.update s.cores c v' d).view
    rw [view_update, hview, h.thread, Function.update_eq_self]
  core := forall_update (P := fun _ v => v.Wf) hwf (fun d _ => h.core d)

/-- The exchange that finds the lock free. -/
theorem Sim.acquire (h : Sim s a) (hfree : s.lock.locked = false)
    (howns : v'.owns = true) (hnamed : v'.named = false) (hwf : v'.Wf) :
    Sim { s.set c v' with lock := { s.lock with locked := true } }
      { a with owner := some c, thread := Function.update a.thread c v'.view } := by
  have hnone : a.owner = none := by
    have hlocked := h.locked
    rw [hfree] at hlocked
    simpa using hlocked.symm
  have hothers : ∀ d, (s.cores d).owns = false := by
    intro d
    rw [← Bool.not_eq_true, ← h.owner d, hnone]
    simp
  have hunnamed : ∀ d, (s.cores d).named = false := by
    intro d
    rw [← Bool.not_eq_true]
    intro hd
    have howns := Core.owns_of_named hd
    rw [hothers d] at howns
    cases howns
  refine ⟨?_, rfl, ?_, h.shared, ?_, ?_⟩
  · refine forall_update (P := fun d v => some c = some d ↔ v.owns = true) (by simp [howns]) ?_
    intro d hd
    simp [hothers d, Ne.symm hd]
  · refine forall_update (P := fun d v => s.lock.cpu = some d ↔ v.named = true) ?_
      (fun d _ => h.cpu d)
    rw [hnamed, h.cpu c, hunnamed c]
  · show Function.update a.thread c v'.view = fun d => (Function.update s.cores c v' d).view
    rw [view_update, h.thread]
  · exact forall_update (P := fun _ v => v.Wf) hwf (fun d _ => h.core d)

/-- The owner stores `lk->cpu`, to itself or to `NULL`. -/
theorem Sim.storeCpu (h : Sim s a) {cpu : Option (Fin n)} (hold : (s.cores c).owns = true)
    (howns : v'.owns = true) (hcpu : cpu = if v'.named then some c else none)
    (hview : v'.view = (s.cores c).view) (hwf : v'.Wf) :
    Sim { s.set c v' with lock := { s.lock with cpu := cpu } } a where
  owner := forall_update (P := fun d v => a.owner = some d ↔ v.owns = true)
    (by rw [h.owner c, hold, howns]) (fun d _ => h.owner d)
  locked := h.locked
  cpu := by
    refine forall_update (P := fun d v => cpu = some d ↔ v.named = true) ?_ ?_
    · rw [hcpu]
      cases v'.named <;> simp
    · intro d hd
      rw [h.not_named_of_ne hold hd, hcpu]
      cases v'.named <;> simp [Ne.symm hd]
  shared := h.shared
  thread := by
    show a.thread = fun d => (Function.update s.cores c v' d).view
    rw [view_update, hview, h.thread, Function.update_eq_self]
  core := forall_update (P := fun _ v => v.Wf) hwf (fun d _ => h.core d)

/-- The owner works on the kernel's data. -/
theorem Sim.work (h : Sim s a) {k : Kernel} (hold : (s.cores c).owns = true)
    (hnamed : (s.cores c).named = true) (howns : v'.owns = true) (hnamed' : v'.named = true)
    (hwf : v'.Wf) :
    Sim { s.set c v' with kern := k }
      { a with shared := k, thread := Function.update a.thread c v'.view } where
  owner := forall_update (P := fun d v => a.owner = some d ↔ v.owns = true)
    (by rw [h.owner c, hold, howns]) (fun d _ => h.owner d)
  locked := h.locked
  cpu := forall_update (P := fun d v => s.lock.cpu = some d ↔ v.named = true)
    (by rw [h.cpu c, hnamed, hnamed']) (fun d _ => h.cpu d)
  shared := rfl
  thread := by
    show Function.update a.thread c v'.view = fun d => (Function.update s.cores c v' d).view
    rw [view_update, h.thread]
  core := forall_update (P := fun _ v => v.Wf) hwf (fun d _ => h.core d)

/-- The exchange of 0. -/
theorem Sim.release (h : Sim s a) (hold : (s.cores c).owns = true)
    (hunnamed : (s.cores c).named = false) (howns : v'.owns = false) (hnamed : v'.named = false)
    (hwf : v'.Wf) :
    Sim { s.set c v' with lock := { s.lock with locked := false } }
      { a with owner := none, thread := Function.update a.thread c v'.view } := by
  refine ⟨?_, rfl, ?_, h.shared, ?_, ?_⟩
  · refine forall_update (P := fun d v => none = some d ↔ v.owns = true) (by simp [howns]) ?_
    intro d hd
    simp [h.owner_iff_of_ne hold hd]
  · refine forall_update (P := fun d v => s.lock.cpu = some d ↔ v.named = true) ?_
      (fun d _ => h.cpu d)
    rw [hnamed, h.cpu c, hunnamed]
  · show Function.update a.thread c v'.view = fun d => (Function.update s.cores c v' d).view
    rw [view_update, h.thread]
  · exact forall_update (P := fun _ v => v.Wf) hwf (fun d _ => h.core d)

end Update

/-! ## Every step -/

/-- What a step may be in the machine of sections. -/
def Matched (sched : Scheduler) (a : Serial.State (Fin n) Kernel Thread)
    (new : List (Fin n × Option Entry)) (s' : State n) : Prop :=
  (new = [] ∧ Sim s' a) ∨ ∃ a', Serial.Step (sections sched n) a new a' ∧ Sim s' a'

section Steps

variable {s : State n} {a : Serial.State (Fin n) Kernel Thread} {c : Fin n}

theorem Sim.thread_apply (h : Sim s a) (c : Fin n) : a.thread c = (s.cores c).view := by
  rw [h.thread]

/-- The step of a CPU whose ownership, name and stage stay. -/
theorem Sim.goto (h : Sim s a) {pc : Pc} (howns : ({ s.cores c with pc := pc } : Core).owns = (s.cores c).owns)
    (hnamed : ({ s.cores c with pc := pc } : Core).named = (s.cores c).named)
    (hview : ({ s.cores c with pc := pc } : Core).view = (s.cores c).view)
    (hwf : ({ s.cores c with pc := pc } : Core).Wf) : Matched sched a [] (s.goto c pc) :=
  .inl ⟨rfl, h.local howns hnamed hview hwf⟩

/-- The exchange in `spin_lock`, with the lock free. -/
theorem Sim.matched_acquire (h : Sim s a) {caller : Caller}
    (hpc : (s.cores c).pc = .lock .xchg caller) (hfree : s.lock.locked = false) :
    Matched sched a []
      { s.goto c (.lock .storeCpu caller) with lock := { s.lock with locked := true } } := by
  have hcore := h.core c
  have howner : a.owner = none := by
    have hlocked := h.locked
    rw [hfree] at hlocked
    simpa using hlocked.symm
  refine .inr ⟨_, .enter howner (t := ((s.cores c).cpu, some ((s.cores c).trap, caller.first)))
    ?_, h.acquire hfree rfl rfl ?_⟩
  · rw [h.thread_apply]
    refine ⟨by simp [Core.view, hpc], by simp [Core.view, hpc], ?_⟩
    cases caller with
    | trapHalted ev =>
      simp only [Core.Wf, hpc, Core.Woken, Core.Idle] at hcore
      obtain ⟨⟨⟨hmode, henv⟩, htimer⟩, -⟩ := hcore
      exact .inr ⟨by simpa [Core.view, hpc] using hmode, by simpa [Core.view, hpc] using henv, _,
        htimer, rfl⟩
    | trapUser ev =>
      simp only [Core.Wf, hpc, Core.User] at hcore
      obtain ⟨⟨hmode, hev, htrap⟩, -⟩ := hcore
      refine .inl ⟨by simpa [Core.view, hpc] using hmode, ev, hev, ?_⟩
      simp [htrap, Caller.first]
    | mpMain =>
      simp only [Core.Wf, hpc, Core.Woken, Core.Idle] at hcore
      obtain ⟨⟨⟨hmode, henv⟩, htimer⟩, -⟩ := hcore
      exact .inr ⟨by simpa [Core.view, hpc] using hmode, by simpa [Core.view, hpc] using henv, _,
        htimer, rfl⟩
  · cases caller <;> (simp only [Core.Wf, hpc] at hcore; exact hcore)

/-- `holding` is false in `spin_lock`: a CPU that is on its way in is not
the one `lk->cpu` names. -/
theorem Sim.lockStep (h : Sim s a) {caller : Caller} {pc : LockPc}
    (hpc : (s.cores c).pc = .lock pc caller) : Matched sched a [] (lockStep s c caller pc) := by
  have hcore := h.core c
  have hwf : ∀ pc', ({ s.cores c with pc := .lock pc' caller } : Core).Wf := by
    intro pc'
    cases caller <;> (simp only [Core.Wf, hpc] at hcore; exact hcore)
  cases pc with
  | readLocked =>
    simp only [Smp.lockStep]
    split
    · exact h.goto (by simp [Core.owns, hpc]) (by simp [Core.named, hpc]) (by simp [Core.view, hpc])
        (hwf _)
    · exact h.goto (by simp [Core.owns, hpc]) (by simp [Core.named, hpc]) (by simp [Core.view, hpc])
        (hwf _)
  | readCpu =>
    have hnot : s.lock.cpu ≠ some c := by
      rw [ne_eq, h.cpu c]
      simp [Core.named, hpc]
    simp only [Smp.lockStep, if_neg hnot]
    exact h.goto (by simp [Core.owns, hpc]) (by simp [Core.named, hpc]) (by simp [Core.view, hpc])
      (hwf _)
  | xchg =>
    simp only [Smp.lockStep]
    split
    · exact .inl ⟨rfl, h⟩
    · rename_i hfree
      exact h.matched_acquire hpc (by simpa using hfree)
  | storeCpu =>
    refine .inl ⟨rfl, ?_⟩
    have hold : (s.cores c).owns = true := by simp [Core.owns, hpc]
    cases caller with
    | trapHalted ev =>
      simp only [Core.Wf, hpc] at hcore
      have hmode : (s.cores c).cpu.mode = .halted := hcore.1.1.1
      exact h.storeCpu hold (by simp [Caller.back, Core.owns, fromUser, hmode])
        (by simp [Caller.back, Core.named, fromUser, hmode])
        (by simp [Caller.back, Caller.first, Core.view, hpc, fromUser, hmode]) ⟨.inr hcore.1, hcore.2⟩
    | trapUser ev =>
      simp only [Core.Wf, hpc] at hcore
      exact h.storeCpu hold rfl rfl (by simp [Caller.back, Caller.first, Core.view, hpc])
        ⟨hcore.2, by simp⟩
    | mpMain =>
      simp only [Core.Wf, hpc] at hcore
      exact h.storeCpu hold rfl rfl (by simp [Caller.back, Caller.first, Core.view, hpc])
        ⟨hcore.2, by simp⟩

/-- `holding` is true in `spin_unlock`. -/
theorem Sim.unlockStep (h : Sim s a) {l : Leave} {pc : UnlockPc}
    (hpc : (s.cores c).pc = .unlock pc l) :
    Matched sched a (ended s c) (unlockStep s c l pc) := by
  have hcore := h.core c
  have hold : (s.cores c).owns = true := by simp [Core.owns, hpc]
  have hwf : ∀ pc', ({ s.cores c with pc := .unlock pc' l } : Core).Wf := by
    intro pc'
    cases l with
    | run e =>
      simp only [Core.Wf, hpc] at hcore
      exact hcore
    | halt =>
      simp only [Core.Wf, hpc] at hcore
      exact hcore
    | monitor => simp [Core.Wf, hpc] at hcore
  cases pc with
  | readLocked =>
    have hlocked : s.lock.locked = true := by rw [h.locked, (h.owner c).mpr hold]; simp
    simp only [Smp.unlockStep, ended, hpc, hlocked, if_pos]
    exact h.goto (by simp [Core.owns, hpc]) (by simp [Core.named, hpc]) (by simp [Core.view, hpc])
      (hwf _)
  | readCpu =>
    have hcpu : s.lock.cpu = some c := (h.cpu c).mpr (by simp [Core.named, hpc])
    simp only [Smp.unlockStep, ended, hpc, hcpu, if_pos]
    exact h.goto (by simp [Core.owns, hpc]) (by simp [Core.named, hpc]) (by simp [Core.view, hpc])
      (hwf _)
  | clearCpu =>
    simp only [ended, hpc]
    exact .inl ⟨rfl, h.storeCpu hold rfl rfl (by simp [Core.view, hpc]) (hwf _)⟩
  | xchg =>
    simp only [ended, hpc]
    have hl : l ≠ .monitor := by
      rintro rfl
      simp [Core.Wf, hpc] at hcore
    refine .inr ⟨_, .leave ((h.owner c).mpr hold) (t := (cpuAfter (s.cores c).cpu l, none)) ?_,
      h.release hold (by simp [Core.named, hpc]) rfl rfl ?_⟩
    · rw [h.thread_apply]
      exact ⟨l, hl, by simp [Core.view, hpc], by simp [Core.view, hpc]⟩
    · cases l with
      | run e =>
        simp only [Core.Wf, hpc] at hcore
        exact .inl ⟨rfl, hcore⟩
      | halt =>
        simp only [Core.Wf, hpc] at hcore
        exact .inr ⟨⟨rfl, rfl⟩, hcore⟩
      | monitor => exact absurd rfl hl

/-- The monitor is never left. -/
theorem Stage.run_ne_monitor {st st' : Stage} {k k' : Kernel} {cpu cpu' : Cpu}
    (h : st.run sched k cpu = some (k', cpu', st')) : st' ≠ .done .monitor := by
  unfold Stage.run at h
  split at h
  · split at h
    · cases h
    · split at h
      · split at h
        · cases h
          simp
        · cases h
      · cases h
        simp
  · cases h
    simp
  · split at h
    · cases h
      simp
    · cases h
      simp
    · cases h
  · split at h
    · cases h
      simp
    · cases h
      simp
  · cases h
    simp
  · cases h
    simp
  · cases h
    simp
  · cases h
  · cases h

/-- A stage of the work. -/
theorem Sim.stageRun (h : Sim s a) {st st' : Stage} {k : Kernel} {cpu : Cpu}
    (hpc : (s.cores c).pc = .work st)
    (hrun : st.run sched s.kern (s.cores c).cpu = some (k, cpu, st')) :
    Matched sched a []
      { s.set c { s.cores c with cpu := cpu, pc := .work st' } with kern := k } := by
  have hcore := h.core c
  simp only [Core.Wf, hpc] at hcore
  have hold : (s.cores c).owns = true := by simp [Core.owns, hpc]
  refine .inr ⟨_, .work ((h.owner c).mpr hold) (t := (cpu, some ((s.cores c).trap, st'))) (x := k) ?_,
    h.work hold (by simp [Core.named, hpc]) rfl rfl ⟨hcore.1, Stage.run_ne_monitor hrun⟩⟩
  refine ⟨_, st, st', by simp [h.thread_apply, Core.view, hpc], rfl, ?_⟩
  simpa [h.thread_apply, h.shared, Core.view, hpc] using hrun

theorem Sim.workStep (h : Sim s a) {st : Stage} {s' : State n} (hpc : (s.cores c).pc = .work st)
    (hstep : workStep sched s c st = some s') : Matched sched a [] s' := by
  have hcore := h.core c
  simp only [Core.Wf, hpc] at hcore
  unfold Smp.workStep at hstep
  split at hstep
  · cases hstep
    exact h.goto (by simp [Core.owns, hpc]) (by simp [Core.named, hpc]) (by simp [Core.view, hpc])
      hcore.1
  · rename_i l hhalt
    cases hstep
    refine h.goto (by simp [Core.owns, hpc]) (by simp [Core.named, hpc]) (by simp [Core.view, hpc]) ?_
    cases l with
    | run e => exact hcore.1
    | halt => exact absurd rfl hhalt
    | monitor => exact absurd rfl hcore.2
  · obtain ⟨r, hrun, rfl⟩ := Option.map_eq_some_iff.mp hstep
    exact h.stageRun hpc hrun

/-- Every step of a CPU is a step of the machine of sections, or none. -/
theorem Sim.step (h : Sim s a) {new : List (Fin n × Option Entry)} {s' : State n} (hstep : Step sched s new s') :
    Matched sched a new s' := by
  obtain ⟨c, ev, hraised, rfl, hstep⟩ := hstep
  have hcore := h.core c
  cases hpc : (s.cores c).pc with
  | outside =>
    simp only [Smp.step, hpc] at hstep
    cases hstep
    simp only [ended, hpc]
    refine .inl ⟨rfl, h.local (by simp [Core.owns, hpc]) (by simp [Core.named, hpc])
      (by simp [Core.view, hpc]) ?_⟩
    simp only [Core.Wf, hpc] at hcore
    rcases hcore with huser | hidle
    · exact .inl ⟨⟨huser.1, hraised.1, rfl⟩, huser.2⟩
    · refine .inr ⟨⟨hidle.1, ?_⟩, hidle.2⟩
      intro ev' hev'
      cases hev'
      exact hraised.2 hidle.1.1
  | trap ev' =>
    simp only [Smp.step, hpc] at hstep
    cases hstep
    simp only [ended, hpc]
    simp only [Core.Wf, hpc] at hcore
    rcases hcore with huser | hidle
    · have hstatus : (s.cores c).cpuStatus ≠ .halted := by simp [huser.2]
      refine .inl ⟨rfl, h.local ?_ ?_ ?_ ?_⟩
      · simp [Core.owns, hpc, hstatus, fromUser, huser.1.1]
      · simp [Core.named, hpc, hstatus, fromUser, huser.1.1]
      · simp [Core.view, hpc, hstatus, fromUser, huser.1.1]
      · simp only [hstatus, if_false]
        exact ⟨.inl huser.1, rfl⟩
    · refine .inl ⟨rfl, h.local ?_ ?_ ?_ ?_⟩
      · simp [Core.owns, hpc, hidle.2]
      · simp [Core.named, hpc, hidle.2]
      · simp [Core.view, hpc, hidle.2]
      · simp only [hidle.2, if_true]
        exact ⟨hidle.1, rfl⟩
  | testCs ev' =>
    simp only [Smp.step, hpc] at hstep
    simp only [ended, hpc]
    simp only [Core.Wf, hpc] at hcore
    split at hstep
    · rename_i hfrom
      cases hstep
      refine h.goto (by simp [Core.owns, hpc, hfrom]) (by simp [Core.named, hpc, hfrom])
        (by simp [Core.view, hpc, hfrom]) ?_
      rcases hcore.1 with huser | hidle
      · exact ⟨huser, hcore.2⟩
      · simp [fromUser, hidle.1.1] at hfrom
    · rename_i hfrom
      cases hstep
      exact h.goto (by simp [Core.owns, hpc, hfrom]) (by simp [Core.named, hpc, hfrom])
        (by simp [Core.view, hpc, hfrom]) ⟨hcore.2, by simp⟩
  | lock pc caller =>
    simp only [Smp.step, hpc] at hstep
    cases hstep
    simp only [ended, hpc]
    exact h.lockStep hpc
  | work st =>
    simp only [Smp.step, hpc] at hstep
    simp only [ended, hpc]
    exact h.workStep hpc hstep
  | setHalted =>
    simp only [Smp.step, hpc] at hstep
    cases hstep
    simp only [ended, hpc]
    exact .inl ⟨rfl, h.local (by simp [Core.owns, hpc]) (by simp [Core.named, hpc])
      (by simp [Core.view, hpc]) rfl⟩
  | unlock pc l =>
    simp only [Smp.step, hpc] at hstep
    cases hstep
    exact h.unlockStep hpc
  | lockPanic => simp [Core.Wf, hpc] at hcore
  | unlockPanic => simp [Core.Wf, hpc] at hcore

end Steps

/-! ## Every run -/

/-- The machine of sections with the lock free. -/
def State.sections (s : State n) : Serial.State (Fin n) Kernel Thread where
  owner := none
  shared := s.kern
  thread := fun c => ((s.cores c).cpu, none)

theorem Sim.start {s : State n} (h : s.Start) : Sim s s.sections := by
  obtain ⟨hlock, hready⟩ := h
  have hcases : ∀ c, (s.cores c).owns = false ∧ (s.cores c).named = false ∧
      (s.cores c).view = ((s.cores c).cpu, none) ∧ (s.cores c).Wf := by
    intro c
    obtain ⟨hmode, hpc, hstatus⟩ | ⟨hmode, henv, hpc, hstatus⟩ |
      ⟨hmode, henv, hpc, hstatus, htrap⟩ := hready c
    · exact ⟨by simp [Core.owns, hpc], by simp [Core.named, hpc], by simp [Core.view, hpc],
        by simp [Core.Wf, hpc, hmode, hstatus]⟩
    · exact ⟨by simp [Core.owns, hpc], by simp [Core.named, hpc], by simp [Core.view, hpc],
        by simp [Core.Wf, Core.Idle, hpc, hmode, henv, hstatus]⟩
    · exact ⟨by simp [Core.owns, hpc], by simp [Core.named, hpc], by simp [Core.view, hpc],
        by simp [Core.Wf, Core.Woken, Core.Idle, OnTimer, hpc, hmode, henv, hstatus, htrap]⟩
  exact
    { owner := fun c => by simp [State.sections, (hcases c).1]
      locked := by simp [hlock, State.sections]
      cpu := fun c => by simp [hlock, (hcases c).2.1]
      shared := rfl
      thread := by
        funext c
        exact (hcases c).2.2.1.symm
      core := fun c => (hcases c).2.2.2 }

/-- Every run of the CPUs is a run of sections. -/
theorem Run.sections {s₀ s : State n} {log : List (Fin n × Option Entry)} (h : Run sched s₀ log s)
    (h₀ : s₀.Start) : ∃ a, Serial.Run (Smp.sections sched n) s₀.sections log a ∧ Sim s a := by
  induction h with
  | refl => exact ⟨_, .refl, .start h₀⟩
  | step hrun hstep ih =>
    obtain ⟨a, ha, hsim⟩ := ih
    obtain ⟨rfl, hsim'⟩ | ⟨a', hstep', hsim'⟩ := hsim.step hstep
    · exact ⟨a, by rwa [List.append_nil], hsim'⟩
    · exact ⟨a', ha.step hstep', hsim'⟩

/-- Any number of CPUs, in any interleaving: at most one owns the kernel
lock, `locked` says whether one does, and `spin_lock` and `spin_unlock`
never take their panics. -/
theorem mutual_exclusion {s₀ s : State n} {log : List (Fin n × Option Entry)} (hrun : Run sched s₀ log s)
    (h₀ : s₀.Start) :
    (∀ c d, (s.cores c).owns = true → (s.cores d).owns = true → c = d) ∧
      (s.lock.locked = true ↔ ∃ c, (s.cores c).owns = true) ∧
      ∀ c, (s.cores c).pc ≠ .lockPanic ∧ (s.cores c).pc ≠ .unlockPanic := by
  obtain ⟨a, -, hsim⟩ := hrun.sections h₀
  refine ⟨?_, ?_, ?_⟩
  · intro c d hc hd
    have hcd := (hsim.owner c).mpr hc
    rw [(hsim.owner d).mpr hd] at hcd
    exact (Option.some.inj hcd).symm
  · rw [hsim.locked, Option.isSome_iff_exists]
    simp only [hsim.owner]
  · intro c
    have hcore := hsim.core c
    constructor
    · intro hpc
      simp [Core.Wf, hpc] at hcore
    · intro hpc
      simp [Core.Wf, hpc] at hcore

/-- CPUs in user mode, each in the environment of its number, about to
ask for its environment's id. -/
def inUserMode (n : Nat) : State n where
  lock := {}
  kern :=
    { envs := fun e => { envId := 4096 + e.val, envStatus := .running }
      envFreeList := []
      mem := ⟨0, 0, fun _ _ => 0, fun _ => 0, []⟩ }
  cores := fun c =>
    { cpu := { curenv := some (slotAt 0 c), mode := .user }
      cpuStatus := .started
      pc := .outside }

theorem inUserMode_start (n : Nat) : (inUserMode n).Start :=
  ⟨rfl, fun _ => .inl ⟨rfl, rfl, rfl⟩⟩

/-- `sys_getenvid`. -/
def askId : Entry := .syscall { tfRegs := { regEax := 2 } } .getenvid

/-- The CPUs of the list take their next steps, in that order, each with
its own trap. -/
def replay (sched : Scheduler) (traps : Fin n → Entry) : List (Fin n) →
    List (Fin n × Option Entry) × State n → Option (List (Fin n × Option Entry) × State n)
  | [], p => some p
  | c :: cs, p =>
      if (p.2.cores c).cpu.mode = .user then
        (Smp.step sched p.2 c (traps c)).bind fun s =>
          replay sched traps cs (p.1 ++ ended p.2 c, s)
      else none

theorem Run.replay {s₀ : State n} {traps : Fin n → Entry} {cs : List (Fin n)}
    {p q : List (Fin n × Option Entry) × State n} (h : Run sched s₀ p.1 p.2)
    (hreplay : Smp.replay sched traps cs p = some q) (hdecoded : ∀ c, (traps c).Decoded) :
    Run sched s₀ q.1 q.2 := by
  induction cs generalizing p with
  | nil =>
    cases hreplay
    exact h
  | cons c cs ih =>
    simp only [Smp.replay] at hreplay
    split at hreplay
    · rename_i hmode
      obtain ⟨s, hstep, hrest⟩ := Option.bind_eq_some_iff.mp hreplay
      exact ih (h.step ⟨c, traps c, ⟨hdecoded c, by simp [hmode]⟩, rfl, hstep⟩) hrest
    · cases hreplay

/-- Two CPUs trap at the same time, and both are past `holding` before
either exchanges: one has the lock, the other spins. -/
theorem two_cpus_contend : ∃ (log : List (Fin 2 × Option Entry)) (s : State 2),
    Run .roundRobin (inUserMode 2) log s ∧
      (s.cores ⟨0, by decide⟩).owns = true ∧
      (s.cores ⟨1, by decide⟩).pc = .lock .xchg (.trapUser askId) ∧
      ∀ c d, (s.cores c).owns = true → (s.cores d).owns = true → c = d := by
  let c₀ : Fin 2 := ⟨0, by decide⟩
  let c₁ : Fin 2 := ⟨1, by decide⟩
  have hstart : Run .roundRobin (inUserMode 2) [] (inUserMode 2) := .refl
  have hseen : (Smp.replay .roundRobin (fun _ => askId) [c₀, c₁, c₀, c₁, c₀, c₁, c₀, c₁, c₀, c₁]
      ([], inUserMode 2)).map (fun q => ((q.2.cores c₀).owns, (q.2.cores c₁).pc)) =
        some (true, .lock .xchg (.trapUser askId)) := by
    decide +kernel
  obtain ⟨⟨log, s⟩, hreplay, hq⟩ := Option.map_eq_some_iff.mp hseen
  simp only [Prod.mk.injEq] at hq
  have hrun := Run.replay hstart hreplay (fun _ => rfl)
  exact ⟨log, s, hrun, hq.1, hq.2, (mutual_exclusion hrun (inUserMode_start 2)).1⟩

/-! ## Whole sections are kernel entries -/

/-- How the work ends, from this stage on. -/
def Stage.finish (sched : Scheduler) (k : Kernel) (cpu : Cpu) : Stage → Option (Kernel × Leave)
  | .trapped ev => cpu.curenv.bind fun e => (trapUser sched k e ev).toOption
  | .dispatch ev e => (trapDispatch sched k e ev).toOption
  | .resume e =>
      some (if (k.envs e).envStatus = .running then (envRun k (some e) e, .run e)
        else schedYield sched k (some e))
  | .yield => some (schedYield sched k cpu.curenv)
  | .leave l => some (k, l)
  | .done l => some (k, l)

/-- `curenv` at the stages that pass it on. -/
def Stage.Coherent (cpu : Cpu) : Stage → Prop
  | .dispatch _ e => cpu.curenv = some e
  | .resume e => cpu.curenv = some e
  | _ => True

/-- One stage does not change how the work ends. -/
theorem Stage.run_finish {st st' : Stage} {k k' : Kernel} {cpu cpu' : Cpu}
    (h : st.run sched k cpu = some (k', cpu', st')) (hco : st.Coherent cpu) :
    st.finish sched k cpu = st'.finish sched k' cpu' ∧ st'.Coherent cpu' := by
  cases st with
  | trapped ev =>
    cases henv : cpu.curenv with
    | none => simp [Stage.run, henv] at h
    | some e =>
      simp only [Stage.run, henv] at h
      simp only [Stage.finish, henv, Option.bind_some, trapUser]
      split at h
      · rename_i hdying
        rw [if_pos hdying]
        cases hfree : envFree k e with
        | error p => simp [hfree] at h
        | ok k₁ =>
          simp only [hfree, Option.some.injEq, Prod.mk.injEq] at h
          obtain ⟨rfl, rfl, rfl⟩ := h
          exact ⟨rfl, trivial⟩
      · rename_i hdying
        rw [if_neg hdying]
        simp only [Option.some.injEq, Prod.mk.injEq] at h
        obtain ⟨rfl, rfl, rfl⟩ := h
        exact ⟨rfl, henv⟩
  | dispatch ev e =>
    have henv : cpu.curenv = some e := hco
    cases ev with
    | timer tf =>
      simp only [Stage.run, Option.some.injEq, Prod.mk.injEq] at h
      obtain ⟨rfl, rfl, rfl⟩ := h
      exact ⟨by simp [Stage.finish, trapDispatch, Except.toOption, henv], trivial⟩
    | syscall tf call =>
      simp only [Stage.run] at h
      simp only [Stage.finish, trapDispatch]
      cases hcall : syscall sched k e call with
      | error p => simp [hcall] at h
      | ok o =>
        cases o with
        | left l k₁ =>
          simp only [hcall, Option.some.injEq, Prod.mk.injEq] at h
          obtain ⟨rfl, rfl, rfl⟩ := h
          exact ⟨rfl, trivial⟩
        | ret r k₁ =>
          simp only [hcall, Option.some.injEq, Prod.mk.injEq] at h
          obtain ⟨rfl, rfl, rfl⟩ := h
          refine ⟨?_, henv⟩
          simp only [bind, Except.bind]
          split
          · rfl
          · rfl
  | resume e =>
    have henv : cpu.curenv = some e := hco
    simp only [Stage.run] at h
    split at h
    · rename_i hrunning
      simp only [Option.some.injEq, Prod.mk.injEq] at h
      obtain ⟨rfl, rfl, rfl⟩ := h
      exact ⟨by simp [Stage.finish, hrunning], trivial⟩
    · rename_i hrunning
      simp only [Option.some.injEq, Prod.mk.injEq] at h
      obtain ⟨rfl, rfl, rfl⟩ := h
      exact ⟨by simp [Stage.finish, hrunning, henv], trivial⟩
  | yield =>
    simp only [Stage.run, Option.some.injEq, Prod.mk.injEq] at h
    obtain ⟨rfl, rfl, rfl⟩ := h
    exact ⟨rfl, trivial⟩
  | leave l =>
    cases l with
    | monitor => cases h
    | run e =>
      cases h
      exact ⟨rfl, trivial⟩
    | halt =>
      cases h
      exact ⟨rfl, trivial⟩
  | done l => cases h

/-- The stages inside a section, from the first to the one reached. -/
theorem work_finish {c : Fin n} {t t' : Thread} {k k' : Kernel} {trap : Option Entry} {st : Stage}
    (h : Relation.ReflTransGen ((sections sched n).work c) (t, k) (t', k'))
    (hst : t.2 = some (trap, st)) (hco : st.Coherent t.1) :
    ∃ st', t'.2 = some (trap, st') ∧ st'.Coherent t'.1 ∧
      st.finish sched k t.1 = st'.finish sched k' t'.1 := by
  obtain ⟨p, hp⟩ : ∃ p, p = (t', k') := ⟨_, rfl⟩
  rw [← hp] at h
  suffices ∃ st', p.1.2 = some (trap, st') ∧ st'.Coherent p.1.1 ∧
      st.finish sched k t.1 = st'.finish sched p.2 p.1.1 by
    rwa [hp] at this
  clear hp
  induction h with
  | refl => exact ⟨st, hst, hco, rfl⟩
  | tail _ hwork ih =>
    obtain ⟨st₁, hst₁, hco₁, hfinish⟩ := ih
    obtain ⟨trap', st₂, st₃, hst₂, hst₃, hrun⟩ := hwork
    have hsame := hst₁.symm.trans hst₂
    simp only [Option.some.injEq, Prod.mk.injEq] at hsame
    obtain ⟨rfl, rfl⟩ := hsame
    obtain ⟨hsame, hco₃⟩ := Stage.run_finish hrun hco₁
    exact ⟨st₃, hst₃, hco₃, hfinish.trans hsame⟩

/-- The machine between two sections. -/
def machineOf (p : Serial.Config (Fin n) Kernel Thread) : Machine n where
  kern := p.1
  cpus := fun c => (p.2 c).1

/-- No CPU is in the monitor, and a halted one has no environment. -/
def Calm (p : Serial.Config (Fin n) Kernel Thread) : Prop :=
  ∀ c, (p.2 c).1.mode ≠ .monitor ∧ ((p.2 c).1.mode = .halted → (p.2 c).1.curenv = none)

/-- The trap and the stage with which the entry of a CPU begins. -/
def Begins (cpu : Cpu) (trap : Option Entry) (st : Stage) : Prop :=
  (cpu.mode = .user ∧ ∃ ev : Entry, ev.Decoded ∧ trap = some ev ∧ st = .trapped ev) ∨
    (cpu.mode = .halted ∧ cpu.curenv = none ∧ OnTimer trap ∧ st = .yield)

theorem Begins.coherent {cpu cpu' : Cpu} {trap : Option Entry} {st : Stage}
    (h : Begins cpu trap st) : st.Coherent cpu' := by
  rcases h with ⟨-, ev, -, -, rfl⟩ | ⟨-, -, -, rfl⟩
  · exact trivial
  · exact trivial

/-- The entry of `Kern.Trap` for a trap; from `mp_main` a CPU comes in as a
halted one does on the timer. -/
def entryFor : Option Entry → Entry
  | some ev => ev
  | none => .timer {}

/-- What `enter` returns, from how the work of the entry ends. -/
theorem Begins.enter {m : Machine n} {c : Fin n} {trap : Option Entry} {st : Stage}
    (h : Begins (m.cpus c) trap st) : (entryFor trap).Decoded ∧
      ∀ r, st.finish sched m.kern (m.cpus c) = some r →
        enter sched m c (entryFor trap) = .ok (some (m.back c r)) := by
  rcases h with ⟨hmode, ev, hev, rfl, rfl⟩ | ⟨hmode, henv, htimer, rfl⟩
  · refine ⟨hev, fun r hfinish => ?_⟩
    simp only [Stage.finish, Option.bind_eq_some_iff] at hfinish
    obtain ⟨e, henv, htrap⟩ := hfinish
    cases hr : trapUser sched m.kern e ev with
    | error p => simp [hr, Except.toOption] at htrap
    | ok r' =>
      simp only [hr, Except.toOption, Option.some.injEq] at htrap
      subst htrap
      simp [entryFor, Kern.enter, hmode, henv, hr, bind, Except.bind, pure, Except.pure]
  · obtain ⟨tf, htf⟩ : ∃ tf, entryFor trap = .timer tf := by
      cases trap with
      | none => exact ⟨{}, rfl⟩
      | some ev => exact htimer ev rfl
    refine ⟨by rw [htf]; trivial, fun r hfinish => ?_⟩
    simp only [Stage.finish, henv, Option.some.injEq] at hfinish
    subst hfinish
    rw [htf]
    simp [Kern.enter, hmode, pure, Except.pure]

/-- Inside a section: the entry, taken as one step from where it began,
ends as the stages still to run end. -/
theorem Inside.enter {c : Fin n} {p : Serial.Config (Fin n) Kernel Thread} {t : Thread} {k : Kernel}
    (h : Serial.Inside (sections sched n) c p t k) :
    ∃ trap st, t.2 = some (trap, st) ∧ (entryFor trap).Decoded ∧
      ∀ r, st.finish sched k t.1 = some r →
        Kern.enter sched (machineOf p) c (entryFor trap) =
          .ok (some ((machineOf p).back c r)) := by
  obtain ⟨t₁, ⟨-, hcpu, hst⟩, hwork⟩ := h
  obtain ⟨trap, st, hst₁, hbegins⟩ : ∃ trap st, t₁.2 = some (trap, st) ∧
      Begins ((machineOf p).cpus c) trap st := by
    rcases hst with ⟨hmode, ev, hev, heq⟩ | ⟨hmode, henv, trap, htimer, heq⟩
    · exact ⟨_, _, heq, .inl ⟨hmode, ev, hev, rfl, rfl⟩⟩
    · exact ⟨_, _, heq, .inr ⟨hmode, henv, htimer, rfl⟩⟩
  obtain ⟨st', hst', -, hfinish⟩ := work_finish hwork hst₁ hbegins.coherent
  obtain ⟨hev, henter⟩ : (entryFor trap).Decoded ∧ ∀ r,
      st.finish sched (machineOf p).kern ((machineOf p).cpus c) = some r →
        Kern.enter sched (machineOf p) c (entryFor trap) =
          .ok (some ((machineOf p).back c r)) := hbegins.enter
  refine ⟨trap, st', hst', hev, fun r hr => henter r ?_⟩
  rw [hcpu] at hfinish
  exact hfinish.trans hr

/-- A whole section is a kernel entry. -/
theorem Atomic.step {c : Fin n} {trap : Option Entry} {p q : Serial.Config (Fin n) Kernel Thread}
    (h : Serial.Atomic (sections sched n) c trap p q) (hcalm : Calm p) :
    Kern.Step sched (machineOf p) c (entryFor trap) (machineOf q) ∧ Calm q := by
  obtain ⟨t, t', hinside, ⟨l, hl, hdone, rfl⟩, hq⟩ := h
  obtain ⟨trap', st, hst, hev, hall⟩ := Inside.enter hinside
  have hsame := hst.symm.trans hdone
  simp only [Option.some.injEq, Prod.mk.injEq] at hsame
  obtain ⟨rfl, rfl⟩ := hsame
  have henter := hall (q.1, l) rfl
  -- the CPU's own state before the release does not matter: it is set from `l`
  have hafter : cpuAfter t.1 l = cpuAfter (p.2 c).1 l := by
    cases l with
    | run e => rfl
    | halt => rfl
    | monitor => exact absurd rfl hl
  have hback : (machineOf p).back c (q.1, l) = machineOf q := by
    simp only [Machine.back, machineOf, hq, Machine.mk.injEq, true_and]
    funext d
    by_cases hd : d = c
    · subst hd
      simp [hafter]
    · simp [hd]
  refine ⟨⟨fun d => (hcalm d).1, hev, ?_⟩, ?_⟩
  · rw [henter, hback]
  · intro d
    rw [hq]
    by_cases hd : d = c
    · subst hd
      cases l with
      | run e => simp [cpuAfter]
      | halt => simp [cpuAfter]
      | monitor => exact absurd rfl hl
    · simpa [hd] using hcalm d

end SistemasOperativos.Kern.Smp
