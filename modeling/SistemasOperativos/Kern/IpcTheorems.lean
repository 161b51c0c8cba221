/-
SistemasOperativos.Kern.IpcTheorems — a message is received once.

The history of a run lists, in order, the `sys_ipc_recv` calls that
blocked, the `sys_ipc_try_send` calls that returned 0, and each return of
an environment to user mode with what it finds there. The messages of an
environment are told from its events alone: it is idle, blocked, or has
been handed a message that it has not yet returned with.

`sys_ipc_recv` sets `env_ipc_recving` before it looks at `dstva`, so a
call that fails leaves the flag set on an environment that runs on. The
theorem is about the runs in which no such call is made; the last result
is a run in which one is.
-/
import SistemasOperativos.Kern.CpuTheorems

namespace SistemasOperativos.Kern

variable {n : Nat}

/-! ## Histories -/

inductive IpcEvent where
  /-- A `sys_ipc_recv` of `r` that did not return at once. -/
  | blocked (r : EnvIdx)
  /-- A `sys_ipc_try_send` to `r` that returned 0. -/
  | sent (r : EnvIdx) (sender : Int) (value : Word)
  /-- `r` is back in user mode, with this result and these IPC fields. -/
  | resumed (r : EnvIdx) (eax : Word) (sender : Int) (value : Word)
  deriving DecidableEq, Repr

/-- The receiver of an event. -/
def IpcEvent.env : IpcEvent → EnvIdx
  | .blocked r => r
  | .sent r _ _ => r
  | .resumed r _ _ _ => r

/-- What a call of `cur` adds; `k` is the state in which the call is
made. -/
def callEvents (sched : Scheduler) (k : Kernel) (cur : EnvIdx) : Syscall → List IpcEvent
  | .ipcRecv dstva =>
      match sysIpcRecv sched k cur dstva with
      | .left _ _ => [.blocked cur]
      | .ret _ _ => []
  | .ipcTrySend envid value srcva perm =>
      match envid2env k cur envid false, sysIpcTrySend k cur envid value srcva perm with
      | some r, .ok (0, _) => [.sent r (k.envs cur).envId value]
      | _, _ => []
  | _ => []

/-- The state in which `trap_dispatch` starts. -/
def saved (k : Kernel) (cur : EnvIdx) (tf : Trapframe) : Kernel :=
  k.modifyEnv cur (fun v => { v with envTf := tf })

/-- What an entry of CPU `c` adds before the CPU leaves the kernel. -/
def entryEvents (sched : Scheduler) (m : Machine n) (c : Fin n) : Entry → List IpcEvent
  | .timer _ => []
  | .syscall tf call =>
      match (m.cpus c).curenv with
      | some cur =>
          if (m.kern.envs cur).envStatus = .dying then []
          else callEvents sched (saved m.kern cur tf) cur call
      | none => []

/-- What `e` finds in user mode. -/
def resumedIn (k : Kernel) (e : EnvIdx) : IpcEvent :=
  .resumed e (k.envs e).envTf.tfRegs.regEax (k.envs e).envIpcFrom (k.envs e).envIpcValue

/-- What the way out of the kernel adds. -/
def leaveEvents (k : Kernel) : Leave → List IpcEvent
  | .run e => [resumedIn k e]
  | .halt => []
  | .monitor => []

/-- The same, read off the CPU that has left. -/
def resumeEvents (m : Machine n) (c : Fin n) : List IpcEvent :=
  match (m.cpus c).mode, (m.cpus c).curenv with
  | .user, some e => [resumedIn m.kern e]
  | _, _ => []

theorem resumeEvents_back (m : Machine n) (c : Fin n) (r : Kernel × Leave) :
    resumeEvents (m.back c r) c = leaveEvents r.1 r.2 := by
  obtain ⟨k, l⟩ := r
  cases l with
  | run e => simp [resumeEvents, Machine.back, cpuAfter, leaveEvents]
  | halt => simp [resumeEvents, Machine.back, cpuAfter, leaveEvents]
  | monitor => simp [resumeEvents, Machine.back, cpuAfter, leaveEvents]

/-- The runs whose entries all meet `P`, with their history. -/
inductive IpcRun (sched : Scheduler) (P : Entry → Prop) (m₀ : Machine n) :
    Machine n → List IpcEvent → Prop where
  | start : IpcRun sched P m₀ m₀ []
  | step {m m' : Machine n} {h : List IpcEvent} {c : Fin n} {ev : Entry} :
      IpcRun sched P m₀ m h → Step sched m c ev m' → P ev →
      IpcRun sched P m₀ m' (h ++ entryEvents sched m c ev ++ resumeEvents m' c)

/-! ## The specification -/

/-- Event `i` is a send, and event `j` the receive it ends: the last
event of the receiver before the send. -/
def Matched (h : List IpcEvent) (i j : Nat) : Prop :=
  ∃ r sender value, h[i]? = some (.sent r sender value) ∧ j < i ∧ h[j]? = some (.blocked r) ∧
    ∀ (t : Nat) (ev : IpcEvent), j < t → t < i → h[t]? = some ev → ev.env ≠ r

/-- The last event of `r` is a receive. -/
def BlockedAt (h : List IpcEvent) (r : EnvIdx) : Prop :=
  ∃ j : Nat, h[j]? = some (.blocked r) ∧
    ∀ (t : Nat) (ev : IpcEvent), j < t → h[t]? = some ev → ev.env ≠ r

/-- Every send ends one receive, no receive is ended twice, and the
receiver returns next with 0 and with what was sent. -/
structure ExactlyOnce (h : List IpcEvent) : Prop where
  matched : ∀ (i : Nat) r sender value, h[i]? = some (.sent r sender value) → ∃! j, Matched h i j
  once : ∀ i i' j, Matched h i j → Matched h i' j → i = i'
  returns : ∀ (i t : Nat) r sender value (ev : IpcEvent), h[i]? = some (.sent r sender value) →
    i < t → h[t]? = some ev → ev.env = r →
    (∀ (u : Nat) (ev' : IpcEvent), i < u → u < t → h[u]? = some ev' → ev'.env ≠ r) →
    ev = .resumed r 0 sender value

/-- The next send to an environment that is not blocked is refused and
changes nothing. -/
def RefusedUnlessBlocked (m : Machine n) (h : List IpcEvent) : Prop :=
  ∀ c cur tf envid value srcva perm r, (m.cpus c).mode = .user → (m.cpus c).curenv = some cur →
    envid2env (saved m.kern cur tf) cur envid false = some r → ¬ BlockedAt h r →
    sysIpcTrySend (saved m.kern cur tf) cur envid value srcva perm =
      .ok (-eIpcNotRecv, saved m.kern cur tf)

/-- A message that its receiver has not returned with is waiting for it,
and the receiver only waits for a CPU. -/
def DeliveryPending (m : Machine n) (h : List IpcEvent) : Prop :=
  ∀ (i : Nat) r sender value, h[i]? = some (.sent r sender value) →
    (∀ (t : Nat) (ev : IpcEvent), i < t → h[t]? = some ev → ev.env ≠ r) →
    (m.kern.envs r).envStatus = .runnable ∧ resumedIn m.kern r = .resumed r 0 sender value

/-- The entries after which only the scheduler and the two IPC calls have
changed a status. -/
def keepsStatuses : Entry → Bool
  | .timer _ => true
  | .syscall _ (.envDestroy _) => false
  | .syscall _ .exofork => false
  | .syscall _ (.envSetStatus _ _) => false
  | .syscall _ _ => true

/-- The entry is not a `sys_ipc_recv` that fails. -/
def receivesAtPage : Entry → Bool
  | .syscall _ (.ipcRecv dstva) => userPage dstva
  | _ => true

/-! ## Phases of a receiver -/

/-- Where a receiver stands. -/
inductive Phase where
  | idle
  | waiting
  | delivered (sender : Int) (value : Word)
  | broken
  deriving DecidableEq, Repr

/-- The phase after an event of the receiver itself. -/
def Phase.next : Phase → IpcEvent → Phase
  | .idle, .resumed _ _ _ _ => .idle
  | .idle, .blocked _ => .waiting
  | .waiting, .sent _ sender value => .delivered sender value
  | .delivered sender value, .resumed _ eax sender' value' =>
      if eax = 0 ∧ sender' = sender ∧ value' = value then .idle else .broken
  | _, _ => .broken

/-- The phase of `r` after a history. -/
def phase (r : EnvIdx) (h : List IpcEvent) : Phase :=
  h.foldl (fun p ev => if ev.env = r then p.next ev else p) .idle

@[simp] theorem phase_nil (r : EnvIdx) : phase r [] = .idle := rfl

theorem phase_append_one (r : EnvIdx) (h : List IpcEvent) (ev : IpcEvent) :
    phase r (h ++ [ev]) = if ev.env = r then (phase r h).next ev else phase r h := by
  simp [phase]

/-- An event of another environment changes nothing. -/
theorem phase_append_other {r : EnvIdx} {h : List IpcEvent} {ev : IpcEvent} (hne : ev.env ≠ r) :
    phase r (h ++ [ev]) = phase r h := by
  rw [phase_append_one, if_neg hne]

theorem phase_append_own {r : EnvIdx} {h : List IpcEvent} {ev : IpcEvent} (heq : ev.env = r) :
    phase r (h ++ [ev]) = (phase r h).next ev := by
  rw [phase_append_one, if_pos heq]

theorem Phase.next_broken (ev : IpcEvent) : Phase.broken.next ev = .broken := by
  cases ev <;> rfl

/-- The phase one event further on. -/
theorem phase_take_succ {r : EnvIdx} {h : List IpcEvent} {i : Nat} {ev : IpcEvent}
    (hi : h[i]? = some ev) :
    phase r (h.take (i + 1)) =
      if ev.env = r then (phase r (h.take i)).next ev else phase r (h.take i) := by
  rw [List.take_add_one, hi, Option.toList_some, phase_append_one]

theorem phase_take_own {r : EnvIdx} {h : List IpcEvent} {i : Nat} {ev : IpcEvent}
    (hi : h[i]? = some ev) (heq : ev.env = r) :
    phase r (h.take (i + 1)) = (phase r (h.take i)).next ev := by
  rw [phase_take_succ hi, if_pos heq]

theorem phase_take_past {r : EnvIdx} {h : List IpcEvent} {i : Nat} (hi : h[i]? = none) :
    phase r (h.take (i + 1)) = phase r (h.take i) := by
  rw [List.take_add_one, hi, Option.toList_none, List.append_nil]

/-- Between two events of `r` its phase stays. -/
theorem phase_take_between {r : EnvIdx} {h : List IpcEvent} {i t : Nat} (hit : i ≤ t)
    (hnone : ∀ (u : Nat) (ev : IpcEvent), i ≤ u → u < t → h[u]? = some ev → ev.env ≠ r) :
    phase r (h.take t) = phase r (h.take i) := by
  induction t with
  | zero =>
      have : i = 0 := by omega
      rw [this]
  | succ t ih =>
      by_cases hi : i = t + 1
      · rw [hi]
      · have hstep : phase r (h.take (t + 1)) = phase r (h.take t) := by
          cases ht : h[t]? with
          | none => exact phase_take_past ht
          | some ev =>
              rw [phase_take_succ ht, if_neg (hnone t ev (by omega) (by omega) ht)]
        rw [hstep]
        exact ih (by omega) (fun u ev hu hut => hnone u ev hu (by omega))

/-- A history is never mended. -/
theorem phase_take_ne_broken {r : EnvIdx} {h : List IpcEvent} (hok : phase r h ≠ .broken)
    (i : Nat) : phase r (h.take i) ≠ .broken := by
  intro hbad
  have hstay : ∀ d, phase r (h.take (i + d)) = .broken := by
    intro d
    induction d with
    | zero => exact hbad
    | succ d ih =>
        cases hd : h[i + d]? with
        | none => rw [← Nat.add_assoc, phase_take_past hd, ih]
        | some ev =>
            rw [← Nat.add_assoc, phase_take_succ hd, ih]
            split
            · exact Phase.next_broken ev
            · rfl
  have hlong := hstay h.length
  rw [List.take_of_length_le (by omega)] at hlong
  exact hok hlong

/-- A receiver that waits has blocked, and nothing has happened to it
since. -/
theorem blocked_of_waiting {r : EnvIdx} {h : List IpcEvent} {i : Nat}
    (hw : phase r (h.take i) = .waiting) :
    ∃ j : Nat, j < i ∧ h[j]? = some (.blocked r) ∧
      ∀ (t : Nat) (ev : IpcEvent), j < t → t < i → h[t]? = some ev → ev.env ≠ r := by
  induction i with
  | zero => cases hw
  | succ i ih =>
      cases hi : h[i]? with
      | none =>
          rw [phase_take_past hi] at hw
          obtain ⟨j, hj, hb, hnone⟩ := ih hw
          refine ⟨j, by omega, hb, fun t ev hjt ht hev => ?_⟩
          have hti : t ≠ i := by
            rintro rfl
            rw [hi] at hev
            cases hev
          exact hnone t ev hjt (by omega) hev
      | some ev =>
          rw [phase_take_succ hi] at hw
          split at hw
          · rename_i hr
            have hev : ev = .blocked r := by
              cases ev with
              | blocked r' => cases hr; rfl
              | sent r' s v => cases hp : phase r (h.take i) <;> rw [hp] at hw <;> cases hw
              | resumed r' a s v =>
                  cases hp : phase r (h.take i) with
                  | delivered s' v' =>
                      rw [hp, Phase.next] at hw
                      split at hw <;> cases hw
                  | idle => rw [hp] at hw; cases hw
                  | waiting => rw [hp] at hw; cases hw
                  | broken => rw [hp] at hw; cases hw
            refine ⟨i, by omega, by rw [hi, hev], fun t _ hit hti _ => ?_⟩
            omega
          · rename_i hr
            obtain ⟨j, hj, hb, hnone⟩ := ih hw
            refine ⟨j, by omega, hb, fun t ev' hjt ht hev' => ?_⟩
            by_cases hti : t = i
            · subst hti
              rw [hi] at hev'
              cases hev'
              exact hr
            · exact hnone t ev' hjt (by omega) hev'

/-- The phase before a send is waiting. -/
theorem waiting_before_sent {r : EnvIdx} {h : List IpcEvent} {i : Nat} {sender : Int}
    {value : Word} (hok : phase r h ≠ .broken) (hi : h[i]? = some (.sent r sender value)) :
    phase r (h.take i) = .waiting := by
  have hnext := phase_take_ne_broken hok (i + 1)
  rw [phase_take_own (r := r) hi rfl] at hnext
  cases hp : phase r (h.take i) with
  | waiting => rfl
  | idle => rw [hp] at hnext; exact absurd rfl hnext
  | delivered s v => rw [hp] at hnext; exact absurd rfl hnext
  | broken => rw [hp] at hnext; exact absurd rfl hnext

theorem delivered_after_sent {r : EnvIdx} {h : List IpcEvent} {i : Nat} {sender : Int}
    {value : Word} (hok : phase r h ≠ .broken) (hi : h[i]? = some (.sent r sender value)) :
    phase r (h.take (i + 1)) = .delivered sender value := by
  rw [phase_take_own (r := r) hi rfl, waiting_before_sent hok hi]
  rfl

theorem exactlyOnce_of_phase {h : List IpcEvent} (hok : ∀ r, phase r h ≠ .broken) :
    ExactlyOnce h where
  matched := by
    intro i r sender value hi
    obtain ⟨j, hj, hb, hnone⟩ := blocked_of_waiting (waiting_before_sent (hok r) hi)
    refine ⟨j, ⟨r, sender, value, hi, hj, hb, hnone⟩, ?_⟩
    rintro j' ⟨r', s', v', hi', hj', hb', hnone'⟩
    rw [hi] at hi'
    cases hi'
    rcases Nat.lt_trichotomy j j' with hlt | heq | hgt
    · exact absurd rfl (hnone j' _ hlt hj' hb')
    · exact heq.symm
    · exact absurd rfl (hnone' j _ hgt hj hb)
  once := by
    rintro i i' j ⟨r, s, v, hi, hj, hb, hnone⟩ ⟨r', s', v', hi', hj', hb', hnone'⟩
    rw [hb] at hb'
    cases hb'
    rcases Nat.lt_trichotomy i i' with hlt | heq | hgt
    · exact absurd rfl (hnone' i _ hj hlt hi)
    · exact heq
    · exact absurd rfl (hnone i' _ hj' hgt hi')
  returns := by
    intro i t r sender value ev hi hit ht hr hnone
    have hphase : phase r (h.take t) = .delivered sender value := by
      rw [phase_take_between (i := i + 1) (by omega) (fun u ev' hu => hnone u ev' (by omega))]
      exact delivered_after_sent (hok r) hi
    have hnext := phase_take_ne_broken (hok r) (t + 1)
    rw [phase_take_own ht hr, hphase] at hnext
    cases ev with
    | blocked r' => exact absurd rfl hnext
    | sent r' s v => exact absurd rfl hnext
    | resumed r' a s v =>
        cases hr
        rw [Phase.next] at hnext
        split at hnext
        · rename_i heq
          obtain ⟨rfl, rfl, rfl⟩ := heq
          rfl
        · exact absurd rfl hnext

/-! ## The kernel's side -/

/-- What the table says of an environment in each phase. -/
def Agrees (v : Env) : Phase → Prop
  | .idle => v.envIpcRecving = false
  | .waiting => v.envStatus = .notRunnable ∧ v.envIpcRecving = true
  | .delivered sender value =>
      v.envStatus = .runnable ∧ v.envIpcRecving = false ∧ v.envTf.tfRegs.regEax = 0 ∧
        v.envIpcFrom = sender ∧ v.envIpcValue = value
  | .broken => False

/-- Table and history agree; the environments `O`, which are on a CPU,
run and are idle. -/
structure IpcInv (O : EnvIdx → Prop) (k : Kernel) (h : List IpcEvent) : Prop where
  held : ∀ e, O e → (k.envs e).envStatus = .running
  agrees : ∀ e, Agrees (k.envs e) (phase e h)

variable {O : EnvIdx → Prop} {k k' : Kernel} {h : List IpcEvent}

/-- Fields that `Agrees` does not read may change. -/
theorem Agrees.congr {v v' : Env} {p : Phase} (h : Agrees v p)
    (hstatus : v'.envStatus = v.envStatus) (hrecv : v'.envIpcRecving = v.envIpcRecving)
    (htf : v'.envTf = v.envTf) (hfrom : v'.envIpcFrom = v.envIpcFrom)
    (hvalue : v'.envIpcValue = v.envIpcValue) : Agrees v' p := by
  cases p with
  | idle => simpa [Agrees, hrecv] using h
  | waiting => simpa [Agrees, hstatus, hrecv] using h
  | delivered s w => simpa [Agrees, hstatus, hrecv, htf, hfrom, hvalue] using h
  | broken => exact h

/-- Neither of the two statuses of a pending message. -/
theorem Agrees.idle_of_running {v : Env} {p : Phase} (h : Agrees v p)
    (hrun : v.envStatus = .running) : p = .idle := by
  cases p with
  | idle => rfl
  | waiting => rw [Agrees, hrun] at h; cases h.1
  | delivered s w => rw [Agrees, hrun] at h; cases h.1
  | broken => exact h.elim

theorem Agrees.waiting_of_recving {v : Env} {p : Phase} (h : Agrees v p)
    (hrecv : v.envIpcRecving = true) : p = .waiting := by
  cases p with
  | waiting => rfl
  | idle => rw [Agrees, hrecv] at h; cases h
  | delivered s w => rw [Agrees, hrecv] at h; cases h.2.1
  | broken => exact h.elim

/-- An environment that may run resumes with its message, if it has one. -/
theorem Agrees.idle_after_resumed {k : Kernel} {e : EnvIdx} {p : Phase} (h : Agrees (k.envs e) p)
    (hp : p ≠ .waiting) : p.next (resumedIn k e) = .idle := by
  cases p with
  | idle => rfl
  | waiting => exact absurd rfl hp
  | delivered s w =>
      obtain ⟨-, -, heax, hfrom, hvalue⟩ := h
      simp [resumedIn, Phase.next, heax, hfrom, hvalue]
  | broken => exact h.elim

theorem IpcInv.congr (hk : IpcInv O k h)
    (hsame : ∀ e, (k'.envs e).envStatus = (k.envs e).envStatus ∧
      (k'.envs e).envIpcRecving = (k.envs e).envIpcRecving ∧
      (k'.envs e).envTf = (k.envs e).envTf ∧
      (k'.envs e).envIpcFrom = (k.envs e).envIpcFrom ∧
      (k'.envs e).envIpcValue = (k.envs e).envIpcValue) : IpcInv O k' h where
  held := by
    intro e he
    rw [(hsame e).1]
    exact hk.held e he
  agrees := by
    intro e
    obtain ⟨h₁, h₂, h₃, h₄, h₅⟩ := hsame e
    exact (hk.agrees e).congr h₁ h₂ h₃ h₄ h₅

/-- The new frame of an idle environment is its own affair. -/
theorem IpcInv.setTf (hk : IpcInv O k h) {e : EnvIdx} (hidle : phase e h = .idle)
    (f : Trapframe → Trapframe) :
    IpcInv O (k.modifyEnv e (fun v => { v with envTf := f v.envTf })) h where
  held := by
    intro j hj
    rw [Kernel.modifyEnv_apply]
    split
    · exact hk.held j hj
    · exact hk.held j hj
  agrees := by
    intro j
    rw [Kernel.modifyEnv_apply]
    split
    · rename_i hje
      have hj := hk.agrees j
      rw [hje, hidle] at hj ⊢
      exact hj
    · exact hk.agrees j

theorem IpcInv.mono {O' : EnvIdx → Prop} (hk : IpcInv O k h) (hsub : ∀ e, O' e → O e) :
    IpcInv O' k h where
  held := fun e he => hk.held e (hsub e he)
  agrees := hk.agrees

theorem UpToPriority.ipcInv (hp : UpToPriority k k') (hk : IpcInv O k h) : IpcInv O k' h := by
  refine hk.congr (fun e => ?_)
  rw [hp.env e]
  exact ⟨rfl, rfl, rfl, rfl, rfl⟩

/-- The environments on a CPU after this one has left the kernel. -/
def HeldAfter (O : EnvIdx → Prop) (l : Leave) (e : EnvIdx) : Prop := O e ∨ l = .run e

/-! ## The scheduler and the history -/

/-- `e` may be dispatched: nothing is pending that its return would
lose. -/
theorem envRun_ipcInv {curenv : Option EnvIdx} {e : EnvIdx} (hk : IpcInv O k h)
    (hcur : ∀ c, curenv = some c → ¬ O c)
    (hready : (k.envs e).envStatus = .runnable ∨ (k.envs e).envStatus = .running) :
    IpcInv (HeldAfter O (.run e)) (envRun k curenv e)
      (h ++ leaveEvents (envRun k curenv e) (.run e)) where
  held := by
    intro j hj
    rw [envRun_apply]
    split
    · rfl
    · rename_i hne
      have hO : O j := by
        rcases hj with hO | hrun
        · exact hO
        · cases hrun
          exact absurd rfl hne
      rw [if_neg (fun hc => hcur j hc.1 hO)]
      exact hk.held j hO
  agrees := by
    have hnot : phase e h ≠ .waiting := by
      intro hw
      have hag := hk.agrees e
      rw [hw] at hag
      rw [hag.1] at hready
      rcases hready with hbad | hbad
      · cases hbad
      · cases hbad
    have hafter : resumedIn (envRun k curenv e) e = resumedIn k e := by
      simp [resumedIn, envRun_apply]
    intro j
    rw [leaveEvents]
    by_cases hje : j = e
    · subst hje
      rw [phase_append_own (r := j) rfl, hafter, (hk.agrees j).idle_after_resumed hnot, envRun_apply,
        if_pos rfl]
      have hag := hk.agrees j
      cases hp : phase j h with
      | idle => rw [hp] at hag; exact hag
      | waiting => exact absurd hp hnot
      | delivered s w => rw [hp] at hag; exact hag.2.1
      | broken => rw [hp] at hag; exact hag.elim
    · rw [phase_append_other (fun heq => hje heq.symm), envRun_apply, if_neg hje]
      split
      · -- the environment that gives up the CPU was idle, and stays so
        rename_i hself
        have hidle := (hk.agrees j).idle_of_running hself.2
        have hag := hk.agrees j
        rw [hidle] at hag ⊢
        exact hag
      · exact hk.agrees j

theorem schedYield_ipcInv (sched : Scheduler) {curenv : Option EnvIdx} (hk : IpcInv O k h)
    (hcur : ∀ c, curenv = some c → ¬ O c) :
    IpcInv (HeldAfter O (schedYield sched k curenv).2) (schedYield sched k curenv).1
      (h ++ leaveEvents (schedYield sched k curenv).1 (schedYield sched k curenv).2) := by
  obtain ⟨k₀, hk₀, hend⟩ := schedYield_cases sched k curenv
  have h₀ : IpcInv O k₀ h := hk₀.ipcInv hk
  have hidle : ∀ l, (∀ e, l ≠ .run e) → leaveEvents k₀ l = [] →
      IpcInv (HeldAfter O l) k₀ (h ++ leaveEvents k₀ l) := by
    intro l hl hnil
    rw [hnil, List.append_nil]
    refine h₀.mono (fun e he => ?_)
    rcases he with hO | hrun
    · exact hO
    · exact absurd hrun (hl e)
  rcases hend with ⟨e, hstatus, heq⟩ | heq | heq
  · rw [heq]
    refine envRun_ipcInv h₀ hcur ?_
    rw [hk₀.status]
    rcases hstatus with hrunnable | ⟨-, hrunning⟩
    · exact Or.inl hrunnable
    · exact Or.inr hrunning
  · rw [heq]
    exact hidle .halt (by simp) rfl
  · rw [heq]
    exact hidle .monitor (by simp) rfl

/-! ## The calls -/

/-- The state is the same but for the memory and `env_ipc_perm`. -/
def UpToPerm (k k' : Kernel) : Prop :=
  ∀ e, k'.envs e = { k.envs e with envIpcPerm := (k'.envs e).envIpcPerm }

theorem UpToPerm.ipcInv (hp : UpToPerm k k') (hk : IpcInv O k h) : IpcInv O k' h := by
  refine hk.congr (fun e => ?_)
  rw [hp e]
  exact ⟨rfl, rfl, rfl, rfl, rfl⟩

/-- How a send ends: refused, failed, or delivered. -/
theorem sysIpcTrySend_cases {cur : EnvIdx} {envid : Int} {value srcva perm : Word} {v : Int}
    (hs : sysIpcTrySend k cur envid value srcva perm = .ok (v, k')) :
    (v ≠ 0 ∧ UpToPerm k k') ∨
      (∃ r k₁, envid2env k cur envid false = some r ∧ (k.envs r).envIpcRecving = true ∧
        v = 0 ∧ UpToPerm k k₁ ∧ k' = ipcDeliver k₁ cur r value) := by
  unfold sysIpcTrySend at hs
  split at hs
  · cases hs
    exact Or.inl ⟨by decide, fun _ => rfl⟩
  · rename_i r hr
    split at hs
    · cases hs
      exact Or.inl ⟨by decide, fun _ => rfl⟩
    · rename_i hrecv
      have hrecv' : (k.envs r).envIpcRecving = true := by simpa using hrecv
      split at hs
      · cases hs
        refine Or.inr ⟨r, _, hr, hrecv', rfl, fun e => ?_, rfl⟩
        rw [Kernel.modifyEnv_apply]
        split <;> rfl
      · split at hs
        · cases hs
          exact Or.inl ⟨by decide, fun _ => rfl⟩
        · simp only [bind_ok] at hs
          obtain ⟨⟨v₁, k₁⟩, hpage, hs⟩ := hs
          have hsame : UpToPerm k k₁ := (ipcSendPage_envs hpage).2
          split at hs
          · rename_i hneg
            cases hs
            refine Or.inl ⟨?_, hsame⟩
            intro hzero
            rw [hzero] at hneg
            exact absurd hneg (by decide)
          · cases hs
            exact Or.inr ⟨r, k₁, hr, hrecv', rfl, hsame, rfl⟩

/-- A message handed to a receiver that waits. -/
theorem ipcDeliver_ipcInv {cur r : EnvIdx} {value : Word} (hk : IpcInv O k h)
    (hw : phase r h = .waiting) (hr : ¬ O r) :
    IpcInv O (ipcDeliver k cur r value) (h ++ [.sent r (k.envs cur).envId value]) where
  held := by
    intro j hj
    have hne : j ≠ r := by
      rintro rfl
      exact hr hj
    rw [ipcDeliver, Kernel.modifyEnv_of_ne _ _ hne]
    exact hk.held j hj
  agrees := by
    intro j
    by_cases hjr : j = r
    · subst hjr
      rw [phase_append_own (r := j) rfl, hw, ipcDeliver, Kernel.modifyEnv_self]
      exact ⟨rfl, rfl, rfl, rfl, rfl⟩
    · rw [phase_append_other (fun heq => hjr heq.symm), ipcDeliver,
        Kernel.modifyEnv_of_ne _ _ hjr]
      exact hk.agrees j

/-- A call keeps table and history in step until it returns, or leaves
the kernel with them in step. -/
def OutcomeIpc (O : EnvIdx → Prop) (cur : EnvIdx) (h : List IpcEvent) : Outcome → Prop
  | .ret _ k => IpcInv O k h ∧ (k.envs cur).envStatus = .running
  | .left l k => IpcInv (HeldAfter O l) k (h ++ leaveEvents k l)

theorem sysSetpriority_upToPriority (k : Kernel) (cur : EnvIdx) (envid priority : Int) :
    UpToPriority k (sysSetpriority k cur envid priority).2 := by
  unfold sysSetpriority
  split
  · exact UpToPriority.refl k
  · rename_i e he
    split
    · exact UpToPriority.refl k
    · split
      · exact UpToPriority.refl k
      · split
        · exact UpToPriority.refl k
        · refine ⟨rfl, rfl, fun j => ?_⟩
          dsimp only
          rw [Kernel.modifyEnv_apply]
          split <;> rfl

theorem MemOnly.ipcInv (hm : MemOnly k k') (hk : IpcInv O k h) : IpcInv O k' h := by
  refine hk.congr (fun e => ?_)
  rw [hm.envs]
  exact ⟨rfl, rfl, rfl, rfl, rfl⟩

/-- The receiver of a send that is delivered is not on a CPU: it waits. -/
theorem IpcInv.recving {r : EnvIdx} (hk : IpcInv O k h) (hrecv : (k.envs r).envIpcRecving = true) :
    phase r h = .waiting ∧ (k.envs r).envStatus = .notRunnable ∧ ¬ O r := by
  have hw := (hk.agrees r).waiting_of_recving hrecv
  have hag := hk.agrees r
  rw [hw] at hag
  refine ⟨hw, hag.1, fun hO => ?_⟩
  have hrun := hk.held r hO
  rw [hag.1] at hrun
  cases hrun

theorem sysIpcTrySend_ipc {sched : Scheduler} {cur : EnvIdx} {envid : Int}
    {value srcva perm : Word} {v : Int} (hk : IpcInv O k h)
    (hrun : (k.envs cur).envStatus = .running)
    (hs : sysIpcTrySend k cur envid value srcva perm = .ok (v, k')) :
    OutcomeIpc O cur (h ++ callEvents sched k cur (.ipcTrySend envid value srcva perm))
      (.ret v k') := by
  rcases sysIpcTrySend_cases hs with ⟨hv, hsame⟩ | ⟨r, k₁, hr, hrecv, rfl, hsame, rfl⟩
  · have hnil : callEvents sched k cur (.ipcTrySend envid value srcva perm) = [] := by
      rw [callEvents, hs]
      split
      · rename_i heq
        cases heq
        exact absurd rfl hv
      · rfl
    rw [hnil, List.append_nil]
    refine ⟨hsame.ipcInv hk, ?_⟩
    rw [hsame cur]
    exact hrun
  · obtain ⟨hw, hstatus, hO⟩ := hk.recving hrecv
    have hne : cur ≠ r := by
      rintro rfl
      rw [hrun] at hstatus
      cases hstatus
    have hevents : callEvents sched k cur (.ipcTrySend envid value srcva perm) =
        [.sent r (k₁.envs cur).envId value] := by
      rw [callEvents, hs, hr, hsame cur]
      rfl
    rw [hevents]
    refine ⟨ipcDeliver_ipcInv (hsame.ipcInv hk) hw hO, ?_⟩
    rw [ipcDeliver, Kernel.modifyEnv_of_ne _ _ hne, hsame cur]
    exact hrun

theorem sysIpcRecv_ipc {sched : Scheduler} {cur : EnvIdx} {dstva : Word} (hk : IpcInv O k h)
    (hidle : phase cur h = .idle) (hcur : ¬ O cur) (hpage : userPage dstva = true) :
    OutcomeIpc O cur (h ++ callEvents sched k cur (.ipcRecv dstva))
      (sysIpcRecv sched k cur dstva) := by
  have hleft : sysIpcRecv sched k cur dstva =
      sysYield sched ((k.modifyEnv cur (fun v => { v with envIpcRecving := true })).modifyEnv cur
        (fun v => { v with envIpcDstva := dstva, envStatus := .notRunnable })) cur := by
    simp [sysIpcRecv, hpage]
  rw [callEvents, hleft]
  refine schedYield_ipcInv sched ⟨?_, ?_⟩ (fun c hc => by cases hc; exact hcur)
  · intro j hj
    have hne : j ≠ cur := by
      rintro rfl
      exact hcur hj
    rw [Kernel.modifyEnv_of_ne _ _ hne, Kernel.modifyEnv_of_ne _ _ hne]
    exact hk.held j hj
  · intro j
    by_cases hjc : j = cur
    · subst hjc
      dsimp only [sysYield]
      rw [phase_append_own (r := j) rfl, hidle, Kernel.modifyEnv_self, Kernel.modifyEnv_self]
      exact ⟨rfl, rfl⟩
    · dsimp only [sysYield]
      rw [phase_append_other (fun heq => hjc heq.symm), Kernel.modifyEnv_of_ne _ _ hjc,
        Kernel.modifyEnv_of_ne _ _ hjc]
      exact hk.agrees j

theorem syscall_ipc {sched : Scheduler} {cur : EnvIdx} {tf : Trapframe} {call : Syscall}
    {o : Outcome} (hk : IpcInv O k h) (hrun : (k.envs cur).envStatus = .running) (hcur : ¬ O cur)
    (hkeeps : keepsStatuses (.syscall tf call) = true) (hpage : receivesAtPage (.syscall tf call) = true)
    (ho : syscall sched k cur call = .ok o) :
    OutcomeIpc O cur (h ++ callEvents sched k cur call) o := by
  have hidle := (hk.agrees cur).idle_of_running hrun
  have hmem : ∀ {k' : Kernel} {v : Int}, MemOnly k k' →
      OutcomeIpc O cur (h ++ []) (.ret v k') := by
    intro k' v hm
    rw [List.append_nil]
    refine ⟨hm.ipcInv hk, ?_⟩
    rw [hm.envs]
    exact hrun
  cases call with
  | getenvid => cases ho; exact hmem rfl
  | getpriority envid => cases ho; exact hmem rfl
  | envDestroy envid => cases hkeeps
  | pageAlloc envid va perm =>
      obtain ⟨v, k', hx, rfl⟩ := returned_ok ho
      exact hmem (sysPageAlloc_memOnly hx)
  | pageMap srcenvid srcva dstenvid dstva perm =>
      obtain ⟨v, k', hx, rfl⟩ := returned_ok ho
      exact hmem (sysPageMap_memOnly hx)
  | pageUnmap envid va =>
      obtain ⟨v, k', hx, rfl⟩ := returned_ok ho
      exact hmem (sysPageUnmap_memOnly hx)
  | exofork => cases hkeeps
  | envSetStatus envid status => cases hkeeps
  | yield =>
      cases ho
      have hnil : callEvents sched k cur .yield = [] := rfl
      rw [hnil, List.append_nil]
      exact schedYield_ipcInv sched hk (fun c hc => by cases hc; exact hcur)
  | ipcTrySend envid value srcva perm =>
      obtain ⟨v, k', hx, rfl⟩ := returned_ok ho
      exact sysIpcTrySend_ipc hk hrun hx
  | ipcRecv dstva =>
      cases ho
      exact sysIpcRecv_ipc hk hidle hcur hpage
  | setpriority envid priority =>
      have hp := sysSetpriority_upToPriority k cur envid priority
      have hnil : callEvents sched k cur (.setpriority envid priority) = [] := rfl
      cases ho
      rw [hnil, List.append_nil]
      refine ⟨hp.ipcInv hk, ?_⟩
      rw [hp.status]
      exact hrun
  | invalid => cases ho; exact hmem rfl

/-! ## Steps and runs -/

/-- `e` executes on some CPU. -/
def OnCpu (m : Machine n) (e : EnvIdx) : Prop :=
  ∃ c, (m.cpus c).mode = .user ∧ (m.cpus c).curenv = some e

theorem trapUser_ipc {sched : Scheduler} {cur : EnvIdx} {ev : Entry} {r : Kernel × Leave}
    {m : Machine n} {c : Fin n} (hk : IpcInv O m.kern h) (hc : (m.cpus c).curenv = some cur)
    (hrun : (m.kern.envs cur).envStatus = .running) (hcur : ¬ O cur) (hkeeps : keepsStatuses ev = true)
    (hpage : receivesAtPage ev = true) (hr : trapUser sched m.kern cur ev = .ok r) :
    IpcInv (HeldAfter O r.2) r.1 (h ++ entryEvents sched m c ev ++ leaveEvents r.1 r.2) := by
  have hidle := (hk.agrees cur).idle_of_running hrun
  have hself : ∀ c', some cur = some c' → ¬ O c' := by
    intro c' hc'
    cases hc'
    exact hcur
  have hnot : (m.kern.envs cur).envStatus ≠ .dying := by
    rw [hrun]
    decide
  rw [trapUser, if_neg hnot] at hr
  cases ev with
  | timer tf =>
      cases hr
      rw [entryEvents, List.append_nil]
      exact schedYield_ipcInv sched (hk.setTf hidle (fun _ => tf)) hself
  | syscall tf call =>
      simp only [trapDispatch, bind_ok] at hr
      obtain ⟨o, ho, hr⟩ := hr
      have hsaved : IpcInv O (saved m.kern cur tf) h := hk.setTf hidle (fun _ => tf)
      have hrun' : ((saved m.kern cur tf).envs cur).envStatus = .running := by
        rw [saved, Kernel.modifyEnv_self]
        exact hrun
      have hout := syscall_ipc hsaved hrun' hcur hkeeps hpage ho
      have hevents : entryEvents sched m c (.syscall tf call) =
          callEvents sched (saved m.kern cur tf) cur call := by
        rw [entryEvents, hc]
        exact if_neg hnot
      rw [hevents]
      cases o with
      | left l k =>
          cases hr
          exact hout
      | ret v k =>
          obtain ⟨hinv, hstill⟩ := hout
          have hret := hinv.setTf ((hinv.agrees cur).idle_of_running hstill)
            (fun tf => tf.setEax (BitVec.ofInt 32 v))
          dsimp only at hr
          rw [if_pos (by rw [Kernel.modifyEnv_self]; exact hstill)] at hr
          cases hr
          refine envRun_ipcInv hret hself (Or.inr ?_)
          rw [Kernel.modifyEnv_self]
          exact hstill

/-- What holds between two entries of a run. -/
structure MachineIpc (m : Machine n) (h : List IpcEvent) : Prop where
  cpus : CpuInv m
  ipc : IpcInv (OnCpu m) m.kern h

/-- The environments on a CPU after an entry of CPU `c`. -/
theorem onCpu_back {m : Machine n} {c : Fin n} {r : Kernel × Leave} {e : EnvIdx}
    (he : OnCpu (m.back c r) e) : HeldAfter (RunsElsewhere m c) r.2 e := by
  obtain ⟨d, hmode, hd⟩ := he
  by_cases hdc : d = c
  · subst hdc
    simp only [Machine.back, Function.update_self] at hd hmode
    cases hl : r.2 with
    | run e' =>
        rw [hl] at hd
        cases hd
        exact Or.inr rfl
    | halt => rw [hl] at hd; cases hd
    | monitor => rw [hl] at hmode; cases hmode
  · simp only [Machine.back, Function.update_of_ne hdc] at hd
    exact Or.inl ⟨d, hdc, hd⟩

/-- A receiver that waits is on no CPU, so the calls of such a run leave
the other CPUs alone. -/
theorem benign_of_ipcInv {m : Machine n} {c : Fin n} {ev : Entry} (hm : MachineIpc m h)
    (hnone : ∀ d, (m.cpus d).mode ≠ .monitor) (hkeeps : keepsStatuses ev = true) : Benign m c ev := by
  cases ev with
  | timer tf => trivial
  | syscall tf call =>
      intro cur hcur
      cases call with
      | ipcTrySend envid value srcva perm =>
          rintro e - hrecv ⟨d, -, hd⟩
          exact (hm.ipc.recving hrecv).2.2 ⟨d, hm.cpus.monitor d e (hnone d) hd, hd⟩
      | envDestroy envid => cases hkeeps
      | exofork => cases hkeeps
      | envSetStatus envid status => cases hkeeps
      | getenvid => trivial
      | getpriority envid => trivial
      | pageAlloc envid va perm => trivial
      | pageMap srcenvid srcva dstenvid dstva perm => trivial
      | pageUnmap envid va => trivial
      | yield => trivial
      | ipcRecv dstva => trivial
      | setpriority envid priority => trivial
      | invalid => trivial

theorem step_machineIpc {sched : Scheduler} {m m' : Machine n} {c : Fin n} {ev : Entry}
    (hm : MachineIpc m h) (hs : Step sched m c ev m') (hkeeps : keepsStatuses ev = true)
    (hpage : receivesAtPage ev = true) :
    MachineIpc m' (h ++ entryEvents sched m c ev ++ resumeEvents m' c) := by
  have hnone := hs.1
  refine ⟨step_cpuInv hm.cpus hs (benign_of_ipcInv hm hnone hkeeps), ?_⟩
  have hothers : IpcInv (RunsElsewhere m c) m.kern h := by
    refine hm.ipc.mono ?_
    rintro e ⟨d, -, hd⟩
    exact ⟨d, hm.cpus.monitor d e (hnone d) hd, hd⟩
  rcases enter_ok hs.2.2 with ⟨cur, r, hmode, hcur, htrap, rfl⟩ | ⟨tf, rfl, hhalted, rfl⟩
  · have hnot : ¬ RunsElsewhere m c cur := by
      rintro ⟨d, hd, hde⟩
      exact hd (hm.cpus.exclusive.one d c cur hde hcur)
    have hrun := hm.ipc.held cur ⟨c, hmode, hcur⟩
    rw [resumeEvents_back]
    exact (trapUser_ipc hothers hcur hrun hnot hkeeps hpage htrap).mono (fun e => onCpu_back)
  · rw [resumeEvents_back, entryEvents, List.append_nil]
    exact (schedYield_ipcInv sched hothers (fun c' hc' => by cases hc')).mono
      (fun e => onCpu_back)

/-- After boot nobody receives. -/
structure IpcBooted (m : Machine n) : Prop where
  booted : Booted m
  quiet : ∀ e, (m.kern.envs e).envIpcRecving = false

theorem IpcBooted.machineIpc {m : Machine n} (h₀ : IpcBooted m) : MachineIpc m [] where
  cpus := h₀.booted.cpuInv
  ipc :=
    { held := by
        rintro e ⟨c, -, hc⟩
        rw [h₀.booted.idle] at hc
        cases hc
      agrees := h₀.quiet }

theorem IpcRun.machineIpc {sched : Scheduler} {m₀ m : Machine n} (h₀ : IpcBooted m₀)
    (hrun : IpcRun sched (fun ev => keepsStatuses ev ∧ receivesAtPage ev) m₀ m h) :
    MachineIpc m h := by
  induction hrun with
  | start => exact h₀.machineIpc
  | step _ hs hP ih => exact step_machineIpc ih hs hP.1 hP.2

theorem MachineIpc.phase_ne_broken {m : Machine n} (hm : MachineIpc m h) (r : EnvIdx) :
    phase r h ≠ .broken := by
  intro hbad
  have hag := hm.ipc.agrees r
  rw [hbad] at hag
  exact hag

theorem MachineIpc.refusedUnlessBlocked {m : Machine n} (hm : MachineIpc m h) :
    RefusedUnlessBlocked m h := by
  intro c cur tf envid value srcva perm r hmode hcur hr hnot
  have hsame : ((saved m.kern cur tf).envs r).envIpcRecving = (m.kern.envs r).envIpcRecving := by
    rw [saved, Kernel.modifyEnv_apply]
    split <;> rfl
  have hrecv : (m.kern.envs r).envIpcRecving = false := by
    by_contra hon
    have hw := (hm.ipc.recving (by simpa using hon)).1
    rw [← List.take_of_length_le (Nat.le_refl h.length)] at hw
    obtain ⟨j, -, hb, hlast⟩ := blocked_of_waiting hw
    refine hnot ⟨j, hb, fun t ev hjt ht => hlast t ev hjt ?_ ht⟩
    exact (List.getElem?_eq_some_iff.mp ht).1
  rw [sysIpcTrySend, hr]
  dsimp only
  rw [if_pos (by rw [hsame]; exact hrecv)]
  rfl

theorem MachineIpc.deliveryPending {m : Machine n} (hm : MachineIpc m h) :
    DeliveryPending m h := by
  intro i r sender value hi hlast
  have hlen : i + 1 ≤ h.length := (List.getElem?_eq_some_iff.mp hi).1
  have hp : phase r h = .delivered sender value := by
    rw [← delivered_after_sent (hm.phase_ne_broken r) hi,
      ← phase_take_between hlen (fun u ev hu _ => hlast u ev hu),
      List.take_of_length_le (Nat.le_refl h.length)]
  have hag := hm.ipc.agrees r
  rw [hp] at hag
  obtain ⟨hstatus, -, heax, hfrom, hvalue⟩ := hag
  exact ⟨hstatus, by rw [resumedIn, heax, hfrom, hvalue]⟩

/-- In every run in which no `sys_ipc_recv` fails, every message is
received exactly once, and a send to an environment that is not blocked
is refused. -/
theorem ipc_exactly_once (sched : Scheduler) {m₀ m : Machine n} (h₀ : IpcBooted m₀)
    (hrun : IpcRun sched (fun ev => keepsStatuses ev ∧ receivesAtPage ev) m₀ m h) :
    ExactlyOnce h ∧ RefusedUnlessBlocked m h ∧ DeliveryPending m h := by
  have hm := hrun.machineIpc h₀
  exact ⟨exactlyOnce_of_phase hm.phase_ne_broken, hm.refusedUnlessBlocked, hm.deliveryPending⟩

/-! ## Two environments -/

/-- A list of entries with their history. -/
def runIpc (sched : Scheduler) (allow : Entry → Bool) :
    Machine n → List IpcEvent → List (Fin n × Entry) → Option (Machine n × List IpcEvent)
  | m, h, [] => some (m, h)
  | m, h, (c, ev) :: rest =>
      if (List.finRange n).all (fun d => (m.cpus d).mode ≠ .monitor) && decide ev.Decoded &&
          allow ev then
        match enter sched m c ev with
        | .ok (some m') =>
            runIpc sched allow m' (h ++ entryEvents sched m c ev ++ resumeEvents m' c) rest
        | _ => none
      else none

theorem runIpc_run {sched : Scheduler} {allow : Entry → Bool} {P : Entry → Prop}
    (hP : ∀ ev, allow ev = true → P ev) {m₀ m m' : Machine n} {h' : List IpcEvent}
    {l : List (Fin n × Entry)} (hrun : IpcRun sched P m₀ m h)
    (heq : runIpc sched allow m h l = some (m', h')) : IpcRun sched P m₀ m' h' := by
  induction l generalizing m h with
  | nil =>
      rw [runIpc, Option.some.injEq] at heq
      cases heq
      exact hrun
  | cons x l ih =>
      obtain ⟨c, ev⟩ := x
      rw [runIpc] at heq
      split at heq
      · rename_i hok
        simp only [Bool.and_eq_true, List.all_eq_true, List.mem_finRange, true_implies,
          decide_eq_true_eq] at hok
        split at heq
        · rename_i m₁ henter
          exact ih (hrun.step ⟨hok.1.1, hok.1.2, henter⟩ (hP ev hok.2)) heq
        · cases heq
      · cases heq

/-- The slots after the first two. -/
@[irreducible] def laterSlots : List EnvIdx := otherSlots.filter (fun e => e ≠ 1)

theorem mem_laterSlots {e : EnvIdx} (he : e ∈ laterSlots) : e ≠ 0 ∧ e ≠ 1 := by
  unfold laterSlots at he
  exact ⟨mem_otherSlots (List.mem_filter.mp he).1, of_decide_eq_true (List.mem_filter.mp he).2⟩

theorem nodup_laterSlots : laterSlots.Nodup := by
  unfold laterSlots
  exact nodup_otherSlots.filter _

/-- Two environments that may run, and two CPUs. -/
def pairMachine : Machine 2 where
  kern :=
    { envs := fun e =>
        if e = 0 then { envId := 4096, envStatus := .runnable, priority := 8, envPgdir := some 10 }
        else if e = 1 then
          { envId := 4097, envStatus := .runnable, priority := 8, envPgdir := some 11 }
        else {}
      envFreeList := laterSlots
      mem := oneEnv.mem }
  cpus _ := { curenv := none, mode := .halted }

theorem pairMachine_booted : IpcBooted pairMachine where
  booted :=
    { idle := fun _ => rfl
      free := by
        intro e he
        obtain ⟨hne₀, hne₁⟩ := mem_laterSlots he
        show (if e = 0 then _ else if e = 1 then _ else ({} : Env)).envStatus = .free
        rw [if_neg hne₀, if_neg hne₁]
      nodup := nodup_laterSlots }
  quiet := by
    intro e
    show (if e = 0 then _ else if e = 1 then _ else ({} : Env)).envIpcRecving = false
    split
    · rfl
    · split <;> rfl

/-- There is a CPU 0. -/
local instance twoCpus : @NeZero Nat Zero.ofOfNat0 2 := ⟨by decide⟩

/-- Slot 0 receives at `dstva`, slot 1 sends it 7, and CPU 0 looks for
something to run. -/
def pingEntries (dstva : Word) : List (Fin 2 × Entry) :=
  [(0, .timer {}), (1, .timer {}), (0, .syscall (sysTf 13 dstva 0) (.ipcRecv dstva)),
   (1, .syscall { tfRegs := { regEax := 12, regEdx := 4096, regEcx := 7, regEbx := utop } }
     (.ipcTrySend 4096 7 utop 0)),
   (0, .timer {})]

theorem ipc_exactly_once_ping : ∃ (m : Machine 2) (h : List IpcEvent),
    (ExactlyOnce h ∧ RefusedUnlessBlocked m h ∧ DeliveryPending m h) ∧
      h.drop 2 = [.blocked 0, .sent 0 4097 7, .resumed 1 0 0 0, .resumed 0 0 4097 7] := by
  have heval : (runIpc .roundRobin (fun ev => keepsStatuses ev && receivesAtPage ev)
      pairMachine [] (pingEntries 0x200000)).map
      (fun p => p.2.drop 2) =
        some [.blocked 0, .sent 0 4097 7, .resumed 1 0 0 0, .resumed 0 0 4097 7] := by
    decide +kernel
  obtain ⟨⟨m, h⟩, hrun, hdrop⟩ := Option.map_eq_some_iff.mp heval
  refine ⟨m, h, ipc_exactly_once .roundRobin pairMachine_booted ?_, hdrop⟩
  exact runIpc_run (fun ev hev => Bool.and_eq_true_iff.mp hev) IpcRun.start hrun

/-- A receive at an address that is not page-aligned fails, and the next
send is taken although nobody waits for it. -/
theorem sent_without_receive :
    ¬ ∀ (m₀ m : Machine 2) (h : List IpcEvent), IpcBooted m₀ →
      IpcRun .roundRobin (fun ev => keepsStatuses ev) m₀ m h →
        ExactlyOnce h ∧ RefusedUnlessBlocked m h ∧ DeliveryPending m h := by
  intro hall
  have heval : (runIpc .roundRobin keepsStatuses pairMachine [] (pingEntries 1)).map
      (fun p => p.2) = some [.resumed 0 0 0 0, .resumed 1 0 0 0, .resumed 0 (-3) 0 0,
        .sent 0 4097 7, .resumed 1 0 0 0, .resumed 0 0 4097 7] := by
    decide +kernel
  obtain ⟨⟨m, h⟩, hrun, hh⟩ := Option.map_eq_some_iff.mp heval
  dsimp only at hh
  subst hh
  have honce := (hall pairMachine m _ pairMachine_booted
    (runIpc_run (fun _ hev => hev) IpcRun.start hrun)).1
  obtain ⟨j, ⟨r, -, -, -, -, hblocked, -⟩, -⟩ := honce.matched 3 0 4097 7 rfl
  have hmem := List.mem_of_getElem? hblocked
  simp at hmem

end SistemasOperativos.Kern
