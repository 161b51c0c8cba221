/-
SistemasOperativos.Shell.RunCmdTheorems — who collects the foreground
child.

The handler collects every child that has ended, the foreground child
among them. If a `waitpid` of the handler finds that child ended and not
yet collected, the handler takes it before it returns: `waitpid` of
`run_cmd` then fails, and `print_status_info` decodes what an earlier
command left in `status`. Otherwise `run_cmd` takes it itself.
-/
import SistemasOperativos.Shell.RunCmd

namespace SistemasOperativos.Shell

/-! ## The specification -/

/-- After `fork`, with any other children. -/
structure Started (p : Nat) (s : ShellState) : Prop where
  pc : s.pc = .storePid
  idle : s.inHandler = false
  running : s.children p = .running

/-- A `waitpid` of the handler does not find the foreground child ended
and not yet collected. -/
def Benign (p : Nat) (s : ShellState) (ev : Event) : Prop :=
  ev = .handlerWait → ∀ o, s.children p ≠ .zombie o

def Clean (p : Nat) (tr : List (ShellState × Event)) : Prop := ∀ x ∈ tr, Benign p x.1 x.2

variable {parsed : Cmd} {p : Nat} {s s' s₀ : ShellState} {tr : List (ShellState × Event)} {ev : Event}

theorem clean_append : Clean p (tr ++ [(s, ev)]) ↔ Clean p tr ∧ Benign p s ev := by
  simp [Clean, or_imp, forall_and]

theorem clean_append_of_ne (hev : ev ≠ .handlerWait) : Clean p (tr ++ [(s, ev)]) ↔ Clean p tr := by
  rw [clean_append]
  exact and_iff_left (fun hw => absurd hw hev)

/-! ## Decoding -/

theorem wexitstatus_exited (code : BitVec 8) : wifexited (Outcome.exited code).waitStatus = true ∧
    wexitstatus (Outcome.exited code).waitStatus = code.setWidth 32 := by
  revert code
  decide +kernel

theorem wtermsig_killed (sig : BitVec 7) (hsig : sig ≠ 0 ∧ sig ≠ 127) (core : Bool) :
    wifexited (Outcome.killed ⟨sig, hsig⟩ core).waitStatus = false ∧
    wifsignaled (Outcome.killed ⟨sig, hsig⟩ core).waitStatus = true ∧
    wtermsig (Outcome.killed ⟨sig, hsig⟩ core).waitStatus = sig.setWidth 32 := by
  revert sig core
  decide +kernel

theorem printStatusInfo_waitStatus (hcmd : parsed.scmd ≠ []) (o : Outcome) :
    printStatusInfo parsed o.waitStatus = o.decoded := by
  have hlen : ¬ parsed.scmd.length = 0 := by
    rw [List.length_eq_zero_iff]
    exact hcmd
  rw [printStatusInfo, if_neg hlen]
  cases o with
  | exited code =>
      obtain ⟨hexited, hcode⟩ := wexitstatus_exited code
      rw [if_pos hexited, hcode]
      rfl
  | killed sig core =>
      obtain ⟨hexited, hsignaled, hsig⟩ := wtermsig_killed sig.val sig.property core
      rw [if_neg (by rw [hexited]; exact Bool.false_ne_true), if_pos hsignaled, hsig]
      rfl

/-! ## The invariant -/

/-- The foreground child, until `waitpid` of `run_cmd` has returned. -/
def Awaited (clean : Prop) (inHandler : Bool) : Child → Prop
  | .absent => False
  | .running => clean
  | .zombie _ => clean ∨ inHandler = true
  | .reaped _ => ¬ clean

/-- What `status` and the foreground child are at each instruction, when
`old` was left by an earlier command. -/
def StatusInv (parsed : Cmd) (p : Nat) (old : CInt) (s : ShellState) (clean : Prop) : Prop :=
  match s.pc with
  | .storePid | .testBack | .waitpid => s.status = old ∧ Awaited clean s.inHandler (s.children p)
  | .printStatus => ∃ o, s.children p = .reaped o ∧
      (clean → s.status = o.waitStatus) ∧ (¬ clean → s.status = old)
  | .freeCommand | .returned => ∃ o, s.children p = .reaped o ∧
      (clean → s.status = o.decoded) ∧ (¬ clean → s.status = printStatusInfo parsed old)

variable {old : CInt} {clean clean' : Prop}

/-- A step that is not the shell's own: it changes neither the instruction
nor `status`, and leaves a child that has been collected alone. -/
theorem StatusInv.frame (hi : StatusInv parsed p old s clean) (hpc : s'.pc = s.pc)
    (hstatus : s'.status = s.status)
    (hreaped : ∀ o, s.children p = .reaped o → s'.children p = .reaped o ∧ (clean' ↔ clean))
    (hawaited : Awaited clean s.inHandler (s.children p) →
      Awaited clean' s'.inHandler (s'.children p)) :
    StatusInv parsed p old s' clean' := by
  have hafter : ∀ o (f g : Prop), s.children p = .reaped o → (clean → f) ∧ (¬ clean → g) →
      (clean' → f) ∧ (¬ clean' → g) := by
    intro o f g ho hfg
    rw [(hreaped o ho).2]
    exact hfg
  unfold StatusInv at hi ⊢
  rw [hpc, hstatus]
  cases hs : s.pc with
  | storePid =>
      rw [hs] at hi
      exact ⟨hi.1, hawaited hi.2⟩
  | testBack =>
      rw [hs] at hi
      exact ⟨hi.1, hawaited hi.2⟩
  | waitpid =>
      rw [hs] at hi
      exact ⟨hi.1, hawaited hi.2⟩
  | printStatus =>
      rw [hs] at hi
      obtain ⟨o, ho, hst⟩ := hi
      exact ⟨o, (hreaped o ho).1, hafter o _ _ ho hst⟩
  | freeCommand =>
      rw [hs] at hi
      obtain ⟨o, ho, hst⟩ := hi
      exact ⟨o, (hreaped o ho).1, hafter o _ _ ho hst⟩
  | returned =>
      rw [hs] at hi
      obtain ⟨o, ho, hst⟩ := hi
      exact ⟨o, (hreaped o ho).1, hafter o _ _ ho hst⟩

/-! ## The steps that are not the shell's -/

theorem setChild_of_ne {q : Nat} (c : Child) (hq : p ≠ q) :
    (setChild s q c).children p = s.children p :=
  Function.update_of_ne hq ..

theorem setChild_self (c : Child) : (setChild s p c).children p = c :=
  Function.update_self ..

theorem StatusInv.childExit {q : Nat} (hi : StatusInv parsed p old s clean) (o : Outcome)
    (hq : s.children q = .running) :
    StatusInv parsed p old { setChild s q (.zombie o) with pending := true } clean := by
  refine hi.frame rfl rfl (fun o' ho' => ⟨?_, Iff.rfl⟩) (fun haw => ?_)
  · have hpq : p ≠ q := by
      rintro rfl
      rw [hq] at ho'
      cases ho'
    exact (setChild_of_ne _ hpq).trans ho'
  · by_cases hpq : p = q
    · subst hpq
      rw [hq] at haw
      show Awaited clean s.inHandler ((setChild s p (.zombie o)).children p)
      rw [setChild_self]
      exact Or.inl haw
    · show Awaited clean s.inHandler ((setChild s q (.zombie o)).children p)
      rwa [setChild_of_ne _ hpq]

theorem StatusInv.signal (hi : StatusInv parsed p old s clean) :
    StatusInv parsed p old { s with pending := false, inHandler := true } clean := by
  refine hi.frame rfl rfl (fun o ho => ⟨ho, Iff.rfl⟩) (fun haw => ?_)
  show Awaited clean true (s.children p)
  cases hc : s.children p with
  | absent =>
      rw [hc] at haw
      exact haw
  | running =>
      rw [hc] at haw
      exact haw
  | zombie o => exact Or.inr rfl
  | reaped o =>
      rw [hc] at haw
      exact haw

/-- When the handler collects a child while the foreground child has
ended, the run is no longer clean, and the loop of the handler goes on. -/
theorem StatusInv.handlerReaps {q : Nat} {o : Outcome} (hi : StatusInv parsed p old s clean)
    (hh : s.inHandler = true) (hq : s.children q = .zombie o) :
    StatusInv parsed p old (setChild s q (.reaped o)) (clean ∧ Benign p s .handlerWait) := by
  refine hi.frame rfl rfl (fun o' ho' => ⟨?_, ?_⟩) (fun haw => ?_)
  · have hpq : p ≠ q := by
      rintro rfl
      rw [hq] at ho'
      cases ho'
    exact (setChild_of_ne _ hpq).trans ho'
  · refine and_iff_left (fun _ o'' hz => ?_)
    rw [ho'] at hz
    cases hz
  · show Awaited _ s.inHandler ((setChild s q (.reaped o)).children p)
    by_cases hpq : p = q
    · subst hpq
      rw [setChild_self]
      exact fun hc => hc.2 rfl o hq
    · rw [setChild_of_ne _ hpq]
      cases hc : s.children p with
      | absent =>
          rw [hc] at haw
          exact haw
      | running =>
          rw [hc] at haw
          refine ⟨haw, fun _ o' hz => ?_⟩
          rw [hc] at hz
          cases hz
      | zombie o' => exact Or.inr hh
      | reaped o' =>
          rw [hc] at haw
          exact fun hcl => haw hcl.1

theorem StatusInv.handlerReturns (hi : StatusInv parsed p old s clean)
    (hnone : ∀ q o, s.children q ≠ .zombie o) :
    StatusInv parsed p old { s with inHandler := false } (clean ∧ Benign p s .handlerWait) := by
  have hclean : (clean ∧ Benign p s .handlerWait) ↔ clean := and_iff_left (fun _ => hnone p)
  refine hi.frame rfl rfl (fun o ho => ⟨ho, hclean⟩) (fun haw => ?_)
  rw [hclean]
  show Awaited clean false (s.children p)
  cases hc : s.children p with
  | absent =>
      rw [hc] at haw
      exact haw
  | running =>
      rw [hc] at haw
      exact haw
  | zombie o => exact absurd hc (hnone p o)
  | reaped o =>
      rw [hc] at haw
      exact haw

/-! ## Every run -/

theorem StatusInv.step (hcmd : parsed.scmd ≠ []) (hi : StatusInv parsed p old s (Clean p tr))
    (hs : ShellStep parsed p s ev s') : StatusInv parsed p old s' (Clean p (tr ++ [(s, ev)])) := by
  cases hs with
  | childExit o hq =>
      rw [clean_append_of_ne (by simp)]
      exact hi.childExit o hq
  | signal _ _ =>
      rw [clean_append_of_ne (by simp)]
      exact hi.signal
  | handlerReaps hh hq =>
      rw [clean_append]
      exact hi.handlerReaps hh hq
  | handlerReturns _ hnone =>
      rw [clean_append]
      exact hi.handlerReturns hnone
  | storePid _ hpc =>
      rw [clean_append_of_ne (by simp)]
      unfold StatusInv at hi
      rw [hpc] at hi
      exact hi
  | testBack _ hpc =>
      rw [clean_append_of_ne (by simp)]
      unfold StatusInv at hi
      rw [hpc] at hi
      exact hi
  | @waitpid o hh hpc hz =>
      rw [clean_append_of_ne (by simp)]
      unfold StatusInv at hi
      rw [hpc] at hi
      -- the handler does not run, so it has not seen the child
      have haw := hi.2
      rw [hz, hh] at haw
      have hclean : Clean p tr := haw.resolve_right Bool.false_ne_true
      exact ⟨o, setChild_self _, fun _ => rfl, fun hc => absurd hclean hc⟩
  | @waitpidFails o hh hpc hr =>
      rw [clean_append_of_ne (by simp)]
      unfold StatusInv at hi
      rw [hpc] at hi
      have haw := hi.2
      rw [hr] at haw
      exact ⟨o, hr, fun hc => absurd hc haw, fun _ => hi.1⟩
  | printStatus _ hpc =>
      rw [clean_append_of_ne (by simp)]
      unfold StatusInv at hi
      rw [hpc] at hi
      obtain ⟨o, ho, hnew, hold⟩ := hi
      refine ⟨o, ho, fun hc => ?_, fun hc => ?_⟩
      · show printStatusInfo parsed s.status = _
        rw [hnew hc, printStatusInfo_waitStatus hcmd]
      · show printStatusInfo parsed s.status = _
        rw [hold hc]
  | freeCommand _ hpc =>
      rw [clean_append_of_ne (by simp)]
      unfold StatusInv at hi
      rw [hpc] at hi
      exact hi

theorem StatusInv.run (hcmd : parsed.scmd ≠ []) (hs₀ : Started p s₀)
    (hrun : ShellRun parsed p s₀ s tr) : StatusInv parsed p s₀.status s (Clean p tr) := by
  induction hrun with
  | start =>
      unfold StatusInv
      rw [hs₀.pc, hs₀.running]
      exact ⟨rfl, fun x hx => by simp at hx⟩
  | step _ hs ih => exact ih.step hcmd hs

/-- When `run_cmd` returns, `status` is the status of the foreground child
exactly if the handler never found it ended and not yet collected, or if
what an earlier command left decodes to the same. -/
theorem status_of_foreground {e : ExecCmd} (he : e.scmd ≠ []) {p : Nat} {s₀ s : ShellState}
    {tr : List (ShellState × Event)} (hs₀ : Started p s₀) (hrun : ShellRun (.exec e) p s₀ s tr)
    (hret : s.pc = .returned) :
    ∃ o, s.children p = .reaped o ∧ (s.status = o.decoded ↔
      Clean p tr ∨ printStatusInfo (.exec e) s₀.status = o.decoded) := by
  have hi := StatusInv.run (show (Cmd.exec e).scmd ≠ [] from he) hs₀ hrun
  unfold StatusInv at hi
  rw [hret] at hi
  obtain ⟨o, ho, hnew, hold⟩ := hi
  refine ⟨o, ho, fun hst => ?_, fun h => ?_⟩
  · by_cases hc : Clean p tr
    · exact Or.inl hc
    · exact Or.inr ((hold hc).symm.trans hst)
  · by_cases hc : Clean p tr
    · exact hnew hc
    · exact (hold hc).trans (h.resolve_left hc)

/-- After an earlier command that exited with 0, the shell has forked
process 1 and has no other children. -/
def demoShell : ShellState where
  pc := .storePid
  status := 0
  children q := if q = 1 then .running else .absent
  pending := false
  inHandler := false

theorem demoShell_started : Started 1 demoShell := ⟨rfl, rfl, rfl⟩

/-- The shell waits before the child exits with 3. -/
theorem demoShell_waits (cmd : Cmd) : ∃ s tr, ShellRun cmd 1 demoShell s tr ∧ s.pc = .returned ∧
    Clean 1 tr ∧ s.children 1 = .reaped (.exited 3) := by
  have h₀ : ShellRun cmd 1 demoShell demoShell [] := .start
  have h₁ := h₀.step (.storePid rfl rfl)
  have h₂ := h₁.step (.testBack rfl rfl)
  have h₃ := h₂.step (.childExit (q := 1) (.exited 3) rfl)
  have h₄ := h₃.step (.waitpid (o := .exited 3) rfl rfl rfl)
  have h₅ := h₄.step (.printStatus rfl rfl)
  have h₆ := h₅.step (.freeCommand rfl rfl)
  refine ⟨_, _, h₆, rfl, ?_, rfl⟩
  simp [Clean, Benign]

theorem status_of_foreground_waits :
    ∃ s tr, ShellRun (.exec (execCmdCreate ['f'])) 1 demoShell s tr ∧ s.pc = .returned ∧
      Clean 1 tr ∧ ∃ o, s.children 1 = .reaped o ∧ s.status = o.decoded := by
  obtain ⟨s, tr, hrun, hret, hclean, -⟩ := demoShell_waits (.exec (execCmdCreate ['f']))
  obtain ⟨o, ho, hiff⟩ :=
    status_of_foreground (List.cons_ne_nil _ _) demoShell_started hrun hret
  exact ⟨s, tr, hrun, hret, hclean, o, ho, hiff.mpr (Or.inl hclean)⟩

/-- The child exits with 3 before the shell gets to `waitpid`, and the
handler collects it: `status` stays 0. -/
theorem status_lost :
    Started 1 demoShell ∧ ∃ s tr, ShellRun (.exec (execCmdCreate ['f'])) 1 demoShell s tr ∧
      s.pc = .returned ∧ s.children 1 = .reaped (.exited 3) ∧ s.status = 0 ∧
      s.status ≠ (Outcome.exited 3).decoded := by
  have h₀ : ShellRun (.exec (execCmdCreate ['f'])) 1 demoShell demoShell [] := .start
  have h₁ := h₀.step (.childExit (q := 1) (.exited 3) rfl)
  have h₂ := h₁.step (.signal rfl rfl)
  have h₃ := h₂.step (.handlerReaps (q := 1) (o := .exited 3) rfl rfl)
  have hnone : ∀ q o, (setChild (setChild demoShell 1 (.zombie (.exited 3))) 1
      (.reaped (.exited 3))).children q ≠ .zombie o := by
    intro q o hz
    by_cases hq : q = 1
    · subst hq
      rw [setChild_self] at hz
      cases hz
    · rw [setChild_of_ne _ hq, setChild_of_ne _ hq] at hz
      simp [demoShell, hq] at hz
  have h₄ := h₃.step (.handlerReturns rfl hnone)
  have h₅ := h₄.step (.storePid rfl rfl)
  have h₆ := h₅.step (.testBack rfl rfl)
  have h₇ := h₆.step (.waitpidFails (o := .exited 3) rfl rfl rfl)
  have h₈ := h₇.step (.printStatus rfl rfl)
  have h₉ := h₈.step (.freeCommand rfl rfl)
  exact ⟨demoShell_started, _, _, h₉, rfl, rfl, by decide, by decide⟩

end SistemasOperativos.Shell
