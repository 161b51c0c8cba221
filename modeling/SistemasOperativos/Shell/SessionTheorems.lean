/-
SistemasOperativos.Shell.SessionTheorems — `$?` over the lines of a
session.

A line runs in a child of the shell. For a single command that child
becomes the program, and its wait status, once `print_status_info` has
decoded it, is the number that `$?` stands for in the next line. For a
pipeline the child stays in the case `PIPE` of `exec_cmd`, which waits for
both sides, looks at neither status, and calls `_exit(EXIT_SUCCESS)`. So
behind a pipeline `$?` is always 0, whatever its last command did.

Translation notes. A program may end in any way; that includes the exits
of a child whose `open` or `execvp` fails. The calls of the case `PIPE`
itself do not fail.
-/
import SistemasOperativos.Shell.RunCmdTheorems
import SistemasOperativos.Shell.TreeTheorems

namespace SistemasOperativos.Shell

/-! ## How a line ends -/

/-- How the process that calls `exec_cmd` ends, when the commands of the
tree end as in the list, from left to right. -/
inductive Ends : Cmd → List Outcome → Outcome → Prop where
  | exec (e : ExecCmd) (o : Outcome) : Ends (.exec e) [o] o
  | back (scmd : Str) (c : ExecCmd) (o : Outcome) : Ends (.back scmd c) [o] o
  /-- `waitpid(left_pid, NULL, 0)`, `waitpid(right_pid, NULL, 0)`, and
  `_exit(EXIT_SUCCESS)`. -/
  | pipe {l r : Cmd} {os os' : List Outcome} {o o' : Outcome} :
      Ends l os o → Ends r os' o' → Ends (.pipe l r) (os ++ os') (.exited 0)

/-- The exit code, or minus the signal. -/
def Outcome.number : Outcome → Int
  | .exited code => code.toNat
  | .killed sig _ => - (sig.val.toNat : Int)

/-- That number in decimal. -/
def Outcome.text (o : Outcome) : Str := (toString o.number).toList

/-! ## Sessions -/

/-- `waitpid` of `run_cmd` obtains the child, which has ended with `o`. -/
def Obtained (p : Nat) (o : Outcome) (tr : List (ShellState × Event)) : Prop :=
  ∃ s, (s, Event.shell) ∈ tr ∧ s.pc = .waitpid ∧ s.children p = .zombie o

/-- One line, with the value of `status` before and after it. -/
structure Turn where
  line : Str
  before : CInt
  parsed : Cmd
  /-- How its commands end, from left to right. -/
  outcomes : List Outcome
  /-- How the shell's child ends. -/
  process : Outcome
  after : CInt

/-- The line is a command in the foreground, `run_cmd` goes through it in
some run, and its `waitpid` obtains the child. -/
structure Turn.Runs (getenv : Str → Option Str) (t : Turn) (rest : Str) : Prop where
  newline : endLine ∉ t.line
  tree : readTree ⟨getenv, t.before.toInt⟩ (t.line.length + 1) (t.line ++ endLine :: rest) =
    .ok (some t.parsed)
  foreground : waitsFor t.parsed = true
  /-- Else the shell dies in `free_command`, and there is no next line. -/
  freed : freeCommand t.parsed = some ()
  ends : Ends t.parsed t.outcomes t.process
  run : ∃ p s₀ s tr, Started p s₀ ∧ s₀.status = t.before ∧ ShellRun t.parsed p s₀ s tr ∧
    s.pc = .returned ∧ Obtained p t.process tr ∧ s.status = t.after

/-- Lines one after another, from a value of `status` and an input. -/
inductive Session (getenv : Str → Option Str) : CInt → Str → List Turn → Prop where
  | done (status : CInt) (input : Str) : Session getenv status input []
  | turn {t : Turn} {ts : List Turn} {status : CInt} {input rest : Str} : t.before = status →
      input = t.line ++ endLine :: rest → t.Runs getenv rest → Session getenv t.after rest ts →
      Session getenv status input (t :: ts)

variable {getenv : Str → Option Str} {t t' : Turn} {rest : Str}

/-- Two lines in a row. -/
theorem Session.consecutive {status : CInt} {input : Str} {turns pre post : List Turn}
    (h : Session getenv status input turns) (hturns : turns = pre ++ t :: t' :: post) :
    (∃ rest, t.Runs getenv rest) ∧ t'.before = t.after := by
  induction h generalizing pre with
  | done status input => simp at hturns
  | turn hbefore hinput hrun hrest ih =>
      cases pre with
      | nil =>
          cases hturns
          cases hrest with
          | turn hnext _ _ _ => exact ⟨⟨_, hrun⟩, hnext⟩
      | cons t₀ pre =>
          rw [List.cons_append] at hturns
          cases hturns
          exact ih rfl

/-! ## What `run_cmd` leaves in `status` -/

variable {parsed : Cmd} {p : Nat} {s s' s₀ : ShellState} {tr : List (ShellState × Event)}
  {ev : Event} {o : Outcome}

/-- A step that is not a `waitpid` of `run_cmd`. -/
theorem obtained_append (h : ev = .shell → s.pc ≠ .waitpid) :
    Obtained p o (tr ++ [(s, ev)]) ↔ Obtained p o tr := by
  unfold Obtained
  constructor
  · rintro ⟨s₁, hmem, hpc, hz⟩
    rcases List.mem_append.mp hmem with hmem | hmem
    · exact ⟨s₁, hmem, hpc, hz⟩
    · cases List.mem_singleton.mp hmem
      exact absurd hpc (h rfl)
  · rintro ⟨s₁, hmem, hpc, hz⟩
    exact ⟨s₁, List.mem_append_left _ hmem, hpc, hz⟩

/-- What `status` is at each instruction, once `waitpid` has obtained the
child. -/
def WaitInv (parsed : Cmd) (p : Nat) (s : ShellState) (tr : List (ShellState × Event)) : Prop :=
  match s.pc with
  | .storePid | .testBack | .waitpid => ∀ o, ¬ Obtained p o tr
  | .printStatus => ∀ o, Obtained p o tr → s.status = o.waitStatus
  | .freeCommand | .returned => ∀ o, Obtained p o tr → s.status = printStatusInfo parsed o.waitStatus

/-- The steps of the children and of the handler. -/
theorem WaitInv.frame (hi : WaitInv parsed p s tr) (hpc : s'.pc = s.pc)
    (hstatus : s'.status = s.status) (hev : ev ≠ .shell) :
    WaitInv parsed p s' (tr ++ [(s, ev)]) := by
  have hobtained : ∀ o, Obtained p o (tr ++ [(s, ev)]) ↔ Obtained p o tr :=
    fun o => obtained_append (fun h => absurd h hev)
  unfold WaitInv at hi ⊢
  rw [hpc, hstatus]
  simpa only [hobtained] using hi

theorem WaitInv.step (hi : WaitInv parsed p s tr) (hs : ShellStep parsed p s ev s') :
    WaitInv parsed p s' (tr ++ [(s, ev)]) := by
  cases hs with
  | childExit o hrunning => exact hi.frame rfl rfl Event.noConfusion
  | signal hpending hidle => exact hi.frame rfl rfl (by decide)
  | handlerReaps hin hz => exact hi.frame rfl rfl (by decide)
  | handlerReturns hin hnone => exact hi.frame rfl rfl (by decide)
  | storePid hidle hpc =>
      rw [WaitInv, hpc] at hi
      intro o
      rw [obtained_append (fun _ => by rw [hpc]; decide)]
      exact hi o
  | testBack hidle hpc =>
      rw [WaitInv, hpc] at hi
      intro o
      rw [obtained_append (fun _ => by rw [hpc]; decide)]
      exact hi o
  | waitpid hidle hpc hz =>
      rw [WaitInv, hpc] at hi
      rintro o ⟨s₁, hmem, hpc₁, hz₁⟩
      rcases List.mem_append.mp hmem with hmem | hmem
      · exact absurd ⟨s₁, hmem, hpc₁, hz₁⟩ (hi o)
      · cases List.mem_singleton.mp hmem
        rw [hz] at hz₁
        cases hz₁
        rfl
  | waitpidFails hidle hpc hreaped =>
      rw [WaitInv, hpc] at hi
      rintro o ⟨s₁, hmem, hpc₁, hz₁⟩
      rcases List.mem_append.mp hmem with hmem | hmem
      · exact absurd ⟨s₁, hmem, hpc₁, hz₁⟩ (hi o)
      · cases List.mem_singleton.mp hmem
        rw [hreaped] at hz₁
        cases hz₁
  | printStatus hidle hpc =>
      rw [WaitInv, hpc] at hi
      intro o ho
      rw [obtained_append (fun _ => by rw [hpc]; decide)] at ho
      exact congrArg (printStatusInfo parsed) (hi o ho)
  | freeCommand hidle hpc =>
      rw [WaitInv, hpc] at hi
      intro o ho
      rw [obtained_append (fun _ => by rw [hpc]; decide)] at ho
      exact hi o ho

theorem WaitInv.run (hs₀ : Started p s₀) (h : ShellRun parsed p s₀ s tr) :
    WaitInv parsed p s tr := by
  induction h with
  | start =>
      rw [WaitInv, hs₀.pc]
      rintro o ⟨s₁, hmem, -⟩
      cases hmem
  | step _ hs ih => exact ih.step hs

theorem Turn.Runs.after_eq (h : t.Runs getenv rest) :
    t.after = printStatusInfo t.parsed t.process.waitStatus := by
  obtain ⟨p, s₀, s, tr, hs₀, -, hrun, hret, hobtained, hafter⟩ := h.run
  have hi := WaitInv.run hs₀ hrun
  rw [WaitInv, hret] at hi
  rw [← hafter]
  exact hi t.process hobtained

/-! ## The number and its text -/

theorem decoded_toInt (o : Outcome) : o.decoded.toInt = o.number := by
  cases o with
  | exited code =>
      revert code
      decide +kernel
  | killed sig core =>
      obtain ⟨sig, hsig⟩ := sig
      revert sig core
      decide +kernel

theorem text_eq_zero (o : Outcome) : o.text = ['0'] ↔ o = .exited 0 := by
  cases o with
  | exited code =>
      revert code
      decide +kernel
  | killed sig core =>
      obtain ⟨sig, hsig⟩ := sig
      revert sig core
      decide +kernel

theorem expandEnvironVar_status (getenv : Str → Option Str) (status : Int) :
    expandEnvironVar ⟨getenv, status⟩ ['$', '?'] = (toString status).toList := rfl

/-! ## One line -/

theorem Ends.last {c : Cmd} {os : List Outcome} (h : Ends c os o) :
    ∃ last, os.getLast? = some last := by
  induction h with
  | exec e o => exact ⟨o, rfl⟩
  | back scmd c o => exact ⟨o, rfl⟩
  | pipe _ _ _ ih =>
      obtain ⟨last, hlast⟩ := ih
      exact ⟨last, by rw [List.getLast?_append, hlast]; rfl⟩

theorem isCommand_of_readTree {env : Environ} {fuel : Nat} {line rest : Str} {r : Cmd}
    (hline : endLine ∉ line) (h : readTree env fuel (line ++ endLine :: rest) = .ok (some r)) :
    IsCommand line := by
  rw [readTree, readLine_eq rest hline] at h
  by_cases hlen : line.length < bufLen
  · rw [if_pos hlen] at h
    change runCmdTree env fuel (readBuffer line) = _ at h
    rw [runCmdTree_eq env fuel hlen] at h
    by_cases hcmd : IsCommand line
    · exact hcmd
    · rw [if_neg hcmd] at h
      cases h
  · rw [if_neg hlen] at h
    cases h

/-- A stage that is neither empty nor in the background. -/
theorem parseLater_exec {env : Environ} {stage : Str} {r : Cmd} (h : parseLater env stage = .ok r)
    (hnull : r ≠ .null) (hwaits : waitsFor r = true) : ∃ e, r = .exec e ∧ e.scmd ≠ [] := by
  rw [parseLater] at h
  split at h
  · cases h
    exact absurd rfl hnull
  · rename_i hne
    rw [parseStage_eq] at h
    obtain ⟨e, hexec, hroot⟩ := exists_of_map_ok h
    by_cases hback : inBack stage = true
    · rw [if_pos hback] at hroot
      subst hroot
      cases hwaits
    · rw [if_neg hback] at hroot
      rw [execPart, if_neg hback] at hexec
      refine ⟨e, hroot.symm, ?_⟩
      rw [scmd_of_parseExec hexec]
      exact hne

/-- A line is one command, or a pipe. -/
theorem Turn.Runs.parsed_cases (h : t.Runs getenv rest) :
    ((∀ stage ∈ laterStages t.line, stage = []) ∧ ∃ e, t.parsed = .exec e ∧ e.scmd ≠ []) ∨
      ((∃ stage ∈ laterStages t.line, stage ≠ []) ∧ ∃ l r, t.parsed = .pipe l r) := by
  have htree := h.tree
  rw [readTree_of_isCommand _ rest h.newline (isCommand_of_readTree h.newline htree),
    readParse_iff rest h.newline (Nat.lt_succ_self _)] at htree
  obtain ⟨-, -, htree⟩ := htree
  rw [laterTree] at htree
  simp only [bind_ok_iff] at htree
  obtain ⟨l, hl, r, hr, hroot⟩ := htree
  rcases laterTree_formed hr with ⟨rfl, hempty⟩ | ⟨hne, hstage, -⟩
  · change Except.ok l = _ at hroot
    cases hroot
    have hnull := ((freeCommand_iff _).mp h.freed).ne_null
    exact Or.inl ⟨hempty, parseLater_exec hl hnull h.foreground⟩
  · rw [pipeCmdCreate_of_ne_null l hne] at hroot
    exact Or.inr ⟨hstage, l, r, (Except.ok.inj hroot).symm⟩

theorem Ends.of_exec {e : ExecCmd} {os : List Outcome} (h : Ends (.exec e) os o) : os = [o] := by
  cases h
  rfl

theorem Ends.of_pipe {l r : Cmd} {os : List Outcome} (h : Ends (.pipe l r) os o) :
    o = .exited 0 := by
  cases h
  rfl

/-- What a line leaves in `status`: the number of its command, or 0 if it
is a pipeline. -/
theorem Turn.Runs.after_text (h : t.Runs getenv rest) :
    ∃ o, t.outcomes.getLast? = some o ∧
      (((∀ stage ∈ laterStages t.line, stage = []) ∧ (toString t.after.toInt).toList = o.text) ∨
        ((∃ stage ∈ laterStages t.line, stage ≠ []) ∧
          (toString t.after.toInt).toList = ['0'])) := by
  have hends := h.ends
  have hafter := h.after_eq
  rcases h.parsed_cases with ⟨hempty, e, hparsed, hscmd⟩ | ⟨hstage, l, r, hparsed⟩
  · rw [hparsed] at hends hafter
    rw [printStatusInfo_waitStatus (show (Cmd.exec e).scmd ≠ [] from hscmd)] at hafter
    refine ⟨t.process, by rw [hends.of_exec]; rfl, Or.inl ⟨hempty, ?_⟩⟩
    rw [hafter, decoded_toInt]
    rfl
  · obtain ⟨o, ho⟩ := hends.last
    refine ⟨o, ho, Or.inr ⟨hstage, ?_⟩⟩
    rw [hparsed] at hends hafter
    -- `print_status_info` leaves a pipe alone
    rw [hends.of_pipe, show printStatusInfo (.pipe l r) (Outcome.exited 0).waitStatus = 0 from rfl]
      at hafter
    rw [hafter]
    decide

/-! ## Every session -/

/-- In a line, `$?` is the exit code, or minus the signal, of the last
command of the line before exactly if that line was no pipeline or that
command exited with 0. -/
theorem status_variable (getenv : Str → Option Str) (status : CInt) (input : Str)
    (turns pre post : List Turn) (t t' : Turn) (h : Session getenv status input turns)
    (hturns : turns = pre ++ t :: t' :: post) :
    ∃ o, t.outcomes.getLast? = some o ∧
      (expandEnvironVar ⟨getenv, t'.before.toInt⟩ ['$', '?'] = o.text ↔
        (∀ stage ∈ laterStages t.line, stage = []) ∨ o = .exited 0) := by
  obtain ⟨⟨rest, hrun⟩, hbefore⟩ := h.consecutive hturns
  obtain ⟨o, ho, htext⟩ := hrun.after_text
  refine ⟨o, ho, ?_⟩
  rw [expandEnvironVar_status, hbefore]
  rcases htext with ⟨hempty, htext⟩ | ⟨⟨stage, hmem, hne⟩, htext⟩
  · exact iff_of_true htext (Or.inl hempty)
  · rw [htext, eq_comm, text_eq_zero]
    exact (or_iff_right (fun hempty => hne (hempty stage hmem))).symm

/-- The shell waits before its child ends. -/
theorem run_obtains (parsed : Cmd) (before : CInt) (o : Outcome) :
    ∃ p s₀ s tr, Started p s₀ ∧ s₀.status = before ∧ ShellRun parsed p s₀ s tr ∧
      s.pc = .returned ∧ Obtained p o tr ∧ s.status = printStatusInfo parsed o.waitStatus := by
  have h₀ : ShellRun parsed 1 { demoShell with status := before }
    { demoShell with status := before } [] := .start
  have h₁ := h₀.step (.storePid rfl rfl)
  have h₂ := h₁.step (.testBack rfl rfl)
  have h₃ := h₂.step (.childExit (q := 1) o rfl)
  have h₄ := h₃.step (.waitpid (o := o) rfl rfl rfl)
  have h₅ := h₄.step (.printStatus rfl rfl)
  have h₆ := h₅.step (.freeCommand rfl rfl)
  refine ⟨1, _, _, _, ⟨rfl, rfl, rfl⟩, rfl, h₆, rfl, ?_, rfl⟩
  -- the fourth of the six steps
  refine ⟨_, List.mem_append_left _ (List.mem_append_left _ (List.mem_append_right _
    (List.mem_singleton_self _))), rfl, ?_⟩
  rfl

/-- The command `f`. -/
def fCmd : ExecCmd := { execCmdCreate ['f'] with argv := [['f']] }

theorem parseExec_f (env : Environ) : parseExec env ['f'] = .ok fCmd := by
  rw [parseExec, parseTokens_eq, show tokens ['f'] = [['f']] by decide]
  rfl

/-- A line all of whose stages are `f` or empty. -/
theorem readTree_f (env : Environ) {line : Str} (rest : Str) {r : Cmd} (hline : endLine ∉ line)
    (hcmd : IsCommand line) (hlen : line.length < bufLen - 1)
    (hstages : ∀ stage ∈ firstStage line :: laterStages line, stage = ['f'] ∨ stage = [])
    (htree : parseLater env ['f'] = .ok (.exec fCmd) →
      laterTree env (firstStage line :: laterStages line) = .ok r) :
    readTree env (line.length + 1) (line ++ endLine :: rest) = .ok (some r) := by
  have hexec := parseExec_f env
  have hlater : parseLater env ['f'] = .ok (.exec fCmd) := by
    rw [parseLater, if_neg (by decide), parseStage_eq, show execPart ['f'] = ['f'] by decide, hexec]
    rfl
  have hfits : LineFits env line := by
    refine ⟨Nat.lt_of_le_of_lt (List.takeWhile_prefix _).length_le hlen, ?_, fun stage hmem => ?_⟩
    · rcases hstages _ List.mem_cons_self with hf | hf
      · rw [hf]
        decide
      · rw [hf]
        decide
    · rcases hstages stage hmem with rfl | rfl
      · rw [show execPart ['f'] = ['f'] by decide]
        exact fits_of_parseExec hexec
      · exact fits_nil
  rw [readTree_of_isCommand env rest hline hcmd, readParse_iff rest hline (Nat.lt_succ_self _)]
  exact ⟨Nat.lt_of_lt_of_le hlen (Nat.sub_le _ _), hfits, htree hlater⟩

theorem readTree_one (env : Environ) (rest : Str) :
    readTree env 2 (['f'] ++ endLine :: rest) = .ok (some (.exec fCmd)) := by
  refine readTree_f env rest (by decide) (by decide) (by decide) (by decide) (fun hlater => ?_)
  rw [show firstStage ['f'] :: laterStages ['f'] = [['f'], []] by decide, laterTree, hlater]
  rfl

theorem readTree_two (env : Environ) (rest : Str) :
    readTree env 4 (['f', '|', 'f'] ++ endLine :: rest) =
      .ok (some (.pipe (.exec fCmd) (.exec fCmd))) := by
  refine readTree_f env rest (by decide) (by decide) (by decide) (by decide) (fun hlater => ?_)
  rw [show firstStage ['f', '|', 'f'] :: laterStages ['f', '|', 'f'] = [['f'], ['f']] by decide,
    laterTree, laterTree, hlater]
  rfl

/-- The line `f`, whose command ends with `o`. -/
def fTurn (before : CInt) (o : Outcome) : Turn where
  line := ['f']
  before := before
  parsed := .exec fCmd
  outcomes := [o]
  process := o
  after := printStatusInfo (.exec fCmd) o.waitStatus

theorem fTurn_runs (getenv : Str → Option Str) (before : CInt) (o : Outcome) (rest : Str) :
    (fTurn before o).Runs getenv rest where
  newline := show endLine ∉ ['f'] by decide
  tree := readTree_one _ rest
  foreground := rfl
  freed := rfl
  ends := .exec fCmd o
  run := run_obtains _ _ _

/-- The line `f|f`. -/
def ffTurn (before : CInt) (o o' : Outcome) : Turn where
  line := ['f', '|', 'f']
  before := before
  parsed := .pipe (.exec fCmd) (.exec fCmd)
  outcomes := [o, o']
  process := .exited 0
  after := 0

theorem ffTurn_runs (getenv : Str → Option Str) (before : CInt) (o o' : Outcome) (rest : Str) :
    (ffTurn before o o').Runs getenv rest where
  newline := show endLine ∉ ['f', '|', 'f'] by decide
  tree := readTree_two _ rest
  foreground := rfl
  freed := rfl
  ends := .pipe (.exec fCmd o) (.exec fCmd o')
  run := run_obtains _ _ _

/-- After `f` has exited with 3, `$?` is 3. -/
theorem status_variable_exit :
    ∃ turns t t', Session (fun _ => none) 0 "f\nf\n".toList turns ∧ turns = [] ++ t :: t' :: [] ∧
      t.outcomes = [.exited 3] ∧
      expandEnvironVar ⟨fun _ => none, t'.before.toInt⟩ ['$', '?'] = (Outcome.exited 3).text := by
  have hsession : Session (fun _ => none) 0 "f\nf\n".toList
      [fTurn 0 (.exited 3), fTurn 3 (.exited 0)] :=
    .turn rfl (by decide) (fTurn_runs _ 0 (.exited 3) ['f', endLine])
      (.turn (by decide) (by decide) (fTurn_runs _ 3 (.exited 0) []) (.done _ _))
  obtain ⟨o, ho, hiff⟩ := status_variable _ _ _ _ [] [] _ _ hsession rfl
  have hsingle : ∀ stage ∈ laterStages ['f'], stage = [] := by decide
  refine ⟨_, _, _, hsession, rfl, rfl, ?_⟩
  cases ho
  exact hiff.mpr (Or.inl hsingle)

/-- After `f|f`, whose last command has exited with 1, `$?` is 0. -/
theorem status_variable_pipe :
    ∃ turns t t', Session (fun _ => none) 0 "f|f\nf\n".toList turns ∧ turns = [t, t'] ∧
      t.outcomes = [.exited 0, .exited 1] ∧
      expandEnvironVar ⟨fun _ => none, t'.before.toInt⟩ ['$', '?'] = ['0'] ∧
      (Outcome.exited 1).text = ['1'] := by
  have hsession : Session (fun _ => none) 0 "f|f\nf\n".toList
      [ffTurn 0 (.exited 0) (.exited 1), fTurn 0 (.exited 0)] :=
    .turn rfl (by decide) (ffTurn_runs _ 0 (.exited 0) (.exited 1) ['f', endLine])
      (.turn (by decide) (by decide) (fTurn_runs _ 0 (.exited 0) []) (.done _ _))
  exact ⟨_, _, _, hsession, rfl, rfl, by decide, by decide⟩

end SistemasOperativos.Shell
