/-
SistemasOperativos.Shell.ExecTheorems — how `exec_cmd` wires a pipeline.

The process that runs the `d`-th pipe of the line creates the pipe, a left
child that becomes stage `d`, and a right child that runs the rest of the
line. So stage `d` is child 1 of the `d`-th process of this chain, and the
last stage is the last process of the chain itself.

`pipelineSpec` says what holds at each point of each of these programs; that it
holds in every run is `Process.Reached.ok`. That a run can only stop after
every stage has been executed is `Process.Waiting.ended` with
`Process.Reached.complete`.
-/
import SistemasOperativos.Shell.Exec
import SistemasOperativos.Shell.ParsingTheorems

namespace SistemasOperativos.Shell

open Process

/-! ## The specification -/

/-- The command that a stage runs. -/
def Cmd.command? : Cmd → Option ExecCmd
  | .exec e => some e
  | .back _ c => some c
  | _ => none

/-- The process that runs the line from stage `d` on. -/
def chainPid (d : Nat) : Name := List.replicate d 2

/-- The pipe between the stages `d` and `d + 1`. -/
def gapPipe (d : Nat) : Name := chainPid d ++ [0]

/-- The process of stage `d` of `n`. -/
def stagePid (n d : Nat) : Name := if d + 1 < n then chainPid d ++ [1] else chainPid d

def stageInput (d : Nat) : File Str :=
  match d with
  | 0 => .inherited stdinFileno
  | d + 1 => .readEnd (gapPipe d)

def stageOutput (n d : Nat) : File Str :=
  if d + 1 < n then .writeEnd (gapPipe d) else .inherited stdoutFileno

/-- Input, output and errors after the redirections of the command. -/
def inputOf (e : ExecCmd) (f : File Str) : File Str :=
  if e.type = .redir ∧ e.inFile ≠ [] then .regular e.inFile .rdonly else f

def outputOf (e : ExecCmd) (f : File Str) : File Str :=
  if e.type = .redir ∧ e.outFile ≠ [] then .regular e.outFile .creatTrunc else f

def errorOf (e : ExecCmd) (out f : File Str) : File Str :=
  if e.type = .redir ∧ e.errFile ≠ [] then
    if e.errFile = ['&', '1'] then out else .regular e.errFile .creatTrunc
  else f

/-- The `execvp` of stage `d` of `n`. -/
structure Wired (n d : Nat) (e : ExecCmd) (pid : Name) (image : ExecCmd) (fds : Table Str) :
    Prop where
  pid : pid = stagePid n d
  image : image = { e with type := .exec }
  open_iff : ∀ fd, fds fd ≠ none ↔ fd < 3
  input : fds stdinFileno = some (inputOf e (stageInput d))
  output : fds stdoutFileno = some (outputOf e (stageOutput n d))
  error : fds stderrFileno =
    some (errorOf e (outputOf e (stageOutput n d)) (.inherited stderrFileno))

/-- The write end of pipe `i` is in stage `i`, or in one of the two
processes that have yet to close it. -/
def WriteEndsKept (n : Nat) (pid : Name) (fds : Table Str) (closed : List (File Str)) : Prop :=
  ∀ i fd, i + 1 < n → fds fd = some (.writeEnd (gapPipe i)) →
    pid = stagePid n i ∨
      (pid = chainPid i ∨ pid = chainPid (i + 1)) ∧ .writeEnd (gapPipe i) ∉ closed

/-- A process that waits runs a pipe, and has closed it. -/
def WaitsClosed (n : Nat) (pid : Name) (fds : Table Str) (closed : List (File Str)) : Prop :=
  ∃ i, i + 1 < n ∧ pid = chainPid i ∧ .writeEnd (gapPipe i) ∈ closed ∧ ∀ fd, fds fd ≠ none ↔ fd < 3

def pipelineSpec (cs : List Cmd) : Spec Str ExecCmd where
  always := WriteEndsKept cs.length
  waits := WaitsClosed cs.length
  execs pid image fds := ∃ d c e, cs[d]? = some c ∧ c.command? = some e ∧
    Wired cs.length d e pid image fds

/-! ## Names -/

theorem chainPid_succ (d : Nat) : chainPid d ++ [2] = chainPid (d + 1) :=
  List.replicate_succ'.symm

theorem gapPipe_injective {i j : Nat} (h : gapPipe i = gapPipe j) : i = j := by
  have hlen := congrArg List.length h
  simpa [gapPipe, chainPid] using hlen

theorem writeEnd_gapPipe {i j : Nat}
    (h : (File.writeEnd (gapPipe i) : File Str) = .writeEnd (gapPipe j)) : i = j :=
  gapPipe_injective (File.writeEnd.inj h)

theorem stageInput_ne_writeEnd (d : Nat) (p : Name) : stageInput d ≠ .writeEnd p := by
  intro h
  cases d with
  | zero => cases h
  | succ d => cases h

/-! ## One stage -/

variable {S : Spec Str ExecCmd} {pid : Name} {a b c : File Str} {e : ExecCmd} {k : Program}
  {born : Nat} {cl : List (File Str)}

/-- The invariant holds of every table that has only these files and
regular ones. -/
def KeepsWithin (S : Spec Str ExecCmd) (pid : Name) (fs : List (File Str)) : Prop :=
  ∀ t cl, (∀ fd f, t fd = some f → f ∈ fs ∨ ∃ path mode, f = .regular path mode) → S.always pid t cl

theorem wp_redirectTo (hS : KeepsWithin S pid [a, b, c]) (file : Str) (flags : Mode) {n : Nat}
    (hn : n < 3) (hk : ∀ cl, Wp S k pid
      (Function.update (stdTable a b c) n (some (.regular file flags))) born cl) :
    Wp S (redirectTo file flags n k) pid (stdTable a b c) born cl := by
  have hstd := within_stdTable a b c
  have hfiles : ∀ t, Within t (.regular file flags :: [a, b, c]) → ∀ cl, S.always pid t cl := by
    intro t ht cl
    refine hS t cl (fun fd f hf => ?_)
    rcases List.mem_cons.1 (ht fd f hf) with rfl | hmem
    · exact Or.inr ⟨file, flags, rfl⟩
    · exact Or.inl hmem
  have hold : Within (stdTable a b c) (.regular file flags :: [a, b, c]) :=
    hstd.mono (List.subset_cons_self _ _)
  have hopen := hold.update 3 (List.mem_cons_self ..)
  refine ⟨hfiles _ hold cl, fun fd hfd => ?_⟩
  obtain rfl := hfd.eq_three
  refine ⟨hfiles _ hopen cl, hfiles _ (hopen.dup 3 n) cl, ?_⟩
  rw [redirect_table a b c _ hn]
  exact hk _

theorem KeepsWithin.replace {fs gs : List (File Str)} (hS : KeepsWithin S pid fs)
    (hgs : ∀ f ∈ gs, f ∈ fs ∨ ∃ path mode, f = .regular path mode) : KeepsWithin S pid gs := by
  intro t cl ht
  refine hS t cl (fun fd f hf => ?_)
  rcases ht fd f hf with hmem | hreg
  · exact hgs f hmem
  · exact Or.inr hreg

theorem inputOf_cases (e : ExecCmd) (f : File Str) :
    inputOf e f = f ∨ ∃ path mode, inputOf e f = .regular path mode := by
  unfold inputOf
  split
  · exact Or.inr ⟨_, _, rfl⟩
  · exact Or.inl rfl

theorem outputOf_cases (e : ExecCmd) (f : File Str) :
    outputOf e f = f ∨ ∃ path mode, outputOf e f = .regular path mode := by
  unfold outputOf
  split
  · exact Or.inr ⟨_, _, rfl⟩
  · exact Or.inl rfl

/-- The tables before and after the redirection of the input. -/
theorem table_redirIn (he : e.type = .redir) :
    (e.inFile ≠ [] → Function.update (stdTable a b c) stdinFileno
      (some (.regular e.inFile .rdonly)) = stdTable (inputOf e a) b c) ∧
    (e.inFile = [] → stdTable a b c = stdTable (inputOf e a) b c) := by
  constructor
  · intro hfile
    rw [inputOf, if_pos ⟨he, hfile⟩, update_stdTable_zero]
  · intro hfile
    rw [inputOf, if_neg (fun hc => hc.2 hfile)]

/-- The same for the output. -/
theorem table_redirOut (he : e.type = .redir) :
    (e.outFile ≠ [] → Function.update (stdTable a b c) stdoutFileno
      (some (.regular e.outFile .creatTrunc)) = stdTable a (outputOf e b) c) ∧
    (e.outFile = [] → stdTable a b c = stdTable a (outputOf e b) c) := by
  constructor
  · intro hfile
    rw [outputOf, if_pos ⟨he, hfile⟩, update_stdTable_one]
  · intro hfile
    rw [outputOf, if_neg (fun hc => hc.2 hfile)]

/-- One of the two, which makes the table `t`. -/
theorem wp_redir (hS : KeepsWithin S pid [a, b, c]) {file : Str} {flags : Mode} {n : Nat}
    {t : Table Str} (hn : n < 3)
    (htable : (file ≠ [] → Function.update (stdTable a b c) n (some (.regular file flags)) = t) ∧
      (file = [] → stdTable a b c = t)) (hk : ∀ cl, Wp S k pid t born cl) :
    Wp S (if file.length ≠ 0 then redirectTo file flags n k else k) pid (stdTable a b c) born cl := by
  split
  · rename_i hfile
    rw [ne_eq, List.length_eq_zero_iff] at hfile
    refine wp_redirectTo hS file flags hn (fun cl => ?_)
    rw [htable.1 hfile]
    exact hk cl
  · rename_i hfile
    rw [not_not, List.length_eq_zero_iff] at hfile
    rw [htable.2 hfile]
    exact hk cl

theorem wp_redirErr (hS : KeepsWithin S pid [a, b, c]) (he : e.type = .redir)
    (hk : ∀ cl, Wp S k pid (stdTable a b (errorOf e b c)) born cl) :
    Wp S (redirErr e k) pid (stdTable a b c) born cl := by
  unfold redirErr
  split
  · rename_i hfile
    rw [ne_eq, List.length_eq_zero_iff] at hfile
    split
    · rename_i hdup
      have hk := hk cl
      rw [errorOf, if_pos ⟨he, hfile⟩, if_pos hdup] at hk
      refine ⟨hS _ _ (fun fd f hf => Or.inl (within_stdTable a b c fd f hf)), ?_⟩
      rwa [dupTable_eq (show stdTable a b c 1 = some b from rfl), update_stdTable_two]
    · rename_i hdup
      refine wp_redirectTo hS _ _ (by decide) (fun cl => ?_)
      have hk := hk cl
      rw [errorOf, if_pos ⟨he, hfile⟩, if_neg hdup] at hk
      rwa [update_stdTable_two]
  · rename_i hfile
    rw [not_not, List.length_eq_zero_iff] at hfile
    have hk := hk cl
    rwa [errorOf, if_neg (fun hc => hc.2 hfile)] at hk

/-- A stage whose descriptors are `a`, `b` and `c` before its own
redirections. -/
theorem wp_execSimple (hS : KeepsWithin S pid [a, b, c])
    (hexec : S.execs pid { e with type := .exec }
      (stdTable (inputOf e a) (outputOf e b) (errorOf e (outputOf e b) c))) :
    Wp S (execSimple e) pid (stdTable a b c) born cl := by
  have hnow : S.always pid (stdTable a b c) cl :=
    hS _ _ (fun fd f hf => Or.inl (within_stdTable a b c fd f hf))
  unfold execSimple
  split
  · rename_i he
    refine ⟨hnow, ?_⟩
    have hsame : { e with type := .exec } = e := by
      rw [← he]
    have hno : ∀ p : Prop, ¬ (e.type = .redir ∧ p) := by
      rintro p ⟨hredir, -⟩
      rw [he] at hredir
      cases hredir
    rwa [hsame, inputOf, if_neg (hno _), outputOf, if_neg (hno _), errorOf, if_neg (hno _)] at hexec
  · rename_i he
    split
    · exact hnow
    · have hin : KeepsWithin S pid [inputOf e a, b, c] := by
        refine hS.replace (fun f hf => ?_)
        rcases List.mem_cons.1 hf with rfl | hf
        · rcases inputOf_cases e a with heq | hreg
          · exact Or.inl (by rw [heq]; simp)
          · exact Or.inr hreg
        · exact Or.inl (List.mem_cons_of_mem a hf)
      have hout : KeepsWithin S pid [inputOf e a, outputOf e b, c] := by
        refine hin.replace (fun f hf => ?_)
        rw [List.mem_cons, List.mem_cons, List.mem_singleton] at hf
        rcases hf with rfl | rfl | rfl
        · exact Or.inl (by simp)
        · rcases outputOf_cases e b with heq | hreg
          · exact Or.inl (by rw [heq]; simp)
          · exact Or.inr hreg
        · exact Or.inl (by simp)
      have herr : KeepsWithin S pid
          [inputOf e a, outputOf e b, errorOf e (outputOf e b) c] := by
        refine hout.replace (fun f hf => ?_)
        rw [List.mem_cons, List.mem_cons, List.mem_singleton] at hf
        rcases hf with rfl | rfl | rfl
        · exact Or.inl (by simp)
        · exact Or.inl (by simp)
        · unfold errorOf
          split
          · split
            · exact Or.inl (by simp)
            · exact Or.inr ⟨_, _, rfl⟩
          · exact Or.inl (by simp)
      refine wp_redir hS (by decide) (table_redirIn he) (fun cl => wp_redir hin (by decide)
        (table_redirOut he) (fun cl => wp_redirErr hout he (fun cl => ⟨?_, hexec⟩)))
      exact herr _ _ (fun fd f hf => Or.inl (within_stdTable _ _ _ fd f hf))

/-! ## The pipeline -/

variable {cs : List Cmd} {d n : Nat}

theorem execCmd_of_command? {x : Cmd} (hx : x.command? = some e) : execCmd x = execSimple e := by
  cases x with
  | null => cases hx
  | exec e' =>
      cases hx
      rfl
  | back scmd e' =>
      cases hx
      rfl
  | pipe l r => cases hx

theorem writeEndsKept_of_within {t : Table Str} {fs : List (File Str)} (ht : Within t fs)
    (hfs : ∀ i, i + 1 < n → .writeEnd (gapPipe i) ∈ fs → pid = stagePid n i ∨
      (pid = chainPid i ∨ pid = chainPid (i + 1)) ∧ .writeEnd (gapPipe i) ∉ cl) :
    WriteEndsKept n pid t cl :=
  fun i fd hi hfd => hfs i hi (ht fd _ hfd)

/-- A process that holds write ends only as the stage they belong to. -/
theorem keepsWithin_stage {fs : List (File Str)}
    (hfs : ∀ i, i + 1 < cs.length → .writeEnd (gapPipe i) ∈ fs → pid = stagePid cs.length i) :
    KeepsWithin (pipelineSpec cs) pid fs := by
  intro t cl ht i fd hi hfd
  rcases ht fd _ hfd with hmem | ⟨path, mode, hreg⟩
  · exact Or.inl (hfs i hi hmem)
  · cases hreg

/-- The `execvp` of a stage. -/
theorem execs_stage {x : Cmd} (hx : cs[d]? = some x) (he : x.command? = some e) :
    (pipelineSpec cs).execs (stagePid cs.length d) { e with type := .exec }
      (stdTable (inputOf e (stageInput d)) (outputOf e (stageOutput cs.length d))
        (errorOf e (outputOf e (stageOutput cs.length d)) (.inherited stderrFileno))) :=
  ⟨d, x, e, hx, he, rfl, rfl, stdTable_ne_none _ _ _, rfl, rfl, rfl⟩

/-- What the `d`-th process of the chain starts with. -/
def chainTable (d : Nat) : Table Str :=
  stdTable (stageInput d) (.inherited stdoutFileno) (.inherited stderrFileno)

/-- Its table, and that of its two children at first, while the pipe is
open. -/
def forkTable (d : Nat) : Table Str := pipeTable (chainTable d) 3 4 (gapPipe d)

def forkFiles (d : Nat) : List (File Str) :=
  [stageInput d, .inherited stdoutFileno, .inherited stderrFileno, .readEnd (gapPipe d),
    .writeEnd (gapPipe d)]

theorem within_forkTable (d : Nat) : Within (forkTable d) (forkFiles d) := by
  refine Within.update (Within.update ((within_stdTable _ _ _).mono ?_) 3 ?_) 4 ?_
  · simp [forkFiles]
  · simp [forkFiles]
  · simp [forkFiles]

theorem eq_of_mem_forkFiles {i : Nat} (h : .writeEnd (gapPipe i) ∈ forkFiles d) : i = d := by
  simp only [forkFiles, List.mem_cons, List.not_mem_nil, or_false] at h
  rcases h with hin | hout | herr | hread | hwrite
  · exact absurd hin.symm (stageInput_ne_writeEnd d _)
  · cases hout
  · cases herr
  · cases hread
  · exact writeEnd_gapPipe hwrite

/-- No write end is a standard descriptor of the chain. -/
theorem writeEndsKept_chainTable (d : Nat) : WriteEndsKept n pid (chainTable d) cl := by
  refine writeEndsKept_of_within (within_stdTable _ _ _) (fun i _ hmem => ?_)
  simp only [List.mem_cons, List.not_mem_nil, or_false] at hmem
  rcases hmem with hin | hout | herr
  · exact absurd hin.symm (stageInput_ne_writeEnd d _)
  · cases hout
  · cases herr

/-- The last stage is run by the chain itself. -/
theorem wp_lastStage {x : Cmd} (hx : cs[d]? = some x) (he : x.command? = some e)
    (hd : cs.length = d + 1) :
    Wp (pipelineSpec cs) (execCmd x) (chainPid d) (chainTable d) born cl := by
  have hlast : ¬ d + 1 < cs.length := by omega
  have hexec := execs_stage hx he
  rw [stagePid, if_neg hlast, stageOutput, if_neg hlast] at hexec
  rw [execCmd_of_command? he]
  refine wp_execSimple (keepsWithin_stage (fun i _ hmem => ?_)) hexec
  simp only [List.mem_cons, List.not_mem_nil, or_false] at hmem
  rcases hmem with hin | hout | herr
  · exact absurd hin.symm (stageInput_ne_writeEnd d _)
  · cases hout
  · cases herr

/-- The left child of the `d`-th pipe becomes stage `d`. -/
theorem wp_leftChild {x : Cmd} (hx : cs[d]? = some x) (he : x.command? = some e)
    (hd : d + 1 < cs.length) :
    Wp (pipelineSpec cs) (.close 3 (.dup2 4 stdoutFileno (.close 4 (execCmd x))))
      (chainPid d ++ [1]) (forkTable d) 0 [] := by
  have hpid : chainPid d ++ [1] = stagePid cs.length d := by
    rw [stagePid, if_pos hd]
  have hexec := execs_stage hx he
  rw [stageOutput, if_pos hd] at hexec
  rw [hpid]
  have hkeeps : KeepsWithin (pipelineSpec cs) (stagePid cs.length d) (forkFiles d) := by
    refine keepsWithin_stage (fun i _ hmem => ?_)
    rw [eq_of_mem_forkFiles hmem]
  have halways : ∀ t cl, Within t (forkFiles d) →
      (pipelineSpec cs).always (stagePid cs.length d) t cl :=
    fun t cl ht => hkeeps t cl (fun fd f hf => Or.inl (ht fd f hf))
  have hopen := within_forkTable d
  refine ⟨halways _ _ hopen, halways _ _ (hopen.close 3), halways _ _ ((hopen.close 3).dup 4 1), ?_⟩
  rw [forkTable, chainTable, left_table, execCmd_of_command? he]
  refine wp_execSimple (hkeeps.replace (fun f hf => Or.inl ?_)) hexec
  simp only [List.mem_cons, List.not_mem_nil, or_false] at hf
  rcases hf with rfl | rfl | rfl
  · simp [forkFiles]
  · simp [forkFiles]
  · simp [forkFiles]

/-- The right child of the `d`-th pipe runs the rest of the line. -/
theorem wp_rightChild (hrest : Wp (pipelineSpec cs) k (chainPid (d + 1)) (chainTable (d + 1)) 0
      [.readEnd (gapPipe d), .writeEnd (gapPipe d)]) :
    Wp (pipelineSpec cs) (.close 4 (.dup2 3 stdinFileno (.close 3 k))) (chainPid (d + 1))
      (forkTable d) 0 [] := by
  -- it has the write end until its first `close`
  have hfirst : WriteEndsKept cs.length (chainPid (d + 1)) (forkTable d) [] := by
    refine writeEndsKept_of_within (within_forkTable d) (fun i _ hmem => ?_)
    obtain rfl := eq_of_mem_forkFiles hmem
    exact Or.inr ⟨Or.inr rfl, List.not_mem_nil⟩
  have hread : Within (closeTable (forkTable d) 4)
      [stageInput d, .inherited stdoutFileno, .inherited stderrFileno, .readEnd (gapPipe d)] := by
    intro fd f hf
    by_cases h4 : fd = 4
    · subst h4
      cases hf
    · have hold : Function.update (chainTable d) 3 (some (.readEnd (gapPipe d))) fd = some f := by
        rw [closeTable, Function.update_of_ne h4] at hf
        rwa [forkTable, pipeTable, Function.update_of_ne h4] at hf
      refine Within.update ((within_stdTable _ _ _).mono ?_) 3 ?_ fd f hold
      · simp
      · simp
  have hlater : ∀ t cl, Within t
      [stageInput d, .inherited stdoutFileno, .inherited stderrFileno, .readEnd (gapPipe d)] →
      WriteEndsKept cs.length (chainPid (d + 1)) t cl := by
    intro t cl ht
    refine writeEndsKept_of_within ht (fun i _ hmem => ?_)
    simp only [List.mem_cons, List.not_mem_nil, or_false] at hmem
    rcases hmem with hin | hout | herr | hr
    · exact absurd hin.symm (stageInput_ne_writeEnd d _)
    · cases hout
    · cases herr
    · cases hr
  refine ⟨hfirst, hlater _ _ hread, hlater _ _ (hread.dup 3 0), ?_⟩
  rw [forkTable, chainTable, right_table]
  exact hrest

/-- The chain from stage `d` on. -/
theorem wp_chain (hcs : ∀ x ∈ cs, ∃ e, x.command? = some e) (rest : List Cmd) :
    ∀ {d cl}, cs.drop d = rest → rest ≠ [] → .writeEnd (gapPipe d) ∉ cl →
      Wp (pipelineSpec cs) (execCmd (pipeTree rest)) (chainPid d) (chainTable d) 0 cl := by
  induction rest with
  | nil => exact fun _ hne => absurd rfl hne
  | cons x rest ih =>
      intro d cl hdrop _ hcl
      have hx : cs[d]? = some x := by
        rw [← Nat.add_zero d, ← List.getElem?_drop, hdrop]
        rfl
      obtain ⟨e, he⟩ := hcs x (List.mem_of_getElem? hx)
      have hlen := congrArg List.length hdrop
      rw [List.length_drop, List.length_cons] at hlen
      cases rest with
      | nil =>
          rw [List.length_nil] at hlen
          exact wp_lastStage hx he (by omega)
      | cons y rest =>
          have hd : d + 1 < cs.length := by
            rw [List.length_cons] at hlen
            omega
          have hnext : cs.drop (d + 1) = y :: rest := by
            rw [← List.drop_drop, hdrop]
            rfl
          have hother : .writeEnd (gapPipe (d + 1)) ∉
              [(.readEnd (gapPipe d) : File Str), .writeEnd (gapPipe d)] := by
            simp only [List.mem_cons, List.not_mem_nil, or_false]
            rintro (hc | hc)
            · cases hc
            · exact absurd (writeEnd_gapPipe hc) (Nat.succ_ne_self d)
          have hrest := ih hnext (List.cons_ne_nil y rest) hother
          have hopen : ∀ {t cl}, Within t (forkFiles d) → .writeEnd (gapPipe d) ∉ cl →
              WriteEndsKept cs.length (chainPid d) t cl := by
            intro t cl ht hcl
            refine writeEndsKept_of_within ht (fun i _ hmem => ?_)
            obtain rfl := eq_of_mem_forkFiles hmem
            exact Or.inr ⟨Or.inl rfl, hcl⟩
          refine ⟨writeEndsKept_chainTable d, fun r w hr hw => ?_⟩
          obtain rfl := hr.eq_three
          obtain rfl := hw.eq_four
          refine ⟨hopen (within_forkTable d) hcl, wp_leftChild hx he hd,
            hopen (within_forkTable d) hcl, ?_, hopen (within_forkTable d) hcl,
            hopen ((within_forkTable d).close 3) ?_, ?_⟩
          · rw [chainPid_succ]
            exact wp_rightChild hrest
          · exact fun hmem => hcl (List.mem_of_ne_of_mem (by simp) hmem)
          · have hclosed : closeTable (closeTable (pipeTable (chainTable d) 3 4 (gapPipe d)) 3) 4 =
                chainTable d :=
              close_pipe_table ..
            have hwaits : WaitsClosed cs.length (chainPid d) (chainTable d)
                (.writeEnd (gapPipe d) :: .readEnd (gapPipe d) :: cl) :=
              ⟨d, hd, rfl, List.mem_cons_self .., stdTable_ne_none _ _ _⟩
            show Wp _ _ _ (closeTable (closeTable (pipeTable (chainTable d) 3 4 (gapPipe d)) 3) 4) _ _
            rw [hclosed]
            exact ⟨writeEndsKept_chainTable d, hwaits, writeEndsKept_chainTable d, hwaits,
              writeEndsKept_chainTable d⟩

/-! ## Every stage gets to its `execvp` -/

/-- A redirection without a command exits instead. -/
def ExecCmd.HasCommand (e : ExecCmd) : Prop := e.type = .redir → e.scmd ≠ []

theorem waitsOwn_redirectTo {kids : List Name} (file : Str) (flags : Mode) (n : Nat)
    (hk : WaitsOwn k pid born kids) : WaitsOwn (redirectTo file flags n k) pid born kids :=
  fun _ => hk

theorem waitsOwn_execSimple (e : ExecCmd) (pid : Name) (born : Nat) (kids : List Name) :
    WaitsOwn (execSimple e) pid born kids := by
  unfold execSimple
  split
  · trivial
  · split
    · trivial
    · have herr : WaitsOwn (redirErr e (.execvp { e with type := .exec })) pid born kids := by
        unfold redirErr
        split
        · split
          · trivial
          · exact waitsOwn_redirectTo _ _ _ trivial
        · trivial
      have hout : WaitsOwn (redirOut e (redirErr e (.execvp { e with type := .exec }))) pid born
          kids := by
        unfold redirOut
        split
        · exact waitsOwn_redirectTo _ _ _ herr
        · exact herr
      unfold redirIn
      split
      · exact waitsOwn_redirectTo _ _ _ hout
      · exact hout

theorem waitsOwn_execCmd (x : Cmd) :
    ∀ pid born kids, WaitsOwn (execCmd x) pid born kids := by
  induction x with
  | null => exact fun _ _ _ => trivial
  | exec e => exact waitsOwn_execSimple e
  | back scmd e => exact waitsOwn_execSimple e
  | pipe l r ihl ihr =>
      intro pid born kids fd0 fd1
      refine ⟨ihl _ _ _, ihr _ _ _, ?_, ?_, trivial⟩
      · exact List.mem_cons_of_mem _ (List.mem_cons_self ..)
      · exact List.mem_cons_self ..

theorem willExec_execSimple (he : e.HasCommand) (pid : Name) (born : Nat) :
    WillExec pid (execSimple e) pid born := by
  have hredir : ∀ {k : Program} (file : Str) (flags : Mode) (n : Nat), WillExec pid k pid born →
      WillExec pid (redirectTo file flags n k) pid born :=
    fun _ _ _ hk _ => hk
  unfold execSimple
  split
  · rfl
  · rename_i htype
    rw [if_neg (by simpa using he htype)]
    have herr : WillExec pid (redirErr e (.execvp { e with type := .exec })) pid born := by
      unfold redirErr
      split
      · split
        · rfl
        · exact hredir _ _ _ rfl
      · rfl
    have hout : WillExec pid (redirOut e (redirErr e (.execvp { e with type := .exec }))) pid
        born := by
      unfold redirOut
      split
      · exact hredir _ _ _ herr
      · exact herr
    unfold redirIn
    split
    · exact hredir _ _ _ hout
    · exact hout

/-- The chain from stage `j` on leads to every stage from `j` on. -/
theorem willExec_chain {x : Cmd} (hx : cs[d]? = some x) (he : x.command? = some e)
    (hcmd : e.HasCommand) (rest : List Cmd) :
    ∀ {j}, cs.drop j = rest → j ≤ d →
      WillExec (stagePid cs.length d) (execCmd (pipeTree rest)) (chainPid j) 0 := by
  have hlt : d < cs.length := (List.getElem?_eq_some_iff.1 hx).1
  induction rest with
  | nil =>
      intro j hdrop hj
      have := List.drop_eq_nil_iff.1 hdrop
      omega
  | cons y rest ih =>
      intro j hdrop hj
      have hy : cs[j]? = some y := by
        rw [← Nat.add_zero j, ← List.getElem?_drop, hdrop]
        rfl
      have hlen := congrArg List.length hdrop
      rw [List.length_drop, List.length_cons] at hlen
      cases rest with
      | nil =>
          rw [List.length_nil] at hlen
          obtain rfl : j = d := by omega
          obtain rfl : x = y := Option.some.inj (hx.symm.trans hy)
          rw [stagePid, if_neg (by omega)]
          show WillExec _ (execCmd x) _ _
          rw [execCmd_of_command? he]
          exact willExec_execSimple hcmd _ _
      | cons z rest =>
          rw [List.length_cons] at hlen
          intro fd0 fd1
          rcases Nat.lt_or_eq_of_le hj with hlater | rfl
          · have hnext : cs.drop (j + 1) = z :: rest := by
              rw [← List.drop_drop, hdrop]
              rfl
            have hrest := ih hnext hlater
            rw [← chainPid_succ] at hrest
            exact Or.inr (Or.inl hrest)
          · obtain rfl : x = y := Option.some.inj (hx.symm.trans hy)
            refine Or.inl ?_
            show WillExec _ (execCmd x) _ _
            rw [execCmd_of_command? he, stagePid, if_pos (by omega)]
            exact willExec_execSimple hcmd _ _

theorem stagePid_injective {n i j : Nat} (hi : i < n) (hj : j < n)
    (h : stagePid n i = stagePid n j) : i = j := by
  have hone : ∀ d, 1 ∉ chainPid d := by
    intro d hmem
    exact absurd (List.eq_of_mem_replicate hmem) (by decide)
  have hlen := congrArg List.length h
  unfold stagePid at h hlen
  by_cases hi' : i + 1 < n
  · by_cases hj' : j + 1 < n
    · rw [if_pos hi', if_pos hj'] at hlen
      simpa [chainPid] using hlen
    · rw [if_pos hi', if_neg hj'] at h
      exact absurd (by rw [← h]; simp) (hone j)
  · by_cases hj' : j + 1 < n
    · rw [if_neg hi', if_pos hj'] at h
      exact absurd (by rw [h]; simp) (hone i)
    · omega

/-! ## Every run -/

/-- The table of the shell's child that calls `exec_cmd`. -/
def shellTable : Table Str :=
  stdTable (.inherited stdinFileno) (.inherited stdoutFileno) (.inherited stderrFileno)

theorem finiteTable_shellTable : FiniteTable shellTable := by
  refine ⟨3, fun fd hfd => ?_⟩
  by_contra hopen
  exact absurd ((stdTable_ne_none _ _ _ fd).1 hopen) (by omega)

/-- What a run of a pipeline has done so far, and where its write ends
are; at the end every stage has been executed. -/
structure PipelineRun (cs : List Cmd) (m : Machine Str ExecCmd) (h : List (Exec Str ExecCmd)) :
    Prop where
  execs : ∀ ev ∈ h, ∃ d c e, cs[d]? = some c ∧ c.command? = some e ∧
    Wired cs.length d e ev.pid ev.image ev.fds
  writeEnds : ∀ i pid p fd, i + 1 < cs.length → m pid = some p →
    p.fds fd = some (.writeEnd (gapPipe i)) →
    (∀ q proc, m q = some proc → q = chainPid i ∨ q = chainPid (i + 1) →
      .writeEnd (gapPipe i) ∈ proc.closed) → pid = stagePid cs.length i
  waits : ∀ pid p child k, m pid = some p → p.state = .code (.waitpid child k) →
    WaitsClosed cs.length pid p.fds p.closed
  complete : Stuck m → (∀ pid p, m pid = some p → p.state = .zombie) ∧
    ∀ d c e, cs[d]? = some c → c.command? = some e → e.HasCommand →
      ∃ ev ∈ h, Wired cs.length d e ev.pid ev.image ev.fds

/-- `exec_cmd` of any pipeline, under any schedule. -/
theorem pipeline_wired {cs : List Cmd} (hne : cs ≠ [])
    (hcs : ∀ x ∈ cs, ∃ e, x.command? = some e) {m : Machine Str ExecCmd}
    {h : List (Exec Str ExecCmd)} (hrun : Reached (boot (execCmd (pipeTree cs)) shellTable) m h) :
    PipelineRun cs m h := by
  have hwp : Wp (pipelineSpec cs) (execCmd (pipeTree cs)) [] shellTable 0 [] :=
    wp_chain hcs cs (d := 0) rfl hne List.not_mem_nil
  obtain ⟨hok, hevs⟩ := hrun.ok hwp
  have hwaits : WaitsOwn (execCmd (pipeTree cs)) [] 0 [] := waitsOwn_execCmd _ _ _ _
  refine ⟨hevs, fun i pid p fd hi hp hfd hclosed => ?_, fun pid p child k hp hstate => ?_,
    fun hstuck => ⟨(hrun.waiting finiteTable_shellTable hwaits).ended hstuck,
      fun d c e hc he hcmd => ?_⟩⟩
  · have hkept : WriteEndsKept cs.length pid p.fds p.closed := by
      have hproc := hok pid p hp
      unfold Proc.Ok at hproc
      split at hproc
      · exact hproc.always
      · exact hproc
      · rw [hproc] at hfd
        cases hfd
    rcases hkept i fd hi hfd with hstage | ⟨hchain, hnot⟩
    · exact hstage
    · exact absurd (hclosed pid p hp hchain) hnot
  · have hproc := hok pid p hp
    unfold Proc.Ok at hproc
    rw [hstate] at hproc
    exact hproc.2.1
  · have hwill : WillExec (stagePid cs.length d) (execCmd (pipeTree cs)) [] 0 :=
      willExec_chain hc he hcmd cs (j := 0) rfl (Nat.zero_le d)
    obtain ⟨ev, hev, hpid⟩ := hrun.complete finiteTable_shellTable hwaits hwill hstuck
    -- an `execvp` of that process is the one of the stage
    obtain ⟨i, c', e', hc', he', hwired⟩ := hevs ev hev
    have hid : d = i := stagePid_injective (List.getElem?_eq_some_iff.1 hc).1
      (List.getElem?_eq_some_iff.1 hc').1 (hpid.symm.trans hwired.pid)
    subst hid
    obtain rfl : c = c' := Option.some.inj (hc.symm.trans hc')
    obtain rfl : e = e' := Option.some.inj (he.symm.trans he')
    exact ⟨ev, hev, hwired⟩

/-- Both stages are executed, end, and are waited for. -/
theorem lsWc_reached : ∃ m, Stuck m ∧ Reached (boot (execCmd (pipeTree lsWc)) shellTable) m
    [⟨[1], ls, stdTable (.inherited 0) (.writeEnd [0]) (.inherited 2)⟩,
      ⟨[2], wc, stdTable (.readEnd [0]) (.inherited 1) (.inherited 2)⟩] := by
  have hr : Lowest shellTable 3 := lowest_stdTable ..
  have hw : Lowest (Function.update shellTable 3 (some (.readEnd [0]))) 4 := ⟨rfl, by decide⟩
  have h₁ := Reached.start.step
    (.pipe [] (show boot (execCmd (pipeTree lsWc)) shellTable [] = _ from rfl) hr hw)
  have h₂ := (h₁.step (.fork [] rfl)).step (.fork [] rfl)
  -- the left child
  have h₃ := ((h₂.step (.close [1] rfl)).step (.dup2 [1] rfl)).step (.close [1] rfl)
  have h₄ := h₃.step (.execvp [1] rfl)
  -- the right child
  have h₅ := ((h₄.step (.close [2] rfl)).step (.dup2 [2] rfl)).step (.close [2] rfl)
  have h₆ := h₅.step (.execvp [2] rfl)
  have h₇ := (h₆.step (.imageExit [1] rfl)).step (.imageExit [2] rfl)
  -- their parent
  have h₈ := (h₇.step (.close [] rfl)).step (.close [] rfl)
  have h₉ := (h₈.step (.waitpid [] rfl rfl rfl)).step (.waitpid [] rfl rfl rfl)
  have h₁₀ := h₉.step (.exit [] rfl)
  rw [show closeTable (dupTable (closeTable (pipeTable shellTable 3 4 ([] ++ [0])) 3) 4 1) 4 =
      stdTable (.inherited 0) (.writeEnd [0]) (.inherited 2) from left_table ..,
    show closeTable (dupTable (closeTable (pipeTable shellTable 3 4 ([] ++ [0])) 4) 3 0) 3 =
      stdTable (.readEnd [0]) (.inherited 1) (.inherited 2) from right_table ..] at h₁₀
  refine ⟨_, stuck_of_ended ?_, h₁₀⟩
  intro pid p hp
  by_cases hroot : pid = []
  · subst hroot
    cases hp
    rfl
  by_cases hleft : pid = [1]
  · subst hleft
    cases hp
    rfl
  by_cases hright : pid = [2]
  · subst hright
    cases hp
    rfl
  simp [boot, hroot, hleft, hright] at hp

theorem pipeline_wired_lsWc :
    lsWc ≠ [] ∧ (∀ x ∈ lsWc, ∃ e, x.command? = some e) ∧
    ∃ m h, Reached (boot (execCmd (pipeTree lsWc)) shellTable) m h ∧ PipelineRun lsWc m h ∧
      Stuck m ∧ h = [⟨[1], ls, stdTable (.inherited 0) (.writeEnd [0]) (.inherited 2)⟩,
        ⟨[2], wc, stdTable (.readEnd [0]) (.inherited 1) (.inherited 2)⟩] := by
  have hcs : ∀ x ∈ lsWc, ∃ e, x.command? = some e := by
    intro x hx
    rw [lsWc, List.mem_cons, List.mem_singleton] at hx
    rcases hx with rfl | rfl
    · exact ⟨_, rfl⟩
    · exact ⟨_, rfl⟩
  obtain ⟨m, hstuck, hrun⟩ := lsWc_reached
  exact ⟨List.cons_ne_nil _ _, hcs, m, _, hrun, pipeline_wired (List.cons_ne_nil _ _) hcs hrun,
    hstuck, rfl⟩

end SistemasOperativos.Shell
