/-
SistemasOperativos.Shell.RedirTheorems — redirections, from the token to
the descriptors of the program.

`parse_redir_flow` looks at where the first `>` of a token is, and not at
what is before it: `1>f` goes to the errors, as any other character
before the `>` does, and a token with the `>` further back is taken and
leaves no trace. It removes every token with a `<` or a `>`. So the
redirections of a segment take effect as they are written exactly if all
such tokens have one of three shapes.
-/
import SistemasOperativos.Shell.ArgvTheorems
import SistemasOperativos.Shell.ExecTheorems

namespace SistemasOperativos.Shell

open Fold Process

/-! ## The specification -/

inductive Stream where
  | input
  | output
  | error
  deriving DecidableEq, Repr

/-- The stream that a token asks to redirect, and the file. -/
def requested : Str → Option (Stream × Str)
  | '>' :: x :: f => some (.output, x :: f)
  | '1' :: '>' :: x :: f => some (.output, x :: f)
  | '2' :: '>' :: x :: f => some (.error, x :: f)
  | '<' :: x :: f => some (.input, x :: f)
  | _ => none

def ExecCmd.file (c : ExecCmd) : Stream → Str
  | .input => c.inFile
  | .output => c.outFile
  | .error => c.errFile

def ExecCmd.setFile (c : ExecCmd) (f : Str) : Stream → ExecCmd
  | .input => { c with inFile := f }
  | .output => { c with outFile := f }
  | .error => { c with errFile := f }

/-- A token that is taken sets the file of the stream it asks for, and no
other. -/
def TakesEffect (tok : Str) : Prop :=
  ∀ c c', parseRedirFlow c tok = some c' → ∃ stream f, requested tok = some (stream, f) ∧
    c' = { c.setFile f stream with type := .redir }

/-- The file that the tokens ask for last, or the one there was. -/
def fileFor (toks : List Str) (stream : Stream) (mode : Mode) (f : File Str) : File Str :=
  match lastFor stream (toks.filterMap requested) with
  | some path => .regular path mode
  | none => f

/-- The same for the errors, which `&1` sends where the output goes. -/
def errorFileFor (toks : List Str) (out f : File Str) : File Str :=
  if lastFor .error (toks.filterMap requested) = some ['&', '1'] then out
  else fileFor toks .error .creatTrunc f

/-- A program that starts as the tokens say, where the standard descriptors
were `a`, `b` and `c`. -/
structure AsRequested (env : Environ) (toks : List Str) (a b c : File Str)
    (ev : Exec Str ExecCmd) : Prop where
  argv : ev.image.argv = ((toks.filter (fun t => requested t = none ∧ ¬ Assigns t)).map
    (expansion env)).filter (· ≠ [])
  input : ev.fds stdinFileno = some (fileFor toks .input .rdonly a)
  output : ev.fds stdoutFileno = some (fileFor toks .output .creatTrunc b)
  error : ev.fds stderrFileno =
    some (errorFileFor toks (fileFor toks .output .creatTrunc b) c)

/-- Every token of the segment takes effect, and `exec_cmd` starts the
program as they say, in every run, and does start it. -/
def RedirectionsTakeEffect (env : Environ) (s : Str) : Prop :=
  (∀ tok ∈ tokens s, TakesEffect tok) ∧
    ∃ e, parseExec env s = .ok e ∧ ∀ a b c : File Str,
      (∃ m ev, Reached (boot (execCmd (.exec e)) (stdTable a b c)) m [ev]) ∧
        ∀ m h, Reached (boot (execCmd (.exec e)) (stdTable a b c)) m h →
          ∀ ev ∈ h, AsRequested env (tokens s) a b c ev

/-- The shapes that work: `>f` and `2>f`, and `<f` without a `>` in `f`. -/
def WellPlaced : Str → Prop
  | '>' :: f => f ≠ []
  | '2' :: '>' :: f => f ≠ []
  | '<' :: f => f ≠ [] ∧ '>' ∉ f
  | _ => False

/-! ## One token -/

variable {env : Environ} {c e : ExecCmd} {s tok : Str} {stream : Stream} {f : Str}

theorem parseRedirFlow_output (c : ExecCmd) (f : Str) :
    parseRedirFlow c ('>' :: f) = some { c with outFile := f, type := .redir } := by
  have hidx : blockContains ('>' :: f) '>' = 0 := blockContains_append (s := []) (by simp) f
  unfold parseRedirFlow
  rw [hidx]
  rfl

/-- One character before the `>`, whatever it is. -/
theorem parseRedirFlow_error (c : ExecCmd) {x : Char} (hx : x ≠ '>') (f : Str) :
    parseRedirFlow c (x :: '>' :: f) = some { c with errFile := f, type := .redir } := by
  have hidx : blockContains (x :: '>' :: f) '>' = 1 :=
    blockContains_append (s := [x]) (by simpa using Ne.symm hx) f
  unfold parseRedirFlow
  rw [hidx]
  rfl

theorem parseRedirFlow_input (c : ExecCmd) (hf : '>' ∉ f) :
    parseRedirFlow c ('<' :: f) = some { c with inFile := f, type := .redir } := by
  have hout : ¬ blockContains ('<' :: f) '>' ≥ 0 := by
    rw [blockContains_nonneg]
    simp [hf]
  have hin : blockContains ('<' :: f) '<' ≥ 0 := by
    rw [blockContains_nonneg]
    simp
  unfold parseRedirFlow
  dsimp only
  rw [if_neg hout, if_pos hin]
  rfl

/-- With a `>` in it, a token that starts with `<` does not set the
input. -/
theorem parseRedirFlow_mixed {c' : ExecCmd} (hf : '>' ∈ f)
    (h : parseRedirFlow c ('<' :: f) = some c') : c'.inFile = c.inFile := by
  have hout : blockContains ('<' :: f) '>' ≥ 0 := by
    rw [blockContains_nonneg]
    simp [hf]
  unfold parseRedirFlow at h
  dsimp only at h
  rw [if_pos hout] at h
  cases h
  split
  · rfl
  · split <;> rfl

theorem requested_cases (h : requested tok = some (stream, f)) :
    f ≠ [] ∧ ((stream = .output ∧ (tok = '>' :: f ∨ tok = '1' :: '>' :: f)) ∨
      (stream = .error ∧ tok = '2' :: '>' :: f) ∨ (stream = .input ∧ tok = '<' :: f)) := by
  unfold requested at h
  split at h
  · cases h
    exact ⟨List.cons_ne_nil _ _, Or.inl ⟨rfl, Or.inl rfl⟩⟩
  · cases h
    exact ⟨List.cons_ne_nil _ _, Or.inl ⟨rfl, Or.inr rfl⟩⟩
  · cases h
    exact ⟨List.cons_ne_nil _ _, Or.inr (Or.inl ⟨rfl, rfl⟩)⟩
  · cases h
    exact ⟨List.cons_ne_nil _ _, Or.inr (Or.inr ⟨rfl, rfl⟩)⟩
  · cases h

theorem redirects_of_requested (h : requested tok = some (stream, f)) : Redirects tok := by
  rcases (requested_cases h).2 with ⟨-, rfl | rfl⟩ | ⟨-, rfl⟩ | ⟨-, rfl⟩
  · exact Or.inr (by simp)
  · exact Or.inr (by simp)
  · exact Or.inr (by simp)
  · exact Or.inl (by simp)

theorem requested_of_not_redirects (h : ¬ Redirects tok) : requested tok = none := by
  cases hreq : requested tok with
  | none => rfl
  | some w => exact absurd (redirects_of_requested hreq) h

theorem wellPlaced_cases (h : WellPlaced tok) :
    ∃ x f, tok = '>' :: x :: f ∨ tok = '2' :: '>' :: x :: f ∨
      (tok = '<' :: x :: f ∧ '>' ∉ x :: f) := by
  unfold WellPlaced at h
  split at h
  · obtain ⟨x, f, rfl⟩ := List.exists_cons_of_ne_nil h
    exact ⟨x, f, Or.inl rfl⟩
  · obtain ⟨x, f, rfl⟩ := List.exists_cons_of_ne_nil h
    exact ⟨x, f, Or.inr (Or.inl rfl)⟩
  · obtain ⟨x, f, rfl⟩ := List.exists_cons_of_ne_nil h.1
    exact ⟨x, f, Or.inr (Or.inr ⟨rfl, h.2⟩)⟩
  · exact absurd h id

/-- A token of one of the three shapes. -/
theorem parseRedirFlow_wellPlaced (h : WellPlaced tok) :
    ∃ stream f, requested tok = some (stream, f) ∧
      ∀ c, parseRedirFlow c tok = some { c.setFile f stream with type := .redir } := by
  obtain ⟨x, f, rfl | rfl | ⟨rfl, hin⟩⟩ := wellPlaced_cases h
  · exact ⟨.output, x :: f, rfl, fun c => parseRedirFlow_output c _⟩
  · exact ⟨.error, x :: f, rfl, fun c => parseRedirFlow_error c (by decide) _⟩
  · exact ⟨.input, x :: f, rfl, fun c => parseRedirFlow_input c hin⟩

/-- Which tokens take effect. -/
theorem takesEffect_iff : TakesEffect tok ↔ (Redirects tok → WellPlaced tok) := by
  constructor
  · intro h hr
    -- no file is set before
    cases hflow : parseRedirFlow (execCmdCreate []) tok with
    | none => exact absurd hr (parseRedirFlow_none.mp hflow)
    | some c' =>
        obtain ⟨stream, f, hreq, hset⟩ := h _ _ hflow
        obtain ⟨hne, hshape⟩ := requested_cases hreq
        rcases hshape with ⟨rfl, rfl | rfl⟩ | ⟨rfl, rfl⟩ | ⟨rfl, rfl⟩
        · exact hne
        · -- `1>f`: the file is that of the errors
          rw [parseRedirFlow_error _ (by decide)] at hflow
          cases hflow
          exact absurd (congrArg ExecCmd.errFile hset) hne
        · exact hne
        · refine ⟨hne, fun hmixed => ?_⟩
          have hin := parseRedirFlow_mixed hmixed hflow
          rw [hset] at hin
          exact hne hin
  · intro h c c' hflow
    obtain ⟨stream, f, hreq, hset⟩ := parseRedirFlow_wellPlaced (h (redirects_of_some hflow))
    rw [hset c] at hflow
    cases hflow
    exact ⟨stream, f, hreq, rfl⟩

/-! ## The files of a segment -/

theorem file_setFile (c : ExecCmd) (f : Str) (stream k : Stream) :
    ({ c.setFile f stream with type := .redir } : ExecCmd).file k =
      if stream = k then f else c.file k := by
  cases stream with
  | input => cases k <;> rfl
  | output => cases k <;> rfl
  | error => cases k <;> rfl

theorem file_argv (c : ExecCmd) (argv : List Str) (k : Stream) :
    ({ c with argv := argv } : ExecCmd).file k = c.file k := by
  cases k <;> rfl

theorem file_eargv (c : ExecCmd) (eargv : List Str) (k : Stream) :
    ({ c with eargv := eargv } : ExecCmd).file k = c.file k := by
  cases k <;> rfl

/-- What one token does to the three files. -/
theorem parseToken_file {c' : ExecCmd} (htok : Redirects tok → WellPlaced tok)
    (h : parseToken env c tok = .ok c') (k : Stream) :
    c'.file k = (lastFor k (requested tok).toList).getD (c.file k) := by
  rcases parseToken_cases h with ⟨hr, hredir⟩ | hplain
  · obtain ⟨stream, f, hreq, hset⟩ := parseRedirFlow_wellPlaced (htok hr)
    rw [hset c] at hredir
    cases hredir
    rw [hreq, Option.toList_some, lastFor_singleton, file_setFile]
    by_cases hk : stream = k
    · rw [if_pos hk, if_pos hk]
      rfl
    · rw [if_neg hk, if_neg hk]
      rfl
  · have hsame : ¬ Redirects tok ∧ c'.file k = c.file k := by
      rcases hplain with ⟨hr, -, -, rfl⟩ | ⟨hr, -, -, rfl⟩ | ⟨hr, -, -, -, rfl⟩
      · exact ⟨hr, file_eargv ..⟩
      · exact ⟨hr, rfl⟩
      · exact ⟨hr, file_argv ..⟩
    rw [requested_of_not_redirects hsame.1, hsame.2]
    rfl

/-- Every file of the command is the one asked for last. -/
theorem parseExec_file (htoks : ∀ tok ∈ tokens s, Redirects tok → WellPlaced tok)
    (h : parseExec env s = .ok e) (k : Stream) :
    e.file k = (lastFor k ((tokens s).filterMap requested)).getD [] := by
  have hslots := foldlM_slots ExecCmd.file requested
    (fun tok htok _ _ hstep k => parseToken_file (htoks tok htok) hstep k)
    (fold_of_parseExec h).1 k
  rw [hslots]
  cases k <;> rfl

/-- A command with a file is a redirection. -/
theorem type_of_file (h : parseExec env s = .ok e) (hfile : e.file stream ≠ []) :
    e.type = .redir := by
  have hinv : (∀ k, e.file k = []) ∨ e.type = .redir := by
    refine foldlM_inv (P := fun c => (∀ k, c.file k = []) ∨ c.type = .redir)
      (fun tok _ c c' hc hstep => ?_) (Or.inl fun k => by cases k <;> rfl) (fold_of_parseExec h).1
    rcases parseToken_cases hstep with ⟨-, hredir⟩ | ⟨-, -, -, rfl⟩ | ⟨-, -, -, rfl⟩ |
      ⟨-, -, -, -, rfl⟩
    · exact Or.inr (parseRedirFlow_some hredir).2.2.2
    · exact hc.imp (fun hc k => (file_eargv ..).trans (hc k)) id
    · exact hc
    · exact hc.imp (fun hc k => (file_argv ..).trans (hc k)) id
  exact hinv.resolve_left (fun hnone => hfile (hnone stream))

theorem lastFor_requested_ne (toks : List Str)
    (h : lastFor stream (toks.filterMap requested) = some f) : f ≠ [] := by
  obtain ⟨tok, -, hreq⟩ := List.mem_filterMap.mp (mem_of_lastFor h)
  exact (requested_cases hreq).1

theorem regular_eq_fileFor (htoks : ∀ tok ∈ tokens s, Redirects tok → WellPlaced tok)
    (h : parseExec env s = .ok e) (stream : Stream) (mode : Mode) (g : File Str) :
    (if e.type = .redir ∧ e.file stream ≠ [] then .regular (e.file stream) mode else g) =
      fileFor (tokens s) stream mode g := by
  have hfile := parseExec_file htoks h stream
  unfold fileFor
  cases hlast : lastFor stream ((tokens s).filterMap requested) with
  | none =>
      rw [hlast, Option.getD_none] at hfile
      rw [if_neg (fun hc => hc.2 hfile)]
  | some path =>
      rw [hlast, Option.getD_some] at hfile
      have hne : e.file stream ≠ [] := by
        rw [hfile]
        exact lastFor_requested_ne _ hlast
      rw [if_pos ⟨type_of_file h hne, hne⟩, hfile]

theorem errorOf_eq (htoks : ∀ tok ∈ tokens s, Redirects tok → WellPlaced tok)
    (h : parseExec env s = .ok e) (out g : File Str) :
    errorOf e out g = errorFileFor (tokens s) out g := by
  have hfile : e.errFile = (lastFor .error ((tokens s).filterMap requested)).getD [] :=
    parseExec_file htoks h .error
  unfold errorFileFor
  by_cases hdup : lastFor .error ((tokens s).filterMap requested) = some ['&', '1']
  · rw [hdup, Option.getD_some] at hfile
    have hne : e.file .error ≠ [] := by
      rw [show e.file .error = e.errFile from rfl, hfile]
      exact List.cons_ne_nil _ _
    rw [if_pos hdup, errorOf, if_pos ⟨type_of_file h hne, hne⟩, if_pos hfile]
  · have hnot : e.errFile ≠ ['&', '1'] := by
      intro heq
      rw [heq] at hfile
      cases hlast : lastFor .error ((tokens s).filterMap requested) with
      | none =>
          rw [hlast] at hfile
          cases hfile
      | some path =>
          rw [hlast, Option.getD_some] at hfile
          exact hdup (by rw [hlast, hfile])
    rw [if_neg hdup, ← regular_eq_fileFor htoks h, errorOf, if_neg hnot]
    rfl

/-! ## The program that is started -/

variable {m₀ : Machine Str ExecCmd} {evs : List (Exec Str ExecCmd)} {pid : Name}
  {a b g : File Str} {k : Program}

theorem arrives_redirectTo {file : Str} {flags : Mode} {n : Nat} (hn : n < 3)
    (ha : Arrives m₀ evs pid (redirectTo file flags n k) (stdTable a b g)) :
    Arrives m₀ evs pid k (Function.update (stdTable a b g) n (some (.regular file flags))) := by
  have hclose := (Arrives.openFile ha (lowest_stdTable a b g)).dup2.close
  rwa [redirect_table a b g _ hn] at hclose

theorem arrives_redir {file : Str} {flags : Mode} {n : Nat} {t : Table Str} (hn : n < 3)
    (htable : (file ≠ [] → Function.update (stdTable a b g) n (some (.regular file flags)) = t) ∧
      (file = [] → stdTable a b g = t))
    (ha : Arrives m₀ evs pid (if file.length ≠ 0 then redirectTo file flags n k else k)
      (stdTable a b g)) :
    Arrives m₀ evs pid k t := by
  split at ha
  · rename_i hfile
    rw [ne_eq, List.length_eq_zero_iff] at hfile
    rw [← htable.1 hfile]
    exact arrives_redirectTo hn ha
  · rename_i hfile
    rw [not_not, List.length_eq_zero_iff] at hfile
    rw [← htable.2 hfile]
    exact ha

theorem arrives_redirErr (he : e.type = .redir)
    (ha : Arrives m₀ evs pid (redirErr e k) (stdTable a b g)) :
    Arrives m₀ evs pid k (stdTable a b (errorOf e b g)) := by
  unfold redirErr at ha
  split at ha
  · rename_i hfile
    rw [ne_eq, List.length_eq_zero_iff] at hfile
    split at ha
    · rename_i hdup
      have hdup2 := ha.dup2
      rw [dupTable_eq (show stdTable a b g 1 = some b from rfl), update_stdTable_two] at hdup2
      rwa [errorOf, if_pos ⟨he, hfile⟩, if_pos hdup]
    · rename_i hdup
      rw [errorOf, if_pos ⟨he, hfile⟩, if_neg hdup, ← update_stdTable_two]
      exact arrives_redirectTo (by decide) ha
  · rename_i hfile
    rw [not_not, List.length_eq_zero_iff] at hfile
    rwa [errorOf, if_neg (fun hc => hc.2 hfile)]

/-- Some run gets to the `execvp` of a command. -/
theorem execSimple_reached (hscmd : e.type = .redir → e.scmd ≠ []) (a b g : File Str) :
    ∃ m ev, Reached (boot (execSimple e) (stdTable a b g)) m [ev] := by
  have hboot := arrives_boot (execSimple e) (stdTable a b g)
  cases htype : e.type with
  | exec =>
      have hprog : execSimple e = .execvp e := by rw [execSimple, htype]
      rw [hprog] at hboot ⊢
      obtain ⟨m, hm⟩ := hboot.execvp
      exact ⟨m, _, hm⟩
  | redir =>
      have hlen : ¬ e.scmd.length = 0 := by
        rw [List.length_eq_zero_iff]
        exact hscmd htype
      have hprog : execSimple e =
          redirIn e (redirOut e (redirErr e (.execvp { e with type := .exec }))) := by
        rw [execSimple, htype]
        exact if_neg hlen
      rw [hprog] at hboot ⊢
      have hin := arrives_redir (by decide) (table_redirIn htype) hboot
      have hout := arrives_redir (by decide) (table_redirOut htype) hin
      obtain ⟨m, hm⟩ := (arrives_redirErr htype hout).execvp
      exact ⟨m, _, hm⟩

/-- Every `execvp` of a command has its redirections. -/
theorem execSimple_execs {m : Machine Str ExecCmd} (hrun : Reached (boot (execSimple e)
    (stdTable a b g)) m evs) {ev : Exec Str ExecCmd} (hev : ev ∈ evs) :
    ev.image = { e with type := .exec } ∧
      ev.fds = stdTable (inputOf e a) (outputOf e b) (errorOf e (outputOf e b) g) := by
  let spec : Spec Str ExecCmd :=
    { always := fun _ _ _ => True
      waits := fun _ _ _ => True
      execs := fun _ image fds => image = { e with type := .exec } ∧
        fds = stdTable (inputOf e a) (outputOf e b) (errorOf e (outputOf e b) g) }
  have hwp : Wp spec (execSimple e) [] (stdTable a b g) 0 [] :=
    wp_execSimple (fun _ _ _ => trivial) ⟨rfl, rfl⟩
  exact (hrun.ok hwp).2 ev hev

/-- The tokens that ask for nothing are those without a `<` or a `>`. -/
theorem arguments_eq_unasked (env : Environ)
    (htoks : ∀ tok ∈ tokens s, Redirects tok → WellPlaced tok) :
    arguments env (tokens s) = (((tokens s).filter (fun t => requested t = none ∧ ¬ Assigns t)).map
      (expansion env)).filter (· ≠ []) := by
  unfold arguments
  congr 2
  refine List.filter_congr (fun tok htok => decide_eq_decide.mpr (and_congr_left' ?_))
  constructor
  · exact requested_of_not_redirects
  · intro hnone hr
    obtain ⟨stream, f, hreq, -⟩ := parseRedirFlow_wellPlaced (htoks tok htok hr)
    rw [hnone] at hreq
    cases hreq

/-- The redirections of a segment take effect exactly if both vectors fit
and every token with a `<` or a `>` has one of the three shapes. -/
theorem redirections_take_effect (env : Environ) (s : Str) :
    RedirectionsTakeEffect env s ↔
      Fits env s ∧ ∀ tok ∈ tokens s, Redirects tok → WellPlaced tok := by
  constructor
  · rintro ⟨htoks, e, hparse, -⟩
    exact ⟨fits_of_parseExec hparse, fun tok htok => takesEffect_iff.mp (htoks tok htok)⟩
  · rintro ⟨hfits, htoks⟩
    obtain ⟨e, hparse⟩ := parseExec_ok_iff.mpr hfits
    refine ⟨fun tok htok => takesEffect_iff.mpr (htoks tok htok), e, hparse, fun a b g => ⟨?_, ?_⟩⟩
    · refine execSimple_reached (fun htype hnil => ?_) a b g
      -- a segment without text has no token
      rw [scmd_of_parseExec hparse] at hnil
      subst hnil
      have hloop : Except.ok (execCmdCreate []) = Except.ok e := (fold_of_parseExec hparse).1
      cases hloop
      cases htype
    · intro m evs hrun ev hev
      obtain ⟨himage, hfds⟩ := execSimple_execs hrun hev
      have hin : inputOf e a = fileFor (tokens s) .input .rdonly a :=
        regular_eq_fileFor htoks hparse .input .rdonly a
      have hout : outputOf e b = fileFor (tokens s) .output .creatTrunc b :=
        regular_eq_fileFor htoks hparse .output .creatTrunc b
      rw [hin, hout, errorOf_eq htoks hparse] at hfds
      refine ⟨?_, ?_, ?_, ?_⟩
      · rw [himage, ← arguments_eq_unasked env htoks]
        exact (vectors_of_parseExec hparse).1
      · rw [hfds]
        rfl
      · rw [hfds]
        rfl
      · rw [hfds]
        rfl

/-- In `echo hi 1>f` the file gets the errors, and not the output. -/
theorem redirections_take_effect_digit :
    (∀ c, parseRedirFlow c ['1', '>', 'f'] = some { c with errFile := ['f'], type := .redir }) ∧
      Fits noVariables "echo hi 1>f".toList ∧
      ¬ RedirectionsTakeEffect noVariables "echo hi 1>f".toList := by
  refine ⟨fun c => parseRedirFlow_error c (by decide) ['f'], by decide, fun h => ?_⟩
  have htok : TakesEffect ['1', '>', 'f'] := h.1 ['1', '>', 'f'] (by decide)
  exact takesEffect_iff.mp htok (by decide)

end SistemasOperativos.Shell
