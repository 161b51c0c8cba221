/-
SistemasOperativos.Shell.RunCmd — `run_cmd` from the `fork` on, for a
command in the foreground, with the SIGCHLD handler of `sh.c` and
`print_status_info`.

Translation notes. The instructions of the shell, the exits of its
children and the runs of the handler interleave; the shell executes no
instruction of its own while the handler runs, and SIGCHLD is blocked
there. All children are in the shell's process group, so `waitpid(0)` may
return any of them. With `SA_RESTART` a `waitpid` that a signal interrupts
starts over, so a shell that waits is one that has yet to call it. What is
printed, and the `status` of the handler, which is its own variable, are
left out.
-/
import SistemasOperativos.Shell.Parsing
import Mathlib.Logic.Function.Basic

namespace SistemasOperativos.Shell

/-! ## Exit statuses -/

abbrev CInt := BitVec 32

abbrev Signal := { n : BitVec 7 // n ≠ 0 ∧ n ≠ 127 }

/-- How a process ends. -/
inductive Outcome where
  | exited (code : BitVec 8)
  | killed (sig : Signal) (core : Bool)
  deriving DecidableEq

/-- What `waitpid` stores. -/
def Outcome.waitStatus : Outcome → CInt
  | .exited code => code.setWidth 32 <<< 8
  | .killed sig core => sig.val.setWidth 32 ||| if core then 0x80 else 0

/-- The exit code, or minus the signal. -/
def Outcome.decoded : Outcome → CInt
  | .exited code => code.setWidth 32
  | .killed sig _ => - sig.val.setWidth 32

def wtermsig (status : CInt) : CInt := status &&& 0x7f
def wifexited (status : CInt) : Bool := wtermsig status = 0
def wexitstatus (status : CInt) : CInt := (status &&& 0xff00) >>> 8
def wifsignaled (status : CInt) : Bool := wtermsig status ≠ 0 ∧ wtermsig status ≠ 0x7f

/-- The field `scmd`; `pipe_cmd_create` leaves it empty. -/
def Cmd.scmd : Cmd → Str
  | .exec e => e.scmd
  | .back scmd _ => scmd
  | _ => []

/-- `print_status_info`: the new value of the global `status`. -/
def printStatusInfo (cmd : Cmd) (status : CInt) : CInt :=
  if cmd.scmd.length = 0 then status
  else if wifexited status then wexitstatus status
  else if wifsignaled status then - wtermsig status
  else if wtermsig status ≠ 0 then - wexitstatus status
  else status

/-! ## The shell and its children -/

inductive Child where
  | absent
  | running
  | zombie (o : Outcome)
  | reaped (o : Outcome)
  deriving DecidableEq

/-- The next instruction of `run_cmd`. -/
inductive Pc where
  | storePid
  | testBack
  | waitpid
  | printStatus
  | freeCommand
  | returned
  deriving DecidableEq, Repr

structure ShellState where
  pc : Pc
  status : CInt
  children : Nat → Child
  /-- A SIGCHLD is pending. -/
  pending : Bool
  inHandler : Bool

inductive Event where
  | childExit (q : Nat) (o : Outcome)
  | signal
  /-- One `waitpid(0, &status, WNOHANG)` of the handler. -/
  | handlerWait
  | shell
  deriving DecidableEq

def setChild (s : ShellState) (q : Nat) (c : Child) : ShellState :=
  { s with children := Function.update s.children q c }

/-- One step, while `p` runs the command `parsed` in the foreground. -/
inductive ShellStep (parsed : Cmd) (p : Nat) : ShellState → Event → ShellState → Prop where
  | childExit {s : ShellState} {q : Nat} (o : Outcome) : s.children q = .running →
      ShellStep parsed p s (.childExit q o) { setChild s q (.zombie o) with pending := true }
  | signal {s : ShellState} : s.pending = true → s.inHandler = false →
      ShellStep parsed p s .signal { s with pending := false, inHandler := true }
  | handlerReaps {s : ShellState} {q : Nat} {o : Outcome} : s.inHandler = true →
      s.children q = .zombie o → ShellStep parsed p s .handlerWait (setChild s q (.reaped o))
  | handlerReturns {s : ShellState} : s.inHandler = true →
      (∀ q o, s.children q ≠ .zombie o) →
      ShellStep parsed p s .handlerWait { s with inHandler := false }
  | storePid {s : ShellState} : s.inHandler = false → s.pc = .storePid →
      ShellStep parsed p s .shell { s with pc := .testBack }
  | testBack {s : ShellState} : s.inHandler = false → s.pc = .testBack →
      ShellStep parsed p s .shell { s with pc := .waitpid }
  | waitpid {s : ShellState} {o : Outcome} : s.inHandler = false → s.pc = .waitpid →
      s.children p = .zombie o → ShellStep parsed p s .shell
        { setChild s p (.reaped o) with pc := .printStatus, status := o.waitStatus }
  /-- There is no such child any more: -1, and `status` is not written. -/
  | waitpidFails {s : ShellState} {o : Outcome} : s.inHandler = false → s.pc = .waitpid →
      s.children p = .reaped o → ShellStep parsed p s .shell { s with pc := .printStatus }
  | printStatus {s : ShellState} : s.inHandler = false → s.pc = .printStatus →
      ShellStep parsed p s .shell
        { s with pc := .freeCommand, status := printStatusInfo parsed s.status }
  | freeCommand {s : ShellState} : s.inHandler = false → s.pc = .freeCommand →
      ShellStep parsed p s .shell { s with pc := .returned }

/-- Runs, with each step and the state it is taken in. -/
inductive ShellRun (parsed : Cmd) (p : Nat) (s₀ : ShellState) :
    ShellState → List (ShellState × Event) → Prop where
  | start : ShellRun parsed p s₀ s₀ []
  | step {s s' : ShellState} {tr : List (ShellState × Event)} {ev : Event} :
      ShellRun parsed p s₀ s tr → ShellStep parsed p s ev s' →
      ShellRun parsed p s₀ s' (tr ++ [(s, ev)])

end SistemasOperativos.Shell
