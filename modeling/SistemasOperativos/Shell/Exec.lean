/-
SistemasOperativos.Shell.Exec — `exec_cmd` of `exec.c`, as a program of
system calls.

Translation notes. No call fails, so the branches that print an error are
left out, `_exit` in `open_redir_fd` among them. `set_environ_vars` and
`free_command` touch no descriptor. The continuation of a `fork` in the
parent gets the child's pid.
-/
import SistemasOperativos.Lib.Process
import SistemasOperativos.Shell.Parsing

namespace SistemasOperativos.Shell

open Process

abbrev Program := Prog Str ExecCmd

abbrev stdinFileno : Nat := 0
abbrev stdoutFileno : Nat := 1
abbrev stderrFileno : Nat := 2

/-- `open_redir_fd`, with `O_RDONLY` or `O_WRONLY | O_CREAT | O_TRUNC`. -/
def openRedirFd (file : Str) (flags : Mode) (k : Nat → Program) : Program := .openFile file flags k

/-- Opens the file, and makes it descriptor `fileno`. -/
def redirectTo (file : Str) (flags : Mode) (fileno : Nat) (k : Program) : Program :=
  openRedirFd file flags fun fd => .dup2 fd fileno (.close fd k)

def redirIn (r : ExecCmd) (k : Program) : Program :=
  if r.inFile.length ≠ 0 then redirectTo r.inFile .rdonly stdinFileno k else k

def redirOut (r : ExecCmd) (k : Program) : Program :=
  if r.outFile.length ≠ 0 then redirectTo r.outFile .creatTrunc stdoutFileno k else k

def redirErr (r : ExecCmd) (k : Program) : Program :=
  if r.errFile.length ≠ 0 then
    if r.errFile = ['&', '1'] then .dup2 stdoutFileno stderrFileno k
    else redirectTo r.errFile .creatTrunc stderrFileno k
  else k

/-- The cases `EXEC` and `REDIR`. -/
def execSimple (e : ExecCmd) : Program :=
  match e.type with
  | .exec => .execvp e
  | .redir =>
      if e.scmd.length = 0 then .exit
      else redirIn e (redirOut e (redirErr e (.execvp { e with type := .exec })))

def execCmd : Cmd → Program
  -- `cmd->type` of a null pointer: the process dies
  | .null => .exit
  | .exec e => execSimple e
  | .back _ c => execSimple c
  | .pipe leftcmd rightcmd =>
      .pipe fun fd0 fd1 =>
        .fork (.close fd0 (.dup2 fd1 stdoutFileno (.close fd1 (execCmd leftcmd)))) fun leftPid =>
          .fork (.close fd1 (.dup2 fd0 stdinFileno (.close fd0 (execCmd rightcmd)))) fun rightPid =>
            .close fd0 (.close fd1 (.waitpid leftPid (.waitpid rightPid .exit)))

end SistemasOperativos.Shell
