/-
SistemasOperativos.Shell.ReadLine — `read_line`, the tests of `builtin.c`,
`run_cmd` up to the tree of the line, and `free_command`.

Translation notes. The input is what `getchar` still delivers; nothing is
left at the end of the file. A store past `buffer` is a fault. What the
built-in commands do is left out: only which lines they take.
-/
import SistemasOperativos.Shell.Parsing

namespace SistemasOperativos.Shell

abbrev endLine : Char := '\n'

/-! ## `readline.c` -/

/-- The loop of `read_line`. `none` stands for `NULL`; otherwise the buffer,
and what is left of the input. -/
def readChars : Str → Nat → Mem → Except Fault (Option (Mem × Str))
  | [], _, _ => .ok none
  | c :: input, i, buffer => do
      if c = endLine then
        let buffer ← store buffer i endString
        return some (buffer, input)
      else
        let buffer ← store buffer i c
        readChars input (i + 1) buffer

def readLine (input : Str) : Except Fault (Option (Mem × Str)) :=
  readChars input 0 (List.replicate bufLen endString)

/-! ## `builtin.c` -/

def historyTest (_cmd : Str) : Bool := false

def cdTest (cmd : Str) : Bool :=
  cmd.take 2 == ['c', 'd'] && !(decide (cmd.length > 2) && cmd[2]? != some ' ')

def exitShellTest (cmd : Str) : Bool := cmd == ['e', 'x', 'i', 't']

def pwdTest (cmd : Str) : Bool := cmd == ['p', 'w', 'd']

/-- A built-in command takes the line. -/
def isBuiltin (cmd : Str) : Bool := historyTest cmd || cdTest cmd || exitShellTest cmd || pwdTest cmd

/-! ## `freecmd.c` -/

/-- `free_command` as the nodes it goes through; `none` where it reads
`cmd->type` of a null pointer. -/
def freeCommand : Cmd → Option Unit
  | .null => none
  | .pipe leftcmd rightcmd => do
      freeCommand leftcmd
      freeCommand rightcmd
  | .back _ _ => some ()
  | .exec _ => some ()

/-! ## `runcmd.c` -/

/-- `parsed->type == BACK` decides whether `run_cmd` calls `waitpid`. -/
def waitsFor : Cmd → Bool
  | .back _ _ => false
  | _ => true

/-- `run_cmd` up to the tree it runs; there is none for an empty line and
for a built-in command. -/
def runCmdTree (env : Environ) (fuel : Nat) (cmd : Mem) : Except Fault (Option Cmd) := do
  if (← load cmd 0) = endString then return none
  else if isBuiltin (← cString cmd 0) then return none
  else
    let (_, parsed) ← parseLine env fuel cmd 0
    return some parsed

/-- The tree that `parse_line` returns for a line that is read. -/
def readParse (env : Environ) (fuel : Nat) (input : Str) : Except Fault (Option Cmd) := do
  match ← readLine input with
  | none => return none
  | some (cmd, _) =>
      let (_, parsed) ← parseLine env fuel cmd 0
      return some parsed

/-- One turn of `run_shell`: a line is read, and parsed. -/
def readTree (env : Environ) (fuel : Nat) (input : Str) : Except Fault (Option Cmd) := do
  match ← readLine input with
  | none => return none
  | some (cmd, _) => runCmdTree env fuel cmd

end SistemasOperativos.Shell
