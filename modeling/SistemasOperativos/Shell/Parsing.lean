/-
SistemasOperativos.Shell.Parsing — `parsing.c`, with what it uses of
`utils.c` and `createcmd.c`.

Translation notes. `buffer` of `readline.c` is a list of characters, and a
`char *` into it is an index; a read or a write outside it is a fault, as
is a store past the end of `argv` or `eargv`. A string that a function
allocates for itself (a token, a file name) is its list of characters
without the final NUL. A `struct cmd *` is `Cmd`, with `null` for `NULL`.
The field `pid` is left out: nothing here reads it.
-/
namespace SistemasOperativos.Shell

/-! ## `defs.h` -/

abbrev endString : Char := '\x00'
abbrev space : Char := ' '
abbrev bufLen : Nat := 1024
abbrev maxArgs : Nat := 20

/-! ## `types.h` -/

abbrev Str := List Char

inductive ExecType where
  | exec
  | redir
  deriving DecidableEq, Repr

/-- `struct execcmd`. The counts are the lengths of the two lists, and an
empty file name stands for no redirection. -/
structure ExecCmd where
  type : ExecType
  scmd : Str
  argv : List Str
  eargv : List Str
  outFile : Str
  inFile : Str
  errFile : Str
  deriving DecidableEq, Repr

inductive Cmd where
  | null
  | exec (e : ExecCmd)
  | back (scmd : Str) (c : ExecCmd)
  | pipe (leftcmd rightcmd : Cmd)
  deriving DecidableEq, Repr

/-! ## The buffer -/

inductive Fault where
  | outOfBounds
  | outOfFuel
  deriving DecidableEq, Repr

abbrev Mem := List Char

def load (mem : Mem) (i : Nat) : Except Fault Char :=
  match mem[i]? with
  | some c => .ok c
  | none => .error .outOfBounds

def store (mem : Mem) (i : Nat) (c : Char) : Except Fault Mem :=
  if i < mem.length then .ok (mem.set i c) else .error .outOfBounds

/-- The loop `while (!stop(p[i])) i++`, over what is from `p` on. -/
def scan (stop : Char → Bool) : List Char → Except Fault Nat
  | [] => .error .outOfBounds
  | c :: cs => if stop c then .ok 0 else (scan stop cs).map (· + 1)

/-- The string at `buf`. -/
def cString (mem : Mem) (buf : Nat) : Except Fault Str := do
  let n ← scan (· == endString) (mem.drop buf)
  return (mem.drop buf).take n

/-- Whether `strchr` finds the character. -/
def strchr (mem : Mem) (buf : Nat) (c : Char) : Except Fault Bool := do
  let i ← scan (fun x => x == c || x == endString) (mem.drop buf)
  let x ← load mem (buf + i)
  return x == c

/-! ## `utils.c` -/

def splitLine (mem : Mem) (buf : Nat) (splitter : Char) : Except Fault (Mem × Nat) := do
  let i ← scan (fun x => x == splitter || x == endString) (mem.drop buf)
  let mem ← store mem (buf + i) endString
  let i := i + 1
  -- nothing tells this loop where the line ends
  let j ← scan (fun x => x != space) (mem.drop (buf + i))
  return (mem, buf + i + j)

def blockContains (buf : Str) (c : Char) : Int :=
  match buf.idxOf? c with
  | some i => i
  | none => -1

/-! ## `createcmd.c` -/

def execCmdCreate (bufCmd : Str) : ExecCmd where
  type := .exec
  scmd := bufCmd
  argv := []
  eargv := []
  outFile := []
  inFile := []
  errFile := []

def backCmdCreate (c : ExecCmd) : Cmd := .back c.scmd c

def pipeCmdCreate (left right : Cmd) : Cmd :=
  match right with
  | .null => left
  | right => .pipe left right

/-! ## `parsing.c` -/

/-- What the parser reads of the outside: `getenv` and the global
`status`. -/
structure Environ where
  getenv : Str → Option Str
  status : Int

def getToken (buf : Str) : Str := buf.takeWhile (· != space)

/-- `none` stands for `false`. -/
def parseRedirFlow (c : ExecCmd) (arg : Str) : Option ExecCmd :=
  let outIdx := blockContains arg '>'
  if outIdx ≥ 0 then
    let c := if outIdx = 0 then { c with outFile := arg.drop 1 }
      else if outIdx = 1 then { c with errFile := arg.drop 2 }
      else c
    some { c with type := .redir }
  else if blockContains arg '<' ≥ 0 then
    some { c with inFile := arg.drop 1, type := .redir }
  else none

def parseEnvironVar (c : ExecCmd) (arg : Str) : Except Fault (Option ExecCmd) :=
  if blockContains arg '=' > 0 then
    if blockContains arg '-' < 0 then
      if c.eargv.length < maxArgs then .ok (some { c with eargv := c.eargv ++ [arg] })
      else .error .outOfBounds
    else .ok none
  else .ok none

def expandEnvironVar (env : Environ) (arg : Str) : Str :=
  match arg with
  | '$' :: '?' :: _ => (toString env.status).toList
  | '$' :: name =>
      match env.getenv name with
      | none => []
      | some value => value
  | _ => arg

/-- The body of the loop of `parse_exec`, once it has the token. -/
def parseToken (env : Environ) (c : ExecCmd) (tok : Str) : Except Fault ExecCmd :=
  match parseRedirFlow c tok with
  | some c => .ok c
  | none => do
      match ← parseEnvironVar c tok with
      | some c => return c
      | none =>
          let tok := expandEnvironVar env tok
          if tok = [] then return c
          else if c.argv.length < maxArgs then return { c with argv := c.argv ++ [tok] }
          else throw .outOfBounds

/-- The loop of `parse_exec`, over what is left of the string. -/
def parseTokens (env : Environ) (c : ExecCmd) (buf : Str) : Except Fault ExecCmd :=
  match buf with
  | [] => .ok c
  | x :: xs => do
      let tok := getToken (x :: xs)
      let c ← parseToken env c tok
      parseTokens env c (((x :: xs).drop tok.length).drop 1)
termination_by buf.length
decreasing_by
  simp only [List.length_drop, List.length_cons]
  omega

def parseExec (env : Environ) (bufCmd : Str) : Except Fault ExecCmd := do
  let c ← parseTokens env (execCmdCreate bufCmd) bufCmd
  -- `c->argv[argc] = NULL`
  if c.argv.length < maxArgs then return c
  else throw .outOfBounds

def parseBack (env : Environ) (mem : Mem) (buf : Nat) : Except Fault (Mem × Cmd) := do
  let i ← scan (· == '&') (mem.drop buf)
  let mem ← store mem (buf + i) endString
  let e ← parseExec env (← cString mem buf)
  return (mem, backCmdCreate e)

/-- The test of `parse_cmd`: there is an `&`, and no `>` before it. -/
def runsInBack (mem : Mem) (buf : Nat) (s : Str) : Except Fault Bool :=
  let idx := blockContains s '&'
  if idx ≥ 0 then
    -- `buf_cmd[idx - 1]`, also when `idx` is 0
    if buf + idx.toNat = 0 then .error .outOfBounds
    else (load mem (buf + idx.toNat - 1)).map (· != '>')
  else .ok false

def parseCmd (env : Environ) (mem : Mem) (buf : Nat) : Except Fault (Mem × Cmd) := do
  let s ← cString mem buf
  if s.length = 0 then return (mem, .null)
  else if ← runsInBack mem buf s then parseBack env mem buf
  else
    let e ← parseExec env s
    return (mem, .exec e)

def parseLine (env : Environ) : Nat → Mem → Nat → Except Fault (Mem × Cmd)
  | 0, _, _ => .error .outOfFuel
  | fuel + 1, mem, buf => do
      let (mem, right) ← splitLine mem buf '|'
      let (mem, l) ← parseCmd env mem buf
      let again ← strchr mem right '|'
      let (mem, r) ← (if again then parseLine env fuel mem right else parseCmd env mem right)
      return (mem, pipeCmdCreate l r)

end SistemasOperativos.Shell
