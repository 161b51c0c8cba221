/-
SistemasOperativos.Kern.Console — what is typed at the console:
`console.c`, `lib/readline.c` and the command interpreter of `monitor.c`.

Translation notes. A device is the list of values that its
`serial_proc_data` or `kbd_proc_data` returns before -1; how scan codes
become characters is left out, and so are the drivers for output. What
`mon_kerninfo` prints depends on the linker: only that it is called is
here. The loop of `getchar` polls `cons_getc`; a poll is one step of the
monitor. Interrupts are off in the monitor, and only there.
-/
import SistemasOperativos.Lib.Ring

namespace SistemasOperativos.Kern

abbrev Byte := BitVec 8

/-! ## `console.c` -/

abbrev consbufsize : Nat := 512

/-- `cons`: `buf`, `rpos` and `wpos`. -/
abbrev Cons := Ring.State Byte

/-- One turn of the loop of `cons_intr`. -/
def consPut (cons : Cons) (c : Byte) : Cons :=
  if c = 0 then cons
  else
    { cons with
      buf := Function.update cons.buf cons.wpos c
      wpos := if cons.wpos + 1 = consbufsize then 0 else cons.wpos + 1 }

def consIntr (cons : Cons) (data : List Byte) : Cons := data.foldl consPut cons

def serialIntr (serialExists : Bool) (cons : Cons) (data : List Byte) : Cons :=
  if serialExists then consIntr cons data else cons

def kbdIntr (cons : Cons) (data : List Byte) : Cons := consIntr cons data

/-- `cons_getc`, with what the two devices have at that moment. -/
def consGetc (serialExists : Bool) (cons : Cons) (serial kbd : List Byte) : Byte × Cons :=
  let cons := serialIntr serialExists cons serial
  let cons := kbdIntr cons kbd
  if cons.rpos ≠ cons.wpos then
    (cons.buf cons.rpos,
      { cons with rpos := if cons.rpos + 1 = consbufsize then 0 else cons.rpos + 1 })
  else (0, cons)

/-- What happens to the console while user programs run. -/
inductive ConsEvent where
  | serial (data : List Byte)
  | kbd (data : List Byte)
  | getc (serial kbd : List Byte)

/-- One event: the characters that `cons_getc` has returned so far, and the
buffer. Zero stands for none. -/
def consStep (serialExists : Bool) (s : List Byte × Cons) : ConsEvent → List Byte × Cons
  | .serial data => (s.1, serialIntr serialExists s.2 data)
  | .kbd data => (s.1, kbdIntr s.2 data)
  | .getc serial kbd =>
      let (c, cons) := consGetc serialExists s.2 serial kbd
      (if c = 0 then s.1 else s.1 ++ [c], cons)

/-- The `cons` of the kernel's data segment. -/
def consBoot : Cons := { buf := fun _ => 0, rpos := 0, wpos := 0 }

/-! ## `lib/readline.c` -/

abbrev buflen : Nat := 1024

/-- The static `buf`, and `i`. -/
structure Line where
  buf : Nat → Byte
  i : Nat

/-- What is printed, in pieces. -/
inductive Out where
  | text (s : String)
  | char (c : Byte)
  | str (s : List Byte)
  /-- `%e`. -/
  | error (c : Int)
  /-- What `mon_kerninfo` prints. -/
  | kerninfo
  deriving DecidableEq, Repr

inductive ReadTurn where
  | more (line : Line)
  /-- `return buf`. -/
  | line (buf : Nat → Byte)
  /-- `return NULL`. -/
  | null

/-- `cputchar`, when `echoing`. -/
def echo (echoing : Bool) (c : Byte) : List Out := if echoing then [.char c] else []

/-- One turn of the loop, for the `c` of `getchar`. -/
def readlineTurn (echoing : Bool) (s : Line) (c : Int) : ReadTurn × List Out :=
  if c < 0 then (.null, [.text "read error: ", .error c, .text "\n"])
  else if (c = 8 ∨ c = 0x7f) ∧ s.i > 0 then (.more { s with i := s.i - 1 }, echo echoing 8)
  else if c ≥ 32 ∧ s.i < buflen - 1 then
    (.more { buf := Function.update s.buf s.i (BitVec.ofInt 8 c), i := s.i + 1 },
      echo echoing (BitVec.ofInt 8 c))
  else if c = 10 ∨ c = 13 then (.line (Function.update s.buf s.i 0), echo echoing 10)
  else (.more s, [])

/-- The loop, over what `getchar` returns; it may still wait for more. The
rest of the input is not looked at. -/
def readline (echoing : Bool) : Line → List Int → Option (ReadTurn × List Out × List Int)
  | _, [] => none
  | s, c :: input =>
      match readlineTurn echoing s c with
      | (.more s, out) => do
          let (result, more, input) ← readline echoing s input
          return (result, out ++ more, input)
      | (result, out) => some (result, out, input)

/-! ## `monitor.c` -/

abbrev maxargs : Nat := 16

/-- `strchr(WHITESPACE, c)`. -/
def isWhite (c : Byte) : Bool := c == 9 || c == 13 || c == 10 || c == 32

/-- `while (*buf && strchr(WHITESPACE, *buf)) *buf++ = 0;` -/
def gobble : Nat → (Nat → Byte) → Nat → Option ((Nat → Byte) × Nat)
  | 0, _, _ => none
  | fuel + 1, buf, p =>
      if buf p ≠ 0 ∧ isWhite (buf p) then gobble fuel (Function.update buf p 0) (p + 1)
      else some (buf, p)

/-- `while (*buf && !strchr(WHITESPACE, *buf)) buf++;` -/
def scanArg : Nat → (Nat → Byte) → Nat → Option Nat
  | 0, _, _ => none
  | fuel + 1, buf, p =>
      if buf p ≠ 0 ∧ ¬ isWhite (buf p) then scanArg fuel buf (p + 1) else some p

/-- The first loop of `runcmd`: the buffer, and the first `argc` pointers of
`argv`, or nothing when there are too many. -/
def parseArgs : Nat → (Nat → Byte) → Nat → List Nat → Option ((Nat → Byte) × Option (List Nat))
  | 0, _, _, _ => none
  | fuel + 1, buf, p, argv => do
      let (buf, p) ← gobble (fuel + 1) buf p
      if buf p = 0 then return (buf, some argv)
      else if argv.length = maxargs - 1 then return (buf, none)
      else
        let next ← scanArg (fuel + 1) buf p
        parseArgs fuel buf next (argv ++ [p])

/-- The string at `p`. -/
def cString (buf : Nat → Byte) : Nat → Nat → List Byte
  | 0, _ => []
  | fuel + 1, p => if buf p = 0 then [] else buf p :: cString buf fuel (p + 1)

def strcmp : List Byte → List Byte → Int
  | [], [] => 0
  | [], d :: _ => -d.toNat
  | c :: _, [] => c.toNat
  | c :: cs, d :: ds => if c = d then strcmp cs ds else (c.toNat : Int) - d.toNat

inductive Func where
  | monHelp
  | monKerninfo
  deriving DecidableEq, Repr

structure Command where
  name : String
  desc : String
  func : Func

def commands : List Command :=
  [{ name := "help", desc := "Display this list of commands", func := .monHelp },
   { name := "kerninfo", desc := "Display information about the kernel", func := .monKerninfo }]

/-- The bytes of a text of the program. -/
def bytes (s : String) : List Byte := s.toList.map (fun c => BitVec.ofNat 8 c.toNat)

/-- What `runcmd` does with a line. -/
inductive Ran where
  | nothing
  | tooMany
  | unknown (name : List Byte)
  | invoked (func : Func) (argv : List (List Byte))
  deriving DecidableEq, Repr

/-- The texts of `runcmd` and `mon_help`. -/
def Ran.out : Ran → List Out
  | .nothing => []
  | .tooMany => [.text "Too many arguments (max 16)\n"]
  | .unknown name => [.text "Unknown command '", .str name, .text "'\n"]
  | .invoked .monHelp _ =>
      commands.flatMap fun c => [.text c.name, .text " - ", .text c.desc, .text "\n"]
  | .invoked .monKerninfo _ => [.kerninfo]

/-- The command that was found, or the message. -/
def Ran.found (name : List Byte) (args : List (List Byte)) : Option Command → Ran
  | some c => .invoked c.func (name :: args)
  | none => .unknown name

/-- Looks the command up and invokes it. -/
def invoke : List (List Byte) → Ran
  | [] => .nothing
  | name :: args =>
      .found name args (commands.find? (fun c => strcmp name (bytes c.name) = 0))

/-- `runcmd`: all commands return 0. -/
def runcmd (buf : Nat → Byte) : Option ((Nat → Byte) × Ran) := do
  let (buf, argv) ← parseArgs buflen buf 0 []
  match argv with
  | none => return (buf, .tooMany)
  | some argv => return (buf, invoke (argv.map (cString buf buflen)))

structure Monitor where
  cons : Cons
  line : Line
  /-- What the lines so far have done, and what was printed. -/
  ran : List Ran
  out : List Out

/-- `monitor` when it first waits for a character. -/
def monitorStart (cons : Cons) (buf : Nat → Byte) : Monitor where
  cons := cons
  line := { buf := buf, i := 0 }
  ran := []
  out := [.text "Welcome to the JOS kernel monitor!\n",
    .text "Type 'help' for a list of commands.\n", .text "K> "]

/-- One poll of `getchar`, and what follows up to the next one. -/
def monitorPoll (serialExists : Bool) (m : Monitor) (serial kbd : List Byte) : Option Monitor :=
  let (c, cons) := consGetc serialExists m.cons serial kbd
  if c = 0 then some { m with cons := cons }
  else
    match readlineTurn true m.line c.toNat with
    | (.more line, out) => some { m with cons := cons, line := line, out := m.out ++ out }
    | (.null, out) =>
        some { m with cons := cons, line := { m.line with i := 0 }, out := m.out ++ out ++ [.text "K> "] }
    | (.line buf, out) => do
        let (buf, ran) ← runcmd buf
        return {
          cons := cons
          line := { buf := buf, i := 0 }
          ran := m.ran ++ [ran]
          out := m.out ++ out ++ ran.out ++ [.text "K> "] }

/-- A run of the monitor: one poll after the other. -/
def monitorRun (serialExists : Bool) (m : Monitor) (polls : List (List Byte × List Byte)) :
    Option Monitor :=
  polls.foldlM (fun m poll => monitorPoll serialExists m poll.1 poll.2) m

end SistemasOperativos.Kern
