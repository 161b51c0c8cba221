/-
SistemasOperativos.Fork.Stdout — the output of `primes.c`, through the
buffer that C stdio keeps for `stdout` in every process.

Translation notes. `printf` appends to the buffer of its process; on a
terminal the buffer is written out at each newline, elsewhere only at
`exit` (or at the end of `main`), and it never fills up before. A child
of `fork` starts with a copy of its parent's buffer. What is written out
by all processes makes up one text, in the order of the writes.
-/
import SistemasOperativos.Fork.Primes

namespace SistemasOperativos.Fork

abbrev Texto := List Char

/-- The text of `printf("primo %i\n", primo)`. -/
def lineaPrimo (primo : Nat) : Texto :=
  ['p', 'r', 'i', 'm', 'o', ' '] ++ Nat.toDigits 10 primo ++ ['\n']

/-- The processes, the buffer of each, and what has been written out. -/
structure Consola where
  net : Net
  buffers : Nat → Texto
  salida : Texto

/-- The buffer of process `i` is written out. -/
def Consola.flush (c : Consola) (i : Nat) : Consola :=
  { c with buffers := Function.update c.buffers i [], salida := c.salida ++ c.buffers i }

/-- One character, in a process that writes to a terminal or not. -/
def Consola.putc (terminal : Bool) (i : Nat) (c : Consola) (x : Char) : Consola :=
  let c := { c with buffers := Function.update c.buffers i (c.buffers i ++ [x]) }
  if terminal && x == '\n' then c.flush i else c

def Consola.printf (terminal : Bool) (i : Nat) (c : Consola) (texto : Texto) : Consola :=
  texto.foldl (Consola.putc terminal i) c

/-- What an instruction means to stdio. -/
inductive Stdio where
  | printf (primo : Nat)
  | fork
  | exit
  | none

def Pc.stdio : Pc → Stdio
  | .printPrimo _ primo => .printf primo
  | .cribaFork _ | .forkChild _ _ _ => .fork
  | .exit => .exit
  | _ => .none

/-- What an instruction of process `i` does to the buffers and to the
output. The child that `fork` starts gets the next free number. -/
def Consola.stdio (terminal : Bool) (i : Nat) (c : Consola) : Stdio → Consola
  | .printf primo => c.printf terminal i (lineaPrimo primo)
  | .fork => { c with buffers := Function.update c.buffers c.net.nprocs (c.buffers i) }
  | .exit => c.flush i
  | .none => c

/-- One instruction of process `i`. -/
def Consola.step (maxNumero cap : Nat) (terminal : Bool) (c : Consola) (i : Nat) : Option Consola :=
  match Fork.step maxNumero cap c.net i with
  | none => none
  | some net => some { c.stdio terminal i (c.net.procs i).pc.stdio with net := net }

def Consola.boot : Consola := ⟨Fork.boot, fun _ => [], []⟩

/-- The states after `k` instructions, in any order of the processes. -/
inductive Escribe (maxNumero cap : Nat) (terminal : Bool) : Nat → Consola → Prop where
  | boot : Escribe maxNumero cap terminal 0 .boot
  | step {k : Nat} {c c' : Consola} (i : Nat) : Escribe maxNumero cap terminal k c →
      c.step maxNumero cap terminal i = some c' → Escribe maxNumero cap terminal (k + 1) c'

end SistemasOperativos.Fork
