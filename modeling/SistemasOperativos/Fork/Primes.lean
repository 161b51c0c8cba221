/-
SistemasOperativos.Fork.Primes — `primes.c` as processes that run
interleaved, one instruction at a time.

Translation notes. A pipe is a queue of `int`s with a capacity: a read
from an empty pipe waits while some process has its write end open, and a
write waits while the pipe is full. A write to a pipe that no process
reads kills the writer (SIGPIPE), and `i++` past `INT_MAX` is undefined;
both end in `crashed`. `pipe` and `fork` do not fail. A child of `fork`
has the descriptors of its parent, and the next free number. The numbers
are never negative, so they are naturals. What is announced is what
`printf` is called with; when the buffer is written out is the subject of
`SistemasOperativos.Fork.Stdout`.
-/
import Mathlib.Logic.Function.Basic

namespace SistemasOperativos.Fork

abbrev intMax : Nat := 2147483647

/-- One end of a pipe. -/
inductive End where
  | lectura (pipe : Nat)
  | escritura (pipe : Nat)
  deriving DecidableEq, Repr

/-- The next instruction of a process, with the variables it needs: `a` is
`pipe_entrada` and `b` is `nuevo_pipe`, or the pipe of
`criba_de_eratostenes`. -/
inductive Pc where
  | cribaPipe
  | cribaFork (b : Nat)
  | cribaCloseRead (b : Nat)
  /-- `generar_numeros`: the test of the loop. -/
  | generar (b i : Nat)
  | generarWrite (b i : Nat)
  | generarNext (b i : Nat)
  | cribaCloseWrite (b : Nat)
  | cribaWait
  /-- In the child; `old` is the parent's `pipe_entrada`. -/
  | childCloseWrite (a : Nat) (old : Option Nat)
  | childCloseOld (a old : Nat)
  /-- `filtrar_multiplos` from here on. -/
  | firstRead (a : Nat)
  | printPrimo (a primo : Nat)
  | nuevoPipe (a primo : Nat)
  | forkChild (a primo b : Nat)
  | closeRead (a primo b : Nat)
  | readNumero (a primo b : Nat)
  | testNumero (a primo b numero : Nat)
  | writeNumero (a primo b numero : Nat)
  | closeEntrada (a b : Nat)
  | closeWrite (a b : Nat)
  | waitChild (a : Nat)
  /-- In the child, after `filtrar_multiplos` has returned. -/
  | childCloseRead (a : Nat)
  | exit
  | done
  | crashed

def Pc.isDone : Pc → Bool
  | .done => true
  | _ => false

structure Proc where
  pc : Pc
  fds : List End
  parent : Option Nat
  printed : List Nat

structure Net where
  nprocs : Nat
  procs : Nat → Proc
  npipes : Nat
  queues : Nat → List Nat

/-! ## System calls -/

def Net.set (s : Net) (i : Nat) (p : Proc) : Net := { s with procs := Function.update s.procs i p }

/-- Process `i` goes on at `pc`. -/
def Net.goto (s : Net) (i : Nat) (pc : Pc) : Net := s.set i { s.procs i with pc := pc }

def Net.close (s : Net) (i : Nat) (e : End) (pc : Pc) : Net :=
  s.set i { s.procs i with fds := (s.procs i).fds.filter (· ≠ e), pc := pc }

def Net.pipe (s : Net) (i : Nat) (pc : Nat → Pc) : Net :=
  { s.set i { s.procs i with
      fds := .lectura s.npipes :: .escritura s.npipes :: (s.procs i).fds, pc := pc s.npipes } with
    npipes := s.npipes + 1 }

def Net.fork (s : Net) (i : Nat) (parent child : Pc) : Net :=
  { (s.goto i parent).set s.nprocs ⟨child, (s.procs i).fds, some i, []⟩ with nprocs := s.nprocs + 1 }

/-- Whether some process has this end open. -/
def Net.isOpen (s : Net) (e : End) : Prop := ∃ k, k < s.nprocs ∧ e ∈ (s.procs k).fds

instance (s : Net) (e : End) : Decidable (s.isOpen e) :=
  inferInstanceAs (Decidable (∃ k, k < s.nprocs ∧ e ∈ (s.procs k).fds))

/-- `read` of one number; `none` while it waits. -/
def Net.read (s : Net) (i a : Nat) (pc : Nat → Pc) (eof : Pc) : Option Net :=
  match s.queues a with
  | n :: rest => some { s.goto i (pc n) with queues := Function.update s.queues a rest }
  | [] => if s.isOpen (.escritura a) then none else some (s.goto i eof)

def Net.write (s : Net) (cap i b n : Nat) (pc : Pc) : Option Net :=
  if ¬ s.isOpen (.lectura b) then some (s.goto i .crashed)
  else if (s.queues b).length < cap then
    some { s.goto i pc with queues := Function.update s.queues b (s.queues b ++ [n]) }
  else none

/-- `wait(NULL)`, which waits until a child has ended. -/
def Net.wait (s : Net) (i : Nat) (pc : Pc) : Option Net :=
  if ∃ k, k < s.nprocs ∧ (s.procs k).parent = some i ∧ (s.procs k).pc.isDone = true then
    some (s.goto i pc)
  else none

/-- `printf("primo %i\n", primo)`. -/
def Net.print (s : Net) (i primo : Nat) (pc : Pc) : Net :=
  s.set i { s.procs i with printed := (s.procs i).printed ++ [primo], pc := pc }

/-! ## The program -/

/-- The next instruction of process `i`, if there is one and it does not
have to wait. -/
def step (maxNumero cap : Nat) (s : Net) (i : Nat) : Option Net :=
  if i < s.nprocs then
    match (s.procs i).pc with
    -- `criba_de_eratostenes`
    | .cribaPipe => some (s.pipe i .cribaFork)
    | .cribaFork b => some (s.fork i (.cribaCloseRead b) (.childCloseWrite b none))
    | .cribaCloseRead b => some (s.close i (.lectura b) (.generar b 2))
    | .cribaCloseWrite b => some (s.close i (.escritura b) .cribaWait)
    | .cribaWait => s.wait i .exit
    -- `generar_numeros`
    | .generar b k => some (s.goto i (if k ≤ maxNumero then .generarWrite b k else .cribaCloseWrite b))
    | .generarWrite b k => s.write cap i b k (.generarNext b k)
    | .generarNext b k => some (s.goto i (if k + 1 ≤ intMax then .generar b (k + 1) else .crashed))
    -- the two kinds of children
    | .childCloseWrite a old => some (s.close i (.escritura a) (match old with
        | none => .firstRead a
        | some c => .childCloseOld a c))
    | .childCloseOld a c => some (s.close i (.lectura c) (.firstRead a))
    | .childCloseRead a => some (s.close i (.lectura a) .exit)
    -- `filtrar_multiplos`
    | .firstRead a => s.read i a (.printPrimo a) (.childCloseRead a)
    | .printPrimo a p => some (s.print i p (.nuevoPipe a p))
    | .nuevoPipe a p => some (s.pipe i (.forkChild a p))
    | .forkChild a p b => some (s.fork i (.closeRead a p b) (.childCloseWrite b (some a)))
    | .closeRead a p b => some (s.close i (.lectura b) (.readNumero a p b))
    | .readNumero a p b => s.read i a (.testNumero a p b) (.closeEntrada a b)
    | .testNumero a p b n => some (s.goto i (if n % p ≠ 0 then .writeNumero a p b n
        else .readNumero a p b))
    | .writeNumero a p b n => s.write cap i b n (.readNumero a p b)
    | .closeEntrada a b => some (s.close i (.lectura a) (.closeWrite a b))
    | .closeWrite a b => some (s.close i (.escritura b) (.waitChild a))
    | .waitChild a => s.wait i (.childCloseRead a)
    | .exit => some (s.set i { s.procs i with fds := [], pc := .done })
    | .done => none
    | .crashed => none
  else none

/-- The process that `main` runs in. -/
def boot : Net where
  nprocs := 1
  procs := fun _ => ⟨.cribaPipe, [], none, []⟩
  npipes := 0
  queues := fun _ => []

/-- The states after `k` instructions, in any order of the processes. -/
inductive Run (maxNumero cap : Nat) : Nat → Net → Prop where
  | boot : Run maxNumero cap 0 boot
  | step {k : Nat} {s s' : Net} (i : Nat) : Run maxNumero cap k s →
      step maxNumero cap s i = some s' → Run maxNumero cap (k + 1) s'

/-- What the processes have announced, in the order of the chain. -/
def announced (s : Net) : List Nat := (List.range s.nprocs).flatMap fun i => (s.procs i).printed

end SistemasOperativos.Fork
