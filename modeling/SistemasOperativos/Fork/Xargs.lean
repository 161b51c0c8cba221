/-
SistemasOperativos.Fork.Xargs — `xargs.c`: the input read a line at a
time, and the command run on `NARGS` lines at once.

Translation notes. `stdin` is an open file: its bytes, the offset, which
the children share, and the buffer of the process, which the children have
a copy of. The command runs to its end before the next line is read
(`wait`), and neither reads nor seeks on that file. Whether `execvp`
succeeds is a parameter; where it fails the child calls `exit`, and `exit`
gives what is left of its copy of the buffer back to a file that can seek.
`calloc`, `strdup` and `fork` do not fail. A pointer of `buffer_args` is
the string it points to, or nothing while it is null or its string is
free: to pass such a pointer on is a fault, as is an index past the end.
`NARGS` and the size of the buffer are parameters, and counters are
naturals. Nothing says that the loop ends, so it has fuel.
-/
import Mathlib.Data.List.Basic

namespace SistemasOperativos.Fork.Xargs

/-- A C string without its terminator, or a piece of the input. -/
abbrev Cadena := List UInt8

/-- `'\0'`. -/
abbrev nul : UInt8 := 0

/-- `'\n'`. -/
abbrev saltoDeLinea : UInt8 := 10

inductive Fault where
  | outOfBounds
  | badPointer
  | outOfFuel
  deriving DecidableEq, Repr

/-! ## What the program runs in -/

structure Entorno where
  nargs : Nat
  comando : Cadena
  /-- The size of the buffer of `stdin`. -/
  tam : Nat
  /-- `lseek` works on `stdin`: it is a file, and no pipe or terminal. -/
  seekable : Bool
  /-- Whether `execvp` fails in the `i`-th child, with these arguments. -/
  falla : Nat → List Cadena → Bool

/-! ## `stdin` -/

structure Stdin where
  archivo : Cadena
  /-- Of the open file; shared with the children. -/
  offset : Nat
  /-- What has been read from the file and not yet from the stream. -/
  buffer : Cadena
  eof : Bool
  deriving DecidableEq, Repr

def Stdin.abrir (archivo : Cadena) : Stdin := ⟨archivo, 0, [], false⟩

/-- What the process would still read if nobody moved the offset. -/
def Stdin.resto (s : Stdin) : Cadena := s.buffer ++ s.archivo.drop s.offset

/-- One byte, with a `read` when the buffer is empty. The end of the file
is sticky. -/
def Stdin.getc (tam : Nat) (s : Stdin) : Option UInt8 × Stdin :=
  match s.buffer with
  | c :: buffer => (some c, { s with buffer := buffer })
  | [] =>
      if s.eof then (none, s)
      else match (s.archivo.drop s.offset).take tam with
        | [] => (none, { s with eof := true })
        | c :: buffer =>
            (some c, { s with buffer := buffer, offset := s.offset + (buffer.length + 1) })

/-- `exit` in a child, as the parent sees it: `lseek` by the bytes that
are left in the buffer, backwards. It fails on what cannot seek, and
before the start of the file. -/
def Stdin.exit (seekable : Bool) (s : Stdin) : Stdin :=
  if seekable = true ∧ s.buffer.length ≤ s.offset then
    { s with offset := s.offset - s.buffer.length }
  else s

/-! ## `ejecutar_comando` -/

end SistemasOperativos.Fork.Xargs
