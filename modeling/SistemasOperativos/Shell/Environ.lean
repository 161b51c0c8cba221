/-
SistemasOperativos.Shell.Environ — `set_environ_vars` of `exec.c`.

Translation notes. The variables of a process are a function from keys to
values, as `getenv` reads them. The two buffers are arrays on the stack
whose sizes the caller computes; a store past the end of one is a fault.
`setenv` fails for a key that is empty or has an `=`, and only then; what
is printed there is left out.
-/
import Mathlib.Logic.Function.Basic
import SistemasOperativos.Shell.Parsing

namespace SistemasOperativos.Shell

abbrev Variables := Str → Option Str

/-- The text and its `END_STRING`, in an array of that size. -/
def copyInto (size : Nat) (text : Str) : Except Fault Str :=
  if text.length < size then .ok text else .error .outOfBounds

def getEnvironKey (arg : Str) (keyBuffer : Nat) : Except Fault Str := do
  -- the loop looks for an `=`, not for the end of the string
  let i ← scan (· == '=') arg
  copyInto keyBuffer (arg.take i)

def getEnvironValue (arg : Str) (valueBuffer idx : Nat) : Except Fault Str :=
  copyInto valueBuffer (arg.drop (idx + 1))

/-- `setenv(key, value, 1)`. -/
def setenv (vars : Variables) (key value : Str) : Variables :=
  if key = [] ∨ '=' ∈ key then vars else Function.update vars key (some value)

/-- The body of the loop of `set_environ_vars`. -/
def setEnvironVar (vars : Variables) (pairStr : Str) : Except Fault Variables :=
  let idxEqual := blockContains pairStr '='
  if idxEqual = -1 then .ok vars
  else do
    let keyBuffer := idxEqual.toNat + 1
    let valueBuffer := pairStr.length - idxEqual.toNat
    let key ← getEnvironKey pairStr keyBuffer
    let value ← getEnvironValue pairStr valueBuffer idxEqual.toNat
    return setenv vars key value

def setEnvironVars (vars : Variables) (eargv : List Str) : Except Fault Variables :=
  eargv.foldlM setEnvironVar vars

end SistemasOperativos.Shell
