/-
SistemasOperativos.UserLib.StringLib — `memset`, `memmove` and `memcpy` of
`lib/string.c`, which the kernel and the programs share: with `ASM`, as
they are compiled, and the plain C that `ASM` replaces.

Translation notes. The caller's registers are a parameter, as `asm` changes
some of them and the direction flag. `(int) v % 4` is only compared with
zero, so the sign does not matter. In the plain `memset` the counter is an
`int`: from 2^31 bytes on it starts below zero, and at 2^31 the first `--m`
overflows, which C leaves undefined.
-/
import SistemasOperativos.Lib.StringInstr

namespace SistemasOperativos.UserLib.StringLib

open Lib

/-! ## With `ASM` -/

def memset (r : Regs) (v : Addr) (c n : BitVec 32) : Regs :=
  if n = 0 then r
  else if v % 4 = 0 ∧ n % 4 = 0 then
    let c := c &&& 0xFF
    let c := c <<< 24 ||| c <<< 16 ||| c <<< 8 ||| c
    ({ r with edi := v, eax := c, ecx := n / 4 } : Regs).cld.rep Regs.stosl
  else ({ r with edi := v, eax := c, ecx := n } : Regs).cld.rep Regs.stosb

def memmove (r : Regs) (dst src : Addr) (n : BitVec 32) : Regs :=
  if src < dst ∧ src + n > dst then
    let s := src + n
    let d := dst + n
    if s % 4 = 0 ∧ d % 4 = 0 ∧ n % 4 = 0 then
      (({ r with edi := d - 4, esi := s - 4, ecx := n / 4 } : Regs).std.rep Regs.movsl).cld
    else (({ r with edi := d - 1, esi := s - 1, ecx := n } : Regs).std.rep Regs.movsb).cld
  else if src % 4 = 0 ∧ dst % 4 = 0 ∧ n % 4 = 0 then
    ({ r with edi := dst, esi := src, ecx := n / 4 } : Regs).cld.rep Regs.movsl
  else ({ r with edi := dst, esi := src, ecx := n } : Regs).cld.rep Regs.movsb

def memcpy (r : Regs) (dst src : Addr) (n : BitVec 32) : Regs := memmove r dst src n

/-! ## Without `ASM` -/

/-- `while (--m >= 0) *p++ = c;`; `none` where `--m` overflows. -/
def setLoop (c : BitVec 8) (m : Int) (mem : ByteMem) (p : Addr) : Option ByteMem :=
  if m = -2147483648 then none
  else if 0 ≤ m - 1 then setLoop c (m - 1) (storeBytes mem p [c]) (p + 1)
  else some mem
termination_by m.toNat

def memsetPlain (mem : ByteMem) (v : Addr) (c n : BitVec 32) : Option ByteMem :=
  setLoop (c.extractLsb' 0 8) n.toInt mem v

/-- `while (n-- > 0) *d++ = *s++;` -/
def moveUp : Nat → ByteMem → Addr → Addr → ByteMem
  | 0, mem, _, _ => mem
  | n + 1, mem, d, s => moveUp n (storeBytes mem d [mem s]) (d + 1) (s + 1)

/-- `while (n-- > 0) *--d = *--s;` -/
def moveDown : Nat → ByteMem → Addr → Addr → ByteMem
  | 0, mem, _, _ => mem
  | n + 1, mem, d, s => moveDown n (storeBytes mem (d - 1) [mem (s - 1)]) (d - 1) (s - 1)

def memmovePlain (mem : ByteMem) (dst src : Addr) (n : BitVec 32) : ByteMem :=
  if src < dst ∧ src + n > dst then moveDown n.toNat mem (dst + n) (src + n)
  else moveUp n.toNat mem dst src

end SistemasOperativos.UserLib.StringLib
