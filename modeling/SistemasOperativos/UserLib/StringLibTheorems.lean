/-
SistemasOperativos.UserLib.StringLibTheorems — the assembly of
`lib/string.c` does what its plain C does.

Both are runs of one instruction, so both are instances of the rules for
`rep` in `Lib.StringInstr`. What is left is which way to go: the test of
`memmove` picks a way on which no byte is written before it is read.
-/
import SistemasOperativos.UserLib.StringLib

namespace SistemasOperativos.UserLib.StringLib

open Lib

variable {mem : ByteMem} {dst src : Addr} {n c : BitVec 32}

/-! ## The loops as `rep` -/

theorem setLoop_eq (r : Regs) (hdf : r.df = false) (k : Nat) :
    setLoop (r.eax.extractLsb' 0 8) k r.mem r.edi = some (Nat.iterate Regs.stosb k r).mem := by
  induction k generalizing r with
  | zero =>
      rw [setLoop, if_neg (by decide), if_neg (by decide)]
      rfl
  | succ k ih =>
      have hedi : r.stosb.edi = r.edi + 1 := by
        show r.next r.edi 1 = r.edi + 1
        rw [Regs.next, hdf]
        rfl
      have hturn : ((k + 1 : Nat) : Int) - 1 = k := by omega
      rw [setLoop, if_neg (by omega), hturn, if_pos (Int.natCast_nonneg k),
        Function.iterate_succ_apply, ← ih r.stosb hdf, hedi]
      rfl

/-- A counter that starts below zero. -/
theorem setLoop_negative (c : BitVec 8) {m : Int} (hm : m < 0) (mem : ByteMem) (p : Addr) :
    setLoop c m mem p = if m = -2147483648 then none else some mem := by
  rw [setLoop, if_neg (by omega : ¬ 0 ≤ m - 1)]

theorem moveUp_eq (r : Regs) (hdf : r.df = false) (k : Nat) :
    moveUp k r.mem r.edi r.esi = (Nat.iterate Regs.movsb k r).mem := by
  induction k generalizing r with
  | zero => rfl
  | succ k ih =>
      have hedi : r.movsb.edi = r.edi + 1 := by
        show r.next r.edi 1 = r.edi + 1
        rw [Regs.next, hdf]
        rfl
      have hesi : r.movsb.esi = r.esi + 1 := by
        show r.next r.esi 1 = r.esi + 1
        rw [Regs.next, hdf]
        rfl
      rw [Function.iterate_succ_apply, ← ih r.movsb hdf, hedi, hesi]
      rfl

theorem moveDown_eq (r : Regs) (hdf : r.df = true) (k : Nat) :
    moveDown k r.mem (r.edi + 1) (r.esi + 1) = (Nat.iterate Regs.movsb k r).mem := by
  induction k generalizing r with
  | zero => rfl
  | succ k ih =>
      have hedi : r.movsb.edi = r.edi - 1 := by
        show r.next r.edi 1 = r.edi - 1
        rw [Regs.next, hdf]
        rfl
      have hesi : r.movsb.esi = r.esi - 1 := by
        show r.next r.esi 1 = r.esi - 1
        rw [Regs.next, hdf]
        rfl
      rw [Function.iterate_succ_apply, ← ih r.movsb hdf, hedi, hesi, moveDown]
      rw [BitVec.add_sub_cancel, BitVec.add_sub_cancel, BitVec.sub_add_cancel,
        BitVec.sub_add_cancel]
      rfl

/-! ## The instructions in pieces -/

theorem movsb_forward (r : Regs) (hdf : r.df = false) : r.movsb = { r with
    mem := moved r.mem r.edi r.esi 1
    esi := r.esi + BitVec.ofNat 32 1, edi := r.edi + BitVec.ofNat 32 1 } := by
  rw [Regs.movsb, movsb_mem, Regs.next, Regs.next, hdf]
  rfl

theorem movsl_forward (r : Regs) (hdf : r.df = false) : r.movsl = { r with
    mem := moved r.mem r.edi r.esi 4
    esi := r.esi + BitVec.ofNat 32 4, edi := r.edi + BitVec.ofNat 32 4 } := by
  rw [Regs.movsl, movsl_mem, Regs.next, Regs.next, hdf]
  rfl

theorem movsb_backward (r : Regs) (hdf : r.df = true) : r.movsb = { r with
    mem := moved r.mem r.edi r.esi 1
    esi := r.esi - BitVec.ofNat 32 1, edi := r.edi - BitVec.ofNat 32 1 } := by
  rw [Regs.movsb, movsb_mem, Regs.next, Regs.next, hdf]
  rfl

theorem movsl_backward (r : Regs) (hdf : r.df = true) : r.movsl = { r with
    mem := moved r.mem r.edi r.esi 4
    esi := r.esi - BitVec.ofNat 32 4, edi := r.edi - BitVec.ofNat 32 4 } := by
  rw [Regs.movsl, movsl_mem, Regs.next, Regs.next, hdf]
  rfl

/-- The number of words. -/
theorem toNat_div_four (h : n % 4 = 0) : (n / 4).toNat * 4 = n.toNat := by
  have hmod : n.toNat % 4 = 0 := by
    have := congrArg BitVec.toNat h
    rwa [BitVec.toNat_umod] at this
  have hdiv : (n / 4).toNat = n.toNat / 4 := BitVec.toNat_udiv
  omega

/-! ## `memmove` -/

/-- The test of `memmove`. -/
theorem backward_of_overlap (hdst : dst.toNat + n.toNat ≤ 4294967296)
    (h : src < dst ∧ src + n > dst) : Backward dst src n.toNat := by
  have hlt : src.toNat < dst.toNat := h.1
  right
  rw [BitVec.toNat_sub]
  omega

theorem forward_of_not_overlap (hsrc : src.toNat + n.toNat ≤ 4294967296)
    (hdst : dst.toNat + n.toNat ≤ 4294967296) (h : ¬ (src < dst ∧ src + n > dst)) :
    Forward dst src n.toNat := by
  by_cases heq : dst = src
  · exact Or.inl heq
  · right
    have hne : dst.toNat ≠ src.toNat := fun hc => heq (BitVec.eq_of_toNat_eq hc)
    have hd := dst.isLt
    have hs := src.isLt
    rw [BitVec.toNat_sub]
    by_cases hlt : src.toNat < dst.toNat
    · have hle : ¬ dst.toNat < (src + n).toNat := fun hc => h ⟨hlt, hc⟩
      rw [BitVec.toNat_add] at hle
      omega
    · omega

theorem memmove_mem (r : Regs) (hsrc : src.toNat + n.toNat ≤ 4294967296)
    (hdst : dst.toNat + n.toNat ≤ 4294967296) :
    (memmove r dst src n).mem = moved r.mem dst src n.toNat ∧ (memmove r dst src n).df = false := by
  have hn := n.isLt
  have hword : BitVec.ofNat 32 n.toNat = n := by rw [BitVec.ofNat_toNat, BitVec.setWidth_eq]
  rw [memmove]
  by_cases hover : src < dst ∧ src + n > dst
  · have hback := backward_of_overlap hdst hover
    rw [if_pos hover]
    refine ⟨?_, ?_⟩
    · dsimp only
      split
      · rename_i halign
        exact rep_backward hback hn movsl_backward rfl (by rw [hword]; rfl) (by rw [hword]; rfl)
          (toNat_div_four halign.2.2)
      · exact rep_backward hback hn movsb_backward rfl (by rw [hword]; rfl) (by rw [hword]; rfl)
          (Nat.mul_one _)
    · dsimp only
      split <;> rfl
  · have hfwd := forward_of_not_overlap hsrc hdst hover
    rw [if_neg hover]
    split
    · rename_i halign
      have hcount := toNat_div_four halign.2.2
      obtain ⟨hmem, hdf⟩ := rep_forward (r := ({ r with edi := dst, esi := src, ecx := n / 4 } : Regs).cld)
        hfwd hn movsl_forward rfl rfl rfl (Nat.le_of_eq hcount)
      refine ⟨hmem.trans ?_, hdf⟩
      exact congrArg (moved r.mem dst src) hcount
    · obtain ⟨hmem, hdf⟩ := rep_forward (r := ({ r with edi := dst, esi := src, ecx := n } : Regs).cld)
        hfwd hn movsb_forward rfl rfl rfl (Nat.le_of_eq (Nat.mul_one _))
      refine ⟨hmem.trans ?_, hdf⟩
      exact congrArg (moved r.mem dst src) (Nat.mul_one _)

theorem memmovePlain_eq (hsrc : src.toNat + n.toNat ≤ 4294967296)
    (hdst : dst.toNat + n.toNat ≤ 4294967296) :
    memmovePlain mem dst src n = moved mem dst src n.toNat := by
  have hn := n.isLt
  have hword : BitVec.ofNat 32 n.toNat = n := by rw [BitVec.ofNat_toNat, BitVec.setWidth_eq]
  rw [memmovePlain]
  by_cases hover : src < dst ∧ src + n > dst
  · have hrun := rep_backward
      (r := { mem := mem, esi := src + n - 1, edi := dst + n - 1, ecx := n, eax := 0, df := true })
      (backward_of_overlap hdst hover) hn movsb_backward rfl (by rw [hword]; rfl)
      (by rw [hword]; rfl) (Nat.mul_one _)
    have hloop := moveDown_eq
      { mem := mem, esi := src + n - 1, edi := dst + n - 1, ecx := n, eax := 0, df := true } rfl
      n.toNat
    dsimp only at hloop
    rw [BitVec.sub_add_cancel, BitVec.sub_add_cancel] at hloop
    rw [if_pos hover, hloop]
    exact hrun
  · obtain ⟨hrun, -⟩ := rep_forward
      (r := { mem := mem, esi := src, edi := dst, ecx := n, eax := 0, df := false })
      (forward_of_not_overlap hsrc hdst hover) hn movsb_forward rfl rfl rfl
      (Nat.le_of_eq (Nat.mul_one _))
    rw [if_neg hover, moveUp_eq
      { mem := mem, esi := src, edi := dst, ecx := n, eax := 0, df := false } rfl]
    exact hrun.trans (congrArg (moved mem dst src) (Nat.mul_one _))

/-- `memmove` of two regions that do not wrap, however they overlap and
whatever their alignment: `dst` gets the bytes that `src` had before, no
other byte changes, and the direction flag is clear. The plain C leaves the
same memory, and `memcpy` does the same. -/
theorem memmove_moves (r : Regs) (dst src : Addr) (n : BitVec 32)
    (hsrc : src.toNat + n.toNat ≤ 4294967296) (hdst : dst.toNat + n.toNat ≤ 4294967296) :
    (∀ i < n.toNat, (memmove r dst src n).mem (dst + BitVec.ofNat 32 i) =
        r.mem (src + BitVec.ofNat 32 i)) ∧
      (∀ x, n.toNat ≤ (x - dst).toNat → (memmove r dst src n).mem x = r.mem x) ∧
      (memmove r dst src n).df = false ∧
      (memmove r dst src n).mem = memmovePlain r.mem dst src n ∧
      memcpy r dst src n = memmove r dst src n := by
  have hn := n.isLt
  obtain ⟨hmem, hdf⟩ := memmove_mem r hsrc hdst
  refine ⟨fun i hi => ?_, fun x hx => ?_, hdf, hmem.trans (memmovePlain_eq hsrc hdst).symm, rfl⟩
  · have hdist : dst + BitVec.ofNat 32 i - dst = BitVec.ofNat 32 i := by
      rw [BitVec.add_comm, BitVec.add_sub_cancel]
    rw [hmem, moved, hdist, BitVec.toNat_ofNat, if_pos (by omega)]
  · rw [hmem, moved, if_neg (by omega)]

/-- A memory in which each byte is the low byte of its address. -/
def countingRegs : Regs :=
  { mem := fun a => a.extractLsb' 0 8, esi := 0, edi := 0, ecx := 0, eax := 0, df := false }

/-- Eight bytes moved four bytes up, over themselves, also by `memcpy`. -/
theorem memmove_moves_up : (memmove countingRegs 0x1004 0x1000 8).mem 0x1005 = 1 ∧
    (memmove countingRegs 0x1004 0x1000 8).mem 0x100B = 7 ∧
    (memmove countingRegs 0x1004 0x1000 8).mem 0x1003 = 3 ∧
    (memcpy countingRegs 0x1004 0x1000 8).mem 0x1005 = 1 := by
  obtain ⟨hin, hout, -, -, hcpy⟩ := memmove_moves countingRegs 0x1004 0x1000 8 (by decide) (by decide)
  have hfirst := (hin 1 (by decide)).trans (by decide : _ = (1 : BitVec 8))
  exact ⟨hfirst, (hin 7 (by decide)).trans (by decide), (hout 0x1003 (by decide)).trans (by decide),
    (congrArg (fun r => r.mem 0x1005) hcpy).trans hfirst⟩

/-! ## `memset` -/

theorem stosb_forward (r : Regs) {b : BitVec 8} (h : r.eax.extractLsb' 0 8 = b)
    (hdf : r.df = false) : r.stosb = { r with
      mem := filled r.mem r.edi b 1, edi := r.edi + BitVec.ofNat 32 1 } := by
  rw [Regs.stosb, storeBytes_one, h, Regs.next, hdf]
  rfl

/-- The word that `memset` makes of a byte. -/
theorem fillWord_bytes (c : BitVec 32) {i : Nat} (hi : i < 4) :
    ((c &&& 0xFF) <<< 24 ||| (c &&& 0xFF) <<< 16 ||| (c &&& 0xFF) <<< 8 |||
      (c &&& 0xFF)).extractLsb' (8 * i) 8 = c.extractLsb' 0 8 := by
  have hmask : ∀ y < 64, (0xFF : BitVec 32).getLsbD y = decide (y < 8) := by decide
  have hbyte : ∀ y < 64, (c &&& 0xFF).getLsbD y = (decide (y < 8) && c.getLsbD y) := by
    intro y hy
    rw [BitVec.getLsbD_and, hmask y hy, Bool.and_comm]
  apply BitVec.eq_of_getLsbD_eq
  intro j hj
  have hcases : i = 0 ∨ i = 1 ∨ i = 2 ∨ i = 3 := by omega
  simp only [BitVec.getLsbD_extractLsb', BitVec.getLsbD_or, BitVec.getLsbD_shiftLeft]
  rw [hbyte _ (by omega), hbyte _ (by omega), hbyte _ (by omega), hbyte _ (by omega)]
  rcases hcases with rfl | rfl | rfl | rfl <;> simp <;> grind

theorem stosl_forward (r : Regs) {b : BitVec 8} (h : ∀ i < 4, r.eax.extractLsb' (8 * i) 8 = b)
    (hdf : r.df = false) : r.stosl = { r with
      mem := filled r.mem r.edi b 4, edi := r.edi + BitVec.ofNat 32 4 } := by
  rw [Regs.stosl, stosl_mem _ _ h, Regs.next, hdf]
  rfl

/-- `memset` fills `n` bytes with the low byte of `c`, by words or by bytes.
The plain C does the same for less than 2^31 bytes; for 2^31 bytes it is
undefined, and for more it does nothing at all. -/
theorem memset_fills (r : Regs) (v : Addr) (c n : BitVec 32) :
    (∀ x, (memset r v c n).mem x =
        if (x - v).toNat < n.toNat then c.extractLsb' 0 8 else r.mem x) ∧
      (r.df = false → (memset r v c n).df = false) ∧
      memsetPlain r.mem v c n =
        if n.toNat < 2147483648 then some (memset r v c n).mem
        else if n.toNat = 2147483648 then none else some r.mem := by
  have hn := n.isLt
  have hfill : (memset r v c n).mem = filled r.mem v (c.extractLsb' 0 8) n.toNat ∧
      (r.df = false → (memset r v c n).df = false) := by
    rw [memset]
    by_cases hzero : n = 0
    · rw [if_pos hzero, hzero]
      exact ⟨(filled_zero _ _ _).symm, id⟩
    · rw [if_neg hzero]
      dsimp only
      split
      · rename_i halign
        have hcount := toNat_div_four halign.2
        obtain ⟨hmem, hdf⟩ := rep_fill (r := ({ r with
            edi := v
            eax := (c &&& 0xFF) <<< 24 ||| (c &&& 0xFF) <<< 16 ||| (c &&& 0xFF) <<< 8 ||| (c &&& 0xFF)
            ecx := n / 4 } : Regs).cld) (c := c.extractLsb' 0 8) (w := 4) rfl
          (fun r' hdf heax => stosl_forward r'
            (fun i hi => by rw [heax]; exact fillWord_bytes c hi) hdf)
          (Nat.lt_of_le_of_lt (Nat.le_of_eq hcount) hn)
        refine ⟨hmem.trans ?_, fun _ => hdf⟩
        exact congrArg (filled r.mem v _) hcount
      · obtain ⟨hmem, hdf⟩ := rep_fill (r := ({ r with edi := v, eax := c, ecx := n } : Regs).cld)
          (c := c.extractLsb' 0 8) (w := 1) rfl
          (fun r' hdf heax => stosb_forward r' (congrArg (·.extractLsb' 0 8) heax) hdf)
          (Nat.lt_of_le_of_lt (Nat.le_of_eq (Nat.mul_one _)) hn)
        refine ⟨hmem.trans ?_, fun _ => hdf⟩
        exact congrArg (filled r.mem v _) (Nat.mul_one _)
  refine ⟨fun x => by rw [hfill.1, filled], hfill.2, ?_⟩
  rw [memsetPlain, hfill.1]
  by_cases hsmall : n.toNat < 2147483648
  · have hint : n.toInt = n.toNat := BitVec.toInt_eq_toNat_of_lt (by omega)
    obtain ⟨hmem, -⟩ := rep_fill
      (r := { mem := r.mem, esi := 0, edi := v, ecx := n, eax := c, df := false })
      (c := c.extractLsb' 0 8) (w := 1) rfl
      (fun r' hdf heax => stosb_forward r' (congrArg (·.extractLsb' 0 8) heax) hdf)
      (Nat.lt_of_le_of_lt (Nat.le_of_eq (Nat.mul_one _)) hn)
    have hloop := setLoop_eq { mem := r.mem, esi := 0, edi := v, ecx := n, eax := c, df := false } rfl
      n.toNat
    have hfilled := hmem.trans (congrArg (filled r.mem v _) (Nat.mul_one _))
    rw [if_pos hsmall, hint]
    exact hloop.trans (congrArg some hfilled)
  · have hint : n.toInt = n.toNat - 4294967296 := by
      rw [BitVec.toInt_eq_toNat_cond, if_neg (by omega)]
      rfl
    rw [if_neg hsmall, hint, setLoop_negative _ (by omega)]
    have hfirst : (n.toNat : Int) - 4294967296 = -2147483648 ↔ n.toNat = 2147483648 := by omega
    simp only [hfirst]

end SistemasOperativos.UserLib.StringLib
