/-
SistemasOperativos.UserLib.PfentryTheorems — a page fault upcall takes the
program back to where it was.

`page_fault_handler` pushes the frame, `_pgfault_upcall` calls the handler
and then unwinds: it writes `eip` below the trap-time stack pointer, and
pops the registers, the flags and that stack pointer, in this order. What
is popped is what was pushed, because the one word that the unwinding
writes outside its frame is the scratch word of a nested fault, or is not
on the exception stack at all. A fault of the handler lies below the
handler's own stack, and by induction on the depth it leaves everything
above alone.

A stack pointer just above the exception stack is the exception: that
fault counts as an ordinary one, the frame goes to the top of the page,
and the word below the stack pointer is in it. The frame of an ordinary
fault is not aligned, so it stands no alignment checks. The upcall is not
single-stepped either, and a frame at the very bottom of the exception
stack leaves the call of the handler no room.
-/
import SistemasOperativos.UserLib.Pfentry
import SistemasOperativos.Kern.PageFaultTheorems

namespace SistemasOperativos.UserLib

open SistemasOperativos.Kern (Word Trapframe UTrapframe Store utrapframe pushUTrapframe
  sizeofUTrapframe exstkTop uxstacktop length_bytes pushUTrapframe_cases)
open SistemasOperativos.Lib

/-! ## Straight-line code -/

variable {u u' x y : User} {r q : Reg} {v a : Word} {mapped : Word → Bool}

theorem execAll_append (is js : List Instr) (u : User) :
    execAll mapped (is ++ js) u = (execAll mapped is u).bind (execAll mapped js) := by
  induction is generalizing u with
  | nil => rfl
  | cons i is ih =>
      rw [List.cons_append, execAll, execAll]
      split
      · exact ih _
      · rfl

/-- Code that is not stopped does what its instructions do. -/
theorem execAll_eq {is : List Instr} (h : execAll mapped is u = some u') :
    u' = is.foldl Instr.exec u := by
  induction is generalizing u with
  | nil =>
      cases h
      rfl
  | cons i is ih =>
      rw [execAll] at h
      split at h
      · exact ih h
      · cases h

@[simp] theorem set_self : (u.set r v).reg r = v := by
  simp [User.set]

@[simp] theorem set_of_ne (h : q ≠ r) : (u.set r v).reg q = u.reg q := by
  simp [User.set, h]

@[simp] theorem set_mem : (u.set r v).mem = u.mem := rfl

@[simp] theorem set_eflags : (u.set r v).eflags = u.eflags := rfl

@[simp] theorem set_eip : (u.set r v).eip = u.eip := rfl

@[simp] theorem setStatus_reg : (u.setStatus v).reg = u.reg := rfl

@[simp] theorem setStatus_mem : (u.setStatus v).mem = u.mem := rfl

@[simp] theorem setStatus_eip : (u.setStatus v).eip = u.eip := rfl

/-! ## Flags -/

/-- The flags that neither the processor nor compiled code touches. -/
abbrev flKept : Word := ~~~(flStatus ||| flDF ||| flRF)

/-- The flags that `popfl` does not load. -/
abbrev flSystem : Word := ~~~(flUser ||| flRF)

/-- Some flags are the same as before: so are fewer of them. -/
theorem flags_mono {f g mask mask' : Word} (hmask : mask &&& mask' = mask')
    (h : f &&& mask = g &&& mask) : f &&& mask' = g &&& mask' := by
  calc f &&& mask' = f &&& mask &&& mask' := by rw [BitVec.and_assoc, hmask]
    _ = g &&& mask' := by rw [h, BitVec.and_assoc, hmask]

/-- An addition leaves the other flags alone. -/
theorem setStatus_flags {mask : Word} (hin : ~~~flStatus &&& mask = mask)
    (hout : flStatus &&& mask = 0#32) : (u.setStatus v).eflags &&& mask = u.eflags &&& mask := by
  show ((u.eflags &&& ~~~flStatus) ||| (v &&& flStatus)) &&& mask = _
  rw [BitVec.and_or_distrib_right, BitVec.and_assoc, BitVec.and_assoc, hin, hout, BitVec.and_zero,
    BitVec.or_zero]

/-- The trap sets `FL_RF` in the flags that it saves. -/
theorem saved_flags {f mask : Word} (hout : flRF &&& mask = 0#32) :
    (f ||| flRF) &&& mask = f &&& mask := by
  rw [BitVec.and_or_distrib_right, hout, BitVec.or_zero]

/-- `popfl` puts back the flags of the trap, if what it does not load has
not changed. -/
theorem popfl_flags {f c : Word} (hsystem : c &&& flSystem = f &&& flSystem) :
    (((f ||| flRF) &&& flUser) ||| (c &&& flSystem)) &&& ~~~flRF = f &&& ~~~flRF := by
  have huser : (f ||| flRF) &&& flUser = f &&& flUser := saved_flags (by decide)
  rw [huser, hsystem, ← BitVec.and_or_distrib_left, BitVec.and_assoc,
    show (flUser ||| flSystem) &&& ~~~flRF = ~~~flRF by decide]

/-! ## The two halves of the upcall -/

/-- The handler is entered with two more words on the stack. -/
theorem callHandler_state (p : Upcall) (u : User) :
    (p.callHandler.foldl Instr.exec u).esp = u.esp - 8 ∧
    (p.callHandler.foldl Instr.exec u).eflags = u.eflags ∧
    (p.callHandler.foldl Instr.exec u).mem =
      storeWord (storeWord u.mem (u.esp - 4) u.esp) (u.esp - 8) p.returnAddr := by
  have hsub : u.esp - 4#32 - 4#32 = u.esp - 8#32 := by
    bv_omega
  simp [Upcall.callHandler, Instr.exec, User.esp, hsub]

/-- The frame at `x.esp + 4` gets the address of the pushed `eip` in place
of the stack pointer. -/
theorem pushEip_state (x : User) :
    (pushEip.foldl Instr.exec x).esp = x.esp + 4 ∧
    (pushEip.foldl Instr.exec x).mem =
      storeWord (storeWord x.mem (readWord x.mem (x.esp + 52) - 4) (readWord x.mem (x.esp + 44)))
        (x.esp + 52) (readWord x.mem (x.esp + 52) - 4) := by
  simp [pushEip, Instr.exec, User.esp, BitVec.add_assoc]

theorem pushEip_flags {mask : Word} (hin : ~~~flStatus &&& mask = mask)
    (hout : flStatus &&& mask = 0#32) (x : User) :
    (pushEip.foldl Instr.exec x).eflags &&& mask = x.eflags &&& mask := by
  simp only [pushEip, List.foldl_cons, List.foldl_nil, Instr.exec, set_eflags,
    setStatus_flags hin hout]

theorem restoreRegs_state (x : User) :
    (restoreRegs.foldl Instr.exec x).esp = x.esp + 40 ∧
    (restoreRegs.foldl Instr.exec x).eflags = x.eflags ∧
    (restoreRegs.foldl Instr.exec x).mem = x.mem := by
  simp [restoreRegs, Instr.exec, User.esp, BitVec.add_assoc]

/-- The offset of a register in the frame. -/
def Reg.offset : Reg → Word
  | .edi => 8
  | .esi => 12
  | .ebp => 16
  | .esp => 20
  | .ebx => 24
  | .edx => 28
  | .ecx => 32
  | .eax => 36

theorem restoreRegs_reg (x : User) {r : Reg} (hr : r ≠ .esp) :
    (restoreRegs.foldl Instr.exec x).reg r = readWord x.mem (x.esp + r.offset) := by
  cases r with
  | esp => exact absurd rfl hr
  | _ => simp [restoreRegs, Instr.exec, User.esp, Reg.offset, BitVec.add_assoc]

theorem switchBack_state (x : User) :
    (switchBack.foldl Instr.exec x).eip = readWord x.mem (readWord x.mem (x.esp + 8)) ∧
    (switchBack.foldl Instr.exec x).esp = readWord x.mem (x.esp + 8) + 4 ∧
    (switchBack.foldl Instr.exec x).mem = x.mem := by
  simp [switchBack, Instr.exec, User.esp, BitVec.add_assoc]

theorem switchBack_reg (x : User) {r : Reg} (hr : r ≠ .esp) :
    (switchBack.foldl Instr.exec x).reg r = x.reg r := by
  simp [switchBack, Instr.exec, hr]

theorem switchBack_eflags (x : User) :
    (switchBack.foldl Instr.exec x).eflags =
      (readWord x.mem (x.esp + 4) &&& flUser) ||| (x.eflags &&& flSystem) := by
  simp only [switchBack, List.foldl_cons, List.foldl_nil, Instr.exec, set_eflags, User.esp,
    set_self, set_mem, setStatus_mem]
  rw [setStatus_flags (by decide) (by decide)]

/-- What is popped, from the state `y` in which `eip` has been pushed. -/
theorem returnToFault_state (hy : y = pushEip.foldl Instr.exec x) :
    (returnToFault.foldl Instr.exec x).esp = readWord y.mem (y.esp + 48) + 4 ∧
    (∀ r ≠ .esp, (returnToFault.foldl Instr.exec x).reg r = readWord y.mem (y.esp + r.offset)) ∧
    (returnToFault.foldl Instr.exec x).eip = readWord y.mem (readWord y.mem (y.esp + 48)) ∧
    (returnToFault.foldl Instr.exec x).eflags =
      (readWord y.mem (y.esp + 44) &&& flUser) ||| (y.eflags &&& flSystem) ∧
    (returnToFault.foldl Instr.exec x).mem = y.mem := by
  obtain ⟨hesp₂, hflags₂, hmem₂⟩ := restoreRegs_state y
  obtain ⟨heip₃, hesp₃, hmem₃⟩ := switchBack_state (restoreRegs.foldl Instr.exec y)
  have hflags₃ := switchBack_eflags (restoreRegs.foldl Instr.exec y)
  have hadd : y.esp + 40 + 8 = y.esp + 48 ∧ y.esp + 40 + 4 = y.esp + 44 := by
    bv_omega
  rw [hmem₂, hesp₂] at heip₃ hesp₃ hflags₃
  rw [hadd.1] at heip₃ hesp₃
  rw [hadd.2, hflags₂] at hflags₃
  rw [returnToFault, List.foldl_append, List.foldl_append, ← hy]
  refine ⟨hesp₃, fun r hr => ?_, heip₃, hflags₃, hmem₃.trans hmem₂⟩
  rw [switchBack_reg _ hr, restoreRegs_reg _ hr]

/-! ## The frame -/

/-- The words of the frame are in memory. -/
def FrameAt (m : ByteMem) (tmp : Word) (utf : UTrapframe) : Prop :=
  ∀ i w, utf.words[i]? = some w → readWord m (tmp + BitVec.ofNat 32 (4 * i)) = w

theorem lt_of_words {utf : UTrapframe} {i : Nat} {w : Word} (h : utf.words[i]? = some w) :
    i < 13 := by
  obtain ⟨hlt, -⟩ := List.getElem?_eq_some_iff.mp h
  exact hlt

/-- The word of a register. -/
theorem words_reg {r : Reg} (hr : r ≠ .esp) : ∃ i < 12, r.offset = BitVec.ofNat 32 (4 * i) ∧
    ∀ (u : User) (faultVa err oesp : Word),
      (utrapframe (u.trapframe err oesp) faultVa).words[i]? = some (u.reg r) := by
  cases r with
  | esp => exact absurd rfl hr
  | edi => exact ⟨2, by decide, rfl, fun _ _ _ _ => rfl⟩
  | esi => exact ⟨3, by decide, rfl, fun _ _ _ _ => rfl⟩
  | ebp => exact ⟨4, by decide, rfl, fun _ _ _ _ => rfl⟩
  | ebx => exact ⟨6, by decide, rfl, fun _ _ _ _ => rfl⟩
  | edx => exact ⟨7, by decide, rfl, fun _ _ _ _ => rfl⟩
  | ecx => exact ⟨8, by decide, rfl, fun _ _ _ _ => rfl⟩
  | eax => exact ⟨9, by decide, rfl, fun _ _ _ _ => rfl⟩

theorem frameAt_storeBytes (m : ByteMem) (tmp : Word) (utf : UTrapframe) :
    FrameAt (storeBytes m tmp utf.bytes) tmp utf := by
  intro i w h
  have hi := lt_of_words h
  exact readWord_storeBytes h (by omega)

theorem FrameAt.congr {m m' : ByteMem} {tmp : Word} {utf : UTrapframe} (hf : FrameAt m tmp utf)
    (h : ∀ j < 52, m' (tmp + BitVec.ofNat 32 j) = m (tmp + BitVec.ofNat 32 j)) :
    FrameAt m' tmp utf := by
  intro i w hw
  have hi := lt_of_words hw
  rw [← hf i w hw]
  apply readWord_congr
  intro k hk
  rw [BitVec.add_assoc, ← BitVec.ofNat_add]
  exact h (4 * i + k) (by omega)

/-- The byte at `a` belongs to the frame or the scratch word that a fault
in `u` pushes. -/
def Covers (u : User) (a : Word) : Prop :=
  ∃ st ∈ (pushUTrapframe (u.trapframe 0 0) 0).1, (a - st.addr).toNat < st.bytes.length

theorem Covers.cases (h : Covers u a) :
    (u.esp < Kern.exstk ∨ u.esp > exstkTop) ∧ (a - 0xEEBFFFCB).toNat < 52 ∨
      OnStack u.esp ∧ (a - (u.esp - 56)).toNat < 56 := by
  obtain ⟨st, hst, ha⟩ := h
  have hesp : (u.trapframe 0 0).tfEsp = u.esp := rfl
  rcases pushUTrapframe_cases (u.trapframe 0 0) 0 with ⟨hordinary, hpush⟩ | ⟨hlo, hhi, hpush⟩
  · rw [hpush, List.mem_singleton] at hst
    subst hst
    exact Or.inl ⟨hordinary, ha⟩
  · refine Or.inr ⟨⟨hlo, hhi⟩, ?_⟩
    rw [hpush, hesp] at hst
    rcases List.mem_cons.mp hst with hscratch | hframe
    · subst hscratch
      rw [length_wordBytes] at ha
      bv_omega
    · rw [List.mem_singleton] at hframe
      subst hframe
      rw [length_bytes] at ha
      bv_omega

/-- Where the frame of a fault in `u` goes. -/
def frameAddr (u : User) : Word := (pushUTrapframe (u.trapframe 0 0) 0).2

theorem pageFault_esp (upcall faultVa err oesp : Word) :
    (u.pageFault upcall faultVa err oesp).esp = frameAddr u := by
  show (pushUTrapframe (u.trapframe err oesp) faultVa).2 = _
  rw [frameAddr, pushUTrapframe, pushUTrapframe, apply_ite Prod.snd, apply_ite Prod.snd]
  rfl

/-- There is room for the frame of a nested fault, and the word below the
stack pointer is not at the top of the exception stack. -/
structure Regular (u : User) : Prop where
  room : OnStack u.esp → Kern.exstk + 56 ≤ u.esp
  free : ¬ (uxstacktop ≤ u.esp ∧ u.esp < uxstacktop + 3)

/-- What the kernel has pushed for a fault in `u`. -/
structure Pushed (u : User) (utf : UTrapframe) (tmp : Word) (m : ByteMem) : Prop where
  low : Kern.exstk ≤ tmp
  high : tmp ≤ uxstacktop - 52
  frame : FrameAt m tmp utf
  apart : ∀ i < 13, Apart (u.esp - 4) (tmp + BitVec.ofNat 32 (4 * i))
  nested : OnStack u.esp → tmp + 56 = u.esp
  outside : ∀ a, OnStack u.esp ∧ u.esp ≤ a ∨ ¬ Spill a → m a = u.mem a
  least : ∀ a, Covers u a → tmp ≤ a

theorem pageFault_pushed (h : Regular u) (upcall faultVa err oesp : Word) :
    Pushed u (utrapframe (u.trapframe err oesp) faultVa) (u.pageFault upcall faultVa err oesp).esp
      (u.pageFault upcall faultVa err oesp).mem := by
  obtain ⟨hroom, hfree⟩ := h
  have hesp : (u.trapframe err oesp).tfEsp = u.esp := rfl
  rcases pushUTrapframe_cases (u.trapframe err oesp) faultVa with ⟨hordinary, hpush⟩ |
    ⟨hlo, hhi, hpush⟩
  · have hfault : (u.pageFault upcall faultVa err oesp).esp = 0xEEBFFFCB ∧
        (u.pageFault upcall faultVa err oesp).mem = storeBytes u.mem 0xEEBFFFCB
          (utrapframe (u.trapframe err oesp) faultVa).bytes := by
      simp only [User.pageFault, hpush, User.esp, set_self, set_mem]
      exact ⟨by decide, rfl⟩
    rw [hesp] at hordinary
    rw [hfault.1, hfault.2]
    refine ⟨by decide, by decide, frameAt_storeBytes _ _ _, fun i hi => ?_, fun hon => ?_,
      fun a ha => storeBytes_outside ?_, fun a ha => ?_⟩
    · rw [Apart]
      bv_omega
    · rw [OnStack] at hon
      bv_omega
    · rw [OnStack, Spill] at ha
      rw [length_bytes]
      bv_omega
    · rcases ha.cases with ⟨-, hbytes⟩ | ⟨hon, -⟩
      · bv_omega
      · rw [OnStack] at hon
        bv_omega
  · have hfault : (u.pageFault upcall faultVa err oesp).esp = u.esp - 56 ∧
        (u.pageFault upcall faultVa err oesp).mem =
          storeBytes (storeBytes u.mem (u.esp - 4) (wordBytes 0)) (u.esp - 56)
            (utrapframe (u.trapframe err oesp) faultVa).bytes := by
      have hsub : u.esp - 4 - sizeofUTrapframe = u.esp - 56 := by bv_omega
      simp only [User.pageFault, hpush, hesp, hsub, User.esp, set_self, set_mem]
      exact ⟨trivial, rfl⟩
    rw [hesp] at hlo hhi
    have hlow := hroom ⟨hlo, hhi⟩
    rw [hfault.1, hfault.2]
    refine ⟨by bv_omega, by bv_omega, frameAt_storeBytes _ _ _, fun i hi => ?_,
      fun _ => by bv_omega, fun a ha => ?_, fun a ha => ?_⟩
    · rw [Apart]
      bv_omega
    · rw [OnStack, Spill] at ha
      rw [storeBytes_outside, storeBytes_outside]
      · rw [length_wordBytes]
        bv_omega
      · rw [length_bytes]
        bv_omega
    · rcases ha.cases with ⟨hordinary, -⟩ | ⟨-, hbytes⟩
      · bv_omega
      · bv_omega

/-- What is pushed, and where the program goes on, is what
`page_fault_handler` does. -/
theorem pageFault_resumed {k : Kern.Kernel} {e : Kern.EnvIdx} {err oesp : Word}
    (hk : Kern.UpcallReady k e) (htf : (k.envs e).envTf = u.trapframe err oesp) (h : Regular u)
    (sched : Kern.Scheduler) (faultVa checkAddr : Word) :
    ∃ k' stores, Kern.pageFaultHandler sched k e faultVa checkAddr =
        ⟨stores, .ok (k', some (.run e))⟩ ∧
      (u.pageFault (k.envs e).envPgfaultUpcall faultVa err oesp).mem =
        stores.foldl (fun m (st : Store) => storeBytes m st.addr st.bytes) u.mem ∧
      (k'.envs e).envTf = { u.trapframe err oesp with
        tfEsp := (u.pageFault (k.envs e).envPgfaultUpcall faultVa err oesp).esp
        tfEip := (u.pageFault (k.envs e).envPgfaultUpcall faultVa err oesp).eip } := by
  have hroom : ¬ (Kern.exstk ≤ (k.envs e).envTf.tfEsp ∧
      (k.envs e).envTf.tfEsp < Kern.exstk + 56) := by
    have hesp : (k.envs e).envTf.tfEsp = u.esp := by rw [htf]; rfl
    have hroom := h.room
    rw [OnStack] at hroom
    rw [hesp]
    rintro ⟨hlo, hhi⟩
    have := hroom ⟨hlo, by bv_omega⟩
    bv_omega
  obtain ⟨k', heq, htf', -⟩ := hk.resumes sched faultVa checkAddr hroom
  rw [htf] at heq htf'
  refine ⟨k', _, heq, rfl, ?_⟩
  rw [htf']
  simp only [User.pageFault, User.esp, set_self, set_eip]

/-! ## The handler -/

/-- The program is back where it was. -/
structure Restored (keep : Word → Prop) (u u' : User) : Prop where
  regs : ∀ r, u'.reg r = u.reg r
  eip : u'.eip = u.eip
  eflags : u'.eflags &&& ~~~flRF = u.eflags &&& ~~~flRF
  stack : OnStack u.esp → ∀ a, u.esp ≤ a → u'.mem a = u.mem a
  kept : ∀ a, keep a → ¬ Spill a → 4 ≤ (a - (u.esp - 4)).toNat → u'.mem a = u.mem a

/-- What the handler leaves alone up to state `x`. -/
structure Keeps (keep : Word → Prop) (entry x : User) : Prop where
  flags : x.eflags &&& flKept = entry.eflags &&& flKept
  above : ∀ a, entry.esp + 8 ≤ a → x.mem a = entry.mem a
  kept : ∀ a, keep a → ¬ Spill a → x.mem a = entry.mem a

variable {keep : Word → Prop} {R : User → User → Prop} {entry : User}

/-- A handler keeps what its code keeps: its faults come back with
everything above their stack pointer as it was. -/
theorem HandlerRun.keeps (hR : ∀ x y, Fits x → R x y → Restored keep x y)
    (hentry : entry.esp ≤ entry.esp + 8) (hrun : HandlerRun keep R entry x) :
    Keeps keep entry x := by
  induction hrun with
  | entry => exact ⟨rfl, fun _ _ => rfl, fun _ _ _ => rfl⟩
  | code _ hstep ih =>
      refine ⟨hstep.flags.trans ih.flags, fun a ha => ?_, fun a hk hs => ?_⟩
      · rw [hstep.above a ha, ih.above a ha]
      · rw [hstep.kept a hk hs, ih.kept a hk hs]
  | @fault x y _ hfits hle hback ih =>
      have hr := hR x y hfits hback
      have hon : OnStack x.esp := by
        rw [OnStack]
        rw [Fits] at hfits
        bv_omega
      refine ⟨?_, fun a ha => ?_, fun a hk hs => ?_⟩
      · rw [← ih.flags]
        exact flags_mono (by decide) hr.eflags
      · rw [hr.stack hon a (by bv_omega), ih.above a ha]
      · -- the word below the stack pointer is on the exception stack
        have hslot : 4 ≤ (a - (x.esp - 4)).toNat := by
          rw [Spill] at hs
          rw [OnStack] at hon
          rw [Fits] at hfits
          bv_omega
        rw [hr.kept a hk hs hslot, ih.kept a hk hs]

/-! ## Unwinding -/

/-- `eip` is pushed on the trap-time stack, and the rest of the frame is
as it was. -/
structure EipPushed (u : User) (utf : UTrapframe) (tmp : Word) (x y : User) : Prop where
  esp : y.esp = tmp
  mem : y.mem = storeWord (storeWord x.mem (u.esp - 4) utf.utfEip) (tmp + 48) (u.esp - 4)
  words : ∀ i < 12, readWord y.mem (tmp + BitVec.ofNat 32 (4 * i)) =
    readWord x.mem (tmp + BitVec.ofNat 32 (4 * i))
  top : readWord y.mem (tmp + 48) = u.esp - 4
  slot : readWord y.mem (u.esp - 4) = utf.utfEip

theorem Pushed.eipPushed {utf : UTrapframe} {tmp : Word} {m : ByteMem} (hp : Pushed u utf tmp m)
    (hutf : utf.utfEsp = u.esp) (hx : x.esp = tmp - 4) (hframe : FrameAt x.mem tmp utf) :
    EipPushed u utf tmp x (pushEip.foldl Instr.exec x) := by
  have heip : readWord x.mem (tmp + 40) = utf.utfEip := hframe 10 _ rfl
  have htop : readWord x.mem (tmp + 48) = u.esp := (hframe 12 _ rfl).trans hutf
  have hapart : Apart (u.esp - 4) (tmp + 48) := hp.apart 12 (by decide)
  have hadd : x.esp + 4 = tmp ∧ x.esp + 44 = tmp + 40 ∧ x.esp + 52 = tmp + 48 := by
    rw [hx]
    bv_omega
  obtain ⟨hesp, hmem⟩ := pushEip_state x
  rw [hadd.1] at hesp
  rw [hadd.2.1, hadd.2.2, heip, htop] at hmem
  refine ⟨hesp, hmem, fun i hi => ?_, ?_, ?_⟩
  · rw [hmem, readWord_storeWord_of_apart, readWord_storeWord_of_apart (hp.apart i (by omega))]
    rw [Apart]
    bv_omega
  · rw [hmem, readWord_storeWord_self]
  · rw [hmem, readWord_storeWord_of_apart hapart.symm, readWord_storeWord_self]

/-- The rest of the upcall, over a frame of `u`. -/
theorem Pushed.unwind {utf : UTrapframe} {tmp : Word} {m : ByteMem} (hp : Pushed u utf tmp m)
    (hutf : utf.utfEsp = u.esp) (hx : x.esp = tmp - 4) (hframe : FrameAt x.mem tmp utf) :
    (returnToFault.foldl Instr.exec x).esp = u.esp ∧
    (∀ r ≠ .esp, (returnToFault.foldl Instr.exec x).reg r = readWord x.mem (tmp + r.offset)) ∧
    (returnToFault.foldl Instr.exec x).eip = utf.utfEip ∧
    (returnToFault.foldl Instr.exec x).eflags =
      (utf.utfEflags &&& flUser) ||| (x.eflags &&& flSystem) ∧
    (returnToFault.foldl Instr.exec x).mem =
      storeWord (storeWord x.mem (u.esp - 4) utf.utfEip) (tmp + 48) (u.esp - 4) := by
  have hpushed := hp.eipPushed hutf hx hframe
  obtain ⟨hesp, hreg, heip, hflags, hmem⟩ := returnToFault_state (x := x) rfl
  have hsystem := pushEip_flags (show ~~~flStatus &&& flSystem = flSystem by decide)
    (show flStatus &&& flSystem = 0#32 by decide) x
  rw [hpushed.esp, hpushed.top] at hesp heip
  rw [hpushed.esp] at hreg hflags
  refine ⟨?_, fun r hr => ?_, ?_, ?_, ?_⟩
  · rw [hesp]
    bv_omega
  · obtain ⟨i, hi, hoffset, -⟩ := words_reg hr
    rw [hreg r hr, hoffset]
    exact hpushed.words i hi
  · rw [heip, hpushed.slot]
  · have hword : readWord (pushEip.foldl Instr.exec x).mem (tmp + 44) = utf.utfEflags :=
      (hpushed.words 11 (by decide)).trans (hframe 11 _ rfl)
    rw [hflags, hword, hsystem]
  · rw [hmem, hpushed.mem]

/-! ## The round trip -/

/-- The handler is entered over a frame of `u`. -/
structure Entered (u : User) (utf : UTrapframe) (tmp : Word) (entry : User) : Prop where
  pushed : ∃ m, Pushed u utf tmp m ∧ ∀ a, 8 ≤ (a - (tmp - 8)).toNat → entry.mem a = m a
  esp : entry.esp = tmp - 8
  eflags : entry.eflags = u.eflags ||| flRF

theorem Regular.entered (h : Regular u) {p : Upcall} {faultVa err oesp : Word}
    (hcall : execAll p.mapped p.callHandler (u.pageFault p.entry faultVa err oesp) = some entry) :
    ∃ tmp, tmp = frameAddr u ∧
      Entered u (utrapframe (u.trapframe err oesp) faultVa) tmp entry := by
  have hp := pageFault_pushed h p.entry faultVa err oesp
  have hflags : (u.pageFault p.entry faultVa err oesp).eflags = u.eflags ||| flRF := rfl
  have htmp := pageFault_esp (u := u) p.entry faultVa err oesp
  have hentry := execAll_eq hcall
  obtain ⟨hesp, heflags, hmem⟩ := callHandler_state p (u.pageFault p.entry faultVa err oesp)
  generalize u.pageFault p.entry faultVa err oesp = u₁ at *
  refine ⟨u₁.esp, htmp, ⟨u₁.mem, hp, fun a ha => ?_⟩, ?_, ?_⟩
  · rw [hentry, hmem, storeWord_outside (by bv_omega), storeWord_outside (by bv_omega)]
  · rw [hentry, hesp]
  · rw [hentry, heflags, hflags]

/-- The handler's argument does not wrap around. -/
theorem Entered.le_add {utf : UTrapframe} {tmp : Word} (he : Entered u utf tmp entry) :
    entry.esp ≤ entry.esp + 8 := by
  obtain ⟨m, hp, -⟩ := he.pushed
  have hlow := hp.low
  have hesp := he.esp
  bv_omega

theorem Entered.returned_esp {utf : UTrapframe} {tmp : Word} (he : Entered u utf tmp entry)
    (hret : Returned entry x) : x.esp = tmp - 4 := by
  rw [hret.1, he.esp]
  bv_omega

/-- The frame is still there when the handler has returned. -/
theorem Entered.frameAt {utf : UTrapframe} {tmp : Word} (he : Entered u utf tmp entry)
    (hk : Keeps keep entry x) : FrameAt x.mem tmp utf := by
  obtain ⟨m, hp, hmem⟩ := he.pushed
  have hlow := hp.low
  have hhigh := hp.high
  have hesp := he.esp
  refine hp.frame.congr fun j hj => ?_
  rw [hk.above _ (by bv_omega), hmem _ (by bv_omega)]

/-- Above the stack pointer of a nested fault nothing is stored. -/
theorem Entered.stack {utf : UTrapframe} {tmp : Word} (he : Entered u utf tmp entry)
    (hk : Keeps keep entry x) (hon : OnStack u.esp) (ha : u.esp ≤ a) :
    storeWord (storeWord x.mem (u.esp - 4) utf.utfEip) (tmp + 48) (u.esp - 4) a = u.mem a := by
  obtain ⟨m, hp, hmem⟩ := he.pushed
  have hlow := hp.low
  have hhigh := hp.high
  have hesp := he.esp
  have htmp := hp.nested hon
  rw [storeWord_outside (by bv_omega), storeWord_outside (by bv_omega), hk.above a (by bv_omega),
    hmem a (by bv_omega), hp.outside a (Or.inl ⟨hon, ha⟩)]

/-- Outside the exception stack only the word below the stack pointer is
stored. -/
theorem Entered.kept {utf : UTrapframe} {tmp : Word} (he : Entered u utf tmp entry)
    (hk : Keeps keep entry x) (hkeep : keep a) (hspill : ¬ Spill a)
    (hslot : 4 ≤ (a - (u.esp - 4)).toNat) :
    storeWord (storeWord x.mem (u.esp - 4) utf.utfEip) (tmp + 48) (u.esp - 4) a = u.mem a := by
  obtain ⟨m, hp, hmem⟩ := he.pushed
  have hlow := hp.low
  have hhigh := hp.high
  have houtside := hp.outside a (Or.inr hspill)
  have hhandler := hk.kept a hkeep hspill
  rw [Spill] at hspill
  rw [storeWord_outside (by bv_omega), storeWord_outside hslot, hhandler, hmem a (by bv_omega),
    houtside]

theorem RoundTrip.restored {p : Upcall} (hR : ∀ x y, Fits x → R x y → Restored keep x y)
    (h : Regular u) (ht : RoundTrip p keep R u u') : Restored keep u u' := by
  obtain ⟨faultVa, err, oesp, entry, x, hcall, hrun, hret, hback⟩ := ht
  obtain ⟨tmp, -, he⟩ := h.entered hcall
  obtain ⟨m, hp, -⟩ := he.pushed
  have hk := hrun.keeps hR he.le_add
  have hframe := he.frameAt hk
  obtain ⟨hesp', hreg', heip', hflags', hmem'⟩ :=
    hp.unwind rfl (he.returned_esp hret) hframe
  rw [← execAll_eq hback] at hesp' hreg' heip' hflags' hmem'
  refine ⟨fun r => ?_, heip', ?_, fun hon a ha => ?_, fun a hkeep hspill hslot => ?_⟩
  · by_cases hr : r = .esp
    · rw [hr]
      exact hesp'
    · obtain ⟨i, -, hoffset, hword⟩ := words_reg hr
      rw [hreg' r hr, hoffset]
      exact hframe i _ (hword u faultVa err oesp)
  · rw [hflags']
    apply popfl_flags
    rw [flags_mono (by decide) hk.flags, he.eflags, saved_flags (by decide)]
  · rw [hmem', he.stack hk hon ha]
  · rw [hmem', he.kept hk hkeep hspill hslot]

theorem Fits.regular (h : Fits u) : Regular u := by
  rw [Fits] at h
  exact ⟨fun _ => h.1, fun hc => by bv_omega⟩

/-- By induction on the depth of the faults. -/
theorem FaultRun.restored {p : Upcall} {n : Nat} (h : Regular u) (ht : FaultRun p keep n u u') :
    Restored keep u u' := by
  induction n generalizing u u' with
  | zero =>
      rw [FaultRun] at ht
      exact RoundTrip.restored (fun _ _ _ hfalse => hfalse.elim) h ht
  | succ n ih =>
      rw [FaultRun] at ht
      exact RoundTrip.restored (fun _ _ hfits hback => ih hfits.regular hback) h ht

/-! ## What stops an instruction -/

theorem aligned_iff : a &&& 3 = 0 ↔ a.toNat % 4 = 0 := by
  rw [← BitVec.toNat_inj, BitVec.toNat_and]
  exact (congrArg (· = 0) (Nat.and_two_pow_sub_one_eq_mod a.toNat 2)).to_iff

theorem Accessible.add {f c : Word} (h : Accessible f a) (hc : c &&& 3 = 0) :
    Accessible f (a + c) := by
  rcases h with hoff | haligned
  · exact Or.inl hoff
  · rw [aligned_iff] at haligned hc
    refine Or.inr (aligned_iff.mpr ?_)
    rw [BitVec.toNat_add]
    omega

theorem Accessible.sub_four {f : Word} (h : Accessible f a) : Accessible f (a - 4#32) := by
  rw [BitVec.sub_eq_add_neg]
  exact h.add (by decide)

/-- Only `FL_AC` counts. -/
theorem Accessible.congr {f g : Word} (h : Accessible f a) (hac : g &&& flAC = f &&& flAC) :
    Accessible g a := by
  rwa [Accessible, hac]

@[simp] theorem accessible_setStatus :
    Accessible (u.setStatus v).eflags a ↔ Accessible u.eflags a := by
  rw [Accessible, Accessible, setStatus_flags (by decide) (by decide)]

/-- Only `FL_TF` counts. -/
theorem Unstepped.congr {f g : Word} (h : Unstepped f) (htf : g &&& flTF = f &&& flTF) :
    Unstepped g :=
  htf.trans h

@[simp] theorem unstepped_setStatus : Unstepped (u.setStatus v).eflags ↔ Unstepped u.eflags := by
  rw [Unstepped, Unstepped, setStatus_flags (by decide) (by decide)]

/-- A flag that `popfl` loads. -/
theorem popfl_loads {f c mask : Word} (hin : flUser &&& mask = mask)
    (hout : flSystem &&& mask = 0#32) :
    ((f &&& flUser) ||| (c &&& flSystem)) &&& mask = f &&& mask := by
  rw [BitVec.and_or_distrib_right, BitVec.and_assoc, BitVec.and_assoc, hin, hout, BitVec.and_zero,
    BitVec.or_zero]

theorem accessible_popfl {f c : Word} :
    Accessible ((f &&& flUser) ||| (c &&& flSystem)) a ↔ Accessible f a := by
  rw [Accessible, Accessible, popfl_loads (by decide) (by decide)]

theorem unstepped_popfl {f c : Word} :
    Unstepped ((f &&& flUser) ||| (c &&& flSystem)) ↔ Unstepped f := by
  rw [Unstepped, Unstepped, popfl_loads (by decide) (by decide)]

theorem instr_runs_iff {i : Instr} : i.Runs mapped u ↔
    Unstepped u.eflags ∧ ∀ a ∈ i.accesses u, Accessible u.eflags a ∧ mapped a = true :=
  ⟨fun h => ⟨h.unstepped, h.accesses⟩, fun h => ⟨h.1, h.2⟩⟩

theorem callHandler_runs (p : Upcall) (htf : Unstepped u.eflags)
    (h : Accessible u.eflags u.esp) (hvar : Accessible u.eflags p.handlerVar)
    (hmvar : p.mapped p.handlerVar = true) (hm₄ : p.mapped (u.esp - 4) = true)
    (hm₈ : p.mapped (u.esp - 8) = true) :
    execAll p.mapped p.callHandler u = some (p.callHandler.foldl Instr.exec u) := by
  have h₄ := h.sub_four
  have h₈ := h₄.sub_four
  have hm₄' : p.mapped (u.reg .esp - 4#32) = true := hm₄
  have hm₈' : p.mapped (u.reg .esp - 4#32 - 4#32) = true := by
    rw [show u.reg .esp - 4#32 - 4#32 = u.reg .esp - 8 by bv_omega]
    exact hm₈
  simp [Upcall.callHandler, execAll, instr_runs_iff, Instr.accesses, Instr.exec, User.esp, htf, h₄,
    h₈, hvar, hmvar, hm₄', hm₈']

/-- The words of the frame at `tmp` are mapped. -/
def FrameMapped (mapped : Word → Bool) (tmp : Word) : Prop :=
  ∀ i < 13, mapped (tmp + BitVec.ofNat 32 (4 * i)) = true

theorem pushEip_runs {tmp : Word} (htf : Unstepped x.eflags) (hx : x.esp = tmp - 4)
    (h : Accessible x.eflags tmp) (hm : FrameMapped mapped tmp)
    (hslot : Accessible x.eflags (readWord x.mem (tmp + 48#32) - 4#32))
    (hmslot : mapped (readWord x.mem (tmp + 48#32) - 4#32) = true) :
    execAll mapped pushEip x = some (pushEip.foldl Instr.exec x) := by
  have hadd : x.reg .esp + 44#32 = tmp + 40#32 ∧ x.reg .esp + 52#32 = tmp + 48#32 := by
    rw [show x.reg .esp = tmp - 4 from hx]
    bv_omega
  have h₄₀ : Accessible x.eflags (tmp + 40#32) := h.add (by decide)
  have h₄₈ : Accessible x.eflags (tmp + 48#32) := h.add (by decide)
  have hm₄₀ : mapped (tmp + 40#32) = true := hm 10 (by decide)
  have hm₄₈ : mapped (tmp + 48#32) = true := hm 12 (by decide)
  simp [pushEip, execAll, instr_runs_iff, Instr.accesses, Instr.exec, BitVec.add_assoc, hadd.1,
    hadd.2, htf, h₄₀, h₄₈, hslot, hm₄₀, hm₄₈, hmslot]

theorem restoreRegs_runs (htf : Unstepped x.eflags) (h : Accessible x.eflags x.esp)
    (hm : FrameMapped mapped x.esp) :
    execAll mapped restoreRegs x = some (restoreRegs.foldl Instr.exec x) := by
  have h₄ : Accessible x.eflags (x.esp + 4#32) := h.add (by decide)
  have hm₀ : mapped x.esp = true := by
    have hm₀ := hm 0 (by decide)
    rwa [show x.esp + BitVec.ofNat 32 (4 * 0) = x.esp by bv_omega] at hm₀
  have hm₄ : mapped (x.esp + 4#32) = true := hm 1 (by decide)
  have hall : ∀ i < 8, Accessible x.eflags (x.esp + (8#32 + BitVec.ofNat 32 (4 * i))) ∧
      mapped (x.esp + (8#32 + BitVec.ofNat 32 (4 * i))) = true := by
    intro i hi
    refine ⟨h.add ?_, ?_⟩
    · rw [aligned_iff, BitVec.toNat_add, BitVec.toNat_ofNat, BitVec.toNat_ofNat]
      omega
    · have hmi := hm (i + 2) (by omega)
      rwa [show BitVec.ofNat 32 (4 * (i + 2)) = 8#32 + BitVec.ofNat 32 (4 * i) by
        rw [Nat.mul_add, Nat.add_comm, BitVec.ofNat_add]] at hmi
  simp [restoreRegs, execAll, instr_runs_iff, Instr.accesses, Instr.exec, User.esp,
    BitVec.add_assoc, htf, h, h₄, hm₀, hm₄]
  exact hall

theorem switchBack_runs (htf : Unstepped x.eflags) (h : Accessible x.eflags x.esp)
    (hm₄ : mapped (x.esp + 4#32) = true) (hm₈ : mapped (x.esp + 8#32) = true)
    (htf' : Unstepped (readWord x.mem (x.esp + 4#32)))
    (htop : Accessible (readWord x.mem (x.esp + 4#32)) (x.esp + 8#32))
    (hslot : Accessible (readWord x.mem (x.esp + 4#32)) (readWord x.mem (x.esp + 8#32)))
    (hmslot : mapped (readWord x.mem (x.esp + 8#32)) = true) :
    execAll mapped switchBack x = some (switchBack.foldl Instr.exec x) := by
  have h₄ : Accessible x.eflags (x.esp + 4#32) := h.add (by decide)
  simp [switchBack, execAll, instr_runs_iff, Instr.accesses, Instr.exec, User.esp,
    BitVec.add_assoc, htf, hm₄, hm₈, hmslot]
  exact ⟨h₄, ⟨unstepped_popfl.mpr htf', accessible_popfl.mpr htop⟩, unstepped_popfl.mpr htf',
    accessible_popfl.mpr hslot⟩

/-- The rest of the upcall, from the state `y` in which `eip` has been
pushed. -/
theorem returnToFault_runs (hy : execAll mapped pushEip x = some y) (htf : Unstepped y.eflags)
    (h : Accessible y.eflags y.esp) (hm : FrameMapped mapped y.esp)
    (htf' : Unstepped (readWord y.mem (y.esp + 44)))
    (htop : Accessible (readWord y.mem (y.esp + 44)) (y.esp + 48))
    (hslot : Accessible (readWord y.mem (y.esp + 44)) (readWord y.mem (y.esp + 48)))
    (hmslot : mapped (readWord y.mem (y.esp + 48)) = true) :
    execAll mapped returnToFault x = some (returnToFault.foldl Instr.exec x) := by
  have hadd : y.esp + 40 + 8#32 = y.esp + 48 ∧ y.esp + 40 + 4#32 = y.esp + 44 := by
    bv_omega
  obtain ⟨hesp₂, hflags₂, hmem₂⟩ := restoreRegs_state y
  have hback : execAll mapped switchBack (restoreRegs.foldl Instr.exec y) =
      some (switchBack.foldl Instr.exec (restoreRegs.foldl Instr.exec y)) := by
    apply switchBack_runs
    · rw [hflags₂]
      exact htf
    · rw [hflags₂, hesp₂]
      exact h.add (by decide)
    · rw [hesp₂, hadd.2]
      exact hm 11 (by decide)
    · rw [hesp₂, hadd.1]
      exact hm 12 (by decide)
    · rw [hmem₂, hesp₂, hadd.2]
      exact htf'
    · rw [hmem₂, hesp₂, hadd.1, hadd.2]
      exact htop
    · rw [hmem₂, hesp₂, hadd.1, hadd.2]
      exact hslot
    · rw [hmem₂, hesp₂, hadd.1]
      exact hmslot
  rw [returnToFault, execAll_append, execAll_append, hy, Option.bind_some,
    restoreRegs_runs htf h hm, Option.bind_some, hback, List.foldl_append, List.foldl_append,
    ← execAll_eq hy]

/-- Nothing stops it if the frame and the trap-time stack can be
accessed. -/
theorem Pushed.unwinds {utf : UTrapframe} {tmp : Word} {m : ByteMem} (hp : Pushed u utf tmp m)
    (hutf : utf.utfEsp = u.esp) (hflags : utf.utfEflags = u.eflags ||| flRF)
    (hx : x.esp = tmp - 4) (hframe : FrameAt x.mem tmp utf)
    (hkept : x.eflags &&& flKept = u.eflags &&& flKept) (htf : Unstepped u.eflags)
    (htmp : Accessible u.eflags tmp) (hm : FrameMapped mapped tmp)
    (hslot : Accessible u.eflags (u.esp - 4)) (hmslot : mapped (u.esp - 4) = true) :
    execAll mapped returnToFault x = some (returnToFault.foldl Instr.exec x) := by
  have hpushed := hp.eipPushed hutf hx hframe
  have hac : x.eflags &&& flAC = u.eflags &&& flAC := flags_mono (by decide) hkept
  have htfx : Unstepped x.eflags := htf.congr (flags_mono (by decide) hkept)
  have hac₁ := pushEip_flags (show ~~~flStatus &&& flAC = flAC by decide)
    (show flStatus &&& flAC = 0#32 by decide) x
  have htf₁ := pushEip_flags (show ~~~flStatus &&& flTF = flTF by decide)
    (show flStatus &&& flTF = 0#32 by decide) x
  rw [hac] at hac₁
  have hac₂ : utf.utfEflags &&& flAC = u.eflags &&& flAC := by
    rw [hflags, saved_flags (by decide)]
  have htf₂ : Unstepped utf.utfEflags := by
    rw [hflags]
    exact htf.congr (saved_flags (by decide))
  have hfirst : execAll mapped pushEip x = some (pushEip.foldl Instr.exec x) := by
    have htop : readWord x.mem (tmp + 48) = u.esp := (hframe 12 _ rfl).trans hutf
    refine pushEip_runs htfx hx (htmp.congr hac) hm ?_ ?_
    · rw [show tmp + 48#32 = tmp + 48 from rfl, htop]
      exact hslot.congr hac
    · rw [show tmp + 48#32 = tmp + 48 from rfl, htop]
      exact hmslot
  have hword : readWord (pushEip.foldl Instr.exec x).mem (tmp + 44) = utf.utfEflags :=
    (hpushed.words 11 (by decide)).trans (hframe 11 _ rfl)
  apply returnToFault_runs hfirst (htfx.congr htf₁)
  · rw [hpushed.esp]
    exact htmp.congr hac₁
  · rw [hpushed.esp]
    exact hm
  · rw [hpushed.esp, hword]
    exact htf₂
  · rw [hpushed.esp, hword]
    exact (htmp.add (by decide)).congr hac₂
  · rw [hpushed.esp, hword, hpushed.top]
    exact hslot.congr hac₂
  · rw [hpushed.esp, hpushed.top]
    exact hmslot

/-- No check stops the upcall. It is not single-stepped, and the alignment
checks are off, or the fault is on the exception stack and its stack
pointer is aligned. -/
structure Unchecked (u : User) : Prop where
  tf : Unstepped u.eflags
  ac : u.eflags &&& flAC = 0 ∨ OnStack u.esp ∧ u.esp &&& 3 = 0

/-- The words that the upcall uses are mapped: the frame with the two words
below it, the variable, and the word below the stack pointer. -/
structure Mapped (p : Upcall) (u : User) : Prop where
  frame : FrameMapped p.mapped (frameAddr u)
  below : p.mapped (frameAddr u - 4) = true ∧ p.mapped (frameAddr u - 8) = true
  var : p.mapped p.handlerVar = true
  slot : p.mapped (u.esp - 4) = true

theorem Unchecked.esp (h : Unchecked u) {c : Word} (hc : c &&& 3 = 0) :
    Accessible u.eflags (u.esp - c) := by
  rcases h.ac with hoff | ⟨-, haligned⟩
  · exact Or.inl hoff
  · refine Or.inr (aligned_iff.mpr ?_)
    rw [aligned_iff] at haligned hc
    rw [BitVec.toNat_sub]
    omega

theorem Unchecked.frame {utf : UTrapframe} {tmp : Word} {m : ByteMem} (h : Unchecked u)
    (hp : Pushed u utf tmp m) : Accessible u.eflags tmp := by
  rcases h.ac with hoff | ⟨hon, -⟩
  · exact Or.inl hoff
  · have htmp : tmp = u.esp - 56 := by
      have := hp.nested hon
      bv_omega
    rw [htmp]
    exact h.esp (by decide)

/-- The flags while the handler runs. -/
theorem Entered.flags {utf : UTrapframe} {tmp : Word} (he : Entered u utf tmp entry)
    (hk : Keeps keep entry x) : x.eflags &&& flKept = u.eflags &&& flKept := by
  rw [hk.flags, he.eflags, saved_flags (by decide)]

theorem Unchecked.calls {p : Upcall} (h : Unchecked u) (hreg : Regular u) (hmap : Mapped p u)
    (faultVa err oesp : Word) :
    ∃ entry, execAll p.mapped p.callHandler (u.pageFault p.entry faultVa err oesp) = some entry := by
  have hac : (u.pageFault p.entry faultVa err oesp).eflags &&& flAC = u.eflags &&& flAC :=
    saved_flags (by decide)
  have htf : (u.pageFault p.entry faultVa err oesp).eflags &&& flTF = u.eflags &&& flTF :=
    saved_flags (by decide)
  have hframe := h.frame (pageFault_pushed hreg p.entry faultVa err oesp)
  have hesp := pageFault_esp (u := u) p.entry faultVa err oesp
  refine ⟨_, callHandler_runs p (h.tf.congr htf) (hframe.congr hac) (Or.inr p.aligned) hmap.var ?_ ?_⟩
  · rw [hesp]
    exact hmap.below.1
  · rw [hesp]
    exact hmap.below.2

theorem Unchecked.returns {p : Upcall} {tmp faultVa err oesp : Word} (h : Unchecked u)
    (hmap : Mapped p u) (htmp : tmp = frameAddr u)
    (he : Entered u (utrapframe (u.trapframe err oesp) faultVa) tmp entry)
    (hk : Keeps keep entry x) (hret : Returned entry x) :
    ∃ u', execAll p.mapped returnToFault x = some u' := by
  obtain ⟨m, hp, -⟩ := he.pushed
  exact ⟨_, hp.unwinds rfl rfl (he.returned_esp hret) (he.frameAt hk) (he.flags hk) h.tf
    (h.frame hp) (htmp ▸ hmap.frame) (h.esp (by decide)) hmap.slot⟩

/-! ## Nested frames -/

/-- A fault in `z`, while the frames of the faults in `live` are on the
exception stack, the one of `u₀` first. -/
inductive Nested (p : Upcall) (keep : Word → Prop) (u₀ : User) : List User → User → Prop where
  | outer : Nested p keep u₀ [] u₀
  | inner {live : List User} {u entry x : User} {n : Nat} {faultVa err oesp : Word} :
      Nested p keep u₀ live u →
      execAll p.mapped p.callHandler (u.pageFault p.entry faultVa err oesp) = some entry →
      HandlerRun keep (FaultRun p keep n) entry x → Fits x → x.esp ≤ entry.esp →
      Nested p keep u₀ (u :: live) x

/-- A nested fault is below the frames that are live. -/
theorem Nested.lower {p : Upcall} {u₀ z : User} {live : List User} (h₀ : Regular u₀)
    (h : Nested p keep u₀ live z) :
    Regular z ∧ ∀ w ∈ live, Fits z ∧ ∀ a, Covers w a → z.esp ≤ a := by
  induction h with
  | outer => exact ⟨h₀, fun w hw => absurd hw List.not_mem_nil⟩
  | @inner live u entry x n faultVa err oesp _ hcall _ hfits hle ih =>
      obtain ⟨hreg, hlive⟩ := ih
      obtain ⟨tmp, -, he⟩ := hreg.entered hcall
      obtain ⟨m, hp, -⟩ := he.pushed
      have hlow := hp.low
      have hesp := he.esp
      refine ⟨hfits.regular, fun w hw => ⟨hfits, fun a ha => ?_⟩⟩
      rcases List.mem_cons.mp hw with rfl | hw
      · have hleast := hp.least a ha
        bv_omega
      · obtain ⟨hfits', habove⟩ := hlive w hw
        have ha' := habove a ha
        rw [Fits] at hfits'
        have hnested := hp.nested ⟨by bv_omega, hfits'.2⟩
        bv_omega

/-- A nested frame and its scratch word have no byte in common with a
frame that is live. -/
theorem Nested.apart {p : Upcall} {u₀ z w : User} {live : List User} (h₀ : Regular u₀)
    (h : Nested p keep u₀ live z) (hw : w ∈ live) (hz : Covers z a) : ¬ Covers w a := by
  intro hc
  obtain ⟨hfits, habove⟩ := (h.lower h₀).2 w hw
  have hle := habove a hc
  rw [Fits] at hfits
  rcases hz.cases with ⟨hordinary, -⟩ | ⟨-, hbytes⟩
  · bv_omega
  · bv_omega

/-! ## Faults at any depth -/

/-- For every fault that leaves room for its frame, that no check stops,
that finds its words mapped and whose stack pointer is not just above the
exception stack, and for every depth of the faults of its handlers: the upcall enters the handler, and if the handler returns
the program is back where it was. The memory at and above the stack
pointer is as it was, but for the exception stack when that was not the
stack, and for the word that wraps around. Nested frames are apart. -/
theorem fault_round_trip (p : Upcall) (n : Nat) (u : User) (faultVa err oesp : Word)
    (h : Regular u) (hun : Unchecked u) (hmap : Mapped p u) :
    (∃ entry, execAll p.mapped p.callHandler (u.pageFault p.entry faultVa err oesp) = some entry ∧
      ∀ x, HandlerRun (u.esp ≤ ·) (FaultRun p (u.esp ≤ ·) n) entry x → Returned entry x →
        ∃ u', execAll p.mapped returnToFault x = some u' ∧ (∀ r, u'.reg r = u.reg r) ∧ u'.eip = u.eip ∧
          u'.eflags &&& ~~~flRF = u.eflags &&& ~~~flRF ∧
          ∀ a, u.esp ≤ a → OnStack u.esp ∨ ¬ Spill a ∧ 4 ≤ (a - (u.esp - 4)).toNat →
            u'.mem a = u.mem a) ∧
    ∀ live z, Nested p (u.esp ≤ ·) u live z → ∀ w ∈ live, ∀ a, Covers z a → ¬ Covers w a := by
  refine ⟨?_, fun live z hn w hw a hz => hn.apart h hw hz⟩
  obtain ⟨entry, hcall⟩ := hun.calls h hmap faultVa err oesp
  refine ⟨entry, hcall, fun x hrun hret => ?_⟩
  have hback : ∀ x y, Fits x → FaultRun p (u.esp ≤ ·) n x y → Restored (u.esp ≤ ·) x y :=
    fun x y hfits hy => FaultRun.restored hfits.regular hy
  obtain ⟨tmp, htmp, he⟩ := h.entered hcall
  have hk : Keeps (u.esp ≤ ·) entry x := hrun.keeps hback he.le_add
  obtain ⟨u', hu'⟩ := hun.returns hmap htmp he hk hret
  have hr := RoundTrip.restored hback h ⟨faultVa, err, oesp, entry, x, hcall, hrun, hret, hu'⟩
  refine ⟨u', hu', hr.regs, hr.eip, hr.eflags, fun a ha hcase => ?_⟩
  rcases hcase with hon | ⟨hspill, hslot⟩
  · exact hr.stack hon a ha
  · exact hr.kept a ha hspill hslot

/-! ## A handler that returns at once -/

/-- `ret`, from state `x` of the handler. -/
def returned (entry x : User) : User :=
  { x with eip := readWord entry.mem entry.esp }.set .esp (entry.esp + 4)

theorem returned_step (keep : Word → Prop) (entry x : User) :
    CodeStep keep entry x (returned entry x) :=
  ⟨rfl, fun _ _ => rfl, fun _ _ _ => rfl⟩

theorem returned_returned (entry x : User) : Returned entry (returned entry x) :=
  ⟨set_self, rfl⟩

theorem roundTrip_returned {p : Upcall} {faultVa err oesp : Word}
    (hcall : execAll p.mapped p.callHandler (u.pageFault p.entry faultVa err oesp) = some entry)
    (hback : execAll p.mapped returnToFault (returned entry entry) = some u') : FaultRun p keep 0 u u' := by
  rw [FaultRun]
  exact ⟨faultVa, err, oesp, entry, _, hcall, .code .entry (returned_step keep entry entry),
    returned_returned entry entry, hback⟩

/-- Such a handler brings the program back. -/
theorem Regular.faultRun {p : Upcall} (h : Regular u) (hun : Unchecked u) (hmap : Mapped p u)
    (keep : Word → Prop) : ∃ u', FaultRun p keep 0 u u' := by
  obtain ⟨entry, hcall⟩ := hun.calls h hmap 0 0 0
  obtain ⟨tmp, htmp, he⟩ := h.entered hcall
  have hk : Keeps keep entry (returned entry entry) := ⟨rfl, fun _ _ => rfl, fun _ _ _ => rfl⟩
  obtain ⟨u', hback⟩ := hun.returns hmap htmp he hk (returned_returned entry entry)
  exact ⟨u', roundTrip_returned hcall hback⟩

/-- Only the page below the exception stack is not mapped. -/
def demoUpcall : Upcall where
  mapped a := a + 3 < Kern.exstk - 0x1000 || Kern.exstk ≤ a
  entry := 0x800020
  handlerVar := 0x802000
  returnAddr := 0x800027
  aligned := by decide

/-- All registers are 5, but for the stack pointer, and memory is zero. -/
def demoUser (esp eflags : Word) : User where
  reg := fun r => if r = .esp then esp else 5
  eip := 0x800100
  eflags := eflags
  mem := fun _ => 0

theorem demoUpcall_mapped {a : Word} (ha : Kern.exstk ≤ a) : demoUpcall.mapped a = true := by
  simp only [demoUpcall, Bool.or_eq_true, decide_eq_true_eq]
  exact Or.inr ha

/-- A fault on the ordinary stack finds its words. -/
theorem demoUser_mapped : Mapped demoUpcall (demoUser 0xEEBFDFF0 0x202) where
  frame := by
    intro i hi
    apply demoUpcall_mapped
    rw [show frameAddr (demoUser 0xEEBFDFF0 0x202) = 0xEEBFFFCB from rfl]
    bv_omega
  below := ⟨demoUpcall_mapped (by decide), demoUpcall_mapped (by decide)⟩
  var := by decide
  slot := by decide

/-- So does a fault on the exception stack, with room for the call of the
handler below its frame. -/
theorem mapped_onStack {u : User} (hlo : Kern.exstk + 64 ≤ u.esp) (hhi : u.esp < uxstacktop) :
    Mapped demoUpcall u := by
  have haddr : frameAddr u = u.esp - 56 := by
    rcases pushUTrapframe_cases (u.trapframe 0 0) 0 with ⟨hordinary, -⟩ | ⟨-, -, hpush⟩
    · rw [show (u.trapframe 0 0).tfEsp = u.esp from rfl] at hordinary
      bv_omega
    · rw [frameAddr, hpush, show (u.trapframe 0 0).tfEsp = u.esp from rfl]
      bv_omega
  refine ⟨fun i hi => ?_, ⟨?_, ?_⟩, by decide, ?_⟩
  · apply demoUpcall_mapped
    rw [haddr]
    bv_omega
  · apply demoUpcall_mapped
    rw [haddr]
    bv_omega
  · apply demoUpcall_mapped
    rw [haddr]
    bv_omega
  · apply demoUpcall_mapped
    bv_omega

/-- A fault on the ordinary stack, whose handler faults once and then
returns. -/
theorem fault_round_trip_twice :
    ∃ entry y u', execAll demoUpcall.mapped demoUpcall.callHandler
        ((demoUser 0xEEBFDFF0 0x202).pageFault demoUpcall.entry 0x1001 7 0) = some entry ∧
      FaultRun demoUpcall ((demoUser 0xEEBFDFF0 0x202).esp ≤ ·) 0 entry y ∧
      execAll demoUpcall.mapped returnToFault (returned entry y) = some u' ∧ u'.eip = 0x800100 ∧
      ∀ r, u'.reg r = (demoUser 0xEEBFDFF0 0x202).reg r := by
  have hreg : Regular (demoUser 0xEEBFDFF0 0x202) := ⟨by decide, by decide⟩
  obtain ⟨⟨entry, hcall, hall⟩, -⟩ := fault_round_trip demoUpcall 0 (demoUser 0xEEBFDFF0 0x202)
    0x1001 7 0 hreg ⟨by decide, Or.inl (by decide)⟩ demoUser_mapped
  -- the handler is entered eight bytes below the frame
  have hentry := execAll_eq hcall
  obtain ⟨hesp, hflags, -⟩ := callHandler_state demoUpcall
    ((demoUser 0xEEBFDFF0 0x202).pageFault demoUpcall.entry 0x1001 7 0)
  rw [← hentry] at hesp hflags
  have hfits : Fits entry := by
    rw [Fits, hesp]
    exact ⟨by decide, by decide⟩
  have hun : Unchecked entry := by
    refine ⟨?_, Or.inl ?_⟩
    · rw [hflags]
      decide
    · rw [hflags]
      decide
  have hmap : Mapped demoUpcall entry := by
    apply mapped_onStack
    · rw [hesp]
      decide
    · rw [hesp]
      decide
  obtain ⟨y, hy⟩ := hfits.regular.faultRun hun hmap ((demoUser 0xEEBFDFF0 0x202).esp ≤ ·)
  obtain ⟨u', hback, hregs, heip, -⟩ := hall (returned entry y)
    (.code (.fault .entry hfits (BitVec.le_refl _) hy) (returned_step _ entry y))
    (returned_returned entry y)
  exact ⟨entry, y, u', hcall, hy, hback, heip, hregs⟩

/-! ## Faults that are not taken back -/

/-- The frame of a fault on the ordinary stack stays on the exception
stack, which is above. -/
theorem frame_left_behind :
    ∃ u' a, FaultRun demoUpcall (fun _ => True) 0 (demoUser 0xEEBFDFF0 0x202) u' ∧
      (demoUser 0xEEBFDFF0 0x202).esp ≤ a ∧ readWord u'.mem a = 0x1001 ∧
      readWord (demoUser 0xEEBFDFF0 0x202).mem a = 0 := by
  have hreg : Regular (demoUser 0xEEBFDFF0 0x202) := ⟨by decide, by decide⟩
  have hun : Unchecked (demoUser 0xEEBFDFF0 0x202) := ⟨by decide, Or.inl (by decide)⟩
  obtain ⟨entry, hcall⟩ := hun.calls hreg demoUser_mapped 0x1001 7 0
  obtain ⟨tmp, htmp, he⟩ := hreg.entered hcall
  obtain ⟨m, hp, -⟩ := he.pushed
  have hk : Keeps (fun _ => True) entry (returned entry entry) :=
    ⟨rfl, fun _ _ => rfl, fun _ _ _ => rfl⟩
  have hframe := he.frameAt hk
  obtain ⟨u', hback⟩ := hun.returns demoUser_mapped htmp he hk (returned_returned entry entry)
  have hpushed := hp.eipPushed rfl (he.returned_esp (returned_returned entry entry)) hframe
  have hmem := (returnToFault_state (x := returned entry entry) rfl).2.2.2.2
  rw [← execAll_eq hback] at hmem
  have hlow := hp.low
  refine ⟨u', tmp + 0#32, roundTrip_returned hcall hback, ?_, ?_, ?_⟩
  · show (0xEEBFDFF0 : Word) ≤ tmp + 0#32
    bv_omega
  · rw [hmem]
    exact (hpushed.words 0 (by decide)).trans (hframe 0 _ rfl)
  · show (0#8 ++ 0#8 ++ 0#8 ++ 0#8 : Word) = 0
    decide

/-- The `eip` that is pushed at the top of the exception stack, under the
stack pointer that goes into the frame. -/
theorem overlapped_eip (m : ByteMem) :
    readWord (storeWord (storeWord m 0xEEBFFFFC 0x800100) 0xEEBFFFFB 0xEEBFFFFC) 0xEEBFFFFC =
      0xEEBFFF := by
  simp [readWord, storeWord, storeBytes, wordBytes]

/-- With the stack pointer at `UXSTACKTOP` the program goes on at another
instruction. -/
theorem resumes_elsewhere :
    ∃ u', FaultRun demoUpcall (fun _ => True) 0 (demoUser uxstacktop 0x202) u' ∧
      u'.eip = 0xEEBFFF := by
  -- the state in which the handler is entered
  have hcall := callHandler_runs demoUpcall
    (show Unstepped ((demoUser uxstacktop 0x202).pageFault demoUpcall.entry 0x1001 7 0).eflags by
      decide)
    (show Accessible ((demoUser uxstacktop 0x202).pageFault demoUpcall.entry 0x1001 7 0).eflags
      ((demoUser uxstacktop 0x202).pageFault demoUpcall.entry 0x1001 7 0).esp by decide)
    (Or.inr demoUpcall.aligned) (by decide) (by decide) (by decide)
  obtain ⟨hesp, hflags, hmem⟩ := callHandler_state demoUpcall
    ((demoUser uxstacktop 0x202).pageFault demoUpcall.entry 0x1001 7 0)
  have hesp₁ : ((demoUser uxstacktop 0x202).pageFault demoUpcall.entry 0x1001 7 0).esp =
    0xEEBFFFCB := rfl
  have hflags₁ : ((demoUser uxstacktop 0x202).pageFault demoUpcall.entry 0x1001 7 0).eflags =
    0x10202 := rfl
  have hmem₁ : ((demoUser uxstacktop 0x202).pageFault demoUpcall.entry 0x1001 7 0).mem =
    storeBytes (fun _ => 0) 0xEEBFFFCB
      (utrapframe ((demoUser uxstacktop 0x202).trapframe 7 0) 0x1001).bytes := rfl
  rw [hesp₁] at hesp hmem
  rw [hflags₁] at hflags
  rw [hmem₁] at hmem
  generalize demoUpcall.callHandler.foldl Instr.exec _ = entry at *
  have hframe : FrameAt entry.mem 0xEEBFFFCB
      (utrapframe ((demoUser uxstacktop 0x202).trapframe 7 0) 0x1001) := by
    refine (frameAt_storeBytes (fun _ => 0) _ _).congr fun j hj => ?_
    rw [hmem, storeWord_outside (by bv_omega), storeWord_outside (by bv_omega)]
  -- the two stores overlap
  have hx : (returned entry entry).esp = 0xEEBFFFC7 := by
    rw [(returned_returned entry entry).1, hesp]
    decide
  have heip : readWord entry.mem 0xEEBFFFF3 = 0x800100 := hframe 10 _ rfl
  have htop : readWord entry.mem 0xEEBFFFFB = uxstacktop := hframe 12 _ rfl
  have hkept : (returned entry entry).mem = entry.mem := rfl
  have hac : (returned entry entry).eflags &&& flAC = 0 := by
    show entry.eflags &&& flAC = 0
    rw [hflags]
    decide
  have htf : Unstepped (returned entry entry).eflags := by
    show Unstepped entry.eflags
    rw [hflags]
    decide
  have hmapped : FrameMapped demoUpcall.mapped 0xEEBFFFCB := by
    intro i hi
    apply demoUpcall_mapped
    bv_omega
  obtain ⟨hesp₂, hmem₂⟩ := pushEip_state (returned entry entry)
  have hac₂ := pushEip_flags (show ~~~flStatus &&& flAC = flAC by decide)
    (show flStatus &&& flAC = 0#32 by decide) (returned entry entry)
  have htf₂ := pushEip_flags (show ~~~flStatus &&& flTF = flTF by decide)
    (show flStatus &&& flTF = 0#32 by decide) (returned entry entry)
  rw [hac] at hac₂
  rw [hx, hkept, show (0xEEBFFFC7 : Word) + 52 = 0xEEBFFFFB by decide,
    show (0xEEBFFFC7 : Word) + 44 = 0xEEBFFFF3 by decide, heip, htop,
    show uxstacktop - 4 = 0xEEBFFFFC by decide] at hmem₂
  rw [hx, show (0xEEBFFFC7 : Word) + 4 = 0xEEBFFFCB by decide] at hesp₂
  have hfirst : execAll demoUpcall.mapped pushEip (returned entry entry) =
      some (pushEip.foldl Instr.exec (returned entry entry)) := by
    refine pushEip_runs htf hx (Or.inl hac) hmapped (Or.inl hac) ?_
    rw [hkept, show (0xEEBFFFCB : Word) + 48#32 = 0xEEBFFFFB by decide, htop]
    decide
  have hstate := returnToFault_state (x := returned entry entry) rfl
  generalize pushEip.foldl Instr.exec (returned entry entry) = y at *
  have hslot : readWord y.mem (y.esp + 48) = 0xEEBFFFFC := by
    rw [hesp₂, hmem₂]
    exact readWord_storeWord_self ..
  have hword : readWord y.mem (y.esp + 44) = 0x10202 := by
    rw [hesp₂, hmem₂, readWord_storeWord_of_apart ⟨by decide, by decide⟩,
      readWord_storeWord_of_apart ⟨by decide, by decide⟩]
    exact hframe 11 _ rfl
  have hback := returnToFault_runs hfirst (htf.congr htf₂) (Or.inl hac₂) (hesp₂ ▸ hmapped)
    (by rw [hword]; decide) (Or.inl (by rw [hword]; decide)) (Or.inl (by rw [hword]; decide))
    (by rw [hslot]; decide)
  refine ⟨_, roundTrip_returned hcall hback, ?_⟩
  rw [hstate.2.2.1, hslot, hmem₂]
  exact overlapped_eip entry.mem

/-- An upcall that is stopped at once does not come back. -/
theorem not_faultRun {p : Upcall} {keep : Word → Prop}
    (hstop : ∀ faultVa err oesp,
      ¬ (Instr.pushl .esp).Runs p.mapped (u.pageFault p.entry faultVa err oesp)) :
    ¬ ∃ u', FaultRun p keep 0 u u' := by
  rintro ⟨u', hrun⟩
  rw [FaultRun] at hrun
  obtain ⟨faultVa, err, oesp, entry, x, hcall, -⟩ := hrun
  rw [Upcall.callHandler, execAll, if_neg (hstop faultVa err oesp)] at hcall
  cases hcall

/-- With `FL_AC` the misaligned frame of a fault on the ordinary stack
stops the upcall. -/
theorem alignment_stops :
    ¬ ∃ u', FaultRun demoUpcall (fun _ => True) 0 (demoUser 0xEEBFDFF0 0x40202) u' := by
  refine not_faultRun (fun faultVa err oesp hruns => ?_)
  have hac := (hruns.accesses _ List.mem_cons_self).1
  have hesp : ((demoUser 0xEEBFDFF0 0x40202).pageFault demoUpcall.entry faultVa err oesp).esp =
    0xEEBFFFCB := rfl
  have hflags : ((demoUser 0xEEBFDFF0 0x40202).pageFault demoUpcall.entry faultVa err
    oesp).eflags = 0x50202 := rfl
  rw [hesp, hflags] at hac
  exact absurd hac (by decide)

/-- With `FL_TF` a debug exception follows the first instruction. -/
theorem stepping_stops :
    ¬ ∃ u', FaultRun demoUpcall (fun _ => True) 0 (demoUser 0xEEBFDFF0 0x302) u' := by
  refine not_faultRun (fun faultVa err oesp hruns => ?_)
  have htf := hruns.unstepped
  have hflags : ((demoUser 0xEEBFDFF0 0x302).pageFault demoUpcall.entry faultVa err
    oesp).eflags = 0x10302 := rfl
  rw [hflags] at htf
  exact absurd htf (by decide)

/-- A frame at the bottom of the exception stack leaves no room for the
call of the handler, and the page below is not mapped. -/
theorem bottom_stops :
    ¬ ∃ u', FaultRun demoUpcall (fun _ => True) 0 (demoUser (Kern.exstk + 56) 0x202) u' := by
  refine not_faultRun (fun faultVa err oesp hruns => ?_)
  have hmapped := (hruns.accesses _ List.mem_cons_self).2
  have hesp : ((demoUser (Kern.exstk + 56) 0x202).pageFault demoUpcall.entry faultVa err
    oesp).esp = Kern.exstk := (pageFault_esp ..).trans (by decide)
  rw [hesp] at hmapped
  exact absurd hmapped (by decide)

/-- Five faults that are not taken back although the handler does
nothing: one leaves its frame above the stack pointer, one goes on at
another instruction, and three do not come back at all. -/
theorem round_trip_exceptions :
    (∃ u' a, FaultRun demoUpcall (fun _ => True) 0 (demoUser 0xEEBFDFF0 0x202) u' ∧
      (demoUser 0xEEBFDFF0 0x202).esp ≤ a ∧ readWord u'.mem a = 0x1001 ∧
      readWord (demoUser 0xEEBFDFF0 0x202).mem a = 0) ∧
    (∃ u', FaultRun demoUpcall (fun _ => True) 0 (demoUser uxstacktop 0x202) u' ∧
      u'.eip = 0xEEBFFF ∧ (demoUser uxstacktop 0x202).eip = 0x800100) ∧
    (¬ ∃ u', FaultRun demoUpcall (fun _ => True) 0 (demoUser 0xEEBFDFF0 0x40202) u') ∧
    (¬ ∃ u', FaultRun demoUpcall (fun _ => True) 0 (demoUser 0xEEBFDFF0 0x302) u') ∧
    ¬ ∃ u', FaultRun demoUpcall (fun _ => True) 0 (demoUser (Kern.exstk + 56) 0x202) u' := by
  obtain ⟨u', hrun, heip⟩ := resumes_elsewhere
  exact ⟨frame_left_behind, ⟨u', hrun, heip, rfl⟩, alignment_stops, stepping_stops, bottom_stops⟩

end SistemasOperativos.UserLib
