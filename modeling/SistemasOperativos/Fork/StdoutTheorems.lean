/-
SistemasOperativos.Fork.StdoutTheorems — each prime reaches a terminal
once, and a file or a pipe more than once.

On a terminal no process holds anything back when it forks, so what is
written out is what has been announced. Elsewhere the text of a process
that has announced its prime is still in its buffer when it forks, and
the child writes it out again: from then on the text written or held is
longer than the lines announced.
-/
import SistemasOperativos.Fork.PrimesTheorems
import SistemasOperativos.Fork.Stdout

namespace SistemasOperativos.Fork

variable {N cap i : Nat} {terminal : Bool} {s s' : Net} {c c' : Consola}

/-! ## What an instruction does to the processes -/

/-- Between its `printf` and its `fork`. -/
def Pc.anunciado : Pc → Bool
  | .nuevoPipe _ _ | .forkChild _ _ _ => true
  | _ => false

/-- The instructions as stdio sees them. -/
inductive Instruccion (s s' : Net) (i : Nat) : Prop where
  | printf (primo : Nat) (hstdio : (s.procs i).pc.stdio = .printf primo)
      (hpc : (s'.procs i).pc.anunciado = true) (hpre : (s.procs i).pc.preFork = true)
      (hprinted : (s'.procs i).printed = (s.procs i).printed ++ [primo])
      (hnprocs : s'.nprocs = s.nprocs) (hother : ∀ j, j ≠ i → s'.procs j = s.procs j)
  | fork (hstdio : (s.procs i).pc.stdio = .fork) (hdone : (s'.procs i).pc ≠ .done)
      (hprinted : (s'.procs i).printed = (s.procs i).printed)
      (hchild : (s'.procs s.nprocs).printed = [] ∧ (s'.procs s.nprocs).pc ≠ .done)
      (hnprocs : s'.nprocs = s.nprocs + 1)
      (hother : ∀ j, j ≠ i → j ≠ s.nprocs → s'.procs j = s.procs j)
  | exit (hstdio : (s.procs i).pc.stdio = .exit) (hpc : (s.procs i).pc.anunciado = false)
      (hprinted : (s'.procs i).printed = (s.procs i).printed)
      (hnprocs : s'.nprocs = s.nprocs) (hother : ∀ j, j ≠ i → s'.procs j = s.procs j)
  | other (hstdio : (s.procs i).pc.stdio = .none) (hdone : (s'.procs i).pc ≠ .done)
      (hpc : (s.procs i).pc.anunciado = true → (s'.procs i).pc.anunciado = true)
      (hprinted : (s'.procs i).printed = (s.procs i).printed)
      (hnprocs : s'.nprocs = s.nprocs) (hother : ∀ j, j ≠ i → s'.procs j = s.procs j)

/-- An instruction that stdio does not see, elsewhere than between `printf`
and `fork`. -/
structure Pc.Callado (pc : Pc) : Prop where
  stdio : pc.stdio = .none
  anunciado : pc.anunciado = false

theorem Pc.Callado.set (h : (s.procs i).pc.Callado) {pc : Pc} (hdone : pc ≠ .done) (fds : List End)
    (npipes : Nat) (queues : Nat → List Nat) :
    Instruccion s { s.set i { s.procs i with fds := fds, pc := pc } with
      npipes := npipes, queues := queues } i := by
  refine .other h.stdio ?_ ?_ ?_ rfl ?_
  · simpa [Net.set] using hdone
  · simp [h.anunciado]
  · simp [Net.set]
  · intro j hj
    simp [Net.set, hj]

theorem Pc.Callado.goto (h : (s.procs i).pc.Callado) {pc : Pc} (hdone : pc ≠ .done)
    (hs : some (s.goto i pc) = some s') : Instruccion s s' i := by
  cases hs
  exact h.set hdone _ s.npipes s.queues

theorem Pc.Callado.close (h : (s.procs i).pc.Callado) {e : End} {pc : Pc} (hdone : pc ≠ .done)
    (hs : some (s.close i e pc) = some s') : Instruccion s s' i := by
  cases hs
  exact h.set hdone _ s.npipes s.queues

theorem Pc.Callado.pipe (h : (s.procs i).pc.Callado) {pc : Nat → Pc} (hdone : ∀ b, pc b ≠ .done)
    (hs : some (s.pipe i pc) = some s') : Instruccion s s' i := by
  cases hs
  exact h.set (hdone _) _ (s.npipes + 1) s.queues

theorem Pc.Callado.read (h : (s.procs i).pc.Callado) {a : Nat} {pc : Nat → Pc} {eof : Pc}
    (hdone : ∀ n, pc n ≠ .done) (heof : eof ≠ .done) (hs : s.read i a pc eof = some s') :
    Instruccion s s' i := by
  rw [Net.read] at hs
  split at hs
  · cases hs
    exact h.set (hdone _) _ s.npipes _
  · split at hs
    · cases hs
    · exact h.goto heof hs

theorem Pc.Callado.write (h : (s.procs i).pc.Callado) {b n : Nat} {pc : Pc} (hdone : pc ≠ .done)
    (hs : s.write cap i b n pc = some s') : Instruccion s s' i := by
  rw [Net.write] at hs
  split at hs
  · exact h.goto Pc.noConfusion hs
  · split at hs
    · cases hs
      exact h.set hdone _ s.npipes _
    · cases hs

theorem Pc.Callado.wait (h : (s.procs i).pc.Callado) {pc : Pc} (hdone : pc ≠ .done)
    (hs : s.wait i pc = some s') : Instruccion s s' i := by
  rw [Net.wait] at hs
  split at hs
  · exact h.goto hdone hs
  · cases hs

theorem instruccion_fork (hi : i < s.nprocs) (hstdio : (s.procs i).pc.stdio = .fork) {parent child : Pc}
    (hparent : parent ≠ .done) (hchild : child ≠ .done) (hs : some (s.fork i parent child) = some s') :
    Instruccion s s' i := by
  cases hs
  have hne : i ≠ s.nprocs := Nat.ne_of_lt hi
  refine .fork hstdio ?_ ?_ ⟨?_, ?_⟩ rfl ?_
  · simpa [Net.fork, Net.goto, Net.set, hne] using hparent
  · simp [Net.fork, Net.goto, Net.set, hne]
  · simp [Net.fork, Net.set]
  · simpa [Net.fork, Net.set] using hchild
  · intro j hj hj'
    simp [Net.fork, Net.goto, Net.set, hj, hj']

theorem step_instruccion (hs : step N cap s i = some s') : i < s.nprocs ∧ Instruccion s s' i := by
  rw [step] at hs
  split at hs
  · rename_i hi
    refine ⟨hi, ?_⟩
    cases hpc : (s.procs i).pc with
    | printPrimo a p =>
        rw [hpc] at hs
        cases hs
        refine .printf p (by rw [hpc]; rfl) ?_ (by rw [hpc]; rfl) ?_ rfl ?_
        · simp [Net.print, Net.set, Pc.anunciado]
        · simp [Net.print, Net.set]
        · intro j hj
          simp [Net.print, Net.set, hj]
    | cribaFork b =>
        rw [hpc] at hs
        exact instruccion_fork hi (by rw [hpc]; rfl) Pc.noConfusion Pc.noConfusion hs
    | forkChild a p b =>
        rw [hpc] at hs
        exact instruccion_fork hi (by rw [hpc]; rfl) Pc.noConfusion Pc.noConfusion hs
    | exit =>
        rw [hpc] at hs
        cases hs
        refine .exit (by rw [hpc]; rfl) (by rw [hpc]; rfl) ?_ rfl ?_
        · simp [Net.set]
        · intro j hj
          simp [Net.set, hj]
    | nuevoPipe a p =>
        rw [hpc] at hs
        cases hs
        refine .other (by rw [hpc]; rfl) ?_ ?_ ?_ rfl ?_
        · simp [Net.pipe, Net.set]
        · simp [Net.pipe, Net.set, Pc.anunciado]
        · simp [Net.pipe, Net.set]
        · intro j hj
          simp [Net.pipe, Net.set, hj]
    | done | crashed =>
        rw [hpc] at hs
        cases hs
    | _ =>
        have hq : (s.procs i).pc.Callado := by
          rw [hpc]
          exact ⟨rfl, rfl⟩
        rw [hpc] at hs
        first
          | exact hq.pipe (fun _ => Pc.noConfusion) hs
          | exact hq.close Pc.noConfusion hs
          | exact hq.close (by split <;> exact Pc.noConfusion) hs
          | exact hq.goto (by split <;> exact Pc.noConfusion) hs
          | exact hq.read (fun _ => Pc.noConfusion) Pc.noConfusion hs
          | exact hq.write Pc.noConfusion hs
          | exact hq.wait Pc.noConfusion hs
  · cases hs

/-! ## What an instruction does to the output -/

theorem Consola.step_eq (hs : c.step N cap terminal i = some c') :
    Fork.step N cap c.net i = some c'.net ∧
      c'.buffers = (c.stdio terminal i (c.net.procs i).pc.stdio).buffers ∧
      c'.salida = (c.stdio terminal i (c.net.procs i).pc.stdio).salida := by
  rw [Consola.step] at hs
  split at hs
  · cases hs
  · rename_i hnet
    cases hs
    exact ⟨hnet, rfl, rfl⟩

theorem Escribe.run {k : Nat} (h : Escribe N cap terminal k c) : Run N cap k c.net := by
  induction h with
  | boot => exact .boot
  | step i _ hs ih => exact .step i ih (Consola.step_eq hs).1

theorem putc_buffers_other (x : Char) {j : Nat} (hj : j ≠ i) :
    (c.putc terminal i x).buffers j = c.buffers j := by
  rw [Consola.putc]
  split
  · simp [Consola.flush, hj]
  · simp [hj]

theorem printf_buffers_other (texto : Texto) {j : Nat} (hj : j ≠ i) :
    (c.printf terminal i texto).buffers j = c.buffers j := by
  induction texto generalizing c with
  | nil => rfl
  | cons x texto ih => exact ih.trans (putc_buffers_other x hj)

/-- What is written out and what is held back, together. -/
theorem printf_text (terminal : Bool) (i : Nat) (c : Consola) (texto : Texto) :
    (c.printf terminal i texto).salida ++ (c.printf terminal i texto).buffers i =
      c.salida ++ c.buffers i ++ texto := by
  induction texto generalizing c with
  | nil => simp [Consola.printf]
  | cons x texto ih =>
    have hone : (c.putc terminal i x).salida ++ (c.putc terminal i x).buffers i =
        c.salida ++ c.buffers i ++ [x] := by
      rw [Consola.putc]
      split
      · simp [Consola.flush]
      · simp
    exact (ih _).trans (by rw [hone, List.append_assoc, List.singleton_append])

theorem printf_file (texto : Texto) : (c.printf false i texto).salida = c.salida := by
  induction texto generalizing c with
  | nil => rfl
  | cons x texto ih => exact ih.trans (by simp [Consola.putc])

/-- A line leaves nothing in the buffer of a terminal. -/
theorem printf_terminal (primo : Nat) : (c.printf true i (lineaPrimo primo)).buffers i = [] := by
  rw [Consola.printf, lineaPrimo, List.foldl_append]
  simp [Consola.putc, Consola.flush]

/-! ## A terminal -/

/-- Nothing is held back, and the lines of what has been announced are
written out. -/
structure AlDia (c : Consola) : Prop where
  vacios : ∀ j, c.buffers j = []
  salida : c.salida = (announced c.net).flatMap lineaPrimo

theorem announced_congr (hn : s'.nprocs = s.nprocs)
    (h : ∀ j, (s'.procs j).printed = (s.procs j).printed) : announced s' = announced s := by
  simp [announced, hn, h]

/-- The last process of the chain announces. -/
theorem announced_last {primo : Nat} (hn : s'.nprocs = s.nprocs) (hlast : i + 1 = s.nprocs)
    (hprinted : (s'.procs i).printed = (s.procs i).printed ++ [primo])
    (hother : ∀ j, j ≠ i → s'.procs j = s.procs j) : announced s' = announced s ++ [primo] := by
  have hbelow : (List.range i).flatMap (fun j => (s'.procs j).printed) =
      (List.range i).flatMap fun j => (s.procs j).printed := by
    refine List.flatMap_congr fun j hj => ?_
    rw [hother j (Nat.ne_of_lt (List.mem_range.1 hj))]
  rw [announced, announced, hn, ← hlast, List.range_succ, List.flatMap_append, List.flatMap_append, hbelow]
  simp [hprinted]

theorem printed_eq (hprinted : (s'.procs i).printed = (s.procs i).printed)
    (hother : ∀ j, j ≠ i → s'.procs j = s.procs j) (j : Nat) :
    (s'.procs j).printed = (s.procs j).printed := by
  by_cases hj : j = i
  · rw [hj, hprinted]
  · rw [hother j hj]

theorem announced_fork (hn : s'.nprocs = s.nprocs + 1)
    (hprinted : (s'.procs i).printed = (s.procs i).printed)
    (hchild : (s'.procs s.nprocs).printed = [])
    (hother : ∀ j, j ≠ i → j ≠ s.nprocs → s'.procs j = s.procs j) : announced s' = announced s := by
  have hbelow : (List.range s.nprocs).flatMap (fun j => (s'.procs j).printed) = announced s := by
    refine List.flatMap_congr fun j hj => ?_
    by_cases hji : j = i
    · rw [hji, hprinted]
    · rw [hother j hji (Nat.ne_of_lt (List.mem_range.1 hj))]
  rw [announced, hn, List.range_succ, List.flatMap_append, hbelow]
  simp [hchild]

theorem AlDia.step (h : AlDia c) (hinv : Inv N c.net) (hs : c.step N cap true i = some c') : AlDia c' := by
  obtain ⟨hnet, hbuffers, hsalida⟩ := Consola.step_eq hs
  obtain ⟨hi, hins⟩ := step_instruccion hnet
  cases hins with
  | printf primo hstdio hpc hpre hprinted hn hother =>
      rw [hstdio, Consola.stdio] at hbuffers hsalida
      have hann := announced_last hn ((hinv.procs i hi).pre hpre) hprinted hother
      have htext := printf_text true i c (lineaPrimo primo)
      rw [printf_terminal, List.append_nil, h.vacios i, List.append_nil] at htext
      refine ⟨fun j => ?_, ?_⟩
      · rw [hbuffers]
        by_cases hj : j = i
        · rw [hj, printf_terminal]
        · rw [printf_buffers_other _ hj, h.vacios]
      · rw [hsalida, htext, hann, List.flatMap_append, ← h.salida, List.flatMap_singleton]
  | fork hstdio hdone hprinted hchild hn hother =>
      rw [hstdio, Consola.stdio] at hbuffers hsalida
      refine ⟨fun j => ?_, ?_⟩
      · simp [hbuffers, Function.update_apply, h.vacios]
      · rw [hsalida, h.salida, announced_fork hn hprinted hchild.1 hother]
  | exit hstdio hpc hprinted hn hother =>
      rw [hstdio, Consola.stdio] at hbuffers hsalida
      refine ⟨fun j => ?_, ?_⟩
      · simp [hbuffers, Consola.flush, Function.update_apply, h.vacios]
      · rw [announced_congr hn (printed_eq hprinted hother), hsalida, ← h.salida]
        simp [Consola.flush, h.vacios]
  | other hstdio hdone hpc hprinted hn hother =>
      rw [hstdio, Consola.stdio] at hbuffers hsalida
      refine ⟨fun j => ?_, ?_⟩
      · rw [hbuffers, h.vacios]
      · rw [announced_congr hn (printed_eq hprinted hother), hsalida, ← h.salida]

theorem Escribe.alDia (hN : 2 ≤ N) (hmax : N < intMax) {k : Nat} (h : Escribe N cap true k c) : AlDia c := by
  induction h with
  | boot => exact ⟨fun _ => rfl, rfl⟩
  | step i hrun hs ih => exact ih.step (hrun.run.inv hN hmax).1 hs

/-! ## A file -/

/-- The length of what is written out or held back. -/
def largo (c : Consola) : Nat :=
  c.salida.length + ∑ j ∈ Finset.range c.net.nprocs, (c.buffers j).length

/-- The length of the lines announced. -/
def largoAnunciado (s : Net) : Nat :=
  ∑ j ∈ Finset.range s.nprocs, ((s.procs j).printed.flatMap lineaPrimo).length

theorem length_flatMap_announced (s : Net) :
    ((announced s).flatMap lineaPrimo).length = largoAnunciado s := by
  rw [announced, largoAnunciado]
  induction s.nprocs with
  | zero => rfl
  | succ n ih =>
    rw [List.range_succ, List.flatMap_append, List.flatMap_append, List.length_append, ih,
      Finset.sum_range_succ]
    simp

theorem largoAnunciado_congr (hn : s'.nprocs = s.nprocs)
    (h : ∀ j, (s'.procs j).printed = (s.procs j).printed) : largoAnunciado s' = largoAnunciado s := by
  simp only [largoAnunciado, hn, h]

theorem sum_except {f g : Nat → Nat} {n : Nat} (hi : i < n) (h : ∀ j, j ≠ i → g j = f j) :
    ∑ j ∈ Finset.range n, g j + f i = ∑ j ∈ Finset.range n, f j + g i := by
  have hmem := Finset.mem_range.2 hi
  have hrest : ∑ j ∈ (Finset.range n).erase i, g j = ∑ j ∈ (Finset.range n).erase i, f j :=
    Finset.sum_congr rfl fun j hj => h j (Finset.ne_of_mem_erase hj)
  rw [← Finset.add_sum_erase _ f hmem, ← Finset.add_sum_erase _ g hmem, hrest]
  omega

/-- What a file keeps: a process that has announced its prime has the line
in its buffer, until the line is there twice. -/
structure Repite (c : Consola) : Prop where
  cubre : largoAnunciado c.net ≤ largo c
  pendiente : ∀ j, j < c.net.nprocs → (c.net.procs j).printed ≠ [] →
    (c.net.procs j).pc.anunciado = true ∧ c.buffers j ≠ [] ∨ largoAnunciado c.net < largo c
  vaciado : ∀ j, j < c.net.nprocs → (c.net.procs j).pc = .done → c.buffers j = []

/-- A step keeps this if the text grows at least by the lines announced,
the other processes are as they were and the one that moves is right. -/
theorem Repite.of_grow (h : Repite c) (i : Nat)
    (hgrow : largoAnunciado c'.net + largo c ≤ largo c' + largoAnunciado c.net)
    (hother : ∀ j, j ≠ i → j < c'.net.nprocs →
      j < c.net.nprocs ∧ c'.net.procs j = c.net.procs j ∧ c'.buffers j = c.buffers j ∨
      (c'.net.procs j).printed = [] ∧ (c'.net.procs j).pc ≠ .done)
    (hself : (c'.net.procs i).printed ≠ [] →
      (c'.net.procs i).pc.anunciado = true ∧ c'.buffers i ≠ [] ∨ largoAnunciado c'.net < largo c')
    (hdone : (c'.net.procs i).pc = .done → c'.buffers i = []) : Repite c' where
  cubre := by
    have := h.cubre
    omega
  pendiente := by
    intro j hj hprinted
    by_cases hji : j = i
    · subst hji
      exact hself hprinted
    · rcases hother j hji hj with ⟨hj', hproc, hbuf⟩ | ⟨hnil, -⟩
      · rw [hproc] at hprinted
        rw [hproc, hbuf]
        rcases h.pendiente j hj' hprinted with hheld | hlt
        · exact Or.inl hheld
        · exact Or.inr (by omega)
      · exact absurd hnil hprinted
  vaciado := by
    intro j hj hpc
    by_cases hji : j = i
    · subst hji
      exact hdone hpc
    · rcases hother j hji hj with ⟨hj', hproc, hbuf⟩ | ⟨-, hne⟩
      · rw [hproc] at hpc
        rw [hbuf, h.vaciado j hj' hpc]
      · exact absurd hpc hne

theorem Repite.step (h : Repite c) (hs : c.step N cap false i = some c') : Repite c' := by
  obtain ⟨hnet, hbuffers, hsalida⟩ := Consola.step_eq hs
  obtain ⟨hi, hins⟩ := step_instruccion hnet
  cases hins with
  | printf primo hstdio hpc hpre hprinted hn hother =>
      simp only [hstdio, Consola.stdio] at hbuffers hsalida
      have hbuf : ∀ j, j ≠ i → c'.buffers j = c.buffers j := by
        intro j hj
        rw [hbuffers, printf_buffers_other _ hj]
      have hself : c'.buffers i = c.buffers i ++ lineaPrimo primo := by
        have htext := printf_text false i c (lineaPrimo primo)
        rw [printf_file, List.append_assoc] at htext
        rw [hbuffers, List.append_cancel_left htext]
      have hheld := sum_except hi (fun j hj => congrArg List.length (hbuf j hj))
      have hsaid := sum_except hi fun j hj =>
        congrArg (fun p : Proc => (p.printed.flatMap lineaPrimo).length) (hother j hj)
      refine h.of_grow i ?_ ?_ ?_ ?_
      · rw [hself] at hheld
        simp only [largo, largoAnunciado, hn, hsalida, printf_file]
        simp [hprinted] at hheld hsaid ⊢
        omega
      · intro j hj hlt
        exact Or.inl ⟨hn ▸ hlt, hother j hj, hbuf j hj⟩
      · intro _
        rw [hself]
        exact Or.inl ⟨hpc, by simp [lineaPrimo]⟩
      · intro hd
        rw [hd] at hpc
        cases hpc
  | fork hstdio hdone hprinted hchild hn hother =>
      simp only [hstdio, Consola.stdio] at hbuffers hsalida
      have hbuf : ∀ j, j ≠ c.net.nprocs → c'.buffers j = c.buffers j := by
        intro j hj
        rw [hbuffers, Function.update_of_ne hj]
      have hsaid : largoAnunciado c'.net = largoAnunciado c.net := by
        rw [← length_flatMap_announced, announced_fork hn hprinted hchild.1 hother,
          length_flatMap_announced]
      -- the copy that the child gets
      have hheld : largo c' = largo c + (c.buffers i).length := by
        have hbelow : ∑ j ∈ Finset.range c.net.nprocs, (c'.buffers j).length =
            ∑ j ∈ Finset.range c.net.nprocs, (c.buffers j).length :=
          Finset.sum_congr rfl fun j hj => by rw [hbuf j (Nat.ne_of_lt (Finset.mem_range.1 hj))]
        rw [largo, largo, hn, Finset.sum_range_succ, hbelow, hsalida, hbuffers, Function.update_self]
        omega
      refine h.of_grow i (by omega) ?_ ?_ (fun hd => absurd hd hdone)
      · intro j hj hlt
        by_cases hjn : j = c.net.nprocs
        · rw [hjn]
          exact Or.inr hchild
        · exact Or.inl ⟨by omega, hother j hj hjn, hbuf j hjn⟩
      · intro hne
        rw [hprinted] at hne
        rcases h.pendiente i hi hne with ⟨-, hbi⟩ | hlt
        · have hpos := List.length_pos_of_ne_nil hbi
          have := h.cubre
          exact Or.inr (by omega)
        · exact Or.inr (by omega)
  | exit hstdio hpc hprinted hn hother =>
      simp only [hstdio, Consola.stdio, Consola.flush] at hbuffers hsalida
      have hbuf : ∀ j, j ≠ i → c'.buffers j = c.buffers j := by
        intro j hj
        rw [hbuffers, Function.update_of_ne hj]
      have hself : c'.buffers i = [] := by rw [hbuffers, Function.update_self]
      have hsaid := largoAnunciado_congr hn (printed_eq hprinted hother)
      have hheld : largo c' = largo c := by
        have hsum := sum_except hi fun j hj => congrArg List.length (hbuf j hj)
        rw [hself, List.length_nil] at hsum
        rw [largo, largo, hn, hsalida, List.length_append]
        omega
      refine h.of_grow i (by omega) ?_ ?_ (fun _ => hself)
      · intro j hj hlt
        exact Or.inl ⟨hn ▸ hlt, hother j hj, hbuf j hj⟩
      · intro hne
        rw [hprinted] at hne
        rcases h.pendiente i hi hne with ⟨htrue, -⟩ | hlt
        · rw [hpc] at htrue
          cases htrue
        · exact Or.inr (by omega)
  | other hstdio hdone hpc hprinted hn hother =>
      simp only [hstdio, Consola.stdio] at hbuffers hsalida
      have hsaid := largoAnunciado_congr hn (printed_eq hprinted hother)
      have hheld : largo c' = largo c := by rw [largo, largo, hn, hsalida, hbuffers]
      refine h.of_grow i (by omega) ?_ ?_ (fun hd => absurd hd hdone)
      · intro j hj hlt
        exact Or.inl ⟨hn ▸ hlt, hother j hj, by rw [hbuffers]⟩
      · intro hne
        rw [hprinted] at hne
        rw [hbuffers]
        rcases h.pendiente i hi hne with ⟨htrue, hbi⟩ | hlt
        · exact Or.inl ⟨hpc htrue, hbi⟩
        · exact Or.inr (by omega)

theorem Escribe.repite {k : Nat} (h : Escribe N cap false k c) : Repite c := by
  induction h with
  | boot =>
    refine ⟨?_, ?_, ?_⟩
    · simp [largoAnunciado, Consola.boot, Fork.boot]
    · intro j _ hprinted
      exact absurd rfl hprinted
    · intro j _ _
      rfl
  | step i _ hs ih => exact ih.step hs

/-! ## Both -/

/-- Every prime has its line, once, and there is nothing else. -/
def ImprimeUnaVez (N : Nat) (salida : Texto) : Prop :=
  ∃ orden : List Nat, orden.Perm (primos N) ∧ salida = orden.flatMap lineaPrimo

theorem primos_ne_nil (hN : 2 ≤ N) : primos N ≠ [] := by
  rw [primos, numeros_of_le hN, List.filter_cons_of_pos (by decide)]
  exact List.cons_ne_nil _ _

theorem Repite.salida_largo (h : Repite c) (hdone : ∀ j, j < c.net.nprocs → (c.net.procs j).pc = .done)
    (hsaid : announced c.net ≠ []) : largoAnunciado c.net < c.salida.length := by
  obtain ⟨p, hp⟩ := List.exists_mem_of_ne_nil _ hsaid
  obtain ⟨j, hj, hpj⟩ := List.mem_flatMap.1 hp
  have hj := List.mem_range.1 hj
  have hheld : ∑ j ∈ Finset.range c.net.nprocs, (c.buffers j).length = 0 := by
    refine Finset.sum_eq_zero fun k hk => ?_
    have hk := Finset.mem_range.1 hk
    rw [h.vaciado k hk (hdone k hk), List.length_nil]
  rcases h.pendiente j hj (List.ne_nil_of_mem hpj) with ⟨hpc, -⟩ | hlt
  · rw [hdone j hj] at hpc
    cases hpc
  · rw [largo, hheld] at hlt
    exact hlt

/-- Every run ends; and where it ends, each prime has been printed once, and
nothing else, exactly if the output went to a terminal. -/
theorem criba_salida (N cap : Nat) (terminal : Bool) (hN : 2 ≤ N) (hmax : N < intMax) (hcap : 0 < cap) :
    (∃ bound, ∀ k c, Escribe N cap terminal k c → k ≤ bound) ∧
    ∀ k c, Escribe N cap terminal k c → (∀ i, c.step N cap terminal i = none) →
      (ImprimeUnaVez N c.salida ↔ terminal = true) := by
  refine ⟨⟨total N boot, fun k c h => ?_⟩, fun k c h hend => ?_⟩
  · have hle := (h.run.inv hN hmax).2
    omega
  · have hnone : ∀ i, step N cap c.net i = none := by
      intro i
      have hi := hend i
      rw [Consola.step] at hi
      split at hi
      · assumption
      · cases hi
    have hfin := (h.run.inv hN hmax).1.finished hcap hnone
    cases terminal with
    | true =>
      refine ⟨fun _ => rfl, fun _ => ⟨primos N, List.Perm.refl _, ?_⟩⟩
      rw [(h.alDia hN hmax).salida, hfin.primes]
    | false =>
      constructor
      · rintro ⟨orden, hperm, hsalida⟩
        have hlong := h.repite.salida_largo hfin.ended (by rw [hfin.primes]; exact primos_ne_nil hN)
        have hlen : (orden.flatMap lineaPrimo).length = largoAnunciado c.net := by
          rw [(hperm.flatMap_right lineaPrimo).length_eq, ← hfin.primes, length_flatMap_announced]
        rw [hsalida, hlen] at hlong
        exact absurd hlong (Nat.lt_irrefl _)
      · intro hfalse
        cases hfalse

/-- The run in which the first process that can go on always does, for at
most `fuel` instructions. -/
def avanzar (maxNumero cap : Nat) (terminal : Bool) : Nat → Consola → Consola
  | 0, c => c
  | fuel + 1, c =>
      match (List.range c.net.nprocs).findSome? (c.step maxNumero cap terminal) with
      | none => c
      | some c' => avanzar maxNumero cap terminal fuel c'

theorem Escribe.avanzar (fuel : Nat) {k : Nat} (h : Escribe N cap terminal k c) :
    ∃ k', Escribe N cap terminal k' (avanzar N cap terminal fuel c) := by
  induction fuel generalizing k c with
  | zero => exact ⟨k, h⟩
  | succ fuel ih =>
    rw [Fork.avanzar]
    split
    · exact ⟨k, h⟩
    · rename_i c' hstep
      obtain ⟨i, -, hi⟩ := List.exists_of_findSome?_eq_some hstep
      exact ih (.step i h hi)

theorem Consola.step_eq_none (hdone : ∀ i, i < c.net.nprocs → (c.net.procs i).pc.isDone = true)
    (i : Nat) : c.step N cap terminal i = none := by
  rw [Consola.step, Fork.step]
  split
  · rfl
  · rename_i hsome
    split at hsome
    · rename_i hi
      have hpc := hdone i hi
      cases hat : (c.net.procs i).pc with
      | done =>
        rw [hat] at hsome
        cases hsome
      | _ =>
        rw [hat] at hpc
        cases hpc
    · cases hsome

/-- A run to the end, with `N = 2`. -/
theorem avanzar_complete (terminal : Bool) :
    (∃ k, Escribe 2 1 terminal k (avanzar 2 1 terminal 60 .boot)) ∧
      ∀ i, (avanzar 2 1 terminal 60 .boot).step 2 1 terminal i = none := by
  have hboot : Escribe 2 1 terminal 0 .boot := .boot
  have hn : (avanzar 2 1 terminal 60 .boot).net.nprocs = 3 := by
    cases terminal <;> decide +kernel
  have hdone : ∀ i, i < 3 → ((avanzar 2 1 terminal 60 .boot).net.procs i).pc.isDone = true := by
    cases terminal <;> decide +kernel
  exact ⟨hboot.avanzar 60, fun i => Consola.step_eq_none (hn ▸ hdone) i⟩

theorem criba_salida_file :
    (∃ bound, ∀ k c, Escribe 2 1 false k c → k ≤ bound) ∧
    (∃ k c, Escribe 2 1 false k c ∧ (∀ i, c.step 2 1 false i = none) ∧
      ¬ ImprimeUnaVez 2 c.salida) ∧
    ∃ k c, Escribe 2 1 true k c ∧ (∀ i, c.step 2 1 true i = none) ∧ ImprimeUnaVez 2 c.salida := by
  have hfile := criba_salida 2 1 false (by decide) (by decide) (by decide)
  have hterminal := criba_salida 2 1 true (by decide) (by decide) (by decide)
  obtain ⟨⟨k, hrun⟩, hend⟩ := avanzar_complete false
  obtain ⟨⟨k', hrun'⟩, hend'⟩ := avanzar_complete true
  refine ⟨hfile.1, ⟨k, _, hrun, hend, fun honce => ?_⟩, k', _, hrun', hend', ?_⟩
  · exact absurd ((hfile.2 k _ hrun hend).mp honce) (by decide)
  · exact (hterminal.2 k' _ hrun' hend').mpr rfl

/-- With `N = 2` and a file the only prime is printed twice: by the process
that announces it, and by its child. -/
theorem criba_salida_twice :
    ∃ k c, Escribe 2 1 false k c ∧ (∀ i, c.step 2 1 false i = none) ∧
      c.salida = lineaPrimo 2 ++ lineaPrimo 2 ∧ ¬ ImprimeUnaVez 2 c.salida := by
  obtain ⟨⟨k, hrun⟩, hend⟩ := avanzar_complete false
  refine ⟨k, _, hrun, hend, by decide +kernel, ?_⟩
  rintro ⟨orden, hperm, hsalida⟩
  have hlen := congrArg List.length hsalida
  rw [(hperm.flatMap_right lineaPrimo).length_eq] at hlen
  exact absurd hlen (by decide +kernel)

end SistemasOperativos.Fork
