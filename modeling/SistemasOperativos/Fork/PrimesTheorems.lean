/-
SistemasOperativos.Fork.PrimesTheorems — the chain of processes computes
the primes.

What a process is still to read is what is in its pipe and what the
process before it is still to write, which in turn is determined by what
that one is still to read (`stream`). No step of one process changes what
another is still to read, so the numbers that the last process of the
chain is still to sort out, with those already announced, always make up
the sieve of `2 .. N`.

Each step also lowers `weight`, so every run ends; and where no process
can go on, all have ended: one that waits for a number waits for the
process before it, and one that waits for room or for its child waits for
the process after it.
-/
import Mathlib.Algebra.BigOperators.Group.Finset.Basic
import Mathlib.Algebra.Order.BigOperators.Group.Finset
import SistemasOperativos.Fork.Primes
import SistemasOperativos.Lib.Sieve

namespace SistemasOperativos.Fork

open Sieve

/-! ## What is still to come -/

/-- The numbers from `k` to `N`. -/
def numeros (k N : Nat) : List Nat := List.range' k (N + 1 - k)

theorem numeros_of_le {k N : Nat} (h : k ≤ N) : numeros k N = k :: numeros (k + 1) N := by
  rw [numeros, numeros, show N + 1 - k = (N + 1 - (k + 1)) + 1 by omega, List.range'_succ]

theorem numeros_of_lt {k N : Nat} (h : N < k) : numeros k N = [] := by
  rw [numeros, show N + 1 - k = 0 by omega]
  rfl

/-- The numbers that `primo` lets through. -/
def filtro (primo : Nat) (xs : List Nat) : List Nat := xs.filter (fun n => n % primo ≠ 0)

/-- What a process that starts with these numbers passes on. -/
def pasan : List Nat → List Nat
  | [] => []
  | p :: xs => filtro p xs

/-- What a process is still to write, when `inp` is what it is still to
read. -/
@[simp] def toWrite (N : Nat) (pc : Pc) (inp : List Nat) : List Nat :=
  match pc with
  | .cribaPipe | .cribaFork _ | .cribaCloseRead _ => numeros 2 N
  | .generar _ k | .generarWrite _ k => numeros k N
  | .generarNext _ k => numeros (k + 1) N
  | .childCloseWrite _ _ | .childCloseOld _ _ | .firstRead _ => pasan inp
  | .printPrimo _ p | .nuevoPipe _ p | .forkChild _ p _ | .closeRead _ p _ | .readNumero _ p _ =>
      filtro p inp
  | .testNumero _ p _ n => filtro p (n :: inp)
  | .writeNumero _ p _ n => n :: filtro p inp
  | _ => []

/-- What process `i` is still to read. -/
def stream (N : Nat) (s : Net) : Nat → List Nat
  | 0 => []
  | i + 1 => s.queues i ++ toWrite N (s.procs i).pc (stream N s i)

/-- What the chain will announce from this process on, while it is the
last one. -/
@[simp] def future (N : Nat) (pc : Pc) (inp : List Nat) : List Nat :=
  match pc with
  | .cribaPipe | .cribaFork _ => sieve (numeros 2 N)
  | .childCloseWrite _ _ | .childCloseOld _ _ | .firstRead _ => sieve inp
  | .printPrimo _ p => p :: sieve (filtro p inp)
  | .nuevoPipe _ p | .forkChild _ p _ => sieve (filtro p inp)
  | _ => []

/-- An upper bound on the instructions of a process that is about to read
its first number, and of all those that come after it. -/
def chainWeight : List Nat → Nat
  | [] => 3
  | p :: xs => 13 + 3 * xs.length + chainWeight (xs.filter (fun n => n % p ≠ 0))
termination_by xs => xs.length
decreasing_by
  rw [List.length_unattach]
  refine Nat.lt_succ_of_le (Nat.le_trans (List.length_filter_le _ _) ?_)
  rw [List.length_attach]

theorem chainWeight_cons (p : Nat) (xs : List Nat) :
    chainWeight (p :: xs) = 13 + 3 * xs.length + chainWeight (filtro p xs) := by
  rw [chainWeight]
  rfl

/-- An upper bound on the instructions that are left. -/
@[simp] def weight (N : Nat) (pc : Pc) (inp : List Nat) : Nat :=
  match pc with
  | .cribaPipe => 11 + 3 * (N - 1) + chainWeight (numeros 2 N)
  | .cribaFork _ => 10 + 3 * (N - 1) + chainWeight (numeros 2 N)
  | .cribaCloseRead _ => 7 + 3 * (N - 1)
  | .generar _ k => 6 + 3 * (N + 1 - k)
  | .generarWrite _ k => 5 + 3 * (N + 1 - k)
  | .generarNext _ k => 4 + 3 * (N + 1 - k)
  | .cribaCloseWrite _ => 4
  | .cribaWait => 3
  | .childCloseWrite _ _ => chainWeight inp + 2
  | .childCloseOld _ _ => chainWeight inp + 1
  | .firstRead _ => chainWeight inp
  | .printPrimo _ p => 12 + 3 * inp.length + chainWeight (filtro p inp)
  | .nuevoPipe _ p => 11 + 3 * inp.length + chainWeight (filtro p inp)
  | .forkChild _ p _ => 10 + 3 * inp.length + chainWeight (filtro p inp)
  | .closeRead _ _ _ => 7 + 3 * inp.length
  | .readNumero _ _ _ => 6 + 3 * inp.length
  | .testNumero _ _ _ _ => 8 + 3 * inp.length
  | .writeNumero _ _ _ _ => 7 + 3 * inp.length
  | .closeEntrada _ _ => 5
  | .closeWrite _ _ => 4
  | .waitChild _ => 3
  | .childCloseRead _ => 2
  | .exit => 1
  | .done => 0
  | .crashed => 0

/-! ## The invariant -/

/-- Where process `i` may be, with which descriptors. -/
@[simp] def At (N i : Nat) (fds : List End) : Pc → Prop
  | .cribaPipe => i = 0 ∧ fds = []
  | .cribaFork b | .cribaCloseRead b => i = 0 ∧ b = i ∧ fds = [.lectura b, .escritura b]
  | .generar b k => i = 0 ∧ b = i ∧ fds = [.escritura b] ∧ k ≤ N + 1
  | .generarWrite b k | .generarNext b k => i = 0 ∧ b = i ∧ fds = [.escritura b] ∧ k ≤ N
  | .cribaCloseWrite b => i = 0 ∧ b = i ∧ fds = [.escritura b]
  | .cribaWait => i = 0 ∧ fds = []
  | .childCloseWrite a none => i = a + 1 ∧ fds = [.lectura a, .escritura a]
  | .childCloseWrite a (some c) =>
      i = a + 1 ∧ a = c + 1 ∧ fds = [.lectura a, .escritura a, .lectura c]
  | .childCloseOld a c => i = a + 1 ∧ a = c + 1 ∧ fds = [.lectura a, .lectura c]
  | .firstRead a | .printPrimo a _ | .nuevoPipe a _ => i = a + 1 ∧ fds = [.lectura a]
  | .forkChild a _ b | .closeRead a _ b =>
      i = a + 1 ∧ b = i ∧ fds = [.lectura b, .escritura b, .lectura a]
  | .readNumero a _ b | .testNumero a _ b _ | .writeNumero a _ b _ | .closeEntrada a b =>
      i = a + 1 ∧ b = i ∧ fds = [.escritura b, .lectura a]
  | .closeWrite a b => i = a + 1 ∧ b = i ∧ fds = [.escritura b]
  | .waitChild a => i = a + 1 ∧ fds = []
  | .childCloseRead a => i = a + 1 ∧ (fds = [.lectura a] ∨ fds = [])
  | .exit | .done => fds = []
  | .crashed => False

/-- Before its `fork`. -/
@[simp] def Pc.preFork : Pc → Bool
  | .cribaPipe | .cribaFork _ | .childCloseWrite _ _ | .childCloseOld _ _ | .firstRead _
  | .printPrimo _ _ | .nuevoPipe _ _ | .forkChild _ _ _ => true
  | _ => false

/-- After its `fork`, and before it has waited for the child. -/
@[simp] def Pc.postFork : Pc → Bool
  | .cribaCloseRead _ | .generar _ _ | .generarWrite _ _ | .generarNext _ _ | .cribaCloseWrite _
  | .cribaWait | .closeRead _ _ _ | .readNumero _ _ _ | .testNumero _ _ _ _ | .writeNumero _ _ _ _
  | .closeEntrada _ _ | .closeWrite _ _ | .waitChild _ => true
  | _ => false

/-- After the end of its input. -/
@[simp] def Pc.pastEof : Pc → Bool
  | .closeEntrada _ _ | .closeWrite _ _ | .waitChild _ | .childCloseRead _ | .exit | .done => true
  | _ => false

/-- Its own pipe exists, and no child reads it yet. -/
@[simp] def Pc.ownPipe : Pc → Bool
  | .cribaFork _ | .forkChild _ _ _ => true
  | _ => false

structure ProcOk (N : Nat) (s : Net) (i : Nat) : Prop where
  place : At N i (s.procs i).fds (s.procs i).pc
  pre : (s.procs i).pc.preFork = true → i + 1 = s.nprocs
  post : (s.procs i).pc.postFork = true → i + 1 < s.nprocs
  eof : (s.procs i).pc.pastEof = true → stream N s i = []
  parent : ∀ k, i = k + 1 → (s.procs i).parent = some k

structure Inv (N : Nat) (s : Net) : Prop where
  pos : 0 < s.nprocs
  procs : ∀ i, i < s.nprocs → ProcOk N s i
  fresh : ∀ j, s.nprocs ≤ j + 1 → s.queues j = []
  npipes : ∀ i, i + 1 = s.nprocs → s.npipes = i + if (s.procs i).pc.ownPipe then 1 else 0
  said : ∀ i, i + 1 = s.nprocs →
    announced s ++ future N (s.procs i).pc (stream N s i) = sieve (numeros 2 N)

/-- The weight of all processes. -/
def total (N : Nat) (s : Net) : Nat :=
  ∑ i ∈ Finset.range s.nprocs, weight N (s.procs i).pc (stream N s i)

/-! ## What one process changes -/

variable {N cap i : Nat} {s s' : Net}

theorem stream_congr {j : Nat}
    (h : ∀ k, k < j → (s'.procs k).pc = (s.procs k).pc ∧ s'.queues k = s.queues k) :
    stream N s' j = stream N s j := by
  induction j with
  | zero => rfl
  | succ j ih =>
      obtain ⟨hpc, hq⟩ := h j (Nat.lt_succ_self j)
      rw [stream, stream, hpc, hq, ih (fun k hk => h k (Nat.lt_succ_of_lt hk))]

theorem stream_congr_from {j₀ : Nat} (h₀ : stream N s' j₀ = stream N s j₀) {j : Nat} (hj : j₀ ≤ j)
    (h : ∀ k, j₀ ≤ k → k < j → (s'.procs k).pc = (s.procs k).pc ∧ s'.queues k = s.queues k) :
    stream N s' j = stream N s j := by
  induction j, hj using Nat.le_induction with
  | base => exact h₀
  | succ j hj ih =>
      obtain ⟨hpc, hq⟩ := h j hj (Nat.lt_succ_self j)
      rw [stream, stream, hpc, hq, ih (fun k hk hkj => h k hk (Nat.lt_succ_of_lt hkj))]

/-- Process `i` takes `c` from its input, adds `w` to its output, announces
`said`, and goes on at `pc` with the descriptors `fds`. -/
structure Moved (s s' : Net) (i : Nat) (c w said : List Nat) (pc : Pc) (fds : List End) : Prop where
  nprocs : s'.nprocs = s.nprocs
  procs : ∀ k, k ≠ i → s'.procs k = s.procs k
  self : s'.procs i = ⟨pc, fds, (s.procs i).parent, (s.procs i).printed ++ said⟩
  frame : ∀ j, j + 1 ≠ i → j ≠ i → s'.queues j = s.queues j
  reads : ∀ j, j + 1 = i → s.queues j = c ++ s'.queues j
  first : i = 0 → c = []
  writes : s'.queues i = s.queues i ++ w
  npipes : s'.npipes = s.npipes + if pc.ownPipe then 1 else 0

/-- The instructions other than `fork` do no more than this, when `inp` is
what is left to read after them. -/
structure Legal (N i : Nat) (old : Pc) (c w said : List Nat) (pc : Pc) (fds : List End)
    (inp : List Nat) : Prop where
  writes : toWrite N old (c ++ inp) = w ++ toWrite N pc inp
  foretold : future N old (c ++ inp) = said ++ future N pc inp
  lighter : weight N pc inp < weight N old (c ++ inp)
  place : At N i fds pc
  pre : pc.preFork = true → old.preFork = true
  post : pc.postFork = true → old.postFork = true
  eof : pc.pastEof = true → old.pastEof = true ∨ inp = []
  output : w = [] ∨ old.postFork = true
  voice : said = [] ∨ old.preFork = true
  own : old.ownPipe = false

section Moved

variable {c w said : List Nat} {pc : Pc} {fds : List End} (hm : Moved s s' i c w said pc fds)
include hm

theorem Moved.stream_below {j : Nat} (hj : j < i) : stream N s' j = stream N s j := by
  refine stream_congr (fun k hk => ⟨?_, hm.frame k (by omega) (by omega)⟩)
  rw [hm.procs k (by omega)]

theorem Moved.stream_self : stream N s i = c ++ stream N s' i := by
  cases i with
  | zero =>
      rw [hm.first rfl]
      rfl
  | succ k =>
      rw [stream, stream, hm.reads k rfl, hm.stream_below (Nat.lt_succ_self k),
        hm.procs k (Nat.ne_of_lt (Nat.lt_succ_self k)), List.append_assoc]

/-- What the other processes are still to read does not change, if what
process `i` is still to write does not. -/
theorem Moved.stream_other (hw : toWrite N (s.procs i).pc (c ++ stream N s' i) =
      w ++ toWrite N pc (stream N s' i)) {j : Nat} (hj : j ≠ i) :
    stream N s' j = stream N s j := by
  rcases Nat.lt_or_gt_of_ne hj with hlt | hgt
  · exact hm.stream_below hlt
  · have hnext : stream N s' (i + 1) = stream N s (i + 1) := by
      rw [stream, stream, hm.writes, hm.self, hm.stream_self (N := N), hw, List.append_assoc]
    refine stream_congr_from hnext hgt (fun k hk _ => ⟨?_, hm.frame k (by omega) (by omega)⟩)
    rw [hm.procs k (by omega)]

theorem Moved.announced (hsaid : i + 1 = s.nprocs ∨ said = []) :
    announced s' = announced s ++ said := by
  rcases hsaid with hlast | rfl
  · have hbelow : (List.range i).flatMap (fun k => (s'.procs k).printed) =
        (List.range i).flatMap (fun k => (s.procs k).printed) := by
      refine List.flatMap_congr (fun k hk => ?_)
      rw [hm.procs k (Nat.ne_of_lt (List.mem_range.1 hk))]
    rw [Fork.announced, Fork.announced, hm.nprocs, ← hlast, List.range_succ, List.flatMap_append,
      List.flatMap_append, hbelow]
    simp [hm.self]
  · rw [Fork.announced, Fork.announced, hm.nprocs, List.append_nil]
    refine List.flatMap_congr (fun k _ => ?_)
    by_cases hk : k = i
    · rw [hk, hm.self, List.append_nil]
    · rw [hm.procs k hk]

variable (hl : Legal N i (s.procs i).pc c w said pc fds (stream N s' i))
include hl

/-- The process that moved. -/
theorem Moved.procOk_self (hok : ProcOk N s i) : ProcOk N s' i := by
  refine ⟨?_, ?_, ?_, ?_, ?_⟩
  · rw [hm.self]
    exact hl.place
  · rw [hm.self, hm.nprocs]
    exact fun hpre => hok.pre (hl.pre hpre)
  · rw [hm.self, hm.nprocs]
    exact fun hpost => hok.post (hl.post hpost)
  · rw [hm.self]
    intro heof
    rcases hl.eof heof with hold | hnil
    · have hnil := hok.eof hold
      rw [hm.stream_self, List.append_eq_nil_iff] at hnil
      exact hnil.2
    · exact hnil
  · rw [hm.self]
    exact hok.parent

theorem Moved.procOk_other {j : Nat} (hj : j ≠ i) (hok : ProcOk N s j) : ProcOk N s' j := by
  have hsame := hm.procs j hj
  refine ⟨?_, ?_, ?_, ?_, ?_⟩
  · rw [hsame]
    exact hok.place
  · rw [hsame, hm.nprocs]
    exact hok.pre
  · rw [hsame, hm.nprocs]
    exact hok.post
  · rw [hsame, hm.stream_other hl.writes hj]
    exact hok.eof
  · rw [hsame]
    exact hok.parent

theorem Inv.moved (hinv : Inv N s) (hi : i < s.nprocs) : Inv N s' where
  pos := by
    rw [hm.nprocs]
    exact hinv.pos
  procs := by
    intro j hj
    rw [hm.nprocs] at hj
    by_cases hji : j = i
    · subst hji
      exact hm.procOk_self hl (hinv.procs j hj)
    · exact hm.procOk_other hl hji (hinv.procs j hj)
  fresh := by
    intro j hj
    rw [hm.nprocs] at hj
    by_cases hji : j = i
    · subst hji
      rw [hm.writes, hinv.fresh j hj]
      rcases hl.output with hw | hpost
      · rw [hw]
        rfl
      · have := (hinv.procs j hi).post hpost
        omega
    · rw [hm.frame j (by omega) hji, hinv.fresh j hj]
  npipes := by
    intro j hj
    rw [hm.nprocs] at hj
    have hold := hinv.npipes j hj
    by_cases hji : j = i
    · subst hji
      rw [hm.npipes, hold, hl.own, hm.self]
      rfl
    · -- only the last process makes a pipe
      have hno : pc.ownPipe = false := by
        by_contra hown
        have hpre : pc.preFork = true := by
          revert hown
          cases pc <;> simp [Pc.ownPipe, Pc.preFork]
        have := (hinv.procs i hi).pre (hl.pre hpre)
        omega
      rw [hm.npipes, hno, hm.procs j hji, hold]
      rfl
  said := by
    intro j hj
    rw [hm.nprocs] at hj
    have hold := hinv.said j hj
    have hlast : i + 1 = s.nprocs ∨ said = [] := by
      rcases hl.voice with hsaid | hpre
      · exact Or.inr hsaid
      · exact Or.inl ((hinv.procs i hi).pre hpre)
    rw [hm.announced hlast, ← hold]
    by_cases hji : j = i
    · subst hji
      rw [hm.self, hm.stream_self, hl.foretold, List.append_assoc]
    · rcases hlast with hlast | rfl
      · omega
      · rw [List.append_nil, hm.procs j hji, hm.stream_other hl.writes hji]

theorem Moved.total_lt (hi : i < s.nprocs) : total N s' < total N s := by
  rw [total, total, hm.nprocs]
  refine Finset.sum_lt_sum (fun j _ => ?_) ⟨i, Finset.mem_range.2 hi, ?_⟩
  · by_cases hji : j = i
    · rw [hji, hm.self, hm.stream_self (N := N)]
      exact Nat.le_of_lt hl.lighter
    · rw [hm.procs j hji, hm.stream_other hl.writes hji]
  · rw [hm.self, hm.stream_self (N := N)]
    exact hl.lighter

end Moved

/-! ## `fork` -/

/-- The last process forks: what it was to sort out from then on is now
the child's. -/
structure Forks (N : Nat) (s : Net) (i : Nat) (parent child : Pc) : Prop where
  last : i + 1 = s.nprocs
  same : ∀ inp, toWrite N parent inp = toWrite N (s.procs i).pc inp
  handed : ∀ inp, future N (s.procs i).pc inp = future N child (toWrite N (s.procs i).pc inp)
  lighter : ∀ inp, weight N parent inp + weight N child (toWrite N (s.procs i).pc inp) <
    weight N (s.procs i).pc inp
  place : At N i (s.procs i).fds parent
  placeChild : At N (i + 1) (s.procs i).fds child
  flags : parent.preFork = false ∧ parent.pastEof = false
  flagsChild : child.postFork = false ∧ child.pastEof = false ∧ child.ownPipe = false
  own : (s.procs i).pc.ownPipe = true

section Forks

variable {parent child : Pc} (hf : Forks N s i parent child)
include hf

theorem Forks.procs_child : (s.fork i parent child).procs (i + 1) =
    ⟨child, (s.procs i).fds, some i, []⟩ := by
  show Function.update (Function.update s.procs i _) s.nprocs _ (i + 1) = _
  rw [hf.last, Function.update_self]

theorem Forks.procs_parent : (s.fork i parent child).procs i = { s.procs i with pc := parent } := by
  show Function.update (Function.update s.procs i _) s.nprocs _ i = _
  have hlast := hf.last
  rw [Function.update_of_ne (by omega), Function.update_self]

theorem Forks.procs_other {j : Nat} (hj : j < i) :
    (s.fork i parent child).procs j = s.procs j := by
  show Function.update (Function.update s.procs i _) s.nprocs _ j = _
  have hlast := hf.last
  rw [Function.update_of_ne (by omega), Function.update_of_ne (by omega)]

theorem Forks.stream_of_le {j : Nat} (hj : j ≤ i) :
    stream N (s.fork i parent child) j = stream N s j := by
  refine stream_congr (fun k hk => ⟨?_, rfl⟩)
  rw [hf.procs_other (by omega)]

theorem Forks.stream_child (hinv : Inv N s) : stream N (s.fork i parent child) (i + 1) =
    toWrite N (s.procs i).pc (stream N s i) := by
  have hlast := hf.last
  have hempty : (s.fork i parent child).queues i = [] := hinv.fresh i (by omega)
  rw [stream, hempty, hf.stream_of_le (Nat.le_refl i), hf.procs_parent, hf.same]
  rfl

theorem Forks.announced : announced (s.fork i parent child) = announced s := by
  have hn : (s.fork i parent child).nprocs = s.nprocs + 1 := rfl
  rw [Fork.announced, Fork.announced, hn, List.range_succ, List.flatMap_append, ← hf.last,
    List.flatMap_singleton, hf.procs_child, List.append_nil]
  refine List.flatMap_congr (fun k hk => ?_)
  have hk := List.mem_range.1 hk
  by_cases hki : k = i
  · rw [hki, hf.procs_parent]
  · rw [hf.procs_other (by omega)]

theorem Inv.forked (hinv : Inv N s) : Inv N (s.fork i parent child) := by
  have hlast := hf.last
  have hn : (s.fork i parent child).nprocs = s.nprocs + 1 := rfl
  have hlastOnly : ∀ j, j + 1 = s.nprocs + 1 → j = i + 1 := by
    intro j hj
    omega
  exact {
    pos := by
      rw [hn]
      exact Nat.succ_pos _
    procs := by
      intro j hj
      rw [hn] at hj
      by_cases hjc : j = i + 1
      · subst hjc
        refine ⟨?_, ?_, ?_, ?_, ?_⟩
        · rw [hf.procs_child]
          exact hf.placeChild
        · intro _
          rw [hn, hlast]
        · rw [hf.procs_child, hf.flagsChild.1]
          exact fun h => absurd h Bool.false_ne_true
        · rw [hf.procs_child, hf.flagsChild.2.1]
          exact fun h => absurd h Bool.false_ne_true
        · intro k hk
          rw [hf.procs_child, Nat.succ.inj hk]
      · by_cases hji : j = i
        · subst hji
          refine ⟨?_, ?_, ?_, ?_, ?_⟩
          · rw [hf.procs_parent]
            exact hf.place
          · rw [hf.procs_parent, hf.flags.1]
            exact fun h => absurd h Bool.false_ne_true
          · intro _
            rw [hn, hlast]
            exact Nat.lt_succ_self _
          · rw [hf.procs_parent, hf.flags.2]
            exact fun h => absurd h Bool.false_ne_true
          · rw [hf.procs_parent]
            exact (hinv.procs j (by omega)).parent
        · have hold := hinv.procs j (by omega)
          have hsame := hf.procs_other (j := j) (by omega)
          refine ⟨?_, ?_, ?_, ?_, ?_⟩
          · rw [hsame]
            exact hold.place
          · rw [hsame]
            intro hpre
            have := hold.pre hpre
            omega
          · rw [hsame, hn]
            exact fun hpost => Nat.lt_succ_of_lt (hold.post hpost)
          · rw [hsame, hf.stream_of_le (by omega)]
            exact hold.eof
          · rw [hsame]
            exact hold.parent
    fresh := fun j hj => hinv.fresh j (Nat.le_of_succ_le hj)
    npipes := by
      intro j hj
      obtain rfl := hlastOnly j hj
      have hold := hinv.npipes i hlast
      rw [hf.own] at hold
      rw [hf.procs_child, hf.flagsChild.2.2]
      exact hold
    said := by
      intro j hj
      obtain rfl := hlastOnly j hj
      rw [hf.announced, hf.procs_child, hf.stream_child hinv, ← hinv.said i hlast, hf.handed] }

theorem Forks.total_lt (hinv : Inv N s) : total N (s.fork i parent child) < total N s := by
  have hn : (s.fork i parent child).nprocs = i + 1 + 1 := by
    rw [hf.last]
    rfl
  have hlow : ∑ j ∈ Finset.range i, weight N ((s.fork i parent child).procs j).pc
      (stream N (s.fork i parent child) j) =
      ∑ j ∈ Finset.range i, weight N (s.procs j).pc (stream N s j) := by
    refine Finset.sum_congr rfl (fun j hj => ?_)
    have hj := Finset.mem_range.1 hj
    rw [hf.procs_other hj, hf.stream_of_le (Nat.le_of_lt hj)]
  have hw := hf.lighter (stream N s i)
  rw [total, total, hn, ← hf.last, Finset.sum_range_succ, Finset.sum_range_succ,
    Finset.sum_range_succ, hlow, hf.procs_parent, hf.procs_child, hf.stream_child hinv,
    hf.stream_of_le (Nat.le_refl i)]
  show _ + weight N parent _ + weight N child _ < _
  omega

end Forks

/-! ## The end of a pipe -/

/-- A process that no longer has its write end, and has a child, has
nothing left to write. -/
theorem toWrite_eq_nil {fds : List End} {pc : Pc} (hat : At N i fds pc)
    (hno : End.escritura i ∉ fds) (hpre : pc.preFork = false) (inp : List Nat) :
    toWrite N pc inp = [] := by
  cases pc <;> simp_all [At, Pc.preFork, toWrite]

/-- A process has the read end of its pipe until the end of its input. -/
theorem lectura_mem {fds : List End} {pc : Pc} (hat : At N (i + 1) fds pc)
    (heof : pc.pastEof = false) : End.lectura i ∈ fds := by
  cases pc with
  | childCloseWrite a old => cases old <;> simp_all [At]
  | _ => simp_all [At, Pc.pastEof]

/-- Who has the write end of pipe `j`. -/
theorem of_escritura_mem {fds : List End} {pc : Pc} {j : Nat} (hat : At N i fds pc)
    (hmem : End.escritura j ∈ fds) : i = j ∨ i = j + 1 ∧ ∃ old, pc = .childCloseWrite j old := by
  cases pc with
  | childCloseWrite a old => cases old <;> simp_all [At]
  | childCloseRead a =>
      rcases hat.2 with hfds | hfds
      · simp [hfds] at hmem
      · simp [hfds] at hmem
  | _ => simp_all [At]

theorem Inv.eof_stream (hinv : Inv N s) {a : Nat} (ha : a + 1 < s.nprocs) (hq : s.queues a = [])
    (hopen : ¬ s.isOpen (.escritura a)) : stream N s (a + 1) = [] := by
  have hok := hinv.procs a (Nat.lt_of_succ_lt ha)
  have hno : End.escritura a ∉ (s.procs a).fds :=
    fun hmem => hopen ⟨a, Nat.lt_of_succ_lt ha, hmem⟩
  have hpre : (s.procs a).pc.preFork = false := by
    by_contra h
    have := hok.pre (by simpa using h)
    omega
  rw [stream, hq, toWrite_eq_nil hok.place hno hpre]
  rfl

theorem Inv.reader_open (hinv : Inv N s) (hi : i < s.nprocs)
    (hpost : (s.procs i).pc.postFork = true)
    (hw : toWrite N (s.procs i).pc (stream N s i) ≠ []) : s.isOpen (.lectura i) := by
  have hnext := (hinv.procs i hi).post hpost
  refine ⟨i + 1, hnext, lectura_mem (hinv.procs (i + 1) hnext).place ?_⟩
  by_contra heof
  have hnil := (hinv.procs (i + 1) hnext).eof (by simpa using heof)
  rw [stream, List.append_eq_nil_iff] at hnil
  exact hw hnil.2

/-! ## System calls -/

/-- The new state is a good one, with less to do. -/
def Advances (N : Nat) (s s' : Net) : Prop := Inv N s' ∧ total N s' < total N s

theorem Inv.advances (hinv : Inv N s) (hi : i < s.nprocs) {c w said : List Nat} {pc : Pc}
    {fds : List End} (hm : Moved s s' i c w said pc fds)
    (hl : ∀ inp, stream N s i = c ++ inp → Legal N i (s.procs i).pc c w said pc fds inp) :
    Advances N s s' := by
  have hl := hl (stream N s' i) hm.stream_self
  exact ⟨hinv.moved hm hl hi, hm.total_lt hl hi⟩

theorem moved_set (s : Net) (i : Nat) (pc : Pc) (fds : List End) (said : List Nat)
    (hown : pc.ownPipe = false) :
    Moved s (s.set i ⟨pc, fds, (s.procs i).parent, (s.procs i).printed ++ said⟩) i [] [] said pc
      fds where
  nprocs := rfl
  procs := fun _ hk => Function.update_of_ne hk ..
  self := Function.update_self ..
  frame := fun _ _ _ => rfl
  reads := fun _ _ => rfl
  first := fun _ => rfl
  writes := (List.append_nil _).symm
  npipes := by
    rw [hown]
    rfl

theorem moved_goto (s : Net) (i : Nat) {pc : Pc} (hown : pc.ownPipe = false) :
    Moved s (s.goto i pc) i [] [] [] pc (s.procs i).fds := by
  have hm := moved_set s i pc (s.procs i).fds [] hown
  rw [List.append_nil] at hm
  exact hm

theorem moved_close (s : Net) (i : Nat) {pc : Pc} (e : End) (hown : pc.ownPipe = false) :
    Moved s (s.close i e pc) i [] [] [] pc ((s.procs i).fds.filter (· ≠ e)) := by
  have hm := moved_set s i pc ((s.procs i).fds.filter (· ≠ e)) [] hown
  rw [List.append_nil] at hm
  exact hm

theorem moved_pipe {pc : Nat → Pc} (hown : (pc s.npipes).ownPipe = true) :
    Moved s (s.pipe i pc) i [] [] [] (pc s.npipes)
      (.lectura s.npipes :: .escritura s.npipes :: (s.procs i).fds) where
  nprocs := rfl
  procs := fun _ hk => Function.update_of_ne hk ..
  self := by
    rw [List.append_nil]
    exact Function.update_self ..
  frame := fun _ _ _ => rfl
  reads := fun _ _ => rfl
  first := fun _ => rfl
  writes := (List.append_nil _).symm
  npipes := by
    rw [hown]
    rfl

theorem moved_read {a n : Nat} {rest : List Nat} {pc : Pc} (hi : i = a + 1)
    (hq : s.queues a = n :: rest) (hown : pc.ownPipe = false) :
    Moved s { s.goto i pc with queues := Function.update s.queues a rest } i [n] [] [] pc
      (s.procs i).fds where
  nprocs := rfl
  procs := (moved_goto s i hown).procs
  self := (moved_goto s i hown).self
  frame := fun j hj _ => Function.update_of_ne (by omega) ..
  reads := by
    intro j hj
    obtain rfl : j = a := by omega
    rw [hq]
    simp
  first := fun h0 => absurd (h0.symm.trans hi) (Nat.succ_ne_zero a).symm
  writes := by
    rw [List.append_nil]
    exact Function.update_of_ne (by omega) ..
  npipes := (moved_goto s i hown).npipes

theorem moved_write (n : Nat) {pc : Pc} (hown : pc.ownPipe = false) :
    Moved s { s.goto i pc with queues := Function.update s.queues i (s.queues i ++ [n]) } i [] [n] []
      pc (s.procs i).fds where
  nprocs := rfl
  procs := (moved_goto s i hown).procs
  self := (moved_goto s i hown).self
  frame := fun j _ hj => Function.update_of_ne hj ..
  reads := by
    intro j hj
    exact (Function.update_of_ne (by omega) ..).symm
  first := fun _ => rfl
  writes := Function.update_self ..
  npipes := (moved_goto s i hown).npipes

theorem Inv.advances_read (hinv : Inv N s) {a : Nat} (hi : a + 1 < s.nprocs) {pc : Nat → Pc} {eof : Pc}
    (hs : s.read (a + 1) a pc eof = some s') (hown : ∀ n, (pc n).ownPipe = false)
    (hownEof : eof.ownPipe = false)
    (hdata : ∀ n inp, Legal N (a + 1) (s.procs (a + 1)).pc [n] [] [] (pc n) (s.procs (a + 1)).fds inp)
    (heof : Legal N (a + 1) (s.procs (a + 1)).pc [] [] [] eof (s.procs (a + 1)).fds []) :
    Advances N s s' := by
  unfold Net.read at hs
  split at hs
  · rename_i n rest hq
    cases hs
    exact hinv.advances hi (moved_read rfl hq (hown n)) (fun inp _ => hdata n inp)
  · rename_i hq
    split at hs
    · cases hs
    · rename_i hclosed
      cases hs
      refine hinv.advances hi (moved_goto s (a + 1) hownEof) (fun inp hinp => ?_)
      rw [hinv.eof_stream hi hq hclosed] at hinp
      rw [← show [] = inp from hinp]
      exact heof

theorem Inv.advances_write (hinv : Inv N s) (hi : i < s.nprocs) {n : Nat} {pc : Pc}
    (hs : s.write cap i i n pc = some s') (hown : pc.ownPipe = false)
    (hpost : (s.procs i).pc.postFork = true)
    (hl : ∀ inp, Legal N i (s.procs i).pc [] [n] [] pc (s.procs i).fds inp) : Advances N s s' := by
  have hw : toWrite N (s.procs i).pc (stream N s i) ≠ [] := by
    rw [show toWrite N (s.procs i).pc (stream N s i) = [n] ++ _ from (hl (stream N s i)).writes]
    exact List.cons_ne_nil _ _
  unfold Net.write at hs
  rw [if_neg (not_not.2 (hinv.reader_open hi hpost hw))] at hs
  split at hs
  · cases hs
    exact hinv.advances hi (moved_write n hown) (fun inp _ => hl inp)
  · cases hs

theorem Inv.advances_wait (hinv : Inv N s) (hi : i < s.nprocs) {pc : Pc}
    (hs : s.wait i pc = some s') (hown : pc.ownPipe = false) (hl : ∀ inp, stream N s i = inp →
      Legal N i (s.procs i).pc [] [] [] pc (s.procs i).fds inp) : Advances N s s' := by
  unfold Net.wait at hs
  split at hs
  · cases hs
    exact hinv.advances hi (moved_goto s i hown) hl
  · cases hs

/-! ## One step -/

/-- A process goes on to `pc` with its descriptors as they are. -/
theorem Inv.advances_goto (hinv : Inv N s) (hi : i < s.nprocs) {before pc : Pc} {fds : List End}
    (hpc : (s.procs i).pc = before) (hfds : (s.procs i).fds = fds) (hown : pc.ownPipe = false)
    (hl : ∀ inp, Legal N i before [] [] [] pc fds inp) : Advances N s (s.goto i pc) := by
  refine hinv.advances hi (moved_goto s i hown) (fun inp _ => ?_)
  rw [hpc, hfds]
  exact hl inp

theorem Inv.advances_close (hinv : Inv N s) (hi : i < s.nprocs) {before pc : Pc} {fds : List End}
    {e : End} (hpc : (s.procs i).pc = before) (hfds : (s.procs i).fds = fds)
    (hown : pc.ownPipe = false)
    (hl : ∀ inp, Legal N i before [] [] [] pc (fds.filter (· ≠ e)) inp) :
    Advances N s (s.close i e pc) := by
  refine hinv.advances hi (moved_close s i e hown) (fun inp _ => ?_)
  rw [hpc, hfds]
  exact hl inp

/-- The pipe that a process creates before it forks has its own number. -/
theorem Inv.advances_pipe (hinv : Inv N s) (hi : i < s.nprocs) {before : Pc} {pc : Nat → Pc}
    {fds : List End} (hpc : (s.procs i).pc = before) (hfds : (s.procs i).fds = fds)
    (hpre : before.preFork = true) (hnone : before.ownPipe = false)
    (hown : (pc s.npipes).ownPipe = true)
    (hl : ∀ inp, Legal N i before [] [] [] (pc i) (.lectura i :: .escritura i :: fds) inp) :
    Advances N s (s.pipe i pc) := by
  have hlast := (hinv.procs i hi).pre (by rw [hpc]; exact hpre)
  have hpipe : s.npipes = i := by
    rw [hinv.npipes i hlast, hpc, hnone]
    rfl
  refine hinv.advances hi (moved_pipe hown) (fun inp _ => ?_)
  rw [hpc, hfds, hpipe]
  exact hl inp

/-- The process forks, from a program and descriptors that are known. -/
theorem Inv.advances_fork (hinv : Inv N s) (hi : i < s.nprocs) {before parent child : Pc}
    {fds : List End} (hpc : (s.procs i).pc = before) (hfds : (s.procs i).fds = fds)
    (hpre : before.preFork = true) (hown : before.ownPipe = true)
    (hflags : parent.preFork = false ∧ parent.pastEof = false)
    (hflagsChild : child.postFork = false ∧ child.pastEof = false ∧ child.ownPipe = false)
    (hwork : ∀ inp, toWrite N parent inp = toWrite N before inp ∧
      future N before inp = future N child (toWrite N before inp) ∧
      weight N parent inp + weight N child (toWrite N before inp) < weight N before inp)
    (hplace : At N i fds parent) (hplaceChild : At N (i + 1) fds child) :
    Advances N s (s.fork i parent child) := by
  subst hpc hfds
  have hf : Forks N s i parent child :=
    { last := (hinv.procs i hi).pre hpre
      same := fun inp => (hwork inp).1
      handed := fun inp => (hwork inp).2.1
      lighter := fun inp => (hwork inp).2.2
      place := hplace
      placeChild := hplaceChild
      flags := hflags
      flagsChild := hflagsChild
      own := hown }
  exact ⟨hinv.forked hf, hf.total_lt hinv⟩

/-- An instruction of `criba_de_eratostenes` or of `generar_numeros`. -/
def Pc.generador : Pc → Bool
  | .cribaPipe | .cribaFork _ | .cribaCloseRead _ | .generar _ _ | .generarWrite _ _
  | .generarNext _ _ | .cribaCloseWrite _ | .cribaWait => true
  | _ => false

/-- The first process. -/
theorem Inv.step_generador (hN : 2 ≤ N) (hmax : N < intMax) (hinv : Inv N s) (hi : i < s.nprocs)
    (hgen : (s.procs i).pc.generador = true) (hs : step N cap s i = some s') : Advances N s s' := by
  rw [Fork.step, if_pos hi] at hs
  have hplace := (hinv.procs i hi).place
  cases hpc : (s.procs i).pc with
  | cribaPipe =>
      rw [hpc] at hs hplace
      cases hs
      obtain ⟨rfl, hfds⟩ := hplace
      refine hinv.advances_pipe hi hpc hfds rfl rfl rfl (fun inp => ?_)
      constructor <;> simp
  | cribaFork b =>
      rw [hpc] at hs hplace
      cases hs
      obtain ⟨rfl, rfl, hfds⟩ := hplace
      refine hinv.advances_fork hi hpc hfds rfl rfl ⟨rfl, rfl⟩ ⟨rfl, rfl, rfl⟩ (fun inp => ?_) ?_ ?_
      · simp only [weight, toWrite, future, true_and]
        omega
      · simp
      · simp
  | cribaCloseRead b =>
      rw [hpc] at hs hplace
      cases hs
      obtain ⟨rfl, rfl, hfds⟩ := hplace
      refine hinv.advances_close hi hpc hfds rfl (fun inp => ?_)
      constructor <;> simp
      omega
  | generar b k =>
      rw [hpc] at hs hplace
      cases hs
      obtain ⟨rfl, rfl, hfds, hk⟩ := hplace
      by_cases hle : k ≤ N
      · rw [if_pos hle]
        refine hinv.advances_goto hi hpc hfds rfl (fun inp => ?_)
        constructor <;> simp [hle]
      · rw [if_neg hle]
        refine hinv.advances_goto hi hpc hfds rfl (fun inp => ?_)
        constructor <;> simp [numeros_of_lt (Nat.lt_of_not_le hle)]
        omega
  | generarWrite b k =>
      rw [hpc] at hs hplace
      obtain ⟨rfl, rfl, hfds, hk⟩ := hplace
      refine hinv.advances_write hi hs rfl (by rw [hpc]; rfl) (fun inp => ?_)
      rw [hpc, hfds]
      constructor <;> simp [numeros_of_le hk, hk]
  | generarNext b k =>
      rw [hpc] at hs hplace
      cases hs
      obtain ⟨rfl, rfl, hfds, hk⟩ := hplace
      rw [if_pos (show k + 1 ≤ intMax by omega)]
      refine hinv.advances_goto hi hpc hfds rfl (fun inp => ?_)
      constructor <;> simp
      · omega
      · exact hk
  | cribaCloseWrite b =>
      rw [hpc] at hs hplace
      cases hs
      obtain ⟨rfl, rfl, hfds⟩ := hplace
      refine hinv.advances_close hi hpc hfds rfl (fun inp => ?_)
      constructor <;> simp
  | cribaWait =>
      rw [hpc] at hs hplace
      obtain ⟨rfl, hfds⟩ := hplace
      refine hinv.advances_wait hi hs rfl (fun inp hinp => ?_)
      rw [hpc, hfds, ← hinp, stream]
      constructor <;> simp
  | _ =>
      rw [hpc] at hgen
      cases hgen

/-- A filter, from its `fork` to its end. -/
theorem Inv.step_filtro (hinv : Inv N s) (hi : i < s.nprocs)
    (hgen : (s.procs i).pc.generador = false) (hs : step N cap s i = some s') : Advances N s s' := by
  rw [Fork.step, if_pos hi] at hs
  have hplace := (hinv.procs i hi).place
  cases hpc : (s.procs i).pc with
  | childCloseWrite a old =>
      rw [hpc] at hs hplace
      cases hs
      cases old with
      | none =>
          obtain ⟨rfl, hfds⟩ := hplace
          refine hinv.advances_close hi hpc hfds rfl (fun inp => ?_)
          constructor <;> simp
      | some c =>
          obtain ⟨rfl, rfl, hfds⟩ := hplace
          refine hinv.advances_close hi hpc hfds rfl (fun inp => ?_)
          constructor <;> simp
  | childCloseOld a c =>
      rw [hpc] at hs hplace
      cases hs
      obtain ⟨rfl, rfl, hfds⟩ := hplace
      refine hinv.advances_close hi hpc hfds rfl (fun inp => ?_)
      constructor <;> simp
  | firstRead a =>
      rw [hpc] at hs hplace
      obtain ⟨rfl, hfds⟩ := hplace
      refine hinv.advances_read hi hs (fun _ => rfl) rfl (fun p inp => ?_) ?_
      · rw [hpc, hfds]
        constructor <;> simp [pasan, sieve_cons, chainWeight_cons, filtro]
      · rw [hpc, hfds]
        constructor <;> simp [pasan, chainWeight]
  | printPrimo a p =>
      rw [hpc] at hs hplace
      cases hs
      obtain ⟨rfl, hfds⟩ := hplace
      refine hinv.advances hi (moved_set s (a + 1) _ (s.procs (a + 1)).fds [p] rfl) (fun inp _ => ?_)
      rw [hpc, hfds]
      constructor <;> simp
  | nuevoPipe a p =>
      rw [hpc] at hs hplace
      cases hs
      obtain ⟨rfl, hfds⟩ := hplace
      refine hinv.advances_pipe hi hpc hfds rfl rfl rfl (fun inp => ?_)
      constructor <;> simp
  | forkChild a p b =>
      rw [hpc] at hs hplace
      cases hs
      obtain ⟨rfl, rfl, hfds⟩ := hplace
      refine hinv.advances_fork hi hpc hfds rfl rfl ⟨rfl, rfl⟩ ⟨rfl, rfl, rfl⟩ (fun inp => ?_) ?_ ?_
      · simp only [weight, toWrite, future, true_and]
        omega
      · simp
      · simp
  | closeRead a p b =>
      rw [hpc] at hs hplace
      cases hs
      obtain ⟨rfl, rfl, hfds⟩ := hplace
      refine hinv.advances_close hi hpc hfds rfl (fun inp => ?_)
      constructor <;> simp
  | readNumero a p b =>
      rw [hpc] at hs hplace
      obtain ⟨rfl, rfl, hfds⟩ := hplace
      refine hinv.advances_read hi hs (fun _ => rfl) rfl (fun n inp => ?_) ?_
      · rw [hpc, hfds]
        constructor <;> simp
        omega
      · rw [hpc, hfds]
        constructor <;> simp [filtro]
  | writeNumero a p b n =>
      rw [hpc] at hs hplace
      obtain ⟨rfl, rfl, hfds⟩ := hplace
      refine hinv.advances_write hi hs rfl (by rw [hpc]; rfl) (fun inp => ?_)
      rw [hpc, hfds]
      constructor <;> simp
  | testNumero a p b n =>
      rw [hpc] at hs hplace
      cases hs
      obtain ⟨rfl, rfl, hfds⟩ := hplace
      by_cases hn : n % p ≠ 0
      · rw [if_pos hn]
        refine hinv.advances_goto hi hpc hfds rfl (fun inp => ?_)
        constructor <;> simp [filtro, hn]
      · rw [if_neg hn]
        rw [not_not] at hn
        refine hinv.advances_goto hi hpc hfds rfl (fun inp => ?_)
        constructor <;> simp [filtro, hn]
  | closeEntrada a b =>
      rw [hpc] at hs hplace
      cases hs
      obtain ⟨rfl, rfl, hfds⟩ := hplace
      refine hinv.advances_close hi hpc hfds rfl (fun inp => ?_)
      constructor <;> simp
  | closeWrite a b =>
      rw [hpc] at hs hplace
      cases hs
      obtain ⟨rfl, rfl, hfds⟩ := hplace
      refine hinv.advances_close hi hpc hfds rfl (fun inp => ?_)
      constructor <;> simp
  | childCloseRead a =>
      rw [hpc] at hs hplace
      cases hs
      obtain ⟨rfl, hfds⟩ := hplace
      refine hinv.advances hi (moved_close s (a + 1) _ rfl) (fun inp _ => ?_)
      rw [hpc]
      have hempty : (s.procs (a + 1)).fds.filter (· ≠ .lectura a) = [] := by
        rcases hfds with hfds | hfds
        · simp [hfds]
        · simp [hfds]
      rw [hempty]
      constructor <;> simp
  | exit =>
      rw [hpc] at hs
      cases hs
      have hm := moved_set s i .done [] [] rfl
      rw [List.append_nil] at hm
      refine hinv.advances hi hm (fun inp _ => ?_)
      rw [hpc]
      constructor <;> simp
  | done =>
      rw [hpc] at hs
      cases hs
  | crashed =>
      rw [hpc] at hs
      cases hs
  | waitChild a =>
      rw [hpc] at hs hplace
      obtain ⟨rfl, hfds⟩ := hplace
      refine hinv.advances_wait hi hs rfl (fun inp _ => ?_)
      rw [hpc, hfds]
      constructor <;> simp
  | _ =>
      rw [hpc] at hgen
      cases hgen

theorem Inv.step (hN : 2 ≤ N) (hmax : N < intMax) (hinv : Inv N s) (hs : step N cap s i = some s') :
    Advances N s s' := by
  by_cases hi : i < s.nprocs
  · cases hgen : (s.procs i).pc.generador with
    | true => exact hinv.step_generador hN hmax hi hgen hs
    | false => exact hinv.step_filtro hi hgen hs
  · rw [Fork.step, if_neg hi] at hs
    cases hs

theorem inv_boot : Inv N boot where
  pos := Nat.one_pos
  procs := by
    intro i hi
    obtain rfl : i = 0 := Nat.lt_one_iff.1 hi
    exact ⟨⟨rfl, rfl⟩, fun _ => rfl, fun h => absurd h Bool.false_ne_true,
      fun h => absurd h Bool.false_ne_true, fun k hk => absurd hk (Nat.succ_ne_zero k).symm⟩
  fresh := fun _ _ => rfl
  npipes := by
    intro i hi
    obtain rfl : i = 0 := Nat.succ.inj hi
    rfl
  said := by
    intro i hi
    obtain rfl : i = 0 := Nat.succ.inj hi
    rfl

/-- In every run the invariant holds, and the steps so far are paid for. -/
theorem Run.inv (hN : 2 ≤ N) (hmax : N < intMax) {k : Nat} (hrun : Run N cap k s) :
    Inv N s ∧ k + total N s ≤ total N Fork.boot := by
  induction hrun with
  | boot => exact ⟨inv_boot, Nat.le_of_eq (Nat.zero_add _)⟩
  | step i _ hs ih =>
      obtain ⟨hinv, hlt⟩ := ih.1.step hN hmax hs
      exact ⟨hinv, by omega⟩

/-! ## Where no process can go on -/

/-- The pipe a process reads from next. -/
def Pc.reads : Pc → Option Nat
  | .firstRead a | .readNumero a _ _ => some a
  | _ => none

def Pc.writes : Pc → Option Nat
  | .generarWrite b _ | .writeNumero _ _ b _ => some b
  | _ => none

def Pc.waits : Pc → Bool
  | .cribaWait | .waitChild _ => true
  | _ => false

/-- Why a process does not go on. -/
inductive Stuck (cap : Nat) (s : Net) (i : Nat) : Prop where
  | done : (s.procs i).pc = .done → Stuck cap s i
  | crashed : (s.procs i).pc = .crashed → Stuck cap s i
  | read (a : Nat) : (s.procs i).pc.reads = some a → s.queues a = [] → s.isOpen (.escritura a) →
      Stuck cap s i
  | write (b : Nat) : (s.procs i).pc.writes = some b → cap ≤ (s.queues b).length → Stuck cap s i
  | wait : (s.procs i).pc.waits = true →
      (¬ ∃ k, k < s.nprocs ∧ (s.procs k).parent = some i ∧ (s.procs k).pc.isDone = true) →
      Stuck cap s i

theorem read_eq_none {a : Nat} {pc : Nat → Pc} {eof : Pc} (h : s.read i a pc eof = none) :
    s.queues a = [] ∧ s.isOpen (.escritura a) := by
  unfold Net.read at h
  split at h
  · cases h
  · rename_i hq
    split at h
    · rename_i hopen
      exact ⟨hq, hopen⟩
    · cases h

theorem write_eq_none {b n : Nat} {pc : Pc} (h : s.write cap i b n pc = none) :
    cap ≤ (s.queues b).length := by
  unfold Net.write at h
  split at h
  · cases h
  · split at h
    · cases h
    · rename_i hfull
      exact Nat.le_of_not_lt hfull

theorem wait_eq_none {pc : Pc} (h : s.wait i pc = none) :
    ¬ ∃ k, k < s.nprocs ∧ (s.procs k).parent = some i ∧ (s.procs k).pc.isDone = true := by
  unfold Net.wait at h
  split at h
  · cases h
  · rename_i hnone
    exact hnone

theorem stuck_of_step_eq_none (hi : i < s.nprocs) (h : step N cap s i = none) : Stuck cap s i := by
  unfold step at h
  rw [if_pos hi] at h
  cases hpc : (s.procs i).pc with
  | cribaWait =>
      rw [hpc] at h
      exact .wait (by rw [hpc]; rfl) (wait_eq_none h)
  | generarWrite b k =>
      rw [hpc] at h
      exact .write b (by rw [hpc]; rfl) (write_eq_none h)
  | firstRead a =>
      rw [hpc] at h
      obtain ⟨hq, hopen⟩ := read_eq_none h
      exact .read a (by rw [hpc]; rfl) hq hopen
  | readNumero a p b =>
      rw [hpc] at h
      obtain ⟨hq, hopen⟩ := read_eq_none h
      exact .read a (by rw [hpc]; rfl) hq hopen
  | writeNumero a p b n =>
      rw [hpc] at h
      exact .write b (by rw [hpc]; rfl) (write_eq_none h)
  | waitChild a =>
      rw [hpc] at h
      exact .wait (by rw [hpc]; rfl) (wait_eq_none h)
  | done => exact .done hpc
  | crashed => exact .crashed hpc
  | _ =>
      rw [hpc] at h
      cases h

theorem of_reads {fds : List End} {pc : Pc} {a : Nat} (hat : At N i fds pc)
    (h : pc.reads = some a) : i = a + 1 ∧ ∀ old, pc ≠ .childCloseWrite a old := by
  cases pc <;> simp_all [Pc.reads, At]

theorem of_writes {fds : List End} {pc : Pc} {b : Nat} (hat : At N i fds pc)
    (h : pc.writes = some b) : b = i ∧ pc.postFork = true := by
  cases pc <;> simp_all [Pc.writes, At]

theorem of_waits {fds : List End} {pc : Pc} (hat : At N i fds pc) (h : pc.waits = true) :
    fds = [] ∧ pc.postFork = true ∧ (0 < i → pc.pastEof = true) := by
  cases pc <;> simp_all [Pc.waits, At]

section Stuck

variable (hinv : Inv N s) (hcap : 0 < cap) (hstuck : ∀ j, j < s.nprocs → Stuck cap s j)
include hinv hcap hstuck

/-- A process that waits for a number waits for the one before it, which
waits for a number too; the first process never does. -/
theorem Inv.not_read {a : Nat} (hi : a + 1 < s.nprocs)
    (hr : (s.procs (a + 1)).pc.reads = some a) (hq : s.queues a = [])
    (hopen : s.isOpen (.escritura a)) : False := by
  induction a using Nat.strong_induction_on with
  | _ a ih =>
      have hplace := fun j hj => (hinv.procs j hj).place
      obtain ⟨k, hk, hmem⟩ := hopen
      rcases of_escritura_mem (hplace k hk) hmem with rfl | ⟨rfl, old, hold⟩
      · -- the writer of the pipe is stuck as well
        cases hstuck k hk with
        | done hpc =>
            have hfds := hplace k hk
            rw [hpc] at hfds
            rw [show (s.procs k).fds = [] from hfds] at hmem
            cases hmem
        | crashed hpc =>
            have hfds := hplace k hk
            rw [hpc] at hfds
            exact hfds
        | read b hb hqb hopenb =>
            obtain ⟨rfl, -⟩ := of_reads (hplace k hk) hb
            exact ih b (Nat.lt_succ_self b) hk hb hqb hopenb
        | write b hb hfull =>
            obtain ⟨rfl, -⟩ := of_writes (hplace k hk) hb
            rw [hq] at hfull
            exact absurd hfull (Nat.not_le_of_lt hcap)
        | wait hw _ =>
            rw [(of_waits (hplace k hk) hw).1] at hmem
            cases hmem
      · exact (of_reads (hplace _ hi) hr).2 old hold

/-- A process whose pipe is full waits for the one after it, which waits
for room too; the last process never does. -/
theorem Inv.not_write (hi : i < s.nprocs) (hw : (s.procs i).pc.writes = some i)
    (hfull : cap ≤ (s.queues i).length) : False := by
  induction hn : s.nprocs - i using Nat.strong_induction_on generalizing i with
  | _ n ih =>
      have hnext := (hinv.procs i hi).post (of_writes (hinv.procs i hi).place hw).2
      have hok := hinv.procs (i + 1) hnext
      have hstream : stream N s (i + 1) ≠ [] := by
        intro hnil
        rw [stream, List.append_eq_nil_iff] at hnil
        rw [hnil.1] at hfull
        exact absurd hfull (Nat.not_le_of_lt hcap)
      cases hstuck (i + 1) hnext with
      | done hpc => exact hstream (hok.eof (by rw [hpc]; rfl))
      | crashed hpc =>
          have hfds := hok.place
          rw [hpc] at hfds
          exact hfds
      | read a ha hq hopen =>
          obtain ⟨heq, -⟩ := of_reads hok.place ha
          obtain rfl := Nat.succ.inj heq
          exact hinv.not_read hcap hstuck hnext ha hq hopen
      | write b hb hfull' =>
          obtain ⟨rfl, -⟩ := of_writes hok.place hb
          exact ih (s.nprocs - (i + 1)) (by omega) hnext hb hfull' rfl
      | wait hwait _ =>
          exact hstream (hok.eof ((of_waits hok.place hwait).2.2 (Nat.succ_pos i)))

/-- A process that waits for its child waits for a process that waits for
its own. -/
theorem Inv.not_wait (hi : i < s.nprocs) (hw : (s.procs i).pc.waits = true)
    (hnone : ¬ ∃ k, k < s.nprocs ∧ (s.procs k).parent = some i ∧ (s.procs k).pc.isDone = true) :
    False := by
  induction hn : s.nprocs - i using Nat.strong_induction_on generalizing i with
  | _ n ih =>
      have hnext := (hinv.procs i hi).post (of_waits (hinv.procs i hi).place hw).2.1
      have hok := hinv.procs (i + 1) hnext
      cases hstuck (i + 1) hnext with
      | done hpc => exact hnone ⟨i + 1, hnext, hok.parent i rfl, by rw [hpc]; rfl⟩
      | crashed hpc =>
          have hfds := hok.place
          rw [hpc] at hfds
          exact hfds
      | read a ha hq hopen =>
          obtain ⟨heq, -⟩ := of_reads hok.place ha
          obtain rfl := Nat.succ.inj heq
          exact hinv.not_read hcap hstuck hnext ha hq hopen
      | write b hb hfull =>
          obtain ⟨rfl, -⟩ := of_writes hok.place hb
          exact hinv.not_write hcap hstuck hnext hb hfull
      | wait hwait hnone' =>
          exact ih (s.nprocs - (i + 1)) (by omega) hnext hwait hnone' rfl

theorem Inv.all_done (hi : i < s.nprocs) : (s.procs i).pc = .done := by
  have hok := hinv.procs i hi
  cases hstuck i hi with
  | done hpc => exact hpc
  | crashed hpc =>
      have hfds := hok.place
      rw [hpc] at hfds
      exact hfds.elim
  | read a ha hq hopen =>
      obtain ⟨rfl, -⟩ := of_reads hok.place ha
      exact (hinv.not_read hcap hstuck hi ha hq hopen).elim
  | write b hb hfull =>
      obtain ⟨rfl, -⟩ := of_writes hok.place hb
      exact (hinv.not_write hcap hstuck hi hb hfull).elim
  | wait hw hnone => exact (hinv.not_wait hcap hstuck hi hw hnone).elim

end Stuck

/-! ## The primes -/

/-- The primes from 2 to `N`, in increasing order. -/
def primos (N : Nat) : List Nat := (numeros 2 N).filter (fun n => n.Prime)

/-- Every process has ended, nothing is left in the pipes, and the numbers
announced along the chain are the primes. -/
structure Finished (N : Nat) (s : Net) : Prop where
  ended : ∀ i, i < s.nprocs → (s.procs i).pc = .done
  consumed : ∀ j, s.queues j = []
  primes : announced s = primos N

theorem sieve_numeros (N : Nat) : sieve (numeros 2 N) = primos N := by
  rw [primos, numeros]
  exact sieve_eq_primes _

theorem Inv.finished (hinv : Inv N s) (hcap : 0 < cap)
    (hnone : ∀ i, Fork.step N cap s i = none) :
    Finished N s := by
  have hdone : ∀ i, i < s.nprocs → (s.procs i).pc = .done :=
    fun i hi => hinv.all_done hcap (fun j hj => stuck_of_step_eq_none hj (hnone j)) hi
  refine ⟨hdone, fun j => ?_, ?_⟩
  · by_cases hj : j + 1 < s.nprocs
    · have hnil := (hinv.procs (j + 1) hj).eof (by rw [hdone _ hj]; rfl)
      rw [stream, List.append_eq_nil_iff] at hnil
      exact hnil.1
    · exact hinv.fresh j (Nat.le_of_not_lt hj)
  · obtain ⟨i, hi⟩ := Nat.exists_eq_succ_of_ne_zero (Nat.ne_of_gt hinv.pos)
    have hsaid := hinv.said i hi.symm
    rw [hdone i (by omega)] at hsaid
    rw [← sieve_numeros, ← hsaid]
    exact (List.append_nil _).symm

/-- The sieve of processes, for pipes of any capacity: every run ends, what
it has announced on the way is a beginning of the primes, and where it ends
every process has terminated, with its input consumed, and the primes have
been announced. -/
theorem criba_primos (N cap : Nat) (hN : 2 ≤ N) (hmax : N < intMax) (hcap : 0 < cap) :
    (∃ bound, ∀ k s, Run N cap k s → k ≤ bound) ∧
    ∀ k s, Run N cap k s → announced s <+: primos N ∧
      ((∀ i, step N cap s i = none) → Finished N s) := by
  refine ⟨⟨total N boot, fun k s hrun => ?_⟩, fun k s hrun => ⟨?_, ?_⟩⟩
  · have hle := (hrun.inv hN hmax).2
    omega
  · have hinv := (hrun.inv hN hmax).1
    obtain ⟨i, hi⟩ := Nat.exists_eq_succ_of_ne_zero (Nat.ne_of_gt hinv.pos)
    rw [← sieve_numeros, ← hinv.said i hi.symm]
    exact List.prefix_append ..
  · exact (hrun.inv hN hmax).1.finished hcap

theorem criba_primos_ten :
    (∃ bound, ∀ k s, Run 10 1 k s → k ≤ bound) ∧
    ∀ k s, Run 10 1 k s → announced s <+: primos 10 ∧
      ((∀ i, step 10 1 s i = none) → Finished 10 s) :=
  criba_primos 10 1 (by decide) (by decide) (by decide)

example : primos 10 = [2, 3, 5, 7] := by decide

end SistemasOperativos.Fork
