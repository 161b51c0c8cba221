/-
SistemasOperativos.Lib.Process — programs that fork, and their descriptor
tables.

A program is a tree of system calls with POSIX meaning, none of which
fails. Processes run interleaved and interact only through `fork` and
`waitpid`, so a property of one process at every point of its program is
proved on the program alone: `Wp` asks for it call by call, and
`Reached.ok` carries it to every state of every run. In the same way
`WaitsOwn` on the program excludes a deadlock, and `WillExec` gives an
`execvp` in every run that ends.

A process, and a pipe, is named by its place in the tree of processes: the
`k`-th thing that `p` creates is `p ++ [k]`.
-/
import Mathlib.Logic.Function.Basic
import Mathlib.Data.Nat.Find
import Mathlib.Order.Lattice

namespace Process

/-! ## Programs -/

abbrev Name := List Nat

inductive Mode where
  | rdonly
  | creatTrunc
  deriving DecidableEq, Repr

/-- What a descriptor refers to. -/
inductive File (Path : Type) where
  /-- What the first process had open as `fd`. -/
  | inherited (fd : Nat)
  | regular (path : Path) (mode : Mode)
  | readEnd (pipe : Name)
  | writeEnd (pipe : Name)
  deriving DecidableEq, Repr

abbrev Table (Path : Type) := Nat → Option (File Path)

/-- A continuation gets what the call returns. -/
inductive Prog (Path Image : Type) where
  | pipe (k : Nat → Nat → Prog Path Image)
  | openFile (path : Path) (mode : Mode) (k : Nat → Prog Path Image)
  | dup2 (oldfd newfd : Nat) (k : Prog Path Image)
  | close (fd : Nat) (k : Prog Path Image)
  | fork (child : Prog Path Image) (parent : Name → Prog Path Image)
  | waitpid (pid : Name) (k : Prog Path Image)
  | execvp (image : Image)
  | exit

/-! ## Processes -/

inductive State (Path Image : Type) where
  | code (p : Prog Path Image)
  /-- After `execvp`. -/
  | image (i : Image)
  | zombie

/-- `born` counts the pipes and the children so far; `closed` is what the
process has closed with `close`. -/
structure Proc (Path Image : Type) where
  state : State Path Image
  fds : Table Path
  born : Nat
  closed : List (File Path)

abbrev Machine (Path Image : Type) := Name → Option (Proc Path Image)

/-- An `execvp`, with the table at that moment. -/
structure Exec (Path Image : Type) where
  pid : Name
  image : Image
  fds : Table Path

variable {Path Image : Type}

/-- The lowest descriptor that is not open. -/
def Lowest (t : Table Path) (fd : Nat) : Prop := t fd = none ∧ ∀ d, d < fd → t d ≠ none

def pipeTable (t : Table Path) (r w : Nat) (pipe : Name) : Table Path :=
  Function.update (Function.update t r (some (.readEnd pipe))) w (some (.writeEnd pipe))

def dupTable (t : Table Path) (oldfd newfd : Nat) : Table Path :=
  match t oldfd with
  | none => t
  | some f => Function.update t newfd (some f)

def closeTable (t : Table Path) (fd : Nat) : Table Path := Function.update t fd none

/-- One call of one process. -/
inductive Step :
    Machine Path Image → List (Exec Path Image) → Machine Path Image → Prop where
  | pipe {m : Machine Path Image} (pid : Name) {k : Nat → Nat → Prog Path Image}
      {t : Table Path} {b r w : Nat} {cl : List (File Path)} :
      m pid = some ⟨.code (.pipe k), t, b, cl⟩ → Lowest t r →
      Lowest (Function.update t r (some (.readEnd (pid ++ [b])))) w →
      Step m [] (Function.update m pid
        (some ⟨.code (k r w), pipeTable t r w (pid ++ [b]), b + 1, cl⟩))
  | openFile {m : Machine Path Image} (pid : Name) {path : Path} {mode : Mode}
      {k : Nat → Prog Path Image} {t : Table Path} {b fd : Nat} {cl : List (File Path)} :
      m pid = some ⟨.code (.openFile path mode k), t, b, cl⟩ → Lowest t fd →
      Step m [] (Function.update m pid
        (some ⟨.code (k fd), Function.update t fd (some (.regular path mode)), b, cl⟩))
  | dup2 {m : Machine Path Image} (pid : Name) {oldfd newfd : Nat} {k : Prog Path Image}
      {t : Table Path} {b : Nat} {cl : List (File Path)} :
      m pid = some ⟨.code (.dup2 oldfd newfd k), t, b, cl⟩ →
      Step m [] (Function.update m pid (some ⟨.code k, dupTable t oldfd newfd, b, cl⟩))
  | close {m : Machine Path Image} (pid : Name) {fd : Nat} {k : Prog Path Image}
      {t : Table Path} {b : Nat} {cl : List (File Path)} :
      m pid = some ⟨.code (.close fd k), t, b, cl⟩ →
      Step m [] (Function.update m pid
        (some ⟨.code k, closeTable t fd, b, (t fd).toList ++ cl⟩))
  | fork {m : Machine Path Image} (pid : Name) {child : Prog Path Image}
      {parent : Name → Prog Path Image} {t : Table Path} {b : Nat} {cl : List (File Path)} :
      m pid = some ⟨.code (.fork child parent), t, b, cl⟩ →
      Step m [] (Function.update (Function.update m pid
        (some ⟨.code (parent (pid ++ [b])), t, b + 1, cl⟩))
        (pid ++ [b]) (some ⟨.code child, t, 0, []⟩))
  | waitpid {m : Machine Path Image} (pid : Name) {child : Name} {k : Prog Path Image} {t : Table Path}
      {b : Nat} {cl : List (File Path)} {p : Proc Path Image} :
      m pid = some ⟨.code (.waitpid child k), t, b, cl⟩ → m child = some p → p.state = .zombie →
      Step m [] (Function.update m pid (some ⟨.code k, t, b, cl⟩))
  | execvp {m : Machine Path Image} (pid : Name) {image : Image} {t : Table Path} {b : Nat}
      {cl : List (File Path)} :
      m pid = some ⟨.code (.execvp image), t, b, cl⟩ →
      Step m [⟨pid, image, t⟩] (Function.update m pid (some ⟨.image image, t, b, cl⟩))
  | exit {m : Machine Path Image} (pid : Name) {t : Table Path} {b : Nat} {cl : List (File Path)} :
      m pid = some ⟨.code .exit, t, b, cl⟩ →
      Step m [] (Function.update m pid (some ⟨.zombie, fun _ => none, b, cl⟩))
  /-- The new program ends. -/
  | imageExit {m : Machine Path Image} (pid : Name) {image : Image} {t : Table Path} {b : Nat}
      {cl : List (File Path)} :
      m pid = some ⟨.image image, t, b, cl⟩ →
      Step m [] (Function.update m pid (some ⟨.zombie, fun _ => none, b, cl⟩))

/-- One process that starts to run `p`. -/
def boot (p : Prog Path Image) (t : Table Path) : Machine Path Image :=
  fun pid => if pid = [] then some ⟨.code p, t, 0, []⟩ else none

/-- Runs, with every `execvp` so far. -/
inductive Reached (m₀ : Machine Path Image) :
    Machine Path Image → List (Exec Path Image) → Prop where
  | start : Reached m₀ m₀ []
  | step {m m' : Machine Path Image} {h evs : List (Exec Path Image)} :
      Reached m₀ m h → Step m evs m' → Reached m₀ m' (h ++ evs)

/-! ## What is asked of a program -/

/-- At every point, at `waitpid`, and at `execvp`. -/
structure Spec (Path Image : Type) where
  always : Name → Table Path → List (File Path) → Prop
  waits : Name → Table Path → List (File Path) → Prop
  execs : Name → Image → Table Path → Prop

/-- The program of process `pid` meets the specification from here on. -/
def Wp (S : Spec Path Image) : Prog Path Image → Name → Table Path → Nat → List (File Path) → Prop
  | .pipe k, pid, t, b, cl => S.always pid t cl ∧
      ∀ r w, Lowest t r → Lowest (Function.update t r (some (.readEnd (pid ++ [b])))) w →
        Wp S (k r w) pid (pipeTable t r w (pid ++ [b])) (b + 1) cl
  | .openFile path mode k, pid, t, b, cl => S.always pid t cl ∧
      ∀ fd, Lowest t fd →
        Wp S (k fd) pid (Function.update t fd (some (.regular path mode))) b cl
  | .dup2 oldfd newfd k, pid, t, b, cl => S.always pid t cl ∧
      Wp S k pid (dupTable t oldfd newfd) b cl
  | .close fd k, pid, t, b, cl => S.always pid t cl ∧
      Wp S k pid (closeTable t fd) b ((t fd).toList ++ cl)
  | .fork child parent, pid, t, b, cl => S.always pid t cl ∧
      Wp S child (pid ++ [b]) t 0 [] ∧ Wp S (parent (pid ++ [b])) pid t (b + 1) cl
  | .waitpid _ k, pid, t, b, cl => S.always pid t cl ∧ S.waits pid t cl ∧ Wp S k pid t b cl
  | .execvp image, pid, t, _, cl => S.always pid t cl ∧ S.execs pid image t
  | .exit, pid, t, _, cl => S.always pid t cl

variable {S : Spec Path Image}

theorem Wp.always {p : Prog Path Image} {pid : Name} {t : Table Path} {b : Nat}
    {cl : List (File Path)} (h : Wp S p pid t b cl) : S.always pid t cl := by
  cases p with
  | exit => exact h
  | _ => exact h.1

/-- A process that meets the specification. -/
def Proc.Ok (S : Spec Path Image) (pid : Name) (p : Proc Path Image) : Prop :=
  match p.state with
  | .code c => Wp S c pid p.fds p.born p.closed
  | .image _ => S.always pid p.fds p.closed
  | .zombie => p.fds = fun _ => none

/-- One process changes. -/
theorem ok_update {m : Machine Path Image} (hm : ∀ pid p, m pid = some p → p.Ok S pid) {x : Name}
    {q : Proc Path Image} (hq : q.Ok S x) (pid : Name) (p : Proc Path Image)
    (hp : Function.update m x (some q) pid = some p) : p.Ok S pid := by
  by_cases hx : pid = x
  · subst hx
    rw [Function.update_self] at hp
    cases hp
    exact hq
  · rw [Function.update_of_ne hx] at hp
    exact hm pid p hp

theorem ok_step {m m' : Machine Path Image} {evs : List (Exec Path Image)}
    (hm : ∀ pid p, m pid = some p → p.Ok S pid) (hs : Step m evs m') :
    (∀ pid p, m' pid = some p → p.Ok S pid) ∧ ∀ ev ∈ evs, S.execs ev.pid ev.image ev.fds := by
  cases hs with
  | pipe pid hp hr hw => exact ⟨ok_update hm ((hm _ _ hp).2 _ _ hr hw), by simp⟩
  | openFile pid hp hfd => exact ⟨ok_update hm ((hm _ _ hp).2 _ hfd), by simp⟩
  | dup2 pid hp => exact ⟨ok_update hm (hm _ _ hp).2, by simp⟩
  | close pid hp => exact ⟨ok_update hm (hm _ _ hp).2, by simp⟩
  | fork pid hp =>
      refine ⟨ok_update (ok_update hm ?_) ?_, by simp⟩
      · exact (hm _ _ hp).2.2
      · exact (hm _ _ hp).2.1
  | waitpid pid hp _ _ => exact ⟨ok_update hm (hm _ _ hp).2.2, by simp⟩
  | execvp pid hp =>
      refine ⟨ok_update hm (hm _ _ hp).1, fun ev hev => ?_⟩
      rw [List.mem_singleton.1 hev]
      exact (hm _ _ hp).2
  | exit pid hp => exact ⟨ok_update hm rfl, by simp⟩
  | imageExit pid hp => exact ⟨ok_update hm rfl, by simp⟩

/-- Soundness: a program that meets the specification does so in every
process of every run. -/
theorem Reached.ok {p : Prog Path Image} {t : Table Path} (hp : Wp S p [] t 0 [])
    {m : Machine Path Image} {h : List (Exec Path Image)} (hr : Reached (boot p t) m h) :
    (∀ pid q, m pid = some q → q.Ok S pid) ∧ ∀ ev ∈ h, S.execs ev.pid ev.image ev.fds := by
  induction hr with
  | start =>
      refine ⟨fun pid q hq => ?_, by simp⟩
      by_cases hpid : pid = []
      · subst hpid
        rw [boot, if_pos rfl] at hq
        cases hq
        exact hp
      · rw [boot, if_neg hpid] at hq
        cases hq
  | step _ hs ih =>
      obtain ⟨hok, hevs⟩ := ok_step ih.1 hs
      refine ⟨hok, fun ev hev => ?_⟩
      rcases List.mem_append.1 hev with hev | hev
      · exact ih.2 ev hev
      · exact hevs ev hev

/-! ## Complete runs -/

/-- No process can do anything more. -/
def Stuck (m : Machine Path Image) : Prop := ∀ evs m', ¬ Step m evs m'

theorem stuck_of_ended {m : Machine Path Image}
    (hm : ∀ pid p, m pid = some p → p.state = .zombie) : Stuck m := by
  intro evs m' hs
  cases hs with
  | pipe pid hp _ _ => cases hm _ _ hp
  | openFile pid hp _ => cases hm _ _ hp
  | dup2 pid hp => cases hm _ _ hp
  | close pid hp => cases hm _ _ hp
  | fork pid hp => cases hm _ _ hp
  | waitpid pid hp _ _ => cases hm _ _ hp
  | execvp pid hp => cases hm _ _ hp
  | exit pid hp => cases hm _ _ hp
  | imageExit pid hp => cases hm _ _ hp

/-- The program waits only for children of its own; it has the children
`kids` so far. -/
def WaitsOwn : Prog Path Image → Name → Nat → List Name → Prop
  | .pipe k, pid, b, kids => ∀ r w, WaitsOwn (k r w) pid (b + 1) kids
  | .openFile _ _ k, pid, b, kids => ∀ fd, WaitsOwn (k fd) pid b kids
  | .dup2 _ _ k, pid, b, kids => WaitsOwn k pid b kids
  | .close _ k, pid, b, kids => WaitsOwn k pid b kids
  | .fork child parent, pid, b, kids => WaitsOwn child (pid ++ [b]) 0 [] ∧
      WaitsOwn (parent (pid ++ [b])) pid (b + 1) ((pid ++ [b]) :: kids)
  | .waitpid child k, pid, b, kids => child ∈ kids ∧ WaitsOwn k pid b kids
  | .execvp _, _, _, _ => True
  | .exit, _, _, _ => True

/-- One branch of the program leads to the `execvp` of process `x`. -/
def WillExec (x : Name) : Prog Path Image → Name → Nat → Prop
  | .pipe k, pid, b => ∀ r w, WillExec x (k r w) pid (b + 1)
  | .openFile _ _ k, pid, b => ∀ fd, WillExec x (k fd) pid b
  | .dup2 _ _ k, pid, b => WillExec x k pid b
  | .close _ k, pid, b => WillExec x k pid b
  | .fork child parent, pid, b =>
      WillExec x child (pid ++ [b]) 0 ∨ WillExec x (parent (pid ++ [b])) pid (b + 1)
  | .waitpid _ k, pid, b => WillExec x k pid b
  | .execvp _, pid, _ => pid = x
  | .exit, _, _ => False

/-- The names that a process has yet to give are free. -/
def Fresh (m : Machine Path Image) : Prop :=
  ∀ pid p, m pid = some p → ∀ b rest, p.born ≤ b → m (pid ++ b :: rest) = none

theorem fresh_boot (p : Prog Path Image) (t : Table Path) : Fresh (boot p t) := by
  intro pid q _ b rest _
  rw [boot, if_neg (by simp)]

theorem Fresh.update {m : Machine Path Image} (hm : Fresh m) {x : Name} {p q : Proc Path Image}
    (hx : m x = some p) (hb : p.born ≤ q.born) : Fresh (Function.update m x (some q)) := by
  intro pid r hr b rest hle
  have hne : pid ++ b :: rest ≠ x := by
    rintro rfl
    by_cases hpid : pid = pid ++ b :: rest
    · simp at hpid
    · rw [Function.update_of_ne hpid] at hr
      rw [hm pid r hr b rest hle] at hx
      cases hx
  rw [Function.update_of_ne hne]
  by_cases hpid : pid = x
  · subst hpid
    rw [Function.update_self] at hr
    cases hr
    exact hm pid p hx b rest (hb.trans hle)
  · rw [Function.update_of_ne hpid] at hr
    exact hm pid r hr b rest hle

/-- The next child of `x` starts. -/
theorem Fresh.child {m : Machine Path Image} (hm : Fresh m) {x : Name} {p : Proc Path Image}
    (hx : m x = some p) {b : Nat} (hb : p.born = b + 1) (hfree : ∀ rest, m (x ++ b :: rest) = none)
    (q : Proc Path Image) : Fresh (Function.update m (x ++ [b]) (some q)) := by
  intro pid r hr b' rest hle
  by_cases hpid : pid = x ++ [b]
  · subst hpid
    have hne : x ++ [b] ++ b' :: rest ≠ x ++ [b] := by
      simp
    rw [Function.update_of_ne hne, List.append_assoc]
    exact hfree (b' :: rest)
  · rw [Function.update_of_ne hpid] at hr
    have hne : pid ++ b' :: rest ≠ x ++ [b] := by
      intro heq
      rcases List.eq_nil_or_concat rest with rfl | ⟨front, last, rfl⟩
      · obtain ⟨rfl, hlast⟩ := List.append_inj' heq rfl
        cases hlast
        rw [hx] at hr
        cases hr
        omega
      · rw [List.concat_eq_append, ← List.cons_append, ← List.append_assoc] at heq
        obtain ⟨hfront, -⟩ := List.append_inj' heq rfl
        rw [← hfront, hm pid r hr b' front hle] at hx
        cases hx
    rw [Function.update_of_ne hne]
    exact hm pid r hr b' rest hle

theorem Fresh.step {m m' : Machine Path Image} {evs : List (Exec Path Image)} (hm : Fresh m)
    (hs : Step m evs m') : Fresh m' := by
  cases hs with
  | pipe pid hp _ _ => exact hm.update hp (Nat.le_succ _)
  | openFile pid hp _ => exact hm.update hp le_rfl
  | dup2 pid hp => exact hm.update hp le_rfl
  | close pid hp => exact hm.update hp le_rfl
  | @fork pid child parent t b cl hp =>
      refine (hm.update hp (Nat.le_succ b)).child (Function.update_self ..) rfl (fun rest => ?_) _
      rw [Function.update_of_ne (by simp)]
      exact hm pid _ hp b rest le_rfl
  | waitpid pid hp _ _ => exact hm.update hp le_rfl
  | execvp pid hp => exact hm.update hp le_rfl
  | exit pid hp => exact hm.update hp le_rfl
  | imageExit pid hp => exact hm.update hp le_rfl

/-! ### No deadlock -/

/-- Finitely many descriptors are open. -/
def FiniteTable (t : Table Path) : Prop := ∃ n, ∀ fd, n ≤ fd → t fd = none

theorem FiniteTable.update {t : Table Path} (ht : FiniteTable t) (fd : Nat)
    (f : Option (File Path)) : FiniteTable (Function.update t fd f) := by
  obtain ⟨n, hn⟩ := ht
  refine ⟨max n (fd + 1), fun d hd => ?_⟩
  rw [Function.update_of_ne (by omega)]
  exact hn d (by omega)

theorem FiniteTable.dup {t : Table Path} (ht : FiniteTable t) (oldfd newfd : Nat) :
    FiniteTable (dupTable t oldfd newfd) := by
  unfold dupTable
  split
  · exact ht
  · exact ht.update newfd _

theorem FiniteTable.lowest {t : Table Path} (ht : FiniteTable t) : ∃ fd, Lowest t fd := by
  obtain ⟨n, hn⟩ := ht
  classical
  have hfree : ∃ fd, t fd = none := ⟨n, hn n le_rfl⟩
  exact ⟨Nat.find hfree, Nat.find_spec hfree, fun d hd => Nat.find_min hfree hd⟩

/-- A process waits only for processes that were started below it. -/
structure Proc.Waits (m : Machine Path Image) (pid : Name) (p : Proc Path Image) : Prop where
  table : FiniteTable p.fds
  own : ∀ c, p.state = .code c → ∃ kids, WaitsOwn c pid p.born kids ∧
    ∀ kid ∈ kids, pid.length < kid.length ∧ m kid ≠ none

/-- The tree of processes is finite, and every process in it waits for its
own. -/
structure Waiting (m : Machine Path Image) : Prop where
  depth : ∃ n, ∀ pid p, m pid = some p → pid.length ≤ n
  procs : ∀ pid p, m pid = some p → p.Waits m pid

theorem Proc.Waits.update {m : Machine Path Image} {pid : Name} {p : Proc Path Image}
    (hp : p.Waits m pid) (x : Name) (q : Proc Path Image) :
    p.Waits (Function.update m x (some q)) pid := by
  refine ⟨hp.table, fun c hc => ?_⟩
  obtain ⟨kids, hown, hkids⟩ := hp.own c hc
  refine ⟨kids, hown, fun kid hkid => ⟨(hkids kid hkid).1, ?_⟩⟩
  by_cases hx : kid = x
  · rw [hx, Function.update_self]
    exact Option.some_ne_none q
  · rw [Function.update_of_ne hx]
    exact (hkids kid hkid).2

theorem Waiting.update {m : Machine Path Image} (hm : Waiting m) {x : Name} {q : Proc Path Image}
    (hq : q.Waits m x) : Waiting (Function.update m x (some q)) := by
  obtain ⟨n, hn⟩ := hm.depth
  refine ⟨⟨max n x.length, fun pid p hp => ?_⟩, fun pid p hp => ?_⟩
  · by_cases hx : pid = x
    · subst hx
      exact le_max_right ..
    · rw [Function.update_of_ne hx] at hp
      exact (hn pid p hp).trans (le_max_left ..)
  · by_cases hx : pid = x
    · subst hx
      rw [Function.update_self] at hp
      cases hp
      exact hq.update pid q
    · rw [Function.update_of_ne hx] at hp
      exact (hm.procs pid p hp).update x q

/-- The process goes on with `c'`. -/
theorem Proc.Waits.next {m : Machine Path Image} {pid : Name} {c c' : Prog Path Image}
    {t t' : Table Path} {b b' : Nat} {cl cl' : List (File Path)}
    (hp : Proc.Waits m pid ⟨.code c, t, b, cl⟩) (ht : FiniteTable t → FiniteTable t')
    (hc : ∀ kids, WaitsOwn c pid b kids → WaitsOwn c' pid b' kids) :
    Proc.Waits m pid ⟨.code c', t', b', cl'⟩ := by
  refine ⟨ht hp.table, fun d hd => ?_⟩
  cases hd
  obtain ⟨kids, hown, hkids⟩ := hp.own c rfl
  exact ⟨kids, hc kids hown, hkids⟩

/-- A process that runs none of this code any more. -/
theorem Proc.Waits.done {m : Machine Path Image} {pid : Name} {p : Proc Path Image}
    (ht : FiniteTable p.fds) (hp : ∀ c, p.state ≠ .code c) : p.Waits m pid :=
  ⟨ht, fun c hc => absurd hc (hp c)⟩

theorem finiteTable_empty : FiniteTable (fun _ => none : Table Path) := ⟨0, fun _ _ => rfl⟩

theorem Waiting.step {m m' : Machine Path Image} {evs : List (Exec Path Image)} (hm : Waiting m)
    (hs : Step m evs m') : Waiting m' := by
  cases hs with
  | pipe pid hp _ _ =>
      exact hm.update ((hm.procs _ _ hp).next (fun ht => (ht.update _ _).update _ _)
        (fun _ hown => hown _ _))
  | openFile pid hp _ =>
      exact hm.update ((hm.procs _ _ hp).next (fun ht => ht.update _ _) (fun _ hown => hown _))
  | dup2 pid hp => exact hm.update ((hm.procs _ _ hp).next (fun ht => ht.dup _ _) (fun _ => id))
  | close pid hp =>
      exact hm.update ((hm.procs _ _ hp).next (fun ht => ht.update _ _) (fun _ => id))
  | @fork pid child parent t b cl hp =>
      obtain ⟨kids, ⟨hchild, hparent⟩, hkids⟩ := (hm.procs _ _ hp).own _ rfl
      have hborn : Waiting (Function.update m (pid ++ [b]) (some ⟨.code child, t, 0, []⟩)) := by
        refine hm.update ⟨(hm.procs _ _ hp).table, fun c hc => ?_⟩
        cases hc
        exact ⟨[], hchild, by simp⟩
      rw [Function.update_comm (by simp)]
      refine hborn.update ⟨(hm.procs _ _ hp).table, fun c hc => ?_⟩
      cases hc
      refine ⟨_, hparent, fun kid hkid => ?_⟩
      rcases List.mem_cons.1 hkid with rfl | hkid
      · rw [Function.update_self]
        exact ⟨by simp, Option.some_ne_none _⟩
      · refine ⟨(hkids kid hkid).1, ?_⟩
        by_cases hx : kid = pid ++ [b]
        · rw [hx, Function.update_self]
          exact Option.some_ne_none _
        · rw [Function.update_of_ne hx]
          exact (hkids kid hkid).2
  | waitpid pid hp _ _ =>
      exact hm.update ((hm.procs _ _ hp).next id (fun _ hown => hown.2))
  | execvp pid hp =>
      exact hm.update (.done (hm.procs _ _ hp).table (fun c hc => by cases hc))
  | exit pid hp => exact hm.update (.done finiteTable_empty (fun c hc => by cases hc))
  | imageExit pid hp => exact hm.update (.done finiteTable_empty (fun c hc => by cases hc))

/-- A process that cannot move, while those below it have ended, has ended. -/
theorem Waiting.zombie {m : Machine Path Image} (hm : Waiting m) (hstuck : Stuck m) {pid : Name}
    {p : Proc Path Image} (hp : m pid = some p)
    (hbelow : ∀ kid q, pid.length < kid.length → m kid = some q → q.state = .zombie) :
    p.state = .zombie := by
  obtain ⟨htable, hown⟩ := hm.procs pid p hp
  rcases p with ⟨_ | _ | _, t, b, cl⟩
  case code c =>
    exfalso
    cases c with
    | pipe k =>
        obtain ⟨r, hr⟩ := htable.lowest
        obtain ⟨w, hw⟩ := (htable.update r (some (.readEnd (pid ++ [b])))).lowest
        exact hstuck _ _ (.pipe pid hp hr hw)
    | openFile path mode k =>
        obtain ⟨fd, hfd⟩ := htable.lowest
        exact hstuck _ _ (.openFile pid hp hfd)
    | dup2 oldfd newfd k => exact hstuck _ _ (.dup2 pid hp)
    | close fd k => exact hstuck _ _ (.close pid hp)
    | fork child parent => exact hstuck _ _ (.fork pid hp)
    | waitpid child k =>
        obtain ⟨kids, ⟨hmem, -⟩, hkids⟩ := hown _ rfl
        obtain ⟨hlen, hsome⟩ := hkids child hmem
        obtain ⟨q, hq⟩ := Option.ne_none_iff_exists'.1 hsome
        exact hstuck _ _ (.waitpid pid hp hq (hbelow child q hlen hq))
    | execvp image => exact hstuck _ _ (.execvp pid hp)
    | exit => exact hstuck _ _ (.exit pid hp)
  case image i => exact absurd (.imageExit pid hp) (hstuck _ _)
  case zombie => rfl

/-- No deadlock: when no process can move, all have ended. -/
theorem Waiting.ended {m : Machine Path Image} (hm : Waiting m) (hstuck : Stuck m) :
    ∀ pid p, m pid = some p → p.state = .zombie := by
  obtain ⟨n, hn⟩ := hm.depth
  -- from the deepest processes of the tree upwards
  have hlevel : ∀ gap pid p, n - pid.length < gap → m pid = some p → p.state = .zombie := by
    intro gap
    induction gap with
    | zero => exact fun pid p hlt => absurd hlt (Nat.not_lt_zero _)
    | succ gap ih =>
        intro pid p hlt hp
        refine hm.zombie hstuck hp (fun kid q hlen hq => ih kid q ?_ hq)
        have := hn kid q hq
        omega
  exact fun pid p hp => hlevel _ pid p (Nat.lt_succ_self _) hp

/-! ### What is promised is done -/

/-- Process `x` has called `execvp`, or some process leads to it. -/
def Promised (x : Name) (m : Machine Path Image) (h : List (Exec Path Image)) : Prop :=
  (∃ ev ∈ h, ev.pid = x) ∨
    ∃ pid p c, m pid = some p ∧ p.state = .code c ∧ WillExec x c pid p.born

/-- Process `z` moves. It leads to the `execvp` still, or calls it, if it led
to it before. -/
theorem Promised.move {x : Name} {m : Machine Path Image} {h evs : List (Exec Path Image)}
    {z : Name} {p q : Proc Path Image} (hx : Promised x m h) (hz : m z = some p)
    (hself : ∀ c, p.state = .code c → WillExec x c z p.born →
      (∃ c', q.state = .code c' ∧ WillExec x c' z q.born) ∨ ∃ ev ∈ evs, ev.pid = x) :
    Promised x (Function.update m z (some q)) (h ++ evs) := by
  rcases hx with ⟨ev, hev, hpid⟩ | ⟨y, r, c, hy, hc, hwill⟩
  · exact Or.inl ⟨ev, List.mem_append_left _ hev, hpid⟩
  by_cases hyz : y = z
  · subst hyz
    rw [hy] at hz
    cases hz
    rcases hself c hc hwill with ⟨c', hc', hwill'⟩ | ⟨ev, hev, hpid⟩
    · exact Or.inr ⟨y, q, c', Function.update_self .., hc', hwill'⟩
    · exact Or.inl ⟨ev, List.mem_append_right _ hev, hpid⟩
  · refine Or.inr ⟨y, r, c, ?_, hc, hwill⟩
    rw [Function.update_of_ne hyz, hy]

/-- A new process takes a free name. -/
theorem Promised.born {x : Name} {m : Machine Path Image} {h : List (Exec Path Image)} {z : Name}
    (hx : Promised x m h) (hz : m z = none) (q : Proc Path Image) :
    Promised x (Function.update m z (some q)) h := by
  rcases hx with hdone | ⟨y, r, c, hy, hc, hwill⟩
  · exact Or.inl hdone
  · refine Or.inr ⟨y, r, c, ?_, hc, hwill⟩
    rw [Function.update_of_ne (by rintro rfl; rw [hy] at hz; cases hz), hy]

theorem Promised.step {x : Name} {m m' : Machine Path Image} {h evs : List (Exec Path Image)}
    (hm : Fresh m) (hs : Step m evs m') (hx : Promised x m h) : Promised x m' (h ++ evs) := by
  cases hs with
  | pipe pid hp _ _ =>
      refine hx.move hp (fun c hc hwill => ?_)
      cases hc
      exact Or.inl ⟨_, rfl, hwill _ _⟩
  | openFile pid hp _ =>
      refine hx.move hp (fun c hc hwill => ?_)
      cases hc
      exact Or.inl ⟨_, rfl, hwill _⟩
  | dup2 pid hp =>
      refine hx.move hp (fun c hc hwill => ?_)
      cases hc
      exact Or.inl ⟨_, rfl, hwill⟩
  | close pid hp =>
      refine hx.move hp (fun c hc hwill => ?_)
      cases hc
      exact Or.inl ⟨_, rfl, hwill⟩
  | @fork pid child parent t b cl hp =>
      have hfree : m (pid ++ [b]) = none := hm pid _ hp b [] le_rfl
      rcases em (WillExec x child (pid ++ [b]) 0) with hchild | hnot
      · exact Or.inr ⟨_, _, _, Function.update_self .., rfl, hchild⟩
      · have hp' : Function.update m (pid ++ [b]) (some ⟨.code child, t, 0, []⟩) pid =
            some ⟨.code (.fork child parent), t, b, cl⟩ := by
          rw [Function.update_of_ne (by simp), hp]
        rw [Function.update_comm (by simp)]
        refine (hx.born hfree _).move hp' (fun c hc hwill => ?_)
        cases hc
        exact Or.inl ⟨_, rfl, hwill.resolve_left hnot⟩
  | waitpid pid hp _ _ =>
      refine hx.move hp (fun c hc hwill => ?_)
      cases hc
      exact Or.inl ⟨_, rfl, hwill⟩
  | execvp pid hp =>
      refine hx.move hp (fun c hc hwill => ?_)
      cases hc
      exact Or.inr ⟨_, List.mem_singleton_self _, hwill⟩
  | exit pid hp =>
      refine hx.move hp (fun c hc hwill => ?_)
      cases hc
      exact hwill.elim
  | imageExit pid hp =>
      refine hx.move hp (fun c hc _ => ?_)
      cases hc

theorem Reached.promised {p : Prog Path Image} {t : Table Path} {x : Name}
    (hx : WillExec x p [] 0) {m : Machine Path Image} {h : List (Exec Path Image)}
    (hr : Reached (boot p t) m h) : Fresh m ∧ Promised x m h := by
  induction hr with
  | start => exact ⟨fresh_boot p t, Or.inr ⟨[], _, p, rfl, rfl, hx⟩⟩
  | step _ hs ih => exact ⟨ih.1.step hs, ih.2.step ih.1 hs⟩

theorem Reached.waiting {p : Prog Path Image} {t : Table Path} (ht : FiniteTable t)
    (hp : WaitsOwn p [] 0 []) {m : Machine Path Image} {h : List (Exec Path Image)}
    (hr : Reached (boot p t) m h) : Waiting m := by
  induction hr with
  | start =>
      refine ⟨⟨0, fun pid q hq => ?_⟩, fun pid q hq => ?_⟩
      · by_cases hpid : pid = []
        · rw [hpid, List.length_nil]
        · rw [boot, if_neg hpid] at hq
          cases hq
      · by_cases hpid : pid = []
        · subst hpid
          rw [boot, if_pos rfl] at hq
          cases hq
          refine ⟨ht, fun c hc => ?_⟩
          cases hc
          exact ⟨[], hp, by simp⟩
        · rw [boot, if_neg hpid] at hq
          cases hq
  | step _ hs ih => exact ih.step hs

/-- In a complete run every promised `execvp` has been called. -/
theorem Reached.complete {p : Prog Path Image} {t : Table Path} {x : Name} (ht : FiniteTable t)
    (hp : WaitsOwn p [] 0 []) (hx : WillExec x p [] 0) {m : Machine Path Image}
    {h : List (Exec Path Image)} (hr : Reached (boot p t) m h) (hstuck : Stuck m) :
    ∃ ev ∈ h, ev.pid = x := by
  rcases (hr.promised hx).2 with hdone | ⟨pid, q, c, hpid, hc, -⟩
  · exact hdone
  · rw [(hr.waiting ht hp).ended hstuck pid q hpid] at hc
    cases hc

/-! ## Some run gets there -/

/-- Some run takes process `pid` to the program `p`, with the table `t`. -/
def Arrives (m₀ : Machine Path Image) (h : List (Exec Path Image)) (pid : Name)
    (p : Prog Path Image) (t : Table Path) : Prop :=
  ∃ m b cl, Reached m₀ m h ∧ m pid = some ⟨.code p, t, b, cl⟩

theorem arrives_boot (p : Prog Path Image) (t : Table Path) : Arrives (boot p t) [] [] p t :=
  ⟨_, 0, [], .start, rfl⟩

variable {m₀ : Machine Path Image} {h : List (Exec Path Image)} {pid : Name} {t : Table Path}

theorem Arrives.openFile {path : Path} {mode : Mode} {k : Nat → Prog Path Image} {fd : Nat}
    (ha : Arrives m₀ h pid (.openFile path mode k) t) (hfd : Lowest t fd) :
    Arrives m₀ h pid (k fd) (Function.update t fd (some (.regular path mode))) := by
  obtain ⟨m, b, cl, hr, hm⟩ := ha
  have hstep := hr.step (.openFile pid hm hfd)
  rw [List.append_nil] at hstep
  exact ⟨_, b, cl, hstep, Function.update_self ..⟩

theorem Arrives.dup2 {oldfd newfd : Nat} {k : Prog Path Image}
    (ha : Arrives m₀ h pid (.dup2 oldfd newfd k) t) :
    Arrives m₀ h pid k (dupTable t oldfd newfd) := by
  obtain ⟨m, b, cl, hr, hm⟩ := ha
  have hstep := hr.step (.dup2 pid hm)
  rw [List.append_nil] at hstep
  exact ⟨_, b, cl, hstep, Function.update_self ..⟩

theorem Arrives.close {fd : Nat} {k : Prog Path Image} (ha : Arrives m₀ h pid (.close fd k) t) :
    Arrives m₀ h pid k (closeTable t fd) := by
  obtain ⟨m, b, cl, hr, hm⟩ := ha
  have hstep := hr.step (.close pid hm)
  rw [List.append_nil] at hstep
  exact ⟨_, b, _, hstep, Function.update_self ..⟩

theorem Arrives.execvp {image : Image} (ha : Arrives m₀ h pid (.execvp image) t) :
    ∃ m, Reached m₀ m (h ++ [⟨pid, image, t⟩]) := by
  obtain ⟨m, b, cl, hr, hm⟩ := ha
  exact ⟨_, hr.step (.execvp pid hm)⟩

/-! ## The standard descriptors -/

/-- A table with exactly the descriptors 0, 1 and 2. -/
def stdTable (a b c : File Path) : Table Path
  | 0 => some a
  | 1 => some b
  | 2 => some c
  | _ => none

theorem stdTable_ne_none (a b c : File Path) (fd : Nat) : stdTable a b c fd ≠ none ↔ fd < 3 := by
  match fd with
  | 0 => simp [stdTable]
  | 1 => simp [stdTable]
  | 2 => simp [stdTable]
  | n + 3 => simp [stdTable]

theorem lowest_stdTable (a b c : File Path) : Lowest (stdTable a b c) 3 :=
  ⟨rfl, fun d hd => (stdTable_ne_none a b c d).2 hd⟩

theorem Lowest.eq {t : Table Path} {fd n : Nat} (h : Lowest t fd) (hn : t n = none)
    (hlt : ∀ d, d < n → t d ≠ none) : fd = n := by
  rcases Nat.lt_trichotomy fd n with hfd | hfd | hfd
  · exact absurd h.1 (hlt fd hfd)
  · exact hfd
  · exact absurd hn (h.2 n hfd)

theorem Lowest.eq_three {a b c : File Path} {fd : Nat} (h : Lowest (stdTable a b c) fd) : fd = 3 :=
  h.eq rfl (fun d hd => (stdTable_ne_none a b c d).2 hd)

theorem Lowest.eq_four {a b c f : File Path} {fd : Nat}
    (h : Lowest (Function.update (stdTable a b c) 3 (some f)) fd) : fd = 4 := by
  refine h.eq rfl (fun d hd => ?_)
  by_cases h3 : d = 3
  · rw [h3, Function.update_self]
    exact Option.some_ne_none f
  · rw [Function.update_of_ne h3]
    exact (stdTable_ne_none a b c d).2 (by omega)

theorem dupTable_eq {t : Table Path} {oldfd : Nat} {f : File Path} (h : t oldfd = some f)
    (newfd : Nat) : dupTable t oldfd newfd = Function.update t newfd (some f) := by
  simp only [dupTable, h]

/-- A table with a new file in the place of a standard descriptor: what
`open`, `dup2` and `close` make of it. -/
theorem redirect_table (a b c f : File Path) {n : Nat} (hn : n < 3) :
    closeTable (dupTable (Function.update (stdTable a b c) 3 (some f)) 3 n) 3 =
      Function.update (stdTable a b c) n (some f) := by
  rw [closeTable, dupTable_eq (Function.update_self ..)]
  funext d
  by_cases h3 : d = 3
  · subst h3
    rw [Function.update_self, Function.update_of_ne (by omega)]
    rfl
  · rw [Function.update_of_ne h3]
    by_cases hd : d = n
    · subst hd
      rw [Function.update_self, Function.update_self]
    · rw [Function.update_of_ne hd, Function.update_of_ne h3, Function.update_of_ne hd]

theorem update_stdTable_zero (a b c f : File Path) :
    Function.update (stdTable a b c) 0 (some f) = stdTable f b c := by
  funext d
  match d with
  | 0 => rfl
  | 1 => rfl
  | 2 => rfl
  | n + 3 => rfl

theorem update_stdTable_one (a b c f : File Path) :
    Function.update (stdTable a b c) 1 (some f) = stdTable a f c := by
  funext d
  match d with
  | 0 => rfl
  | 1 => rfl
  | 2 => rfl
  | n + 3 => rfl

theorem update_stdTable_two (a b c f : File Path) :
    Function.update (stdTable a b c) 2 (some f) = stdTable a b f := by
  funext d
  match d with
  | 0 => rfl
  | 1 => rfl
  | 2 => rfl
  | n + 3 => rfl

/-- Both ends of a pipe closed again. -/
theorem close_pipe_table (a b c : File Path) (pipe : Name) :
    closeTable (closeTable (pipeTable (stdTable a b c) 3 4 pipe) 3) 4 = stdTable a b c := by
  funext d
  match d with
  | 0 => rfl
  | 1 => rfl
  | 2 => rfl
  | 3 => rfl
  | 4 => rfl
  | n + 5 => rfl

/-- The write end becomes the output, and both descriptors go. -/
theorem left_table (a b c : File Path) (pipe : Name) :
    closeTable (dupTable (closeTable (pipeTable (stdTable a b c) 3 4 pipe) 3) 4 1) 4 =
      stdTable a (.writeEnd pipe) c := by
  rw [dupTable_eq (f := .writeEnd pipe) rfl]
  funext d
  match d with
  | 0 => rfl
  | 1 => rfl
  | 2 => rfl
  | 3 => rfl
  | 4 => rfl
  | n + 5 => rfl

/-- The read end becomes the input, and both descriptors go. -/
theorem right_table (a b c : File Path) (pipe : Name) :
    closeTable (dupTable (closeTable (pipeTable (stdTable a b c) 3 4 pipe) 4) 3 0) 3 =
      stdTable (.readEnd pipe) b c := by
  rw [dupTable_eq (f := .readEnd pipe) rfl]
  funext d
  match d with
  | 0 => rfl
  | 1 => rfl
  | 2 => rfl
  | 3 => rfl
  | 4 => rfl
  | n + 5 => rfl

/-! ## The files of a table -/

/-- All the files of the table are in the list. -/
def Within (t : Table Path) (fs : List (File Path)) : Prop := ∀ fd f, t fd = some f → f ∈ fs

theorem within_stdTable (a b c : File Path) : Within (stdTable a b c) [a, b, c] := by
  intro fd f hf
  match fd, hf with
  | 0, hf => cases hf; simp
  | 1, hf => cases hf; simp
  | 2, hf => cases hf; simp

theorem Within.update {t : Table Path} {fs : List (File Path)} (h : Within t fs) (fd : Nat)
    {f : File Path} (hf : f ∈ fs) : Within (Function.update t fd (some f)) fs := by
  intro d g hg
  by_cases hd : d = fd
  · subst hd
    rw [Function.update_self] at hg
    cases hg
    exact hf
  · rw [Function.update_of_ne hd] at hg
    exact h d g hg

theorem Within.close {t : Table Path} {fs : List (File Path)} (h : Within t fs) (fd : Nat) :
    Within (closeTable t fd) fs := by
  intro d g hg
  by_cases hd : d = fd
  · subst hd
    rw [closeTable, Function.update_self] at hg
    cases hg
  · rw [closeTable, Function.update_of_ne hd] at hg
    exact h d g hg

theorem Within.dup {t : Table Path} {fs : List (File Path)} (h : Within t fs) (oldfd newfd : Nat) :
    Within (dupTable t oldfd newfd) fs := by
  unfold dupTable
  split
  · exact h
  · rename_i f hf
    exact h.update newfd (h oldfd f hf)

theorem Within.mono {t : Table Path} {fs gs : List (File Path)} (h : Within t fs) (hsub : fs ⊆ gs) :
    Within t gs :=
  fun fd f hf => hsub (h fd f hf)

end Process
