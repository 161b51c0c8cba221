/-
SistemasOperativos.FileSystem.Fisopfs — the callbacks of `fisopfs.c` that
have logic of their own, and one step of the mounted file system.

`Op` lists the calls the driver makes into `filesystem.c`, with their
arguments, and `step` runs one of them. A run is a sequence of steps from
`fsInit`; a step that ends in a `Fault` has no next state. The clock
advances freely between steps, the user of the daemon does not change.
-/
import SistemasOperativos.FileSystem.Filesystem
import Mathlib.Logic.Relation

namespace SistemasOperativos.FileSystem

variable {δ : Type} [DataArea δ]

/-! ## Callbacks -/

/-- `fisopfs_truncate` once the inode is known. The blocks are only
released for length 0, and are not even zeroed otherwise. -/
def truncateAt (c : Ctx) (s : Fs δ) (i : Fin maxInodes) (size : Int) : Fs δ :=
  let s := if size = 0 then releaseBlocks i s else s
  let s := s.modifyInode i (fun n => { n with fileSizeBytes := u32 (toSize size) })
  inodeUpdateCtime c i (inodeUpdateMtime c i s)

def fisopfsTruncate (c : Ctx) (s : Fs δ) (path : CStr) (size : Int) : Except Fault (Int × Fs δ) :=
  match fsResolvePath c s path with
  | .error f => .error f
  | .ok (.error _, s) => .ok (-enoent, s)
  | .ok (.ok i, s) => .ok (0, truncateAt c s i size)

def fisopfsUtimens (c : Ctx) (s : Fs δ) (path : CStr) (atime mtime : Int) :
    Except Fault (Int × Fs δ) :=
  match fsResolvePath c s path with
  | .error f => .error f
  | .ok (.error _, s) => .ok (-enoent, s)
  | .ok (.ok i, s) =>
      .ok (0, s.modifyInode i (fun n =>
        { n with lastAccessTime := atime, lastModificationTime := mtime }))

/-- The name `fisopfs_mkdir` passes on: what follows the last slash, cut
to a name field. -/
def mkdirName (path : CStr) : CStr :=
  match lastSlash path with
  | some pos => (path.drop (pos + 1)).take (maxFilenameLen - 1)
  | none => path.take (maxFilenameLen - 1)

def fisopfsMkdir (c : Ctx) (s : Fs δ) (path : CStr) (mode : Nat) : Except Fault (Int × Fs δ) :=
  fsCreateDirectory c s path mode (mkdirName path)

/-- Returns the code and the rows stored into `entries[MAX_INODES]`. The
rows that go to `filler` are the same ones, read back. -/
def fisopfsReaddir (c : Ctx) (s : Fs δ) (path : CStr) :
    Except Fault ((Int × List CStr) × Fs δ) :=
  match fsListDirectory c s path with
  | .error f => .error f
  | .ok ((count, entries), s) =>
      if count < 0 then .ok ((-enoent, entries), s) else .ok ((0, entries), s)

/-! ## Steps -/

inductive Op where
  | createFile (path : CStr) (mode : Nat)
  | readFile (path : CStr) (size : Nat) (offset : Int)
  | writeFile (path : CStr) (buffer : List UInt8) (offset : Int) (append : Bool)
  | deleteFile (path : CStr)
  | createDirectory (path : CStr) (mode : Nat) (name : CStr)
  | listDirectory (path : CStr)
  | removeDirectory (path : CStr)
  | statistics (path : CStr)
  | createSymlink (target linkpath : CStr)
  | readSymlink (path : CStr) (size : Nat)
  | createHardLink (source dest : CStr)
  | changeMode (path : CStr) (mode : Nat)
  | changeOwner (path : CStr) (uid gid : Nat)
  | truncate (path : CStr) (size : Int)
  | utimens (path : CStr) (atime mtime : Int)
  deriving DecidableEq, Repr

/-- Drop what an operation stored through an output pointer. -/
def codeOnly {α : Type} (r : Except Fault ((Int × α) × Fs δ)) : Except Fault (Int × Fs δ) :=
  r.map (fun p => (p.1.1, p.2))

def step (c : Ctx) (s : Fs δ) : Op → Except Fault (Int × Fs δ)
  | .createFile path mode => fsCreateFile c s path mode
  | .readFile path size offset => codeOnly (fsReadFile c s path size offset)
  | .writeFile path buffer offset append => fsWriteFile c s path buffer offset append
  | .deleteFile path => fsDeleteFile c s path
  | .createDirectory path mode name => fsCreateDirectory c s path mode name
  | .listDirectory path => codeOnly (fsListDirectory c s path)
  | .removeDirectory path => fsRemoveDirectory c s path
  | .statistics path => codeOnly (fsStatistics c s path)
  | .createSymlink target linkpath => fsCreateSymlink c s target linkpath
  | .readSymlink path size => codeOnly (fsReadSymlink c s path size)
  | .createHardLink source dest => fsCreateHardLink c s source dest
  | .changeMode path mode => fsChangeMode c s path mode
  | .changeOwner path uid gid => fsChangeOwner c s path uid gid
  | .truncate path size => fisopfsTruncate c s path size
  | .utimens path atime mtime => fisopfsUtimens c s path atime mtime

/-- The user the daemon runs as. -/
structure User where
  uid : Nat
  gid : Nat

def User.at (u : User) (now : Int) : Ctx := { uid := u.uid, gid := u.gid, now := now }

/-- One step whose operation, begun in `s` and ended in `t`, meets `P`. -/
def StepWith (u : User) (P : Fs δ → Op → Fs δ → Prop) (s t : Fs δ) : Prop :=
  ∃ now op r, step (u.at now) s op = .ok (r, t) ∧ P s op t

/-- The states of the runs from `fs_init` all of whose steps meet `P`. -/
def Reachable (u : User) (P : Fs δ → Op → Fs δ → Prop) (t : Fs δ) : Prop :=
  ∃ now, Relation.ReflTransGen (StepWith u P) (fsInit (u.at now)) t

/-- The run rule: what holds after `fs_init` and is kept by every step
that meets `P` holds in every state of the runs that meet `P`. -/
theorem Reachable.invariant {u : User} {P : Fs δ → Op → Fs δ → Prop} {I : Fs δ → Prop}
    (hinit : ∀ now, I (fsInit (u.at now)))
    (hstep : ∀ {now s op r t}, I s → P s op t → step (u.at now) s op = .ok (r, t) → I t)
    {t : Fs δ} (h : Reachable u P t) : I t := by
  obtain ⟨now, hrun⟩ := h
  induction hrun with
  | refl => exact hinit now
  | tail _ hlast ih =>
      obtain ⟨now', op, r, hs, hp⟩ := hlast
      exact hstep ih hp hs

/-- The operations of a list one after the other, all at one clock reading. -/
def runOps (c : Ctx) : Fs δ → List Op → Except Fault (Fs δ)
  | s, [] => .ok s
  | s, op :: ops =>
      match step c s op with
      | .error f => .error f
      | .ok (_, t) => runOps c t ops

theorem runOps_reaches {u : User} {P : Fs δ → Op → Fs δ → Prop} {now : Int} {s t : Fs δ}
    {ops : List Op} (hP : ∀ op ∈ ops, ∀ s t, P s op t)
    (h : runOps (u.at now) s ops = .ok t) : Relation.ReflTransGen (StepWith u P) s t := by
  induction ops generalizing s with
  | nil =>
      rw [runOps, Except.ok.injEq] at h
      rw [h]
  | cons op ops ih =>
      rw [runOps] at h
      cases hs : step (u.at now) s op with
      | error f => simp [hs] at h
      | ok p =>
          obtain ⟨r, s'⟩ := p
          simp only [hs] at h
          have hhead : StepWith u P s s' := ⟨now, op, r, hs, hP op (by simp) s s'⟩
          exact (ih (fun o ho => hP o (by simp [ho])) h).head hhead

/-- Reading a value off the end of a concrete run. -/
theorem runOps_eval {α : Type} (c : Ctx) (s : Fs δ) (ops : List Op) (f : Fs δ → α) (v : α)
    (h : (runOps c s ops).toOption.map f = some v) : ∃ t, runOps c s ops = .ok t ∧ f t = v := by
  cases hr : runOps c s ops with
  | error e => simp [hr, Except.toOption] at h
  | ok t => exact ⟨t, rfl, by simpa [hr, Except.toOption] using h⟩

/-- An operation returns `r`, in a state that passes a test. -/
def returns {α : Type} [DecidableEq α] (x : Except Fault (α × Fs δ)) (r : α) (f : Fs δ → Bool) :
    Bool :=
  match x with
  | .error _ => false
  | .ok (r', t) => decide (r' = r) && f t

omit [DataArea δ] in
theorem returns_true {α : Type} [DecidableEq α] {x : Except Fault (α × Fs δ)} {r : α}
    {f : Fs δ → Bool} (h : returns x r f = true) : ∃ t, x = .ok (r, t) ∧ f t = true := by
  cases x with
  | error e => cases h
  | ok p =>
      obtain ⟨r', t⟩ := p
      rw [returns, Bool.and_eq_true, decide_eq_true_eq] at h
      exact ⟨t, by rw [h.1], h.2⟩

omit [DataArea δ] in
/-- Reading the result off a concrete step. -/
theorem result_eval {x : Except Fault (Int × Fs δ)} {r : Int}
    (h : x.toOption.map Prod.fst = some r) : ∃ t, x = .ok (r, t) := by
  cases x with
  | error f => simp [Except.toOption] at h
  | ok p =>
      obtain ⟨r', t⟩ := p
      have hr : r' = r := by simpa [Except.toOption] using h
      exact ⟨t, by rw [hr]⟩

/-- The same run with a test of the state after every step. -/
def runChecked (c : Ctx) (check : Op → Fs δ → Bool) : Fs δ → List Op → Option (Fs δ)
  | s, [] => some s
  | s, op :: ops =>
      match step c s op with
      | .error _ => none
      | .ok (_, t) => if check op t then runChecked c check t ops else none

theorem runChecked_reaches {u : User} {P : Fs δ → Op → Fs δ → Prop} {now : Int}
    (check : Op → Fs δ → Bool) (hP : ∀ s op t, check op t = true → P s op t) {s t : Fs δ}
    {ops : List Op} (h : runChecked (u.at now) check s ops = some t) :
    Relation.ReflTransGen (StepWith u P) s t := by
  induction ops generalizing s with
  | nil =>
      rw [runChecked, Option.some.injEq] at h
      rw [h]
  | cons op ops ih =>
      rw [runChecked] at h
      cases hs : step (u.at now) s op with
      | error f => simp [hs] at h
      | ok p =>
          obtain ⟨r, s'⟩ := p
          simp only [hs] at h
          split at h
          · rename_i hc
            exact (ih h).head ⟨now, op, r, hs, hP s op s' hc⟩
          · cases h

end SistemasOperativos.FileSystem
