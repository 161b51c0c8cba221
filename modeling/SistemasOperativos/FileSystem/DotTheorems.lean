/-
SistemasOperativos.FileSystem.DotTheorems — what `.` and `..` lead to.

`directory_init` stores `.` and `..` with inode number 0. The two
`directory_add_entry` calls of `fs_create_directory` that should store
the right numbers find the names taken, fail, and are not checked. So
both names lead to inode 0 in every directory of every run: right for the
root, wrong for any other directory from the moment it is created.
-/
import SistemasOperativos.FileSystem.SoundTheorems

namespace SistemasOperativos.FileSystem

/-! ## The specification -/

/-- `q` is the parent of directory `d`: it lists `d` under a name other
than `.` and `..`. The root is its own parent. -/
def IsParent (s : Fs Attached) (q d : Fin maxInodes) : Prop :=
  if d = s.superblock.rootInodeNumber then q = s.superblock.rootInodeNumber
  else (s.inodes q).inodeType = .dir ∧ ∃ e ∈ (s.data.dirs q).real, e.inodeNumber = d

/-- Inode `d` is in use and `p` is its directory. -/
def HasDirectory (s : Fs Attached) (d : Fin maxInodes) (p : DirPtr) : Prop :=
  s.intmap.inodes d = true ∧ getDirectoryByInode s d = some p

/-- `.` is the directory itself and `..` its parent, as entries and in
paths. The paths are those `fs_resolve_path` has room for. -/
structure DotsRight (c : Ctx) (s : Fs Attached) : Prop where
  dot : ∀ d p, HasDirectory s d p → directoryLookup s.data p dot = (d : Nat)
  dotDot : ∀ d p q, HasDirectory s d p → IsParent s q d →
    directoryLookup s.data p dotDot = (q : Nat)
  pathDot : ∀ path i p, ResolvesTo c s path i → HasDirectory s i p →
    (path ++ slash :: FileSystem.dot).length < maxPathLen →
    (strtok path).length ≤ maxDirDepth →
    ResolvesTo c s (path ++ slash :: FileSystem.dot) i
  pathDotDot : ∀ path x i j p q, ResolvesTo c s path i → HasDirectory s i p →
    ResolvesTo c s (path ++ slash :: x) j → HasDirectory s j q →
    (path ++ slash :: x ++ slash :: FileSystem.dotDot).length < maxPathLen →
    (strtok (path ++ slash :: x)).length ≤ maxDirDepth →
    ResolvesTo c s (path ++ slash :: x ++ slash :: FileSystem.dotDot) i

/-! ## What the entries hold -/

theorem child_dot {s : Fs Attached} (hs : DirsOk s) {d : Fin maxInodes} {p : DirPtr}
    (hp : getDirectoryByInode s d = some p) : child s d dot = some 0 := by
  have hd := hs d (getDirectoryByInode_some hp).1
  simp only [child, hp, Directory.entryNamed_dot hd]
  rfl

theorem child_dotDot {s : Fs Attached} (hs : DirsOk s) {d : Fin maxInodes} {p : DirPtr}
    (hp : getDirectoryByInode s d = some p) : child s d dotDot = some 0 := by
  have hd := hs d (getDirectoryByInode_some hp).1
  simp only [child, hp, Directory.entryNamed_dotDot hd]
  rfl

/-- One more component at the end of a path. -/
theorem resolve_snoc {s : Fs Attached} {path name : CStr} {i j : Fin maxInodes}
    (hi : resolve s path = .ok i) (hne : name ≠ []) (hns : slash ∉ name)
    (hc : child s i name = some j) (hlen : (path ++ slash :: name).length < maxPathLen)
    (hdepth : (strtok path).length ≤ maxDirDepth) :
    resolve s (path ++ slash :: name) = .ok j := by
  obtain ⟨-, -, -, hw⟩ := resolve_ok.mp hi
  refine resolve_ok.mpr ⟨by simp, hlen, ?_, ?_⟩
  · rw [strtok_append_slash, strtok_of_no_slash hne hns, List.length_append]
    simp only [List.length_cons, List.length_nil]
    omega
  · rw [strtok_append_slash, strtok_of_no_slash hne hns, walk_concat, hw]
    exact hc

/-- The dots are right exactly when the root is the only directory. -/
theorem dotsRight_iff (c : Ctx) {s : Fs Attached} (hs : Sound s) :
    DotsRight c s ↔ ∀ d p, HasDirectory s d p → d = s.superblock.rootInodeNumber := by
  rw [hs.root]
  constructor
  · intro h d p hd
    have hlook := h.dot d p hd
    rw [lookup_eq_child hs.dirs hd.2, child_dot hs.dirs hd.2] at hlook
    simp only [Option.elim_some] at hlook
    exact Fin.ext (by simpa using hlook.symm)
  · intro h
    refine ⟨?_, ?_, ?_, ?_⟩
    · intro d p hd
      obtain rfl := h d p hd
      rw [lookup_eq_child hs.dirs hd.2, child_dot hs.dirs hd.2]
      rfl
    · intro d p q hd hq
      obtain rfl := h d p hd
      rw [IsParent, hs.root, if_pos rfl] at hq
      rw [lookup_eq_child hs.dirs hd.2, child_dotDot hs.dirs hd.2, hq]
      rfl
    · intro path i p hi hd hlen hdepth
      obtain rfl := h i p hd
      rw [resolvesTo_iff c hs.dirs] at hi ⊢
      exact resolve_snoc hi (by decide) (by decide) (child_dot hs.dirs hd.2) hlen hdepth
    · intro path x i j p q hi hd hj hd' hlen hdepth
      obtain rfl := h i p hd
      obtain rfl := h j q hd'
      rw [resolvesTo_iff c hs.dirs] at hj ⊢
      exact resolve_snoc hj (by decide) (by decide) (child_dotDot hs.dirs hd'.2) hlen hdepth

/-! ## Runs that create no directory -/

/-- `op` is a `fs_create_directory` that gets to the creation: its name is
free in an existing parent with room, and an inode and a block are free. -/
def CreatesDirectory (s : Fs Attached) (op : Op) : Prop :=
  ∃ path mode filename name d i b, op = .createDirectory path mode name ∧
    resolveParent s path = .ok (d, filename) ∧ (s.data.dirs d).entryNamed filename = none ∧
    CanAdd s d name ∧ Fresh s i b

theorem CreatesDirectory.same {s t : Fs Attached} (h : Same s t) {op : Op}
    (hs : CreatesDirectory s op) : CreatesDirectory t op := by
  obtain ⟨path, mode, filename, name, d, i, b, rfl, hp, he, hadd, hf⟩ := hs
  refine ⟨path, mode, filename, name, d, i, b, rfl, ?_, ?_, hadd.same h, hf.same h⟩
  · rw [← resolveParent_same h, hp]
  · rw [← h.apply (fun s => s.data.dirs d) (fun _ => rfl), he]

/-- No inode but 0 is a directory. -/
def OnlyRoot (s : Fs Attached) : Prop := ∀ i, (s.inodes i).inodeType = .dir → i = 0

theorem OnlyRoot.same {s t : Fs Attached} (h : Same s t) (hs : OnlyRoot s) : OnlyRoot t :=
  (h.apply OnlyRoot (fun _ => rfl)).mp hs

theorem OnlyRoot.update {s t : Fs Attached} (hs : OnlyRoot s) {i : Fin maxInodes} {n : Inode}
    (hin : t.inodes = Function.update s.inodes i n)
    (hn : n.inodeType = .dir → (s.inodes i).inodeType = .dir) : OnlyRoot t := by
  intro j hj
  rw [type_update hin] at hj
  split at hj
  · rename_i hji
    exact hs j (hji ▸ hn hj)
  · exact hs j hj

theorem Effect.onlyRoot {c : Ctx} {s t : Fs Attached} {op : Op} {r : Int}
    (he : Effect c s op r t) (hs : Sound s) (h : OnlyRoot s) (hop : ¬ CreatesDirectory s op) :
    OnlyRoot t := by
  cases he with
  | unchanged => exact h
  | rolledBack => exact h.update rfl (fun hd => by cases hd)
  | createFile => exact h.update rfl (fun hd => by cases hd)
  | createSymlink => exact h.update rfl (fun hd => by cases hd)
  | createDirectory hp hfree hadd _ hf =>
      exact absurd ⟨_, _, _, _, _, _, _, rfl, hp, hfree, hadd, hf⟩ hop
  | createHardLink => exact h.update rfl id
  | unlinked => exact h.update rfl id
  | deleted => exact h.update rfl (fun hd => by cases hd)
  | removeDirectory => exact h.update rfl (fun hd => by cases hd)
  | changeMode => exact h.update rfl id
  | changeOwner => exact h.update rfl id
  | @writeFile path buffer offset append d i name ht hne =>
      have hloop := writeLoop_invariant
        (P := fun s => s.superblock.blockSizeBytes = blockSize ∧ OnlyRoot s) i buffer
        (fun h => h.1) (fun h _ _ _ _ => ⟨h.1, h.2.update rfl id⟩) (fun h _ _ => ⟨h.1, h.2⟩)
        loopFuel ⟨hs.blockSize, h⟩ 0 (writeStart s i offset append)
      refine hloop.2.update rfl ?_
      unfold grow
      split <;> exact id
  | @truncate path size i hr =>
      unfold truncated
      split
      · have hrel : OnlyRoot (releaseBlocks i s) := by
          rw [releaseBlocks_eq s i (hs.slotsBelow i)]
          exact h.update rfl id
        exact hrel.update rfl id
      · exact h.update rfl id

/-- `.` and `..` are right as long as no directory is created, and in any
state of any run they are right exactly when the root is the only
directory. -/
theorem dotsRight_iff_only_root (u : User) :
    (∀ (c : Ctx) (t : Fs Attached), Reachable u (fun s op _ => ¬ CreatesDirectory s op) t →
      DotsRight c t) ∧
    (∀ (c : Ctx) (P : Fs Attached → Op → Fs Attached → Prop) (t : Fs Attached),
      Reachable u P t →
      (DotsRight c t ↔ ∀ d p, HasDirectory t d p → d = t.superblock.rootInodeNumber)) := by
  constructor
  · intro c t ht
    have h : Sound t ∧ OnlyRoot t := by
      refine ht.invariant (I := fun t => Sound t ∧ OnlyRoot t)
        (fun now => ⟨Sound.init _, fun i hi => type_fsInit _ hi⟩) ?_
      rintro now s op r t ⟨hs, h⟩ hop hstep
      obtain ⟨s', t', hss, htt, he⟩ := step_effect hs hstep
      have := he.onlyRoot (hs.same hss) (h.same hss) (fun hc => hop (hc.same hss.symm))
      exact ⟨step_sound hs hstep, this.same htt.symm⟩
    rw [dotsRight_iff c h.1, h.1.root]
    intro d p hd
    exact h.2 d (getDirectoryByInode_some hd.2).1
  · intro c P t ht
    exact dotsRight_iff c ht.sound

/-- A run without `fs_create_directory` that leaves a file in the root. -/
theorem dotsRight_after_create :
    ∃ t : Fs Attached, Reachable ⟨0, 0⟩ (fun s op _ => ¬ CreatesDirectory s op) t ∧
      (t.data.dirs 0).length = 3 ∧ DotsRight (User.at ⟨0, 0⟩ 0) t := by
  obtain ⟨t, ht, hv⟩ := runOps_eval (User.at ⟨0, 0⟩ 0) (fsInit (User.at ⟨0, 0⟩ 0))
    [.createFile (cstr "/f") 6] (fun t : Fs Attached => (t.data.dirs 0).length) 3
    (by decide +kernel)
  have hreach : Reachable ⟨0, 0⟩ (fun s op _ => ¬ CreatesDirectory s op) t := by
    refine ⟨0, runOps_reaches ?_ ht⟩
    rintro op hop s - ⟨path, mode, filename, name, d, i, b, rfl, -⟩
    simp at hop
  exact ⟨t, hreach, hv, (dotsRight_iff_only_root ⟨0, 0⟩).1 _ t hreach⟩

/-- After `mkdir /d` the directory of inode 1 has 0 behind `.`, and the
path `/d/.` leads to the root. -/
theorem dot_after_mkdir :
    ∃ t : Fs Attached,
      runOps (User.at ⟨0, 0⟩ 0) (fsInit (User.at ⟨0, 0⟩ 0))
        [.createDirectory (cstr "/d") 7 (cstr "d")] = .ok t ∧
      Reachable ⟨0, 0⟩ (fun _ _ _ => True) t ∧ HasDirectory t 1 ⟨1, 1⟩ ∧
      directoryLookup t.data ⟨1, 1⟩ dot = 0 ∧
      resolve t (cstr "/d") = .ok 1 ∧ resolve t (cstr "/d/.") = .ok 0 ∧
      ¬ DotsRight (User.at ⟨0, 0⟩ 0) t := by
  obtain ⟨t, ht, hv⟩ := runOps_eval (User.at ⟨0, 0⟩ 0) (fsInit (User.at ⟨0, 0⟩ 0))
    [.createDirectory (cstr "/d") 7 (cstr "d")]
    (fun t : Fs Attached => (t.intmap.inodes 1, getDirectoryByInode t 1,
      directoryLookup t.data ⟨1, 1⟩ dot, (resolve t (cstr "/d")).toOption,
      (resolve t (cstr "/d/.")).toOption))
    (true, some ⟨1, 1⟩, 0, some 1, some 0) (by decide +kernel)
  simp only [Prod.mk.injEq] at hv
  obtain ⟨h1, h2, h3, h4, h5⟩ := hv
  refine ⟨t, ht, ⟨0, runOps_reaches (fun _ _ _ _ => trivial) ht⟩, ⟨h1, h2⟩, h3,
    ok_of_toOption h4, ok_of_toOption h5, ?_⟩
  intro hdots
  have hdot := hdots.dot 1 ⟨1, 1⟩ ⟨h1, h2⟩
  rw [h3] at hdot
  exact absurd hdot (by decide)

end SistemasOperativos.FileSystem
