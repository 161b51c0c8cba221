/-
SistemasOperativos.FileSystem.ResolverTheorems — the two path resolvers
against each other.

`fs_resolve_path` cuts the whole path into components and gives up when
it is about to look at the 18th. `fs_resolve_parent` cuts off the last
component and leaves the rest to `fs_resolve_path`, so it answers for
paths of 18 components, too. The two agree on every other path. On a path
of 18 components whose object exists they do not: it has been created,
and `fs_resolve_path` will never find it.
-/
import SistemasOperativos.FileSystem.CreationTheorems

namespace SistemasOperativos.FileSystem

/-! ## The specification -/

def ResolversAgree (c : Ctx) (s : Fs Attached) (path : CStr) : Prop :=
  ∀ i, ResolvesTo c s path i ↔ ParentLeadsTo c s path i

/-- The paths the two resolvers are given: from the root, to a name. -/
structure NamedPath (path : CStr) : Prop where
  absolute : path.head? = some slash
  named : path.getLast? ≠ some slash
  short : path.length < maxPathLen

/-- One component more than `fs_resolve_path` looks at, all of them there. -/
def OneTooDeep (s : Fs Attached) (path : CStr) : Prop :=
  (strtok path).length = maxDirDepth + 2 ∧
    ∃ i, walk s s.superblock.rootInodeNumber (strtok path) = some i

/-- `op` creates an object at `path`; a directory under the name that
`fisopfs_mkdir` passes on. -/
def CreatesAt (path : CStr) : Op → Prop
  | .createFile p _ => p = path
  | .createDirectory p _ name => p = path ∧ name = mkdirName path
  | .createSymlink _ linkpath => linkpath = path
  | .createHardLink _ dest => dest = path
  | _ => False

/-- The inode that the step from `s` to `t` has linked: for a hard link
the source, else the one that was free before. -/
def JustLinked (s : Fs Attached) (op : Op) (t : Fs Attached) (i : Fin maxInodes) : Prop :=
  match op with
  | .createHardLink source _ => resolve s source = .ok i
  | _ => s.intmap.inodes i = false ∧ t.intmap.inodes i = true

/-! ## Splitting a path at its last component -/

variable {c : Ctx} {s t : Fs Attached} {path : CStr} {i : Fin maxInodes}

theorem lastSlash_isSome {path : CStr} (h : slash ∈ path) : ∃ pos, lastSlash path = some pos := by
  obtain ⟨k, hk, hget⟩ := List.getElem_of_mem h
  cases hl : lastSlash path with
  | some pos => exact ⟨pos, rfl⟩
  | none =>
      rw [lastSlash, List.find?_eq_none] at hl
      have hno := hl k (List.mem_reverse.mpr (List.mem_range.mpr hk))
      rw [List.getElem?_eq_getElem hk, hget] at hno
      exact absurd (by decide) hno

theorem NamedPath.split (h : NamedPath path) :
    ∃ a name, path = a ++ slash :: name ∧ name ≠ [] ∧ slash ∉ name := by
  obtain ⟨pos, hpos⟩ := lastSlash_isSome (List.mem_of_mem_head? h.absolute)
  obtain ⟨hpath, hns⟩ := lastSlash_some hpos
  refine ⟨path.take pos, path.drop (pos + 1), hpath, ?_, hns⟩
  intro hnil
  rw [hnil] at hpath
  apply h.named
  rw [hpath, List.getLast?_append]
  rfl

/-! ## Agreement -/

/-- An entry that is found has a name that fits in its field. -/
theorem short_of_child (hs : DirsOk s) {d : Fin maxInodes} {name : CStr}
    (h : child s d name = some i) : name.length < maxFilenameLen := by
  obtain ⟨-, e, he, -⟩ := child_some h
  obtain ⟨hmem, rfl⟩ := Directory.entryNamed_some he
  exact (hs d (child_isDir h)).short e hmem

theorem parentLeadsTo_iff (c : Ctx) (hs : DirsOk s) :
    ParentLeadsTo c s path i ↔ ∃ d name, target s path = some (d, name, i) := by
  obtain ⟨t, ht, hsame⟩ := fsResolveParent_eq c hs path
  constructor
  · rintro ⟨t', d, name, p, hpar, hdir, hlook⟩
    rw [ht, Except.ok.injEq, Prod.mk.injEq] at hpar
    obtain ⟨hpar, rfl⟩ := hpar
    refine ⟨d, name, target_some.mpr ⟨hpar, ?_⟩⟩
    rw [lookup_eq_child (hs.same hsame.symm) hdir] at hlook
    rw [← hsame.apply (fun s => child s d name) (fun _ => rfl)]
    cases hc : child t d name with
    | none =>
        rw [hc, Option.elim_none] at hlook
        omega
    | some j =>
        rw [hc, Option.elim_some] at hlook
        rw [show j = i from Fin.ext (by omega)]
  · rintro ⟨d, name, htarget⟩
    have hpar := (target_some.mp htarget).1
    rw [target_same hsame.symm] at htarget
    obtain ⟨p, hp, hlook⟩ := lookup_of_target (hs.same hsame.symm) htarget
    exact ⟨t, d, name, p, by rw [ht, hpar], hp, hlook⟩

/-- What `fs_resolve_parent` and the lookup after it have walked. -/
theorem walk_of_target {d : Fin maxInodes} {name : CStr} (h : target s path = some (d, name, i)) :
    path ≠ [] ∧ path.length < maxPathLen ∧ (strtok path).length ≤ maxDirDepth + 2 ∧
      walk s s.superblock.rootInodeNumber (strtok path) = some i := by
  obtain ⟨hpar, hc⟩ := target_some.mp h
  obtain ⟨a, rfl, hlen, hdepth, hne, -, hns, hw⟩ := resolveParent_split hpar
  have htok : strtok (a ++ slash :: name) = strtok a ++ [name] := by
    rw [strtok_append_slash, strtok_of_no_slash hne hns]
  refine ⟨by simp, hlen, ?_, ?_⟩
  · rw [htok, List.length_append, List.length_singleton]
    omega
  · rw [htok, walk_concat, hw]
    exact hc

/-- The second resolver: the same walk, with room for one component more. -/
theorem NamedPath.target_iff (h : NamedPath path) (hs : DirsOk s) :
    (∃ d name, target s path = some (d, name, i)) ↔
      (strtok path).length ≤ maxDirDepth + 2 ∧
        walk s s.superblock.rootInodeNumber (strtok path) = some i := by
  obtain ⟨a, name, rfl, hne, hns⟩ := h.split
  have htok : strtok (a ++ slash :: name) = strtok a ++ [name] := by
    rw [strtok_append_slash, strtok_of_no_slash hne hns]
  constructor
  · rintro ⟨d, name', htarget⟩
    obtain ⟨-, -, hdepth, hw⟩ := walk_of_target htarget
    exact ⟨hdepth, hw⟩
  · rintro ⟨hdepth, hw⟩
    rw [htok, walk_concat] at hw
    obtain ⟨d, hd, hc⟩ := Option.bind_eq_some_iff.mp hw
    refine ⟨d, name, target_some.mpr ⟨resolveParent_of_walk h.short ?_ hne ?_ hns hd, hc⟩⟩
    · rw [htok, List.length_append, List.length_singleton] at hdepth
      omega
    · exact short_of_child hs hc

theorem NamedPath.resolve_iff (h : NamedPath path) : resolve s path = .ok i ↔
    (strtok path).length ≤ maxDirDepth + 1 ∧
      walk s s.superblock.rootInodeNumber (strtok path) = some i := by
  rw [resolve_ok]
  constructor
  · rintro ⟨-, -, hdepth, hw⟩
    exact ⟨hdepth, hw⟩
  · rintro ⟨hdepth, hw⟩
    refine ⟨?_, h.short, hdepth, hw⟩
    rintro rfl
    cases h.absolute

theorem NamedPath.agree_iff (h : NamedPath path) (hs : DirsOk s) (c : Ctx) :
    ResolversAgree c s path ↔ ¬ OneTooDeep s path := by
  unfold ResolversAgree
  simp only [resolvesTo_iff c hs, parentLeadsTo_iff c hs, h.resolve_iff, h.target_iff hs]
  constructor
  · rintro hagree ⟨hdepth, i, hw⟩
    have hshort := ((hagree i).mpr ⟨by omega, hw⟩).1
    omega
  · intro hno i
    refine ⟨fun ⟨hdepth, hw⟩ => ⟨by omega, hw⟩, fun ⟨hdepth, hw⟩ => ⟨?_, hw⟩⟩
    by_contra hdeep
    exact hno ⟨by omega, i, hw⟩

/-! ## After a creation -/

theorem resolve_of_target {d : Fin maxInodes} {name : CStr}
    (h : target s path = some (d, name, i)) :
    resolve s path = .ok i ↔ (strtok path).length ≠ maxDirDepth + 2 := by
  obtain ⟨hne, hlen, hdepth, hw⟩ := walk_of_target h
  rw [resolve_ok]
  constructor
  · rintro ⟨-, -, hshort, -⟩
    omega
  · intro hdeep
    exact ⟨hne, hlen, by omega, hw⟩

/-- The name `fisopfs_mkdir` cuts out is the one `fs_resolve_parent`
finds. -/
theorem mkdirName_eq {d : Fin maxInodes} {name : CStr}
    (h : resolveParent s path = .ok (d, name)) : mkdirName path = name := by
  obtain ⟨a, rfl, -, -, -, hshort, hns, -⟩ := resolveParent_split h
  have hdrop : (a ++ slash :: name).drop (a.length + 1) = name := by
    rw [show a ++ slash :: name = (a ++ [slash]) ++ name by simp]
    exact List.drop_left' (by simp)
  rw [mkdirName, lastSlash_append a hns]
  simp only [hdrop]
  exact List.take_of_length_le (by omega)

theorem installed_justLinked {s' : Fs Attached} {n : Inode} {b : Nat}
    (hsame : Same s s') (hf : Fresh s' i b) (data : Attached) :
    s.intmap.inodes i = false ∧ (installed s' i n b data).intmap.inodes i = true := by
  rw [hsame.apply (fun s => s.intmap.inodes i) (fun _ => rfl)]
  exact ⟨hf.inode, by simp [installed]⟩

/-- A `fisopfs_mkdir` that returns 0 has linked a directory, with an inode
that was free, at its path. -/
theorem fisopfsMkdir_linked (hs : Sound s) {mode : Nat}
    (h : fisopfsMkdir c s path mode = .ok (0, t)) :
    ∃ i, (s.intmap.inodes i = false ∧ t.intmap.inodes i = true) ∧
      (t.inodes i).inodeType = .dir ∧ Linked s t path i := by
  obtain ⟨s', d, filename, i, b, hsame, hp, hdir, hadd, hne, hf, rfl⟩ :=
    fsCreateDirectory_zero hs h
  rw [mkdirName_eq hp] at hadd ⊢
  have hlink := Linked.ofInstalled (hs.same hsame) hp hdir hadd hf
    (s'.data.setDir i Directory.init) (fun e he => by simp [Attached.setDir, he])
    (newDirInode c mode b)
  have hjust := installed_justLinked (n := newDirInode c mode b) hsame hf
    (withEntry (s'.data.setDir i Directory.init) d filename i)
  refine ⟨i, hjust, ?_, (hlink.incrementLinks _).same hsame⟩
  simp [inodeIncrementLinks, Fs.modifyInode, installed, newDirInode, hne.symm]

/-- Every creation that returns 0 has linked an inode at its path. -/
theorem created_linked (hs : Sound s) {op : Op} (hop : CreatesAt path op)
    (h : step c s op = .ok (0, t)) : ∃ i, JustLinked s op t i ∧ Linked s t path i := by
  cases op with
  | createFile p mode =>
      obtain rfl : p = path := hop
      obtain ⟨s', d, name, i, b, hsame, hp, hdir, hadd, hf, rfl⟩ := fsCreateFile_zero hs h
      have hlink := Linked.ofInstalled (hs.same hsame) hp hdir hadd hf s'.data (fun _ _ => rfl)
        (newFileInode c mode b)
      exact ⟨i, installed_justLinked hsame hf _, hlink.same hsame⟩
  | createDirectory p mode name =>
      obtain ⟨rfl, rfl⟩ : p = path ∧ name = mkdirName path := hop
      obtain ⟨i, hjust, -, hlinked⟩ := fisopfsMkdir_linked hs h
      exact ⟨i, hjust, hlinked⟩
  | createSymlink target linkpath =>
      obtain rfl : linkpath = path := hop
      obtain ⟨s', d, name, i, b, hsame, hp, hdir, hadd, hlen, hf, rfl⟩ :=
        fsCreateSymlink_zero hs h
      have hlink := Linked.ofInstalled (hs.same hsame) hp hdir hadd hf
        { s'.data with bytes := symlinkBytes s'.data.bytes b target } (fun _ _ => rfl)
        (newSymlinkInode c target b)
      exact ⟨i, installed_justLinked hsame hf _, hlink.same hsame⟩
  | createHardLink source dest =>
      obtain rfl : dest = path := hop
      obtain ⟨s', src, d, name, hsame, hsrc, hp, hdir, hadd, rfl⟩ := fsCreateHardLink_zero hs h
      have hlink := Linked.ofEntry (i := src) hp hdir hadd
      exact ⟨src, (resolve_same hsame source).trans hsrc,
        (hlink.incrementLinks _).same hsame⟩
  | readFile | writeFile | deleteFile | listDirectory | removeDirectory | statistics | readSymlink
  | changeMode | changeOwner | truncate | utimens => exact hop.elim

/-- In every reachable state the two resolvers agree on a path if and
only if it is not one component too deep; and what a creation has linked
is found by `fs_resolve_path` if and only if the path does not have 18
components. -/
theorem resolvers_agree_iff {u : User} {P : Fs Attached → Op → Fs Attached → Prop}
    {s : Fs Attached} (h : Reachable u P s) :
    (∀ c path, NamedPath path → (ResolversAgree c s path ↔ ¬ OneTooDeep s path)) ∧
    (∀ now op path t, CreatesAt path op → step (u.at now) s op = .ok (0, t) →
      ∃ i, JustLinked s op t i ∧
        ∀ c, ResolvesTo c t path i ↔ (strtok path).length ≠ maxDirDepth + 2) := by
  have hs := h.sound
  refine ⟨fun c path hpath => hpath.agree_iff hs.dirs c, fun now op path t hop hstep => ?_⟩
  obtain ⟨i, hjust, hlinked⟩ := created_linked hs hop hstep
  obtain ⟨d, name, htarget⟩ := hlinked.target
  refine ⟨i, hjust, fun c => ?_⟩
  rw [resolvesTo_iff c (step_sound hs hstep).dirs, resolve_of_target htarget]

/-- 17 times `/.` and then `/a`. -/
def dottedPath : CStr := (List.replicate 17 [slash, 46]).flatten ++ cstr "/a"

example : NamedPath dottedPath := ⟨by decide, by decide, by decide⟩

/-- A path with 18 components: the file is created, and
`fs_resolve_path` does not find it. -/
theorem dotted_file_not_found :
    ∃ t : Fs Attached,
      step (User.at ⟨0, 0⟩ 0) (fsInit (User.at ⟨0, 0⟩ 0)) (.createFile dottedPath 0) = .ok (0, t) ∧
      JustLinked (fsInit (User.at ⟨0, 0⟩ 0)) (.createFile dottedPath 0) t 1 ∧
      ¬ ResolvesTo (User.at ⟨0, 0⟩ 0) t dottedPath 1 ∧
      ParentLeadsTo (User.at ⟨0, 0⟩ 0) t dottedPath 1 := by
  have hrun : returns (step (User.at ⟨0, 0⟩ 0) (fsInit (δ := Attached) (User.at ⟨0, 0⟩ 0))
      (.createFile dottedPath 0)) 0 (fun t =>
        decide (t.intmap.inodes 1 = true ∧ target t dottedPath = some (0, cstr "a", 1))) := by
    decide +kernel
  obtain ⟨t, hstep, ht⟩ := returns_true hrun
  rw [decide_eq_true_eq] at ht
  have hs := step_sound (Sound.init _) hstep
  refine ⟨t, hstep, ⟨by decide, ht.1⟩, ?_, ?_⟩
  · rw [resolvesTo_iff _ hs.dirs, resolve_of_target ht.2]
    decide
  · exact (parentLeadsTo_iff _ hs.dirs).mpr ⟨_, _, ht.2⟩

/-- A file in the root directory. -/
theorem resolvers_agree_iff_root :
    ∃ t : Fs Attached,
      step (User.at ⟨0, 0⟩ 0) (fsInit (User.at ⟨0, 0⟩ 0)) (.createFile (cstr "/a") 0) = .ok (0, t) ∧
      NamedPath (cstr "/a") ∧ ResolversAgree (User.at ⟨0, 0⟩ 0) t (cstr "/a") ∧
      ∃ i, JustLinked (fsInit (User.at ⟨0, 0⟩ 0)) (.createFile (cstr "/a") 0) t i ∧
        ResolvesTo (User.at ⟨0, 0⟩ 0) t (cstr "/a") i := by
  have hinit : Reachable (δ := Attached) ⟨0, 0⟩ (fun _ _ _ => True) (fsInit (User.at ⟨0, 0⟩ 0)) :=
    ⟨0, .refl⟩
  obtain ⟨t, hstep⟩ := result_eval (r := 0) (x := step (User.at ⟨0, 0⟩ 0)
    (fsInit (δ := Attached) (User.at ⟨0, 0⟩ 0)) (.createFile (cstr "/a") 0)) (by decide +kernel)
  have hnamed : NamedPath (cstr "/a") := ⟨by decide, by decide, by decide⟩
  have hat : CreatesAt (cstr "/a") (.createFile (cstr "/a") 0) := rfl
  obtain ⟨i, hjust, hfound⟩ := (resolvers_agree_iff hinit).2 _ _ _ _ hat hstep
  have hreach : Reachable ⟨0, 0⟩ (fun _ _ _ => True) t := ⟨0, .single ⟨0, _, _, hstep, trivial⟩⟩
  refine ⟨t, hstep, hnamed, ?_, i, hjust, (hfound _).mpr (by decide)⟩
  exact ((resolvers_agree_iff hreach).1 _ _ hnamed).mpr (fun hdeep => absurd hdeep.1 (by decide))

end SistemasOperativos.FileSystem
