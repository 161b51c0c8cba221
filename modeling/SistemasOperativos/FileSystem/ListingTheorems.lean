/-
SistemasOperativos.FileSystem.ListingTheorems — the rows that
`fisopfs_readdir` has for a directory.

The array on its stack has `MAX_INODES` rows, and `directory_list_entries`
stores one row for every entry. `directory_add_entry` stops at
`MAX_BLOCKS` entries, eight times as many. The listing fits as long as
nothing is added to a directory that already has `MAX_INODES` entries;
hard links need no inode, so nothing else keeps a directory below that.
-/
import SistemasOperativos.FileSystem.CreationTheorems

namespace SistemasOperativos.FileSystem

/-! ## The specification -/

/-- The rows that `fisopfs_readdir` stores are rows of its array. -/
def ListingFits (c : Ctx) (s : Fs Attached) (path : CStr) : Prop :=
  ∀ r rows t, fisopfsReaddir c s path = .ok ((r, rows), t) → rows.length ≤ maxInodes

/-- `entry_count` of every directory is at most `MAX_INODES`. -/
def DirsFit (s : Fs Attached) : Prop :=
  ∀ i p, getDirectoryByInode s i = some p → entryCount s.data p ≤ maxInodes

/-- The path at which `op` creates a name. -/
def Op.created : Op → Option CStr
  | .createFile path _ => some path
  | .createDirectory path _ _ => some path
  | .createSymlink _ linkpath => some linkpath
  | .createHardLink _ dest => some dest
  | _ => none

/-- `op` creates a name in a directory that has `MAX_INODES` entries or
more. -/
def AddsToFull (s : Fs Attached) (op : Op) : Prop :=
  ∃ path d name, op.created = some path ∧ resolveParent s path = .ok (d, name) ∧
    maxInodes ≤ (s.data.dirs d).length

theorem AddsToFull.same {s t : Fs Attached} (h : Same s t) {op : Op} (hs : AddsToFull s op) :
    AddsToFull t op := by
  obtain ⟨path, d, name, hop, hp, hfull⟩ := hs
  refine ⟨path, d, name, hop, by rw [← resolveParent_same h, hp], ?_⟩
  rwa [← h.apply (fun s => s.data.dirs d) (fun _ => rfl)]

/-! ## The invariant -/

/-- Every directory inode has a list of at most `MAX_INODES` entries. -/
def ShortDirs (s : Fs Attached) : Prop :=
  ∀ i, (s.inodes i).inodeType = .dir → (s.data.dirs i).length ≤ maxInodes

theorem ShortDirs.same {s t : Fs Attached} (h : Same s t) (hs : ShortDirs s) : ShortDirs t :=
  (h.apply ShortDirs (fun _ => rfl)).mp hs

theorem ShortDirs.init (c : Ctx) : ShortDirs (fsInit c) := by
  intro i hi
  obtain rfl := type_fsInit c hi
  exact (by decide : Directory.init.length ≤ maxInodes)

variable {s t : Fs Attached}

theorem dir_of_update {i j : Fin maxInodes} {n : Inode}
    (hin : t.inodes = Function.update s.inodes i n)
    (hn : n.inodeType = .dir → (s.inodes i).inodeType = .dir)
    (hj : (t.inodes j).inodeType = .dir) : (s.inodes j).inodeType = .dir := by
  rw [type_update hin] at hj
  split at hj
  · rename_i hji
    exact hji ▸ hn hj
  · exact hj

/-- One inode changes, not into a directory, and no list gets longer. -/
theorem ShortDirs.update (h : ShortDirs s) {i : Fin maxInodes} {n : Inode}
    (hin : t.inodes = Function.update s.inodes i n)
    (hn : n.inodeType = .dir → (s.inodes i).inodeType = .dir)
    (hlen : ∀ j, (s.inodes j).inodeType = .dir →
      (t.data.dirs j).length ≤ (s.data.dirs j).length) : ShortDirs t := by
  intro j hj
  have hty := dir_of_update hin hn hj
  exact (hlen j hty).trans (h j hty)

theorem length_withEntry (data : Attached) (d j : Fin maxInodes) (name : CStr)
    (i : Fin maxInodes) : ((withEntry data d name i).dirs j).length
      = if j = d then (data.dirs d).length + 1 else (data.dirs j).length := by
  by_cases hj : j = d
  · subst hj
    simp [withEntry, Attached.setDir]
  · simp [withEntry, Attached.setDir, hj]

theorem length_withoutEntry_le (data : Attached) (d j : Fin maxInodes) (name : CStr) :
    ((withoutEntry data d name).dirs j).length ≤ (data.dirs j).length := by
  by_cases hj : j = d
  · subst hj
    simp only [withoutEntry, Attached.setDir, Function.update_self]
    exact (List.eraseP_sublist).length_le
  · simp [withoutEntry, Attached.setDir, hj]

/-- An entry for a new inode, or one more for an old one: `data` differs
from what `s` has in the directory of the new inode at most. -/
theorem ShortDirs.entry (h : ShortDirs s) {d i : Fin maxInodes} {name : CStr} (data : Attached)
    (hroom : (s.data.dirs d).length < maxInodes) (hd : data.dirs d = s.data.dirs d)
    (hdata : t.data = withEntry data d name i)
    (hold : ∀ j, (t.inodes j).inodeType = .dir → (data.dirs j).length ≤ 2 ∨
      (s.inodes j).inodeType = .dir ∧ data.dirs j = s.data.dirs j) : ShortDirs t := by
  intro j hj
  rw [hdata, length_withEntry]
  split
  · rw [hd]
    omega
  · rcases hold j hj with hnew | ⟨hty, heq⟩
    · exact hnew.trans (by decide)
    · rw [heq]
      exact h j hty

theorem Effect.shortDirs {c : Ctx} {op : Op} {r : Int} (he : Effect c s op r t) (hs : Sound s)
    (h : ShortDirs s) (hop : ¬ AddsToFull s op) : ShortDirs t := by
  -- a creation finds room in its parent
  have hroom : ∀ {path d name}, op.created = some path → resolveParent s path = .ok (d, name) →
      (s.data.dirs d).length < maxInodes := by
    intro path d name hpath hp
    by_contra hfull
    exact hop ⟨path, d, name, hpath, hp, by omega⟩
  have hnew : ∀ {i j : Fin maxInodes}, s.intmap.inodes i = false →
      (s.inodes j).inodeType = .dir → j ≠ i := by
    rintro i j hi hj rfl
    rw [hs.dirUsed j hj] at hi
    cases hi
  cases he with
  | unchanged => exact h
  | rolledBack _ hi hdirs _ =>
      refine h.update rfl (fun hd => by cases hd) (fun j hj => ?_)
      exact (congrArg List.length (hdirs j (hnew hi hj))).le
  | createFile hp hadd hf =>
      exact h.entry _ (hroom rfl hp) rfl rfl
        (fun j hj => Or.inr ⟨dir_of_update rfl (fun hd => by cases hd) hj, rfl⟩)
  | @createSymlink target _ _ _ _ b hp hadd _ hf =>
      exact h.entry { s.data with bytes := symlinkBytes s.data.bytes b target } (hroom rfl hp)
        rfl rfl
        (fun j hj => Or.inr ⟨dir_of_update rfl (fun hd => by cases hd) hj, rfl⟩)
  | @createDirectory _ mode _ name d i b hp _ hadd hne hf =>
      have hinst : ShortDirs (installed s i (newDirInode c mode b) b
          (withEntry (s.data.setDir i Directory.init) d name i)) := by
        refine h.entry _ (hroom rfl hp) (by simp [Attached.setDir, hne]) rfl (fun j hj => ?_)
        by_cases hji : j = i
        · subst hji
          exact Or.inl (by simp [Attached.setDir, Directory.init])
        · refine Or.inr ⟨?_, by simp [Attached.setDir, hji]⟩
          simpa [installed, hji] using hj
      exact hinst.update rfl id (fun _ _ => Nat.le_refl _)
  | @createHardLink _ _ src d name hsrc hty hp hadd =>
      have hentry : ShortDirs { s with data := withEntry s.data d name src } :=
        h.entry _ (hroom rfl hp) rfl rfl (fun j hj => Or.inr ⟨hj, rfl⟩)
      exact hentry.update rfl id (fun _ _ => Nat.le_refl _)
  | unlinked => exact h.update rfl id (fun j _ => length_withoutEntry_le _ _ j _)
  | deleted =>
      exact h.update rfl (fun hd => by cases hd) (fun j _ => length_withoutEntry_le _ _ j _)
  | removeDirectory =>
      exact h.update rfl (fun hd => by cases hd) (fun j _ => length_withoutEntry_le _ _ j _)
  | changeMode => exact h.update rfl id (fun _ _ => Nat.le_refl _)
  | changeOwner => exact h.update rfl id (fun _ _ => Nat.le_refl _)
  | @writeFile _ buffer offset append _ i _ ht hne =>
      have hframe := written_frame hs i buffer (writeStart s i offset append)
      intro j hj
      rw [hframe.type_eq] at hj
      rw [hframe.dirs]
      exact h j hj
  | @truncate _ size i hr =>
      have hframe := truncated_frame hs i size
      intro j hj
      rw [hframe.type_eq] at hj
      rw [hframe.dirs]
      exact h j hj

/-! ## Listings -/

theorem ShortDirs.dirsFit (h : ShortDirs s) : DirsFit s := by
  intro i p hp
  obtain ⟨hty, hpi⟩ := getDirectoryByInode_some hp
  show (s.data.dirs p.inode).length ≤ maxInodes
  rw [hpi]
  exact h i hty

/-- `fs_list_directory` stores no row, or one for each entry. -/
theorem fsListDirectory_rows {c : Ctx} {path : CStr} {r : Int} {rows : List CStr}
    (h : fsListDirectory c s path = .ok ((r, rows), t)) :
    rows = [] ∨ ∃ i p, getDirectoryByInode s i = some p ∧ rows.length = entryCount s.data p := by
  unfold fsListDirectory at h
  split at h
  · cases h; exact Or.inl rfl
  · split at h
    · cases h; exact Or.inl rfl
    · split at h
      · cases h
      · rename_i s1 hp
        have hsame := fsResolvePath_same hp
        rcases resolvedOrFault_ok h with heq | ⟨i, heq⟩
        · cases heq; exact Or.inl rfl
        · unfold listDirectoryAt at heq
          split at heq
          · cases heq; exact Or.inl rfl
          · split at heq
            · cases heq; exact Or.inl rfl
            · rename_i p hdir
              cases heq
              refine Or.inr ⟨i, p, ?_, ?_⟩
              · rw [hsame.apply (fun s => getDirectoryByInode s i) (fun _ => rfl), hdir]
              · rw [hsame.apply (fun s => entryCount s.data p) (fun _ => rfl)]
                show ((s1.data.dirs p.inode).listEntries).length = (s1.data.dirs p.inode).length
                simp [Directory.listEntries]

theorem DirsFit.listingFits (h : DirsFit s) (c : Ctx) (path : CStr) : ListingFits c s path := by
  intro r rows t hr
  unfold fisopfsReaddir at hr
  split at hr
  · cases hr
  · rename_i count entries s1 hlist
    have hrows : rows = entries := by
      split at hr
      · cases hr; rfl
      · cases hr; rfl
    rw [hrows]
    rcases fsListDirectory_rows hlist with hnil | ⟨i, p, hdir, hlen⟩
    · simp [hnil]
    · rw [hlen]
      exact h i p hdir

/-- In every state of a run that adds no name to a directory with
`MAX_INODES` entries, the listing of every path fits its array. -/
theorem listings_fit {u : User} (h : Reachable u (fun s op _ => ¬ AddsToFull s op) s) :
    DirsFit s ∧ ∀ c path, ListingFits c s path := by
  have hinv : Sound s ∧ ShortDirs s := by
    refine h.invariant (I := fun s => Sound s ∧ ShortDirs s)
      (fun now => ⟨Sound.init _, ShortDirs.init _⟩) ?_
    rintro now s op r t ⟨hs, h⟩ hop hstep
    obtain ⟨s', t', hss, htt, he⟩ := step_effect hs hstep
    have ht := he.shortDirs (hs.same hss) (h.same hss) (fun hfull => hop (hfull.same hss.symm))
    exact ⟨step_sound hs hstep, ht.same htt.symm⟩
  exact ⟨hinv.2.dirsFit, fun c path => hinv.2.dirsFit.listingFits c path⟩

/-- A run that adds one name to the two of the root. -/
theorem listings_fit_one_file :
    ∃ s : Fs Attached, Reachable ⟨0, 0⟩ (fun s op _ => ¬ AddsToFull s op) s ∧
      (s.data.dirs 0).length = 3 ∧ DirsFit s ∧ ∀ c path, ListingFits c s path := by
  have hrun : returns (step (User.at ⟨0, 0⟩ 0) (fsInit (User.at ⟨0, 0⟩ 0))
      (.createFile (cstr "/f") 6)) 0 (fun s : Fs Attached =>
        decide ((s.data.dirs 0).length = 3)) = true := by
    decide +kernel
  obtain ⟨s, hstep, hs⟩ := returns_true hrun
  have hroom : ¬ AddsToFull (fsInit (User.at ⟨0, 0⟩ 0)) (.createFile (cstr "/f") 6) := by
    rintro ⟨path, d, name, -, -, hfull⟩
    have hshort : ((fsInit (User.at ⟨0, 0⟩ 0) : Fs Attached).data.dirs d).length ≤ 2 := by
      by_cases hd : d = 0
      · subst hd
        decide
      · simp [fsInit, directoryInit, Attached.setDir, hd, DataArea.zeroed]
    exact absurd (hfull.trans hshort) (by decide)
  have hreach : Reachable ⟨0, 0⟩ (fun s op _ => ¬ AddsToFull s op) s :=
    ⟨0, .single ⟨0, _, _, hstep, hroom⟩⟩
  exact ⟨s, hreach, of_decide_eq_true hs, listings_fit hreach⟩

/-- The listing of the root. -/
theorem readdir_root (c : Ctx) (hs : Sound s) {p : DirPtr}
    (hdir : getDirectoryByInode s 0 = some p) :
    ∃ t, fisopfsReaddir c s (cstr "/") = .ok ((0, directoryListEntries s.data p), t) := by
  obtain ⟨s1, hp, hsame⟩ := fsResolvePath_eq c hs.dirs (cstr "/")
  have hroot : resolve s (cstr "/") = .ok 0 := by
    refine resolve_ok.mpr ⟨by decide, by decide, by decide, ?_⟩
    rw [hs.root]
    rfl
  have hdir1 : getDirectoryByInode s1 0 = some p := by
    rw [hsame.apply (fun s => getDirectoryByInode s 0) (fun _ => rfl), hdir]
  have hty := (getDirectoryByInode_some hdir1).1
  have hdata : s1.data = s.data := hsame.apply (fun s => s.data) (fun _ => rfl)
  rw [hroot] at hp
  have hlist : fsListDirectory c s (cstr "/") = .ok
      ((entryCount s.data p, directoryListEntries s.data p), inodeUpdateAtime c 0 s1) := by
    unfold fsListDirectory
    rw [if_neg (by decide), if_neg (by decide), hp]
    simp only [resolvedOrFault, listDirectoryAt, hty, ne_eq, not_true_eq_false, if_false, hdir1,
      hdata]
  refine ⟨inodeUpdateAtime c 0 s1, ?_⟩
  rw [fisopfsReaddir, hlist]
  simp only
  rw [if_neg (by omega)]

/-- A file and 126 hard links to it: the root has 129 entries. -/
theorem listing_too_long :
    ∃ s : Fs Attached, Reachable ⟨0, 0⟩ (fun _ op _ => op.naming = true) s ∧ ¬ DirsFit s ∧
      ¬ ListingFits (User.at ⟨0, 0⟩ 0) s (cstr "/") := by
  obtain ⟨s, hreach, hs⟩ := exists_crowded (P := fun _ op _ => op.naming = true)
    (fun _ _ _ _ h _ => h) (show 126 ≤ 1021 by decide)
  have hlen : (s.data.dirs 0).length = 129 := by
    rw [hs.root]
    simp
  refine ⟨s, hreach, fun hfit => ?_, fun hfit => ?_⟩
  · have hle := hfit 0 ⟨0, 0⟩ hs.dir
    rw [show entryCount s.data (⟨0, 0⟩ : DirPtr) = (s.data.dirs 0).length from rfl, hlen] at hle
    exact absurd hle (by decide)
  · obtain ⟨t, hlist⟩ := readdir_root (User.at ⟨0, 0⟩ 0) hreach.sound hs.dir
    have hle := hfit _ _ _ hlist
    have hrows : (directoryListEntries s.data (⟨0, 0⟩ : DirPtr)).length = 129 := by
      rw [← hlen]
      exact List.length_map _
    rw [hrows] at hle
    exact absurd hle (by decide)

end SistemasOperativos.FileSystem
