/-
SistemasOperativos.FileSystem.DirectoryLinkTheorems — the link counts of
directories.

`fs_create_directory` starts a directory at 2 and raises its parent, so
the count is 2 plus the number of subdirectories as long as directories
are only created. `fs_remove_directory` does not lower the parent: the
count of every directory but the root, which nobody reads it against, is
one too high after a subdirectory is removed.
-/
import SistemasOperativos.FileSystem.ConsistencyTheorems
import SistemasOperativos.FileSystem.AccountingTheorems

namespace SistemasOperativos.FileSystem

/-! ## The specification -/

/-- Inode number `n` is a directory. -/
def isDirectory (t : Fs Attached) (n : Nat) : Bool :=
  if h : n < maxInodes then decide ((t.inodes ⟨n, h⟩).inodeType = .dir) else false

/-- The number of entries of `d`, other than `.` and `..`, that name
directories. -/
def subdirectories (t : Fs Attached) (d : Fin maxInodes) : Nat :=
  (t.data.dirs d).real.countP (fun e => isDirectory t e.inodeNumber)

def DirLinksRight (t : Fs Attached) : Prop :=
  ∀ d, t.intmap.inodes d = true → (t.inodes d).inodeType = .dir →
    d ≠ t.superblock.rootInodeNumber →
    (t.inodes d).hardLinksCount = 2 + subdirectories t d

theorem DirLinksRight.same {s t : Fs Attached} (h : Same s t) (hs : DirLinksRight s) :
    DirLinksRight t := (h.apply DirLinksRight (fun _ => rfl)).mp hs

theorem isDirectory_coe (t : Fs Attached) (i : Fin maxInodes) :
    isDirectory t i = decide ((t.inodes i).inodeType = .dir) := by
  simp [isDirectory]

theorem isDirectory_congr {s t : Fs Attached}
    (h : ∀ j, (t.inodes j).inodeType = .dir ↔ (s.inodes j).inodeType = .dir) :
    isDirectory t = isDirectory s := by
  funext n
  unfold isDirectory
  split
  · rename_i hn
    simp only [h ⟨n, hn⟩]
  · rfl

/-! ## Steps that create or remove no directory -/

/-- Directories, their link counts and their subdirectories as before. -/
theorem DirLinksRight.kept {s t : Fs Attached} (hs : Sound s) (h : DirLinksRight s)
    (hroot : t.superblock.rootInodeNumber = s.superblock.rootInodeNumber)
    (hty : ∀ j, (t.inodes j).inodeType = .dir ↔ (s.inodes j).inodeType = .dir)
    (hlinks : ∀ d, (s.inodes d).inodeType = .dir →
      (t.inodes d).hardLinksCount = (s.inodes d).hardLinksCount)
    (hcount : ∀ d, (s.inodes d).inodeType = .dir →
      (t.data.dirs d).real.countP (fun e => isDirectory s e.inodeNumber)
        = (s.data.dirs d).real.countP (fun e => isDirectory s e.inodeNumber)) :
    DirLinksRight t := by
  intro d _ hd hne
  rw [hty] at hd
  rw [hroot] at hne
  rw [hlinks d hd, subdirectories, isDirectory_congr hty, hcount d hd]
  exact h d (hs.dirUsed d hd) hd hne

/-- A new entry for something that is no directory. -/
theorem countP_withEntry_file {s : Fs Attached} (hs : DirsOk s) {d i : Fin maxInodes}
    {name : CStr} (hadd : CanAdd s d name) {data : Attached} (hdata : data.dirs = s.data.dirs)
    (hi : (s.inodes i).inodeType ≠ .dir) (x : Fin maxInodes) :
    ((withEntry data d name i).dirs x).real.countP (fun e => isDirectory s e.inodeNumber)
      = (s.data.dirs x).real.countP (fun e => isDirectory s e.inodeNumber) := by
  by_cases hx : x = d
  · subst hx
    have hn := Directory.realName_of_entryNamed_none (hs x hadd.isDir) hadd.free
    rw [withEntry_dirs_self, hdata, Directory.real_add _ hn, List.countP_append]
    simp [isDirectory_coe, hi]
  · rw [withEntry_dirs_ne hx, hdata]

/-- The entry of something that is no directory taken away. -/
theorem countP_without {d : Directory} {name : CStr} {e : DirEntry} (p : DirEntry → Bool)
    (he : d.entryNamed name = some e) (hp : p e = false) :
    (d.without name).countP p = d.countP p := by
  induction d with
  | nil => rfl
  | cons a d ih =>
      by_cases ha : a.name = name
      · have hae : a = e := by simpa [Directory.entryNamed, ha] using he
        subst hae
        simp [Directory.without, ha, hp]
      · have he' : Directory.entryNamed d name = some e := by
          simpa [Directory.entryNamed, List.find?_cons, ha] using he
        have := ih he'
        simp only [Directory.without, List.eraseP_cons, beq_iff_eq, ha, Bool.cond_eq_ite,
          if_false, List.countP_cons] at this ⊢
        rw [this]

theorem entryNamed_real {d : Directory} {name : CStr} {e : DirEntry} (hn : realName name = true)
    (he : d.entryNamed name = some e) : d.real.entryNamed name = some e := by
  rw [← he, Directory.entryNamed, Directory.entryNamed, Directory.real, List.find?_filter]
  congr 1
  funext x
  by_cases hx : x.name = name
  · simp [hx, hn]
  · simp [hx]

theorem countP_withoutEntry_file {s : Fs Attached} {d i : Fin maxInodes} {name : CStr}
    (hn : realName name = true) (hc : child s d name = some i)
    (hi : (s.inodes i).inodeType ≠ .dir) (x : Fin maxInodes) :
    ((withoutEntry s.data d name).dirs x).real.countP (fun e => isDirectory s e.inodeNumber)
      = (s.data.dirs x).real.countP (fun e => isDirectory s e.inodeNumber) := by
  by_cases hx : x = d
  · subst hx
    obtain ⟨-, e, he, hei⟩ := child_some hc
    have hself : (withoutEntry s.data x name).dirs x = (s.data.dirs x).without name := by
      simp [withoutEntry, Attached.setDir]
    rw [hself, Directory.real_without hn]
    refine countP_without _ (entryNamed_real hn he) ?_
    rw [hei, isDirectory_coe]
    simpa using hi
  · have hsame : (withoutEntry s.data d name).dirs x = s.data.dirs x := by
      simp [withoutEntry, Attached.setDir, hx]
    rw [hsame]

theorem DirLinksRight.reset {u : User} {c : Ctx} {s : Fs Attached} (hs : Consistent u s)
    (h : DirLinksRight s) {i : Fin maxInodes} (hi : s.intmap.inodes i = false) {data : Attached}
    (hdirs : ∀ j ≠ i, data.dirs j = s.data.dirs j) : DirLinksRight (reset c s i data) := by
  have hni := hs.notDir_of_unused hi
  have hino : ∀ d, (s.inodes d).inodeType = .dir → d ≠ i := by
    rintro d hd rfl
    exact hni hd
  refine h.kept hs.sound rfl (fun j => ?_) (fun d hd => ?_) (fun d hd => ?_)
  · by_cases hj : j = i
    · subst hj
      simp [FileSystem.reset, inodeInit, hni]
    · simp [FileSystem.reset, hj]
  · simp [FileSystem.reset, hino d hd]
  · show (data.dirs d).real.countP _ = _
    rw [hdirs d (hino d hd)]

theorem Frame.dirLinks {s t : Fs Attached} {i : Fin maxInodes} (hf : Frame s i t) (hs : Sound s)
    (h : DirLinksRight s) : DirLinksRight t :=
  h.kept hs hf.root (fun j => by rw [hf.type_eq]) (fun d _ => hf.links_eq d)
    (fun d _ => by rw [hf.dirs])

/-! ## `fs_create_directory` -/

theorem u16Inc_of_lt {n : Nat} (h : n + 1 < 65536) : u16Inc n = n + 1 := by
  simp only [u16Inc, u16]
  omega

theorem DirLinksRight.createDirectory {u : User} {now : Int} {s : Fs Attached}
    (hs : Consistent u s) (h : DirLinksRight s) {i d : Fin maxInodes} {mode b : Nat}
    {name : CStr} (hadd : CanAdd s d name) (hne : d ≠ i) (hf : Fresh s i b) :
    DirLinksRight (inodeIncrementLinks d
      (installed s i (newDirInode (u.at now) mode b) b
        (withEntry (s.data.setDir i Directory.init) d name i))) := by
  set data := withEntry (s.data.setDir i Directory.init) d name i with hdata
  set t := inodeIncrementLinks d (installed s i (newDirInode (u.at now) mode b) b data) with ht
  have hni := hs.notDir_of_unused hf.inode
  have hself : t.inodes i = newDirInode (u.at now) mode b := by
    simp [ht, inodeIncrementLinks, Fs.modifyInode, installed, Ne.symm hne]
  have hino : ∀ j ≠ i, j ≠ d → t.inodes j = s.inodes j := by
    intro j hj hjd
    simp [ht, inodeIncrementLinks, Fs.modifyInode, installed, hj, hjd]
  have hparent : t.inodes d
      = { s.inodes d with hardLinksCount := u16Inc (s.inodes d).hardLinksCount } := by
    simp [ht, inodeIncrementLinks, Fs.modifyInode, installed, hne]
  have htype : ∀ j ≠ i, (t.inodes j).inodeType = (s.inodes j).inodeType := by
    intro j hj
    by_cases hjd : j = d
    · rw [hjd, hparent]
    · rw [hino j hj hjd]
  -- nothing named the new inode, so the old entries are counted as before
  have hold : ∀ x, (s.inodes x).inodeType = .dir →
      (s.data.dirs x).real.countP (fun e => isDirectory t e.inodeNumber) = subdirectories s x := by
    intro x hx
    refine List.countP_congr (fun e he => ?_)
    have hlt := real_lt (hs.sound.dirs x hx) he
    have hei : (⟨e.inodeNumber, hlt⟩ : Fin maxInodes) ≠ i := by
      intro heq
      have hedge : (graphOf s).Edge x i :=
        (edge_graphOf hs.sound.dirs).mpr ⟨hx, e, he, by rw [← heq]⟩
      have hlive : s.intmap.inodes i = true := hs.tree.targetLive hedge
      rw [hf.inode] at hlive
      cases hlive
    simp only [isDirectory, hlt, dif_pos, htype _ hei]
  intro x hlive hx hroot
  by_cases hxi : x = i
  · subst hxi
    have hempty : data.dirs x = Directory.init := by
      rw [hdata, withEntry_dirs_ne (Ne.symm hne)]
      simp [Attached.setDir]
    have hzero : subdirectories t x = 0 := by
      show (data.dirs x).real.countP _ = 0
      rw [hempty]
      rfl
    rw [hself, hzero]
    rfl
  · rw [htype x hxi] at hx
    have hprev := h x (hs.sound.dirUsed x hx) hx hroot
    by_cases hxd : x = d
    · subst hxd
      have hn := Directory.realName_of_entryNamed_none (hs.sound.dirs x hadd.isDir) hadd.free
      have hnew : subdirectories t x = subdirectories s x + 1 := by
        show (data.dirs x).real.countP _ = _
        have hdirs : data.dirs x = s.data.dirs x ++ [⟨name, i⟩] := by
          rw [hdata, withEntry_dirs_self]
          simp [Attached.setDir, hne]
        rw [hdirs, Directory.real_add _ hn, List.countP_append, hold x hadd.isDir]
        simp [isDirectory_coe, hself, newDirInode]
      have hbound : subdirectories s x ≤ maxBlocks :=
        (List.countP_le_length.trans (List.length_filter_le _ _)).trans hadd.room.le
      simp only [maxBlocks] at hbound
      rw [hparent, hnew]
      show u16Inc (s.inodes x).hardLinksCount = _
      rw [u16Inc_of_lt (by omega)]
      omega
    · have hdirs : data.dirs x = s.data.dirs x := by
        rw [hdata, withEntry_dirs_ne hxd]
        simp [Attached.setDir, hxi]
      have hsame : subdirectories t x = subdirectories s x := by
        show (data.dirs x).real.countP _ = _
        rw [hdirs, hold x hx]
      rw [hino x hxi hxd, hsame]
      exact hprev

/-! ## `fs_remove_directory` -/

/-- `op` removes a directory whose parent is not the root. -/
def RemovesNested (s : Fs Attached) (op : Op) : Prop :=
  ∃ path d name i p, op = .removeDirectory path ∧ target s path = some (d, name, i) ∧
    resolve s path = .ok i ∧ getDirectoryByInode s i = some p ∧ (s.data.dirs i).length ≤ 2 ∧
    d ≠ s.superblock.rootInodeNumber

theorem RemovesNested.same {s t : Fs Attached} (h : Same s t) {op : Op}
    (hs : RemovesNested s op) : RemovesNested t op := by
  obtain ⟨path, d, name, i, p, rfl, ht, hr, hp, hlen, hne⟩ := hs
  refine ⟨path, d, name, i, p, rfl, ?_, ?_, ?_, ?_, ?_⟩
  · rw [← target_same h, ht]
  · rw [← resolve_same h, hr]
  · rw [← h.apply (fun s => getDirectoryByInode s i) (fun _ => rfl), hp]
  · rwa [← h.apply (fun s => (s.data.dirs i).length) (fun _ => rfl)]
  · rwa [← h.apply (fun s => s.superblock.rootInodeNumber) (fun _ => rfl)]

/-- Removing a directory of the root touches no other directory. -/
theorem DirLinksRight.removeFromRoot {u : User} {now : Int} {s : Fs Attached}
    (hs : Consistent u s) (h : DirLinksRight s) {i : Fin maxInodes} {name : CStr}
    (hn : realName name = true) (hc : child s s.superblock.rootInodeNumber name = some i)
    (hty : (s.inodes i).inodeType = .dir) :
    DirLinksRight (freed (u.at now) s i
      (withoutEntry s.data s.superblock.rootInodeNumber name)) := by
  have hroot := hs.sound.root
  set d := s.superblock.rootInodeNumber with hd
  have hfind := find_graphOf hs.sound.dirs hn hc
  have hmem : (name, i) ∈ (graphOf s).entries d := List.mem_of_find?_eq_some hfind
  intro x hlive hx hxroot
  have hxi : x ≠ i := by
    rintro rfl
    simp [freed, inodeInit] at hx
  have hino : (freed (u.at now) s i (withoutEntry s.data d name)).inodes x = s.inodes x := by
    simp [freed, hxi]
  rw [hino] at hx
  have hxd : x ≠ d := hxroot
  have hprev := h x (hs.sound.dirUsed x hx) hx hxroot
  have hsub : subdirectories (freed (u.at now) s i (withoutEntry s.data d name)) x
      = subdirectories s x := by
    have hdirs : (withoutEntry s.data d name).dirs x = s.data.dirs x := by
      simp [withoutEntry, Attached.setDir, hxd]
    show ((withoutEntry s.data d name).dirs x).real.countP _ = _
    rw [hdirs]
    refine List.countP_congr (fun e he => ?_)
    have hlt := real_lt (hs.sound.dirs x hx) he
    -- the removed directory had its one name in the root
    have hei : (⟨e.inodeNumber, hlt⟩ : Fin maxInodes) ≠ i := by
      intro heq
      have hmem' : (e.name, i) ∈ (graphOf s).entries x := by
        simp only [graphOf, hx, if_true, List.mem_map]
        exact ⟨e, he, (edgeOf_eq hlt).mpr ⟨rfl, by rw [← heq]⟩⟩
      have htwo := NameGraph.two_names hmem' hmem (Or.inl hxd)
      have hone := hs.tree.once hty
      omega
    simp [isDirectory, hlt, freed, hei]
  rw [hino, hsub]
  exact hprev

/-! ## The root removed as `.` -/

/-- No inode is a directory. This is what `rmdir /.` leaves of an empty
file system, and nothing can be created after it. -/
def NoDirectories (t : Fs Attached) : Prop := ∀ i, (t.inodes i).inodeType ≠ .dir

theorem NoDirectories.same {s t : Fs Attached} (h : Same s t) (hs : NoDirectories s) :
    NoDirectories t := (h.apply NoDirectories (fun _ => rfl)).mp hs

theorem NoDirectories.update {s t : Fs Attached} (h : NoDirectories s) {i : Fin maxInodes}
    {n : Inode} (hin : t.inodes = Function.update s.inodes i n)
    (hn : n.inodeType = .dir → (s.inodes i).inodeType = .dir) : NoDirectories t := by
  intro j hj
  rw [type_update hin] at hj
  split at hj
  · exact h i (hn hj)
  · exact h j hj

theorem Effect.noDirectories {c : Ctx} {s t : Fs Attached} {op : Op} {r : Int}
    (he : Effect c s op r t) (hs : Sound s) (h : NoDirectories s) : NoDirectories t := by
  cases he with
  | unchanged => exact h
  | rolledBack => exact h.update rfl (fun hd => by cases hd)
  | createFile _ hadd _ => exact absurd hadd.isDir (h _)
  | createSymlink _ hadd _ _ => exact absurd hadd.isDir (h _)
  | createDirectory _ _ hadd _ _ => exact absurd hadd.isDir (h _)
  | createHardLink _ _ _ hadd => exact absurd hadd.isDir (h _)
  | unlinked ht _ _ => exact absurd (child_isDir (target_some.mp ht).2) (h _)
  | deleted ht _ _ => exact absurd (child_isDir (target_some.mp ht).2) (h _)
  | removeDirectory ht _ _ _ => exact absurd (child_isDir (target_some.mp ht).2) (h _)
  | changeMode => exact h.update rfl id
  | changeOwner => exact h.update rfl id
  | writeFile ht _ => exact absurd (child_isDir (target_some.mp ht).2) (h _)
  | truncate _ =>
      intro j
      rw [(truncated_frame hs _ _).type_eq]
      exact h j

theorem noDirectories_of_removed_root {u : User} {now : Int} {s : Fs Attached}
    (hs : Consistent u s) (hempty : (s.data.dirs 0).length ≤ 2) (data : Attached) :
    NoDirectories (freed (u.at now) s 0 data) := by
  intro j hj
  by_cases hj0 : j = 0
  · subst hj0
    simp [freed, inodeInit] at hj
  · have hty : (s.inodes j).inodeType = .dir := by simpa [freed, hj0] using hj
    have hroot : (s.inodes 0).inodeType = .dir := by
      have := hs.tree.rootDir
      rwa [show (graphOf s).root = 0 from hs.sound.root] at this
    -- everything in use is reached from the root, which has no entries
    have hreach := hs.tree.reach (hs.tree.dirLive hty)
    rw [show (graphOf s).root = 0 from hs.sound.root] at hreach
    rcases Relation.ReflTransGen.cases_head hreach with h | ⟨k, hk, -⟩
    · exact hj0 h.symm
    · obtain ⟨-, e, he, -⟩ := (edge_graphOf hs.sound.dirs).mp hk
      have := Directory.two_lt_length (hs.sound.dirs 0 hroot) he
      omega

/-- The only wild step that makes no link past 65535 is `rmdir` of the
empty root under a dot name. -/
theorem Effect.untame {u : User} {now : Int} {s t : Fs Attached} {op : Op} {r : Int}
    (he : Effect (u.at now) s op r t) (hs : Consistent u s) (hlink : ¬ LinkOverflows s op)
    (htame : ¬ Tame s op) :
    NoDirectories t ∨ t = s ∨ ∃ i data, s.intmap.inodes i = false ∧
      (∀ j ≠ i, data.dirs j = s.data.dirs j) ∧ t = reset (u.at now) s i data := by
  have hwild : ∃ path d name i, op = .removeDirectory path ∧
      target s path = some (d, name, i) ∧ realName name = false := by
    by_contra hno
    refine htame ⟨hlink, fun path d name i hop ht => ?_⟩
    by_contra hn
    exact hno ⟨path, d, name, i, hop, ht, by simpa using hn⟩
  obtain ⟨path, d, name, i, rfl, ht, hn⟩ := hwild
  cases he with
  | unchanged => exact Or.inr (Or.inl rfl)
  | rolledBack _ hi hdirs _ => exact Or.inr (Or.inr ⟨_, _, hi, hdirs, rfl⟩)
  | removeDirectory ht' _ _ hempty =>
      rw [ht] at ht'
      cases ht'
      rcases removed_dot hs.sound ht hempty with hn' | ⟨rfl, rfl⟩
      · rw [hn] at hn'
        cases hn'
      · exact Or.inl (noDirectories_of_removed_root hs hempty _)

/-- What holds in every run that makes no link past 65535, whatever it
removes. -/
def TreeOrBare (u : User) (t : Fs Attached) : Prop :=
  Sound t ∧ (NoDirectories t ∨ Consistent u t)

theorem step_treeOrBare {u : User} {now : Int} {s t : Fs Attached} {op : Op} {r : Int}
    (hs : TreeOrBare u s) (hlink : ¬ LinkOverflows s op)
    (h : step (u.at now) s op = .ok (r, t)) : TreeOrBare u t := by
  obtain ⟨hsound, hinv⟩ := hs
  refine ⟨step_sound hsound h, ?_⟩
  obtain ⟨s', t', hss, htt, he⟩ := step_effect hsound h
  rcases hinv with hno | hc
  · exact Or.inl ((he.noDirectories (hsound.same hss) (hno.same hss)).same htt.symm)
  · have hc' := hc.same hss
    by_cases htame : Tame s' op
    · exact Or.inr ((he.consistent hc' htame).same htt.symm)
    · rcases he.untame hc' (fun ho => hlink (ho.same hss.symm)) htame with
        hno | rfl | ⟨i, data, hi, hdirs, rfl⟩
      · exact Or.inl (hno.same htt.symm)
      · exact Or.inr (hc'.same htt.symm)
      · exact Or.inr ((hc'.reset hi hdirs).same htt.symm)

theorem Reachable.treeOrBare {u : User} {t : Fs Attached}
    (h : Reachable u (fun s op _ => ¬ LinkOverflows s op) t) : TreeOrBare u t :=
  h.invariant (I := TreeOrBare u) (fun now => ⟨Sound.init _, Or.inr (Consistent.init u now)⟩)
    (fun hs hp hstep => step_treeOrBare hs hp hstep)

/-! ## Steps and runs -/

/-- What holds along the runs of this module. -/
def DirLinksInvariant (u : User) (t : Fs Attached) : Prop :=
  Sound t ∧ (NoDirectories t ∨ (Consistent u t ∧ DirLinksRight t))

theorem Effect.dirLinks {u : User} {now : Int} {s t : Fs Attached} {op : Op} {r : Int}
    (he : Effect (u.at now) s op r t) (hs : Consistent u s) (h : DirLinksRight s)
    (hlink : ¬ LinkOverflows s op) (hrm : ¬ RemovesNested s op) :
    NoDirectories t ∨ (Consistent u t ∧ DirLinksRight t) := by
  by_cases htame : Tame s op
  · refine Or.inr ⟨he.consistent hs htame, ?_⟩
    cases he with
    | unchanged => exact h
    | rolledBack _ hi hdirs _ => exact h.reset hs hi hdirs
    | @createFile path mode d i name b _ hadd hf =>
        have hni := hs.notDir_of_unused hf.inode
        refine h.kept hs.sound rfl (fun j => ?_) (fun x hx => ?_)
          (fun x _ => countP_withEntry_file hs.sound.dirs hadd rfl hni x)
        · by_cases hj : j = i
          · subst hj
            simp [installed, newFileInode, hni]
          · simp [installed, hj]
        · have : x ≠ i := fun hxi => hni (hxi ▸ hx)
          simp [installed, this]
    | @createSymlink target linkpath d i name b _ hadd _ hf =>
        have hni := hs.notDir_of_unused hf.inode
        refine h.kept hs.sound rfl (fun j => ?_) (fun x hx => ?_)
          (fun x _ => countP_withEntry_file hs.sound.dirs hadd rfl hni x)
        · by_cases hj : j = i
          · subst hj
            simp [installed, newSymlinkInode, hni]
          · simp [installed, hj]
        · have : x ≠ i := fun hxi => hni (hxi ▸ hx)
          simp [installed, this]
    | createDirectory _ _ hadd hne hf => exact h.createDirectory hs hadd hne hf
    | @createHardLink source dest src d name _ hty _ hadd =>
        refine h.kept hs.sound rfl (fun j => ?_) (fun x hx => ?_)
          (fun x _ => countP_withEntry_file hs.sound.dirs hadd rfl hty x)
        · by_cases hj : j = src
          · subst hj; simp [inodeIncrementLinks, Fs.modifyInode]
          · simp [inodeIncrementLinks, Fs.modifyInode, hj]
        · have : x ≠ src := fun hxi => hty (hxi ▸ hx)
          simp [inodeIncrementLinks, Fs.modifyInode, this]
    | @unlinked path d i name ht hty _ =>
        have hn := realName_of_target_file hs.sound ht hty
        refine h.kept hs.sound rfl (fun j => ?_) (fun x hx => ?_)
          (fun x _ => countP_withoutEntry_file hn (target_some.mp ht).2 hty x)
        · by_cases hj : j = i
          · subst hj; simp [inodeDecrementLinks, Fs.modifyInode]
          · simp [inodeDecrementLinks, Fs.modifyInode, hj]
        · have : x ≠ i := fun hxi => hty (hxi ▸ hx)
          simp [inodeDecrementLinks, Fs.modifyInode, this]
    | @deleted path d i name ht hty _ =>
        have hn := realName_of_target_file hs.sound ht hty
        refine h.kept hs.sound rfl (fun j => ?_) (fun x hx => ?_)
          (fun x _ => countP_withoutEntry_file hn (target_some.mp ht).2 hty x)
        · by_cases hj : j = i
          · subst hj; simp [released, inodeInit, hty]
          · simp [released, hj]
        · have : x ≠ i := fun hxi => hty (hxi ▸ hx)
          simp [released, this]
    | @removeDirectory path d i name p ht hr hdir hempty =>
        have hd : d = s.superblock.rootInodeNumber := by
          by_contra hne
          exact hrm ⟨path, d, name, i, p, rfl, ht, hr, hdir, hempty, hne⟩
        subst hd
        exact h.removeFromRoot hs (htame.rmdir path _ name i rfl ht) (target_some.mp ht).2
          (getDirectoryByInode_some hdir).1
    | @changeMode path mode i _ =>
        exact Frame.dirLinks (i := i)
          ((Frame.refl s i).modifyInode (fun _ => rfl) (fun _ => rfl) (fun _ => rfl)) hs.sound h
    | @changeOwner path uid gid i _ =>
        exact Frame.dirLinks (i := i)
          ((Frame.refl s i).modifyInode (fun _ => rfl) (fun _ => rfl) (fun _ => rfl)) hs.sound h
    | writeFile => exact (written_frame hs.sound _ _ _).dirLinks hs.sound h
    | truncate => exact (truncated_frame hs.sound _ _).dirLinks hs.sound h
  · rcases he.untame hs hlink htame with hno | rfl | ⟨i, data, hi, hdirs, rfl⟩
    · exact Or.inl hno
    · exact Or.inr ⟨hs, h⟩
    · exact Or.inr ⟨hs.reset hi hdirs, h.reset hs hi hdirs⟩

theorem step_dirLinks {u : User} {now : Int} {s t : Fs Attached} {op : Op} {r : Int}
    (hs : DirLinksInvariant u s) (hlink : ¬ LinkOverflows s op) (hrm : ¬ RemovesNested s op)
    (h : step (u.at now) s op = .ok (r, t)) : DirLinksInvariant u t := by
  obtain ⟨hsound, hinv⟩ := hs
  refine ⟨step_sound hsound h, ?_⟩
  obtain ⟨s', t', hss, htt, he⟩ := step_effect hsound h
  rcases hinv with hno | ⟨hc, hl⟩
  · exact Or.inl ((he.noDirectories (hsound.same hss) (hno.same hss)).same htt.symm)
  · rcases he.dirLinks (hc.same hss) (hl.same hss) (fun ho => hlink (ho.same hss.symm))
      (fun hr => hrm (hr.same hss.symm)) with hno | ⟨hc', hl'⟩
    · exact Or.inl (hno.same htt.symm)
    · exact Or.inr ⟨hc'.same htt.symm, hl'.same htt.symm⟩

/-- The link count of a directory is 2 plus its subdirectories in every
run that removes no directory from a directory other than the root and
makes no hard link past 65535. -/
theorem directory_links_count {u : User} {t : Fs Attached}
    (h : Reachable u (fun s op _ => ¬ LinkOverflows s op ∧ ¬ RemovesNested s op) t) :
    ∀ d, t.intmap.inodes d = true → (t.inodes d).inodeType = .dir →
      d ≠ t.superblock.rootInodeNumber →
      (t.inodes d).hardLinksCount = 2 + subdirectories t d := by
  have hinv : DirLinksInvariant u t := by
    refine h.invariant (I := DirLinksInvariant u) (fun now => ?_)
      (fun hs hp hstep => step_dirLinks hs hp.1 hp.2 hstep)
    refine ⟨Sound.init _, Or.inr ⟨Consistent.init u now, ?_⟩⟩
    intro d _ hd hroot
    exact absurd (type_fsInit _ hd) hroot
  rcases hinv.2 with hno | ⟨-, hl⟩
  · intro d _ hd
    exact absurd hd (hno d)
  · exact hl

/-- `mkdir /d` and `mkdir /d/e`: three links for one subdirectory. -/
theorem directory_links_count_after_mkdir :
    ∃ t : Fs Attached,
      Reachable ⟨0, 0⟩ (fun s op _ => ¬ LinkOverflows s op ∧ ¬ RemovesNested s op) t ∧
      (t.inodes 1).hardLinksCount = 3 ∧
      (t.inodes 1).hardLinksCount = 2 + subdirectories t 1 := by
  obtain ⟨t, ht, hv⟩ := runOps_eval (User.at ⟨0, 0⟩ 0) (fsInit (User.at ⟨0, 0⟩ 0))
    [.createDirectory (cstr "/d") 7 (cstr "d"), .createDirectory (cstr "/d/e") 7 (cstr "e")]
    (fun t : Fs Attached => (t.intmap.inodes 1, (t.inodes 1).inodeType,
      t.superblock.rootInodeNumber, (t.inodes 1).hardLinksCount)) (true, .dir, 0, 3)
    (by decide +kernel)
  simp only [Prod.mk.injEq] at hv
  obtain ⟨h1, h2, h3, h4⟩ := hv
  have hreach : Reachable ⟨0, 0⟩
      (fun s op _ => ¬ LinkOverflows s op ∧ ¬ RemovesNested s op) t := by
    refine ⟨0, runOps_reaches (fun op hop s _ => ⟨?_, ?_⟩) ht⟩
    · rintro ⟨source, dest, src, d, name, rfl, -⟩
      simp at hop
    · rintro ⟨path, d, name, i, p, rfl, -⟩
      simp at hop
  exact ⟨t, hreach, h4, directory_links_count hreach 1 h1 h2 (by rw [h3]; decide)⟩

/-- `mkdir /d`, `mkdir /d/e`, `rmdir /d/e`: three links and no
subdirectory. -/
theorem directory_links_count_after_rmdir :
    ∃ t : Fs Attached,
      runOps (User.at ⟨0, 0⟩ 0) (fsInit (User.at ⟨0, 0⟩ 0))
        [.createDirectory (cstr "/d") 7 (cstr "d"), .createDirectory (cstr "/d/e") 7 (cstr "e"),
          .removeDirectory (cstr "/d/e")] = .ok t ∧
      Reachable ⟨0, 0⟩ (fun _ _ _ => True) t ∧ t.intmap.inodes 1 = true ∧
      (t.inodes 1).inodeType = .dir ∧ t.superblock.rootInodeNumber = 0 ∧
      (t.inodes 1).hardLinksCount = 3 ∧ subdirectories t 1 = 0 := by
  obtain ⟨t, ht, hv⟩ := runOps_eval (User.at ⟨0, 0⟩ 0) (fsInit (User.at ⟨0, 0⟩ 0))
    [.createDirectory (cstr "/d") 7 (cstr "d"), .createDirectory (cstr "/d/e") 7 (cstr "e"),
      .removeDirectory (cstr "/d/e")]
    (fun t : Fs Attached => (t.intmap.inodes 1, (t.inodes 1).inodeType,
      t.superblock.rootInodeNumber, (t.inodes 1).hardLinksCount, subdirectories t 1))
    (true, .dir, 0, 3, 0) (by decide +kernel)
  simp only [Prod.mk.injEq] at hv
  exact ⟨t, ht, ⟨0, runOps_reaches (fun _ _ _ _ => trivial) ht⟩, hv⟩

end SistemasOperativos.FileSystem
