/-
SistemasOperativos.FileSystem.FileHistoryTheorems — a file from its
creation on, with everything else that happens in between.

The content of a file follows a list of bytes as long as every write
starts inside the file or at its end. The other operations of the run
may do what they like to other files and directories. Two of them can
still reach this one: a symbolic link whose target spills over into its
blocks, and a truncation to 0 of a directory on its path, which takes the
directory's block away.
-/
import SistemasOperativos.FileSystem.FailureTheorems
import SistemasOperativos.FileSystem.ContentTheorems

namespace SistemasOperativos.FileSystem

open Paged

/-! ## The specification -/

/-- `path` leads, through its parent directory, to inode `i`. -/
def FileAt (s : Fs Attached) (path : CStr) (i : Fin maxInodes) : Prop :=
  ∃ d name, target s path = some (d, name, i)

/-- `op` writes, truncates or deletes inode `i`. -/
def OnFile (s : Fs Attached) (i : Fin maxInodes) : Op → Prop
  | .writeFile path _ _ _ => FileAt s path i
  | .deleteFile path => FileAt s path i
  | .truncate path _ => resolve s path = .ok i
  | _ => False

/-- `op` is a `fisopfs_truncate` of a directory to length 0. -/
def TruncatesDirectory (s : Fs Attached) (op : Op) : Prop :=
  ∃ path i, op = .truncate path 0 ∧ resolve s path = .ok i ∧ (s.inodes i).inodeType = .dir

/-- The position a write to a file of content `l` starts at. -/
def startOf (l : List UInt8) (offset : Int) (append : Bool) : Nat :=
  if append then l.length else offset.toNat

/-- The histories of the file that `fs_create_file` made at `path`, with
the list of bytes they leave. Every operation on other files and
directories meets `P`. -/
inductive FileHistory (u : User) (P : Fs Attached → Op → Prop) (path : CStr)
    (i : Fin maxInodes) : List UInt8 → Fs Attached → Prop where
  | created {s t : Fs Attached} {now : Int} {mode : Nat}
      (hs : Reachable u (fun _ _ _ => True) s)
      (hstep : step (u.at now) s (.createFile path mode) = .ok (0, t)) (hat : FileAt t path i) :
      FileHistory u P path i [] t
  | wrote {s t : Fs Attached} {l : List UInt8} {now : Int} {path' : CStr} {buffer : List UInt8}
      {offset : Int} {append : Bool} {r : Int} (h : FileHistory u P path i l s)
      (hat : FileAt s path' i) (hstart : append = true ∨ 0 ≤ offset ∧ offset ≤ l.length)
      (hstep : step (u.at now) s (.writeFile path' buffer offset append) = .ok (r, t)) :
      FileHistory u P path i (overwrite l (startOf l offset append) (buffer.take r.toNat)) t
  | truncated {s t : Fs Attached} {l : List UInt8} {now : Int} {path' : CStr} {size r : Int}
      (h : FileHistory u P path i l s) (hat : resolve s path' = .ok i) (h0 : 0 ≤ size)
      (hsize : size ≤ l.length)
      (hstep : step (u.at now) s (.truncate path' size) = .ok (r, t)) :
      FileHistory u P path i (l.take size.toNat) t
  | other {s t : Fs Attached} {l : List UInt8} {now : Int} {op : Op} {r : Int}
      (h : FileHistory u P path i l s) (hop : ¬ OnFile s i op) (hp : P s op)
      (hstep : step (u.at now) s op = .ok (r, t)) :
      FileHistory u P path i l t

theorem FileAt.same {s t : Fs Attached} (h : Same s t) {path : CStr} {i : Fin maxInodes}
    (hs : FileAt s path i) : FileAt t path i := by
  obtain ⟨d, name, ht⟩ := hs
  exact ⟨d, name, by rw [← target_same h, ht]⟩

theorem OnFile.same {s t : Fs Attached} (h : Same s t) {i : Fin maxInodes} {op : Op}
    (hs : OnFile s i op) : OnFile t i op := by
  cases op with
  | writeFile => exact FileAt.same h hs
  | deleteFile => exact FileAt.same h hs
  | truncate path size =>
      show resolve t path = .ok i
      rw [← resolve_same h]
      exact hs
  | _ => exact hs

theorem TruncatesDirectory.same {s t : Fs Attached} (h : Same s t) {op : Op}
    (hs : TruncatesDirectory s op) : TruncatesDirectory t op := by
  obtain ⟨path, i, rfl, hr, hty⟩ := hs
  refine ⟨path, i, rfl, by rw [← resolve_same h, hr], ?_⟩
  rw [← h.apply (fun s => (s.inodes i).inodeType) (fun _ => rfl), hty]

theorem FileIs.same {s t : Fs Attached} (h : Same s t) {i : Fin maxInodes} {l : List UInt8}
    (hs : FileIs s i l) : FileIs t i l :=
  (h.apply (fun s => FileIs s i l) (fun _ => propext
    ⟨fun ⟨a, b, c, m, d, e, f, g⟩ => ⟨a, b, c, m, d, e, f, g⟩,
      fun ⟨a, b, c, m, d, e, f, g⟩ => ⟨a, b, c, m, d, e, f, g⟩⟩)).mp hs

/-! ## Operations on a path that leads to an inode -/

/-- The lookup at the start of `fs_read_file` and `fs_write_file`. -/
theorem lookup_of_target {s : Fs Attached} (hs : DirsOk s) {path name : CStr}
    {d i : Fin maxInodes} (ht : target s path = some (d, name, i)) :
    ∃ p, getDirectoryByInode s d = some p ∧ directoryLookup s.data p name = ((i : Nat) : Int) := by
  obtain ⟨-, hc⟩ := target_some.mp ht
  obtain ⟨⟨p, hp⟩, -⟩ := child_some hc
  refine ⟨p, hp, ?_⟩
  rw [lookup_eq_child hs hp, hc, Option.elim_some]

theorem fsReadFile_file (c : Ctx) {s : Fs Attached} (hs : Sound s) {path : CStr}
    {i : Fin maxInodes} (hat : FileAt s path i) (size : Nat) (offset : Int) :
    ∃ s', Same s s' ∧ fsReadFile c s path size offset = .ok (readFileAt c s' i size offset) := by
  obtain ⟨d, name, ht⟩ := hat
  obtain ⟨s1, h1, hsame⟩ := fsResolveParent_eq c hs.dirs path
  have ht1 : target s1 path = some (d, name, i) := by rw [target_same hsame, ht]
  obtain ⟨p, hdir, hlook⟩ := lookup_of_target (hs.same hsame.symm).dirs ht1
  refine ⟨s1, hsame.symm, ?_⟩
  rw [fsReadFile, h1, (target_some.mp ht).1]
  simp only [hdir, hlook, inodeAt_coe, if_neg (show ¬ ((i : Nat) : Int) < 0 by omega)]

theorem fsWriteFile_file (c : Ctx) {s : Fs Attached} (hs : Sound s) {path : CStr}
    {i : Fin maxInodes} (hat : FileAt s path i) {buffer : List UInt8} (hne : buffer ≠ [])
    (offset : Int) (append : Bool) :
    ∃ s' t, Same s s' ∧ Same t (written s' i buffer (writeStart s' i offset append)) ∧
      fsWriteFile c s path buffer offset append
        = .ok ((writeLoop i buffer loopFuel s' 0 (writeStart s' i offset append)).2.1, t) := by
  obtain ⟨d, name, ht⟩ := hat
  obtain ⟨s1, h1, hsame⟩ := fsResolveParent_eq c hs.dirs path
  have ht1 : target s1 path = some (d, name, i) := by rw [target_same hsame, ht]
  obtain ⟨p, hdir, hlook⟩ := lookup_of_target (hs.same hsame.symm).dirs ht1
  refine ⟨s1, (writeFileAt c s1 i buffer offset append).2, hsame.symm,
    (same_updateAtime _ _ _).trans ((same_updateCtime _ _ _).trans (same_updateMtime _ _ _)), ?_⟩
  rw [fsWriteFile, if_neg (by simpa using hne), h1, (target_some.mp ht).1]
  simp only [hdir, hlook, inodeAt_coe, if_neg (show ¬ ((i : Nat) : Int) < 0 by omega)]
  rfl

theorem fisopfsTruncate_ok (c : Ctx) {s : Fs Attached} (hs : Sound s) {path : CStr}
    {i : Fin maxInodes} (hr : resolve s path = .ok i) (size : Int) :
    ∃ s' t, Same s s' ∧ Same t (truncated s' i size) ∧
      fisopfsTruncate c s path size = .ok (0, t) := by
  obtain ⟨s1, h1, hsame⟩ := fsResolvePath_eq c hs.dirs path
  refine ⟨s1, truncateAt c s1 i size, hsame.symm,
    (same_updateCtime _ _ _).trans (same_updateMtime _ _ _), ?_⟩
  rw [fisopfsTruncate, h1, hr]

/-- A path that is taken cannot be created. -/
theorem fsCreateFile_existing (c : Ctx) {s : Fs Attached} (hs : Sound s) {path : CStr}
    {i : Fin maxInodes} (hat : FileAt s path i) (mode : Nat) :
    ∃ t, fsCreateFile c s path mode = .ok (-eexist, t) := by
  obtain ⟨d, name, ht⟩ := hat
  obtain ⟨s1, h1, hsame⟩ := fsResolveParent_eq c hs.dirs path
  have ht1 : target s1 path = some (d, name, i) := by rw [target_same hsame, ht]
  obtain ⟨p, hdir, hlook⟩ := lookup_of_target (hs.same hsame.symm).dirs ht1
  have hpar := (target_some.mp ht).1
  have hpath : path ≠ [] ∧ ¬ path.length ≥ maxPathLen := by
    constructor
    · rintro rfl
      cases hpar
    · intro hlen
      rw [resolveParent, if_pos hlen] at hpar
      split at hpar <;> cases hpar
  refine ⟨s1, ?_⟩
  rw [fsCreateFile, if_neg hpath.1, if_neg hpath.2, h1, hpar]
  simp only [createFileIn, hdir, hlook, if_pos (show ((i : Nat) : Int) ≥ 0 by omega)]

/-! ## The content under other operations -/

theorem FileIs.congr {s t : Fs Attached} {i : Fin maxInodes} {l : List UInt8} (h : FileIs s i l)
    (hty : (t.inodes i).inodeType = (s.inodes i).inodeType)
    (hsize : (t.inodes i).fileSizeBytes = (s.inodes i).fileSizeBytes)
    (hptr : (t.inodes i).directBlockPtrs = (s.inodes i).directBlockPtrs)
    (hused : t.intmap.inodes i = true)
    (hbytes : ∀ a, holds (s.inodes i) (a / blockSize) = true →
      t.data.bytes a = s.data.bytes a) : FileIs t i l := by
  obtain ⟨m, hm⟩ := h.content
  have hslot : ∀ k, slot t i k = slot s i k := by
    intro k
    rw [slot, slot, inodeGetDirectBlock, inodeGetDirectBlock, hptr]
  refine ⟨by rw [hty, h.type], hused, by rw [hsize, h.size], m, ?_, ?_, hm.room, ?_⟩
  · intro k hk
    rw [hslot]
    exact hm.filled k hk
  · intro k hk
    rw [hslot]
    exact hm.empty k hk
  · refine hm.shown.congr (by decide) (fun k _ => hslot k) ?_
    rintro k b hk a rfl
    exact hbytes a (holds_iff.mpr ⟨k, hk⟩)

/-- Inode `i` stays as it was. -/
theorem FileIs.of_inode {s t : Fs Attached} {i : Fin maxInodes} {l : List UInt8}
    (h : FileIs s i l) (hino : t.inodes i = s.inodes i) (hused : t.intmap.inodes i = true)
    (hbytes : ∀ a, holds (s.inodes i) (a / blockSize) = true →
      t.data.bytes a = s.data.bytes a) : FileIs t i l :=
  h.congr (by rw [hino]) (by rw [hino]) (by rw [hino]) hused hbytes

/-- A store into some inode that keeps type, size and slots. -/
theorem FileIs.modifyInode {s : Fs Attached} {i : Fin maxInodes} {l : List UInt8}
    (h : FileIs s i l) (j : Fin maxInodes) {f : Inode → Inode}
    (hty : ∀ n, (f n).inodeType = n.inodeType)
    (hsize : ∀ n, (f n).fileSizeBytes = n.fileSizeBytes)
    (hptr : ∀ n, (f n).directBlockPtrs = n.directBlockPtrs) : FileIs (s.modifyInode j f) i l := by
  by_cases hi : i = j
  · subst hi
    have hself : (s.modifyInode i f).inodes i = f (s.inodes i) := by simp [Fs.modifyInode]
    exact h.congr (by rw [hself, hty]) (by rw [hself, hsize]) (by rw [hself, hptr]) h.used
      (fun _ _ => rfl)
  · exact h.of_inode (by simp [Fs.modifyInode, hi]) h.used (fun _ _ => rfl)

/-- Two inodes hold no block in common. -/
theorem Sound.holds_other {s : Fs Attached} (hs : Sound s) {i j : Fin maxInodes} (hne : i ≠ j)
    {b : Nat} (h : holds (s.inodes i) b = true) : holds (s.inodes j) b = false := by
  rw [Bool.eq_false_iff]
  intro h'
  obtain ⟨k, hk⟩ := holds_iff.mp h
  obtain ⟨k', hk'⟩ := holds_iff.mp h'
  exact hne (hs.slotInj i k j k' b hk hk').1

theorem Frame.fileIs {s t : Fs Attached} {i j : Fin maxInodes} {l : List UInt8}
    (hf : Frame s j t) (hs : Sound s) (ht : Sound t) (hne : i ≠ j) (h : FileIs s i l) :
    FileIs t i l := by
  refine h.of_inode (hf.others i hne) (by rw [hf.inodeMap, h.used]) (fun a ha => ?_)
  refine hf.bytes a (hs.holds_other hne ha) (ht.holds_other hne ?_)
  rw [hf.others i hne]
  exact ha

/-- A target that does not spill over leaves the blocks in use alone. -/
theorem copied_elsewhere {s : Fs Attached} (hs : Sound s) {op : Op} {target : CStr} {b : Nat}
    (hc : CopiesTarget s op target b) (hop : ¬ SpillsOver s op) {i : Fin maxInodes} {a : Nat}
    (ha : holds (s.inodes i) (a / blockSize) = true) :
    symlinkBytes s.data.bytes b target a = s.data.bytes a := by
  by_contra hne
  obtain ⟨k, hk⟩ := holds_iff.mp ha
  have hused := (hs.slotUsed i k _ hk).2
  rw [(copied_bytes_free hc hop hne).2] at hused
  cases hused

/-- A creation that takes another inode. -/
theorem FileIs.installed {s : Fs Attached} {i i' : Fin maxInodes} {l : List UInt8}
    (h : FileIs s i l) (hi' : s.intmap.inodes i' = false) (n : Inode) (b : Nat) (data : Attached)
    (hbytes : ∀ a, holds (s.inodes i) (a / blockSize) = true → data.bytes a = s.data.bytes a) :
    FileIs (installed s i' n b data) i l := by
  have hne : i ≠ i' := by
    rintro rfl
    rw [h.used] at hi'
    cases hi'
  refine h.of_inode ?_ ?_ hbytes
  · simp [FileSystem.installed, hne]
  · simp [FileSystem.installed, hne, h.used]

theorem Effect.fileIs {c : Ctx} {s t : Fs Attached} {op : Op} {r : Int} (he : Effect c s op r t)
    (hs : Sound s) {i : Fin maxInodes} {l : List UInt8} (h : FileIs s i l)
    (hno : ¬ OnFile s i op) (hop : ¬ SpillsOver s op) : FileIs t i l := by
  have ht : Sound t := he.sound hs
  cases he with
  | unchanged => exact h
  | @rolledBack _ _ i' data _ hi' _ hbytes =>
      have hne : i ≠ i' := by
        rintro rfl
        rw [h.used] at hi'
        cases hi'
      refine h.of_inode (by simp [reset, hne]) h.used (fun a ha => ?_)
      rcases hbytes with hsame | ⟨target, b, hc, hcopy⟩
      · exact congrFun hsame a
      · show data.bytes a = _
        rw [hcopy]
        exact copied_elsewhere hs hc hop ha
  | createFile hp hadd hf => exact h.installed hf.inode _ _ _ (fun _ _ => rfl)
  | createSymlink hp hadd hlen hf =>
      refine h.installed hf.inode _ _ _ (fun a ha => ?_)
      exact copied_elsewhere hs ⟨_, _, _, _, rfl, hp, hadd.free, hlen, hf⟩ hop ha
  | createDirectory hp hfree hadd hne hf =>
      refine FileIs.modifyInode ?_ _ (fun _ => rfl) (fun _ => rfl) (fun _ => rfl)
      exact h.installed hf.inode _ _ _ (fun _ _ => rfl)
  | createHardLink hsrc hty hp hadd =>
      refine FileIs.modifyInode ?_ _ (fun _ => rfl) (fun _ => rfl) (fun _ => rfl)
      exact h.of_inode rfl h.used (fun _ _ => rfl)
  | unlinked ht' hty hlinks =>
      refine FileIs.modifyInode ?_ _ (fun _ => rfl) (fun _ => rfl) (fun _ => rfl)
      exact h.of_inode rfl h.used (fun _ _ => rfl)
  | @deleted path d i' name ht' hty hlinks =>
      have hi : i ≠ i' := by
        rintro rfl
        exact hno ⟨d, name, ht'⟩
      refine h.of_inode ?_ ?_ (fun a ha => ?_)
      · simp [released, hi]
      · simp [released, clearInodeUsed, mapWithout, hi, h.used]
      · have hother : holdsBelow (s.inodes i') numDirectBlocks (a / blockSize) = false :=
          hs.holds_other hi ha
        simp only [released, bytesWithout, hother, Bool.false_eq_true, if_false]
  | @removeDirectory path d i' name p ht' hr hdir hempty =>
      have hi : i ≠ i' := by
        rintro rfl
        have hty := (getDirectoryByInode_some hdir).1
        rw [h.type] at hty
        cases hty
      refine h.of_inode ?_ ?_ (fun _ _ => rfl)
      · simp [freed, hi]
      · simp [freed, clearInodeUsed, mapWithout, hi, h.used]
  | changeMode hr => exact h.modifyInode _ (fun _ => rfl) (fun _ => rfl) (fun _ => rfl)
  | changeOwner hr => exact h.modifyInode _ (fun _ => rfl) (fun _ => rfl) (fun _ => rfl)
  | @writeFile path buffer offset append d i' name ht' hbuf =>
      have hi : i ≠ i' := by
        rintro rfl
        exact hno ⟨d, name, ht'⟩
      exact (written_frame hs i' buffer _).fileIs hs ht hi h
  | @truncate path size i' hr =>
      have hi : i ≠ i' := by
        rintro rfl
        exact hno hr
      exact (truncated_frame hs i' size).fileIs hs ht hi h

/-! ## The path under other operations -/

theorem getDirectoryByInode_iff {s : Fs Attached} {d : Fin maxInodes} :
    (∃ p, getDirectoryByInode s d = some p) ↔
      (s.inodes d).inodeType = .dir ∧ ∃ b, holds (s.inodes d) b = true := by
  unfold getDirectoryByInode
  by_cases hty : (s.inodes d).inodeType = .dir
  · simp only [hty, ne_eq, not_true_eq_false, if_false, true_and, holds_iff]
    cases hf : (List.range numDirectBlocks).findSome? (inodeGetDirectBlock (s.inodes d)) with
    | none =>
        rw [List.findSome?_eq_none_iff] at hf
        simp only [Option.map_none, reduceCtorEq, exists_false, false_iff]
        rintro ⟨b, k, hk⟩
        rw [hf k (List.mem_range.mpr (getDirectBlock_eq_some.mp hk).1)] at hk
        cases hk
    | some b =>
        obtain ⟨k, -, hk⟩ := List.exists_of_findSome?_eq_some hf
        exact iff_of_true ⟨⟨d, b⟩, rfl⟩ ⟨b, k, hk⟩
  · simp [hty]

/-- An entry is found as long as its directory keeps a block. -/
theorem child_kept {s t : Fs Attached} {d j : Fin maxInodes} {x : CStr}
    (h : child s d x = some j) (hty : (t.inodes d).inodeType = (s.inodes d).inodeType)
    (hb : ∀ b, holds (s.inodes d) b = true → holds (t.inodes d) b = true)
    (he : (t.data.dirs d).entryNamed x = (s.data.dirs d).entryNamed x) : child t d x = some j := by
  obtain ⟨hdir, -⟩ := child_some h
  obtain ⟨hisdir, b, hblock⟩ := getDirectoryByInode_iff.mp hdir
  obtain ⟨p, hp⟩ := hdir
  obtain ⟨q, hq⟩ := getDirectoryByInode_iff.mpr ⟨hty.trans hisdir, b, hb b hblock⟩
  rw [← h]
  simp only [child, hp, hq, he]

theorem child_of_inode {s t : Fs Attached} {d j : Fin maxInodes} {x : CStr}
    (h : child s d x = some j) (hino : t.inodes d = s.inodes d)
    (he : (t.data.dirs d).entryNamed x = (s.data.dirs d).entryNamed x) : child t d x = some j :=
  child_kept h (by rw [hino]) (fun b hb => by rw [hino]; exact hb) he

theorem child_modifyInode {s : Fs Attached} {d j i : Fin maxInodes} {x : CStr}
    (h : child s d x = some j) {f : Inode → Inode} (hty : ∀ n, (f n).inodeType = n.inodeType)
    (hptr : ∀ n, (f n).directBlockPtrs = n.directBlockPtrs) :
    child (s.modifyInode i f) d x = some j := by
  by_cases hd : d = i
  · subst hd
    have hself : (s.modifyInode d f).inodes d = f (s.inodes d) := by simp [Fs.modifyInode]
    refine child_kept h (by rw [hself, hty]) (fun b hb => ?_) rfl
    rw [hself, holds, holdsBelow, hptr]
    exact hb
  · exact child_of_inode h (by simp [Fs.modifyInode, hd]) rfl

theorem entryNamed_withEntry {s : Fs Attached} {d' i' d j : Fin maxInodes} {name x : CStr}
    (hadd : CanAdd s d' name) (h : child s d x = some j) {data : Attached}
    (hdata : data.dirs d = s.data.dirs d) :
    ((withEntry data d' name i').dirs d).entryNamed x = (s.data.dirs d).entryNamed x := by
  by_cases hd : d = d'
  · subst hd
    have hx : x ≠ name := by
      rintro rfl
      obtain ⟨-, e, he, -⟩ := child_some h
      rw [hadd.free] at he
      cases he
    rw [withEntry_dirs_self, hdata, Directory.entryNamed_add_ne _ hx]
  · rw [withEntry_dirs_ne hd, hdata]

/-- A directory with an entry other than `.` and `..` is in no case empty. -/
theorem two_lt_of_child {s : Fs Attached} (hs : Sound s) {d j : Fin maxInodes} {x : CStr}
    (hx : realName x = true) (h : child s d x = some j) : 2 < (s.data.dirs d).length := by
  obtain ⟨-, e, he, -⟩ := child_some h
  obtain ⟨hmem, hname⟩ := Directory.entryNamed_some he
  refine Directory.two_lt_length (hs.dirs d (child_isDir h)) (e := e) ?_
  exact List.mem_filter.mpr ⟨hmem, by rw [hname]; exact hx⟩

/-- A write only adds blocks. -/
theorem child_written {s : Fs Attached} (hs : Sound s) {d j : Fin maxInodes} {x : CStr}
    (h : child s d x = some j) (i : Fin maxInodes) (buffer : List UInt8) (pos : Nat) :
    child (written s i buffer pos) d x = some j := by
  have hframe := written_frame hs i buffer pos
  refine FileSystem.child_kept h (hframe.type_eq d) ?_ (by rw [hframe.dirs])
  intro b hb
  by_cases hd : d = i
  · subst hd
    exact written_grows hs d buffer _ hb
  · rw [hframe.others d hd]
    exact hb

/-- A truncation takes the blocks of a directory only at length 0. -/
theorem child_truncated {s : Fs Attached} (hs : Sound s) {d j : Fin maxInodes} {x : CStr}
    (h : child s d x = some j) {i : Fin maxInodes} {size : Int} (hsize : d = i → size ≠ 0) :
    child (truncated s i size) d x = some j := by
  have hframe := truncated_frame hs i size
  by_cases hd : d = i
  · rw [truncated, if_neg (hsize hd)]
    exact child_modifyInode h (fun _ => rfl) (fun _ => rfl)
  · exact child_of_inode h (hframe.others d hd) (by rw [hframe.dirs])

/-- One step of a path to a file: the entry is there after any operation
that neither deletes the file nor takes a directory's block. -/
theorem Effect.child_kept {c : Ctx} {s t : Fs Attached} {op : Op} {r : Int}
    (he : Effect c s op r t) (hs : Sound s) {i : Fin maxInodes}
    (hfile : (s.inodes i).inodeType = .file)
    (hdel : ∀ path, op = .deleteFile path → ¬ FileAt s path i)
    (htrunc : ¬ TruncatesDirectory s op) {d j : Fin maxInodes} {x : CStr} {rest : List CStr}
    (hx : realName x = true) (hc : child s d x = some j) (hw : walk s j rest = some i)
    (hrest : ∀ y ∈ rest, realName y = true) : child t d x = some j := by
  have hdir := child_isDir hc
  have hdlen := two_lt_of_child hs hx hc
  -- where the path goes on, `j` is a directory that is not empty
  have hnext : j = i ∨ ((s.inodes j).inodeType = .dir ∧ 2 < (s.data.dirs j).length) := by
    cases rest with
    | nil =>
        rw [walk, Option.some.injEq] at hw
        exact Or.inl hw
    | cons y ys =>
        rw [walk] at hw
        cases hy : child s j y with
        | none => simp [hy] at hw
        | some k => exact Or.inr ⟨child_isDir hy, two_lt_of_child hs (hrest y (by simp)) hy⟩
  have hfresh : ∀ {i' : Fin maxInodes}, s.intmap.inodes i' = false → d ≠ i' := by
    rintro i' hi' rfl
    rw [hs.dirUsed d hdir] at hi'
    cases hi'
  -- the removed entry is another one
  have hremoved : ∀ {path d' name i'}, op = .deleteFile path ∨ op = .removeDirectory path →
      target s path = some (d', name, i') →
      (op = .removeDirectory path → (s.inodes i').inodeType = .dir ∧
        (s.data.dirs i').length ≤ 2) →
      (op = .deleteFile path → (s.inodes i').inodeType ≠ .dir) → ¬ (d = d' ∧ x = name) := by
    rintro path d' name i' hop ht hrm hde ⟨rfl, rfl⟩
    obtain ⟨-, hc'⟩ := target_some.mp ht
    rw [hc, Option.some.injEq] at hc'
    subst hc'
    rcases hop with hop | hop
    · rcases hnext with rfl | ⟨hjdir, -⟩
      · exact hdel path hop ⟨d, x, ht⟩
      · exact hde hop hjdir
    · obtain ⟨hjdir, hlen⟩ := hrm hop
      rcases hnext with rfl | ⟨-, hjlen⟩
      · rw [hfile] at hjdir
        cases hjdir
      · omega
  cases he with
  | unchanged => exact hc
  | rolledBack _ hi' hdirs _ =>
      have hne := hfresh hi'
      exact child_of_inode hc (by simp [reset, hne])
        (congrArg (fun e : Directory => e.entryNamed x) (hdirs d hne))
  | createFile hp hadd hf =>
      exact child_of_inode hc (by simp [installed, hfresh hf.inode])
        (entryNamed_withEntry hadd hc rfl)
  | createSymlink hp hadd hlen hf =>
      exact child_of_inode hc (by simp [installed, hfresh hf.inode])
        (entryNamed_withEntry hadd hc rfl)
  | createDirectory hp hfree hadd hne hf =>
      refine child_modifyInode ?_ (fun _ => rfl) (fun _ => rfl)
      refine child_of_inode hc (by simp [installed, hfresh hf.inode])
        (entryNamed_withEntry hadd hc ?_)
      simp [Attached.setDir, hfresh hf.inode]
  | createHardLink hsrc hty hp hadd =>
      refine child_modifyInode ?_ (fun _ => rfl) (fun _ => rfl)
      exact child_of_inode hc rfl (entryNamed_withEntry hadd hc rfl)
  | unlinked ht hty hlinks =>
      refine child_modifyInode ?_ (fun _ => rfl) (fun _ => rfl)
      exact child_of_inode hc rfl (entryNamed_withoutEntry _
        (hremoved (Or.inl rfl) ht (fun h => by cases h) (fun _ => hty)))
  | @deleted path d' i' name ht hty hlinks =>
      have hne : d ≠ i' := by
        rintro rfl
        exact hty hdir
      exact child_of_inode hc (by simp [released, hne]) (entryNamed_withoutEntry _
        (hremoved (Or.inl rfl) ht (fun h => by cases h) (fun _ => hty)))
  | @removeDirectory path d' i' name p ht hr hdir' hempty =>
      have hne : d ≠ i' := by
        rintro rfl
        omega
      exact child_of_inode hc (by simp [freed, hne]) (entryNamed_withoutEntry _
        (hremoved (Or.inr rfl) ht (fun _ => ⟨(getDirectoryByInode_some hdir').1, hempty⟩)
          (fun h => by cases h)))
  | changeMode hr => exact child_modifyInode hc (fun _ => rfl) (fun _ => rfl)
  | changeOwner hr => exact child_modifyInode hc (fun _ => rfl) (fun _ => rfl)
  | writeFile => exact child_written hs hc _ _ _
  | @truncate path size i' hr =>
      refine child_truncated hs hc ?_
      rintro rfl rfl
      exact htrunc ⟨path, d, rfl, hr, hdir⟩

/-- A walk that every entry of survives. -/
theorem walk_mono {s t : Fs Attached} {ts : List CStr} {a d : Fin maxInodes}
    (hw : walk s a ts = some d)
    (hkeep : ∀ us x vs b j, ts = us ++ x :: vs → child s b x = some j → walk s j vs = some d →
      child t b x = some j) : walk t a ts = some d := by
  induction ts generalizing a with
  | nil => exact hw
  | cons x vs ih =>
      rw [walk] at hw ⊢
      cases hc : child s a x with
      | none => simp [hc] at hw
      | some j =>
          simp only [hc] at hw
          rw [hkeep [] x vs a j rfl hc hw]
          exact ih hw (fun us y ws b k hts => hkeep (x :: us) y ws b k (by rw [hts]; rfl))

/-- A path on which every entry survives. -/
theorem target_mono {s t : Fs Attached}
    (hroot : t.superblock.rootInodeNumber = s.superblock.rootInodeNumber)
    (hkeep : ∀ e x j, child s e x = some j → child t e x = some j) {path name : CStr}
    {d i : Fin maxInodes} (h : target s path = some (d, name, i)) :
    target t path = some (d, name, i) := by
  obtain ⟨hp, hc⟩ := target_some.mp h
  refine target_some.mpr ⟨resolveParent_of_walks hp (fun ts _ hw => ?_), hkeep d name i hc⟩
  rw [hroot]
  exact walk_mono hw (fun _ x _ b j _ hcx _ => hkeep b x j hcx)

theorem target_written {s : Fs Attached} (hs : Sound s) {path name : CStr}
    {d j : Fin maxInodes} (h : target s path = some (d, name, j)) (i : Fin maxInodes)
    (buffer : List UInt8) (pos : Nat) :
    target (written s i buffer pos) path = some (d, name, j) :=
  target_mono (written_frame hs i buffer pos).root
    (fun _ _ _ hc => child_written hs hc i buffer pos) h

theorem target_truncated {s : Fs Attached} (hs : Sound s) {path name : CStr}
    {d j : Fin maxInodes} (h : target s path = some (d, name, j)) {i : Fin maxInodes}
    (hi : (s.inodes i).inodeType ≠ .dir) (size : Int) :
    target (truncated s i size) path = some (d, name, j) := by
  refine target_mono (truncated_frame hs i size).root
    (fun e _ _ hc => child_truncated hs hc ?_) h
  rintro rfl
  exact absurd (child_isDir hc) hi

theorem FileAt.written {s : Fs Attached} (hs : Sound s) {path : CStr} {j : Fin maxInodes}
    (h : FileAt s path j) (i : Fin maxInodes) (buffer : List UInt8) (pos : Nat) :
    FileAt (written s i buffer pos) path j := by
  obtain ⟨d, name, ht⟩ := h
  exact ⟨d, name, target_written hs ht i buffer pos⟩

theorem FileAt.truncated {s : Fs Attached} (hs : Sound s) {path : CStr} {j : Fin maxInodes}
    (h : FileAt s path j) {i : Fin maxInodes} (hi : (s.inodes i).inodeType ≠ .dir) (size : Int) :
    FileAt (truncated s i size) path j := by
  obtain ⟨d, name, ht⟩ := h
  exact ⟨d, name, target_truncated hs ht hi size⟩

/-- The path to a file after any operation that neither deletes the file
nor takes a directory's block. -/
theorem Effect.target_kept {c : Ctx} {s t : Fs Attached} {op : Op} {r : Int}
    (he : Effect c s op r t) (hs : Sound s) {i : Fin maxInodes}
    (hfile : (s.inodes i).inodeType = .file)
    (hdel : ∀ path, op = .deleteFile path → ¬ FileAt s path i)
    (htrunc : ¬ TruncatesDirectory s op) {path : CStr}
    (hreal : ∀ x ∈ strtok path, realName x = true) (hat : FileAt s path i) :
    FileAt t path i := by
  obtain ⟨d, name, ht⟩ := hat
  obtain ⟨hp, hc⟩ := target_some.mp ht
  have hroot : t.superblock.rootInodeNumber = s.superblock.rootInodeNumber := by
    rw [(he.sound hs).root, hs.root]
  obtain ⟨ts, htok, -⟩ := resolveParent_ok hp
  rw [htok] at hreal
  refine ⟨d, name, target_some.mpr ⟨resolveParent_of_walks hp ?_, ?_⟩⟩
  · intro us htok' hw
    obtain rfl : ts = us := List.append_cancel_right (htok.symm.trans htok')
    rw [hroot]
    refine walk_mono hw (fun vs x ws b j hsplit hcx hwx => ?_)
    have hwhole : walk s j (ws ++ [name]) = some i := by
      rw [walk_concat, hwx, Option.bind_some, hc]
    refine he.child_kept hs hfile hdel htrunc (hreal x (by simp [hsplit])) hcx hwhole ?_
    intro y hy
    refine hreal y ?_
    rw [hsplit, List.append_assoc]
    exact List.mem_append_right _ (List.mem_cons_of_mem _ hy)
  · have hend : walk s i [] = some i := rfl
    exact he.child_kept hs hfile hdel htrunc (hreal name (by simp)) hc hend (by simp)

/-! ## Histories -/

/-- What a history keeps. -/
structure Tracked (s : Fs Attached) (path : CStr) (i : Fin maxInodes) (l : List UInt8) :
    Prop where
  sound : Sound s
  file : FileIs s i l
  at_path : FileAt s path i

/-- The file that `fs_create_file` has just made. -/
theorem tracked_created {u : User} {now : Int} {s t : Fs Attached} (hs : Sound s) {path : CStr}
    {mode : Nat} {i : Fin maxInodes}
    (hstep : step (u.at now) s (.createFile path mode) = .ok (0, t)) (hat : FileAt t path i) :
    Tracked t path i [] := by
  obtain ⟨s', t', hss, htt, he⟩ := step_effect hs hstep
  have hs' := hs.same hss
  have ht' : Sound t' := he.sound hs'
  refine ⟨ht'.same htt.symm, ?_, hat⟩
  have hat' := hat.same htt
  cases he with
  | unchanged =>
      obtain ⟨t1, h1⟩ := fsCreateFile_existing (u.at now) hs (hat'.same hss.symm) mode
      have hstep' : fsCreateFile (u.at now) s path mode = .ok (0, t) := hstep
      rw [h1] at hstep'
      cases hstep'
  | rolledBack hr => omega
  | @createFile _ _ d i' name b hp hadd hf =>
      refine FileIs.same htt.symm ?_
      -- the entry that was added is the one the path leads to
      have hkeep : ∀ {e : Fin maxInodes} {x j}, child s' e x = some j →
          child (installed s' i' (newFileInode (u.at now) mode b) b
            (withEntry s'.data d name i')) e x = some j := by
        intro e x j hc
        have hne : e ≠ i' := by
          rintro rfl
          have hi' := hf.inode
          rw [hs'.dirUsed e (child_isDir hc)] at hi'
          cases hi'
        exact child_of_inode hc (by simp [installed, hne]) (entryNamed_withEntry hadd hc rfl)
      have hpar : resolveParent (installed s' i' (newFileInode (u.at now) mode b) b
          (withEntry s'.data d name i')) path = .ok (d, name) :=
        resolveParent_of_walks hp (fun ts _ hw => walk_mono hw (fun _ _ _ _ _ _ hc _ => hkeep hc))
      obtain ⟨d1, name1, ht1⟩ := hat'
      obtain ⟨hp1, hc1⟩ := target_some.mp ht1
      rw [hpar, Except.ok.injEq, Prod.mk.injEq] at hp1
      obtain ⟨rfl, rfl⟩ := hp1
      obtain ⟨-, e, hentry, hino⟩ := child_some hc1
      have hnew : ((withEntry s'.data d name i').dirs d).entryNamed name = some ⟨name, i'⟩ := by
        rw [withEntry_dirs_self]
        exact Directory.entryNamed_add_self hadd.free _
      have hei : e = ⟨name, i'⟩ := Option.some.inj (hentry.symm.trans hnew)
      rw [hei] at hino
      obtain rfl : i' = i := Fin.ext hino
      exact FileIs.created (u.at now) s' i' mode b _

theorem writeStart_eq {s : Fs Attached} {i : Fin maxInodes} {l : List UInt8} (h : FileIs s i l)
    {offset : Int} {append : Bool} (hstart : append = true ∨ 0 ≤ offset ∧ offset ≤ l.length) :
    writeStart s i offset append = startOf l offset append ∧
      startOf l offset append ≤ l.length := by
  obtain ⟨m, hm⟩ := h.content
  have hmax := hm.length_le
  have htoSize : ∀ n : Int, 0 ≤ n → n ≤ l.length → toSize n = n.toNat := by
    intro n h0 hn
    simp only [toSize, numDirectBlocks, blockSize] at *
    omega
  unfold writeStart startOf
  cases append with
  | true =>
      rw [if_pos rfl, if_pos rfl, h.size, htoSize _ (by omega) (by omega)]
      exact ⟨by omega, Nat.le_refl _⟩
  | false =>
      obtain ⟨h0, hle⟩ := hstart.resolve_left (by simp)
      simp only [Bool.false_eq_true, if_false]
      rw [htoSize _ h0 hle]
      exact ⟨rfl, by omega⟩

/-- One write. The count is that of the bytes that are in the file
afterwards. -/
theorem Tracked.write {s : Fs Attached} {path path' : CStr} {i : Fin maxInodes}
    {l : List UInt8} (h : Tracked s path i l) (hreal : ∀ x ∈ strtok path, realName x = true)
    (c : Ctx) (hat : FileAt s path' i) (buffer : List UInt8) {offset : Int} {append : Bool}
    (hstart : append = true ∨ 0 ≤ offset ∧ offset ≤ l.length) :
    ∃ r t, step c s (.writeFile path' buffer offset append) = .ok (r, t) ∧
      Tracked t path i (overwrite l (startOf l offset append) (buffer.take r.toNat)) ∧
      (buffer = [] → r = -1) ∧ (buffer ≠ [] → 0 ≤ r ∧ r ≤ buffer.length) ∧
      (0 ≤ r → r < buffer.length →
        (t.inodes i).fileSizeBytes = numDirectBlocks * blockSize ∨
          findFreeBlock t.intmap = none) := by
  by_cases hne : buffer = []
  · subst hne
    refine ⟨-1, s, rfl, ?_, fun _ => rfl, fun h => absurd rfl h, fun h => by omega⟩
    rw [List.take_nil, overwrite_nil]
    exact h
  · obtain ⟨s', t, hss, htt, hstep⟩ := fsWriteFile_file c h.sound hat hne offset append
    have hs' := h.sound.same hss
    have hfile' := h.file.same hss
    obtain ⟨hpos, hle⟩ := writeStart_eq hfile' hstart
    rw [hpos] at htt hstep
    obtain ⟨hfile, hn, hstop⟩ := hfile'.written hs' buffer hle rfl
    obtain ⟨d, name, htgt⟩ := hat.same hss
    have he : Effect c s' (.writeFile path' buffer offset append) _ _ := .writeFile htgt hne
    rw [hpos] at he
    generalize (writeLoop i buffer loopFuel s' 0 (startOf l offset append)).2.1 = n at *
    refine ⟨n, t, hstep, ⟨(he.sound hs').same htt.symm, ?_, ?_⟩, fun h => absurd h hne,
      fun _ => ⟨by omega, by omega⟩, fun _ hlt => ?_⟩
    · rw [Int.toNat_natCast]
      exact hfile.same htt.symm
    · have hkept := he.target_kept hs' hfile'.type (fun _ heq => by cases heq)
        (by rintro ⟨_, _, heq, -⟩; cases heq) hreal (h.at_path.same hss)
      exact hkept.same htt.symm
    · rw [htt.apply (fun s => (s.inodes i).fileSizeBytes) (fun _ => rfl),
        htt.apply (fun s => findFreeBlock s.intmap) (fun _ => rfl)]
      exact hstop (by omega)

theorem Tracked.truncate {s t : Fs Attached} {path path' : CStr} {i : Fin maxInodes}
    {l : List UInt8} (h : Tracked s path i l) (hreal : ∀ x ∈ strtok path, realName x = true)
    {c : Ctx} {size r : Int} (hat : resolve s path' = .ok i) (h0 : 0 ≤ size)
    (hsize : size ≤ l.length) (hstep : step c s (.truncate path' size) = .ok (r, t)) :
    Tracked t path i (l.take size.toNat) := by
  obtain ⟨s', t', hss, htt, hok⟩ := fisopfsTruncate_ok c h.sound hat size
  have hstep' : fisopfsTruncate c s path' size = .ok (r, t) := hstep
  rw [hok, Except.ok.injEq, Prod.mk.injEq] at hstep'
  obtain ⟨-, rfl⟩ := hstep'
  have hs' := h.sound.same hss
  have hfile' := h.file.same hss
  have hat' : resolve s' path' = .ok i := by rw [← resolve_same hss, hat]
  have he : Effect c s' (.truncate path' size) 0 (truncated s' i size) := .truncate hat'
  refine ⟨(he.sound hs').same htt.symm, (hfile'.truncated hs' h0 hsize).same htt.symm, ?_⟩
  have hkept := he.target_kept hs' hfile'.type (fun _ heq => by cases heq) ?_ hreal
    (h.at_path.same hss)
  · exact hkept.same htt.symm
  · rintro ⟨path1, j, heq, hr, hty⟩
    obtain ⟨rfl, rfl⟩ := Op.truncate.inj heq
    rw [hat'] at hr
    cases hr
    rw [hfile'.type] at hty
    cases hty

theorem Tracked.other {s t : Fs Attached} {path : CStr} {i : Fin maxInodes}
    {l : List UInt8} (h : Tracked s path i l) (hreal : ∀ x ∈ strtok path, realName x = true)
    {c : Ctx} {op : Op} {r : Int} (hop : ¬ OnFile s i op) (hspill : ¬ SpillsOver s op)
    (htrunc : ¬ TruncatesDirectory s op) (hstep : step c s op = .ok (r, t)) :
    Tracked t path i l := by
  obtain ⟨s', t', hss, htt, he⟩ := step_effect h.sound hstep
  have hs' := h.sound.same hss
  have hop' : ¬ OnFile s' i op := fun hon => hop (hon.same hss.symm)
  have hfile := he.fileIs hs' (h.file.same hss) hop' (fun hsp => hspill (hsp.same hss.symm))
  have hkept := he.target_kept hs' (h.file.same hss).type
    (fun p heq hat => hop' (by rw [heq]; exact hat))
    (fun htr => htrunc (htr.same hss.symm)) hreal (h.at_path.same hss)
  exact ⟨(he.sound hs').same htt.symm, hfile.same htt.symm, hkept.same htt.symm⟩

theorem FileHistory.tracked {u : User} {path : CStr} {i : Fin maxInodes} {l : List UInt8}
    {t : Fs Attached}
    (h : FileHistory u (fun s op => ¬ SpillsOver s op ∧ ¬ TruncatesDirectory s op) path i l t)
    (hreal : ∀ x ∈ strtok path, realName x = true) : Tracked t path i l := by
  induction h with
  | created hs hstep hat => exact tracked_created hs.sound hstep hat
  | @wrote s t l now path' buffer offset append r _ hat hstart hstep ih =>
      obtain ⟨r', t', hstep', htracked, -⟩ := ih.write hreal (u.at now) hat buffer hstart
      rw [hstep, Except.ok.injEq, Prod.mk.injEq] at hstep'
      obtain ⟨rfl, rfl⟩ := hstep'
      exact htracked
  | truncated _ hat h0 hsize hstep ih => exact ih.truncate hreal hat h0 hsize hstep
  | other _ hop hp hstep ih => exact ih.other hreal hop hp.1 hp.2 hstep

/-- What `fs_read_file` and `fs_write_file` return in state `t` for the
file at `path`, if its content is `l`. -/
structure Refines (u : User) (t : Fs Attached) (path : CStr) (i : Fin maxInodes)
    (l : List UInt8) : Prop where
  size : (t.inodes i).fileSizeBytes = l.length
  reads : ∀ now size (offset : Int), 0 ≤ offset →
    ∃ n t', fsReadFile (u.at now) t path size offset
        = .ok (((n : Int), (l.drop offset.toNat).take size), t') ∧
      n = min size (l.length - offset.toNat)
  writes : ∀ now buffer (offset : Int) append, (append = true ∨ 0 ≤ offset ∧ offset ≤ l.length) →
    ∃ r t', step (u.at now) t (.writeFile path buffer offset append) = .ok (r, t') ∧
      (buffer = [] → r = -1) ∧ (buffer ≠ [] → 0 ≤ r ∧ r ≤ buffer.length) ∧
      (0 ≤ r → r < buffer.length →
        (t'.inodes i).fileSizeBytes = numDirectBlocks * blockSize ∨
          findFreeBlock t'.intmap = none)

/-- Along every history whose other operations neither spill over nor
truncate a directory to 0, the file is the list of bytes written to it. -/
theorem file_refines_bytes {u : User} {path : CStr} (hpath : PlainPath path)
    {i : Fin maxInodes} {l : List UInt8} {t : Fs Attached}
    (h : FileHistory u (fun s op => ¬ SpillsOver s op ∧ ¬ TruncatesDirectory s op) path i l t) :
    Refines u t path i l := by
  have ht := h.tracked hpath.real
  refine ⟨ht.file.size, ?_, ?_⟩
  · intro now size offset ho
    obtain ⟨t', hsame, hread⟩ := fsReadFile_file (u.at now) ht.sound ht.at_path size offset
    have hbytes := readFileAt_eq (u.at now) (ht.sound.same hsame) (ht.file.same hsame) size ho
    refine ⟨((l.drop offset.toNat).take size).length,
      (readFileAt (u.at now) t' i size offset).2, ?_, ?_⟩
    · rw [hread, ← hbytes]
    · rw [List.length_take, List.length_drop]
  · intro now buffer offset append hstart
    obtain ⟨r, t', hstep, -, h1, h2, h3⟩ :=
      ht.write hpath.real (u.at now) ht.at_path buffer hstart
    exact ⟨r, t', hstep, h1, h2, h3⟩

/-- `/f` written and, in between, `/g` created. -/
theorem file_refines_bytes_after_write :
    ∃ t, FileHistory ⟨0, 0⟩ (fun s op => ¬ SpillsOver s op ∧ ¬ TruncatesDirectory s op)
        (cstr "/f") 1 [7, 8] t ∧
      ∃ t', fsReadFile (User.at ⟨0, 0⟩ 0) t (cstr "/f") 9 1 = .ok ((1, [8]), t') := by
  set c := User.at ⟨0, 0⟩ 0 with hc
  have hrun : returns (step c (fsInit c) (.createFile (cstr "/f") 6)) 0 (fun t =>
      decide (target t (cstr "/f") = some (0, cstr "f", 1)) &&
      returns (step c t (.createFile (cstr "/g") 6)) 0 (fun t =>
        decide (target t (cstr "/f") = some (0, cstr "f", 1)) &&
        returns (step c t (.writeFile (cstr "/f") [7, 8] 0 false)) 2 (fun _ => true))) = true := by
    decide +kernel
  obtain ⟨t1, h1, hrun⟩ := returns_true hrun
  rw [Bool.and_eq_true, decide_eq_true_eq] at hrun
  obtain ⟨t2, h2, hrun2⟩ := returns_true hrun.2
  rw [Bool.and_eq_true, decide_eq_true_eq] at hrun2
  obtain ⟨t3, h3, -⟩ := returns_true hrun2.2
  have hist1 : FileHistory ⟨0, 0⟩ (fun s op => ¬ SpillsOver s op ∧ ¬ TruncatesDirectory s op)
      (cstr "/f") 1 [] t1 := .created ⟨0, .refl⟩ h1 ⟨_, _, hrun.1⟩
  have hharmless : ¬ SpillsOver t1 (.createFile (cstr "/g") 6) ∧
      ¬ TruncatesDirectory t1 (.createFile (cstr "/g") 6) := by
    constructor
    · rintro ⟨_, _, _, ⟨_, _, _, _, heq, -⟩, -⟩
      cases heq
    · rintro ⟨_, _, heq, -⟩
      cases heq
  have hist2 := hist1.other id hharmless h2
  have hist3 := hist2.wrote ⟨_, _, hrun2.1⟩ (Or.inr ⟨Int.le_refl 0, Int.le_refl 0⟩) h3
  refine ⟨t3, hist3, ?_⟩
  obtain ⟨n, t', hread, hn⟩ :=
    (file_refines_bytes (by decide +kernel) hist3).reads 0 9 1 (by decide)
  exact ⟨t', by rw [hread, hn]; rfl⟩

/-- `/f` holds the byte 7. A symbolic link to 4097 bytes gets the block
that `/a` had, right before the block of `/f`, and changes that byte. -/
theorem file_overwritten_by_symlink :
    ∃ t, FileHistory ⟨0, 0⟩ (fun _ _ => True) (cstr "/f") 2 [7] t ∧
      (∃ t', fsReadFile (User.at ⟨0, 0⟩ 0) t (cstr "/f") 1 0 = .ok ((1, [65]), t')) ∧
      ¬ Refines ⟨0, 0⟩ t (cstr "/f") 2 [7] := by
  set c := User.at ⟨0, 0⟩ 0 with hc
  have hrun : returns (step c (fsInit c) (.createFile (cstr "/a") 6)) 0 (fun t =>
      returns (step c t (.createFile (cstr "/f") 6)) 0 (fun t =>
        decide (target t (cstr "/f") = some (0, cstr "f", 2)) &&
        returns (step c t (.writeFile (cstr "/f") [7] 0 false)) 1 (fun t =>
          decide (target t (cstr "/a") = some (0, cstr "a", 1)) &&
          returns (step c t (.deleteFile (cstr "/a"))) 0 (fun t =>
            returns (step c t (.createSymlink (List.replicate 4097 65) (cstr "/s"))) 0 (fun t =>
              returns (fsReadFile c t (cstr "/f") 1 0) (1, [65]) (fun _ => true)))))) = true := by
    decide +kernel
  obtain ⟨t0, h0, hrun⟩ := returns_true hrun
  obtain ⟨t1, h1, hrun⟩ := returns_true hrun
  rw [Bool.and_eq_true, decide_eq_true_eq] at hrun
  obtain ⟨hf, hrun⟩ := hrun
  obtain ⟨t2, h2, hrun⟩ := returns_true hrun
  rw [Bool.and_eq_true, decide_eq_true_eq] at hrun
  obtain ⟨ha, hrun⟩ := hrun
  obtain ⟨t3, h3, hrun⟩ := returns_true hrun
  obtain ⟨t4, h4, hrun⟩ := returns_true hrun
  obtain ⟨t5, h5, -⟩ := returns_true hrun
  have hist1 : FileHistory ⟨0, 0⟩ (fun _ _ => True) (cstr "/f") 2 [] t1 :=
    .created ⟨0, .single ⟨0, _, _, h0, trivial⟩⟩ h1 ⟨_, _, hf⟩
  have hist2 := hist1.wrote ⟨_, _, hf⟩ (Or.inr ⟨Int.le_refl 0, Int.le_refl 0⟩) h2
  have hist3 := hist2.other (by rintro ⟨_, _, hat⟩; rw [ha] at hat; cases hat) trivial h3
  have hist4 := hist3.other id trivial h4
  refine ⟨t4, hist4, ⟨t5, h5⟩, fun href => ?_⟩
  obtain ⟨n, t', hread, -⟩ := href.reads 0 1 0 (Int.le_refl 0)
  have heq := h5.symm.trans hread
  rw [Except.ok.injEq, Prod.mk.injEq, Prod.mk.injEq] at heq
  exact absurd heq.1.2 (by decide)

end SistemasOperativos.FileSystem
