/-
SistemasOperativos.FileSystem.OperationTheorems — everything one step can
do, in closed form.

`Effect c s op r t` lists the ways operation `op`, begun in `s`, can end
in `t` with result `r`. `step_effect` is the inversion lemma of the whole
driver: a step that returns has one of these effects, up to time stamps.
Every invariant of the file system is proved by cases on `Effect`, so
none of those proofs unfolds an operation again.

The three creations roll back by hand when the disk or the parent
directory is full. Each roll-back is one effect, `rolledBack`: the inode
that had been taken is reset and the maps and counters are as before. It
needs `CountersOk`, since a `--` followed by a `++` gives a counter back
only if it fitted in 32 bits.
-/
import SistemasOperativos.FileSystem.PathTheorems
import SistemasOperativos.FileSystem.InodeTheorems

namespace SistemasOperativos.FileSystem

/-! ## What every operation relies on -/

/-- The two free counters fit in a `uint32_t`. -/
structure CountersOk (s : Fs Attached) : Prop where
  inodes : s.superblock.freeInodesCount < 4294967296
  blocks : s.superblock.freeBlocksCount < 4294967296

/-- What holds in every state of every run, whatever the arguments of the
operations: directories are well formed and in use, a block in a slot is
marked used and is in no other slot, and the superblock keeps the
constants of `fs_init`. -/
structure Sound (s : Fs Attached) : Prop where
  dirs : DirsOk s
  dirUsed : ∀ i, (s.inodes i).inodeType = .dir → s.intmap.inodes i = true
  slotUsed : ∀ i k b, slot s i k = some b → b < maxBlocks ∧ s.intmap.blocks b = true
  slotInj : ∀ i k j l b, slot s i k = some b → slot s j l = some b → i = j ∧ k = l
  counters : CountersOk s
  root : s.superblock.rootInodeNumber = 0
  blockSize : s.superblock.blockSizeBytes = blockSize
  maxFileSize : s.superblock.maxFileSizeBytes = numDirectBlocks * FileSystem.blockSize

theorem Sound.same {s t : Fs Attached} (h : Same s t) (hs : Sound s) : Sound t :=
  (h.apply Sound (fun _ => propext
    ⟨fun ⟨a, b, c, d, ⟨e, f⟩, g, h, k⟩ => ⟨a, b, c, d, ⟨e, f⟩, g, h, k⟩,
      fun ⟨a, b, c, d, ⟨e, f⟩, g, h, k⟩ => ⟨a, b, c, d, ⟨e, f⟩, g, h, k⟩⟩)).mp hs

theorem Sound.slotsBelow {s : Fs Attached} (hs : Sound s) (i : Fin maxInodes) :
    SlotsBelow (s.inodes i) := fun k b hk => (hs.slotUsed i k b hk).1

theorem u32_lt (n : Nat) : u32 n < 4294967296 := by
  rw [u32]
  exact Nat.mod_lt _ (by decide)

theorem u32Inc_u32Dec {n : Nat} (h : n < 4294967296) : u32Inc (u32Dec n) = n := by
  simp only [u32Inc, u32Dec, u32]
  split <;> omega

/-! ## What a creation stores -/

/-- `direct_block_ptrs` with one block, in slot 0. -/
def onePtr (b : Nat) : Nat → Option Nat := Function.update (fun _ => none) 0 (some b)

def newFileInode (c : Ctx) (mode b : Nat) : Inode :=
  { inodeInit c with
    inodeType := .file, permissionBits := u16 mode, directBlockPtrs := onePtr b }

def newDirInode (c : Ctx) (mode b : Nat) : Inode :=
  { inodeInit c with
    hardLinksCount := 2, inodeType := .dir, permissionBits := u16 mode,
    fileSizeBytes := directorySize, directBlockPtrs := onePtr b }

def newSymlinkInode (c : Ctx) (target : CStr) (b : Nat) : Inode :=
  { inodeInit c with
    inodeType := .symlink, permissionBits := permRwx,
    fileSizeBytes := u32 target.length, directBlockPtrs := onePtr b }

/-- The bytes after the target has been copied to block `b`. -/
def symlinkBytes (m : Memory) (b : Nat) (target : CStr) : Memory :=
  store (memset m (blockAddr b 0) 0 blockSize) (blockAddr b 0) target

/-- Inode `i` taken for `n` together with block `b`. -/
def installed (s : Fs Attached) (i : Fin maxInodes) (n : Inode) (b : Nat) (data : Attached) :
    Fs Attached where
  inodes := Function.update s.inodes i n
  intmap :=
    { inodes := Function.update s.intmap.inodes i true
      blocks := Function.update s.intmap.blocks b true }
  superblock :=
    { s.superblock with
      freeInodesCount := u32Dec s.superblock.freeInodesCount
      freeBlocksCount := u32Dec s.superblock.freeBlocksCount }
  data := data

/-- Inode `i`, which was free, reset by a roll-back. -/
def reset (c : Ctx) (s : Fs Attached) (i : Fin maxInodes) (data : Attached) : Fs Attached :=
  { s with inodes := Function.update s.inodes i (inodeInit c), data := data }

/-- Inode `i` given back together with its blocks. Only the inode is
counted. -/
def freed (c : Ctx) (s : Fs Attached) (i : Fin maxInodes) (data : Attached) : Fs Attached where
  inodes := Function.update s.inodes i (inodeInit c)
  intmap := clearInodeUsed (mapWithout s.intmap (s.inodes i) numDirectBlocks) i
  superblock :=
    { s.superblock with freeInodesCount := u32Inc s.superblock.freeInodesCount }
  data := data

/-- Inode `i` given back with its blocks zeroed and counted. -/
def released (c : Ctx) (s : Fs Attached) (i : Fin maxInodes) (dirs : Fin maxInodes → Directory) :
    Fs Attached where
  inodes := Function.update s.inodes i (inodeInit c)
  intmap := clearInodeUsed (mapWithout s.intmap (s.inodes i) numDirectBlocks) i
  superblock :=
    { s.superblock with
      freeInodesCount := u32Inc s.superblock.freeInodesCount
      freeBlocksCount :=
        u32Inc^[heldCount (s.inodes i) numDirectBlocks] s.superblock.freeBlocksCount }
  data := { bytes := bytesWithout s.data.bytes (s.inodes i) numDirectBlocks, dirs := dirs }

/-- Directory `d` with one more entry. -/
def withEntry (data : Attached) (d : Fin maxInodes) (name : CStr) (i : Fin maxInodes) :
    Attached := data.setDir d (data.dirs d ++ [⟨name, i⟩])

/-- Directory `d` without its entry called `name`. -/
def withoutEntry (data : Attached) (d : Fin maxInodes) (name : CStr) : Attached :=
  data.setDir d ((data.dirs d).without name)

theorem entryNamed_withoutEntry (data : Attached) {d' d : Fin maxInodes} {name x : CStr}
    (h : ¬ (d = d' ∧ x = name)) :
    ((withoutEntry data d' name).dirs d).entryNamed x = (data.dirs d).entryNamed x := by
  by_cases hd : d = d'
  · subst hd
    simp only [withoutEntry, Attached.setDir, Function.update_self]
    exact Directory.entryNamed_without_ne _ (fun hx => h ⟨rfl, hx⟩)
  · simp [withoutEntry, Attached.setDir, hd]

/-- `directory_add_entry` can add `name` to directory `d`. -/
structure CanAdd (s : Fs Attached) (d : Fin maxInodes) (name : CStr) : Prop where
  isDir : (s.inodes d).inodeType = .dir
  free : (s.data.dirs d).entryNamed name = none
  room : (s.data.dirs d).length < maxBlocks
  nonempty : 0 < name.length
  short : name.length < maxFilenameLen

theorem CanAdd.same {s t : Fs Attached} (h : Same s t) {d : Fin maxInodes} {name : CStr}
    (hs : CanAdd s d name) : CanAdd t d name where
  isDir := (h.apply (fun s => (s.inodes d).inodeType) (fun _ => rfl)).symm.trans hs.isDir
  free := by
    rw [← h.apply (fun s => s.data.dirs d) (fun _ => rfl)]
    exact hs.free
  room := by
    rw [← h.apply (fun s => s.data.dirs d) (fun _ => rfl)]
    exact hs.room
  nonempty := hs.nonempty
  short := hs.short

/-- An inode and a block that the allocators can hand out. -/
structure Fresh (s : Fs Attached) (i : Fin maxInodes) (b : Nat) : Prop where
  inode : s.intmap.inodes i = false
  block : findFreeBlock s.intmap = some b

theorem Fresh.same {s t : Fs Attached} (h : Same s t) {i : Fin maxInodes} {b : Nat}
    (hs : Fresh s i b) : Fresh t i b where
  inode := by
    rw [← h.apply (fun s => s.intmap) (fun _ => rfl)]
    exact hs.inode
  block := by
    rw [← h.apply (fun s => s.intmap) (fun _ => rfl)]
    exact hs.block

/-- `op` is a `fs_create_symlink` that gets to copy its target to block
`b`: the name is free in its parent, the target passes the length check
and an inode and a block are free. -/
def CopiesTarget (s : Fs Attached) (op : Op) (target : CStr) (b : Nat) : Prop :=
  ∃ linkpath d name i, op = .createSymlink target linkpath ∧
    resolveParent s linkpath = .ok (d, name) ∧ (s.data.dirs d).entryNamed name = none ∧
    target.length < numDirectBlocks * blockSize ∧ Fresh s i b

/-- Only a symbolic link stores bytes before it can still fail. -/
def RollbackBytes (s : Fs Attached) (op : Op) (m : Memory) : Prop :=
  m = s.data.bytes ∨
    ∃ target b, CopiesTarget s op target b ∧ m = symlinkBytes s.data.bytes b target

/-- `file_size_bytes` after a write that stopped at `pos`. -/
def grow (pos : Nat) (n : Inode) : Inode :=
  if pos > n.fileSizeBytes then { n with fileSizeBytes := u32 pos } else n

/-- The position a write starts at. -/
def writeStart (s : Fs Attached) (i : Fin maxInodes) (offset : Int) (append : Bool) : Nat :=
  toSize (if append then (s.inodes i).fileSizeBytes else offset)

/-- `fs_write_file` on inode `i`, without the time stamps. -/
def written (s : Fs Attached) (i : Fin maxInodes) (buffer : List UInt8) (pos : Nat) :
    Fs Attached :=
  let w := writeLoop i buffer loopFuel s 0 pos
  w.1.modifyInode i (grow w.2.2)

/-- `fisopfs_truncate` on inode `i`, without the time stamps. -/
def truncated (s : Fs Attached) (i : Fin maxInodes) (size : Int) : Fs Attached :=
  (if size = 0 then releaseBlocks i s else s).modifyInode i
    (fun n => { n with fileSizeBytes := u32 (toSize size) })

/-! ## Effects -/

inductive Effect (c : Ctx) (s : Fs Attached) : Op → Int → Fs Attached → Prop where
  | unchanged (op : Op) (r : Int) : Effect c s op r s
  | rolledBack {op : Op} {r : Int} {i : Fin maxInodes} {data : Attached}
      (hr : r < 0) (hi : s.intmap.inodes i = false)
      (hdirs : ∀ j ≠ i, data.dirs j = s.data.dirs j)
      (hbytes : RollbackBytes s op data.bytes) :
      Effect c s op r (reset c s i data)
  | createFile {path : CStr} {mode : Nat} {d i : Fin maxInodes} {name : CStr} {b : Nat}
      (hp : resolveParent s path = .ok (d, name)) (hadd : CanAdd s d name)
      (hf : Fresh s i b) :
      Effect c s (.createFile path mode) 0
        (installed s i (newFileInode c mode b) b (withEntry s.data d name i))
  | createSymlink {target linkpath : CStr} {d i : Fin maxInodes} {name : CStr} {b : Nat}
      (hp : resolveParent s linkpath = .ok (d, name)) (hadd : CanAdd s d name)
      (hlen : target.length < numDirectBlocks * blockSize) (hf : Fresh s i b) :
      Effect c s (.createSymlink target linkpath) 0
        (installed s i (newSymlinkInode c target b) b
          (withEntry { s.data with bytes := symlinkBytes s.data.bytes b target } d name i))
  | createDirectory {path : CStr} {mode : Nat} {filename name : CStr} {d i : Fin maxInodes}
      {b : Nat} (hp : resolveParent s path = .ok (d, filename))
      (hfree : (s.data.dirs d).entryNamed filename = none) (hadd : CanAdd s d name)
      (hne : d ≠ i) (hf : Fresh s i b) :
      Effect c s (.createDirectory path mode name) 0
        (inodeIncrementLinks d
          (installed s i (newDirInode c mode b) b
            (withEntry (s.data.setDir i Directory.init) d name i)))
  | createHardLink {source dest : CStr} {src d : Fin maxInodes} {name : CStr}
      (hsrc : resolve s source = .ok src) (hty : (s.inodes src).inodeType ≠ .dir)
      (hp : resolveParent s dest = .ok (d, name)) (hadd : CanAdd s d name) :
      Effect c s (.createHardLink source dest) 0
        (inodeIncrementLinks src { s with data := withEntry s.data d name src })
  | unlinked {path : CStr} {d i : Fin maxInodes} {name : CStr}
      (ht : target s path = some (d, name, i)) (hty : (s.inodes i).inodeType ≠ .dir)
      (hlinks : u16Dec (s.inodes i).hardLinksCount ≠ 0) :
      Effect c s (.deleteFile path) 0
        (inodeDecrementLinks i { s with data := withoutEntry s.data d name })
  | deleted {path : CStr} {d i : Fin maxInodes} {name : CStr}
      (ht : target s path = some (d, name, i)) (hty : (s.inodes i).inodeType ≠ .dir)
      (hlinks : u16Dec (s.inodes i).hardLinksCount = 0) :
      Effect c s (.deleteFile path) 0
        (released c s i (withoutEntry s.data d name).dirs)
  | removeDirectory {path : CStr} {d i : Fin maxInodes} {name : CStr} {p : DirPtr}
      (ht : target s path = some (d, name, i)) (hr : resolve s path = .ok i)
      (hdir : getDirectoryByInode s i = some p) (hempty : (s.data.dirs i).length ≤ 2) :
      Effect c s (.removeDirectory path) 0
        (freed c s i (withoutEntry s.data d name))
  | changeMode {path : CStr} {mode : Nat} {i : Fin maxInodes} (hr : resolve s path = .ok i) :
      Effect c s (.changeMode path mode) 0
        (s.modifyInode i (fun n => { n with permissionBits := permOfMode mode }))
  | changeOwner {path : CStr} {uid gid : Nat} {i : Fin maxInodes}
      (hr : resolve s path = .ok i) :
      Effect c s (.changeOwner path uid gid) 0
        (s.modifyInode i (fun n => { n with ownerUserId := u16 uid, ownerGroupId := u16 gid }))
  | writeFile {path : CStr} {buffer : List UInt8} {offset : Int} {append : Bool}
      {d i : Fin maxInodes} {name : CStr} (ht : target s path = some (d, name, i))
      (hne : buffer ≠ []) :
      Effect c s (.writeFile path buffer offset append)
        (writeLoop i buffer loopFuel s 0 (writeStart s i offset append)).2.1
        (written s i buffer (writeStart s i offset append))
  | truncate {path : CStr} {size : Int} {i : Fin maxInodes} (hr : resolve s path = .ok i) :
      Effect c s (.truncate path size) 0 (truncated s i size)

/-- What `step` can do, up to time stamps. -/
def HasEffect (c : Ctx) (s : Fs Attached) (op : Op) (r : Int) (t : Fs Attached) : Prop :=
  ∃ s' t', Same s s' ∧ Same t t' ∧ Effect c s' op r t'

theorem HasEffect.of_same {c : Ctx} {s t : Fs Attached} (h : Same s t) (op : Op) (r : Int) :
    HasEffect c s op r t := ⟨s, s, Same.refl s, h.symm, .unchanged op r⟩

/-- An effect on the state a resolver left, seen from the state before. -/
theorem Effect.after {c : Ctx} {s s' t t' : Fs Attached} {op : Op} {r : Int}
    (he : Effect c s' op r t') (hs : Same s' s) (ht : Same t t') : HasEffect c s op r t :=
  ⟨s', t', hs.symm, ht, he⟩

/-- `fs_resolve_path` changes time stamps at most. -/
theorem fsResolvePath_cases (c : Ctx) {s : Fs Attached} (hs : Sound s) (path : CStr) :
    ∃ s1, Same s1 s ∧ ((∃ e, fsResolvePath c s path = .ok (.error e, s1)) ∨
      ∃ i, fsResolvePath c s path = .ok (.ok i, s1) ∧ resolve s1 path = .ok i) := by
  obtain ⟨s1, h1, hsame⟩ := fsResolvePath_eq c hs.dirs path
  refine ⟨s1, hsame, ?_⟩
  rw [h1, resolve_same hsame]
  cases resolve s path with
  | error e => exact Or.inl ⟨e, rfl⟩
  | ok i => exact Or.inr ⟨i, rfl, rfl⟩

theorem fsResolveParent_cases (c : Ctx) {s : Fs Attached} (hs : Sound s) (path : CStr) :
    ∃ s1, Same s1 s ∧ ((∃ e, fsResolveParent c s path = .ok (.error e, s1)) ∨
      ∃ d name, fsResolveParent c s path = .ok (.ok (d, name), s1) ∧
        resolveParent s1 path = .ok (d, name)) := by
  obtain ⟨s1, h1, hsame⟩ := fsResolveParent_eq c hs.dirs path
  refine ⟨s1, hsame, ?_⟩
  rw [h1, resolveParent_same hsame]
  cases resolveParent s path with
  | error e => exact Or.inl ⟨e, rfl⟩
  | ok q => exact Or.inr ⟨q.1, q.2, rfl, rfl⟩

/-! ## Creations and their roll-backs -/

/-- Inode `i` taken for `n`, before it has a block. -/
def taken (s : Fs Attached) (i : Fin maxInodes) (n : Inode) : Fs Attached where
  inodes := Function.update s.inodes i n
  intmap := setInodeUsed s.intmap i
  superblock := { s.superblock with freeInodesCount := u32Dec s.superblock.freeInodesCount }
  data := s.data

theorem putBlock_taken (s : Fs Attached) (i : Fin maxInodes) {n : Inode} (b : Nat)
    (hn : n.directBlockPtrs = fun _ => none) :
    decFreeBlocks (putBlock (taken s i n) i 0 b)
      = installed s i { n with directBlockPtrs := onePtr b } b s.data := by
  simp [decFreeBlocks, putBlock, setPtr, Fs.modifyInode, taken, installed, setInodeUsed, onePtr, hn]

theorem update_map_self {s : Fs Attached} {i : Fin maxInodes} (hi : s.intmap.inodes i = false) :
    Function.update s.intmap.inodes i false = s.intmap.inodes := by
  rw [← hi, Function.update_eq_self]

theorem holds_noPtr {n : Inode} (hn : n.directBlockPtrs = fun _ => none) (b : Nat) :
    holds n b = false := by
  rw [Bool.eq_false_iff, Ne, holdsBelow_iff, hn]
  rintro ⟨k, -, hk⟩
  cases hk

theorem onePtr_eq_some {k b x : Nat} : onePtr b k = some x ↔ k = 0 ∧ x = b := by
  by_cases hk : k = 0
  · subst hk; simp [onePtr, eq_comm]
  · simp [onePtr, hk]

theorem holds_onePtr {n : Inode} {b : Nat} (hn : n.directBlockPtrs = onePtr b) (x : Nat) :
    holds n x = (x == b) := by
  rw [Bool.eq_iff_iff, holdsBelow_iff, beq_iff_eq, hn]
  simp only [onePtr_eq_some]
  constructor
  · rintro ⟨k, -, -, hx⟩; exact hx
  · rintro rfl; exact ⟨0, by decide, rfl, rfl⟩

theorem slotsBelow_onePtr {n : Inode} {b : Nat} (hn : n.directBlockPtrs = onePtr b)
    (hb : b < maxBlocks) : SlotsBelow n := by
  intro k x hx
  rw [getDirectBlock_eq_some, hn, onePtr_eq_some] at hx
  rw [hx.2.2]
  exact hb

/-- The undo sequence when no block is free. -/
theorem undo_taken (c : Ctx) {s : Fs Attached} (hc : CountersOk s) {i : Fin maxInodes}
    (hi : s.intmap.inodes i = false) {n : Inode} (hn : n.directBlockPtrs = fun _ => none) :
    incFreeInodes (inodeFree c i (taken s i n)) = reset c s i s.data := by
  have hs : SlotsBelow ((taken s i n).inodes i) := by
    intro k b hk
    rw [getDirectBlock_eq_some] at hk
    simp [taken, hn] at hk
  rw [inodeFree_eq c _ i hs]
  simp [incFreeInodes, taken, reset, mapWithout, clearInodeUsed, setInodeUsed, holds_noPtr hn,
    update_map_self hi, u32Inc_u32Dec hc.inodes]

theorem clear_after_set {s : Fs Attached} {n : Inode} {b : Nat}
    (hn : n.directBlockPtrs = onePtr b) (hf : s.intmap.blocks b = false) :
    (fun x => Function.update s.intmap.blocks b true x && !holds n x) = s.intmap.blocks := by
  funext x
  rw [holds_onePtr hn]
  by_cases hx : x = b
  · subst hx; simp [hf]
  · have : (x == b) = false := by simpa using hx
    simp [hx, this]

/-- The undo sequence when the parent directory is full. -/
theorem undo_installed (c : Ctx) {s : Fs Attached} (hc : CountersOk s) {i : Fin maxInodes}
    (hi : s.intmap.inodes i = false) {n : Inode} {b : Nat} (hn : n.directBlockPtrs = onePtr b)
    (hb : b < maxBlocks) (hf : s.intmap.blocks b = false) (data : Attached) :
    incFreeBlocks (incFreeInodes (inodeFree c i (installed s i n b data)))
      = reset c s i data := by
  have hs : SlotsBelow ((installed s i n b data).inodes i) := by
    simpa [installed] using slotsBelow_onePtr hn hb
  rw [inodeFree_eq c _ i hs]
  have hmap := clear_after_set hn hf
  simp only [incFreeInodes, incFreeBlocks, installed, reset, mapWithout, clearInodeUsed,
    Function.update_self, Function.update_idem, update_map_self hi, u32Inc_u32Dec hc.inodes,
    u32Inc_u32Dec hc.blocks, hmap]

theorem lookup_free {s : Fs Attached} (hs : DirsOk s) {d : Fin maxInodes} {p : DirPtr}
    (hp : getDirectoryByInode s d = some p) {name : CStr}
    (h : ¬ directoryLookup s.data p name ≥ 0) : (s.data.dirs d).entryNamed name = none := by
  obtain ⟨ht, rfl⟩ := getDirectoryByInode_some hp
  exact Directory.entryNamed_none_of_lookup_neg (hs _ ht) (by
    have : directoryLookup s.data p name = (s.data.dirs p.inode).lookup name := rfl
    omega)

/-- `directory_add_entry` through a directory pointer. -/
theorem addEntry_attached {s : Fs Attached} {d : Fin maxInodes} {p : DirPtr}
    (hp : getDirectoryByInode s d = some p) {data data' : Attached} {name : CStr}
    {i : Fin maxInodes} (h : directoryAddEntry data p name i = some data')
    (hdirs : data.dirs d = s.data.dirs d) :
    CanAdd s d name ∧ data' = withEntry data d name i := by
  obtain ⟨ht, rfl⟩ := getDirectoryByInode_some hp
  have h' : ((data.dirs p.inode).addEntry name i).map (data.setDir p.inode) = some data' := h
  rw [Option.map_eq_some_iff] at h'
  obtain ⟨dir, hdir, rfl⟩ := h'
  obtain ⟨h1, hshort, h2, h3, rfl⟩ := Directory.addEntry_some hdir
  rw [hdirs] at h2 h3
  exact ⟨⟨ht, h3, h2, h1, hshort⟩, by rw [Directory.u32_of_lt_maxInodes i.isLt]; rfl⟩

theorem createFileIn_effect (c : Ctx) {s : Fs Attached} (hs : Sound s) {path name : CStr}
    {d : Fin maxInodes} (hp : resolveParent s path = .ok (d, name)) (mode : Nat) :
    Effect c s (.createFile path mode) (createFileIn c s d name mode).1
      (createFileIn c s d name mode).2 := by
  unfold createFileIn
  cases hdir : getDirectoryByInode s d with
  | none => exact .unchanged _ _
  | some p =>
      by_cases hl : directoryLookup s.data p name ≥ 0
      · simp only [hl, if_true]
        exact .unchanged _ _
      · simp only [hl, if_false]
        cases ha : allocateInode c s with
        | none => exact .unchanged _ _
        | some r =>
            obtain ⟨i, s1⟩ := r
            obtain ⟨hi, rfl⟩ := allocateInode_some ha
            set n : Inode := { inodeInit c with inodeType := .file, permissionBits := u16 mode }
            have htaken : Fs.modifyInode (decFreeInodes
                { s with
                  inodes := Function.update s.inodes i (inodeInit c)
                  intmap := setInodeUsed s.intmap i }) i (fun _ => n) = taken s i n := by
              simp [Fs.modifyInode, decFreeInodes, taken]
            have hfind : findFreeBlock (taken s i n).intmap = findFreeBlock s.intmap := rfl
            simp only [htaken, hfind]
            cases hb : findFreeBlock s.intmap with
            | none =>
                simp only [Option.bind_none, undo_taken c hs.counters hi (n := n) rfl]
                exact .rolledBack (by decide) hi (fun _ _ => rfl) (Or.inl rfl)
            | some b =>
                obtain ⟨hlt, hfree⟩ := findFreeBlock_some hb
                have hadd : inodeAddDirectBlock (taken s i n) i b
                    = some (putBlock (taken s i n) i 0 b) :=
                  addDirectBlock_fresh hlt (by simp [taken, n, inodeInit])
                simp only [Option.bind_some, hadd, putBlock_taken s i b (n := n) rfl]
                have hdata (n' : Inode) : (installed s i n' b s.data).data = s.data := rfl
                cases he : directoryAddEntry s.data p name i with
                | none =>
                    simp only [hdata, he]
                    rw [undo_installed c hs.counters hi rfl hlt hfree]
                    exact .rolledBack (by decide) hi (fun _ _ => rfl) (Or.inl rfl)
                | some data =>
                    obtain ⟨hcan, rfl⟩ := addEntry_attached hdir he rfl
                    simp only [hdata, he]
                    exact .createFile hp hcan ⟨hi, hb⟩

/-- `fs_create_symlink` after the inode has been allocated, with its undo
sequences evaluated. -/
theorem createSymlinkIn_eq (c : Ctx) {s s1 : Fs Attached} (hs : Sound s) {name : CStr}
    {d i : Fin maxInodes} {p : DirPtr} (hdir : getDirectoryByInode s d = some p)
    (hl : ¬ directoryLookup s.data p name ≥ 0) (ha : allocateInode c s = some (i, s1))
    (target : CStr) :
    createSymlinkIn c s target d name =
      if target.length ≥ numDirectBlocks * blockSize then (-enametoolong, reset c s i s.data)
      else
        match findFreeBlock s.intmap with
        | none => (-enospc, reset c s i s.data)
        | some b =>
            match directoryAddEntry
              { s.data with bytes := symlinkBytes s.data.bytes b target } p name i with
            | none =>
                (-enospc,
                  reset c s i { s.data with bytes := symlinkBytes s.data.bytes b target })
            | some data => (0, installed s i (newSymlinkInode c target b) b data) := by
  obtain ⟨hi, rfl⟩ := allocateInode_some ha
  have hty := (getDirectoryByInode_some hdir).1
  set n : Inode :=
    { inodeInit c with inodeType := .symlink, permissionBits := permRwx } with hn
  have htaken : Fs.modifyInode (decFreeInodes
      { s with
        inodes := Function.update s.inodes i (inodeInit c)
        intmap := setInodeUsed s.intmap i }) i (fun n =>
      { n with inodeType := .symlink, ownerUserId := u16 c.uid,
               ownerGroupId := u16 c.gid, permissionBits := permRwx,
               hardLinksCount := 1 }) = taken s i n := by
    simp [Fs.modifyInode, decFreeInodes, taken, hn, inodeInit]
  have hmax : (taken s i n).superblock.maxFileSizeBytes = numDirectBlocks * blockSize :=
    hs.maxFileSize
  set n' : Inode := { n with fileSizeBytes := u32 target.length } with hn'
  have htaken' : (taken s i n).modifyInode i
      (fun n => { n with fileSizeBytes := u32 target.length }) = taken s i n' := by
    simp [Fs.modifyInode, taken, hn']
  have hfind : findFreeBlock (taken s i n').intmap = findFreeBlock s.intmap := rfl
  unfold createSymlinkIn
  rw [if_neg (by simp [hty])]
  simp only [hdir, hl, if_false, ha, htaken, hmax, htaken', hfind,
    undo_taken c hs.counters hi (n := n) rfl, undo_taken c hs.counters hi (n := n') rfl]
  split
  · rfl
  cases hb : findFreeBlock s.intmap with
  | none => rfl
  | some b =>
      obtain ⟨hlt, hfree⟩ := findFreeBlock_some hb
      have hadd : inodeAddDirectBlock (taken s i n') i b
          = some (putBlock (taken s i n') i 0 b) :=
        addDirectBlock_fresh hlt (by simp [taken, n', n, inodeInit])
      set data : Attached := { s.data with bytes := symlinkBytes s.data.bytes b target }
      have hset : (installed s i (newSymlinkInode c target b) b s.data).setBytes
          (symlinkBytes s.data.bytes b target)
          = installed s i (newSymlinkInode c target b) b data := rfl
      have hbytes : (installed s i (newSymlinkInode c target b) b s.data).bytes
          = s.data.bytes := rfl
      have hdata (m : Inode) : (installed s i m b data).data = data := rfl
      have hnew : { n' with directBlockPtrs := onePtr b }
          = newSymlinkInode c target b := rfl
      rw [symlinkBytes] at hset
      simp only [hadd, putBlock_taken s i b (n := n') rfl, hnew, hbytes, hset, hdata]
      cases directoryAddEntry data p name i with
      | none =>
          dsimp only
          rw [undo_installed c hs.counters hi rfl hlt hfree]
      | some data' => rfl

theorem createSymlinkIn_effect (c : Ctx) {s : Fs Attached} (hs : Sound s)
    {linkpath name : CStr} {d : Fin maxInodes} (hp : resolveParent s linkpath = .ok (d, name))
    (target : CStr) :
    Effect c s (.createSymlink target linkpath) (createSymlinkIn c s target d name).1
      (createSymlinkIn c s target d name).2 := by
  by_cases hty : (s.inodes d).inodeType = .dir
  swap
  · rw [createSymlinkIn, if_pos hty]
    exact .unchanged _ _
  cases hdir : getDirectoryByInode s d with
  | none =>
      rw [createSymlinkIn, if_neg (not_not.mpr hty)]
      simp only [hdir]
      exact .unchanged _ _
  | some p =>
      by_cases hl : directoryLookup s.data p name ≥ 0
      · rw [createSymlinkIn, if_neg (not_not.mpr hty)]
        simp only [hdir, hl, if_true]
        exact .unchanged _ _
      cases ha : allocateInode c s with
      | none =>
          rw [createSymlinkIn, if_neg (not_not.mpr hty)]
          simp only [hdir, hl, if_false, ha]
          exact .unchanged _ _
      | some r =>
          obtain ⟨i, s1⟩ := r
          obtain ⟨hi, -⟩ := allocateInode_some ha
          rw [createSymlinkIn_eq c hs hdir hl ha]
          split
          · exact .rolledBack (show -enametoolong < 0 by decide) hi (fun _ _ => rfl)
              (Or.inl rfl)
          rename_i hlen
          cases hb : findFreeBlock s.intmap with
          | none => exact .rolledBack (show -enospc < 0 by decide) hi (fun _ _ => rfl) (Or.inl rfl)
          | some b =>
              dsimp only
              cases he : directoryAddEntry
                  { s.data with bytes := symlinkBytes s.data.bytes b target } p name i with
              | none =>
                  exact .rolledBack (show -enospc < 0 by decide) hi (fun _ _ => rfl)
                    (Or.inr ⟨target, b, ⟨linkpath, d, name, i, rfl, hp,
                      lookup_free hs.dirs hdir hl, not_le.mp hlen, hi, hb⟩, rfl⟩)
              | some data =>
                  obtain ⟨hcan, rfl⟩ := addEntry_attached hdir he rfl
                  exact .createSymlink hp hcan (not_le.mp hlen) ⟨hi, hb⟩

/-- The undo sequence of `fs_create_directory`: its own `clear_block_used`
finds the bit already cleared by `inode_free`. -/
theorem undo_directory (c : Ctx) {s : Fs Attached} (hc : CountersOk s) {i : Fin maxInodes}
    (hi : s.intmap.inodes i = false) {n : Inode} {b : Nat} (hn : n.directBlockPtrs = onePtr b)
    (hb : b < maxBlocks) (hf : s.intmap.blocks b = false) (data : Attached) :
    incFreeBlocks (incFreeInodes
      { inodeFree c i (installed s i n b data) with
        intmap := clearBlockUsed (inodeFree c i (installed s i n b data)).intmap b })
      = reset c s i data := by
  rw [← undo_installed c hc hi hn hb hf data]
  have hclear : clearBlockUsed (inodeFree c i (installed s i n b data)).intmap b
      = (inodeFree c i (installed s i n b data)).intmap := by
    have hs : SlotsBelow ((installed s i n b data).inodes i) := by
      simpa [installed] using slotsBelow_onePtr hn hb
    have hbit : (inodeFree c i (installed s i n b data)).intmap.blocks b = false := by
      rw [inodeFree_eq c _ i hs]
      simp [installed, clearInodeUsed, mapWithout, holds_onePtr hn]
    rw [clearBlockUsed_of_lt hb, ← hbit, Function.update_eq_self]
  rw [hclear]

/-- The new directory: `directory_init` already stored both dot names, so
the two `directory_add_entry` calls find them taken and fail. -/
theorem newDirectory_data (data : Attached) (i parent : Fin maxInodes) (b : Nat) :
    (directoryAddEntry
      ((directoryAddEntry (directoryInit data ⟨i, b⟩) ⟨i, b⟩ dot i).getD
        (directoryInit data ⟨i, b⟩)) ⟨i, b⟩ dotDot parent).getD
      ((directoryAddEntry (directoryInit data ⟨i, b⟩) ⟨i, b⟩ dot i).getD
        (directoryInit data ⟨i, b⟩)) = data.setDir i Directory.init := by
  have hinit : directoryInit data ⟨i, b⟩ = data.setDir i Directory.init := rfl
  have hdot : directoryAddEntry (data.setDir i Directory.init) ⟨i, b⟩ dot i = none := by
    show Option.map _ (((data.setDir i Directory.init).dirs i).addEntry dot i) = none
    simp only [Attached.setDir, Function.update_self]
    rfl
  have hdd : directoryAddEntry (data.setDir i Directory.init) ⟨i, b⟩ dotDot parent = none := by
    show Option.map _ (((data.setDir i Directory.init).dirs i).addEntry dotDot parent) = none
    simp only [Attached.setDir, Function.update_self]
    rfl
  simp only [hinit, hdot, hdd, Option.getD_none]

theorem createDirectoryIn_effect (c : Ctx) {s : Fs Attached} (hs : Sound s)
    {path filename : CStr} {d : Fin maxInodes} (hp : resolveParent s path = .ok (d, filename))
    (mode : Nat) (name : CStr) :
    Effect c s (.createDirectory path mode name) (createDirectoryIn c s d filename mode name).1
      (createDirectoryIn c s d filename mode name).2 := by
  unfold createDirectoryIn
  cases hdir : getDirectoryByInode s d with
  | none => exact .unchanged _ _
  | some p =>
      obtain ⟨htype, -⟩ := getDirectoryByInode_some hdir
      by_cases hl : directoryLookup s.data p filename ≥ 0
      · simp only [hl, if_true]
        exact .unchanged _ _
      · simp only [hl, if_false]
        cases ha : allocateInode c s with
        | none => exact .unchanged _ _
        | some r =>
            obtain ⟨i, s1⟩ := r
            obtain ⟨hi, rfl⟩ := allocateInode_some ha
            have hne : d ≠ i := by
              rintro rfl
              have := hs.dirUsed d htype
              rw [hi] at this
              cases this
            set n : Inode :=
              { inodeInit c with
                hardLinksCount := 2, inodeType := .dir, permissionBits := u16 mode,
                fileSizeBytes := directorySize } with hn
            have htaken : Fs.modifyInode (inodeIncrementLinks i (Fs.modifyInode (decFreeInodes
                { s with
                  inodes := Function.update s.inodes i (inodeInit c)
                  intmap := setInodeUsed s.intmap i }) i (fun _ => inodeInit c))) i (fun n =>
                { n with inodeType := .dir, permissionBits := u16 mode,
                         fileSizeBytes := directorySize }) = taken s i n := by
              have h2 : u16Inc 1 = 2 := by simp [u16Inc, u16]
              simp [Fs.modifyInode, inodeIncrementLinks, decFreeInodes, taken, hn, inodeInit, h2]
            have hfind : findFreeBlock (taken s i n).intmap = findFreeBlock s.intmap := rfl
            simp only [htaken, hfind]
            cases hb : findFreeBlock s.intmap with
            | none =>
                simp only [undo_taken c hs.counters hi (n := n) rfl]
                exact .rolledBack (by decide) hi (fun _ _ => rfl) (Or.inl rfl)
            | some b =>
                obtain ⟨hlt, hfree⟩ := findFreeBlock_some hb
                have hadd : inodeAddDirectBlock (taken s i n) i b
                    = some (putBlock (taken s i n) i 0 b) :=
                  addDirectBlock_fresh hlt (by simp [taken, n, inodeInit])
                set data : Attached := s.data.setDir i Directory.init
                have hdata (m : Inode) : (installed s i m b s.data).data = s.data := rfl
                have hnew : { n with directBlockPtrs := onePtr b } = newDirInode c mode b := rfl
                simp only [hadd, putBlock_taken s i b (n := n) rfl, hnew, hdata,
                  newDirectory_data]
                cases he : directoryAddEntry data p name i with
                | none =>
                    have hundo : Effect c s (.createDirectory path mode name) (-eio)
                        (reset c s i data) := by
                      refine .rolledBack (by decide) hi (fun j hj => ?_) (Or.inl rfl)
                      simp [data, Attached.setDir, hj]
                    rw [← undo_directory c hs.counters hi (n := newDirInode c mode b) rfl hlt
                      hfree] at hundo
                    exact hundo
                | some data' =>
                    obtain ⟨hcan, rfl⟩ :=
                      addEntry_attached hdir he (by simp [data, Attached.setDir, hne])
                    exact .createDirectory hp (lookup_free hs.dirs hdir hl) hcan hne ⟨hi, hb⟩

theorem createHardLinkIn_effect (c : Ctx) {s : Fs Attached}
    {source dest name : CStr} {src d : Fin maxInodes} (hsrc : resolve s source = .ok src)
    (hty : (s.inodes src).inodeType ≠ .dir) (hp : resolveParent s dest = .ok (d, name)) :
    Effect c s (.createHardLink source dest) (createHardLinkIn s src d name).1
      (createHardLinkIn s src d name).2 := by
  unfold createHardLinkIn
  split
  · exact .unchanged _ _
  cases hdir : getDirectoryByInode s d with
  | none => exact .unchanged _ _
  | some p =>
      by_cases hl : directoryLookup s.data p name ≥ 0
      · simp only [hl, if_true]
        exact .unchanged _ _
      · simp only [hl, if_false]
        cases he : directoryAddEntry s.data p name src with
        | none => exact .unchanged _ _
        | some data =>
            obtain ⟨hcan, rfl⟩ := addEntry_attached hdir he rfl
            exact .createHardLink hsrc hty hp hcan

/-! ## Removals -/

theorem removeEntry_attached {s : Fs Attached} {d : Fin maxInodes} {p : DirPtr}
    (hp : getDirectoryByInode s d = some p) {name : CStr} {data : Attached}
    (h : directoryRemoveEntry s.data p name = some data) :
    data = withoutEntry s.data d name ∧ ∃ e, (s.data.dirs d).entryNamed name = some e := by
  obtain ⟨-, rfl⟩ := getDirectoryByInode_some hp
  have h' : ((s.data.dirs p.inode).removeEntry name).map (s.data.setDir p.inode) = some data := h
  rw [Option.map_eq_some_iff] at h'
  obtain ⟨dir, hdir, rfl⟩ := h'
  obtain ⟨he, rfl⟩ := Directory.removeEntry_some hdir
  exact ⟨rfl, he⟩

/-- The release of the last link is `released`. -/
theorem release_eq (c : Ctx) {s : Fs Attached} (hs : Sound s) (i : Fin maxInodes)
    (dirs : Fin maxInodes → Directory) :
    incFreeInodes (Fs.modifyInode
      { releaseBlocks i (inodeDecrementLinks i
          { s with data := { s.data with dirs := dirs } }) with
        intmap := clearInodeUsed (releaseBlocks i (inodeDecrementLinks i
          { s with data := { s.data with dirs := dirs } })).intmap i } i (fun _ => inodeInit c))
      = released c s i dirs := by
  set s1 : Fs Attached := { s with data := { s.data with dirs := dirs } }
  set n : Inode := { s.inodes i with hardLinksCount := u16Dec (s.inodes i).hardLinksCount }
  have hn : (inodeDecrementLinks i s1).inodes i = n := by
    simp [inodeDecrementLinks, Fs.modifyInode, s1, n]
  have hbelow : SlotsBelow ((inodeDecrementLinks i s1).inodes i) := by
    rw [hn]; exact hs.slotsBelow i
  have hheld : ∀ m, heldCount n m = heldCount (s.inodes i) m := by
    intro m
    induction m with
    | zero => rfl
    | succ m ih => rw [heldCount, heldCount, ih]
  rw [releaseBlocks_eq _ i hbelow, hn, hheld]
  simp only [incFreeInodes, Fs.modifyInode, released, inodeDecrementLinks, s1,
    Function.update_idem]
  rfl

/-- A name that a lookup finds can be removed. -/
theorem removeEntry_of_child {s : Fs Attached} {d i : Fin maxInodes} {p : DirPtr} {name : CStr}
    (hp : getDirectoryByInode s d = some p) (hlen : 0 < name.length)
    (hc : child s d name = some i) :
    directoryRemoveEntry s.data p name = some (withoutEntry s.data d name) := by
  obtain ⟨-, rfl⟩ := getDirectoryByInode_some hp
  obtain ⟨-, e, he, -⟩ := child_some hc
  obtain ⟨hmem, hname⟩ := Directory.entryNamed_some he
  show ((s.data.dirs p.inode).removeEntry name).map (s.data.setDir p.inode) = _
  rw [Directory.removeEntry, if_neg (by omega),
    if_pos (List.any_eq_true.mpr ⟨e, hmem, by simp [hname]⟩)]
  rfl

/-- `fs_delete_file` on the entry of a file: the name goes, and with the
last link the inode. -/
theorem deleteFileIn_file (c : Ctx) {s : Fs Attached} (hs : Sound s) {name : CStr}
    {d i : Fin maxInodes} {p : DirPtr} (hp : getDirectoryByInode s d = some p)
    (hlen : 0 < name.length) (hc : child s d name = some i)
    (hty : (s.inodes i).inodeType ≠ .dir) :
    (deleteFileIn c s p name i).1 = 0 ∧
      (u16Dec (s.inodes i).hardLinksCount = 0 →
        Same (deleteFileIn c s p name i).2
          (released c s i (withoutEntry s.data d name).dirs)) ∧
      (u16Dec (s.inodes i).hardLinksCount ≠ 0 →
        Same (deleteFileIn c s p name i).2
          (inodeDecrementLinks i { s with data := withoutEntry s.data d name })) := by
  have hty' : ¬ ((s.inodes i).inodeType ≠ .file ∧ (s.inodes i).inodeType ≠ .symlink) := by
    cases h : (s.inodes i).inodeType <;> simp_all
  unfold deleteFileIn
  rw [if_neg hty']
  simp only [removeEntry_of_child hp hlen hc]
  set s1 := inodeDecrementLinks i { s with data := withoutEntry s.data d name } with hs1
  have hlinks : (s1.inodes i).hardLinksCount = u16Dec (s.inodes i).hardLinksCount := by
    simp [hs1, inodeDecrementLinks, Fs.modifyInode]
  refine ⟨trivial, fun h0 => ?_, fun h0 => ?_⟩
  · rw [if_pos (by rw [hlinks]; exact h0)]
    have hrel := release_eq c hs i (withoutEntry s.data d name).dirs
    refine (same_updateCtime _ _ _).trans ((same_updateMtime _ _ _).trans ?_)
    rw [← hrel]
    exact Same.refl _
  · rw [if_neg (by rw [hlinks]; exact h0)]
    exact (same_updateCtime _ _ _).trans (same_updateMtime _ _ _)

theorem deleteFileIn_effect (c : Ctx) {s : Fs Attached} (hs : Sound s) {path name : CStr}
    {d i : Fin maxInodes} {p : DirPtr} (hp : getDirectoryByInode s d = some p)
    (ht : target s path = some (d, name, i)) :
    ∃ t, Same (deleteFileIn c s p name i).2 t ∧
      Effect c s (.deleteFile path) (deleteFileIn c s p name i).1 t := by
  by_cases hty : (s.inodes i).inodeType = .dir
  · unfold deleteFileIn
    rw [if_pos (by simp [hty])]
    exact ⟨s, Same.refl s, .unchanged _ _⟩
  · obtain ⟨hpar, hc⟩ := target_some.mp ht
    obtain ⟨-, -, -, hlen, -⟩ := resolveParent_ok hpar
    obtain ⟨hr, hlast, hmore⟩ := deleteFileIn_file c hs hp hlen hc hty
    rw [hr]
    by_cases h0 : u16Dec (s.inodes i).hardLinksCount = 0
    · exact ⟨_, hlast h0, .deleted ht hty h0⟩
    · exact ⟨_, hmore h0, .unlinked ht hty h0⟩

theorem freed_eq (c : Ctx) {s : Fs Attached} (hs : Sound s) (i : Fin maxInodes)
    (data : Attached) :
    incFreeInodes (inodeFree c i { s with data := data }) = freed c s i data := by
  rw [inodeFree_eq c { s with data := data } i (hs.slotsBelow i)]
  rfl

theorem removeDirectoryEntry_effect (c : Ctx) {s t : Fs Attached} (hs : Sound s) {path : CStr}
    {i : Fin maxInodes} {q : DirPtr} {r : Int} (hr : resolve s path = .ok i)
    (hq : getDirectoryByInode s i = some q) (hempty : (s.data.dirs i).length ≤ 2)
    (h : removeDirectoryEntry c s path i = .ok (r, t)) :
    HasEffect c s (.removeDirectory path) r t := by
  obtain ⟨s1, hsame, ⟨e, h1⟩ | ⟨d, name, h1, hp⟩⟩ := fsResolveParent_cases c hs path
  · rw [removeDirectoryEntry, h1] at h
    cases h
    exact HasEffect.of_same hsame.symm _ _
  · simp only [removeDirectoryEntry, h1] at h
    cases hdir : getDirectoryByInode s1 d with
    | none =>
        simp only [hdir, Except.ok.injEq, Prod.mk.injEq] at h
        obtain ⟨-, rfl⟩ := h
        exact HasEffect.of_same hsame.symm _ _
    | some p =>
        simp only [hdir] at h
        cases hrem : directoryRemoveEntry s1.data p name with
        | none =>
            simp only [hrem, Except.ok.injEq, Prod.mk.injEq] at h
            obtain ⟨-, rfl⟩ := h
            exact HasEffect.of_same hsame.symm _ _
        | some data =>
            obtain ⟨rfl, -⟩ := removeEntry_attached hdir hrem
            simp only [hrem, Except.ok.injEq, Prod.mk.injEq] at h
            obtain ⟨rfl, rfl⟩ := h
            have hr1 : resolve s1 path = .ok i := by rw [resolve_same hsame, hr]
            have hq1 : getDirectoryByInode s1 i = some q :=
              (hsame.apply (fun s => getDirectoryByInode s i) (fun _ => rfl)).trans hq
            have hempty1 : (s1.data.dirs i).length ≤ 2 :=
              (hsame.apply (fun s => (s.data.dirs i).length ≤ 2) (fun _ => rfl)).mpr hempty
            have ht := target_some.mpr ⟨hp, child_of_resolve hr1 hp⟩
            refine (Effect.removeDirectory (c := c) ht hr1 hq1 hempty1).after hsame ?_
            rw [← freed_eq c (hs.same hsame.symm)]
            have hts : ∀ {a b : Fs Attached}, Same a b →
                Same (incFreeInodes a) (incFreeInodes b) := fun {a b} hab =>
              congrArg incFreeInodes hab
            exact hts ((same_updateMtime _ _ _).trans
              ((same_updateCtime _ _ _).trans (same_updateCtime _ _ _)))

theorem fsRemoveDirectory_effect (c : Ctx) {s t : Fs Attached} (hs : Sound s) {path : CStr}
    {r : Int} (h : fsRemoveDirectory c s path = .ok (r, t)) :
    HasEffect c s (.removeDirectory path) r t := by
  unfold fsRemoveDirectory at h
  split at h
  · cases h; exact HasEffect.of_same (Same.refl _) _ _
  split at h
  · cases h; exact HasEffect.of_same (Same.refl _) _ _
  obtain ⟨s1, hsame, ⟨e, h1⟩ | ⟨i, h1, hr⟩⟩ := fsResolvePath_cases c hs path
  · simp only [h1, resolvedOrFault] at h
    split at h
    · cases h; exact HasEffect.of_same hsame.symm _ _
    · cases h
  · simp only [h1, resolvedOrFault] at h
    have h' : removeDirectoryAt c s1 path i = .ok (r, t) := h
    unfold removeDirectoryAt at h'
    split at h'
    · cases h'; exact HasEffect.of_same hsame.symm _ _
    cases hdir : getDirectoryByInode s1 i with
    | none =>
        simp only [hdir] at h'
        cases h'; exact HasEffect.of_same hsame.symm _ _
    | some p =>
        simp only [hdir] at h'
        split at h'
        · cases h'; exact HasEffect.of_same hsame.symm _ _
        rename_i hlen
        obtain ⟨-, rfl⟩ := getDirectoryByInode_some hdir
        have hempty : (s1.data.dirs p.inode).length ≤ 2 := not_lt.mp hlen
        obtain ⟨s', t', ha, hb, he⟩ :=
          removeDirectoryEntry_effect c (hs.same hsame.symm) hr hdir hempty h'
        exact ⟨s', t', hsame.symm.trans ha, hb, he⟩

/-! ## Operations that start at an entry -/

/-- The lookup that `fs_read_file`, `fs_write_file` and `fs_delete_file`
do themselves, through `target`. -/
theorem lookup_target {s : Fs Attached} (hs : DirsOk s) {path name : CStr} {d : Fin maxInodes}
    (hp : resolveParent s path = .ok (d, name)) {p : DirPtr}
    (hdir : getDirectoryByInode s d = some p) :
    directoryLookup s.data p name < 0 ∨
      ∃ i, target s path = some (d, name, i) ∧ ¬ directoryLookup s.data p name < 0 ∧
        inodeAt (directoryLookup s.data p name) = .ok i := by
  rw [lookup_eq_child hs hdir]
  cases hc : child s d name with
  | none => exact Or.inl (by decide)
  | some i =>
      refine Or.inr ⟨i, target_some.mpr ⟨hp, hc⟩, ?_, inodeAt_coe i⟩
      simp only [Option.elim_some]
      omega

theorem fsDeleteFile_effect (c : Ctx) {s t : Fs Attached} (hs : Sound s) {path : CStr}
    {r : Int} (h : fsDeleteFile c s path = .ok (r, t)) :
    HasEffect c s (.deleteFile path) r t := by
  obtain ⟨s1, hsame, ⟨e, h1⟩ | ⟨d, name, h1, hp⟩⟩ := fsResolveParent_cases c hs path
  · rw [fsDeleteFile, h1] at h
    cases h
    exact HasEffect.of_same hsame.symm _ _
  · have hs1 := hs.same hsame.symm
    simp only [fsDeleteFile, h1] at h
    cases hdir : getDirectoryByInode s1 d with
    | none =>
        simp only [hdir] at h
        cases h; exact HasEffect.of_same hsame.symm _ _
    | some p =>
        simp only [hdir] at h
        rcases lookup_target hs1.dirs hp hdir with hneg | ⟨i, ht, hpos, hat⟩
        · rw [if_pos hneg] at h
          cases h; exact HasEffect.of_same hsame.symm _ _
        · simp only [if_neg hpos, hat, Except.ok.injEq] at h
          obtain ⟨t', hsame', he⟩ := deleteFileIn_effect c hs1 hdir ht
          rw [h] at hsame' he
          exact he.after hsame hsame'

/-- `fs_delete_file` on a path that names a file succeeds. -/
theorem fsDeleteFile_file (c : Ctx) {s : Fs Attached} (hs : Sound s) {path name : CStr}
    {d i : Fin maxInodes} (ht : target s path = some (d, name, i))
    (hty : (s.inodes i).inodeType ≠ .dir) :
    ∃ s' t, Same s' s ∧ fsDeleteFile c s path = .ok (0, t) ∧
      (u16Dec (s.inodes i).hardLinksCount = 0 →
        Same t (released c s' i (withoutEntry s'.data d name).dirs)) ∧
      (u16Dec (s.inodes i).hardLinksCount ≠ 0 →
        Same t (inodeDecrementLinks i { s' with data := withoutEntry s'.data d name })) := by
  obtain ⟨s1, h1, hsame⟩ := fsResolveParent_eq c hs.dirs path
  have hs1 := hs.same hsame.symm
  have ht1 : target s1 path = some (d, name, i) := by rw [target_same hsame, ht]
  obtain ⟨hp1, hc1⟩ := target_some.mp ht1
  have hp : resolveParent s path = .ok (d, name) := (target_some.mp ht).1
  obtain ⟨⟨p, hdir⟩, -⟩ := child_some hc1
  have hlook := lookup_eq_child hs1.dirs hdir name
  rw [hc1, Option.elim_some] at hlook
  obtain ⟨-, -, -, hlen, -⟩ := resolveParent_ok hp1
  have hty1 : (s1.inodes i).inodeType ≠ .dir := by
    rw [hsame.apply (fun s => (s.inodes i).inodeType) (fun _ => rfl)]
    exact hty
  have hlinks : (s1.inodes i).hardLinksCount = (s.inodes i).hardLinksCount :=
    hsame.apply (fun s => (s.inodes i).hardLinksCount) (fun _ => rfl)
  obtain ⟨hr, hlast, hmore⟩ := deleteFileIn_file c hs1 hdir hlen hc1 hty1
  rw [hlinks] at hlast hmore
  refine ⟨s1, (deleteFileIn c s1 p name i).2, hsame, ?_, hlast, hmore⟩
  rw [fsDeleteFile, h1, hp]
  simp only [hdir, hlook, inodeAt_coe, if_neg (show ¬ ((i : Nat) : Int) < 0 by omega)]
  rw [← hr]

theorem fsWriteFile_effect (c : Ctx) {s t : Fs Attached} (hs : Sound s) {path : CStr}
    {buffer : List UInt8} {offset : Int} {append : Bool} {r : Int}
    (h : fsWriteFile c s path buffer offset append = .ok (r, t)) :
    HasEffect c s (.writeFile path buffer offset append) r t := by
  unfold fsWriteFile at h
  split at h
  · cases h; exact HasEffect.of_same (Same.refl _) _ _
  rename_i hne
  obtain ⟨s1, hsame, ⟨e, h1⟩ | ⟨d, name, h1, hp⟩⟩ := fsResolveParent_cases c hs path
  · rw [h1] at h
    cases h
    exact HasEffect.of_same hsame.symm _ _
  · simp only [h1] at h
    cases hdir : getDirectoryByInode s1 d with
    | none =>
        simp only [hdir] at h
        cases h; exact HasEffect.of_same hsame.symm _ _
    | some p =>
        simp only [hdir] at h
        rcases lookup_target (hs.dirs.same hsame.symm) hp hdir with hneg | ⟨i, ht, hpos, hat⟩
        · rw [if_pos hneg] at h
          cases h; exact HasEffect.of_same hsame.symm _ _
        · simp only [if_neg hpos, hat, Except.ok.injEq] at h
          have hbuf : buffer ≠ [] := fun hb => hne (by rw [hb]; rfl)
          have he : Effect c s1 (.writeFile path buffer offset append) _ _ :=
            .writeFile ht hbuf
          rw [← show _ = t from congrArg Prod.snd h, ← show _ = r from congrArg Prod.fst h]
          exact he.after hsame ((same_updateAtime _ _ _).trans
            ((same_updateCtime _ _ _).trans (same_updateMtime _ _ _)))

/-! ## Operations on a resolved inode -/

theorem fisopfsTruncate_effect (c : Ctx) {s t : Fs Attached} (hs : Sound s) {path : CStr}
    {size r : Int} (h : fisopfsTruncate c s path size = .ok (r, t)) :
    HasEffect c s (.truncate path size) r t := by
  obtain ⟨s1, hsame, ⟨e, h1⟩ | ⟨i, h1, hr⟩⟩ := fsResolvePath_cases c hs path
  · rw [fisopfsTruncate, h1] at h
    cases h
    exact HasEffect.of_same hsame.symm _ _
  · rw [fisopfsTruncate, h1] at h
    cases h
    exact (Effect.truncate hr).after hsame
      ((same_updateCtime _ _ _).trans (same_updateMtime _ _ _))

theorem fsChangeMode_effect (c : Ctx) {s t : Fs Attached} (hs : Sound s) {path : CStr}
    {mode : Nat} {r : Int} (h : fsChangeMode c s path mode = .ok (r, t)) :
    HasEffect c s (.changeMode path mode) r t := by
  obtain ⟨s1, hsame, ⟨e, h1⟩ | ⟨i, h1, hr⟩⟩ := fsResolvePath_cases c hs path
  · rw [fsChangeMode, h1] at h
    cases h
    exact HasEffect.of_same hsame.symm _ _
  · rw [fsChangeMode, h1] at h
    cases h
    exact (Effect.changeMode hr).after hsame (same_updateCtime _ _ _)

theorem fsChangeOwner_effect (c : Ctx) {s t : Fs Attached} (hs : Sound s) {path : CStr}
    {uid gid : Nat} {r : Int} (h : fsChangeOwner c s path uid gid = .ok (r, t)) :
    HasEffect c s (.changeOwner path uid gid) r t := by
  obtain ⟨s1, hsame, ⟨e, h1⟩ | ⟨i, h1, hr⟩⟩ := fsResolvePath_cases c hs path
  · rw [fsChangeOwner, h1] at h
    cases h
    exact HasEffect.of_same hsame.symm _ _
  · rw [fsChangeOwner, h1] at h
    cases h
    exact (Effect.changeOwner hr).after hsame (same_updateCtime _ _ _)

/-! ## Creations from the path on -/

theorem fsCreateFile_effect (c : Ctx) {s t : Fs Attached} (hs : Sound s) {path : CStr}
    {mode : Nat} {r : Int} (h : fsCreateFile c s path mode = .ok (r, t)) :
    HasEffect c s (.createFile path mode) r t := by
  unfold fsCreateFile at h
  split at h
  · cases h; exact HasEffect.of_same (Same.refl _) _ _
  split at h
  · cases h; exact HasEffect.of_same (Same.refl _) _ _
  obtain ⟨s1, hsame, ⟨e, h1⟩ | ⟨d, name, h1, hp⟩⟩ := fsResolveParent_cases c hs path
  · rw [h1] at h
    cases h
    exact HasEffect.of_same hsame.symm _ _
  · simp only [h1, Except.ok.injEq] at h
    have he := createFileIn_effect c (hs.same hsame.symm) hp mode
    rw [h] at he
    exact he.after hsame (Same.refl _)

theorem fsCreateDirectory_effect (c : Ctx) {s t : Fs Attached} (hs : Sound s) {path : CStr}
    {mode : Nat} {name : CStr} {r : Int}
    (h : fsCreateDirectory c s path mode name = .ok (r, t)) :
    HasEffect c s (.createDirectory path mode name) r t := by
  unfold fsCreateDirectory at h
  split at h
  · cases h; exact HasEffect.of_same (Same.refl _) _ _
  split at h
  · cases h; exact HasEffect.of_same (Same.refl _) _ _
  obtain ⟨s1, hsame, ⟨e, h1⟩ | ⟨d, filename, h1, hp⟩⟩ := fsResolveParent_cases c hs path
  · rw [h1] at h
    cases h
    exact HasEffect.of_same hsame.symm _ _
  · simp only [h1, Except.ok.injEq] at h
    have he := createDirectoryIn_effect c (hs.same hsame.symm) hp mode name
    rw [h] at he
    exact he.after hsame (Same.refl _)

theorem fsCreateSymlink_effect (c : Ctx) {s t : Fs Attached} (hs : Sound s)
    {target linkpath : CStr} {r : Int} (h : fsCreateSymlink c s target linkpath = .ok (r, t)) :
    HasEffect c s (.createSymlink target linkpath) r t := by
  obtain ⟨s1, hsame, ⟨e, h1⟩ | ⟨d, name, h1, hp⟩⟩ := fsResolveParent_cases c hs linkpath
  · rw [fsCreateSymlink, h1] at h
    cases h
    exact HasEffect.of_same hsame.symm _ _
  · simp only [fsCreateSymlink, h1, Except.ok.injEq] at h
    have he := createSymlinkIn_effect c (hs.same hsame.symm) hp target
    rw [h] at he
    exact he.after hsame (Same.refl _)

theorem fsCreateHardLink_effect (c : Ctx) {s t : Fs Attached} (hs : Sound s)
    {source dest : CStr} {r : Int} (h : fsCreateHardLink c s source dest = .ok (r, t)) :
    HasEffect c s (.createHardLink source dest) r t := by
  obtain ⟨s1, hsame, ⟨e, h1⟩ | ⟨src, h1, hr⟩⟩ := fsResolvePath_cases c hs source
  · rw [fsCreateHardLink, h1] at h
    cases h
    exact HasEffect.of_same hsame.symm _ _
  · simp only [fsCreateHardLink, h1] at h
    split at h
    · cases h; exact HasEffect.of_same hsame.symm _ _
    rename_i hty
    obtain ⟨s2, hsame', ⟨e, h2⟩ | ⟨d, name, h2, hp⟩⟩ :=
      fsResolveParent_cases c (hs.same hsame.symm) dest
    · rw [h2] at h
      cases h
      exact HasEffect.of_same (hsame'.trans hsame).symm _ _
    · have hr2 : resolve s2 source = .ok src := by rw [resolve_same hsame', hr]
      have hty2 : (s2.inodes src).inodeType ≠ .dir := by
        rw [hsame'.apply (fun s => (s.inodes src).inodeType) (fun _ => rfl)]
        exact hty
      simp only [h2, Except.ok.injEq] at h
      have he := createHardLinkIn_effect c hr2 hty2 hp
      rw [h] at he
      exact he.after (hsame'.trans hsame) (Same.refl _)

theorem CanAdd.lookup {s : Fs Attached} {d : Fin maxInodes} {name : CStr} (h : CanAdd s d name)
    {p : DirPtr} (hp : getDirectoryByInode s d = some p) :
    directoryLookup s.data p name = -1 := by
  have hnone := Directory.lookup_of_entryNamed_none h.free
  rw [← (getDirectoryByInode_some hp).2] at hnone
  exact hnone

theorem CanAdd.addEntry {s : Fs Attached} {d : Fin maxInodes} {name : CStr} (h : CanAdd s d name)
    {p : DirPtr} (hp : getDirectoryByInode s d = some p) (i : Fin maxInodes) :
    directoryAddEntry s.data p name i = some (withEntry s.data d name i) := by
  show ((s.data.dirs p.inode).addEntry name i).map (s.data.setDir p.inode) = _
  have hany : ¬ (s.data.dirs d).any (fun e => e.name == name) = true := by
    have := h.free
    simpa [Directory.entryNamed] using this
  have h1 := h.nonempty
  have h2 := h.short
  have h3 := h.room
  rw [(getDirectoryByInode_some hp).2, Directory.addEntry, if_neg (by omega), if_neg (by omega),
    if_neg hany, Directory.u32_of_lt_maxInodes i.isLt]
  rfl

/-- `fs_create_hard_link` to a file under a name that can be added
succeeds. -/
theorem fsCreateHardLink_file (c : Ctx) {s : Fs Attached} (hs : Sound s)
    {source dest name : CStr} {src d : Fin maxInodes} {p : DirPtr}
    (hr : resolve s source = .ok src) (hty : (s.inodes src).inodeType ≠ .dir)
    (hp : resolveParent s dest = .ok (d, name)) (hdir : getDirectoryByInode s d = some p)
    (hadd : CanAdd s d name) :
    ∃ s' t, Same s' s ∧ fsCreateHardLink c s source dest = .ok (0, t) ∧
      t = inodeIncrementLinks src { s' with data := withEntry s'.data d name src } := by
  obtain ⟨s1, h1, hsame1⟩ := fsResolvePath_eq c hs.dirs source
  obtain ⟨s2, h2, hsame2⟩ := fsResolveParent_eq c (hs.dirs.same hsame1.symm) dest
  have hsame : Same s2 s := hsame2.trans hsame1
  have hty1 : (s1.inodes src).inodeType ≠ .dir := by
    rw [hsame1.apply (fun s => (s.inodes src).inodeType) (fun _ => rfl)]
    exact hty
  have hdir2 : getDirectoryByInode s2 d = some p :=
    (hsame.apply (fun s => getDirectoryByInode s d) (fun _ => rfl)).trans hdir
  have hadd2 := hadd.same hsame.symm
  have hlook := hadd2.lookup hdir2
  have hentry := hadd2.addEntry hdir2 src
  refine ⟨s2, _, hsame, ?_, rfl⟩
  rw [fsCreateHardLink, h1, hr]
  simp only [if_neg hty1, h2, resolveParent_same hsame1, hp, createHardLinkIn, hdir2, hlook,
    hentry]
  rw [if_neg (by simp [hadd2.isDir]), if_neg (by decide)]

/-! ## One step -/

/-- Everything a step can do. -/
theorem step_effect {c : Ctx} {s t : Fs Attached} (hs : Sound s) {op : Op} {r : Int}
    (h : step c s op = .ok (r, t)) : HasEffect c s op r t := by
  cases op with
  | createFile path mode => exact fsCreateFile_effect c hs h
  | readFile path size offset =>
      obtain ⟨out, h'⟩ := codeOnly_ok h
      exact .of_same (fsReadFile_same h') _ _
  | writeFile path buffer offset append => exact fsWriteFile_effect c hs h
  | deleteFile path => exact fsDeleteFile_effect c hs h
  | createDirectory path mode name => exact fsCreateDirectory_effect c hs h
  | listDirectory path =>
      obtain ⟨out, h'⟩ := codeOnly_ok h
      exact .of_same (fsListDirectory_same h') _ _
  | removeDirectory path => exact fsRemoveDirectory_effect c hs h
  | statistics path =>
      obtain ⟨out, h'⟩ := codeOnly_ok h
      exact .of_same (fsStatistics_same h') _ _
  | createSymlink target linkpath => exact fsCreateSymlink_effect c hs h
  | readSymlink path size =>
      obtain ⟨out, h'⟩ := codeOnly_ok h
      exact .of_same (fsReadSymlink_same h') _ _
  | createHardLink source dest => exact fsCreateHardLink_effect c hs h
  | changeMode path mode => exact fsChangeMode_effect c hs h
  | changeOwner path uid gid => exact fsChangeOwner_effect c hs h
  | truncate path size => exact fisopfsTruncate_effect c hs h
  | utimens path atime mtime => exact .of_same (fisopfsUtimens_same h) _ _

end SistemasOperativos.FileSystem
