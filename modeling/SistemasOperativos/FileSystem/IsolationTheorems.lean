/-
SistemasOperativos.FileSystem.IsolationTheorems — directories and file
contents in the one array `data_block`.

A directory has one block of 4096 bytes and its `directory_t` has 36868.
The root's reaches from block 0 into block 9, so the first block the
allocator hands out, block 1, lies inside it. Contents and directories
are apart as long as no operation asks for a block, and the first file or
directory that is created ends that, whatever its name.
-/
import SistemasOperativos.FileSystem.FlatTheorems
import SistemasOperativos.FileSystem.PathTheorems
import SistemasOperativos.FileSystem.InodeTheorems

namespace SistemasOperativos.FileSystem

/-! ## The specification -/

/-- The bytes of the `directory_t` at `p`. -/
def InDirectory (p : DirPtr) (a : Nat) : Prop :=
  Flat.base p ≤ a ∧ a < Flat.base p + directorySize

/-- Every `directory_t` lies inside `data_block` and holds no byte of a
block of another inode. -/
structure Isolated (s : Fs Flat) : Prop where
  inside : ∀ d p, getDirectoryByInode s d = some p →
    Flat.base p + directorySize ≤ maxBlocks * blockSize
  apart : ∀ d p, getDirectoryByInode s d = some p → ∀ j, j ≠ d → ∀ k b, slot s j k = some b →
    ∀ a, InDirectory p a → a / blockSize ≠ b

/-- `path` is the entry `name` of the directory at `p`, for inode `i`. -/
def EntryOf (c : Ctx) (s : Fs Flat) (path : CStr) (p : DirPtr) (name : CStr)
    (i : Fin maxInodes) : Prop :=
  ∃ d t, fsResolveParent c s path = .ok (.ok (d, name), t) ∧
    getDirectoryByInode s d = some p ∧ directoryLookup s.data p name = ((i : Nat) : Int)

theorem EntryOf.unique {c : Ctx} {s : Fs Flat} {path : CStr} {p p' : DirPtr} {name name' : CStr}
    {i i' : Fin maxInodes} (h : EntryOf c s path p name i) (h' : EntryOf c s path p' name' i') :
    p' = p ∧ name' = name ∧ i' = i := by
  obtain ⟨d, t, hp, hdir, hlook⟩ := h
  obtain ⟨d', t', hp', hdir', hlook'⟩ := h'
  rw [hp, Except.ok.injEq, Prod.mk.injEq, Except.ok.injEq, Prod.mk.injEq] at hp'
  obtain ⟨⟨rfl, rfl⟩, -⟩ := hp'
  rw [hdir, Option.some.injEq] at hdir'
  subst hdir'
  rw [hlook] at hlook'
  exact ⟨rfl, rfl, Fin.ext (by exact_mod_cast hlook'.symm)⟩

/-- The path of an operation that creates or removes an entry. -/
def Op.entryPath : Op → Option CStr
  | .createFile path _ => some path
  | .deleteFile path => some path
  | .createDirectory path _ _ => some path
  | .removeDirectory path => some path
  | _ => none

/-- What a step may do to directories and contents. -/
structure KeepsApart (c : Ctx) (s : Fs Flat) (op : Op) (t : Fs Flat) : Prop where
  write : ∀ path buffer offset append p name i,
    op = .writeFile path buffer offset append → EntryOf c s path p name i →
    (s.inodes i).inodeType ≠ .dir → ∀ d q, getDirectoryByInode s d = some q →
    Flat.entries t.bytes q = Flat.entries s.bytes q
  truncate : ∀ path size i t', op = .truncate path size →
    fsResolvePath c s path = .ok (.ok i, t') → (s.inodes i).inodeType ≠ .dir →
    ∀ d q, getDirectoryByInode s d = some q →
    Flat.entries t.bytes q = Flat.entries s.bytes q
  delete : ∀ path p name i, op = .deleteFile path → EntryOf c s path p name i →
    (s.inodes i).inodeType ≠ .dir → ∀ d q, getDirectoryByInode s d = some q →
    Flat.entries t.bytes q = Flat.entries s.bytes q ∨
      q = p ∧ ∃ j, Flat.find s.bytes p name = some j ∧
        Flat.entries t.bytes q = (Flat.entries s.bytes q).eraseIdx j
  contents : ∀ path j, op.entryPath = some path → (s.inodes j).inodeType = .file →
    (∀ p name, ¬ EntryOf c s path p name j) → ∀ k b, slot s j k = some b →
    ∀ a, a / blockSize = b → t.bytes a = s.bytes a

/-- The six operations. -/
def Op.basic : Op → Bool
  | .createFile _ _ => true
  | .writeFile _ _ _ _ => true
  | .deleteFile _ => true
  | .createDirectory _ _ _ => true
  | .removeDirectory _ => true
  | .truncate _ _ => true
  | _ => false

/-- The parent is a directory that does not have the name. -/
def MissingName (s : Fs Flat) (path : CStr) : Prop :=
  ∃ c d name t p, fsResolveParent c s path = .ok (.ok (d, name), t) ∧
    getDirectoryByInode s d = some p ∧ directoryLookup s.data p name < 0

/-- `op` asks the allocator for a block: it creates a name that is not
there, or it writes to a position whose slot is empty. -/
def NeedsBlock (s : Fs Flat) : Op → Prop
  | .createFile path _ => MissingName s path
  | .createDirectory path _ _ => MissingName s path
  | .writeFile path buffer offset append =>
      ∃ c p name i k, EntryOf c s path p name i ∧
        toSize (if append then (s.inodes i).fileSizeBytes else offset) / blockSize ≤ k ∧
        k * blockSize
          < toSize (if append then (s.inodes i).fileSizeBytes else offset) + buffer.length ∧
        k < numDirectBlocks ∧ slot s i k = none
  | _ => False

/-! ## Before the first block -/

/-- Only the root has a block, and it is block 0. -/
structure RootOnly (s : Fs Flat) : Prop where
  slots : ∀ i k b, slot s i k = some b →
    i = 0 ∧ k = 0 ∧ b = 0 ∧ (s.inodes 0).inodeType = .dir ∧ s.intmap.blocks 0 = true
  dirs : ∀ i, (s.inodes i).inodeType = .dir → i = 0 ∧ s.intmap.inodes 0 = true
  blocks : ∀ b, s.intmap.blocks b = true → b = 0
  count : Flat.count s.bytes ⟨0, 0⟩ ≤ 2
  size : s.superblock.blockSizeBytes = blockSize

theorem RootOnly.same {s t : Fs Flat} (h : Same s t) (hs : RootOnly s) : RootOnly t :=
  (h.apply RootOnly (fun _ => propext
    ⟨fun ⟨a, b, c, d, e⟩ => ⟨a, b, c, d, e⟩, fun ⟨a, b, c, d, e⟩ => ⟨a, b, c, d, e⟩⟩)).mp hs

theorem RootOnly.init (c : Ctx) : RootOnly (fsInit c) where
  slots := by
    intro i k b hk
    rw [slot, getDirectBlock_eq_some] at hk
    by_cases hi : i = 0
    · subst hi
      by_cases h0 : k = 0
      · subst h0
        simp only [fsInit, Function.update_self, Option.some.injEq] at hk
        exact ⟨rfl, rfl, hk.2.symm, rfl, by simp [fsInit, setInodeUsed, setBlockUsed]⟩
      · simp [fsInit, h0] at hk
    · simp [fsInit, hi, inodeInit] at hk
  dirs := by
    intro i hi
    by_cases h : i = 0
    · exact ⟨h, by simp [fsInit, setInodeUsed]⟩
    · simp [fsInit, h, inodeInit] at hi
  blocks := by
    intro b hb
    by_contra hne
    simp [fsInit, setInodeUsed, setBlockUsed, intmapInit, hne] at hb
  count := by
    show Flat.count (Flat.init (fun _ => 0) ⟨0, 0⟩) ⟨0, 0⟩ ≤ 2
    decide +kernel
  size := rfl

/-- Giving blocks, bits and directories back. -/
theorem RootOnly.shrink {s t : Fs Flat} (h : RootOnly s)
    (hslot : ∀ i k b, slot t i k = some b → slot s i k = some b ∧
      (t.inodes 0).inodeType = .dir ∧ t.intmap.blocks 0 = true)
    (hdir : ∀ i, (t.inodes i).inodeType = .dir → (s.inodes i).inodeType = .dir ∧
      t.intmap.inodes 0 = true)
    (hblocks : ∀ b, t.intmap.blocks b = true → s.intmap.blocks b = true)
    (hcount : Flat.count t.bytes ⟨0, 0⟩ ≤ 2)
    (hsize : t.superblock.blockSizeBytes = s.superblock.blockSizeBytes) : RootOnly t where
  slots := by
    intro i k b hk
    obtain ⟨hs, hty, hb⟩ := hslot i k b hk
    obtain ⟨h1, h2, h3, -⟩ := h.slots i k b hs
    exact ⟨h1, h2, h3, hty, hb⟩
  dirs := fun i hi => ⟨(h.dirs i (hdir i hi).1).1, (hdir i hi).2⟩
  blocks := fun b hb => h.blocks b (hblocks b hb)
  count := hcount
  size := by rw [hsize, h.size]

theorem RootOnly.slot_ne {s : Fs Flat} (h : RootOnly s) {i : Fin maxInodes}
    (hi : (s.inodes i).inodeType ≠ .dir) (k : Nat) : slot s i k = none := by
  cases hk : slot s i k with
  | none => rfl
  | some b =>
      obtain ⟨rfl, -, -, hty, -⟩ := h.slots i k b hk
      exact absurd hty hi

/-- The only directory there can be. -/
theorem RootOnly.dir {s : Fs Flat} (h : RootOnly s) {d : Fin maxInodes} {p : DirPtr}
    (hp : getDirectoryByInode s d = some p) :
    d = 0 ∧ p = ⟨0, 0⟩ ∧ slot s 0 0 = some 0 ∧ (s.inodes 0).inodeType = .dir := by
  unfold getDirectoryByInode at hp
  split at hp
  · cases hp
  · rename_i hty
    obtain rfl := (h.dirs d (not_not.mp hty)).1
    rw [Option.map_eq_some_iff] at hp
    obtain ⟨b, hb, rfl⟩ := hp
    obtain ⟨k, -, hk⟩ := List.exists_of_findSome?_eq_some hb
    obtain ⟨-, rfl, rfl, -⟩ := h.slots 0 k b hk
    exact ⟨rfl, rfl, hk, not_not.mp hty⟩

theorem RootOnly.isolated {s : Fs Flat} (h : RootOnly s) : Isolated s where
  inside := by
    intro d p hp
    obtain ⟨-, rfl, -⟩ := h.dir hp
    decide
  apart := by
    intro d p hp j hj k b hk
    obtain ⟨rfl, -⟩ := h.dir hp
    exact absurd (h.slots j k b hk).1 hj

/-- A store into an inode that keeps its type and slots. -/
theorem RootOnly.modifyInode {s : Fs Flat} (h : RootOnly s) (i : Fin maxInodes)
    {f : Inode → Inode} (hty : ∀ n, (f n).inodeType = n.inodeType)
    (hptr : ∀ n, (f n).directBlockPtrs = n.directBlockPtrs) : RootOnly (s.modifyInode i f) := by
  have hino : ∀ j, ((s.modifyInode i f).inodes j).inodeType = (s.inodes j).inodeType ∧
      ((s.modifyInode i f).inodes j).directBlockPtrs = (s.inodes j).directBlockPtrs := by
    intro j
    by_cases hj : j = i
    · subst hj
      simp [Fs.modifyInode, hty, hptr]
    · simp [Fs.modifyInode, hj]
  have hslot : ∀ j k, slot (s.modifyInode i f) j k = slot s j k := by
    intro j k
    rw [slot, slot, inodeGetDirectBlock, inodeGetDirectBlock, (hino j).2]
  refine h.shrink ?_ ?_ (fun _ hb => hb) h.count rfl
  · intro j k b hk
    rw [hslot] at hk
    obtain ⟨-, -, -, hdir, hb⟩ := h.slots j k b hk
    exact ⟨hk, by rw [(hino 0).1, hdir], hb⟩
  · intro j hj
    rw [(hino j).1] at hj
    exact ⟨hj, (h.dirs j hj).2⟩

/-- Bytes outside the root's `entry_count` do not matter. -/
theorem RootOnly.setBytes {s : Fs Flat} (h : RootOnly s) {m : Memory}
    (hm : ∀ a, blockSize ≤ a → m a = s.bytes a) : RootOnly (s.setBytes m) := by
  refine h.shrink (fun i k b hk => ⟨hk, (h.slots i k b hk).2.2.2⟩)
    (fun i hi => ⟨hi, (h.dirs i hi).2⟩) (fun _ hb => hb) ?_ rfl
  show loadU32 m _ ≤ 2
  have hsame : loadU32 m (Flat.countAddr ⟨0, 0⟩) = loadU32 s.bytes (Flat.countAddr ⟨0, 0⟩) := by
    simp only [loadU32, Flat.countAddr, Flat.base]
    rw [hm _ (by decide), hm _ (by decide), hm _ (by decide), hm _ (by decide)]
  rw [hsame]
  exact h.count

/-! ## Slot loops on inodes without blocks -/

theorem foldl_releaseSlot_empty (i : Fin maxInodes) (s : Fs Flat)
    (h : ∀ k, slot s i k = none) (ks : List Nat) : ks.foldl (releaseSlot i) s = s := by
  induction ks with
  | nil => rfl
  | cons k ks ih =>
      have hk : inodeGetDirectBlock (s.inodes i) k = none := h k
      rw [List.foldl_cons, releaseSlot, hk]
      exact ih

/-- The release loop on the root: block 0, if it still has it. -/
theorem RootOnly.releaseBlocks {s : Fs Flat} (h : RootOnly s) (i : Fin maxInodes) :
    RootOnly (releaseBlocks i s) ∧
      ((s.inodes i).inodeType ≠ .dir → releaseBlocks i s = s) := by
  constructor
  · by_cases hempty : ∀ k, slot s i k = none
    · rw [FileSystem.releaseBlocks, foldl_releaseSlot_empty i s hempty]
      exact h
    · rw [not_forall] at hempty
      obtain ⟨k, hk⟩ := hempty
      obtain ⟨b, hb⟩ := Option.ne_none_iff_exists'.mp hk
      obtain ⟨rfl, rfl, rfl, hty, hused⟩ := h.slots i k b hb
      have hget : inodeGetDirectBlock (s.inodes 0) 0 = some 0 := hb
      set t := releaseSlot 0 s 0 with ht
      have hself : ∀ j, slot t 0 j = none := by
        intro j
        rw [ht, releaseSlot, hget, slot, inodeGetDirectBlock]
        by_cases hj : j ≥ numDirectBlocks
        · rw [if_pos hj]
        · rw [if_neg hj]
          by_cases h0 : j = 0
          · subst h0
            simp [setPtr, Fs.modifyInode]
          · cases hs : slot s 0 j with
            | some b' => exact absurd (h.slots 0 j b' hs).2.1 h0
            | none =>
                rw [slot, inodeGetDirectBlock, if_neg hj] at hs
                simp [setPtr, Fs.modifyInode, incFreeBlocks, Fs.setBytes, h0, hs]
      have hloop : FileSystem.releaseBlocks 0 s = t := by
        rw [FileSystem.releaseBlocks,
          show List.range numDirectBlocks = 0 :: List.range' 1 11 from rfl, List.foldl_cons]
        exact foldl_releaseSlot_empty 0 t hself _
      rw [hloop]
      have hclear : clearBlockUsed s.intmap 0
          = { s.intmap with blocks := Function.update s.intmap.blocks 0 false } := rfl
      refine h.shrink ?_ ?_ ?_ ?_ ?_
      · intro j l b' hb'
        by_cases hj : j = 0
        · subst hj
          rw [hself] at hb'
          cases hb'
        · have hsame : slot t j l = slot s j l := by
            rw [ht, releaseSlot, hget]
            simp [slot, setPtr, Fs.modifyInode, incFreeBlocks, Fs.setBytes, hj]
          rw [hsame] at hb'
          exact absurd (h.slots j l b' hb').1 hj
      · intro j hj
        have htype : (t.inodes j).inodeType = (s.inodes j).inodeType := by
          rw [ht, releaseSlot, hget]
          by_cases hj0 : j = 0
          · subst hj0
            simp [setPtr, Fs.modifyInode, incFreeBlocks, Fs.setBytes]
          · simp [setPtr, Fs.modifyInode, incFreeBlocks, Fs.setBytes, hj0]
        rw [htype] at hj
        refine ⟨hj, ?_⟩
        rw [ht, releaseSlot, hget]
        exact (h.dirs j hj).2
      · intro b' hb'
        rw [ht, releaseSlot, hget] at hb'
        simp only [setPtr, Fs.modifyInode, incFreeBlocks, Fs.setBytes, hclear] at hb'
        by_cases hb0 : b' = 0
        · subst hb0
          exact hused
        · simpa [hb0] using hb'
      · rw [ht, releaseSlot, hget]
        refine (h.setBytes (m := memset s.bytes (blockAddr 0 0) 0 blockSize) ?_).count
        intro a ha
        refine if_neg ?_
        rw [blockAddr]
        omega
      · rw [ht, releaseSlot, hget]
        rfl
  · intro hty
    rw [FileSystem.releaseBlocks, foldl_releaseSlot_empty i s (h.slot_ne hty)]

/-! ## Steps that ask for no block -/

theorem same_getDirectory {s t : Fs Flat} (h : Same s t) (d : Fin maxInodes) :
    getDirectoryByInode t d = getDirectoryByInode s d :=
  (h.apply (fun s => getDirectoryByInode s d) (fun _ => rfl)).symm

theorem same_data {s t : Fs Flat} (h : Same s t) : t.data = s.data :=
  (h.apply (fun s => s.data) (fun _ => rfl)).symm

/-- A step that stores nothing in `data_block`. -/
theorem keepsApart_of_bytes {c : Ctx} {s t : Fs Flat} {op : Op} (h : t.bytes = s.bytes) :
    KeepsApart c s op t where
  write := by
    intros
    rw [h]
  truncate := by
    intros
    rw [h]
  delete := by
    intros
    exact Or.inl (by rw [h])
  contents := by
    intros
    rw [h]

/-- Before the first block no file has contents. -/
theorem RootOnly.keepsApart {c : Ctx} {s t : Fs Flat} {op : Op} (h : RootOnly s)
    (hwrite : ∀ path buffer offset append, op = .writeFile path buffer offset append →
      ∀ p name i, EntryOf c s path p name i → (s.inodes i).inodeType ≠ .dir →
      t.bytes = s.bytes)
    (htruncate : ∀ path size, op = .truncate path size → ∀ i t',
      fsResolvePath c s path = .ok (.ok i, t') → (s.inodes i).inodeType ≠ .dir →
      t.bytes = s.bytes)
    (hdelete : ∀ path p name i, op = .deleteFile path → EntryOf c s path p name i →
      ∀ d q, getDirectoryByInode s d = some q →
      Flat.entries t.bytes q = Flat.entries s.bytes q ∨
        q = p ∧ ∃ j, Flat.find s.bytes p name = some j ∧
          Flat.entries t.bytes q = (Flat.entries s.bytes q).eraseIdx j) :
    KeepsApart c s op t where
  write := by
    intro path buffer offset append p name i heq hentry hfile d q _
    rw [hwrite path buffer offset append heq p name i hentry hfile]
  truncate := by
    intro path size i t' heq hres hfile d q _
    rw [htruncate path size heq i t' hres hfile]
  delete := fun path p name i heq hentry _ => hdelete path p name i heq hentry
  contents := by
    intro path j _ hfile _ k b hk
    rw [h.slot_ne (by rw [hfile]; decide)] at hk
    cases hk

theorem updateCtime_bytes (c : Ctx) (i : Fin maxInodes) (s : Fs Flat) :
    (inodeUpdateCtime c i s).bytes = s.bytes := rfl

theorem updateMtime_bytes (c : Ctx) (i : Fin maxInodes) (s : Fs Flat) :
    (inodeUpdateMtime c i s).bytes = s.bytes := rfl

/-- The outcome of a step that asks for no block. -/
abbrev Quiet (c : Ctx) (s : Fs Flat) (op : Op) (t : Fs Flat) : Prop :=
  RootOnly t ∧ KeepsApart c s op t

theorem quiet_of_same {c : Ctx} {s t : Fs Flat} {op : Op} (hs : RootOnly s) (h : Same s t) :
    Quiet c s op t := by
  refine ⟨hs.same h, keepsApart_of_bytes ?_⟩
  show t.data.bytes = s.data.bytes
  rw [same_data h]

theorem createFile_quiet {c : Ctx} {s t : Fs Flat} (hs : RootOnly s) {path : CStr} {mode : Nat}
    {r : Int} (hn : ¬ MissingName s path) (h : fsCreateFile c s path mode = .ok (r, t)) :
    Quiet c s (.createFile path mode) t := by
  unfold fsCreateFile at h
  split at h
  · cases h; exact quiet_of_same hs (Same.refl s)
  · split at h
    · cases h; exact quiet_of_same hs (Same.refl s)
    · split at h
      · cases h
      · rename_i hp
        cases h
        exact quiet_of_same hs (fsResolveParent_same hp)
      · rename_i d name s1 hp
        have hsame := fsResolveParent_same hp
        rw [Except.ok.injEq] at h
        unfold createFileIn at h
        split at h
        · cases h; exact quiet_of_same hs hsame
        · rename_i p hdir
          split at h
          · cases h; exact quiet_of_same hs hsame
          · rename_i hlook
            refine absurd ⟨c, d, name, s1, p, hp, ?_, ?_⟩ hn
            · rw [← same_getDirectory hsame, hdir]
            · rw [← same_data hsame]
              exact not_le.mp hlook

theorem createDirectory_quiet {c : Ctx} {s t : Fs Flat} (hs : RootOnly s) {path name : CStr}
    {mode : Nat} {r : Int} (hn : ¬ MissingName s path)
    (h : fsCreateDirectory c s path mode name = .ok (r, t)) :
    Quiet c s (.createDirectory path mode name) t := by
  unfold fsCreateDirectory at h
  split at h
  · cases h; exact quiet_of_same hs (Same.refl s)
  · split at h
    · cases h; exact quiet_of_same hs (Same.refl s)
    · split at h
      · cases h
      · rename_i hp
        cases h
        exact quiet_of_same hs (fsResolveParent_same hp)
      · rename_i d filename s1 hp
        have hsame := fsResolveParent_same hp
        rw [Except.ok.injEq] at h
        unfold createDirectoryIn at h
        split at h
        · cases h; exact quiet_of_same hs hsame
        · rename_i p hdir
          split at h
          · cases h; exact quiet_of_same hs hsame
          · rename_i hlook
            refine absurd ⟨c, d, filename, s1, p, hp, ?_, ?_⟩ hn
            · rw [← same_getDirectory hsame, hdir]
            · rw [← same_data hsame]
              exact not_le.mp hlook

/-- The copy loop when every slot it comes to is filled: it stays in
block 0 of the root, or it does nothing. -/
theorem writeLoop_quiet {s : Fs Flat} (hs : RootOnly s) (i : Fin maxInodes)
    (buffer : List UInt8) (pos : Nat)
    (hn : ∀ k, pos / blockSize ≤ k → k * blockSize < pos + buffer.length → k < numDirectBlocks →
      slot s i k ≠ none) :
    ∃ m, (writeLoop i buffer loopFuel s 0 pos).1 = s.setBytes m ∧
      (∀ a, blockSize ≤ a → m a = s.bytes a) ∧
      ((s.inodes i).inodeType ≠ .dir → m = s.bytes) := by
  have hidle : ∃ m, s = s.setBytes m ∧ (∀ a, blockSize ≤ a → m a = s.bytes a) ∧
      ((s.inodes i).inodeType ≠ .dir → m = s.bytes) :=
    ⟨s.bytes, rfl, fun _ _ => rfl, fun _ => rfl⟩
  rw [writeLoop]
  by_cases hlt : 0 < buffer.length
  · rw [if_pos hlt]
    simp only [hs.size]
    by_cases hidx : pos / blockSize ≥ numDirectBlocks
    · rw [if_pos hidx]
      exact hidle
    · rw [if_neg hidx]
      have hpos := Nat.div_add_mod' pos blockSize
      obtain ⟨b, hb⟩ := Option.ne_none_iff_exists'.mp
        (hn (pos / blockSize) (Nat.le_refl _) (by omega) (by omega))
      obtain ⟨rfl, hk, rfl, hty, -⟩ := hs.slots i _ b hb
      have hsmall : pos < blockSize := (Nat.div_eq_zero_iff_lt (by decide)).mp hk
      -- a second block would have to be there, and it is not
      have hfit : pos + buffer.length ≤ blockSize := by
        by_contra hmore
        obtain ⟨b', hb'⟩ := Option.ne_none_iff_exists'.mp
          (hn 1 (by omega) (by omega) (by decide))
        exact absurd (hs.slots 0 1 b' hb').2.1 (by decide)
      have hblock : blockForWrite s 0 (pos / blockSize) = some (0, s) := by
        have hget : inodeGetDirectBlock (s.inodes 0) (pos / blockSize) = some 0 := hb
        rw [blockForWrite, hget]
      have hmod : pos % blockSize = pos := Nat.mod_eq_of_lt hsmall
      simp only [hblock, hs.size, hmod, Nat.sub_zero, Nat.zero_add, List.drop_zero]
      rw [if_neg (by omega), List.take_length, writeLoop, if_neg (Nat.lt_irrefl _)]
      refine ⟨_, rfl, fun a ha => ?_, fun h => absurd hty h⟩
      refine if_neg ?_
      rw [blockAddr]
      omega
  · rw [if_neg hlt]
    exact hidle

theorem writeFile_quiet {c : Ctx} {s t : Fs Flat} (hs : RootOnly s) {path : CStr}
    {buffer : List UInt8} {offset : Int} {append : Bool} {r : Int}
    (hn : ¬ NeedsBlock s (.writeFile path buffer offset append))
    (h : fsWriteFile c s path buffer offset append = .ok (r, t)) :
    Quiet c s (.writeFile path buffer offset append) t := by
  unfold fsWriteFile at h
  split at h
  · cases h; exact quiet_of_same hs (Same.refl s)
  · split at h
    · cases h
    · rename_i hp
      cases h
      exact quiet_of_same hs (fsResolveParent_same hp)
    · rename_i d name s1 hp
      have hsame := fsResolveParent_same hp
      split at h
      · cases h; exact quiet_of_same hs hsame
      · rename_i p hdir
        split at h
        · cases h; exact quiet_of_same hs hsame
        · split at h
          · cases h
          · rename_i i hat
            have hentry : EntryOf c s path p name i := by
              refine ⟨d, s1, hp, by rw [← same_getDirectory hsame, hdir], ?_⟩
              rw [← same_data hsame]
              exact inodeAt_ok hat
            have hs1 := hs.same hsame
            have hsize : (s1.inodes i).fileSizeBytes = (s.inodes i).fileSizeBytes :=
              (hsame.apply (fun s => (s.inodes i).fileSizeBytes) (fun _ => rfl)).symm
            have hslot : ∀ k, slot s1 i k = slot s i k := fun k =>
              (hsame.apply (fun s => slot s i k) (fun _ => rfl)).symm
            have hty : (s1.inodes i).inodeType = (s.inodes i).inodeType :=
              (hsame.apply (fun s => (s.inodes i).inodeType) (fun _ => rfl)).symm
            obtain ⟨m, hloop, hm, hreg⟩ := writeLoop_quiet hs1 i buffer
              (toSize (if append then (s1.inodes i).fileSizeBytes else offset)) (by
                intro k h1 h2 h3 h4
                rw [hsize] at h1 h2
                exact hn ⟨c, p, name, i, k, hentry, h1, h2, h3, by rw [← hslot, h4]⟩)
            rw [Except.ok.injEq] at h
            unfold writeFileAt at h
            dsimp only at h
            obtain ⟨-, rfl⟩ := Prod.mk.inj h
            rw [hloop]
            have hroot : RootOnly (s1.setBytes m) := hs1.setBytes hm
            constructor
            · refine RootOnly.modifyInode ?_ i (fun _ => rfl) (fun _ => rfl)
              refine RootOnly.modifyInode ?_ i (fun _ => rfl) (fun _ => rfl)
              refine RootOnly.modifyInode ?_ i (fun _ => rfl) (fun _ => rfl)
              generalize (writeLoop i buffer loopFuel s1 0
                (toSize (if append then (s1.inodes i).fileSizeBytes else offset))).2.2 = pos
              refine hroot.modifyInode i (fun n => ?_) (fun n => ?_)
              · split <;> rfl
              · split <;> rfl
            · have hbytes : (s.inodes i).inodeType ≠ .dir → m = s.bytes := by
                intro hfile
                rw [hreg (by rw [hty]; exact hfile)]
                show s1.data.bytes = s.data.bytes
                rw [same_data hsame]
              refine hs.keepsApart ?_ (fun _ _ heq => by cases heq)
                (fun _ _ _ _ heq => by cases heq)
              intro path' buffer' offset' append' heq p' name' i' hentry' hfile
              obtain ⟨rfl, -⟩ := Op.writeFile.inj heq
              obtain ⟨-, -, rfl⟩ := hentry.unique hentry'
              exact hbytes hfile

/-- Taking an entry out of the root. -/
theorem RootOnly.removeEntry {s : Fs Flat} (h : RootOnly s) {name : CStr} {m : Memory}
    (hm : Flat.removeEntry s.bytes ⟨0, 0⟩ name = some m) : RootOnly { s with data := ⟨m⟩ } := by
  refine h.shrink (fun i k b hk => ⟨hk, (h.slots i k b hk).2.2.2⟩)
    (fun i hi => ⟨hi, (h.dirs i hi).2⟩) (fun _ hb => hb) ?_ rfl
  have hcount := h.count
  have hlt := Flat.count_removeEntry (by simp only [maxBlocks]; omega) hm
  show Flat.count m ⟨0, 0⟩ ≤ 2
  omega

/-- Giving the inode of a file back. -/
theorem RootOnly.freeFile {s : Fs Flat} (h : RootOnly s) (c : Ctx) {i : Fin maxInodes}
    (hi : i ≠ 0) : RootOnly (incFreeInodes
      (({ s with intmap := clearInodeUsed s.intmap i } : Fs Flat).modifyInode i
        (fun _ => inodeInit c))) := by
  refine h.shrink ?_ ?_ (fun _ hb => hb) h.count rfl
  · intro j k b hk
    by_cases hj : j = i
    · subst hj
      simp [slot, incFreeInodes, Fs.modifyInode, getDirectBlock_inodeInit] at hk
    · have hs : slot s j k = some b := by
        simpa [slot, incFreeInodes, Fs.modifyInode, hj] using hk
      obtain ⟨-, -, -, hty, hb⟩ := h.slots j k b hs
      refine ⟨hs, ?_, hb⟩
      simpa [incFreeInodes, Fs.modifyInode, hi.symm] using hty
  · intro j hj
    by_cases hji : j = i
    · subst hji
      simp [incFreeInodes, Fs.modifyInode, inodeInit] at hj
    · have hs : (s.inodes j).inodeType = .dir := by
        simpa [incFreeInodes, Fs.modifyInode, hji] using hj
      refine ⟨hs, ?_⟩
      simpa [incFreeInodes, clearInodeUsed, hi.symm] using (h.dirs j hs).2

theorem deleteFile_quiet {c : Ctx} {s t : Fs Flat} (hs : RootOnly s) {path : CStr} {r : Int}
    (h : fsDeleteFile c s path = .ok (r, t)) : Quiet c s (.deleteFile path) t := by
  unfold fsDeleteFile at h
  split at h
  · cases h
  · rename_i hp
    cases h
    exact quiet_of_same hs (fsResolveParent_same hp)
  · rename_i d name s1 hp
    have hsame := fsResolveParent_same hp
    have hs1 := hs.same hsame
    split at h
    · cases h; exact quiet_of_same hs hsame
    · rename_i p hdir
      split at h
      · cases h; exact quiet_of_same hs hsame
      · split at h
        · cases h
        · rename_i i hat
          have hentry : EntryOf c s path p name i := by
            refine ⟨d, s1, hp, by rw [← same_getDirectory hsame, hdir], ?_⟩
            rw [← same_data hsame]
            exact inodeAt_ok hat
          rw [Except.ok.injEq] at h
          unfold deleteFileIn at h
          split at h
          · cases h; exact quiet_of_same hs hsame
          · rename_i hkind
            split at h
            · cases h; exact quiet_of_same hs hsame
            · rename_i data hrem
              obtain ⟨m, hm, rfl⟩ := Option.map_eq_some_iff.mp hrem
              obtain ⟨-, rfl, -, hroot⟩ := hs1.dir hdir
              have hreg : (s1.inodes i).inodeType ≠ .dir := by
                intro hty
                simp [hty] at hkind
              have hi : i ≠ 0 := by
                rintro rfl
                exact hreg hroot
              have hrm := (hs1.removeEntry hm).modifyInode i
                (f := fun n => { n with hardLinksCount := u16Dec n.hardLinksCount })
                (fun _ => rfl) (fun _ => rfl)
              have hloop := hrm.releaseBlocks i |>.2 (by simpa [Fs.modifyInode] using hreg)
              dsimp only at h
              obtain ⟨-, rfl⟩ := Prod.mk.inj h
              have hbytes : s1.bytes = s.bytes := by
                show s1.data.bytes = s.data.bytes
                rw [same_data hsame]
              constructor
              · refine RootOnly.modifyInode ?_ _ (fun _ => rfl) (fun _ => rfl)
                refine RootOnly.modifyInode ?_ _ (fun _ => rfl) (fun _ => rfl)
                split
                · rw [inodeDecrementLinks, hloop]
                  exact hrm.freeFile c hi
                · exact hrm
              · replace hm : Flat.removeEntry s1.bytes ⟨0, 0⟩ name = some m := hm
                rw [hbytes] at hm
                have hdata : ∀ u : Fs Flat, u.bytes = m →
                    KeepsApart c s (.deleteFile path) u := by
                  intro u hu
                  refine hs.keepsApart (fun _ _ _ _ heq => by cases heq)
                    (fun _ _ heq => by cases heq) ?_
                  intro path' p' name' i' heq hentry' e q hq
                  obtain rfl := Op.deleteFile.inj heq
                  obtain ⟨rfl, rfl, -⟩ := hentry.unique hentry'
                  obtain ⟨-, rfl, -⟩ := hs.dir hq
                  obtain ⟨j, hj, herase⟩ := Flat.entries_removeEntry
                    (Nat.le_trans hs.count (by decide)) hm
                  exact Or.inr ⟨rfl, j, hj, by rw [hu, herase]⟩
                refine hdata _ ?_
                rw [updateCtime_bytes, updateMtime_bytes]
                split
                · rw [inodeDecrementLinks, hloop]
                  rfl
                · rfl

/-- Freeing the root: afterwards there is no directory and no block. -/
theorem RootOnly.freeRoot {s : Fs Flat} (h : RootOnly s) (c : Ctx) :
    RootOnly (inodeFree c 0 s) := by
  have hbelow : SlotsBelow (s.inodes 0) := by
    intro k b hb
    obtain ⟨-, -, rfl, -⟩ := h.slots 0 k b hb
    decide
  rw [inodeFree_eq c s 0 hbelow]
  refine h.shrink ?_ ?_ ?_ h.count rfl
  · intro i k b hk
    by_cases hi : i = 0
    · subst hi
      simp [slot, getDirectBlock_inodeInit] at hk
    · have hs : slot s i k = some b := by simpa [slot, hi] using hk
      exact absurd (h.slots i k b hs).1 hi
  · intro i hty
    by_cases hi : i = 0
    · subst hi
      simp [inodeInit] at hty
    · simp only [ne_eq, hi, not_false_eq_true, Function.update_of_ne] at hty
      exact absurd (h.dirs i hty).1 hi
  · intro b hb
    simp only [clearInodeUsed, mapWithout, Bool.and_eq_true] at hb
    exact hb.1

theorem removeDirectory_quiet {c : Ctx} {s t : Fs Flat} (hs : RootOnly s) {path : CStr} {r : Int}
    (h : fsRemoveDirectory c s path = .ok (r, t)) : Quiet c s (.removeDirectory path) t := by
  have hapart : ∀ u : Fs Flat, KeepsApart c s (.removeDirectory path) u := fun u =>
    hs.keepsApart (fun _ _ _ _ heq => by cases heq) (fun _ _ heq => by cases heq)
      (fun _ _ _ _ heq => by cases heq)
  refine ⟨?_, hapart t⟩
  unfold fsRemoveDirectory at h
  split at h
  · cases h; exact hs
  · split at h
    · cases h; exact hs
    · split at h
      · cases h
      · rename_i res s1 hres
        have hs1 := hs.same (fsResolvePath_same hres)
        unfold resolvedOrFault at h
        split at h
        · rename_i i
          replace h : removeDirectoryAt c s1 path i = .ok (r, t) := h
          unfold removeDirectoryAt at h
          split at h
          · cases h; exact hs1
          · split at h
            · cases h; exact hs1
            · rename_i p hdir
              obtain ⟨rfl, -⟩ := hs1.dir hdir
              split at h
              · cases h; exact hs1
              · unfold removeDirectoryEntry at h
                split at h
                · cases h
                · rename_i hp
                  cases h
                  exact hs1.same (fsResolveParent_same hp)
                · rename_i d name s2 hp
                  have hs2 := hs1.same (fsResolveParent_same hp)
                  split at h
                  · cases h; exact hs2
                  · rename_i p2 hdir2
                    obtain ⟨-, rfl, -⟩ := hs2.dir hdir2
                    split at h
                    · cases h; exact hs2
                    · rename_i data hrem
                      obtain ⟨m, hm, rfl⟩ := Option.map_eq_some_iff.mp hrem
                      cases h
                      have hfree := (hs2.removeEntry hm).freeRoot c
                      have hnow := ((hfree.modifyInode 0
                        (f := fun n => { n with lastMetadataChangeTime := c.now })
                        (fun _ => rfl) (fun _ => rfl)).modifyInode d
                        (f := fun n => { n with lastMetadataChangeTime := c.now })
                        (fun _ => rfl) (fun _ => rfl)).modifyInode d
                        (f := fun n => { n with lastModificationTime := c.now })
                        (fun _ => rfl) (fun _ => rfl)
                      exact hnow.shrink (fun i k b hk => ⟨hk, (hnow.slots i k b hk).2.2.2⟩)
                        (fun i hi => ⟨hi, (hnow.dirs i hi).2⟩) (fun _ hb => hb) hnow.count rfl
        · split at h
          · cases h; exact hs1
          · cases h

theorem truncate_quiet {c : Ctx} {s t : Fs Flat} (hs : RootOnly s) {path : CStr} {size r : Int}
    (h : fisopfsTruncate c s path size = .ok (r, t)) : Quiet c s (.truncate path size) t := by
  unfold fisopfsTruncate at h
  split at h
  · cases h
  · rename_i hres
    cases h
    exact quiet_of_same hs (fsResolvePath_same hres)
  · rename_i i s1 hres
    have hsame := fsResolvePath_same hres
    have hs1 := hs.same hsame
    obtain ⟨hroot, hfile⟩ := hs1.releaseBlocks i
    cases h
    constructor
    · unfold truncateAt
      refine RootOnly.modifyInode ?_ i (fun _ => rfl) (fun _ => rfl)
      refine RootOnly.modifyInode ?_ i (fun _ => rfl) (fun _ => rfl)
      refine RootOnly.modifyInode ?_ i (fun _ => rfl) (fun _ => rfl)
      split
      · exact hroot
      · exact hs1
    · refine hs.keepsApart (fun _ _ _ _ heq => by cases heq) ?_ (fun _ _ _ _ heq => by cases heq)
      intro path' size' heq i' t' hres' hreg
      obtain ⟨rfl, rfl⟩ := Op.truncate.inj heq
      rw [hres, Except.ok.injEq, Prod.mk.injEq, Except.ok.injEq] at hres'
      obtain ⟨rfl, -⟩ := hres'
      have hty : (s1.inodes i).inodeType = (s.inodes i).inodeType :=
        (hsame.apply (fun s => (s.inodes i).inodeType) (fun _ => rfl)).symm
      have hbytes : s1.bytes = s.bytes := by
        show s1.data.bytes = s.data.bytes
        rw [same_data hsame]
      unfold truncateAt
      rw [updateCtime_bytes, updateMtime_bytes, hfile (by rw [hty]; exact hreg), ite_self]
      exact hbytes

/-- One step that asks for no block. -/
theorem step_quiet {c : Ctx} {s t : Fs Flat} (hs : RootOnly s) {op : Op} {r : Int}
    (hb : op.basic = true) (hn : ¬ NeedsBlock s op) (h : step c s op = .ok (r, t)) :
    Quiet c s op t := by
  cases op with
  | createFile path mode => exact createFile_quiet hs hn h
  | writeFile path buffer offset append => exact writeFile_quiet hs hn h
  | deleteFile path => exact deleteFile_quiet hs h
  | createDirectory path mode name => exact createDirectory_quiet hs hn h
  | removeDirectory path => exact removeDirectory_quiet hs h
  | truncate path size => exact truncate_quiet hs h
  | readFile path size offset => cases hb
  | listDirectory path => cases hb
  | statistics path => cases hb
  | createSymlink target linkpath => cases hb
  | readSymlink path size => cases hb
  | createHardLink source dest => cases hb
  | changeMode path mode => cases hb
  | changeOwner path uid gid => cases hb
  | utimens path atime mtime => cases hb

/-! ## The first block -/

/-- Block 1 starts 4096 bytes into the root's `directory_t`. -/
theorem not_isolated_of_block_one {t : Fs Flat} {i : Fin maxInodes} {k : Nat} (hi : i ≠ 0)
    (hdir : getDirectoryByInode t 0 = some ⟨0, 0⟩) (hslot : slot t i k = some 1) :
    ¬ Isolated t := by
  intro h
  refine h.apart 0 ⟨0, 0⟩ hdir i hi k 1 hslot blockSize ?_ (by decide)
  simp only [InDirectory, Flat.base]
  decide

/-- The allocator's first answer. -/
theorem RootOnly.findFreeBlock {s : Fs Flat} (h : RootOnly s) (h0 : s.intmap.blocks 0 = true)
    {b : Nat} (hb : findFreeBlock s.intmap = some b) : b = 1 := by
  rw [FileSystem.findFreeBlock, List.find?_range_eq_some] at hb
  obtain ⟨hfree, -, hused⟩ := hb
  by_contra hne
  have hpos : b ≠ 0 := by
    rintro rfl
    simp [h0] at hfree
  have hone := h.blocks 1 (by simpa using hused 1 (by omega))
  cases hone

/-- A new inode with its first block, seen from the root. -/
theorem RootOnly.first_block {s t : Fs Flat} (h : RootOnly s) {p : DirPtr}
    (hp : getDirectoryByInode s 0 = some p) {i : Fin maxInodes}
    (hfree : s.intmap.inodes i = false)
    {bm : Intmap} (hbm : bm.blocks = s.intmap.blocks) {b : Nat}
    (hb : FileSystem.findFreeBlock bm = some b)
    (hself : (t.inodes i).directBlockPtrs 0 = some b)
    (hty : (t.inodes 0).inodeType = (s.inodes 0).inodeType)
    (hptr : (t.inodes 0).directBlockPtrs = (s.inodes 0).directBlockPtrs) : ¬ Isolated t := by
  obtain ⟨-, rfl, hslot, hdir⟩ := h.dir hp
  have hi : i ≠ 0 := by
    rintro rfl
    rw [(h.dirs 0 hdir).2] at hfree
    cases hfree
  have hone : b = 1 := by
    refine h.findFreeBlock (h.slots 0 0 0 hslot).2.2.2.2 ?_
    rw [← hb, FileSystem.findFreeBlock, FileSystem.findFreeBlock, hbm]
  subst hone
  refine not_isolated_of_block_one hi (k := 0) ?_ ?_
  · have hget : inodeGetDirectBlock (t.inodes 0) = inodeGetDirectBlock (s.inodes 0) := by
      funext k
      rw [inodeGetDirectBlock, inodeGetDirectBlock, hptr]
    rw [← hp, getDirectoryByInode, getDirectoryByInode, hty, hget]
  · rw [slot, getDirectBlock_eq_some]
    exact ⟨by decide, hself⟩

theorem createFile_not_isolated {c : Ctx} {s t : Fs Flat} (hs : RootOnly s) {path : CStr}
    {mode : Nat} (h : fsCreateFile c s path mode = .ok (0, t)) : ¬ Isolated t := by
  unfold fsCreateFile at h
  split at h
  · cases h
  · split at h
    · cases h
    · split at h
      · cases h
      · cases h
      · rename_i d name s1 hp
        have hs1 := hs.same (fsResolveParent_same hp)
        rw [Except.ok.injEq] at h
        unfold createFileIn at h
        split at h
        · cases h
        · rename_i p hdir
          obtain rfl := (hs1.dir hdir).1
          split at h
          · cases h
          · split at h
            · cases h
            · rename_i i s2 halloc
              obtain ⟨hfree, rfl⟩ := allocateInode_some halloc
              have hi : i ≠ 0 := by
                rintro rfl
                rw [(hs1.dirs 0 (hs1.dir hdir).2.2.2).2] at hfree
                cases hfree
              dsimp only at h
              split at h
              · cases h
              · rename_i s3 hblock
                obtain ⟨b, hb, hadd⟩ := Option.bind_eq_some_iff.mp hblock
                rw [addDirectBlock_fresh (findFreeBlock_some hb).1
                  (by simp [Fs.modifyInode, decFreeInodes, inodeInit]), Option.some.injEq] at hadd
                subst hadd
                split at h
                · cases h
                · cases h
                  refine hs1.first_block hdir hfree ?_ hb ?_ ?_ ?_
                  · rfl
                  · simp [decFreeBlocks, putBlock, setPtr, Fs.modifyInode]
                  · simp [decFreeBlocks, decFreeInodes, putBlock, setPtr, Fs.modifyInode, hi.symm]
                  · simp [decFreeBlocks, decFreeInodes, putBlock, setPtr, Fs.modifyInode, hi.symm]

theorem createDirectory_not_isolated {c : Ctx} {s t : Fs Flat} (hs : RootOnly s)
    {path name : CStr} {mode : Nat} (h : fsCreateDirectory c s path mode name = .ok (0, t)) :
    ¬ Isolated t := by
  unfold fsCreateDirectory at h
  split at h
  · cases h
  · split at h
    · cases h
    · split at h
      · cases h
      · cases h
      · rename_i d filename s1 hp
        have hs1 := hs.same (fsResolveParent_same hp)
        rw [Except.ok.injEq] at h
        unfold createDirectoryIn at h
        split at h
        · cases h
        · rename_i p hdir
          obtain rfl := (hs1.dir hdir).1
          split at h
          · cases h
          · split at h
            · cases h
            · rename_i i s2 halloc
              obtain ⟨hfree, rfl⟩ := allocateInode_some halloc
              have hi : i ≠ 0 := by
                rintro rfl
                rw [(hs1.dirs 0 (hs1.dir hdir).2.2.2).2] at hfree
                cases hfree
              dsimp only at h
              split at h
              · cases h
              · rename_i b hb
                rw [addDirectBlock_fresh (findFreeBlock_some hb).1
                  (by simp [Fs.modifyInode, inodeIncrementLinks, decFreeInodes, inodeInit])] at h
                dsimp only at h
                split at h
                · cases h
                · cases h
                  refine hs1.first_block hdir hfree ?_ hb ?_ ?_ ?_
                  · rfl
                  · simp [inodeIncrementLinks, decFreeBlocks, putBlock, setPtr, Fs.modifyInode, hi]
                  · simp [inodeIncrementLinks, decFreeBlocks, decFreeInodes, putBlock, setPtr,
                      Fs.modifyInode, hi.symm]
                  · simp [inodeIncrementLinks, decFreeBlocks, decFreeInodes, putBlock, setPtr,
                      Fs.modifyInode, hi.symm]

/-! ## Isolation along runs -/

/-- Directories and contents are apart in every state of a run none of
whose steps asks for a block, and so is what the next such step does to
them. The step that creates the first file or directory puts a block
inside the root. -/
theorem isolation_until_first_block (u : User) {s t : Fs Flat} {now : Int} {op : Op} {r : Int}
    (hrun : Reachable u (fun s op _ => op.basic = true ∧ ¬ NeedsBlock s op) s)
    (hb : op.basic = true) (h : step (u.at now) s op = .ok (r, t)) :
    Isolated s ∧ (¬ NeedsBlock s op → Isolated t ∧ KeepsApart (u.at now) s op t) ∧
      (∀ path mode, op = .createFile path mode → r = 0 → ¬ Isolated t) ∧
      (∀ path mode name, op = .createDirectory path mode name → r = 0 → ¬ Isolated t) := by
  have hs : RootOnly s := hrun.invariant (fun now => RootOnly.init (u.at now))
    (fun hI hP hstep => (step_quiet hI hP.1 hP.2 hstep).1)
  refine ⟨hs.isolated, ?_, ?_, ?_⟩
  · intro hn
    obtain ⟨hroot, happart⟩ := step_quiet hs hb hn h
    exact ⟨hroot.isolated, happart⟩
  · rintro path mode rfl rfl
    exact createFile_not_isolated hs h
  · rintro path mode name rfl rfl
    exact createDirectory_not_isolated hs h

/-- After a step that asks for nothing, `/f` is created and gets block 1. -/
theorem isolation_lost_by_create :
    ∃ s t : Fs Flat, step (User.at ⟨0, 0⟩ 0) s (.createFile (cstr "/f") 0o644) = .ok (0, t) ∧
      Isolated s ∧ ¬ Isolated t := by
  have hrun : returns (step (User.at ⟨0, 0⟩ 0) (fsInit (User.at ⟨0, 0⟩ 0) : Fs Flat)
      (.truncate (cstr "/") 10)) 0 (fun s =>
        returns (step (User.at ⟨0, 0⟩ 0) s (.createFile (cstr "/f") 0o644)) 0
          (fun _ => true)) = true := by decide +kernel
  obtain ⟨s, hs, hnext⟩ := returns_true hrun
  obtain ⟨t, ht, -⟩ := returns_true hnext
  have hreach : Reachable ⟨0, 0⟩ (fun s op _ => op.basic = true ∧ ¬ NeedsBlock s op) s :=
    ⟨0, Relation.ReflTransGen.single ⟨0, _, 0, hs, rfl, fun h => h⟩⟩
  obtain ⟨hiso, -, hfile, -⟩ := isolation_until_first_block ⟨0, 0⟩ hreach rfl ht
  exact ⟨s, t, ht, hiso, hfile _ _ rfl rfl⟩

/-- `/f` is written one byte per block; its ninth block is block 9, where
the `entry_count` of the root is. -/
def overlapRun : List Op :=
  .createFile (cstr "/f") 0o644 ::
    (List.range 8).map (fun k => .writeFile (cstr "/f") [1] (k * 4096 : Nat) false)

/-- The write of the byte 77 at 32768 makes the root have 77 entries. -/
theorem root_count_overwritten :
    ¬ ∀ (u : User) (now : Int) (s t : Fs Flat) (op : Op) (r : Int),
      Reachable u (fun _ op _ => op.basic = true) s → op.basic = true →
      step (u.at now) s op = .ok (r, t) → KeepsApart (u.at now) s op t := by
  intro h
  let c := User.at ⟨0, 0⟩ 0
  let last := Op.writeFile (cstr "/f") [77] 32768 false
  have hrun : (runOps c (fsInit c : Fs Flat) overlapRun).toOption.map (fun s =>
      decide ((s.inodes 1).inodeType = .file) &&
      decide (getDirectoryByInode s 0 = some ⟨0, 0⟩) &&
      decide (directoryLookup s.data ⟨0, 0⟩ (cstr "f") = 1) &&
      decide (Flat.count s.bytes ⟨0, 0⟩ = 3) &&
      (fsResolveParent c s (cstr "/f")).toOption.any (fun r =>
        match r.1 with
        | .ok (d, name) => decide (d = 0 ∧ name = cstr "f")
        | .error _ => false) &&
      returns (step c s last) 1 (fun t => decide (Flat.count t.bytes ⟨0, 0⟩ = 77)))
      = some true := by decide +kernel
  obtain ⟨s, hs, hall⟩ := runOps_eval c _ _ _ _ hrun
  simp only [Bool.and_eq_true, decide_eq_true_eq] at hall
  obtain ⟨⟨⟨⟨⟨hfile, hdir⟩, hlook⟩, hcount⟩, hparent⟩, hlast⟩ := hall
  obtain ⟨t, ht, hafter⟩ := returns_true hlast
  have hentry : EntryOf c s (cstr "/f") ⟨0, 0⟩ (cstr "f") 1 := by
    cases hp : fsResolveParent c s (cstr "/f") with
    | error e => simp [hp, Except.toOption] at hparent
    | ok q =>
        obtain ⟨res, s'⟩ := q
        cases res with
        | error e => simp [hp, Except.toOption] at hparent
        | ok dn =>
            obtain ⟨d, name⟩ := dn
            obtain ⟨rfl, rfl⟩ : d = 0 ∧ name = cstr "f" := by
              simpa [hp, Except.toOption] using hparent
            exact ⟨0, s', hp, hdir, hlook⟩
  have hreach : Reachable ⟨0, 0⟩ (fun _ op _ => op.basic = true) s := by
    refine ⟨0, runOps_reaches ?_ hs⟩
    intro op hop _ _
    exact (by decide : ∀ op ∈ overlapRun, op.basic = true) op hop
  have hkeep := (h ⟨0, 0⟩ 0 s t last 1 hreach rfl ht).write _ _ _ _ _ _ _ rfl hentry
    (by rw [hfile]; decide) 0 ⟨0, 0⟩ hdir
  have hlen := congrArg List.length hkeep
  rw [Flat.entries, Flat.entries, List.length_map, List.length_map, List.length_range,
    List.length_range, hcount, of_decide_eq_true hafter] at hlen
  cases hlen

end SistemasOperativos.FileSystem
