/-
SistemasOperativos.FileSystem.SizeTheorems — the arithmetic of
`file_size_bytes`.

`fs_write_file` compares the position it stopped at with the size. When it
could write nothing, that position is the offset of the request, which may
be any 64-bit number, and its low 32 bits become the size. The results
here hold for any data area: sizes are kept in the inodes, and the
directories only decide which inode a path leads to.
-/
import SistemasOperativos.FileSystem.ResolverTheorems

namespace SistemasOperativos.FileSystem

variable {δ : Type}

/-! ## The specification -/

/-- The position a write starts at. -/
def writeFrom (s : Fs δ) (i : Fin maxInodes) (o : Nat) (append : Bool) : Nat :=
  if append then (s.inodes i).fileSizeBytes else o

/-- The size after a write that began at `o` and returned `n`. -/
def SizeRight (s t : Fs δ) (i : Fin maxInodes) (o n : Nat) : Prop :=
  (t.inodes i).fileSizeBytes
    = if n = 0 then (s.inodes i).fileSizeBytes else max (s.inodes i).fileSizeBytes (o + n)

/-- A write at `o` cannot store a single byte: there is no slot for the
block, or the slot is empty and no block is free. -/
def NothingFits (s : Fs δ) (i : Fin maxInodes) (o : Nat) : Prop :=
  numDirectBlocks ≤ o / blockSize ∨
    (slot s i (o / blockSize) = none ∧ findFreeBlock s.intmap = none)

/-- A write at `o` stores nothing and sets another size all the same. -/
def Overshoots (s : Fs δ) (i : Fin maxInodes) (o : Nat) : Prop :=
  NothingFits s i o ∧ (s.inodes i).fileSizeBytes < o ∧
    o % 4294967296 ≠ (s.inodes i).fileSizeBytes

/-- A write that does not overshoot; a truncation to a length that is
within the limit once it is cut to 32 bits; any other operation. -/
def KeepsSizes [DataArea δ] (s : Fs δ) : Op → Prop
  | .writeFile path _ offset append =>
      ∀ c i, ParentLeadsTo c s path i → ¬ Overshoots s i (writeFrom s i (toSize offset) append)
  | .truncate _ size => u32 (toSize size) ≤ numDirectBlocks * blockSize
  | _ => True

/-! ## What the sizes depend on -/

/-- The two sizes in the superblock, and size and type of every inode. -/
def Fs.sizes (s : Fs δ) : Nat × Nat × (Fin maxInodes → Nat × InodeType) :=
  (s.superblock.blockSizeBytes, s.superblock.maxFileSizeBytes,
    fun j => ((s.inodes j).fileSizeBytes, (s.inodes j).inodeType))

theorem Same.sizes {s t : Fs δ} (h : Same s t) : t.sizes = s.sizes :=
  (h.apply Fs.sizes (fun _ => rfl)).symm

theorem sizes_modifyInode (s : Fs δ) (i : Fin maxInodes) {f : Inode → Inode}
    (hsize : ∀ n, (f n).fileSizeBytes = n.fileSizeBytes)
    (htype : ∀ n, (f n).inodeType = n.inodeType) : (s.modifyInode i f).sizes = s.sizes := by
  refine Prod.ext rfl (Prod.ext rfl (funext fun j => ?_))
  by_cases hj : j = i
  · subst hj
    simp [Fs.sizes, Fs.modifyInode, hsize, htype]
  · simp [Fs.sizes, Fs.modifyInode, hj]

theorem size_of_sizes {s t : Fs δ} (h : t.sizes = s.sizes) (j : Fin maxInodes) :
    (t.inodes j).fileSizeBytes = (s.inodes j).fileSizeBytes :=
  congrArg (fun z : Nat × Nat × (Fin maxInodes → Nat × InodeType) => (z.2.2 j).1) h

theorem type_of_sizes {s t : Fs δ} (h : t.sizes = s.sizes) (j : Fin maxInodes) :
    (t.inodes j).inodeType = (s.inodes j).inodeType :=
  congrArg (fun z : Nat × Nat × (Fin maxInodes → Nat × InodeType) => (z.2.2 j).2) h

theorem size_grow (pos : Nat) (n : Inode) : (grow pos n).fileSizeBytes
    = if pos > n.fileSizeBytes then u32 pos else n.fileSizeBytes := by
  unfold grow
  split <;> rfl

theorem sizes_grow {s t : Fs δ} (h : t.sizes = s.sizes) (i : Fin maxInodes) (pos : Nat) :
    (t.modifyInode i (grow pos)).sizes = (s.modifyInode i (grow pos)).sizes := by
  have hblock : t.superblock.blockSizeBytes = s.superblock.blockSizeBytes := congrArg Prod.fst h
  have hmax : t.superblock.maxFileSizeBytes = s.superblock.maxFileSizeBytes :=
    congrArg (fun z : Nat × Nat × (Fin maxInodes → Nat × InodeType) => z.2.1) h
  refine Prod.ext hblock (Prod.ext hmax (funext fun j => ?_))
  by_cases hj : j = i
  · subst hj
    simp [Fs.sizes, Fs.modifyInode, size_grow, (grow_frame pos _).1, size_of_sizes h,
      type_of_sizes h]
  · simp [Fs.sizes, Fs.modifyInode, hj, size_of_sizes h, type_of_sizes h]

theorem sizes_setPtr (s : Fs δ) (i : Fin maxInodes) (k : Nat) (b : Option Nat) :
    (setPtr i k b s).sizes = s.sizes :=
  sizes_modifyInode s i (fun _ => rfl) (fun _ => rfl)

theorem sizes_addDirectBlock {s t : Fs δ} {i : Fin maxInodes} {b : Nat}
    (h : inodeAddDirectBlock s i b = some t) : t.sizes = s.sizes := by
  obtain ⟨k, -, -, -, rfl⟩ := addDirectBlock_some h
  exact sizes_setPtr s i k (some b)

theorem sizes_foldl {f : Fs δ → Nat → Fs δ} (hf : ∀ s k, (f s k).sizes = s.sizes) (ks : List Nat)
    (s : Fs δ) : (ks.foldl f s).sizes = s.sizes := by
  induction ks generalizing s with
  | nil => rfl
  | cons k ks ih =>
      rw [List.foldl_cons, ih]
      exact hf s k

theorem sizes_inodeFreeSlot (i : Fin maxInodes) (s : Fs δ) (k : Nat) :
    (inodeFreeSlot i s k).sizes = s.sizes := by
  unfold inodeFreeSlot
  split
  · exact (sizes_setPtr _ i k none).trans rfl
  · rfl

theorem sizes_blockForWrite {s t : Fs δ} {i : Fin maxInodes} {idx b : Nat}
    (h : blockForWrite s i idx = some (b, t)) : t.sizes = s.sizes := by
  unfold blockForWrite at h
  split at h
  · cases h
    rfl
  · split at h
    · cases h
    · obtain ⟨s1, hadd, heq⟩ := Option.map_eq_some_iff.mp h
      cases heq
      have hsizes : (decFreeBlocks s1).sizes = s1.sizes := rfl
      rw [hsizes, sizes_addDirectBlock hadd]

/-! ## Sizes within a limit -/

/-- The size fits its field, and that of a regular file is at most
`limit`. -/
structure SizeOk (limit : Nat) (n : Inode) : Prop where
  fits : n.fileSizeBytes < 4294967296
  file : n.inodeType = .file → n.fileSizeBytes ≤ limit

def Sized (limit : Nat) (s : Fs δ) : Prop :=
  s.superblock.blockSizeBytes = blockSize ∧
    s.superblock.maxFileSizeBytes = numDirectBlocks * blockSize ∧
    ∀ i, SizeOk limit (s.inodes i)

variable {limit : Nat} {s t : Fs δ}

theorem Sized.of_sizes (h : Sized limit s) (hst : t.sizes = s.sizes) : Sized limit t := by
  refine ⟨(congrArg Prod.fst hst).trans h.1, ?_, fun i => ⟨?_, fun hty => ?_⟩⟩
  · exact (congrArg (fun z : Nat × Nat × (Fin maxInodes → Nat × InodeType) => z.2.1) hst).trans
      h.2.1
  · rw [size_of_sizes hst]
    exact (h.2.2 i).fits
  · rw [type_of_sizes hst] at hty
    rw [size_of_sizes hst]
    exact (h.2.2 i).file hty

theorem Sized.same (h : Sized limit s) (hst : Same s t) : Sized limit t := h.of_sizes hst.sizes

theorem Sized.modifyInode (h : Sized limit s) {i : Fin maxInodes} {f : Inode → Inode}
    (hf : SizeOk limit (s.inodes i) → SizeOk limit (f (s.inodes i))) :
    Sized limit (s.modifyInode i f) := by
  refine ⟨h.1, h.2.1, fun j => ?_⟩
  by_cases hj : j = i
  · subst hj
    simpa [Fs.modifyInode] using hf (h.2.2 j)
  · simpa [Fs.modifyInode, hj] using h.2.2 j

theorem sizeOk_init (limit : Nat) (c : Ctx) : SizeOk limit (inodeInit c) :=
  ⟨(by decide : 0 < 4294967296), fun _ => Nat.zero_le _⟩

theorem Sized.allocated (h : Sized limit s) {c : Ctx} {i : Fin maxInodes}
    (ha : allocateInode c s = some (i, t)) : Sized limit (decFreeInodes t) := by
  obtain ⟨-, rfl⟩ := allocateInode_some ha
  exact h.modifyInode (f := fun _ => inodeInit c) (fun _ => sizeOk_init limit c)

theorem Sized.inodeFree (h : Sized limit s) (c : Ctx) (i : Fin maxInodes) :
    Sized limit (inodeFree c i s) := by
  have hfold := h.of_sizes (sizes_foldl (sizes_inodeFreeSlot i) (List.range numDirectBlocks) s)
  exact Sized.modifyInode (f := fun _ => inodeInit c) hfold (fun _ => sizeOk_init limit c)

/-! ## How far the copy loop gets -/

variable [DataArea δ]

theorem sizes_releaseSlot (i : Fin maxInodes) (s : Fs δ) (k : Nat) :
    (releaseSlot i s k).sizes = s.sizes := by
  unfold releaseSlot
  split
  · rfl
  · exact (sizes_setPtr _ i k none).trans rfl

theorem sizes_writeLoop (i : Fin maxInodes) (buffer : List UInt8) (fuel : Nat) (s : Fs δ)
    (bytesWritten pos : Nat) :
    (writeLoop i buffer fuel s bytesWritten pos).1.sizes = s.sizes := by
  induction fuel generalizing s bytesWritten pos with
  | zero => rfl
  | succ fuel ih =>
      rw [writeLoop]
      split
      · dsimp only
        split
        · rfl
        · cases hb : blockForWrite s i (pos / s.superblock.blockSizeBytes) with
          | none => rfl
          | some r =>
              obtain ⟨b, t⟩ := r
              have hstore : ∀ m, (t.setBytes m).sizes = t.sizes := fun _ => rfl
              dsimp only
              rw [ih, hstore, sizes_blockForWrite hb]
      · rfl

variable {i : Fin maxInodes} {buffer : List UInt8}

/-- The position moves with the count, and never past the last slot. -/
theorem writeLoop_pos (fuel : Nat) (hs : s.superblock.blockSizeBytes = blockSize)
    {bytesWritten pos bytesWritten' pos' : Nat}
    (hw : writeLoop i buffer fuel s bytesWritten pos = (t, bytesWritten', pos')) :
    bytesWritten ≤ bytesWritten' ∧ pos' + bytesWritten = pos + bytesWritten' ∧
      (bytesWritten < bytesWritten' → pos' ≤ numDirectBlocks * blockSize) := by
  have hstop : ∀ {s : Fs δ} {bytesWritten pos : Nat},
      (s, bytesWritten, pos) = (t, bytesWritten', pos') →
      bytesWritten ≤ bytesWritten' ∧ pos' + bytesWritten = pos + bytesWritten' ∧
        (bytesWritten < bytesWritten' → pos' ≤ numDirectBlocks * blockSize) := by
    intro s bytesWritten pos heq
    cases heq
    exact ⟨Nat.le_refl _, rfl, fun h => absurd h (Nat.lt_irrefl _)⟩
  induction fuel generalizing s bytesWritten pos with
  | zero => exact hstop hw
  | succ fuel ih =>
      rw [writeLoop] at hw
      by_cases hlt : bytesWritten < buffer.length
      · simp only [if_pos hlt, hs] at hw
        by_cases hidx : pos / blockSize ≥ numDirectBlocks
        · rw [if_pos hidx] at hw
          exact hstop hw
        · rw [if_neg hidx] at hw
          cases hb : blockForWrite s i (pos / blockSize) with
          | none =>
              simp only [hb] at hw
              exact hstop hw
          | some r =>
              obtain ⟨b, s1⟩ := r
              have hs1 : s1.superblock.blockSizeBytes = blockSize :=
                (congrArg Prod.fst (sizes_blockForWrite hb)).trans hs
              simp only [hb, hs1] at hw
              generalize hn : (if buffer.length - bytesWritten > blockSize - pos % blockSize
                then blockSize - pos % blockSize else buffer.length - bytesWritten) = n at hw
              have hfit : pos % blockSize + n ≤ blockSize := by
                have hmod : pos % blockSize < blockSize := Nat.mod_lt _ (by decide)
                rw [← hn]
                split <;> omega
              obtain ⟨hle, hsum, hmax⟩ := ih (by exact hs1) hw
              refine ⟨by omega, by omega, fun _ => ?_⟩
              by_cases hmore : bytesWritten + n < bytesWritten'
              · exact hmax hmore
              · have hpos : pos' = pos + n := by omega
                simp only [numDirectBlocks, blockSize] at *
                omega
      · rw [if_neg hlt] at hw
        exact hstop hw

/-- Nothing is counted exactly when there is no place for a byte. -/
theorem writeLoop_zero_iff (hs : s.superblock.blockSizeBytes = blockSize) (hne : buffer ≠ [])
    (o : Nat) : (writeLoop i buffer loopFuel s 0 o).2.1 = 0 ↔ NothingFits s i o := by
  have hlt : 0 < buffer.length := List.length_pos_iff.mpr hne
  rw [writeLoop]
  simp only [if_pos hlt, hs]
  by_cases hidx : o / blockSize ≥ numDirectBlocks
  · rw [if_pos hidx]
    exact iff_of_true rfl (Or.inl hidx)
  · rw [if_neg hidx]
    cases hb : blockForWrite s i (o / blockSize) with
    | none => exact iff_of_true rfl (Or.inr ((blockForWrite_eq_none (by omega)).mp hb))
    | some r =>
        obtain ⟨b, s1⟩ := r
        have hs1 : s1.superblock.blockSizeBytes = blockSize :=
          (congrArg Prod.fst (sizes_blockForWrite hb)).trans hs
        refine iff_of_false ?_ ?_
        · simp only [hs1]
          generalize hn : (if buffer.length - 0 > blockSize - o % blockSize
            then blockSize - o % blockSize else buffer.length - 0) = n
          have hpos : 0 < n := by
            have hmod : o % blockSize < blockSize := Nat.mod_lt _ (by decide)
            rw [← hn]
            split <;> omega
          rcases hw : writeLoop i buffer numDirectBlocks (s1.setBytes (store s1.bytes
            (blockAddr b (o % blockSize)) ((buffer.drop 0).take n))) (0 + n) (o + n) with ⟨t, n', pos'⟩
          have hle := (writeLoop_pos numDirectBlocks (by exact hs1) hw).1
          show n' ≠ 0
          omega
        · rintro (hfull | hnone)
          · exact hidx hfull
          · rw [(blockForWrite_eq_none (by omega)).mpr hnone] at hb
            cases hb

/-! ## One write -/

theorem fsWriteFile_at {c : Ctx} {path : CStr} (hat : ParentLeadsTo c s path i)
    (hne : buffer ≠ []) (offset : Int) (append : Bool) :
    ∃ s', Same s s' ∧ fsWriteFile c s path buffer offset append
      = .ok (writeFileAt c s' i buffer offset append) := by
  obtain ⟨s', d, name, p, hpar, hdir, hlook⟩ := hat
  refine ⟨s', fsResolveParent_same hpar, ?_⟩
  rw [fsWriteFile, if_neg (by simpa using hne), hpar]
  simp only [hdir, hlook, inodeAt_coe, if_neg (show ¬ ((i : Nat) : Int) < 0 by omega)]

/-- The inode a write has touched, size and type only. -/
theorem writeFileAt_sizes (c : Ctx) (offset : Int) (append : Bool) {t : Fs δ} {n pos : Nat}
    (hw : writeLoop i buffer loopFuel s 0
      (toSize (if append then ((s.inodes i).fileSizeBytes : Int) else offset)) = (t, n, pos)) :
    (writeFileAt c s i buffer offset append).1 = (n : Int) ∧
      (writeFileAt c s i buffer offset append).2.sizes
        = (s.modifyInode i (grow pos)).sizes := by
  have hsizes := sizes_writeLoop i buffer loopFuel s 0
    (toSize (if append then ((s.inodes i).fileSizeBytes : Int) else offset))
  rw [hw] at hsizes
  have hresult : writeFileAt c s i buffer offset append
      = ((n : Int), inodeUpdateAtime c i (inodeUpdateCtime c i (inodeUpdateMtime c i
          (t.modifyInode i (grow pos))))) := by
    simp only [writeFileAt, hw]
    rfl
  rw [hresult]
  refine ⟨rfl, ?_⟩
  rw [(same_updateAtime c i _).symm.sizes, (same_updateCtime c i _).symm.sizes,
    (same_updateMtime c i _).symm.sizes]
  exact sizes_grow hsizes i pos

theorem toSize_size {n : Nat} (hn : n < 4294967296) : toSize (n : Int) = n := by
  simp only [toSize]
  omega

/-- The size after a write that found its inode. -/
theorem size_after_write (hs : s.superblock.blockSizeBytes = blockSize)
    (hfits : (s.inodes i).fileSizeBytes < 4294967296) {c : Ctx} {path : CStr}
    (hat : ParentLeadsTo c s path i) (hne : buffer ≠ []) (offset : Int) (append : Bool) :
    ∃ n t, fsWriteFile c s path buffer offset append = .ok ((n : Nat), t) ∧
      (n = 0 ↔ NothingFits s i (writeFrom s i (toSize offset) append)) ∧
      (n ≠ 0 → writeFrom s i (toSize offset) append + n ≤ numDirectBlocks * blockSize) ∧
      t.sizes = (s.modifyInode i (grow (writeFrom s i (toSize offset) append + n))).sizes := by
  obtain ⟨s', hss, hwrite⟩ := fsWriteFile_at hat hne offset append
  have hsizes := hss.sizes
  have hfrom : toSize (if append then ((s'.inodes i).fileSizeBytes : Int) else offset)
      = writeFrom s i (toSize offset) append := by
    rw [size_of_sizes hsizes, writeFrom]
    split
    · exact toSize_size hfits
    · rfl
  have hs' : s'.superblock.blockSizeBytes = blockSize := (congrArg Prod.fst hsizes).trans hs
  set o := writeFrom s i (toSize offset) append
  rcases hw : writeLoop i buffer loopFuel s' 0 o with ⟨w, n, pos⟩
  obtain ⟨-, hsum, hmax⟩ := writeLoop_pos loopFuel hs' hw
  have hpos : pos = o + n := by omega
  have hw' := hw
  rw [← hfrom] at hw'
  obtain ⟨hcount, hafter⟩ := writeFileAt_sizes c offset append hw'
  refine ⟨n, (writeFileAt c s' i buffer offset append).2, ?_, ?_, fun hn => ?_, ?_⟩
  · rw [hwrite, ← hcount]
  · have hzero := writeLoop_zero_iff (i := i) hs' hne o
    rw [hw] at hzero
    rw [hss.apply (fun s => NothingFits s i o) (fun _ => rfl)]
    exact hzero
  · rw [← hpos]
    exact hmax (Nat.pos_of_ne_zero hn)
  · rw [hafter, ← hpos]
    exact sizes_grow hsizes i pos

omit [DataArea δ] in
/-- The size is right unless the write overshoots. -/
theorem sizeRight_iff {o n : Nat} (hzero : n = 0 ↔ NothingFits s i o)
    (hmax : n ≠ 0 → o + n ≤ numDirectBlocks * blockSize)
    (hafter : t.sizes = (s.modifyInode i (grow (o + n))).sizes) :
    SizeRight s t i o n ↔ ¬ Overshoots s i o := by
  have hsize : (t.inodes i).fileSizeBytes
      = if o + n > (s.inodes i).fileSizeBytes then u32 (o + n) else (s.inodes i).fileSizeBytes := by
    rw [size_of_sizes hafter, ← size_grow]
    simp [Fs.modifyInode]
  unfold SizeRight Overshoots
  rw [hsize, ← hzero]
  by_cases hn : n = 0
  · subst hn
    simp only [Nat.add_zero, if_true, true_and, u32, gt_iff_lt, not_and, not_not]
    constructor
    · intro heq hlt
      rwa [if_pos hlt] at heq
    · intro heq
      split
      · rename_i hlt
        exact heq hlt
      · rfl
  · have hle := hmax hn
    simp only [hn, if_false, false_and, not_false_eq_true, iff_true]
    simp only [numDirectBlocks, blockSize] at hle
    split
    · rw [u32_of_lt (by omega)]
      omega
    · omega

/-! ## Sizes in every state of a run -/

theorem Sized.createFileIn (h : Sized limit s) (c : Ctx) (d : Fin maxInodes) (name : CStr)
    (mode : Nat) : Sized limit (createFileIn c s d name mode).2 := by
  unfold FileSystem.createFileIn
  split
  · exact h
  · split
    · exact h
    · split
      · exact h
      · rename_i i s1 ha
        dsimp only
        have h1 := (h.allocated ha).modifyInode (i := i) (f := fun _ => { inodeInit c with
          inodeType := .file, permissionBits := u16 mode })
          (fun _ => ⟨(sizeOk_init limit c).fits, (sizeOk_init limit c).file⟩)
        generalize (decFreeInodes s1).modifyInode i _ = s2 at h1 ⊢
        split
        · exact h1.inodeFree c i
        · rename_i s3 hblock
          obtain ⟨b, -, hadd⟩ := Option.bind_eq_some_iff.mp hblock
          have h3 := h1.of_sizes (sizes_addDirectBlock hadd)
          split
          · exact Sized.inodeFree (s := decFreeBlocks s3) h3 c i
          · exact h3

theorem Sized.createSymlinkIn (h : Sized limit s) (c : Ctx) (target : CStr) (d : Fin maxInodes)
    (name : CStr) (hlimit : numDirectBlocks * blockSize ≤ limit) :
    Sized limit (createSymlinkIn c s target d name).2 := by
  unfold FileSystem.createSymlinkIn
  split
  · exact h
  · split
    · exact h
    · split
      · exact h
      · split
        · exact h
        · rename_i i s1 ha
          dsimp only
          have h1 : Sized limit ((decFreeInodes s1).modifyInode i (fun n => { n with
              inodeType := .symlink, ownerUserId := u16 c.uid, ownerGroupId := u16 c.gid,
              permissionBits := permRwx, hardLinksCount := 1 })) :=
            (h.allocated ha).modifyInode (fun hn => ⟨hn.fits, fun hty => by cases hty⟩)
          generalize (decFreeInodes s1).modifyInode i _ = s2 at h1 ⊢
          split
          · exact h1.inodeFree c i
          · rename_i hlen
            rw [h1.2.1] at hlen
            have h2 : Sized limit
                (s2.modifyInode i (fun n => { n with fileSizeBytes := u32 target.length })) :=
              h1.modifyInode (fun _ => ⟨u32_lt _, fun _ => by
                show u32 target.length ≤ limit
                rw [u32]
                exact (Nat.mod_le _ _).trans (by omega)⟩)
            generalize s2.modifyInode i _ = s3 at h2 ⊢
            split
            · exact h2.inodeFree c i
            · split
              · exact h2.inodeFree c i
              · rename_i s4 hadd
                have h4 := h2.of_sizes (sizes_addDirectBlock hadd)
                split
                · exact Sized.inodeFree (s := (decFreeBlocks s4).setBytes _) h4 c i
                · exact h4

theorem Sized.createDirectoryIn (h : Sized limit s) (c : Ctx) (d : Fin maxInodes)
    (filename : CStr) (mode : Nat) (name : CStr) :
    Sized limit (createDirectoryIn c s d filename mode name).2 := by
  unfold FileSystem.createDirectoryIn
  split
  · exact h
  · split
    · exact h
    · split
      · exact h
      · rename_i i s1 ha
        dsimp only
        have h1 : Sized limit (inodeIncrementLinks i ((decFreeInodes s1).modifyInode i
            (fun _ => inodeInit c))) :=
          ((h.allocated ha).modifyInode (fun _ => sizeOk_init limit c)).modifyInode
            (fun hn => ⟨hn.fits, hn.file⟩)
        generalize inodeIncrementLinks i _ = s2 at h1 ⊢
        have h2 : Sized limit (s2.modifyInode i (fun n => { n with
            inodeType := .dir, permissionBits := u16 mode, fileSizeBytes := directorySize })) :=
          h1.modifyInode (fun _ => ⟨(by decide : directorySize < 4294967296),
            fun hty => by cases hty⟩)
        generalize s2.modifyInode i _ = s3 at h2 ⊢
        split
        · exact h2.inodeFree c i
        · split
          · exact h2.inodeFree c i
          · rename_i s4 hadd
            have h4 := h2.of_sizes (sizes_addDirectBlock hadd)
            split
            · exact Sized.inodeFree (s := { decFreeBlocks s4 with data := _ }) h4 c i
            · refine Sized.modifyInode (s := { decFreeBlocks s4 with data := _ }) h4 ?_
              exact fun hn => ⟨hn.fits, hn.file⟩

theorem Sized.createHardLinkIn (h : Sized limit s) (src d : Fin maxInodes) (name : CStr) :
    Sized limit (createHardLinkIn s src d name).2 := by
  unfold FileSystem.createHardLinkIn
  split
  · exact h
  · split
    · exact h
    · split
      · exact h
      · split
        · exact h
        · rename_i data _
          have h1 : Sized limit { s with data := data } := h
          have h2 : Sized limit (inodeIncrementLinks src { s with data := data }) :=
            h1.modifyInode (fun hn => ⟨hn.fits, hn.file⟩)
          exact h2

theorem Sized.deleteFileIn (h : Sized limit s) (c : Ctx) (p : DirPtr) (name : CStr)
    (i : Fin maxInodes) : Sized limit (deleteFileIn c s p name i).2 := by
  unfold FileSystem.deleteFileIn
  split
  · exact h
  · split
    · exact h
    · rename_i data _
      dsimp only
      have h1 : Sized limit (inodeDecrementLinks i { s with data := data }) :=
        Sized.modifyInode (s := { s with data := data }) h (fun hn => ⟨hn.fits, hn.file⟩)
      generalize inodeDecrementLinks i { s with data := data } = s1 at h1 ⊢
      refine Sized.same ?_ ((same_updateCtime _ _ _).trans (same_updateMtime _ _ _)).symm
      split
      · have h2 := h1.of_sizes (sizes_foldl (sizes_releaseSlot i) (List.range numDirectBlocks) s1)
        exact Sized.modifyInode (f := fun _ => inodeInit c) h2 (fun _ => sizeOk_init limit c)
      · exact h1

theorem Sized.removeDirectoryAt (h : Sized limit s) {c : Ctx} {path : CStr} {i : Fin maxInodes}
    {r : Int} (hr : removeDirectoryAt c s path i = .ok (r, t)) : Sized limit t := by
  unfold FileSystem.removeDirectoryAt at hr
  split at hr
  · cases hr; exact h
  · split at hr
    · cases hr; exact h
    · split at hr
      · cases hr; exact h
      · unfold removeDirectoryEntry at hr
        split at hr
        · cases hr
        · rename_i hpar
          cases hr
          exact h.same (fsResolveParent_same hpar)
        · rename_i d _ s1 hpar
          have h1 := h.same (fsResolveParent_same hpar)
          split at hr
          · cases hr; exact h1
          · split at hr
            · cases hr; exact h1
            · rename_i data _
              cases hr
              have h2 := Sized.inodeFree (s := { s1 with data := data }) h1 c i
              have h3 := h2.same (same_updateCtime c i _).symm
              have h4 := h3.same (same_updateCtime c d _).symm
              have h5 := h4.same (same_updateMtime c d _).symm
              exact h5

/-- A path is resolved first; then something happens to one inode. -/
theorem Sized.afterPath (h : Sized limit s) (path : CStr) {c : Ctx}
    {f : Fin maxInodes → Fs δ → Int × Fs δ} {x : Except Fault (Int × Fs δ)} {e : Int}
    (hf : ∀ i s, Sized limit s → Sized limit (f i s).2)
    (hfault : ∀ y, fsResolvePath c s path = .error y → x = .error y)
    (herr : ∀ e' s', fsResolvePath c s path = .ok (.error e', s') → x = .ok (e, s'))
    (hok : ∀ i s', fsResolvePath c s path = .ok (.ok i, s') → x = .ok (f i s')) {r : Int}
    (hx : x = .ok (r, t)) : Sized limit t := by
  cases hp : fsResolvePath c s path with
  | error y =>
      rw [hfault y hp] at hx
      cases hx
  | ok q =>
      obtain ⟨res, s'⟩ := q
      have h' := h.same (fsResolvePath_same hp)
      cases res with
      | error e' =>
          rw [herr e' s' hp] at hx
          cases hx
          exact h'
      | ok i =>
          rw [hok i s' hp, Except.ok.injEq] at hx
          have hi := hf i s' h'
          rwa [hx] at hi

/-- A parent is resolved first; then something happens in it. -/
theorem Sized.afterParent (h : Sized limit s) {c : Ctx} {path : CStr}
    {f : Fin maxInodes → CStr → Fs δ → Int × Fs δ} {x : Except Fault (Int × Fs δ)} {e : Int}
    (hf : ∀ d name s, Sized limit s → Sized limit (f d name s).2)
    (hfault : ∀ y, fsResolveParent c s path = .error y → x = .error y)
    (herr : ∀ e' s', fsResolveParent c s path = .ok (.error e', s') → x = .ok (e, s'))
    (hok : ∀ d name s', fsResolveParent c s path = .ok (.ok (d, name), s') →
      x = .ok (f d name s')) {r : Int} (hx : x = .ok (r, t)) : Sized limit t := by
  cases hp : fsResolveParent c s path with
  | error y =>
      rw [hfault y hp] at hx
      cases hx
  | ok q =>
      obtain ⟨res, s'⟩ := q
      have h' := h.same (fsResolveParent_same hp)
      cases res with
      | error e' =>
          rw [herr e' s' hp] at hx
          cases hx
          exact h'
      | ok res =>
          obtain ⟨d, name⟩ := res
          rw [hok d name s' hp, Except.ok.injEq] at hx
          have hd := hf d name s' h'
          rwa [hx] at hd

theorem Sized.truncateAt (h : Sized limit s) (c : Ctx) (i : Fin maxInodes) {size : Int}
    (hsize : u32 (toSize size) ≤ limit) : Sized limit (truncateAt c s i size) := by
  unfold FileSystem.truncateAt
  dsimp only
  refine Sized.same ?_ ((same_updateCtime _ _ _).trans (same_updateMtime _ _ _)).symm
  have h1 : Sized limit (if size = 0 then releaseBlocks i s else s) := by
    split
    · exact h.of_sizes (sizes_foldl (sizes_releaseSlot i) (List.range numDirectBlocks) s)
    · exact h
  exact h1.modifyInode (fun _ => ⟨u32_lt _, fun _ => hsize⟩)

/-- What a write does when it does not find its inode. -/
theorem fsWriteFile_cases {c : Ctx} {path : CStr} {offset : Int} {append : Bool} {r : Int}
    (h : fsWriteFile c s path buffer offset append = .ok (r, t)) :
    Same s t ∨ buffer ≠ [] ∧ ∃ i, ParentLeadsTo c s path i := by
  unfold fsWriteFile at h
  split at h
  · cases h
    exact Or.inl rfl
  · rename_i hlen
    split at h
    · cases h
    · rename_i hp
      cases h
      exact Or.inl (fsResolveParent_same hp)
    · rename_i d name s1 hp
      split at h
      · cases h
        exact Or.inl (fsResolveParent_same hp)
      · rename_i p hdir
        split at h
        · cases h
          exact Or.inl (fsResolveParent_same hp)
        · split at h
          · cases h
          · rename_i i hat
            refine Or.inr ⟨fun hnil => hlen (by rw [hnil]; rfl), i, s1, d, name, p, hp, hdir, ?_⟩
            exact inodeAt_ok hat

/-- A write that does not overshoot stays within the limit. -/
theorem Sized.write (h : Sized limit s) (hlimit : numDirectBlocks * blockSize ≤ limit) {c : Ctx}
    {path : CStr} {offset : Int} {append : Bool}
    (hop : limit = 4294967295 ∨ ∀ c i, ParentLeadsTo c s path i →
      ¬ Overshoots s i (writeFrom s i (toSize offset) append)) {r : Int}
    (hw : fsWriteFile c s path buffer offset append = .ok (r, t)) : Sized limit t := by
  rcases fsWriteFile_cases hw with hsame | ⟨hne, i, hat⟩
  · exact h.same hsame
  · obtain ⟨n, t', hw', hzero, hmax, hafter⟩ :=
      size_after_write h.1 (h.2.2 i).fits hat hne offset append
    rw [hw, Except.ok.injEq, Prod.mk.injEq] at hw'
    obtain ⟨-, rfl⟩ := hw'
    refine Sized.of_sizes (h.modifyInode (fun hn => ⟨?_, fun hty => ?_⟩)) hafter
    · rw [size_grow]
      split
      · exact u32_lt _
      · exact hn.fits
    · rw [(grow_frame _ _).1] at hty
      rcases hop with hop | hop
      · rw [hop, size_grow]
        have hlt := u32_lt (writeFrom s i (toSize offset) append + n)
        have hfits := hn.fits
        split <;> omega
      · have hright := (sizeRight_iff hzero hmax hafter).mpr (hop c i hat)
        have hself : (t.inodes i).fileSizeBytes = (grow (writeFrom s i (toSize offset) append + n)
            (s.inodes i)).fileSizeBytes := by
          rw [size_of_sizes hafter]
          simp [Fs.modifyInode]
        have hfile := hn.file hty
        rw [← hself, hright]
        split
        · exact hfile
        · rename_i hn0
          have hle := hmax hn0
          omega

theorem Sized.deleteFile (h : Sized limit s) {c : Ctx} {path : CStr} {r : Int}
    (hx : fsDeleteFile c s path = .ok (r, t)) : Sized limit t := by
  unfold fsDeleteFile at hx
  split at hx
  · cases hx
  · rename_i hp
    cases hx
    exact h.same (fsResolveParent_same hp)
  · rename_i d name s1 hp
    have h1 := h.same (fsResolveParent_same hp)
    split at hx
    · cases hx; exact h1
    · rename_i p _
      split at hx
      · cases hx; exact h1
      · split at hx
        · cases hx
        · rename_i i _
          have h2 := h1.deleteFileIn c p name i
          rwa [Except.ok.inj hx] at h2

theorem Sized.removeDirectory (h : Sized limit s) {c : Ctx} {path : CStr} {r : Int}
    (hx : fsRemoveDirectory c s path = .ok (r, t)) : Sized limit t := by
  unfold fsRemoveDirectory at hx
  split at hx
  · cases hx; exact h
  · split at hx
    · cases hx; exact h
    · split at hx
      · cases hx
      · rename_i res s1 hp
        have h1 := h.same (fsResolvePath_same hp)
        cases hy : resolvedOrFault res (.ok (-enoent, s1))
            (FileSystem.removeDirectoryAt c s1 path) with
        | error f =>
            rw [hy] at hx
            cases hx
        | ok y =>
            rw [hy] at hx
            have hy' : y = .ok (r, t) := hx
            rcases resolvedOrFault_ok hy with heq | ⟨i, heq⟩
            · rw [heq] at hy'
              cases hy'
              exact h1
            · rw [heq] at hy'
              exact h1.removeDirectoryAt hy'

theorem Sized.createHardLink (h : Sized limit s) {c : Ctx} {source dest : CStr} {r : Int}
    (hx : fsCreateHardLink c s source dest = .ok (r, t)) : Sized limit t := by
  unfold fsCreateHardLink at hx
  split at hx
  · cases hx
  · rename_i hp
    cases hx
    exact h.same (fsResolvePath_same hp)
  · rename_i src s1 hp
    have h1 := h.same (fsResolvePath_same hp)
    split at hx
    · cases hx; exact h1
    · exact h1.afterParent (f := fun d name s => FileSystem.createHardLinkIn s src d name)
        (fun d name s hs => hs.createHardLinkIn src d name) (fun y hy => by rw [hy])
        (fun e' s' he => by rw [he]) (fun d name s' ho => by rw [ho]) hx

/-- No step breaks the limit, except a write that overshoots and a
truncation to a larger length. -/
theorem Sized.step (h : Sized limit s) (hlimit : numDirectBlocks * blockSize ≤ limit) {c : Ctx}
    {op : Op} (hop : limit = 4294967295 ∨ KeepsSizes s op) {r : Int}
    (hstep : step c s op = .ok (r, t)) : Sized limit t := by
  cases op with
  | createFile path mode =>
      have hx : fsCreateFile c s path mode = .ok (r, t) := hstep
      unfold fsCreateFile at hx
      split at hx
      · cases hx; exact h
      · split at hx
        · cases hx; exact h
        · exact h.afterParent (f := fun d name s => FileSystem.createFileIn c s d name mode)
            (fun d name s hs => hs.createFileIn c d name mode) (fun y hy => by rw [hy])
            (fun e' s' he => by rw [he]) (fun d name s' ho => by rw [ho]) hx
  | readFile path size offset =>
      obtain ⟨out, hx⟩ := codeOnly_ok (x := fsReadFile c s path size offset) hstep
      exact h.same (fsReadFile_same hx)
  | writeFile path buffer offset append => exact h.write hlimit hop hstep
  | deleteFile path => exact h.deleteFile hstep
  | createDirectory path mode name =>
      have hx : fsCreateDirectory c s path mode name = .ok (r, t) := hstep
      unfold fsCreateDirectory at hx
      split at hx
      · cases hx; exact h
      · split at hx
        · cases hx; exact h
        · exact h.afterParent
            (f := fun d filename s => FileSystem.createDirectoryIn c s d filename mode name)
            (fun d filename s hs => hs.createDirectoryIn c d filename mode name)
            (fun y hy => by rw [hy]) (fun e' s' he => by rw [he])
            (fun d name s' ho => by rw [ho]) hx
  | listDirectory path =>
      obtain ⟨out, hx⟩ := codeOnly_ok (x := fsListDirectory c s path) hstep
      exact h.same (fsListDirectory_same hx)
  | removeDirectory path => exact h.removeDirectory hstep
  | statistics path =>
      obtain ⟨out, hx⟩ := codeOnly_ok (x := fsStatistics c s path) hstep
      exact h.same (fsStatistics_same hx)
  | createSymlink target linkpath =>
      have hx : fsCreateSymlink c s target linkpath = .ok (r, t) := hstep
      exact h.afterParent (f := fun d name s => FileSystem.createSymlinkIn c s target d name)
        (fun d name s hs => hs.createSymlinkIn c target d name hlimit)
        (fun y hy => by rw [fsCreateSymlink, hy]) (fun e' s' he => by rw [fsCreateSymlink, he])
        (fun d name s' ho => by rw [fsCreateSymlink, ho]) hx
  | readSymlink path size =>
      obtain ⟨out, hx⟩ := codeOnly_ok (x := fsReadSymlink c s path size) hstep
      exact h.same (fsReadSymlink_same hx)
  | createHardLink source dest => exact h.createHardLink hstep
  | changeMode path mode =>
      refine h.afterPath path (e := -enoent) (x := fsChangeMode c s path mode)
        (f := fun i s => (0, inodeUpdateCtime c i
          (s.modifyInode i (fun n => { n with permissionBits := permOfMode mode }))))
        (fun i s hs => ?_) (fun y hy => by rw [fsChangeMode, hy])
        (fun e' s' he => by rw [fsChangeMode, he]) (fun i s' ho => by rw [fsChangeMode, ho]) hstep
      refine Sized.same (hs.of_sizes ?_) (same_updateCtime c i _).symm
      exact sizes_modifyInode s i (fun _ => rfl) (fun _ => rfl)
  | changeOwner path uid gid =>
      refine h.afterPath path (e := -enoent) (x := fsChangeOwner c s path uid gid)
        (f := fun i s => (0, inodeUpdateCtime c i (s.modifyInode i
          (fun n => { n with ownerUserId := u16 uid, ownerGroupId := u16 gid }))))
        (fun i s hs => ?_) (fun y hy => by rw [fsChangeOwner, hy])
        (fun e' s' he => by rw [fsChangeOwner, he]) (fun i s' ho => by rw [fsChangeOwner, ho]) hstep
      refine Sized.same (hs.of_sizes ?_) (same_updateCtime c i _).symm
      exact sizes_modifyInode s i (fun _ => rfl) (fun _ => rfl)
  | truncate path size =>
      have hsize : u32 (toSize size) ≤ limit := by
        rcases hop with hop | hop
        · have := u32_lt (toSize size)
          omega
        · exact le_trans hop hlimit
      exact h.afterPath path (e := -enoent) (x := fisopfsTruncate c s path size)
        (f := fun i s => (0, FileSystem.truncateAt c s i size))
        (fun i s hs => hs.truncateAt c i hsize) (fun y hy => by rw [fisopfsTruncate, hy])
        (fun e' s' he => by rw [fisopfsTruncate, he])
        (fun i s' ho => by rw [fisopfsTruncate, ho]) hstep
  | utimens path atime mtime => exact h.same (fisopfsUtimens_same hstep)

theorem Sized.init (limit : Nat) (c : Ctx) : Sized limit (fsInit c : Fs δ) := by
  refine ⟨rfl, rfl, fun i => ?_⟩
  by_cases hi : i = 0
  · subst hi
    exact ⟨(by decide : directorySize < 4294967296), fun hty => by cases hty⟩
  · rw [show (fsInit c : Fs δ).inodes i = inodeInit c by simp [fsInit, hi]]
    exact sizeOk_init limit c

/-- In every state of every run: the size after a write is right if and
only if the write does not overshoot. In every state of a run without such
writes and without truncations to more than the largest size: no regular
file is larger than that. -/
theorem file_size_iff (u : User) :
    (∀ (P : Fs δ → Op → Fs δ → Prop) (s : Fs δ), Reachable u P s →
      ∀ (c : Ctx) (path : CStr) (i : Fin maxInodes) (buffer : List UInt8) (o : Nat)
        (append : Bool), ParentLeadsTo c s path i → buffer ≠ [] → o < 9223372036854775808 →
      ∃ n t, step c s (.writeFile path buffer o append) = .ok ((n : Nat), t) ∧
        (SizeRight s t i (writeFrom s i o append) n ↔
          ¬ Overshoots s i (writeFrom s i o append))) ∧
    (∀ s : Fs δ, Reachable u (fun s op _ => KeepsSizes s op) s →
      ∀ i, (s.inodes i).inodeType = .file →
        (s.inodes i).fileSizeBytes ≤ s.superblock.maxFileSizeBytes) := by
  constructor
  · intro P s hreach c path i buffer o append hat hne ho
    have hs : Sized 4294967295 s := by
      refine hreach.invariant (fun now => Sized.init _ _) ?_
      intro now s op r t h _ hstep
      exact h.step (by decide) (Or.inl rfl) hstep
    obtain ⟨n, t, hw, hzero, hmax, hafter⟩ :=
      size_after_write hs.1 (hs.2.2 i).fits hat hne (o : Int) append
    have hoff : toSize (o : Int) = o := by
      simp only [toSize]
      omega
    rw [hoff] at hzero hmax hafter
    exact ⟨n, t, hw, sizeRight_iff hzero hmax hafter⟩
  · intro s hreach i hty
    have hs : Sized (numDirectBlocks * blockSize) s := by
      refine hreach.invariant (fun now => Sized.init _ _) ?_
      intro now s op r t h hop hstep
      exact h.step (Nat.le_refl _) (Or.inr hop) hstep
    rw [hs.2.1]
    exact (hs.2.2 i).file hty

/-- `ParentLeadsTo` on a concrete state. -/
def parentLeadsTo (c : Ctx) (s : Fs δ) (path : CStr) (i : Fin maxInodes) : Bool :=
  match fsResolveParent c s path with
  | .ok (.ok (d, name), t) =>
      match getDirectoryByInode t d with
      | some p => decide (directoryLookup t.data p name = ((i : Nat) : Int))
      | none => false
  | _ => false

theorem parentLeadsTo_true {c : Ctx} {path : CStr} (h : parentLeadsTo c s path i = true) :
    ParentLeadsTo c s path i := by
  unfold parentLeadsTo at h
  split at h
  · rename_i d name t hp
    split at h
    · rename_i p hdir
      exact ⟨t, d, name, p, hp, hdir, of_decide_eq_true h⟩
    · cases h
  · cases h

/-- One byte at 0 of a new file, in the flat layout. -/
theorem file_size_iff_new_file :
    ∃ s t : Fs Flat, Reachable ⟨0, 0⟩ (fun s op _ => KeepsSizes s op) s ∧
      ParentLeadsTo (User.at ⟨0, 0⟩ 0) s (cstr "/f") 1 ∧ (s.inodes 1).inodeType = .file ∧
      (s.inodes 1).fileSizeBytes ≤ s.superblock.maxFileSizeBytes ∧
      ∃ n : Nat, step (User.at ⟨0, 0⟩ 0) s (.writeFile (cstr "/f") [7] 0 false) = .ok (n, t) ∧
        SizeRight s t 1 0 n := by
  have hrun : returns (step (User.at ⟨0, 0⟩ 0) (fsInit (δ := Flat) (User.at ⟨0, 0⟩ 0))
      (.createFile (cstr "/f") 6)) 0 (fun s =>
        parentLeadsTo (User.at ⟨0, 0⟩ 0) s (cstr "/f") 1 &&
          decide ((s.inodes 1).inodeType = .file)) = true := by
    decide +kernel
  obtain ⟨s, hcreate, hs⟩ := returns_true hrun
  rw [Bool.and_eq_true, decide_eq_true_eq] at hs
  have hat := parentLeadsTo_true hs.1
  have hreach : Reachable ⟨0, 0⟩ (fun s op _ => KeepsSizes s op) s :=
    ⟨0, .single ⟨0, _, _, hcreate, trivial⟩⟩
  obtain ⟨n, t, hstep, hright⟩ := (file_size_iff (δ := Flat) ⟨0, 0⟩).1 _ s hreach
    (User.at ⟨0, 0⟩ 0) (cstr "/f") 1 [7] 0 false hat (by decide) (by decide)
  exact ⟨s, t, hreach, hat, hs.2, (file_size_iff ⟨0, 0⟩).2 s hreach 1 hs.2, n, hstep,
    hright.mpr (fun hover => absurd hover.2.1 (Nat.not_lt_zero _))⟩

/-- One byte at 2^20 of a new file, in the flat layout: nothing is
written, and the size becomes 2^20. -/
theorem empty_write_sets_size :
    ∃ s t : Fs Flat, Reachable ⟨0, 0⟩ (fun _ _ _ => True) s ∧
      ParentLeadsTo (User.at ⟨0, 0⟩ 0) s (cstr "/f") 1 ∧ (s.inodes 1).inodeType = .file ∧
      (s.inodes 1).fileSizeBytes = 0 ∧
      step (User.at ⟨0, 0⟩ 0) s (.writeFile (cstr "/f") [7] 1048576 false) = .ok (0, t) ∧
      ¬ SizeRight s t 1 1048576 0 ∧
      t.superblock.maxFileSizeBytes < (t.inodes 1).fileSizeBytes := by
  have hrun : returns (step (User.at ⟨0, 0⟩ 0) (fsInit (δ := Flat) (User.at ⟨0, 0⟩ 0))
      (.createFile (cstr "/f") 6)) 0 (fun s =>
        (parentLeadsTo (User.at ⟨0, 0⟩ 0) s (cstr "/f") 1 &&
          decide ((s.inodes 1).inodeType = .file ∧ (s.inodes 1).fileSizeBytes = 0)) &&
        returns (step (User.at ⟨0, 0⟩ 0) s (.writeFile (cstr "/f") [7] 1048576 false)) 0 (fun t =>
          decide ((t.inodes 1).fileSizeBytes = 1048576 ∧
            t.superblock.maxFileSizeBytes = 49152))) = true := by
    decide +kernel
  obtain ⟨s, hcreate, hs⟩ := returns_true hrun
  rw [Bool.and_eq_true, Bool.and_eq_true, decide_eq_true_eq] at hs
  obtain ⟨⟨hat, htype, hsize⟩, hwrite⟩ := hs
  obtain ⟨t, hstep, ht⟩ := returns_true hwrite
  rw [decide_eq_true_eq] at ht
  refine ⟨s, t, ⟨0, .single ⟨0, _, _, hcreate, trivial⟩⟩, parentLeadsTo_true hat, htype, hsize,
    hstep, fun hright => ?_, ?_⟩
  · rw [SizeRight, ht.1, if_pos rfl, hsize] at hright
    cases hright
  · rw [ht.1, ht.2]
    decide

end SistemasOperativos.FileSystem
