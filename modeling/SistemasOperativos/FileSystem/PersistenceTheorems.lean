/-
SistemasOperativos.FileSystem.PersistenceTheorems — what a file system
keeps over its mounts.

Two levels. Below, the daemon with a file of bytes; above, `Archive`,
where the last file system that was written whole is kept as a value. The
file decodes to that value as long as every field of the struct is in the
range of its C type, which is an invariant of every operation
(`Typed.step`): whatever an operation stores goes through the width of
the field.
-/
import SistemasOperativos.FileSystem.Persistence
import SistemasOperativos.FileSystem.SoundTheorems

namespace SistemasOperativos.FileSystem

open Layout

variable {δ : Type}

/-! ## Fields in range -/

structure InodeTyped (n : Inode) : Prop where
  size : n.fileSizeBytes < 4294967296
  uid : n.ownerUserId < 65536
  gid : n.ownerGroupId < 65536
  perm : n.permissionBits < 65536
  atime : TimeOk n.lastAccessTime
  mtime : TimeOk n.lastModificationTime
  ctime : TimeOk n.lastMetadataChangeTime
  links : n.hardLinksCount < 65536
  slots : ∀ k, numDirectBlocks ≤ k → n.directBlockPtrs k = none
  ptrs : ∀ k b, n.directBlockPtrs k = some b → b < maxBlocks

structure SuperblockTyped (sb : Superblock) : Prop where
  totalInodes : sb.totalInodes < 4294967296
  totalBlocks : sb.totalBlocks < 4294967296
  freeInodes : sb.freeInodesCount < 4294967296
  freeBlocks : sb.freeBlocksCount < 4294967296
  blockSize : sb.blockSizeBytes < 4294967296
  fileSize : sb.maxFileSizeBytes < 4294967296
  filename : sb.maxFilenameLength < 4294967296
  path : sb.maxPathLength < 4294967296

/-- Every field is in the range of its type. -/
structure Typed (s : Fs δ) : Prop where
  inodes : ∀ i, InodeTyped (s.inodes i)
  blocks : ∀ b, maxBlocks ≤ b → s.intmap.blocks b = false
  superblock : SuperblockTyped s.superblock

theorem u16_lt (n : Nat) : u16 n < 65536 := by
  unfold u16
  omega

theorem u16Inc_lt (n : Nat) : u16Inc n < 65536 := by
  unfold u16Inc
  exact u16_lt _

theorem u16Dec_lt {n : Nat} (h : n < 65536) : u16Dec n < 65536 := by
  unfold u16Dec
  split <;> omega

theorem permOfMode_lt (mode : Nat) : permOfMode mode < 65536 := by
  unfold permOfMode
  split <;> split <;> split <;> decide

section Primitives

variable {s : Fs δ} {i : Fin maxInodes}

theorem Typed.modifyInode (h : Typed s) {f : Inode → Inode}
    (hf : InodeTyped (s.inodes i) → InodeTyped (f (s.inodes i))) : Typed (s.modifyInode i f) where
  inodes := by
    intro j
    by_cases hj : j = i
    · subst hj
      simpa [Fs.modifyInode] using hf (h.inodes j)
    · simpa [Fs.modifyInode, hj] using h.inodes j
  blocks := h.blocks
  superblock := h.superblock

theorem Typed.withData (h : Typed s) (data : δ) : Typed { s with data := data } :=
  ⟨h.inodes, h.blocks, h.superblock⟩

theorem Typed.setInodeUsed (h : Typed s) :
    Typed { s with intmap := setInodeUsed s.intmap i } :=
  ⟨h.inodes, h.blocks, h.superblock⟩

theorem Typed.clearInodeUsed (h : Typed s) :
    Typed { s with intmap := clearInodeUsed s.intmap i } :=
  ⟨h.inodes, h.blocks, h.superblock⟩

theorem Typed.setBlockUsed (h : Typed s) (b : Nat) :
    Typed { s with intmap := setBlockUsed s.intmap b } := by
  refine ⟨h.inodes, ?_, h.superblock⟩
  intro b' hb'
  show (FileSystem.setBlockUsed s.intmap b).blocks b' = false
  unfold FileSystem.setBlockUsed
  split
  · exact h.blocks b' hb'
  · have hne : b' ≠ b := by omega
    simpa [hne] using h.blocks b' hb'

theorem Typed.clearBlockUsed (h : Typed s) (b : Nat) :
    Typed { s with intmap := clearBlockUsed s.intmap b } := by
  refine ⟨h.inodes, ?_, h.superblock⟩
  intro b' hb'
  show (FileSystem.clearBlockUsed s.intmap b).blocks b' = false
  unfold FileSystem.clearBlockUsed
  split
  · exact h.blocks b' hb'
  · have hne : b' ≠ b := by omega
    simpa [hne] using h.blocks b' hb'

theorem Typed.withSuperblock (h : Typed s) {sb : Superblock} (hsb : SuperblockTyped sb) :
    Typed { s with superblock := sb } :=
  ⟨h.inodes, h.blocks, hsb⟩

theorem Typed.incFreeInodes (h : Typed s) : Typed (incFreeInodes s) :=
  h.withSuperblock { h.superblock with freeInodes := u32Inc_lt _ }

theorem Typed.incFreeBlocks (h : Typed s) : Typed (incFreeBlocks s) :=
  h.withSuperblock { h.superblock with freeBlocks := u32Inc_lt _ }

theorem Typed.decFreeInodes (h : Typed s) : Typed (decFreeInodes s) :=
  h.withSuperblock { h.superblock with freeInodes := u32Dec_lt h.superblock.freeInodes }

theorem Typed.decFreeBlocks (h : Typed s) : Typed (decFreeBlocks s) :=
  h.withSuperblock { h.superblock with freeBlocks := u32Dec_lt h.superblock.freeBlocks }

variable {c : Ctx}

theorem inodeInit_typed (hc : TimeOk c.now) : InodeTyped (inodeInit c) where
  size := by simp [inodeInit]
  uid := u16_lt _
  gid := u16_lt _
  perm := show permRead < 65536 by decide
  atime := hc
  mtime := hc
  ctime := hc
  links := by simp [inodeInit]
  slots := fun _ _ => rfl
  ptrs := fun _ _ h => nomatch h

theorem Typed.inodeUpdateAtime (h : Typed s) (hc : TimeOk c.now) :
    Typed (inodeUpdateAtime c i s) :=
  h.modifyInode fun hn => { hn with atime := hc }

theorem Typed.inodeUpdateMtime (h : Typed s) (hc : TimeOk c.now) :
    Typed (inodeUpdateMtime c i s) :=
  h.modifyInode fun hn => { hn with mtime := hc }

theorem Typed.inodeUpdateCtime (h : Typed s) (hc : TimeOk c.now) :
    Typed (inodeUpdateCtime c i s) :=
  h.modifyInode fun hn => { hn with ctime := hc }

theorem Typed.inodeIncrementLinks (h : Typed s) : Typed (inodeIncrementLinks i s) :=
  h.modifyInode fun hn => { hn with links := u16Inc_lt _ }

theorem Typed.inodeDecrementLinks (h : Typed s) : Typed (inodeDecrementLinks i s) :=
  h.modifyInode fun hn => { hn with links := u16Dec_lt hn.links }

/-- A store of a block number, or of -1, in one of the slots. -/
theorem Typed.setPtr (h : Typed s) {k : Nat} {b : Option Nat} (hk : k < numDirectBlocks)
    (hb : ∀ x, b = some x → x < maxBlocks) : Typed (setPtr i k b s) := by
  refine h.modifyInode fun hn => { hn with slots := ?_, ptrs := ?_ }
  · intro k' hk'
    have hne : k' ≠ k := by omega
    simpa [hne] using hn.slots k' hk'
  · intro k' b' hb'
    by_cases hkk : k' = k
    · subst hkk
      exact hb b' (by simpa using hb')
    · exact hn.ptrs k' b' (by simpa [hkk] using hb')

theorem Typed.inodeAddDirectBlock (h : Typed s) {b : Nat} {t : Fs δ}
    (ht : inodeAddDirectBlock s i b = some t) : Typed t := by
  unfold FileSystem.inodeAddDirectBlock at ht
  split at ht
  · cases ht
  · rename_i hb
    split at ht
    · rename_i k hk
      cases ht
      have hlt : k < numDirectBlocks := List.mem_range.mp (List.mem_of_find?_eq_some hk)
      exact (h.setPtr hlt (fun x hx => by cases hx; omega)).setBlockUsed b
    · cases ht

theorem Typed.allocateInode (h : Typed s) (hc : TimeOk c.now) {t : Fs δ} {j : Fin maxInodes}
    (ht : allocateInode c s = some (j, t)) : Typed t := by
  unfold FileSystem.allocateInode at ht
  split at ht
  · cases ht
    exact h.setInodeUsed.modifyInode fun _ => inodeInit_typed hc
  · cases ht

/-- A loop over the slots of an inode. -/
theorem Typed.foldl {f : Fs δ → Nat → Fs δ}
    (hf : ∀ s k, Typed s → k < numDirectBlocks → Typed (f s k)) {ks : List Nat}
    (hks : ∀ k ∈ ks, k < numDirectBlocks) (h : Typed s) : Typed (ks.foldl f s) := by
  induction ks generalizing s with
  | nil => exact h
  | cons k ks ih =>
    rw [List.foldl_cons]
    exact ih (fun k' hk' => hks k' (List.mem_cons_of_mem _ hk')) (hf s k h (hks k List.mem_cons_self))

theorem Typed.inodeFree (h : Typed s) (hc : TimeOk c.now) : Typed (inodeFree c i s) := by
  have hslots : Typed ((List.range numDirectBlocks).foldl (inodeFreeSlot i) s) := by
    refine Typed.foldl ?_ (fun k hk => List.mem_range.mp hk) h
    intro s k hs hk
    unfold inodeFreeSlot
    split
    · exact (hs.clearBlockUsed _).setPtr hk (fun _ hx => nomatch hx)
    · exact hs
  exact Typed.modifyInode (f := fun _ => inodeInit c) hslots.clearInodeUsed
    fun _ => inodeInit_typed hc

end Primitives

/-! ## Operations -/

section Operations

variable [DataArea δ] {s : Fs δ} {i : Fin maxInodes} {c : Ctx}

theorem Typed.setBytes (h : Typed s) (m : Memory) : Typed (s.setBytes m) := h.withData _

/-- If the operation returns, it returns in a state in range. -/
def Keeps {α : Type} (r : Except Fault (α × Fs δ)) : Prop := ∀ a t, r = .ok (a, t) → Typed t

omit [DataArea δ] in
theorem Keeps.ok {α : Type} {a : α} (h : Typed s) : Keeps (.ok (a, s) : Except Fault (α × Fs δ)) := by
  intro a' t ht
  cases ht
  exact h

omit [DataArea δ] in
theorem Keeps.error {α : Type} (f : Fault) : Keeps (.error f : Except Fault (α × Fs δ)) := by
  intro a t ht
  cases ht

omit [DataArea δ] in
theorem Keeps.pair {α : Type} {p : α × Fs δ} (h : Typed p.2) :
    Keeps (.ok p : Except Fault (α × Fs δ)) := by
  intro a t ht
  cases ht
  exact h

theorem resolveTokens_keeps (hc : TimeOk c.now) (tokens : List CStr) (depth : Nat)
    (cur : Fin maxInodes) (h : Typed s) : Keeps (resolveTokens c tokens depth cur s) := by
  induction tokens generalizing depth cur s with
  | nil => exact .ok h
  | cons token rest ih =>
    unfold resolveTokens
    split
    · exact .ok h
    · split
      · exact .ok h
      · split
        · exact .ok h
        · split
          · exact .error _
          · exact ih _ _ (h.inodeUpdateAtime hc)

theorem fsResolvePath_keeps (hc : TimeOk c.now) (path : CStr) (h : Typed s) :
    Keeps (fsResolvePath c s path) := by
  unfold fsResolvePath
  split
  · exact .ok h
  · split
    · exact .ok h
    · split
      · exact .ok h
      · exact resolveTokens_keeps hc _ _ _ (h.inodeUpdateAtime hc)

theorem fsResolveParent_keeps (hc : TimeOk c.now) (path : CStr) (h : Typed s) :
    Keeps (fsResolveParent c s path) := by
  unfold fsResolveParent
  split
  · exact .ok h
  · split
    · exact .ok h
    · split
      · exact .ok h
      · dsimp only
        split
        · exact .ok h
        · split
          · exact .error _
          · rename_i hpath
            exact .ok (fsResolvePath_keeps hc _ h _ _ hpath)
          · rename_i hpath
            exact .ok (fsResolvePath_keeps hc _ h _ _ hpath)

theorem createFileIn_typed (hc : TimeOk c.now) (h : Typed s) (parent : Fin maxInodes)
    (filename : CStr) (mode : Nat) : Typed (createFileIn c s parent filename mode).2 := by
  unfold createFileIn
  split
  · exact h
  · split
    · exact h
    · split
      · exact h
      · rename_i i s₁ halloc
        have hnew : Typed ((decFreeInodes s₁).modifyInode i fun _ =>
            { inodeInit c with inodeType := .file, permissionBits := u16 mode }) :=
          (h.allocateInode hc halloc).decFreeInodes.modifyInode
            fun _ => { inodeInit_typed hc with perm := u16_lt mode }
        dsimp only
        split
        · exact (hnew.inodeFree hc).incFreeInodes
        · rename_i s₂ hadd
          obtain ⟨b, -, hb⟩ := Option.bind_eq_some_iff.mp hadd
          have hadded : Typed (decFreeBlocks s₂) := (hnew.inodeAddDirectBlock hb).decFreeBlocks
          split
          · exact (hadded.inodeFree hc).incFreeInodes.incFreeBlocks
          · exact hadded.withData _

omit [DataArea δ] in
theorem blockForWrite_typed (h : Typed s) {blockIndex b : Nat} {t : Fs δ}
    (hb : blockForWrite s i blockIndex = some (b, t)) : Typed t := by
  unfold blockForWrite at hb
  split at hb
  · cases hb
    exact h
  · split at hb
    · cases hb
    · obtain ⟨s₁, hadd, heq⟩ := Option.map_eq_some_iff.mp hb
      cases heq
      exact (h.inodeAddDirectBlock hadd).decFreeBlocks

theorem writeLoop_typed (h : Typed s) (buffer : List UInt8) (fuel bytesWritten currentPos : Nat) :
    Typed (writeLoop i buffer fuel s bytesWritten currentPos).1 := by
  induction fuel generalizing s bytesWritten currentPos with
  | zero => exact h
  | succ fuel ih =>
    unfold writeLoop
    split
    · dsimp only
      split
      · exact h
      · split
        · exact h
        · rename_i hb
          exact ih ((blockForWrite_typed h hb).setBytes _) _ _
    · exact h

omit [DataArea δ] in
theorem InodeTyped.grow {n : Inode} (h : InodeTyped n) (pos : Nat) :
    InodeTyped (if pos > n.fileSizeBytes then { n with fileSizeBytes := u32 pos } else n) := by
  split
  · exact { h with size := u32_lt pos }
  · exact h

theorem writeFileAt_typed (hc : TimeOk c.now) (h : Typed s) (buffer : List UInt8) (offset : Int)
    (append : Bool) : Typed (writeFileAt c s i buffer offset append).2 := by
  unfold writeFileAt
  dsimp only
  exact (((writeLoop_typed h _ _ _ _).modifyInode fun hn => hn.grow _).inodeUpdateMtime
    hc).inodeUpdateCtime hc |>.inodeUpdateAtime hc

theorem releaseBlocks_typed (h : Typed s) : Typed (releaseBlocks i s) := by
  refine Typed.foldl ?_ (fun k hk => List.mem_range.mp hk) h
  intro s k hs hk
  unfold releaseSlot
  split
  · exact hs
  · exact ((hs.clearBlockUsed _).setBytes _).incFreeBlocks.setPtr hk (fun _ hx => nomatch hx)

theorem deleteFileIn_typed (hc : TimeOk c.now) (h : Typed s) (parentDir : DirPtr)
    (filename : CStr) : Typed (deleteFileIn c s parentDir filename i).2 := by
  unfold deleteFileIn
  split
  · exact h
  · split
    · exact h
    · rename_i data _
      have hdec : Typed (inodeDecrementLinks i { s with data := data }) :=
        (h.withData data).inodeDecrementLinks
      dsimp only
      refine Typed.inodeUpdateCtime (Typed.inodeUpdateMtime ?_ hc) hc
      split
      · exact Typed.incFreeInodes ((releaseBlocks_typed hdec).clearInodeUsed.modifyInode
          (f := fun _ => inodeInit c) fun _ => inodeInit_typed hc)
      · exact hdec

theorem createDirectoryIn_typed (hc : TimeOk c.now) (h : Typed s) (parent : Fin maxInodes)
    (filename : CStr) (mode : Nat) (name : CStr) :
    Typed (createDirectoryIn c s parent filename mode name).2 := by
  unfold createDirectoryIn
  split
  · exact h
  · split
    · exact h
    · split
      · exact h
      · rename_i i s₁ halloc
        have hinit : Typed (inodeIncrementLinks i
            ((decFreeInodes s₁).modifyInode i fun _ => inodeInit c)) :=
          Typed.inodeIncrementLinks ((h.allocateInode hc halloc).decFreeInodes.modifyInode
            (f := fun _ => inodeInit c) fun _ => inodeInit_typed hc)
        have hnew := hinit.modifyInode (i := i)
          (f := fun n => { n with inodeType := .dir, permissionBits := u16 mode,
                                  fileSizeBytes := directorySize })
          fun hn => { hn with perm := u16_lt mode, size := show directorySize < _ by decide }
        dsimp only
        split
        · exact (hnew.inodeFree hc).incFreeInodes
        · rename_i b _
          split
          · exact ((hnew.inodeFree hc).clearBlockUsed b).incFreeInodes
          · rename_i s₂ hadd
            have hadded := (hnew.inodeAddDirectBlock hadd).decFreeBlocks
            split
            · exact ((((hadded.withData _).inodeFree hc).clearBlockUsed
                b).incFreeInodes).incFreeBlocks
            · exact (hadded.withData _).inodeIncrementLinks

theorem createSymlinkIn_typed (hc : TimeOk c.now) (h : Typed s) (target : CStr)
    (parent : Fin maxInodes) (filename : CStr) :
    Typed (createSymlinkIn c s target parent filename).2 := by
  unfold createSymlinkIn
  split
  · exact h
  · split
    · exact h
    · split
      · exact h
      · split
        · exact h
        · rename_i i s₁ halloc
          have hnew := (h.allocateInode hc halloc).decFreeInodes.modifyInode (i := i)
            (f := fun n => { n with inodeType := .symlink, ownerUserId := u16 c.uid,
                                    ownerGroupId := u16 c.gid, permissionBits := permRwx,
                                    hardLinksCount := 1 })
            fun hn => { hn with uid := u16_lt _, gid := u16_lt _, perm := show permRwx < _ by decide,
                                links := show 1 < _ by decide }
          have hsized := hnew.modifyInode (i := i)
            (f := fun n => { n with fileSizeBytes := u32 target.length })
            fun hn => { hn with size := u32_lt _ }
          dsimp only
          split
          · exact (hnew.inodeFree hc).incFreeInodes
          · split
            · exact (hsized.inodeFree hc).incFreeInodes
            · split
              · exact (hsized.inodeFree hc).incFreeInodes
              · rename_i s₂ hadd
                have hadded := (hsized.inodeAddDirectBlock hadd).decFreeBlocks
                split
                · exact (((hadded.setBytes _).inodeFree hc).incFreeInodes).incFreeBlocks
                · exact (hadded.setBytes _).withData _

theorem createHardLinkIn_typed (h : Typed s) (src parent : Fin maxInodes) (filename : CStr) :
    Typed (createHardLinkIn s src parent filename).2 := by
  unfold createHardLinkIn
  split
  · exact h
  · split
    · exact h
    · split
      · exact h
      · split
        · exact h
        · exact (h.withData _).inodeIncrementLinks

omit [DataArea δ] in
theorem Keeps.codeOnly {α : Type} {r : Except Fault ((Int × α) × Fs δ)} (h : Keeps r) :
    Keeps (codeOnly r) := by
  intro a t ht
  cases r with
  | error f => cases ht
  | ok p =>
    cases ht
    exact h p.1 p.2 rfl

omit [DataArea δ] in
theorem Keeps.resolvedOrFault {α : Type} {r : Except Int (Fin maxInodes)} {a : α}
    {found : Fin maxInodes → α × Fs δ} (hs : Typed s) (hfound : ∀ i, Typed (found i).2) :
    Keeps (resolvedOrFault r (a, s) found) := by
  cases r with
  | error e =>
    unfold FileSystem.resolvedOrFault
    dsimp only
    split
    · exact .ok hs
    · exact .error _
  | ok i => exact .pair (hfound i)

theorem removeDirectoryAt_keeps (hc : TimeOk c.now) (h : Typed s) (path : CStr) :
    Keeps (removeDirectoryAt c s path i) := by
  unfold removeDirectoryAt
  split
  · exact .ok h
  · split
    · exact .ok h
    · split
      · exact .ok h
      · unfold removeDirectoryEntry
        split
        · exact .error _
        · rename_i hr
          exact .ok (fsResolveParent_keeps hc _ h _ _ hr)
        · rename_i hr
          have hs := fsResolveParent_keeps hc _ h _ _ hr
          split
          · exact .ok hs
          · split
            · exact .ok hs
            · exact .ok (Typed.incFreeInodes ((((hs.withData _).inodeFree hc).inodeUpdateCtime
                hc).inodeUpdateCtime hc |>.inodeUpdateMtime hc))

theorem truncateAt_typed (hc : TimeOk c.now) (h : Typed s) (size : Int) :
    Typed (truncateAt c s i size) := by
  unfold truncateAt
  dsimp only
  refine Typed.inodeUpdateCtime (Typed.inodeUpdateMtime (Typed.modifyInode ?_ fun hn =>
    { hn with size := u32_lt _ }) hc) hc
  split
  · exact releaseBlocks_typed h
  · exact h

/-- A path is resolved first; then something happens to its inode. -/
theorem Keeps.afterPath {α : Type} (hc : TimeOk c.now) (h : Typed s) {path : CStr} {e : α}
    {f : Fin maxInodes → Fs δ → Except Fault (α × Fs δ)} {x : Except Fault (α × Fs δ)}
    (hf : ∀ i s', Typed s' → Keeps (f i s'))
    (hfault : ∀ y, fsResolvePath c s path = .error y → x = .error y)
    (herr : ∀ e' s', fsResolvePath c s path = .ok (.error e', s') → x = .ok (e, s'))
    (hok : ∀ i s', fsResolvePath c s path = .ok (.ok i, s') → x = f i s') : Keeps x := by
  cases hpath : fsResolvePath c s path with
  | error y =>
    rw [hfault y hpath]
    exact .error y
  | ok q =>
    obtain ⟨r, s'⟩ := q
    have hs := fsResolvePath_keeps hc _ h _ _ hpath
    cases r with
    | error e' =>
      rw [herr e' s' hpath]
      exact .ok hs
    | ok i =>
      rw [hok i s' hpath]
      exact hf i s' hs

/-- A parent is resolved first; then something happens in it. -/
theorem Keeps.afterParent {α : Type} (hc : TimeOk c.now) (h : Typed s) {path : CStr} {e : α}
    {f : Fin maxInodes → CStr → Fs δ → Except Fault (α × Fs δ)} {x : Except Fault (α × Fs δ)}
    (hf : ∀ d name s', Typed s' → Keeps (f d name s'))
    (hfault : ∀ y, fsResolveParent c s path = .error y → x = .error y)
    (herr : ∀ e' s', fsResolveParent c s path = .ok (.error e', s') → x = .ok (e, s'))
    (hok : ∀ d name s', fsResolveParent c s path = .ok (.ok (d, name), s') →
      x = f d name s') : Keeps x := by
  cases hparent : fsResolveParent c s path with
  | error y =>
    rw [hfault y hparent]
    exact .error y
  | ok q =>
    obtain ⟨r, s'⟩ := q
    have hs := fsResolveParent_keeps hc _ h _ _ hparent
    cases r with
    | error e' =>
      rw [herr e' s' hparent]
      exact .ok hs
    | ok dn =>
      obtain ⟨d, name⟩ := dn
      rw [hok d name s' hparent]
      exact hf d name s' hs

theorem fsCreateFile_keeps (hc : TimeOk c.now) (h : Typed s) (path : CStr) (mode : Nat) :
    Keeps (fsCreateFile c s path mode) := by
  unfold fsCreateFile
  split
  · exact .ok h
  · split
    · exact .ok h
    · exact .afterParent hc h (f := fun d name s => .ok (createFileIn c s d name mode))
        (fun d name s hs => .pair (createFileIn_typed hc hs d name mode))
        (fun y hy => by rw [hy]) (fun e' s' he => by rw [he]) (fun d name s' ho => by rw [ho])

theorem readFileAt_typed (hc : TimeOk c.now) (h : Typed s) (size : Nat) (offset : Int) :
    Typed (readFileAt c s i size offset).2 := by
  unfold readFileAt
  dsimp only
  split
  · exact h
  · exact h.inodeUpdateAtime hc

theorem fsReadFile_keeps (hc : TimeOk c.now) (h : Typed s) (path : CStr) (size : Nat)
    (offset : Int) : Keeps (fsReadFile c s path size offset) := by
  unfold fsReadFile
  split
  · exact .error _
  · rename_i hr
    exact .ok (fsResolveParent_keeps hc _ h _ _ hr)
  · rename_i hr
    have hs := fsResolveParent_keeps hc _ h _ _ hr
    split
    · exact .ok hs
    · split
      · exact .ok hs
      · split
        · exact .error _
        · exact .pair (readFileAt_typed hc hs size offset)

theorem fsWriteFile_keeps (hc : TimeOk c.now) (h : Typed s) (path : CStr) (buffer : List UInt8)
    (offset : Int) (append : Bool) : Keeps (fsWriteFile c s path buffer offset append) := by
  unfold fsWriteFile
  split
  · exact .ok h
  · split
    · exact .error _
    · rename_i hr
      exact .ok (fsResolveParent_keeps hc _ h _ _ hr)
    · rename_i hr
      have hs := fsResolveParent_keeps hc _ h _ _ hr
      split
      · exact .ok hs
      · split
        · exact .ok hs
        · split
          · exact .error _
          · exact .pair (writeFileAt_typed hc hs buffer offset append)

theorem fsDeleteFile_keeps (hc : TimeOk c.now) (h : Typed s) (path : CStr) :
    Keeps (fsDeleteFile c s path) := by
  unfold fsDeleteFile
  split
  · exact .error _
  · rename_i hr
    exact .ok (fsResolveParent_keeps hc _ h _ _ hr)
  · rename_i hr
    have hs := fsResolveParent_keeps hc _ h _ _ hr
    split
    · exact .ok hs
    · split
      · exact .ok hs
      · split
        · exact .error _
        · exact .pair (deleteFileIn_typed hc hs _ _)

theorem fsCreateDirectory_keeps (hc : TimeOk c.now) (h : Typed s) (path : CStr) (mode : Nat)
    (name : CStr) : Keeps (fsCreateDirectory c s path mode name) := by
  unfold fsCreateDirectory
  split
  · exact .ok h
  · split
    · exact .ok h
    · exact .afterParent hc h
        (f := fun d filename s => .ok (createDirectoryIn c s d filename mode name))
        (fun d filename s hs => .pair (createDirectoryIn_typed hc hs d filename mode name))
        (fun y hy => by rw [hy]) (fun e' s' he => by rw [he]) (fun d name s' ho => by rw [ho])

theorem listDirectoryAt_typed (hc : TimeOk c.now) (h : Typed s) :
    Typed (listDirectoryAt c s i).2 := by
  unfold listDirectoryAt
  split
  · exact h
  · split
    · exact h
    · exact h.inodeUpdateAtime hc

theorem fsListDirectory_keeps (hc : TimeOk c.now) (h : Typed s) (path : CStr) :
    Keeps (fsListDirectory c s path) := by
  unfold fsListDirectory
  split
  · exact .ok h
  · split
    · exact .ok h
    · split
      · exact .error _
      · rename_i hr
        have hs := fsResolvePath_keeps hc _ h _ _ hr
        exact Keeps.resolvedOrFault hs fun i => listDirectoryAt_typed hc hs

theorem fsRemoveDirectory_keeps (hc : TimeOk c.now) (h : Typed s) (path : CStr) :
    Keeps (fsRemoveDirectory c s path) := by
  unfold fsRemoveDirectory
  split
  · exact .ok h
  · split
    · exact .ok h
    · split
      · exact .error _
      · rename_i r s₁ hr
        have hs := fsResolvePath_keeps hc _ h _ _ hr
        cases r with
        | error e =>
          simp only [resolvedOrFault]
          split
          · exact .ok hs
          · exact .error _
        | ok i => exact removeDirectoryAt_keeps hc hs path

theorem fsStatistics_keeps (hc : TimeOk c.now) (h : Typed s) (path : CStr) :
    Keeps (fsStatistics c s path) := by
  unfold fsStatistics
  split
  · exact .error _
  · rename_i hr
    have hs := fsResolvePath_keeps hc _ h _ _ hr
    exact Keeps.resolvedOrFault hs fun i => hs.inodeUpdateAtime hc

theorem fsCreateSymlink_keeps (hc : TimeOk c.now) (h : Typed s) (target linkpath : CStr) :
    Keeps (fsCreateSymlink c s target linkpath) :=
  .afterParent hc h (f := fun d name s => .ok (createSymlinkIn c s target d name))
    (fun d name s hs => .pair (createSymlinkIn_typed hc hs target d name))
    (fun y hy => by rw [fsCreateSymlink, hy]) (fun e' s' he => by rw [fsCreateSymlink, he])
    (fun d name s' ho => by rw [fsCreateSymlink, ho])

theorem fsReadSymlink_keeps (hc : TimeOk c.now) (h : Typed s) (path : CStr) (size : Nat) :
    Keeps (fsReadSymlink c s path size) := by
  unfold fsReadSymlink
  split
  · exact .error _
  · rename_i hr
    exact .ok (fsResolvePath_keeps hc _ h _ _ hr)
  · rename_i hr
    have hs := fsResolvePath_keeps hc _ h _ _ hr
    split
    · exact .ok hs
    · split
      · exact .ok hs
      · exact .ok hs

theorem fsCreateHardLink_keeps (hc : TimeOk c.now) (h : Typed s) (source dest : CStr) :
    Keeps (fsCreateHardLink c s source dest) := by
  unfold fsCreateHardLink
  split
  · exact .error _
  · rename_i hr
    exact .ok (fsResolvePath_keeps hc _ h _ _ hr)
  · rename_i src s₁ hr
    have hs := fsResolvePath_keeps hc _ h _ _ hr
    split
    · exact .ok hs
    · exact .afterParent hc hs (f := fun d name s => .ok (createHardLinkIn s src d name))
        (fun d name s hs => .pair (createHardLinkIn_typed hs src d name))
        (fun y hy => by rw [hy]) (fun e' s' he => by rw [he]) (fun d name s' ho => by rw [ho])

theorem fsChangeMode_keeps (hc : TimeOk c.now) (h : Typed s) (path : CStr) (mode : Nat) :
    Keeps (fsChangeMode c s path mode) := by
  refine .afterPath hc h (f := fun i s => .ok (0, inodeUpdateCtime c i
      (s.modifyInode i (fun n => { n with permissionBits := permOfMode mode }))))
    (fun i s hs => ?_) (fun y hy => by rw [fsChangeMode, hy])
    (fun e' s' he => by rw [fsChangeMode, he]) (fun i s' ho => by rw [fsChangeMode, ho])
  exact .ok ((hs.modifyInode fun hn => { hn with perm := permOfMode_lt mode }).inodeUpdateCtime hc)

theorem fsChangeOwner_keeps (hc : TimeOk c.now) (h : Typed s) (path : CStr) (uid gid : Nat) :
    Keeps (fsChangeOwner c s path uid gid) := by
  refine .afterPath hc h (f := fun i s => .ok (0, inodeUpdateCtime c i (s.modifyInode i
      (fun n => { n with ownerUserId := u16 uid, ownerGroupId := u16 gid }))))
    (fun i s hs => ?_) (fun y hy => by rw [fsChangeOwner, hy])
    (fun e' s' he => by rw [fsChangeOwner, he]) (fun i s' ho => by rw [fsChangeOwner, ho])
  exact .ok ((hs.modifyInode fun hn =>
    { hn with uid := u16_lt uid, gid := u16_lt gid }).inodeUpdateCtime hc)

theorem fisopfsTruncate_keeps (hc : TimeOk c.now) (h : Typed s) (path : CStr) (size : Int) :
    Keeps (fisopfsTruncate c s path size) :=
  .afterPath hc h (f := fun i s => .ok (0, truncateAt c s i size))
    (fun i s hs => .ok (truncateAt_typed hc hs size))
    (fun y hy => by rw [fisopfsTruncate, hy]) (fun e' s' he => by rw [fisopfsTruncate, he])
    (fun i s' ho => by rw [fisopfsTruncate, ho])

theorem fisopfsUtimens_keeps (hc : TimeOk c.now) (h : Typed s) (path : CStr) {atime mtime : Int}
    (hatime : TimeOk atime) (hmtime : TimeOk mtime) :
    Keeps (fisopfsUtimens c s path atime mtime) := by
  refine .afterPath hc h (f := fun i s => .ok (0, s.modifyInode i (fun n =>
      { n with lastAccessTime := atime, lastModificationTime := mtime })))
    (fun i s hs => ?_) (fun y hy => by rw [fisopfsUtimens, hy])
    (fun e' s' he => by rw [fisopfsUtimens, he]) (fun i s' ho => by rw [fisopfsUtimens, ho])
  exact .ok (hs.modifyInode fun hn => { hn with atime := hatime, mtime := hmtime })

/-- Every operation keeps the fields in range. -/
theorem Typed.step (hc : TimeOk c.now) (h : Typed s) {op : Op}
    (hop : ∀ path atime mtime, op = .utimens path atime mtime → TimeOk atime ∧ TimeOk mtime) :
    Keeps (step c s op) := by
  cases op with
  | createFile path mode => exact fsCreateFile_keeps hc h path mode
  | readFile path size offset => exact (fsReadFile_keeps hc h path size offset).codeOnly
  | writeFile path buffer offset append => exact fsWriteFile_keeps hc h path buffer offset append
  | deleteFile path => exact fsDeleteFile_keeps hc h path
  | createDirectory path mode name => exact fsCreateDirectory_keeps hc h path mode name
  | listDirectory path => exact (fsListDirectory_keeps hc h path).codeOnly
  | removeDirectory path => exact fsRemoveDirectory_keeps hc h path
  | statistics path => exact (fsStatistics_keeps hc h path).codeOnly
  | createSymlink target linkpath => exact fsCreateSymlink_keeps hc h target linkpath
  | readSymlink path size => exact (fsReadSymlink_keeps hc h path size).codeOnly
  | createHardLink source dest => exact fsCreateHardLink_keeps hc h source dest
  | changeMode path mode => exact fsChangeMode_keeps hc h path mode
  | changeOwner path uid gid => exact fsChangeOwner_keeps hc h path uid gid
  | truncate path size => exact fisopfsTruncate_keeps hc h path size
  | utimens path atime mtime =>
    obtain ⟨hatime, hmtime⟩ := hop path atime mtime rfl
    exact fisopfsUtimens_keeps hc h path hatime hmtime

end Operations

theorem fsInit_typed [DataArea δ] {c : Ctx} (hc : TimeOk c.now) : Typed (fsInit c : Fs δ) where
  inodes := by
    intro i
    simp only [fsInit]
    by_cases hi : i = 0
    · subst hi
      rw [Function.update_self]
      refine { inodeInit_typed hc with
        size := show directorySize < _ by decide, uid := show 0 < _ by decide,
        gid := show 0 < _ by decide, perm := show permRwx < _ by decide, slots := ?_, ptrs := ?_ }
      · intro k hk
        have hne : k ≠ 0 := by
          rintro rfl
          simp [numDirectBlocks] at hk
        simp [hne]
      · intro k b hb
        by_cases hk : k = 0
        · subst hk
          have hzero : some 0 = some b := by simpa using hb
          cases hzero
          decide
        · simp [hk] at hb
    · rw [Function.update_of_ne hi]
      exact inodeInit_typed hc
  blocks := by
    intro b hb
    have hne : b ≠ 0 := by
      rintro rfl
      simp [maxBlocks] at hb
    simp [fsInit, FileSystem.setInodeUsed, FileSystem.setBlockUsed, intmapInit, hne]
  superblock :=
    { totalInodes := show maxInodes < _ by decide
      totalBlocks := show maxBlocks < _ by decide
      freeInodes := show maxInodes - 1 < _ by decide
      freeBlocks := show maxBlocks - 1 < _ by decide
      blockSize := show FileSystem.blockSize < _ by decide
      fileSize := show numDirectBlocks * FileSystem.blockSize < _ by decide
      filename := show maxFilenameLen < _ by decide
      path := show maxPathLen < _ by decide }

/-! ## What is in range can be read back -/

theorem ptrCodec_fits {b : Option Nat} (h : ∀ x, b = some x → x < maxBlocks) : ptrCodec.Fits b := by
  cases b with
  | none => exact ⟨show 4294967295 < 256 ^ 4 by decide, rfl⟩
  | some x =>
    have hx : x < 1024 := h x rfl
    refine ⟨show x < 256 ^ 4 by omega, ?_⟩
    have hne : x ≠ 4294967295 := by omega
    simp [hne]

theorem inodeTypeCodec_fits (t : InodeType) : inodeTypeCodec.Fits t := by
  cases t with
  | file => exact ⟨show 0 < 256 ^ 4 by decide, rfl⟩
  | dir => exact ⟨show 1 < 256 ^ 4 by decide, rfl⟩
  | symlink => exact ⟨show 2 < 256 ^ 4 by decide, rfl⟩

theorem cellCodec_fits (b : Bool) : cellCodec.Fits b := by
  cases b with
  | false => exact ⟨trivial, rfl⟩
  | true => exact ⟨trivial, rfl⟩

theorem TimeOk.fits {t : Int} (h : TimeOk t) : (int 8).Fits t := by
  obtain ⟨hlow, hhigh⟩ := h
  refine int_fits ?_ ?_
  · show -((18446744073709551616 : Nat) : Int) ≤ 2 * t
    omega
  · show 2 * t < ((18446744073709551616 : Nat) : Int)
    omega

theorem ofPtrs_eq {ptrs : Nat → Option Nat} (h : ∀ k, numDirectBlocks ≤ k → ptrs k = none) :
    ofPtrs (fun k => ptrs k.val) = ptrs := by
  funext k
  unfold ofPtrs
  split
  · rfl
  · rename_i hk
    exact (h k (by omega)).symm

theorem InodeTyped.fits {n : Inode} (h : InodeTyped n) : inodeCodec.Fits n := by
  refine ⟨⟨h.size, h.uid, h.gid, h.perm, trivial, h.atime.fits, h.mtime.fits, h.ctime.fits, h.links,
    trivial, fun k => ptrCodec_fits (h.ptrs k.val), inodeTypeCodec_fits _⟩, ?_⟩
  simp only [ofPtrs_eq h.slots]

theorem Typed.fits {s : Fs Flat} (h : Typed s) : imageCodec.Fits s.image := by
  refine ⟨⟨fun i => (h.inodes i).fits, ⟨⟨fun i => cellCodec_fits _, fun b => cellCodec_fits _⟩, ?_⟩,
    ⟨⟨h.superblock.totalInodes, h.superblock.totalBlocks, h.superblock.freeInodes,
      h.superblock.freeBlocks, h.superblock.blockSize, h.superblock.fileSize,
      h.superblock.filename, h.superblock.path, ?_⟩, ?_⟩, fun a => trivial, trivial⟩, rfl⟩
  · -- past the end of the array nothing is marked
    simp only [Option.some.injEq]
    refine congrArg (Intmap.mk s.intmap.inodes) (funext fun b => ?_)
    split
    · rfl
    · rename_i hb
      exact (h.blocks b (by omega)).symm
  · show s.superblock.rootInodeNumber.val < 256 ^ 4
    have hlt := s.superblock.rootInodeNumber.isLt
    have hmax : maxInodes < 256 ^ 4 := by decide
    omega
  · exact dif_pos s.superblock.rootInodeNumber.isLt

/-- A file of the full size is read back as the struct that was written. -/
theorem Typed.dec_enc {s : Fs Flat} (h : Typed s) :
    imageCodec.dec (imageCodec.enc s.image) = some s.image :=
  imageCodec.dec_enc _ h.fits

theorem Typed.toFs {s : Fs Flat} (h : Typed s) (behind : Memory) : Typed (s.image.toFs behind) :=
  ⟨h.inodes, h.blocks, h.superblock⟩

theorem newFs_typed {c : Ctx} (hc : TimeOk c.now) (behind : Memory) : Typed (newFs c behind) :=
  (fsInit_typed hc).toFs behind

theorem length_enc_image (s : Fs Flat) : (imageCodec.enc s.image).length = sizeofFs :=
  imageCodec.length_enc _

theorem sizeofFs_pos : 0 < sizeofFs := by
  rw [sizeofFs_eq]
  decide

/-! ## The archive -/

/-- The daemon with the last struct that was written whole in the place
of the file. -/
structure Archive where
  saved : Option Image
  live : Option (Fs Flat)

/-- What a mount finds. -/
def Archive.load (a : Archive) (c : Ctx) (behind : Memory) (opens : Bool) : Fs Flat :=
  match a.saved with
  | some im => if opens then im.toFs behind else newFs c behind
  | none => newFs c behind

/-- What an unmount leaves: a struct that was not written whole is lost,
and so is the one before it. -/
def Archive.store (a : Archive) (s : Fs Flat) (written : Option Nat) : Option Image :=
  match written with
  | none => a.saved
  | some n => if sizeofFs ≤ n then some s.image else none

def Archive.step (u : User) (a : Archive) : Event → Option Archive
  | .mount now behind opens =>
      match a.live with
      | none => some { a with live := some (a.load (u.at now) behind opens) }
      | some _ => none
  | .op now o =>
      match a.live with
      | none => none
      | some s =>
          match FileSystem.step (u.at now) s o with
          | .ok (_, t) => some { a with live := some t }
          | .error _ => none
  | .unmount written =>
      match a.live with
      | none => none
      | some s => some { saved := a.store s written, live := none }
  | .crash =>
      match a.live with
      | none => none
      | some _ => some { a with live := none }

inductive Archive.Run (u : User) : List Event → Archive → Prop where
  | refl : Archive.Run u [] ⟨none, none⟩
  | step {a a' : Archive} {evs : List Event} {ev : Event} (hrun : Archive.Run u evs a)
      (h : a.step u ev = some a') : Archive.Run u (evs ++ [ev]) a'

/-- The file against what it stands for. -/
def Holds (disk : Disk) (saved : Option Image) : Prop :=
  match saved with
  | some im => disk = some (imageCodec.enc im) ∧ ∃ s : Fs Flat, Typed s ∧ s.image = im
  | none => ∀ file, disk = some file → file.length < sizeofFs

structure Daemon.Stands (d : Daemon) (a : Archive) : Prop where
  disk : Holds d.disk a.saved
  live : d.live = a.live
  typed : ∀ s, d.live = some s → Typed s

/-- A mount finds in the file what it stands for. -/
theorem Holds.fisopsInit {disk : Disk} {a : Archive} (h : Holds disk a.saved) (c : Ctx)
    (behind : Memory) (opens : Bool) :
    fisopsInit c behind opens disk = some (a.load c behind opens) := by
  obtain ⟨saved, live⟩ := a
  cases saved with
  | none =>
    cases disk with
    | none => rfl
    | some file =>
      have hshort : file.length < sizeofFs := h file rfl
      simp only [FileSystem.fisopsInit, Archive.load, if_pos hshort, ite_self]
  | some im =>
    obtain ⟨rfl, s, hs, rfl⟩ := h
    have hlen := length_enc_image s
    have hpos := sizeofFs_pos
    have htake : (imageCodec.enc s.image).take sizeofFs = imageCodec.enc s.image :=
      List.take_of_length_le hlen.le
    cases opens with
    | false => rfl
    | true =>
      simp only [FileSystem.fisopsInit, Archive.load, hlen, htake, hs.dec_enc]
      simp [hpos.ne']

/-- An unmount leaves a file that stands for what the archive keeps. -/
theorem Holds.fisopsDestroy {disk : Disk} {a : Archive} (h : Holds disk a.saved) {s : Fs Flat}
    (hs : Typed s) (written : Option Nat) :
    Holds (fisopsDestroy s written disk) (a.store s written) := by
  cases written with
  | none => exact h
  | some n =>
    have hlen := length_enc_image s
    simp only [FileSystem.fisopsDestroy, Archive.store]
    split
    · rename_i hn
      exact ⟨congrArg some (List.take_of_length_le (by omega)), s, hs, rfl⟩
    · rename_i hn
      rintro file hfile
      cases hfile
      rw [List.length_take]
      omega

/-- One event. -/
theorem Daemon.Stands.step {u : User} {d d' : Daemon} {a : Archive} {ev : Event}
    (h : d.Stands a) (htimes : ev.TimesOk) (hstep : d.step u ev = some d') :
    ∃ a', a.step u ev = some a' ∧ d'.Stands a' := by
  obtain ⟨disk, live⟩ := d
  obtain ⟨saved, live'⟩ := a
  obtain ⟨hdisk, hlive, htyped⟩ := h
  cases hlive
  cases ev with
  | mount now behind opens =>
    cases live with
    | some s => cases hstep
    | none =>
      simp only [Daemon.step, hdisk.fisopsInit, Option.map_some, Option.some.injEq] at hstep
      subst hstep
      refine ⟨_, rfl, hdisk, rfl, ?_⟩
      rintro s hs
      cases hs
      unfold Archive.load
      split
      · rename_i im hsaved
        cases hsaved
        obtain ⟨-, s, hs, rfl⟩ := hdisk
        split
        · exact hs.toFs behind
        · exact newFs_typed (c := u.at now) htimes behind
      · exact newFs_typed (c := u.at now) htimes behind
  | op now o =>
    cases live with
    | none => cases hstep
    | some s =>
      simp only [Daemon.step] at hstep
      cases hr : FileSystem.step (u.at now) s o with
      | error f => simp [hr] at hstep
      | ok p =>
        simp only [hr, Option.some.injEq] at hstep
        subst hstep
        refine ⟨⟨saved, some p.2⟩, by simp [Archive.step, hr], hdisk, rfl, ?_⟩
        rintro t ht
        cases ht
        exact (htyped s rfl).step htimes.1 htimes.2 p.1 p.2 hr
  | unmount written =>
    cases live with
    | none => cases hstep
    | some s =>
      cases hstep
      exact ⟨_, rfl, hdisk.fisopsDestroy (a := ⟨saved, some s⟩) (htyped s rfl) written, rfl,
        fun _ h => by cases h⟩
  | crash =>
    cases live with
    | none => cases hstep
    | some s =>
      cases hstep
      exact ⟨_, rfl, hdisk, rfl, fun _ h => by cases h⟩

theorem Daemon.Run.stands {u : User} {evs : List Event} {d : Daemon} (h : Daemon.Run u evs d) :
    ∃ a, Archive.Run u evs a ∧ d.Stands a := by
  induction h with
  | refl =>
    refine ⟨_, .refl, ?_, rfl, fun _ h => by cases h⟩
    rintro file hfile
    cases hfile
  | step _ htimes hstep ih =>
    obtain ⟨a, ha, hstands⟩ := ih
    obtain ⟨a', ha', hstands'⟩ := hstands.step htimes hstep
    exact ⟨a', ha.step ha', hstands'⟩

/-- Over any sequence of mounts, operations, unmounts, failed or partial
writes and crashes, the file is as good as the struct that was last
written whole: the daemon with the file behaves as the one that keeps
that struct, mount for mount. -/
theorem persistence_refines_archive {u : User} {evs : List Event} {d : Daemon}
    (h : Daemon.Run u evs d) : ∃ saved, Archive.Run u evs ⟨saved, d.live⟩ := by
  obtain ⟨⟨saved, live⟩, ha, hstands⟩ := h.stands
  refine ⟨saved, ?_⟩
  rw [hstands.live]
  exact ha

/-- After any history, unmounting and mounting again gives the same
inodes, maps, superblock and data blocks, and only the memory behind the
struct is new, if all the bytes reached the file; if fewer did, the file
system that is mounted next is a new one. -/
theorem remount_iff_written_whole {u : User} {evs : List Event} {disk : Disk} {s : Fs Flat}
    (h : Daemon.Run u evs ⟨disk, some s⟩) (c : Ctx) (behind : Memory) (n : Nat) :
    fisopsInit c behind true (fisopsDestroy s (some n) disk) =
      some (if sizeofFs ≤ n then s.image.toFs behind else newFs c behind) := by
  obtain ⟨a, -, hstands⟩ := h.stands
  have hholds := hstands.disk.fisopsDestroy (hstands.typed s rfl) (some n)
  have hinit := Holds.fisopsInit (a := ⟨a.store s (some n), none⟩) hholds c behind true
  rw [hinit]
  simp only [Archive.load, Archive.store]
  split
  · rename_i im hwhole
    split at hwhole
    · cases hwhole
      rename_i hn
      simp [hn]
    · cases hwhole
  · rename_i hwhole
    split at hwhole
    · cases hwhole
    · rename_i hn
      simp [hn]

/-- A mount and a new file. -/
def createAfterMount : List Event :=
  [.mount 0 (fun _ => 0) true, .op 0 (.createFile [47, 97] 0o644)]

/-- The daemon after `createAfterMount`, and where `/a` is. -/
theorem createAfterMount_runs : ∃ disk s, Daemon.Run ⟨0, 0⟩ createAfterMount ⟨disk, some s⟩ ∧
    directoryLookup s.data ⟨0, 0⟩ [97] = 1 := by
  have hseen : ((Daemon.step ⟨0, 0⟩ ⟨none, none⟩ (.mount 0 (fun _ => 0) true)).bind fun d =>
      (d.step ⟨0, 0⟩ (.op 0 (.createFile [47, 97] 0o644))).bind fun d =>
        d.live.map fun s => directoryLookup s.data ⟨0, 0⟩ [97]) = some 1 := by
    decide +kernel
  obtain ⟨d₁, h₁, hseen⟩ := Option.bind_eq_some_iff.mp hseen
  obtain ⟨d₂, h₂, hseen⟩ := Option.bind_eq_some_iff.mp hseen
  obtain ⟨s, hs, hfound⟩ := Option.map_eq_some_iff.mp hseen
  have htime : TimeOk 0 := ⟨by decide, by decide⟩
  have hmount : (Event.mount 0 (fun _ => 0) true).TimesOk := htime
  have hcreate : (Event.op 0 (.createFile [47, 97] 0o644)).TimesOk :=
    ⟨htime, fun _ _ _ h => nomatch h⟩
  have hrun : Daemon.Run ⟨0, 0⟩ createAfterMount d₂ := .step (.step .refl hmount h₁) hcreate h₂
  obtain ⟨disk, live⟩ := d₂
  cases hs
  exact ⟨disk, s, hrun, hfound⟩

theorem remount_keeps_new_file : ∃ disk s, Daemon.Run ⟨0, 0⟩ createAfterMount ⟨disk, some s⟩ ∧
    directoryLookup s.data ⟨0, 0⟩ [97] = 1 ∧
    fisopsInit ⟨0, 0, 1⟩ (fun _ => 7) true (fisopsDestroy s (some sizeofFs) disk) =
      some (s.image.toFs fun _ => 7) := by
  obtain ⟨disk, s, hrun, hfound⟩ := createAfterMount_runs
  have hremount := remount_iff_written_whole hrun ⟨0, 0, 1⟩ (fun _ => 7) sizeofFs
  rw [if_pos (Nat.le_refl _)] at hremount
  exact ⟨disk, s, hrun, hfound, hremount⟩

theorem archive_of_new_file : ∃ disk s saved, Daemon.Run ⟨0, 0⟩ createAfterMount ⟨disk, some s⟩ ∧
    directoryLookup s.data ⟨0, 0⟩ [97] = 1 ∧
    Archive.Run ⟨0, 0⟩ createAfterMount ⟨saved, some s⟩ := by
  obtain ⟨disk, s, hrun, hfound⟩ := createAfterMount_runs
  obtain ⟨saved, harchive⟩ := persistence_refines_archive hrun
  exact ⟨disk, s, saved, hrun, hfound, harchive⟩

end SistemasOperativos.FileSystem
