/-
SistemasOperativos.FileSystem.UndoTheorems — `fs_delete_file` after
`fs_create_file` and any editing of the file in between.

Between the two the file may take blocks, give them back on a truncation
to 0 and take others. `Draft` follows what the file system owes to its
state before the creation: every bit, counter, entry and byte is as it
was, up to the inode, the blocks it holds now and its one entry. The
deletion settles that debt whatever the edits were.

What it does not restore is the inode itself: it is left as `inode_init`
fills it, and that is how a free inode is found unless a run has taken
`hard_links_count` past 65535. Then the count comes to 0 while names are
left, and a name that is left still reaches the inode after it was given
back.
-/
import SistemasOperativos.FileSystem.ResolverTheorems
import SistemasOperativos.FileSystem.DirectoryLinkTheorems

namespace SistemasOperativos.FileSystem

/-! ## The specification -/

/-- `op` writes or truncates `path`. -/
def EditsPath (path : CStr) : Op → Prop
  | .writeFile p _ _ _ => p = path
  | .truncate p _ => p = path
  | _ => False

/-- Any number of writes and truncations of `path`. -/
def Edits (u : User) (path : CStr) : Fs Attached → Fs Attached → Prop :=
  Relation.ReflTransGen (StepWith u (fun _ op _ => EditsPath path op))

/-- `t` is `s` but for the time stamps and the bytes of free blocks. -/
structure Undone (s t : Fs Attached) : Prop where
  intmap : t.intmap = s.intmap
  superblock : t.superblock = s.superblock
  dirs : t.data.dirs = s.data.dirs
  inodes : ∀ i, (t.inodes i).untimed = (s.inodes i).untimed
  bytes : ∀ b off, s.intmap.blocks b = true → off < blockSize →
    t.data.bytes (blockAddr b off) = s.data.bytes (blockAddr b off)

/-- The inode `allocate_inode` takes. -/
def firstFreeInode (s : Fs Attached) : Option (Fin maxInodes) :=
  (List.finRange maxInodes).find? (fun i => !s.intmap.inodes i)

/-- The inode the next creation takes is as `inode_init` fills it. -/
def NextInodeClean (u : User) (s : Fs Attached) : Prop :=
  ∀ i, firstFreeInode s = some i → (s.inodes i).untimed = (inodeInit (u.at 0)).untimed

/-! ## The inode that a creation takes -/

theorem createFileIn_takes (c : Ctx) {s t : Fs Attached} {d i : Fin maxInodes} {name : CStr}
    {mode : Nat} (hi : firstFreeInode s = some i)
    (h : createFileIn c s d name mode = (0, t)) : t.intmap.inodes i = true := by
  have hcode : ∀ {r : Int} {x : Fs Attached}, r ≠ 0 → (r, x) ≠ (0, t) := by
    intro r x hr heq
    exact hr (Prod.mk.inj heq).1
  unfold createFileIn at h
  split at h
  · exact absurd h (hcode (by decide))
  split at h
  · exact absurd h (hcode (by decide))
  split at h
  · exact absurd h (hcode (by decide))
  · rename_i j s1 ha
    have hj : i = j ∧ s1.intmap.inodes i = true := by
      rw [allocateInode, show List.find? _ _ = some i from hi] at ha
      obtain ⟨rfl, rfl⟩ := Prod.mk.inj (Option.some.inj ha)
      exact ⟨rfl, by simp [setInodeUsed]⟩
    dsimp only at h
    split at h
    · exact absurd h (hcode (by decide))
    · rename_i s2 hblock
      obtain ⟨b, -, hadd⟩ := Option.bind_eq_some_iff.mp hblock
      obtain ⟨k, -, -, -, rfl⟩ := addDirectBlock_some hadd
      split at h
      · exact absurd h (hcode (by decide))
      · obtain ⟨-, rfl⟩ := Prod.mk.inj h
        exact hj.2

/-- The inode that a creation installs is the first free one. -/
theorem fsCreateFile_first {c : Ctx} {s s' : Fs Attached} (hs : Sound s) {path : CStr}
    {mode b : Nat} {i : Fin maxInodes} {n : Inode} {data : Attached}
    (h : fsCreateFile c s path mode = .ok (0, installed s' i n b data))
    (hmap : s.intmap = s'.intmap) (hi : s'.intmap.inodes i = false) :
    firstFreeInode s = some i := by
  cases hfirst : firstFreeInode s with
  | none =>
      rw [firstFreeInode, List.find?_eq_none] at hfirst
      have := hfirst i (List.mem_finRange i)
      rw [hmap, hi] at this
      exact absurd rfl this
  | some j =>
      have hj : s.intmap.inodes j = false := by
        simpa using List.find?_some hfirst
      unfold fsCreateFile at h
      split at h
      · cases h
      split at h
      · cases h
      obtain ⟨s₁, d, name, hsame, hp, hin⟩ :=
        parent_of_zero (f := fun s d name => createFileIn c s d name mode) hs (by decide : -1 ≠ 0)
          (fun e' s' he => by rw [he]) (fun d name s' he => by rw [he]) h
      have htaken := createFileIn_takes c
        ((hsame.apply firstFreeInode (fun _ => rfl)).symm.trans hfirst) hin
      by_contra hne
      have hji : j ≠ i := fun h => hne (by rw [h])
      have : s'.intmap.inodes j = true := by simpa [installed, hji] using htaken
      rw [← hmap, hj] at this
      cases this

/-! ## Counting the blocks of one inode -/

theorem heldCount_update {n : Inode} {k b m : Nat} (hk : n.directBlockPtrs k = none) :
    heldCount { n with directBlockPtrs := Function.update n.directBlockPtrs k (some b) } m
      = heldCount n m + if k < m then 1 else 0 := by
  induction m with
  | zero => rfl
  | succ m ih =>
      rw [heldCount, heldCount, ih]
      by_cases hkm : m = k
      · subst hkm
        simp [hk]
      · have hlt : k < m + 1 ↔ k < m := by omega
        simp only [Function.update_of_ne hkm, hlt]
        omega

theorem heldCount_congr {n n' : Inode} (h : n'.directBlockPtrs = n.directBlockPtrs) (m : Nat) :
    heldCount n' m = heldCount n m := by
  induction m with
  | zero => rfl
  | succ m ih => rw [heldCount, heldCount, ih, h]

theorem heldCount_clearedTo (n : Inode) {m : Nat} (hm : m ≤ numDirectBlocks) :
    heldCount (clearedTo n numDirectBlocks) m = 0 := by
  induction m with
  | zero => rfl
  | succ m ih =>
      have hnone : (clearedTo n numDirectBlocks).directBlockPtrs m = none := by
        have h := getDirectBlock_clearedTo n m
        rwa [getDirectBlock_of_lt _ (by omega)] at h
      rw [heldCount, ih (by omega), hnone]
      rfl

/-- `free_blocks_count` once the blocks of inode `i` have been released. -/
def owed (s : Fs Attached) (i : Fin maxInodes) : Nat :=
  u32Inc^[heldCount (s.inodes i) numDirectBlocks] s.superblock.freeBlocksCount

theorem owed_putBlock {s : Fs Attached} (hc : s.superblock.freeBlocksCount < 4294967296)
    {i : Fin maxInodes} {k b : Nat} (hk : k < numDirectBlocks)
    (hempty : (s.inodes i).directBlockPtrs k = none) :
    owed (decFreeBlocks (putBlock s i k b)) i = owed s i := by
  have hin : (decFreeBlocks (putBlock s i k b)).inodes i =
      { s.inodes i with
        directBlockPtrs := Function.update (s.inodes i).directBlockPtrs k (some b) } := by
    simp [decFreeBlocks, putBlock, setPtr, Fs.modifyInode]
  have hcount : (decFreeBlocks (putBlock s i k b)).superblock.freeBlocksCount
      = u32Dec s.superblock.freeBlocksCount := rfl
  rw [owed, owed, hin, hcount, heldCount_update hempty, if_pos hk, Function.iterate_succ_apply,
    u32Inc_u32Dec hc]

theorem owed_written {s : Fs Attached} (hs : Sound s) (i : Fin maxInodes)
    (buffer : List UInt8) (pos : Nat) : owed (written s i buffer pos) i = owed s i := by
  have hloop : Sound (writeLoop i buffer loopFuel s 0 pos).1 ∧
      owed (writeLoop i buffer loopFuel s 0 pos).1 i = owed s i :=
    writeLoop_invariant (P := fun t => Sound t ∧ owed t i = owed s i) i buffer
      (fun h => h.1.blockSize)
      (fun h hk hempty _ hb => ⟨h.1.putBlock hempty hb,
        (owed_putBlock h.1.counters.blocks hk hempty).trans h.2⟩)
      (fun h _ _ => ⟨h.1.setBytes _, h.2⟩) _ ⟨hs, rfl⟩ _ _
  have hptr : ((written s i buffer pos).inodes i).directBlockPtrs
      = ((writeLoop i buffer loopFuel s 0 pos).1.inodes i).directBlockPtrs := by
    simp [written, Fs.modifyInode, (grow_frame _ _).2.2]
  rw [← hloop.2, owed, owed, heldCount_congr hptr]
  rfl

theorem owed_truncated {s : Fs Attached} (hs : Sound s) (i : Fin maxInodes) (size : Int) :
    owed (truncated s i size) i = owed s i := by
  unfold truncated
  split
  · rw [releaseBlocks_eq s i (hs.slotsBelow i)]
    have hin : ((Fs.modifyInode { s with
          inodes := Function.update s.inodes i (clearedTo (s.inodes i) numDirectBlocks) } i
          (fun n => { n with fileSizeBytes := u32 (toSize size) })).inodes i).directBlockPtrs
        = (clearedTo (s.inodes i) numDirectBlocks).directBlockPtrs := by
      simp [Fs.modifyInode]
    have hzero := (heldCount_congr hin numDirectBlocks).trans
      (heldCount_clearedTo (s.inodes i) (Nat.le_refl _))
    rw [owed, owed]
    exact congrArg (fun m => u32Inc^[m] (owed s i)) hzero
  · have hin : ((s.modifyInode i
        (fun n => { n with fileSizeBytes := u32 (toSize size) })).inodes i).directBlockPtrs
        = (s.inodes i).directBlockPtrs := by
      simp [Fs.modifyInode]
    rw [owed, owed, heldCount_congr hin]
    rfl

/-! ## Between the creation and the deletion -/

/-- `t` is `s` with a file created at `path` and edited since: inode `i`,
the blocks it holds and the last entry of directory `d` are all that is
new. -/
structure Draft (s : Fs Attached) (path : CStr) (d : Fin maxInodes) (name : CStr)
    (i : Fin maxInodes) (t : Fs Attached) : Prop where
  sound : Sound t
  leads : target t path = some (d, name, i)
  file : (t.inodes i).inodeType = .file
  links : (t.inodes i).hardLinksCount = 1
  others : ∀ j ≠ i, (t.inodes j).untimed = (s.inodes j).untimed
  inodeMap : t.intmap.inodes = Function.update s.intmap.inodes i true
  blockMap : ∀ b, t.intmap.blocks b = (s.intmap.blocks b || holds (t.inodes i) b)
  taken : ∀ b, holds (t.inodes i) b = true → s.intmap.blocks b = false
  superblock : { t.superblock with freeBlocksCount := owed t i }
    = { s.superblock with freeInodesCount := u32Dec s.superblock.freeInodesCount }
  dirs : t.data.dirs = (withEntry s.data d name i).dirs
  bytes : ∀ a, s.intmap.blocks (a / blockSize) = true → t.data.bytes a = s.data.bytes a

theorem Draft.same {s t t' : Fs Attached} {path name : CStr} {d i : Fin maxInodes}
    (h : Draft s path d name i t) (ht : Same t t') : Draft s path d name i t' where
  sound := h.sound.same ht
  leads := by rw [← target_same ht, h.leads]
  file := (ht.apply (fun s => (s.inodes i).inodeType) (fun _ => rfl)).symm.trans h.file
  links := (ht.apply (fun s => (s.inodes i).hardLinksCount) (fun _ => rfl)).symm.trans h.links
  others := fun j hj =>
    (ht.apply (fun s => (s.inodes j).untimed) (fun _ => rfl)).symm.trans (h.others j hj)
  inodeMap := (ht.apply (fun s => s.intmap.inodes) (fun _ => rfl)).symm.trans h.inodeMap
  blockMap := fun b => by
    rw [← ht.apply (fun s => s.intmap.blocks b) (fun _ => rfl),
      ← ht.apply (fun s => holds (s.inodes i) b) (fun _ => rfl), h.blockMap b]
  taken := fun b hb => h.taken b (by
    rwa [ht.apply (fun s => holds (s.inodes i) b) (fun _ => rfl)])
  superblock :=
    (ht.apply (fun s => { s.superblock with freeBlocksCount := owed s i }) (fun _ => rfl)).symm.trans
      h.superblock
  dirs := (ht.apply (fun s => s.data.dirs) (fun _ => rfl)).symm.trans h.dirs
  bytes := fun a ha =>
    (ht.apply (fun s => s.data.bytes a) (fun _ => rfl)).symm.trans (h.bytes a ha)

/-- No bit of the block map is cleared, and a block that inode `i` gains
was free. -/
structure Gaining (s : Fs Attached) (i : Fin maxInodes) (t : Fs Attached) : Prop where
  size : t.superblock.blockSizeBytes = blockSize
  kept : ∀ b, s.intmap.blocks b = true → t.intmap.blocks b = true
  gained : ∀ b, holds (t.inodes i) b = true →
    holds (s.inodes i) b = true ∨ s.intmap.blocks b = false

theorem Gaining.putBlock {s t : Fs Attached} {i : Fin maxInodes} {k b : Nat}
    (h : Gaining s i t) (hk : k < numDirectBlocks)
    (hempty : (t.inodes i).directBlockPtrs k = none) (hb : findFreeBlock t.intmap = some b) :
    Gaining s i (decFreeBlocks (putBlock t i k b)) where
  size := h.size
  kept := fun x hx => by
    by_cases hxb : x = b
    · subst hxb
      simp [decFreeBlocks, FileSystem.putBlock]
    · simpa [decFreeBlocks, FileSystem.putBlock, hxb] using h.kept x hx
  gained := fun x hx => by
    rw [holds_putBlock hk hempty, Bool.or_eq_true, beq_iff_eq] at hx
    rcases hx with hx | rfl
    · exact h.gained x hx
    · right
      by_contra hused
      have hfree := (findFreeBlock_some hb).2
      rw [h.kept x (by simpa using hused)] at hfree
      cases hfree

/-- A block that a write attaches was free. -/
theorem written_gains {s : Fs Attached} (hs : Sound s) (i : Fin maxInodes)
    (buffer : List UInt8) (pos : Nat) {b : Nat}
    (hb : holds ((written s i buffer pos).inodes i) b = true) :
    holds (s.inodes i) b = true ∨ s.intmap.blocks b = false := by
  have hptr : ((written s i buffer pos).inodes i).directBlockPtrs
      = ((writeLoop i buffer loopFuel s 0 pos).1.inodes i).directBlockPtrs := by
    simp [written, Fs.modifyInode, (grow_frame _ _).2.2]
  have hloop : Gaining s i (writeLoop i buffer loopFuel s 0 pos).1 :=
    writeLoop_invariant i buffer (fun h => h.size)
      (fun h hk hempty _ hfree => h.putBlock hk hempty hfree)
      (fun h _ _ => ⟨h.size, h.kept, h.gained⟩) _
      ⟨hs.blockSize, fun _ h => h, fun _ => Or.inl⟩ _ _
  refine hloop.gained b ?_
  rw [← hb, holds, holds, holdsBelow, holdsBelow, hptr]

theorem truncated_gains {s : Fs Attached} (hs : Sound s) (i : Fin maxInodes) (size : Int)
    {b : Nat} (hb : holds ((truncated s i size).inodes i) b = true) :
    holds (s.inodes i) b = true := by
  unfold truncated at hb
  split at hb
  · rw [releaseBlocks_eq s i (hs.slotsBelow i)] at hb
    have hnone := holds_clearedTo (s.inodes i) b
    simp only [Fs.modifyInode, Function.update_self] at hb
    exact absurd (hnone.symm.trans hb) (by decide)
  · simp only [Fs.modifyInode, Function.update_self] at hb
    exact hb

/-! ## What an edit keeps -/

theorem Draft.framed {s t t' : Fs Attached} {path name : CStr} {d i : Fin maxInodes}
    (h : Draft s path d name i t) (hf : Frame t i t') (hsound : Sound t')
    (hleads : target t' path = some (d, name, i)) (howed : owed t' i = owed t i)
    (hgain : ∀ b, holds (t'.inodes i) b = true →
      holds (t.inodes i) b = true ∨ t.intmap.blocks b = false) :
    Draft s path d name i t' := by
  have htaken : ∀ b, holds (t'.inodes i) b = true → s.intmap.blocks b = false := by
    intro b hb
    rcases hgain b hb with hold | hfree
    · exact h.taken b hold
    · rw [h.blockMap, Bool.or_eq_false_iff] at hfree
      exact hfree.1
  refine ⟨hsound, hleads, hf.type.trans h.file, hf.links.trans h.links, ?_,
    hf.inodeMap.trans h.inodeMap, ?_, htaken, ?_, hf.dirs.trans h.dirs, ?_⟩
  · intro j hj
    rw [hf.others j hj]
    exact h.others j hj
  · intro b
    cases hnew : holds (t'.inodes i) b with
    | true =>
        obtain ⟨k, hk⟩ := holds_iff.mp hnew
        rw [(hsound.slotUsed i k b hk).2, Bool.or_true]
    | false =>
        rw [Bool.or_false]
        cases hold : holds (t.inodes i) b with
        | true => rw [hf.dropped b hold hnew, h.taken b hold]
        | false => rw [hf.blocks b hold hnew, h.blockMap, hold, Bool.or_false]
  · obtain ⟨n, hn⟩ := hf.superblock
    rw [howed, hn]
    exact h.superblock
  · intro a ha
    have hout : ∀ {x : Fs Attached}, (∀ b, holds (x.inodes i) b = true →
        s.intmap.blocks b = false) → holds (x.inodes i) (a / blockSize) = false := by
      intro x hx
      rw [Bool.eq_false_iff]
      intro hb
      rw [hx _ hb] at ha
      cases ha
    rw [hf.bytes a (hout h.taken) (hout htaken)]
    exact h.bytes a ha

theorem Draft.written {s t : Fs Attached} {path name : CStr} {d i : Fin maxInodes}
    (h : Draft s path d name i t) (buffer : List UInt8) (pos : Nat) :
    Draft s path d name i (written t i buffer pos) :=
  h.framed (written_frame h.sound i buffer pos) (h.sound.written i buffer pos)
    (target_written h.sound h.leads i buffer pos) (owed_written h.sound i buffer pos)
    (fun _ hb => written_gains h.sound i buffer pos hb)

theorem Draft.truncated {s t : Fs Attached} {path name : CStr} {d i : Fin maxInodes}
    (h : Draft s path d name i t) (size : Int) :
    Draft s path d name i (truncated t i size) :=
  h.framed (truncated_frame h.sound i size) (h.sound.truncated i size)
    (target_truncated h.sound h.leads (by rw [h.file]; decide) size)
    (owed_truncated h.sound i size) (fun _ hb => Or.inl (truncated_gains h.sound i size hb))

/-- One write or truncation of the path, whatever it returns. -/
theorem Draft.step {c : Ctx} {s t t' : Fs Attached} {path name : CStr} {d i : Fin maxInodes}
    (h : Draft s path d name i t) {op : Op} (hop : EditsPath path op) {r : Int}
    (hstep : step c t op = .ok (r, t')) : Draft s path d name i t' := by
  cases op with
  | writeFile p buffer offset append =>
      obtain rfl : p = path := hop
      by_cases hbuf : buffer = []
      · rw [FileSystem.step, fsWriteFile, if_pos (by simp [hbuf])] at hstep
        cases hstep
        exact h
      · obtain ⟨t1, t2, hsame, hsame', hw⟩ :=
          fsWriteFile_file c h.sound ⟨d, name, h.leads⟩ hbuf offset append
        rw [FileSystem.step, hw] at hstep
        cases hstep
        exact ((h.same hsame).written buffer _).same hsame'.symm
  | truncate p size =>
      obtain rfl : p = path := hop
      cases hr : resolve t p with
      | ok j =>
          have hj : j = i := by
            have hi := (walk_of_target h.leads).2.2.2
            rw [(resolve_ok.mp hr).2.2.2] at hi
            exact Option.some.inj hi
          subst hj
          obtain ⟨t1, t2, hsame, hsame', hw⟩ := fisopfsTruncate_ok c h.sound hr size
          rw [FileSystem.step, hw] at hstep
          cases hstep
          exact ((h.same hsame).truncated size).same hsame'.symm
      | error e =>
          obtain ⟨t1, h1, hsame⟩ := fsResolvePath_eq c h.sound.dirs p
          rw [FileSystem.step, fisopfsTruncate, h1, hr] at hstep
          cases hstep
          exact h.same hsame.symm
  | _ => exact absurd hop id

theorem Draft.edits {u : User} {s t t' : Fs Attached} {path name : CStr} {d i : Fin maxInodes}
    (h : Draft s path d name i t) (hrun : Edits u path t t') : Draft s path d name i t' := by
  induction hrun with
  | refl => exact h
  | tail _ hlast ih =>
      obtain ⟨now, op, r, hstep, hop⟩ := hlast
      exact ih.step hop hstep

/-! ## The creation and the deletion -/

theorem heldCount_onePtr {n : Inode} {b : Nat} (hn : n.directBlockPtrs = onePtr b) :
    heldCount n numDirectBlocks = 1 := by
  simp [heldCount, hn, onePtr]

/-- The state after `fs_create_file`. -/
theorem Draft.created {c : Ctx} {s : Fs Attached} (hs : Sound s) {path name : CStr}
    {d i : Fin maxInodes} {mode b : Nat} (hp : resolveParent s path = .ok (d, name))
    (hdir : ∃ p, getDirectoryByInode s d = some p) (hadd : CanAdd s d name) (hf : Fresh s i b)
    (hsound : Sound (installed s i (newFileInode c mode b) b (withEntry s.data d name i))) :
    Draft s path d name i
      (installed s i (newFileInode c mode b) b (withEntry s.data d name i)) := by
  have hself : (installed s i (newFileInode c mode b) b (withEntry s.data d name i)).inodes i
      = newFileInode c mode b := by
    simp [installed]
  have hfree := (findFreeBlock_some hf.block).2
  have hholds : ∀ x, holds (newFileInode c mode b) x = decide (x = b) :=
    holds_onePtr rfl
  have hlinked := Linked.ofInstalled hs hp hdir hadd hf s.data (fun _ _ => rfl)
    (newFileInode c mode b)
  refine ⟨hsound, ?_, by rw [hself]; rfl, by rw [hself]; rfl, ?_, rfl, ?_, ?_, ?_, rfl, ?_⟩
  · exact hlinked.target_of hp
  · intro j hj
    simp [installed, hj]
  · intro x
    rw [hself, hholds]
    by_cases hx : x = b
    · simp [installed, hx]
    · simp [installed, hx]
  · intro x hx
    rw [hself, hholds, decide_eq_true_eq] at hx
    rw [hx, hfree]
  · have howed : owed (installed s i (newFileInode c mode b) b (withEntry s.data d name i)) i
        = s.superblock.freeBlocksCount := by
      rw [owed, hself, heldCount_onePtr rfl]
      exact u32Inc_u32Dec hs.counters.blocks
    rw [howed]
    rfl
  · intro a _
    rfl

theorem Directory.without_add {dir : Directory} {name : CStr} (h : dir.entryNamed name = none)
    (ino : Nat) : Directory.without (dir ++ [⟨name, ino⟩]) name = dir := by
  have hno : ∀ e ∈ dir, ¬ (e.name == name) = true := by
    rw [Directory.entryNamed, List.find?_eq_none] at h
    exact h
  rw [Directory.without, List.eraseP_append_right _ hno]
  simp

/-- The entry that was added last, taken away again. -/
theorem withoutEntry_withEntry {s : Fs Attached} {d i : Fin maxInodes} {name : CStr}
    (hadd : CanAdd s d name) {data : Attached}
    (hdata : data.dirs = (withEntry s.data d name i).dirs) :
    (withoutEntry data d name).dirs = s.data.dirs := by
  funext j
  by_cases hj : j = d
  · subst hj
    have hself : (withoutEntry data j name).dirs j = (data.dirs j).without name := by
      simp [withoutEntry, Attached.setDir]
    rw [hself, hdata, withEntry_dirs_self, Directory.without_add hadd.free]
  · have hother : (withoutEntry data d name).dirs j = data.dirs j := by
      simp [withoutEntry, Attached.setDir, hj]
    rw [hother, hdata, withEntry_dirs_ne hj]

theorem Undone.same {s s' t t' : Fs Attached} (hs : Same s s') (ht : Same t t') :
    Undone s t ↔ Undone s' t' := by
  have hsrc : Undone s t = Undone s' t :=
    hs.apply (fun s => Undone s t) (fun _ => propext
      ⟨fun ⟨a, b, c, d, e⟩ => ⟨a, b, c, d, e⟩, fun ⟨a, b, c, d, e⟩ => ⟨a, b, c, d, e⟩⟩)
  have htgt : Undone s' t = Undone s' t' :=
    ht.apply (fun t => Undone s' t) (fun _ => propext
      ⟨fun ⟨a, b, c, d, e⟩ => ⟨a, b, c, d, e⟩, fun ⟨a, b, c, d, e⟩ => ⟨a, b, c, d, e⟩⟩)
  rw [hsrc, htgt]

/-- The deletion gives back all that was taken; the inode is left as
`inode_init` fills it. -/
theorem Draft.released_iff {s t : Fs Attached} {path name : CStr} {d i : Fin maxInodes}
    (h : Draft s path d name i t) (hs : Sound s) (hadd : CanAdd s d name)
    (hfree : s.intmap.inodes i = false) (c : Ctx) :
    Undone s (released c t i (withoutEntry t.data d name).dirs) ↔
      (s.inodes i).untimed = (inodeInit c).untimed := by
  have hself : (released c t i (withoutEntry t.data d name).dirs).inodes i = inodeInit c := by
    simp [released]
  constructor
  · intro hu
    rw [← hu.inodes i, hself]
  · intro hclean
    refine ⟨?_, ?_, withoutEntry_withEntry hadd h.dirs, ?_, ?_⟩
    · have hinodes : Function.update t.intmap.inodes i false = s.intmap.inodes := by
        rw [h.inodeMap, Function.update_idem, ← hfree, Function.update_eq_self]
      have hblocks : (fun b => t.intmap.blocks b && !holdsBelow (t.inodes i) numDirectBlocks b)
          = s.intmap.blocks := by
        funext b
        rw [h.blockMap b]
        cases hb : holds (t.inodes i) b with
        | true =>
            have hb' : holdsBelow (t.inodes i) numDirectBlocks b = true := hb
            rw [hb', h.taken b hb]
            rfl
        | false =>
            have hb' : holdsBelow (t.inodes i) numDirectBlocks b = false := hb
            rw [hb', Bool.or_false, Bool.not_false, Bool.and_true]
      show Intmap.mk _ _ = s.intmap
      rw [show (mapWithout t.intmap (t.inodes i) numDirectBlocks).inodes = t.intmap.inodes from rfl,
        hinodes]
      exact congrArg (Intmap.mk s.intmap.inodes) hblocks
    · have hsb := congrArg (fun b : Superblock =>
        { b with freeInodesCount := u32Inc b.freeInodesCount }) h.superblock
      dsimp only at hsb
      rw [u32Inc_u32Dec hs.counters.inodes] at hsb
      exact hsb
    · intro j
      by_cases hj : j = i
      · rw [hj, hself, hclean]
      · have hother : (released c t i (withoutEntry t.data d name).dirs).inodes j = t.inodes j := by
          simp [released, hj]
        rw [hother, h.others j hj]
    · intro b off hb hoff
      have hdiv : blockAddr b off / blockSize = b := by
        simp only [blockAddr, blockSize] at *
        omega
      have hout : holdsBelow (t.inodes i) numDirectBlocks b = false := by
        rw [Bool.eq_false_iff]
        intro hheld
        rw [h.taken b hheld] at hb
        cases hb
      show bytesWithout t.data.bytes (t.inodes i) numDirectBlocks (blockAddr b off) = _
      rw [bytesWithout, hdiv, hout, if_neg (by decide)]
      exact h.bytes _ (by rw [hdiv]; exact hb)

/-! ## Creation, edits and deletion -/

/-- `fs_create_file` of `path` in `s`, any edits of it, and its deletion,
which ends in `t`. That the first returns 0 says that `path` was free. -/
def CreatedAndDeleted (u : User) (path : CStr) (s t : Fs Attached) : Prop :=
  ∃ now mode now' s₁ s₂, step (u.at now) s (.createFile path mode) = .ok (0, s₁) ∧
    Edits u path s₁ s₂ ∧ step (u.at now') s₂ (.deleteFile path) = .ok (0, t)

theorem untimed_inodeInit (u : User) (now : Int) :
    (inodeInit (u.at now)).untimed = (inodeInit (u.at 0)).untimed := rfl

theorem CreatedAndDeleted.undone_iff {u : User} {path : CStr} {s t : Fs Attached}
    (hs : Sound s) (h : CreatedAndDeleted u path s t) : Undone s t ↔ NextInodeClean u s := by
  obtain ⟨now, mode, now', s₁, s₂, hcreate, hedits, hdelete⟩ := h
  have hsound₁ := step_sound hs hcreate
  obtain ⟨s', d, name, i, b, hsame, hp, hdir, hadd, hf, rfl⟩ := fsCreateFile_zero hs hcreate
  have hs' := hs.same hsame
  have hdraft := (Draft.created hs' hp hdir hadd hf hsound₁).edits hedits
  obtain ⟨s₃, t', hsame₃, hdel, hlast, -⟩ :=
    fsDeleteFile_file (u.at now') hdraft.sound hdraft.leads (by rw [hdraft.file]; decide)
  have hdelete' : fsDeleteFile (u.at now') s₂ path = .ok (0, t) := hdelete
  rw [hdel] at hdelete'
  cases hdelete'
  have hreleased := hlast (u16Dec_eq_zero.mpr hdraft.links)
  rw [Undone.same hsame hreleased,
    (hdraft.same hsame₃.symm).released_iff hs' hadd hf.inode (u.at now'), untimed_inodeInit]
  have hfirst := fsCreateFile_first hs hcreate (hsame.apply (fun s => s.intmap) (fun _ => rfl))
    hf.inode
  rw [← hsame.apply (fun s => (s.inodes i).untimed) (fun _ => rfl)]
  constructor
  · intro hclean j hj
    rw [hfirst, Option.some.injEq] at hj
    rw [← hj]
    exact hclean
  · intro hclean
    exact hclean i hfirst

/-- In a run without links past 65535 the next inode is clean, or there is
no directory left to create a file in. -/
theorem TreeOrBare.nextInodeClean {u : User} {path : CStr} {s t : Fs Attached}
    (hs : TreeOrBare u s) (h : CreatedAndDeleted u path s t) : NextInodeClean u s := by
  obtain ⟨hsound, hno | hc⟩ := hs
  · obtain ⟨now, mode, now', s₁, s₂, hcreate, -, -⟩ := h
    obtain ⟨s', d, name, i, b, hsame, -, -, hadd, -, -⟩ := fsCreateFile_zero hsound hcreate
    exact absurd hadd.isDir (hno.same hsame d)
  · intro i hi
    exact hc.unused i (by simpa using List.find?_some hi)

/-- Deleting a file right after it was created and edited restores the
state exactly when the inode it took was clean, and always in the runs
that make no hard link past 65535. -/
theorem delete_undoes_create_iff (u : User) :
    (∀ (P : Fs Attached → Op → Fs Attached → Prop) (path : CStr) (s t : Fs Attached),
      Reachable u P s → CreatedAndDeleted u path s t →
      (Undone s t ↔ NextInodeClean u s)) ∧
    (∀ (path : CStr) (s t : Fs Attached),
      Reachable u (fun s op _ => ¬ LinkOverflows s op) s → CreatedAndDeleted u path s t →
      Undone s t) := by
  constructor
  · intro P path s t hreach h
    exact h.undone_iff hreach.sound
  · intro path s t hreach h
    exact (h.undone_iff hreach.sound).mpr (hreach.treeOrBare.nextInodeClean h)

/-- A file created, written, truncated, written again and deleted. -/
theorem delete_undoes_create_iff_one_file :
    ∃ s t : Fs Attached, Reachable ⟨0, 0⟩ (fun s op _ => ¬ LinkOverflows s op) s ∧
      CreatedAndDeleted ⟨0, 0⟩ (cstr "/f") s t ∧ NextInodeClean ⟨0, 0⟩ s ∧ Undone s t := by
  let edits : List Op := [.writeFile (cstr "/f") [1, 2, 3] 0 false, .truncate (cstr "/f") 0,
    .writeFile (cstr "/f") [4] 0 true]
  obtain ⟨s₁, hcreate, hrest⟩ := returns_true
    (x := step (User.at ⟨0, 0⟩ 0) (fsInit (User.at ⟨0, 0⟩ 0) : Fs Attached)
      (.createFile (cstr "/f") 6)) (r := 0)
    (f := fun s₁ => match runOps (User.at ⟨0, 0⟩ 0) s₁ edits with
      | .error _ => false
      | .ok s₂ => returns (step (User.at ⟨0, 0⟩ 0) s₂ (.deleteFile (cstr "/f"))) 0 (fun _ => true))
    (by decide +kernel)
  cases hedits : runOps (User.at ⟨0, 0⟩ 0) s₁ edits with
  | error f => simp [hedits] at hrest
  | ok s₂ =>
      simp only [hedits] at hrest
      obtain ⟨t, hdelete, -⟩ := returns_true hrest
      have hrun : CreatedAndDeleted ⟨0, 0⟩ (cstr "/f") (fsInit (User.at ⟨0, 0⟩ 0)) t := by
        refine ⟨0, 6, 0, s₁, s₂, hcreate, runOps_reaches (fun op hop _ _ => ?_) hedits, hdelete⟩
        simp only [edits, List.mem_cons, List.not_mem_nil, or_false] at hop
        rcases hop with rfl | rfl | rfl <;> rfl
      have hreach : Reachable ⟨0, 0⟩ (fun s op _ => ¬ LinkOverflows s op)
          (fsInit (User.at ⟨0, 0⟩ 0) : Fs Attached) := ⟨0, .refl⟩
      have hundone := (delete_undoes_create_iff ⟨0, 0⟩).2 _ _ _ hreach hrun
      exact ⟨_, t, hreach, hrun,
        ((delete_undoes_create_iff ⟨0, 0⟩).1 _ _ _ _ hreach hrun).mp hundone, hundone⟩

/-! ## More names than the link count can hold -/

/-- `fs_create_file` under a name that can be added succeeds while an
inode and a block are free. -/
theorem fsCreateFile_ok (c : Ctx) {s : Fs Attached} (hs : Sound s) {path name : CStr}
    {d i : Fin maxInodes} {p : DirPtr} {b : Nat} (mode : Nat)
    (hp : resolveParent s path = .ok (d, name)) (hdir : getDirectoryByInode s d = some p)
    (hadd : CanAdd s d name) (hf : Fresh s i b) :
    ∃ t, fsCreateFile c s path mode = .ok (0, t) := by
  obtain ⟨s', h1, hsame⟩ := fsResolveParent_eq c hs.dirs path
  have hdir' : getDirectoryByInode s' d = some p :=
    (hsame.apply (fun s => getDirectoryByInode s d) (fun _ => rfl)).trans hdir
  have hadd' := hadd.same hsame.symm
  have hf' := hf.same hsame.symm
  have hpath : path ≠ [] ∧ ¬ path.length ≥ maxPathLen := by
    obtain ⟨a, rfl, hlen, -⟩ := resolveParent_split hp
    exact ⟨by simp, by omega⟩
  have hin : ∃ t, createFileIn c s' d name mode = (0, t) := by
    cases ha : allocateInode c s' with
    | none =>
        have := allocateInode_none ha i
        rw [hf'.inode] at this
        cases this
    | some r =>
        obtain ⟨j, s1⟩ := r
        obtain ⟨-, rfl⟩ := allocateInode_some ha
        unfold createFileIn
        simp only [hdir', hadd'.lookup hdir', ha]
        rw [if_neg (by decide)]
        generalize hs2 : Fs.modifyInode _ j _ = s2
        have hfree : findFreeBlock s2.intmap = some b := by
          rw [← hs2]
          exact hf'.block
        have hblock : inodeAddDirectBlock s2 j b = some (putBlock s2 j 0 b) :=
          addDirectBlock_fresh (findFreeBlock_some hf'.block).1
            (by rw [← hs2]; simp [Fs.modifyInode, inodeInit])
        have hdata : (decFreeBlocks (putBlock s2 j 0 b)).data = s'.data := by
          rw [← hs2]
          rfl
        simp only [hfree, Option.bind_some, hblock, hdata, hadd'.addEntry hdir' j]
        exact ⟨_, rfl⟩
  obtain ⟨t, ht⟩ := hin
  refine ⟨t, ?_⟩
  rw [fsCreateFile, if_neg hpath.1, if_neg hpath.2, h1, hp]
  simp only [ht]

/-- The directories that the links are spread over. -/
def dirName (j : Nat) : CStr := [(128 + j).toUInt8]

def dirInode (j : Nat) : Fin maxInodes := Fin.ofNat maxInodes (j + 2)

theorem dirInode_val {j : Nat} (hj : j < 65) : (dirInode j : Nat) = j + 2 := by
  simp only [dirInode, Fin.val_ofNat, maxInodes]
  omega

theorem dirInode_inj {j l : Nat} (hj : j < 65) (hl : l < 65) (h : dirInode j = dirInode l) :
    j = l := by
  have := congrArg Fin.val h
  rw [dirInode_val hj, dirInode_val hl] at this
  omega

theorem slash_notMem_dirName {j : Nat} (hj : j < 65) : slash ∉ dirName j := by
  intro h
  simp only [dirName, List.mem_cons, List.not_mem_nil, or_false] at h
  have h1 := congrArg UInt8.toNat h
  simp only [Nat.toUInt8, UInt8.toNat_ofNat', slash] at h1
  have : (47 : UInt8).toNat = 47 := rfl
  omega

/-- The path of link `n`: a directory takes 1022 of them. -/
def linkPath (n : Nat) : CStr :=
  (slash :: dirName (n / 1022)) ++ slash :: linkName (n % 1022)

/-- Inode 1 is called `g` and has `n` more links, in 65 directories of the
root. -/
structure Spread (n : Nat) (s : Fs Attached) : Prop where
  file : child s 0 [103] = some 1
  subdir : ∀ j < 65, child s 0 (dirName j) = some (dirInode j)
  opened : ∀ j < 65, ∃ p, getDirectoryByInode s (dirInode j) = some p
  links : ∀ j < 65, s.data.dirs (dirInode j) = Directory.init ++
    (List.range (min 1022 (n - 1022 * j))).map (fun k => ⟨linkName k, 1⟩)
  type : (s.inodes 1).inodeType = .file
  count : (s.inodes 1).hardLinksCount = (n + 1) % 65536
  free : (s.data.dirs 0).entryNamed [102] = none
  room : (s.data.dirs 0).length < maxBlocks
  block : s.intmap.blocks 67 = false

theorem Spread.same {n : Nat} {s t : Fs Attached} (h : Same s t) (hs : Spread n s) :
    Spread n t :=
  (h.apply (Spread n) (fun _ => propext
    ⟨fun ⟨a, b, c, d, e, f, g, i, j⟩ => ⟨a, b, c, d, e, f, g, i, j⟩,
      fun ⟨a, b, c, d, e, f, g, i, j⟩ => ⟨a, b, c, d, e, f, g, i, j⟩⟩)).mp hs

/-- The parent of link `n` is directory `n / 1022`. -/
theorem Spread.linkParent {n m : Nat} {s : Fs Attached} (hsound : Sound s) (hs : Spread n s)
    (hm : m < 65536) :
    resolveParent s (linkPath m) = .ok (dirInode (m / 1022), linkName (m % 1022)) := by
  have hj : m / 1022 < 65 := by omega
  have htok : strtok (slash :: dirName (m / 1022)) = [dirName (m / 1022)] :=
    strtok_slash (by simp [dirName]) (slash_notMem_dirName hj)
  refine resolveParent_of_walk ?_ ?_ ?_ ?_ (slash_notMem_linkName (by omega)) ?_
  · simp [dirName, linkName, maxPathLen]
  · rw [htok]
    simp [maxDirDepth]
  · simp [linkName]
  · simp [linkName, maxFilenameLen]
  · rw [htok, hsound.root, walk, hs.subdir _ hj]
    rfl

theorem Spread.canAdd {n : Nat} {s : Fs Attached} (hs : Spread n s) (hn : n < 65536) :
    CanAdd s (dirInode (n / 1022)) (linkName (n % 1022)) := by
  have hj : n / 1022 < 65 := by omega
  obtain ⟨p, hp⟩ := hs.opened _ hj
  have hcount : min 1022 (n - 1022 * (n / 1022)) = n % 1022 := by omega
  have hentries := hs.links _ hj
  rw [hcount] at hentries
  refine ⟨(getDirectoryByInode_some hp).1, ?_, ?_, ?_, ?_⟩
  · rw [hentries]
    refine linkName_free (fun e he => ?_) (by omega) 1
    simp only [Directory.init, List.mem_cons, List.not_mem_nil, or_false] at he
    rcases he with rfl | rfl <;> exact ⟨_, _, rfl, by decide⟩
  · rw [hentries]
    simp only [Directory.init, List.length_append, List.length_cons, List.length_nil,
      List.length_map, List.length_range, maxBlocks]
    omega
  · simp [linkName]
  · simp [linkName, maxFilenameLen]

/-- The entries of the 65 directories after one more link. -/
theorem Spread.linksAfter {n : Nat} {s : Fs Attached} (hs : Spread n s) (hn : n < 65536)
    {j : Nat} (hj : j < 65) :
    (withEntry s.data (dirInode (n / 1022)) (linkName (n % 1022)) 1).dirs (dirInode j)
      = Directory.init ++
        (List.range (min 1022 (n + 1 - 1022 * j))).map (fun k => ⟨linkName k, 1⟩) := by
  by_cases hjn : j = n / 1022
  · subst hjn
    have hbefore : min 1022 (n - 1022 * (n / 1022)) = n % 1022 := by omega
    have hafter : min 1022 (n + 1 - 1022 * (n / 1022)) = n % 1022 + 1 := by omega
    rw [withEntry_dirs_self, hs.links _ hj, hbefore, hafter, List.range_succ, List.map_append,
      List.append_assoc]
    rfl
  · have hne : dirInode j ≠ dirInode (n / 1022) :=
      fun h => hjn (dirInode_inj hj (by omega) h)
    have hcount : min 1022 (n - 1022 * j) = min 1022 (n + 1 - 1022 * j) := by omega
    rw [withEntry_dirs_ne hne, hs.links _ hj, hcount]

/-- One more link. -/
theorem Spread.link {u : User} {n : Nat} (hn : n < 65536) {s : Fs Attached}
    (hreach : Reachable u (fun _ _ _ => True) s) (hs : Spread n s) :
    ∃ t, Reachable u (fun _ _ _ => True) t ∧ Spread (n + 1) t := by
  have hsound := hreach.sound
  have hj : n / 1022 < 65 := by omega
  have hsrc : resolve s (slash :: [103]) = .ok 1 := by
    refine resolve_ok.mpr ⟨by decide, by decide, by decide +kernel, ?_⟩
    rw [strtok_slash (by decide) (by decide), hsound.root, walk, hs.file]
    rfl
  obtain ⟨p, hp⟩ := hs.opened _ hj
  obtain ⟨s', t, hss, hstep, ht⟩ := fsCreateHardLink_file (u.at 0) hsound hsrc
    (by rw [hs.type]; decide) (hs.linkParent hsound hn) hp (hs.canAdd hn)
  have hs' := hs.same hss.symm
  have hadd := hs'.canAdd hn
  have hlinked := (Linked.ofEntry (i := 1) (hs'.linkParent (hsound.same hss.symm) hn)
    (hs'.opened _ hj) hadd).incrementLinks 1
  rw [← ht] at hlinked
  have hself : t.inodes 1
      = { s'.inodes 1 with hardLinksCount := u16Inc (s'.inodes 1).hardLinksCount } := by
    rw [ht]
    simp [inodeIncrementLinks, Fs.modifyInode]
  have hother : ∀ k ≠ 1, t.inodes k = s'.inodes k := by
    intro k hk
    rw [ht]
    simp [inodeIncrementLinks, Fs.modifyInode, hk]
  have hne1 : ∀ j < 65, dirInode j ≠ 1 := by
    intro j hj h
    have := congrArg Fin.val h
    rw [dirInode_val hj] at this
    exact absurd this (by simp)
  have hne0 : (0 : Fin maxInodes) ≠ dirInode (n / 1022) := by
    intro h
    have := congrArg Fin.val h
    rw [dirInode_val hj] at this
    exact absurd this (by simp)
  have hroot : t.data.dirs 0 = s'.data.dirs 0 := by
    rw [ht]
    exact withEntry_dirs_ne hne0
  refine ⟨t, ?_, ⟨hlinked.kept _ _ _ hs'.file, fun j hj => hlinked.kept _ _ _ (hs'.subdir j hj),
    ?_, ?_, ?_, ?_, by rw [hroot]; exact hs'.free, by rw [hroot]; exact hs'.room,
    by rw [ht]; exact hs'.block⟩⟩
  · obtain ⟨now, hrun⟩ := hreach
    exact ⟨now, hrun.tail ⟨0, .createHardLink (slash :: [103]) (linkPath n), 0, hstep, trivial⟩⟩
  · intro j hj
    obtain ⟨q, hq⟩ := hs'.opened j hj
    refine ⟨q, ?_⟩
    rw [← hq, getDirectoryByInode, getDirectoryByInode, hother _ (hne1 j hj)]
  · intro j hj
    rw [← hs'.linksAfter hn hj, ht]
    rfl
  · rw [hself]
    exact hs'.type
  · rw [hself]
    show u16Inc (s'.inodes 1).hardLinksCount = _
    rw [hs'.count]
    simp only [u16Inc, u16]
    omega

/-- `g` and the 65 directories. -/
def spreadBase : List Op :=
  .createFile (slash :: [103]) 6 ::
    (List.range 65).map (fun j => .createDirectory (slash :: dirName j) 7 (dirName j))

/-- `Spread 0` as a test. -/
def spreadCheck (s : Fs Attached) : Bool :=
  decide (child s 0 [103] = some 1 ∧ (s.inodes 1).inodeType = .file ∧
      (s.inodes 1).hardLinksCount = 1 ∧ (s.data.dirs 0).entryNamed [102] = none ∧
      (s.data.dirs 0).length < maxBlocks ∧ s.intmap.blocks 67 = false) &&
    (List.range 65).all (fun j => decide (child s 0 (dirName j) = some (dirInode j) ∧
      (getDirectoryByInode s (dirInode j)).isSome ∧
      s.data.dirs (dirInode j) = Directory.init))

theorem exists_spread {n : Nat} (hn : n ≤ 65536) :
    ∃ s, Reachable ⟨0, 0⟩ (fun _ _ _ => True) s ∧ Spread n s := by
  induction n with
  | zero =>
      obtain ⟨s, hs, hv⟩ := runOps_eval (User.at ⟨0, 0⟩ 0) (fsInit (User.at ⟨0, 0⟩ 0))
        spreadBase spreadCheck true (by decide +kernel)
      obtain ⟨hfixed, hdirs⟩ := Bool.and_eq_true_iff.mp hv
      obtain ⟨h1, h2, h3, h4, h5, h6⟩ := of_decide_eq_true hfixed
      have hdir : ∀ j < 65, child s 0 (dirName j) = some (dirInode j) ∧
          (getDirectoryByInode s (dirInode j)).isSome ∧
          s.data.dirs (dirInode j) = Directory.init := fun j hj =>
        of_decide_eq_true (List.all_eq_true.mp hdirs j (List.mem_range.mpr hj))
      refine ⟨s, ⟨0, runOps_reaches (fun _ _ _ _ => trivial) hs⟩, ⟨h1, fun j hj => (hdir j hj).1,
        fun j hj => Option.isSome_iff_exists.mp (hdir j hj).2.1, fun j hj => ?_, h2, h3, h4, h5,
        h6⟩⟩
      rw [(hdir j hj).2.2, Nat.zero_sub, Nat.min_zero]
      rfl
  | succ n ih =>
      obtain ⟨s, hreach, hs⟩ := ih (by omega)
      exact hs.link (by omega) hreach

/-- Inode 1 is free and link 0 still names it. -/
structure Dangling (s : Fs Attached) : Prop where
  subdir : child s 0 (dirName 0) = some (dirInode 0)
  link : child s (dirInode 0) (linkName 0) = some 1
  inode : s.intmap.inodes 1 = false
  block : s.intmap.blocks 67 = false
  free : (s.data.dirs 0).entryNamed [102] = none
  room : (s.data.dirs 0).length < maxBlocks

theorem Dangling.same {s t : Fs Attached} (h : Same s t) (hs : Dangling s) : Dangling t :=
  (h.apply Dangling (fun _ => propext
    ⟨fun ⟨a, b, c, d, e, f⟩ => ⟨a, b, c, d, e, f⟩,
      fun ⟨a, b, c, d, e, f⟩ => ⟨a, b, c, d, e, f⟩⟩)).mp hs

/-- With 65537 names the count is back at 1, so `g` takes the inode with
it. -/
theorem Spread.deleted {u : User} {s : Fs Attached}
    (hreach : Reachable u (fun _ _ _ => True) s) (hs : Spread 65536 s) :
    ∃ t, Reachable u (fun _ _ _ => True) t ∧ Dangling t := by
  have hsound := hreach.sound
  have hpar : resolveParent s (slash :: [103]) = .ok (0, [103]) :=
    resolveParent_slash hsound.root (by decide) (by decide) (by decide)
  obtain ⟨s', t, hss, hstep, hlast, -⟩ := fsDeleteFile_file (u.at 0) hsound
    (target_some.mpr ⟨hpar, hs.file⟩) (by rw [hs.type]; decide)
  have hs' := hs.same hss.symm
  have hsame := hlast (u16Dec_eq_zero.mpr hs.count)
  have hlink : child s' (dirInode 0) (linkName 0) = some 1 := by
    obtain ⟨p, hp⟩ := hs'.opened 0 (by decide)
    have hentry : (s'.data.dirs (dirInode 0)).entryNamed (linkName 0)
        = some ⟨linkName 0, 1⟩ := by
      rw [hs'.links 0 (by decide)]
      decide +kernel
    simp only [child, hp, hentry]
    rfl
  refine ⟨t, ?_, Dangling.same hsame.symm ⟨?_, ?_, ?_, ?_, ?_, ?_⟩⟩
  · obtain ⟨now, hrun⟩ := hreach
    exact ⟨now, hrun.tail ⟨0, .deleteFile (slash :: [103]), 0, hstep, trivial⟩⟩
  · have h0 : (0 : Fin maxInodes) ≠ 1 := by decide
    refine child_of_inode (hs'.subdir 0 (by decide)) (by simp [released, h0]) ?_
    simp only [released, withoutEntry, Attached.setDir, Function.update_self]
    exact Directory.entryNamed_without_ne _ (by decide)
  · have h1 : dirInode 0 ≠ 1 := by decide
    have h0 : dirInode 0 ≠ 0 := by decide
    refine child_of_inode hlink (by simp [released, h1]) ?_
    simp [released, withoutEntry, Attached.setDir, h0]
  · simp [released, clearInodeUsed]
  · show (s'.intmap.blocks 67 && _) = false
    rw [hs'.block, Bool.false_and]
  · simp only [released, withoutEntry, Attached.setDir, Function.update_self]
    rw [Directory.entryNamed_without_ne _ (by decide)]
    exact hs'.free
  · simp only [released, withoutEntry, Attached.setDir, Function.update_self]
    exact lt_of_le_of_lt List.length_eraseP_le hs'.room

/-- `chmod 0` through the name that is left. -/
theorem Dangling.chmod {u : User} {s : Fs Attached}
    (hreach : Reachable u (fun _ _ _ => True) s) (hs : Dangling s) :
    ∃ t, Reachable u (fun _ _ _ => True) t ∧ Dangling t ∧ (t.inodes 1).permissionBits = 0 := by
  have hsound := hreach.sound
  have hr : resolve s (linkPath 0) = .ok 1 := by
    have htok : strtok (linkPath 0) = [dirName 0, linkName 0] := by decide +kernel
    refine resolve_ok.mpr ⟨by decide, by decide, by rw [htok]; decide, ?_⟩
    rw [htok, hsound.root, walk, hs.subdir]
    simp only [walk, hs.link]
  obtain ⟨s', h1, hsame⟩ := fsResolvePath_eq (u.at 0) hsound.dirs (linkPath 0)
  have hs' := hs.same hsame.symm
  set q := s'.modifyInode 1 (fun n => { n with permissionBits := permOfMode 0 }) with hq
  have hstep : step (u.at 0) s (.changeMode (linkPath 0) 0)
      = .ok (0, inodeUpdateCtime (u.at 0) 1 q) := by
    rw [step, fsChangeMode, h1, hr]
  have hdq : Dangling q := ⟨child_modifyInode hs'.subdir (fun _ => rfl) (fun _ => rfl),
    child_modifyInode hs'.link (fun _ => rfl) (fun _ => rfl), hs'.inode, hs'.block, hs'.free,
    hs'.room⟩
  refine ⟨inodeUpdateCtime (u.at 0) 1 q, ?_, hdq.same (same_updateCtime _ _ _).symm, ?_⟩
  · obtain ⟨now, hrun⟩ := hreach
    exact ⟨now, hrun.tail ⟨0, .changeMode (linkPath 0) 0, 0, hstep, trivial⟩⟩
  · rw [hq]
    simp [inodeUpdateCtime, Fs.modifyInode, permOfMode]

/-- A new file takes inode 1, and its deletion resets the inode. -/
theorem Dangling.createdAndDeleted (u : User) {s : Fs Attached} (hsound : Sound s)
    (hs : Dangling s) : ∃ t, CreatedAndDeleted u (slash :: [102]) s t := by
  have hpar : resolveParent s (slash :: [102]) = .ok (0, [102]) :=
    resolveParent_slash hsound.root (by decide) (by decide) (by decide)
  obtain ⟨⟨p, hp⟩, -⟩ := child_some hs.subdir
  have hadd : CanAdd s 0 [102] :=
    ⟨(getDirectoryByInode_some hp).1, hs.free, hs.room, by decide, by decide⟩
  obtain ⟨b, hb⟩ : ∃ b, findFreeBlock s.intmap = some b := by
    rw [← Option.isSome_iff_exists, findFreeBlock, List.find?_isSome]
    exact ⟨67, List.mem_range.mpr (by decide), by rw [hs.block]; rfl⟩
  obtain ⟨s₁, hcreate⟩ := fsCreateFile_ok (u.at 0) hsound 6 hpar hp hadd ⟨hs.inode, hb⟩
  have hstep₁ : step (u.at 0) s (.createFile (slash :: [102]) 6) = .ok (0, s₁) := hcreate
  have hsound₁ : Sound s₁ := step_sound hsound hstep₁
  obtain ⟨s', d, name, i, b', hsame, hp', hdir, hadd', hf, rfl⟩ :=
    fsCreateFile_zero hsound hcreate
  have hdraft := Draft.created (hsound.same hsame) hp' hdir hadd' hf hsound₁
  obtain ⟨s₂, t, -, hdelete, -⟩ :=
    fsDeleteFile_file (u.at 0) hdraft.sound hdraft.leads (by rw [hdraft.file]; decide)
  exact ⟨t, 0, 6, 0, _, _, hcreate, .refl, hdelete⟩

/-- 65536 hard links to `/g`, `unlink /g`, `chmod 0` through a link that is
left: then creating and deleting `/f` gives inode 1 back with other
permission bits. -/
theorem free_inode_changed :
    ∃ s t : Fs Attached, Reachable ⟨0, 0⟩ (fun _ _ _ => True) s ∧
      CreatedAndDeleted ⟨0, 0⟩ (slash :: [102]) s t ∧ ¬ Undone s t := by
  obtain ⟨s₀, hreach₀, hs₀⟩ := exists_spread (Nat.le_refl 65536)
  obtain ⟨s₁, hreach₁, hs₁⟩ := hs₀.deleted hreach₀
  obtain ⟨s, hreach, hs, hperm⟩ := hs₁.chmod hreach₁
  obtain ⟨t, hrun⟩ := hs.createdAndDeleted ⟨0, 0⟩ hreach.sound
  refine ⟨s, t, hreach, hrun, fun hundone => ?_⟩
  have hclean := (hrun.undone_iff hreach.sound).mp hundone
  have hfirst : firstFreeInode s = some 1 := by
    have hlist : List.finRange maxInodes = 0 :: 1 :: (List.finRange maxInodes).drop 2 := by
      decide +kernel
    have hroot : s.intmap.inodes 0 = true := hreach.sound.dirUsed 0 (child_isDir hs.subdir)
    rw [firstFreeInode, hlist]
    simp [hroot, hs.inode]
  have := congrArg Inode.permissionBits (hclean 1 hfirst)
  rw [show (s.inodes 1).untimed.permissionBits = 0 from hperm] at this
  cases this

end SistemasOperativos.FileSystem
