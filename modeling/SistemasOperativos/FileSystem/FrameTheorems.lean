/-
SistemasOperativos.FileSystem.FrameTheorems — what an operation on the
content of one inode leaves alone.

`fs_write_file` and `fisopfs_truncate` change slots, size and bytes of
the inode they resolve. `Frame s i t` says that this is all: no other
inode, no directory, no bit and no byte of a block that inode `i` held
neither before nor after.
-/
import SistemasOperativos.FileSystem.SoundTheorems

namespace SistemasOperativos.FileSystem

structure Frame (s : Fs Attached) (i : Fin maxInodes) (t : Fs Attached) : Prop where
  others : ∀ j ≠ i, t.inodes j = s.inodes j
  type : (t.inodes i).inodeType = (s.inodes i).inodeType
  links : (t.inodes i).hardLinksCount = (s.inodes i).hardLinksCount
  inodeMap : t.intmap.inodes = s.intmap.inodes
  superblock : ∃ n, t.superblock = { s.superblock with freeBlocksCount := n }
  dirs : t.data.dirs = s.data.dirs
  blocks : ∀ b, holds (s.inodes i) b = false → holds (t.inodes i) b = false →
    t.intmap.blocks b = s.intmap.blocks b
  dropped : ∀ b, holds (s.inodes i) b = true → holds (t.inodes i) b = false →
    t.intmap.blocks b = false
  bytes : ∀ a, holds (s.inodes i) (a / blockSize) = false →
    holds (t.inodes i) (a / blockSize) = false → t.data.bytes a = s.data.bytes a

theorem Frame.refl (s : Fs Attached) (i : Fin maxInodes) : Frame s i s where
  others := fun _ _ => rfl
  type := rfl
  links := rfl
  inodeMap := rfl
  superblock := ⟨s.superblock.freeBlocksCount, rfl⟩
  dirs := rfl
  blocks := fun _ _ _ => rfl
  dropped := fun b h h' => by rw [h] at h'; cases h'
  bytes := fun _ _ _ => rfl

theorem Frame.type_eq {s t : Fs Attached} {i : Fin maxInodes} (h : Frame s i t)
    (j : Fin maxInodes) : (t.inodes j).inodeType = (s.inodes j).inodeType := by
  by_cases hj : j = i
  · subst hj; exact h.type
  · rw [h.others j hj]

theorem Frame.links_eq {s t : Fs Attached} {i : Fin maxInodes} (h : Frame s i t)
    (j : Fin maxInodes) : (t.inodes j).hardLinksCount = (s.inodes j).hardLinksCount := by
  by_cases hj : j = i
  · subst hj; exact h.links
  · rw [h.others j hj]

theorem Frame.freeInodesCount {s t : Fs Attached} {i : Fin maxInodes} (h : Frame s i t) :
    t.superblock.freeInodesCount = s.superblock.freeInodesCount := by
  obtain ⟨n, hn⟩ := h.superblock
  rw [hn]

theorem Frame.root {s t : Fs Attached} {i : Fin maxInodes} (h : Frame s i t) :
    t.superblock.rootInodeNumber = s.superblock.rootInodeNumber := by
  obtain ⟨n, hn⟩ := h.superblock
  rw [hn]

/-- A last store into inode `i` that keeps its type, links and slots. -/
theorem Frame.modifyInode {s t : Fs Attached} {i : Fin maxInodes} (h : Frame s i t)
    {f : Inode → Inode} (hty : ∀ n, (f n).inodeType = n.inodeType)
    (hlinks : ∀ n, (f n).hardLinksCount = n.hardLinksCount)
    (hptr : ∀ n, (f n).directBlockPtrs = n.directBlockPtrs) : Frame s i (t.modifyInode i f) := by
  have hself : (t.modifyInode i f).inodes i = f (t.inodes i) := by simp [Fs.modifyInode]
  have hholds : ∀ b, holds ((t.modifyInode i f).inodes i) b = holds (t.inodes i) b := by
    intro b
    rw [hself, holds, holdsBelow, hptr]
    rfl
  exact
    { others := fun j hj => by
        rw [← h.others j hj]
        simp [Fs.modifyInode, hj]
      type := by rw [hself, hty, h.type]
      links := by rw [hself, hlinks, h.links]
      inodeMap := h.inodeMap
      superblock := h.superblock
      dirs := h.dirs
      blocks := fun b h1 h2 => h.blocks b h1 (by rw [← hholds]; exact h2)
      dropped := fun b h1 h2 => h.dropped b h1 (by rw [← hholds]; exact h2)
      bytes := fun a h1 h2 => h.bytes a h1 (by rw [← hholds]; exact h2) }

/-! ## `fs_write_file` -/

/-- A frame under which inode `i` only gains blocks. -/
structure GrowingFrame (s : Fs Attached) (i : Fin maxInodes) (t : Fs Attached) : Prop where
  frame : Frame s i t
  size : t.superblock.blockSizeBytes = blockSize
  grows : ∀ b, holds (s.inodes i) b = true → holds (t.inodes i) b = true

/-- Putting a block in an empty slot. -/
theorem holds_putBlock {s : Fs Attached} {i : Fin maxInodes} {k b : Nat}
    (hk : k < numDirectBlocks) (hempty : (s.inodes i).directBlockPtrs k = none) (x : Nat) :
    holds ((decFreeBlocks (putBlock s i k b)).inodes i) x
      = (holds (s.inodes i) x || x == b) := by
  have hptr : ((decFreeBlocks (putBlock s i k b)).inodes i).directBlockPtrs
      = Function.update (s.inodes i).directBlockPtrs k (some b) := by
    simp [decFreeBlocks, putBlock, setPtr, Fs.modifyInode]
  rw [Bool.eq_iff_iff, Bool.or_eq_true, beq_iff_eq, holdsBelow_iff, holdsBelow_iff, hptr]
  constructor
  · rintro ⟨l, hl, hx⟩
    by_cases hlk : l = k
    · subst hlk
      right
      simpa [eq_comm] using hx
    · left
      exact ⟨l, hl, by simpa [hlk] using hx⟩
  · rintro (⟨l, hl, hx⟩ | rfl)
    · have hlk : l ≠ k := by
        rintro rfl
        rw [hempty] at hx
        cases hx
      exact ⟨l, hl, by simpa [hlk] using hx⟩
    · exact ⟨k, hk, by simp⟩

theorem GrowingFrame.putBlock {s t : Fs Attached} {i : Fin maxInodes} {k b : Nat}
    (h : GrowingFrame s i t) (hk : k < numDirectBlocks)
    (hempty : (t.inodes i).directBlockPtrs k = none) :
    GrowingFrame s i (decFreeBlocks (putBlock t i k b)) := by
  have hholds := holds_putBlock (b := b) hk hempty
  have hold : ∀ x, holds ((decFreeBlocks (FileSystem.putBlock t i k b)).inodes i) x = false →
      holds (t.inodes i) x = false ∧ x ≠ b := by
    intro x hx
    rw [hholds, Bool.or_eq_false_iff] at hx
    exact ⟨hx.1, by simpa using hx.2⟩
  have hf := h.frame
  refine ⟨⟨?_, ?_, ?_, hf.inodeMap, ?_, hf.dirs, ?_, ?_, ?_⟩, h.size, ?_⟩
  · intro j hj
    rw [← hf.others j hj]
    simp [decFreeBlocks, FileSystem.putBlock, setPtr, Fs.modifyInode, hj]
  · rw [← hf.type]
    simp [decFreeBlocks, FileSystem.putBlock, setPtr, Fs.modifyInode]
  · rw [← hf.links]
    simp [decFreeBlocks, FileSystem.putBlock, setPtr, Fs.modifyInode]
  · obtain ⟨n, hn⟩ := hf.superblock
    refine ⟨u32Dec n, ?_⟩
    simp [decFreeBlocks, FileSystem.putBlock, setPtr, Fs.modifyInode, hn]
  · intro x h1 h2
    obtain ⟨h2, hxb⟩ := hold x h2
    rw [← hf.blocks x h1 h2]
    simp [decFreeBlocks, FileSystem.putBlock, hxb]
  · intro x h1 h2
    have := (hold x h2).1
    rw [h.grows x h1] at this
    cases this
  · intro a h1 h2
    exact hf.bytes a h1 (hold _ h2).1
  · intro x hx
    rw [hholds, h.grows x hx, Bool.true_or]

theorem GrowingFrame.setBytes {s t : Fs Attached} {i : Fin maxInodes} {k b : Nat} {m : Memory}
    (h : GrowingFrame s i t) (hslot : slot t i k = some b)
    (hm : ∀ a, a / blockSize ≠ b → m a = t.data.bytes a) : GrowingFrame s i (t.setBytes m) := by
  have hf := h.frame
  refine ⟨⟨hf.others, hf.type, hf.links, hf.inodeMap, hf.superblock, hf.dirs, hf.blocks,
    hf.dropped, ?_⟩, h.size, h.grows⟩
  intro a h1 h2
  have hne : a / blockSize ≠ b := by
    rintro rfl
    have : holds (t.inodes i) (a / blockSize) = true := holds_iff.mpr ⟨k, hslot⟩
    have h2' : holds (t.inodes i) (a / blockSize) = false := h2
    rw [this] at h2'
    cases h2'
  exact (hm a hne).trans (hf.bytes a h1 h2)

theorem writeLoop_frame {s : Fs Attached} (hs : Sound s) (i : Fin maxInodes)
    (buffer : List UInt8) (fuel bytesWritten pos : Nat) :
    GrowingFrame s i (writeLoop i buffer fuel s bytesWritten pos).1 :=
  writeLoop_invariant i buffer (fun h => h.size)
    (fun h hk hempty _ _ => h.putBlock hk hempty) (fun h hslot hm => h.setBytes hslot hm) fuel
    ⟨Frame.refl s i, hs.blockSize, fun _ h => h⟩ bytesWritten pos

theorem grow_frame (pos : Nat) (n : Inode) :
    (grow pos n).inodeType = n.inodeType ∧ (grow pos n).hardLinksCount = n.hardLinksCount ∧
      (grow pos n).directBlockPtrs = n.directBlockPtrs := by
  unfold grow
  split <;> exact ⟨rfl, rfl, rfl⟩

theorem written_frame {s : Fs Attached} (hs : Sound s) (i : Fin maxInodes)
    (buffer : List UInt8) (pos : Nat) : Frame s i (written s i buffer pos) :=
  (writeLoop_frame hs i buffer loopFuel 0 pos).frame.modifyInode
    (fun n => (grow_frame _ n).1) (fun n => (grow_frame _ n).2.1) (fun n => (grow_frame _ n).2.2)

theorem written_grows {s : Fs Attached} (hs : Sound s) (i : Fin maxInodes)
    (buffer : List UInt8) (pos : Nat) {b : Nat} (hb : holds (s.inodes i) b = true) :
    holds ((written s i buffer pos).inodes i) b = true := by
  have hself : (written s i buffer pos).inodes i
      = grow (writeLoop i buffer loopFuel s 0 pos).2.2
          ((writeLoop i buffer loopFuel s 0 pos).1.inodes i) := by
    simp [written, Fs.modifyInode]
  rw [hself, holds, holdsBelow, (grow_frame _ _).2.2]
  exact (writeLoop_frame hs i buffer loopFuel 0 pos).grows b hb

/-! ## `fisopfs_truncate` -/

theorem holds_clearedTo (n : Inode) (b : Nat) :
    holds (clearedTo n numDirectBlocks) b = false := by
  rw [Bool.eq_false_iff, Ne, holds_iff]
  rintro ⟨k, hk⟩
  rw [getDirectBlock_clearedTo] at hk
  cases hk

theorem releaseBlocks_frame {s : Fs Attached} (hs : Sound s) (i : Fin maxInodes) :
    Frame s i (releaseBlocks i s) := by
  rw [releaseBlocks_eq s i (hs.slotsBelow i)]
  refine ⟨?_, ?_, ?_, rfl, ⟨_, rfl⟩, rfl, ?_, ?_, ?_⟩
  · intro j hj
    simp [hj]
  · simp [clearedTo]
  · simp [clearedTo]
  · intro b h1 _
    have h1' : holdsBelow (s.inodes i) numDirectBlocks b = false := h1
    simp [mapWithout, h1']
  · intro b h1 _
    have h1' : holdsBelow (s.inodes i) numDirectBlocks b = true := h1
    simp [mapWithout, h1']
  · intro a h1 _
    have h1' : holdsBelow (s.inodes i) numDirectBlocks (a / blockSize) = false := h1
    simp only [bytesWithout, h1', Bool.false_eq_true, if_false]

theorem truncated_frame {s : Fs Attached} (hs : Sound s) (i : Fin maxInodes) (size : Int) :
    Frame s i (truncated s i size) := by
  unfold truncated
  split
  · exact (releaseBlocks_frame hs i).modifyInode (fun _ => rfl) (fun _ => rfl) (fun _ => rfl)
  · exact (Frame.refl s i).modifyInode (fun _ => rfl) (fun _ => rfl) (fun _ => rfl)

end SistemasOperativos.FileSystem
