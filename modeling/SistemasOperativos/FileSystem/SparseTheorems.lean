/-
SistemasOperativos.FileSystem.SparseTheorems — files with a size that
does not match their blocks.

A write behind the end of a file and a truncation to a larger length both
move the size past bytes that nobody has written. What a read finds there
is decided by the slots: they are filled from the left in every reachable
state, so a file has a number of attached blocks, `attachedCount`, and a
read returns the bytes of these blocks up to the size. A write whose block
index lies behind the first empty slot puts its block into that slot all
the same, and no block is cleared before it is attached.
-/
import SistemasOperativos.FileSystem.ResolverTheorems

namespace SistemasOperativos.FileSystem

open Paged

/-! ## The shape of an inode -/

/-- The slots are filled from the left, and the size fits its field. -/
structure InodeShape (n : Inode) : Prop where
  packed : ∀ j k, j ≤ k → inodeGetDirectBlock n j = none → inodeGetDirectBlock n k = none
  size : n.fileSizeBytes < 4294967296

theorem InodeShape.congr {n n' : Inode} (h : InodeShape n)
    (hptr : n'.directBlockPtrs = n.directBlockPtrs) (hsize : n'.fileSizeBytes < 4294967296) :
    InodeShape n' where
  packed := fun j k hjk hj => by
    unfold inodeGetDirectBlock at hj ⊢
    rw [hptr] at hj ⊢
    exact h.packed j k hjk hj
  size := hsize

theorem InodeShape.noPtr {n : Inode} (hptr : n.directBlockPtrs = fun _ => none)
    (hsize : n.fileSizeBytes < 4294967296) : InodeShape n where
  packed := fun j k _ _ => by simp [inodeGetDirectBlock, hptr]
  size := hsize

theorem InodeShape.onePtr {n : Inode} {b : Nat} (hptr : n.directBlockPtrs = onePtr b)
    (hsize : n.fileSizeBytes < 4294967296) : InodeShape n where
  packed := by
    intro j k hjk hj
    unfold inodeGetDirectBlock at hj ⊢
    rw [hptr] at hj ⊢
    by_cases hj0 : j = 0
    · subst hj0
      cases hj
    · simp [FileSystem.onePtr, show k ≠ 0 by omega]
  size := hsize

/-- A block in the first empty slot. -/
theorem InodeShape.putBlock {s : Fs Attached} {i : Fin maxInodes} (h : InodeShape (s.inodes i))
    {k : Nat} (b : Nat) (hk : k < numDirectBlocks)
    (hlow : ∀ j < k, (s.inodes i).directBlockPtrs j ≠ none) :
    InodeShape ((decFreeBlocks (putBlock s i k b)).inodes i) where
  packed := by
    intro j l hjl hj
    have hput := slot_putBlock s i b hk
    simp only [slot] at hput
    rw [hput] at hj ⊢
    by_cases hjk : j = k
    · rw [if_pos hjk] at hj
      cases hj
    · rw [if_neg hjk] at hj
      have hkj : k < j := by
        by_contra hle
        refine hlow j (by omega) ?_
        rwa [← getDirectBlock_of_lt _ (show j < numDirectBlocks by omega)]
      rw [if_neg (by omega)]
      exact h.packed j l hjl hj
  size := by simpa [decFreeBlocks, FileSystem.putBlock, setPtr, Fs.modifyInode] using h.size

/-- Every inode has its shape. -/
def Shaped (s : Fs Attached) : Prop := ∀ i, InodeShape (s.inodes i)

theorem Shaped.same {s t : Fs Attached} (h : Same s t) (hs : Shaped s) : Shaped t := by
  refine (h.apply Shaped (fun s => propext ?_)).mp hs
  exact forall_congr' (fun i => ⟨fun h => ⟨h.packed, h.size⟩, fun h => ⟨h.packed, h.size⟩⟩)

theorem Shaped.update {s t : Fs Attached} (hs : Shaped s) {i : Fin maxInodes} {n : Inode}
    (hin : t.inodes = Function.update s.inodes i n) (hn : InodeShape n) : Shaped t := by
  intro j
  rw [hin]
  by_cases hj : j = i
  · rw [hj, Function.update_self]
    exact hn
  · rw [Function.update_of_ne hj]
    exact hs j

theorem inodeInit_shape (c : Ctx) : InodeShape (inodeInit c) :=
  .noPtr rfl (by decide : 0 < 4294967296)

theorem Shaped.init (c : Ctx) : Shaped (fsInit c : Fs Attached) := by
  have hfree : Shaped { (fsInit c : Fs Attached) with inodes := fun _ => inodeInit c } :=
    fun _ => inodeInit_shape c
  exact hfree.update rfl (.onePtr (b := 0) rfl (by decide : directorySize < 4294967296))

theorem grow_shape {n : Inode} (h : InodeShape n) (pos : Nat) : InodeShape (grow pos n) := by
  unfold grow
  split
  · exact h.congr rfl (u32_lt pos)
  · exact h

theorem Shaped.written {s : Fs Attached} (hs : Sound s) (h : Shaped s) (i : Fin maxInodes)
    (buffer : List UInt8) (pos : Nat) : Shaped (written s i buffer pos) := by
  have hloop : Shaped (writeLoop i buffer loopFuel s 0 pos).1 := by
    refine (writeLoop_invariant (P := fun s => s.superblock.blockSizeBytes = blockSize ∧ Shaped s)
      i buffer (fun h => h.1) ?_ (fun h _ _ => h) loopFuel ⟨hs.blockSize, h⟩ 0 pos).2
    intro s k b h hk _ hlow _
    refine ⟨h.1, h.2.update rfl ?_⟩
    have hput := (h.2 i).putBlock b hk hlow
    simpa [decFreeBlocks, putBlock, setPtr, Fs.modifyInode] using hput
  exact hloop.update rfl (grow_shape (hloop i) _)

theorem Shaped.truncated {s : Fs Attached} (hs : Sound s) (h : Shaped s) (i : Fin maxInodes)
    (size : Int) : Shaped (truncated s i size) := by
  unfold FileSystem.truncated
  split
  · have hrel : Shaped (releaseBlocks i s) := by
      rw [releaseBlocks_eq s i (hs.slotsBelow i)]
      exact h.update rfl ⟨fun _ k _ _ => getDirectBlock_clearedTo _ k, (h i).size⟩
    exact hrel.update rfl ((hrel i).congr rfl (u32_lt _))
  · exact h.update rfl ((h i).congr rfl (u32_lt _))

theorem Effect.shaped {c : Ctx} {s t : Fs Attached} {op : Op} {r : Int} (he : Effect c s op r t)
    (hs : Sound s) (h : Shaped s) : Shaped t := by
  cases he with
  | unchanged => exact h
  | rolledBack => exact h.update rfl (inodeInit_shape c)
  | createFile => exact h.update rfl (.onePtr rfl (by decide : 0 < 4294967296))
  | createSymlink => exact h.update rfl (.onePtr rfl (u32_lt _))
  | @createDirectory _ mode _ name d i b =>
      have hinst : Shaped (installed s i (newDirInode c mode b) b
          (withEntry (s.data.setDir i Directory.init) d name i)) :=
        h.update rfl (.onePtr rfl (by decide : directorySize < 4294967296))
      exact hinst.update rfl ((hinst d).congr rfl (hinst d).size)
  | @createHardLink _ _ src => exact h.update rfl ((h src).congr rfl (h src).size)
  | @unlinked _ _ i => exact h.update rfl ((h i).congr rfl (h i).size)
  | deleted => exact h.update rfl (inodeInit_shape c)
  | removeDirectory => exact h.update rfl (inodeInit_shape c)
  | @changeMode _ _ i => exact h.update rfl ((h i).congr rfl (h i).size)
  | @changeOwner _ _ _ i => exact h.update rfl ((h i).congr rfl (h i).size)
  | writeFile => exact h.written hs _ _ _
  | truncate => exact h.truncated hs _ _

theorem Reachable.shaped {u : User} {P : Fs Attached → Op → Fs Attached → Prop} {t : Fs Attached}
    (h : Reachable u P t) : Shaped t := by
  have hinv : Sound t ∧ Shaped t := by
    refine h.invariant (I := fun t => Sound t ∧ Shaped t)
      (fun now => ⟨Sound.init _, Shaped.init _⟩) ?_
    rintro now s op r t ⟨hs, h⟩ - hstep
    obtain ⟨s', t', hss, htt, he⟩ := step_effect hs hstep
    exact ⟨step_sound hs hstep, (he.shaped (hs.same hss) (h.same hss)).same htt.symm⟩
  exact hinv.2

/-! ## Attached blocks -/

/-- The number of blocks of inode `i`: the index of its first empty slot. -/
def attachedCount (s : Fs Attached) (i : Fin maxInodes) : Nat :=
  (List.range numDirectBlocks).findIdx (fun k => (slot s i k).isNone)

/-- The byte at position `x` of inode `i`, whatever its size is. -/
def blockByte (s : Fs Attached) (i : Fin maxInodes) (x : Nat) : UInt8 :=
  (view blockSize (slot s i) s.data.bytes x).getD 0

/-- The bytes of all attached blocks, in the order of the slots. -/
def blockBytes (s : Fs Attached) (i : Fin maxInodes) : List UInt8 :=
  (List.range (attachedCount s i * blockSize)).map (blockByte s i)

/-- The bytes that a read of the whole file returns. -/
def visible (s : Fs Attached) (i : Fin maxInodes) : List UInt8 :=
  (blockBytes s i).take (s.inodes i).fileSizeBytes

variable {s t : Fs Attached} {i : Fin maxInodes}

theorem slot_attached {k : Nat} (hk : k < attachedCount s i) : slot s i k ≠ none := by
  have hlt := List.not_of_lt_findIdx hk
  rw [List.getElem_range] at hlt
  intro hnone
  rw [hnone] at hlt
  cases hlt

theorem Shaped.slot_empty (h : Shaped s) {k : Nat} (hk : attachedCount s i ≤ k) :
    slot s i k = none := by
  by_cases hlt : attachedCount s i < numDirectBlocks
  · have hfirst := @List.findIdx_getElem _ (fun k => (slot s i k).isNone) (List.range numDirectBlocks)
      (by rw [List.length_range]; exact hlt)
    rw [List.getElem_range, Option.isNone_iff_eq_none] at hfirst
    exact (h i).packed _ k hk hfirst
  · exact if_pos (by omega)

theorem length_blockBytes (s : Fs Attached) (i : Fin maxInodes) :
    (blockBytes s i).length = attachedCount s i * blockSize := by
  rw [blockBytes, List.length_map, List.length_range]

theorem length_visible (s : Fs Attached) (i : Fin maxInodes) :
    (visible s i).length
      = min (s.inodes i).fileSizeBytes (attachedCount s i * blockSize) := by
  rw [visible, List.length_take, length_blockBytes]

theorem Shaped.content (h : Shaped s) (i : Fin maxInodes) :
    Content s i (attachedCount s i) (blockBytes s i) where
  filled := fun _ hk => slot_attached hk
  empty := fun _ hk => h.slot_empty hk
  room := (length_blockBytes s i).le
  shown := by
    intro x hx
    rw [length_blockBytes] at hx
    have hslot : slot s i (x / blockSize) ≠ none :=
      slot_attached (Nat.div_lt_of_lt_mul (by rwa [Nat.mul_comm]))
    obtain ⟨b, hb⟩ := Option.ne_none_iff_exists'.mp hslot
    simp [blockBytes, blockByte, view, hb, hx]

/-! ## Reading -/

/-- What `fs_read_file` returns, without the state. -/
def reads (c : Ctx) (s : Fs Attached) (path : CStr) (size : Nat) (offset : Int) :
    Except Fault (Int × List UInt8) :=
  (fsReadFile c s path size offset).map Prod.fst

theorem Content.same (hst : Same s t) {m : Nat} {l : List UInt8} (h : Content s i m l) :
    Content t i m l := by
  refine (hst.apply (fun s => Content s i m l) (fun s => propext ?_)).mp h
  exact ⟨fun h => ⟨h.filled, h.empty, h.room, h.shown⟩,
    fun h => ⟨h.filled, h.empty, h.room, h.shown⟩⟩

/-- `fs_read_file` where the bytes up to the size, or to the end of the
last block, are known. -/
theorem Content.reads {m : Nat} {l : List UInt8} (h : Content s i m l) (hs : Sound s)
    (hsize : l.length = min (s.inodes i).fileSizeBytes (m * blockSize))
    (hlt : (s.inodes i).fileSizeBytes < 4294967296) {path : CStr} (hat : FileAt s path i)
    (c : Ctx) (size o : Nat) :
    reads c s path size o
      = .ok ((((l.drop o).take size).length : Int), (l.drop o).take size) := by
  obtain ⟨s', hsame, hread⟩ := fsReadFile_file c hs hat size o
  have h' := h.same hsame
  rw [hsame.apply (fun s => (s.inodes i).fileSizeBytes) (fun _ => rfl)] at hsize hlt
  have heq := h'.readFileAt c (hs.same hsame) hsize hlt size (Int.natCast_nonneg o)
  rw [Int.toNat_natCast] at heq
  rw [FileSystem.reads, hread, Except.map, heq]

theorem Shaped.reads (h : Shaped s) (hs : Sound s) {path : CStr} (hat : FileAt s path i)
    (c : Ctx) (size o : Nat) :
    FileSystem.reads c s path size o
      = .ok (((((visible s i).drop o).take size).length : Int),
          ((visible s i).drop o).take size) :=
  ((h.content i).take _).reads hs (by rw [← length_visible]; rfl) (h i).size hat c size o

/-- The result of a concrete read. -/
theorem reads_of_returns {c : Ctx} {path : CStr} {size : Nat} {offset k : Int} {l : List UInt8}
    {f : Fs Attached → Bool} (h : returns (fsReadFile c s path size offset) (k, l) f = true) :
    reads c s path size offset = .ok (k, l) := by
  obtain ⟨t, hread, -⟩ := returns_true h
  rw [reads, hread]
  rfl

/-! ## Writing behind the end -/

/-- The byte at position `x` once a write has got there: the slot has its
block already, or the write takes the first free one. -/
def gapByte (s : Fs Attached) (i : Fin maxInodes) (x : Nat) : UInt8 :=
  (view blockSize (fun k => (slot s i k).or (findFreeBlock s.intmap)) s.data.bytes x).getD 0

/-- A write at `o`, behind the end of inode `i`, leaves a gap of zeros: it
begins in an attached block or right after the last one, the size does not
reach behind the blocks, and whatever the blocks hold in the gap is 0. -/
structure GapReady (s : Fs Attached) (i : Fin maxInodes) (o : Nat) : Prop where
  next : o / blockSize ≤ attachedCount s i
  sized : (s.inodes i).fileSizeBytes ≤ attachedCount s i * blockSize
  zero : ∀ x, (s.inodes i).fileSizeBytes ≤ x → x < o → gapByte s i x = 0

/-- What a write of `n` bytes at `o`, behind the end of a file of `size`
bytes, should show to later reads. -/
structure ExtendedByWrite (s t : Fs Attached) (path : CStr) (size o n : Nat)
    (buffer : List UInt8) : Prop where
  back : ∀ c, reads c t path n o = .ok ((n : Int), buffer.take n)
  kept : ∀ c c', reads c t path size 0 = reads c' s path size 0
  gap : ∀ c, reads c t path (o - size) size
    = .ok (((o - size : Nat) : Int), List.replicate (o - size) 0)

/-- The state a write of the block of slot `q` works on. -/
theorem Shaped.attach (h : Shaped s) (hs : Sound s) {q b : Nat}
    (hq : q ≤ attachedCount s i) (hb : blockForWrite s i q = some (b, t)) :
    Sound t ∧ Shaped t ∧ slot t i q = some b ∧ q < attachedCount t i ∧
      ∀ x, x / blockSize ≤ q → blockByte t i x = gapByte s i x := by
  rcases blockForWrite_some hb with ⟨hslot, rfl⟩ | ⟨k, hk, hnone, hempty, hlow, hfree, rfl⟩
  · have hlt : q < attachedCount t i := by
      by_contra hle
      rw [h.slot_empty (by omega)] at hslot
      cases hslot
    refine ⟨hs, h, hslot, hlt, fun x hx => ?_⟩
    obtain ⟨b', hb'⟩ := Option.ne_none_iff_exists'.mp
      (slot_attached (s := t) (i := i) (k := x / blockSize) (by omega))
    simp [blockByte, gapByte, view, hb']
  · -- the first empty slot is the one that is needed
    have hkm : k = attachedCount s i := by
      refine Nat.le_antisymm ?_ ?_
      · by_contra hlt
        refine hlow (attachedCount s i) (by omega) ?_
        rw [← getDirectBlock_of_lt _ (show attachedCount s i < numDirectBlocks by omega)]
        exact h.slot_empty (Nat.le_refl _)
      · by_contra hlt
        refine slot_attached (s := s) (i := i) (k := k) (by omega) ?_
        rw [slot, getDirectBlock_of_lt _ hk, hempty]
    have hqk : q = k := by
      refine Nat.le_antisymm (by omega) ?_
      by_contra hlt
      exact slot_attached (by omega) hnone
    subst hqk
    have hput := slot_putBlock s i b hk
    have hshape : Shaped (decFreeBlocks (putBlock s i q b)) := by
      refine h.update rfl ?_
      have hself := (h i).putBlock b hk hlow
      simpa [decFreeBlocks, putBlock, setPtr, Fs.modifyInode] using hself
    refine ⟨hs.putBlock hempty hfree, hshape, by rw [hput, if_pos rfl], ?_, fun x hx => ?_⟩
    · by_contra hle
      have hnone' := hshape.slot_empty (i := i) (k := q) (by omega)
      rw [hput, if_pos rfl] at hnone'
      cases hnone'
    · by_cases hxq : x / blockSize = q
      · simp only [blockByte, gapByte, view, hput, hxq, if_true, hnone, hfree, Option.none_or]
        rfl
      · obtain ⟨b', hb'⟩ := Option.ne_none_iff_exists'.mp
          (slot_attached (s := s) (i := i) (k := x / blockSize) (by omega))
        simp only [blockByte, gapByte, view, hput, if_neg hxq, hb', Option.some_or]
        rfl

/-- The loop begins the same way with the block already in its slot. -/
theorem writeLoop_attach (hs : Sound s) {buffer : List UInt8} (hne : buffer ≠ []) {o b : Nat}
    (ht : Sound t) (hb : blockForWrite s i (o / blockSize) = some (b, t))
    (hslot : slot t i (o / blockSize) = some b) (fuel : Nat) :
    writeLoop i buffer (fuel + 1) s 0 o = writeLoop i buffer (fuel + 1) t 0 o := by
  have hagain : blockForWrite t i (o / blockSize) = some (b, t) := by
    have hget : inodeGetDirectBlock (t.inodes i) (o / blockSize) = some b := hslot
    simp [blockForWrite, hget]
  have hlt : 0 < buffer.length := List.length_pos_iff.mpr hne
  have hidx : ¬ o / blockSize ≥ numDirectBlocks := not_le.mpr (getDirectBlock_eq_some.mp hslot).1
  rw [writeLoop, writeLoop]
  simp only [hs.blockSize, ht.blockSize, hb, hagain, if_pos hlt, if_neg hidx]

/-- A write that has counted a byte has found a block for it. -/
theorem block_of_written (hs : Sound s) {buffer : List UInt8} {o : Nat}
    (hn : 0 < (writeLoop i buffer loopFuel s 0 o).2.1) :
    ∃ b t, blockForWrite s i (o / blockSize) = some (b, t) := by
  cases hb : blockForWrite s i (o / blockSize) with
  | some r => exact ⟨r.1, r.2, rfl⟩
  | none =>
      rw [writeLoop] at hn
      simp only [hs.blockSize, hb, ite_self] at hn
      exact absurd hn (Nat.lt_irrefl 0)

/-- What the blocks show after a write that begins in an attached block or
right after the last one. -/
theorem Shaped.written_content (h : Shaped s) (hs : Sound s) {buffer : List UInt8} {o : Nat}
    (hne : buffer ≠ []) (hlo : (s.inodes i).fileSizeBytes < o)
    (hq : o / blockSize ≤ attachedCount s i)
    {n : Nat} (hn : n = (writeLoop i buffer loopFuel s 0 o).2.1) (hpos : 0 < n) :
    (∃ m, Content (FileSystem.written s i buffer o) i m
      ((List.range o).map (gapByte s i) ++ buffer.take n)) ∧
      ((FileSystem.written s i buffer o).inodes i).fileSizeBytes = o + n ∧
      n ≤ buffer.length ∧ o + n ≤ numDirectBlocks * blockSize := by
  obtain ⟨b, s1, hb⟩ := block_of_written hs (hn ▸ hpos)
  obtain ⟨hs1, h1, hslot, hq1, hbytes⟩ := h.attach hs hq hb
  have hloop := writeLoop_attach hs hne hs1 hb hslot numDirectBlocks
  have ho : o ≤ (blockBytes s1 i).length := by
    rw [length_blockBytes]
    simp only [blockSize] at *
    omega
  have hfirst : (blockBytes s1 i).take o = (List.range o).map (gapByte s i) := by
    rw [length_blockBytes] at ho
    rw [blockBytes, ← List.map_take, List.take_range, Nat.min_eq_left ho]
    refine List.map_congr_left (fun x hx => hbytes x ?_)
    exact Nat.div_le_div_right (List.mem_range.mp hx).le
  rcases hw : writeLoop i buffer loopFuel s 0 o with ⟨t, n', pos'⟩
  have hsize := writeLoop_size i buffer loopFuel s hs.blockSize 0 o
  rw [hw] at hn hsize
  obtain rfl : n = n' := hn
  have hstart : Content s1 i (attachedCount s1 i)
      (overwrite (blockBytes s1 i) o (buffer.take 0)) := by
    rw [List.take_zero, overwrite_nil]
    exact h1.content i
  obtain ⟨⟨m, hm⟩, hle, hpos', -⟩ := writeLoop_content ho loopFuel hs1 hstart (Nat.zero_le _) rfl
    (fun _ => Nat.le_add_right _ _) (hloop.symm.trans hw)
  have hlen : (buffer.take n).length = n := by rw [List.length_take, Nat.min_eq_left hle]
  have hmax : o + n ≤ numDirectBlocks * blockSize := by
    refine le_trans ?_ hm.length_le
    rw [length_overwrite ho, hlen]
    exact Nat.le_max_right _ _
  have hwritten : FileSystem.written s i buffer o = t.modifyInode i (grow pos') := by
    simp only [FileSystem.written, hw]
  have hself : (t.modifyInode i (grow pos')).inodes i = grow pos' (t.inodes i) := by
    simp [Fs.modifyInode]
  have hcut : (overwrite (blockBytes s1 i) o (buffer.take n)).take (o + n)
      = (List.range o).map (gapByte s i) ++ buffer.take n := by
    rw [overwrite, ← hfirst]
    exact List.take_left' (by rw [List.length_append, List.length_take, hlen, Nat.min_eq_left ho])
  rw [hwritten, ← hcut]
  refine ⟨⟨m, (hm.take (o + n)).grow pos'⟩, ?_, hle, hmax⟩
  · rw [hself, grow, hsize, if_pos (by show pos' > _; omega)]
    show u32 pos' = o + n
    rw [hpos', u32_of_lt]
    simp only [numDirectBlocks, blockSize] at hmax
    omega

/-- A write that begins behind the first empty slot: every turn fills one
slot more, and the slots stay one behind the positions. -/
theorem writeLoop_lags {buffer : List UInt8} (fuel : Nat) {m bytesWritten pos : Nat}
    (hs : s.superblock.blockSizeBytes = blockSize) (hm : ∀ k, m ≤ k → slot s i k = none)
    (hidx : bytesWritten < buffer.length → m < pos / blockSize)
    (hlast : 0 < bytesWritten → m ≤ (pos - 1) / blockSize) {bytesWritten' pos' : Nat}
    (hw : writeLoop i buffer fuel s bytesWritten pos = (t, bytesWritten', pos')) :
    pos' + bytesWritten = pos + bytesWritten' ∧
      (0 < bytesWritten' → slot t i ((pos' - 1) / blockSize) = none) := by
  induction fuel generalizing s m bytesWritten pos with
  | zero =>
      rw [writeLoop] at hw
      cases hw
      exact ⟨rfl, fun hpos => hm _ (hlast hpos)⟩
  | succ fuel ih =>
      have hstop : (s, bytesWritten, pos) = (t, bytesWritten', pos') →
          pos' + bytesWritten = pos + bytesWritten' ∧
            (0 < bytesWritten' → slot t i ((pos' - 1) / blockSize) = none) := by
        intro heq
        cases heq
        exact ⟨rfl, fun hpos => hm _ (hlast hpos)⟩
      rw [writeLoop] at hw
      by_cases hlt : bytesWritten < buffer.length
      · simp only [if_pos hlt, hs] at hw
        by_cases hmax : pos / blockSize ≥ numDirectBlocks
        · rw [if_pos hmax] at hw
          exact hstop hw
        · rw [if_neg hmax] at hw
          have hbehind := hidx hlt
          cases hb : blockForWrite s i (pos / blockSize) with
          | none =>
              simp only [hb] at hw
              exact hstop hw
          | some r =>
              obtain ⟨b, s1⟩ := r
              -- the slot of `pos` is empty, so a fresh block goes to slot `m` or before it
              obtain ⟨k, hk, hnone, hempty, hlow, hfree, rfl⟩ := (blockForWrite_some hb).resolve_left
                (fun h => by rw [hm _ hbehind.le] at h; cases h.1)
              have hkm : k ≤ m := by
                by_contra hgt
                refine hlow m (by omega) ?_
                rw [← getDirectBlock_of_lt _ (show m < numDirectBlocks by omega)]
                exact hm m (Nat.le_refl m)
              have hs1 : (decFreeBlocks (putBlock s i k b)).superblock.blockSizeBytes
                  = blockSize := hs
              simp only [hb, hs1] at hw
              generalize hn : (if buffer.length - bytesWritten > blockSize - pos % blockSize
                then blockSize - pos % blockSize else buffer.length - bytesWritten) = n at hw
              have hmod : pos % blockSize < blockSize := Nat.mod_lt _ (by decide)
              have hn0 : 0 < n ∧ pos % blockSize + n ≤ blockSize := by
                rw [← hn]
                split <;> omega
              have hblock : (pos + n - 1) / blockSize = pos / blockSize := by
                simp only [blockSize] at *
                omega
              have hslots : ∀ (mem : Memory) (j : Nat), m + 1 ≤ j →
                  slot ((decFreeBlocks (putBlock s i k b)).setBytes mem) i j = none := by
                intro mem j hj
                show slot (decFreeBlocks (putBlock s i k b)) i j = none
                rw [slot_putBlock s i b hk, if_neg (by omega)]
                exact hm j (by omega)
              have hnext : bytesWritten + n < buffer.length → m + 1 < (pos + n) / blockSize := by
                intro hmore
                have hend : n = blockSize - pos % blockSize := by
                  rw [← hn, if_pos]
                  by_contra hc
                  rw [if_neg hc] at hn
                  omega
                simp only [blockSize] at *
                omega
              obtain ⟨hsum, hafter⟩ :=
                ih (by exact hs1) (hslots _) hnext (fun _ => by omega) hw
              exact ⟨by omega, hafter⟩
      · rw [if_neg hlt] at hw
        exact hstop hw

/-- The bytes of attached blocks are not touched by an allocation. -/
theorem gapByte_of_attached {x : Nat} (hx : x < attachedCount s i * blockSize) :
    gapByte s i x = blockByte s i x := by
  have hlt : x / blockSize < attachedCount s i :=
    Nat.div_lt_of_lt_mul (by rwa [Nat.mul_comm])
  obtain ⟨b, hb⟩ := Option.ne_none_iff_exists'.mp (slot_attached hlt)
  simp [gapByte, blockByte, view, hb]

theorem visible_eq (hsize : (s.inodes i).fileSizeBytes ≤ attachedCount s i * blockSize) :
    visible s i = (List.range (s.inodes i).fileSizeBytes).map (blockByte s i) := by
  rw [visible, blockBytes, ← List.map_take, List.take_range, Nat.min_eq_left hsize]

/-- Where the blocks after the write are known, the reads are right if and
only if the size lay within the blocks and the gap is zero. -/
theorem extendedByWrite_iff (hs : Sound s) (h : Shaped s) {path : CStr} (hat : FileAt s path i)
    (ht : Sound t) (hat' : FileAt t path i) {buffer : List UInt8} {m o n : Nat}
    (hm : Content t i m ((List.range o).map (gapByte s i) ++ buffer.take n))
    (hsize : (t.inodes i).fileSizeBytes = o + n) (hn : n ≤ buffer.length)
    (hmax : o + n ≤ numDirectBlocks * blockSize) (hlo : (s.inodes i).fileSizeBytes < o) :
    ExtendedByWrite s t path (s.inodes i).fileSizeBytes o n buffer ↔
      (s.inodes i).fileSizeBytes ≤ attachedCount s i * blockSize ∧
        ∀ x, (s.inodes i).fileSizeBytes ≤ x → x < o → gapByte s i x = 0 := by
  have hgaplen : ((List.range o).map (gapByte s i)).length = o := by simp
  have hbuflen : (buffer.take n).length = n := by rw [List.length_take, Nat.min_eq_left hn]
  have hroom := hm.room
  rw [List.length_append, hgaplen, hbuflen] at hroom
  have hreads := hm.reads ht (by rw [List.length_append, hgaplen, hbuflen, hsize]; omega)
    (by rw [hsize]; exact Nat.lt_of_le_of_lt hmax (by decide)) hat'
  set size := (s.inodes i).fileSizeBytes with hsz
  have hback : (((List.range o).map (gapByte s i) ++ buffer.take n).drop o).take n
      = buffer.take n := by
    rw [List.drop_left' hgaplen, List.take_of_length_le (by omega)]
  have hkept : (((List.range o).map (gapByte s i) ++ buffer.take n).drop 0).take size
      = (List.range size).map (gapByte s i) := by
    rw [List.drop_zero, List.take_append_of_le_length (by omega), ← List.map_take,
      List.take_range, Nat.min_eq_left hlo.le]
  have hgap : (((List.range o).map (gapByte s i) ++ buffer.take n).drop size).take (o - size)
      = ((List.range o).map (gapByte s i)).drop size := by
    rw [List.drop_append_of_le_length (by omega)]
    exact List.take_left' (by rw [List.length_drop, hgaplen])
  have hbefore : ((visible s i).drop 0).take size = visible s i := by
    rw [List.drop_zero, List.take_of_length_le]
    rw [length_visible]
    exact Nat.min_le_left _ _
  constructor
  · intro hext
    constructor
    · have heq := hext.kept ⟨0, 0, 0⟩ ⟨0, 0, 0⟩
      rw [show (0 : Int) = ((0 : Nat) : Int) from rfl, hreads, h.reads hs hat, hkept, hbefore,
        Except.ok.injEq, Prod.mk.injEq] at heq
      have hlen := congrArg List.length heq.2
      rw [List.length_map, List.length_range, length_visible] at hlen
      omega
    · intro x hx hxo
      have heq := hext.gap ⟨0, 0, 0⟩
      rw [hreads, hgap, Except.ok.injEq, Prod.mk.injEq] at heq
      have hget := congrArg (fun l : List UInt8 => l[x - size]?) heq.2
      simp only [List.getElem?_drop, List.getElem?_map] at hget
      rw [show size + (x - size) = x by omega, List.getElem?_range hxo,
        List.getElem?_replicate_of_lt (by omega)] at hget
      simpa using hget
  · rintro ⟨hsized, hzero⟩
    refine ⟨fun c => ?_, fun c c' => ?_, fun c => ?_⟩
    · rw [hreads, hback, hbuflen]
    · have hsame : (List.range size).map (gapByte s i) = visible s i := by
        rw [visible_eq hsized]
        refine List.map_congr_left (fun x hx => gapByte_of_attached ?_)
        exact (List.mem_range.mp hx).trans_le hsized
      rw [show (0 : Int) = ((0 : Nat) : Int) from rfl, hreads, h.reads hs hat, hkept, hbefore,
        hsame]
    · have hrep : ((List.range o).map (gapByte s i)).drop size
          = List.replicate (o - size) 0 := by
        rw [List.eq_replicate_iff]
        refine ⟨by rw [List.length_drop, hgaplen], fun y hy => ?_⟩
        obtain ⟨k, hk, rfl⟩ := List.getElem_of_mem hy
        rw [List.length_drop, hgaplen] at hk
        rw [List.getElem_drop, List.getElem_map, List.getElem_range]
        exact hzero _ (by omega) (by omega)
      rw [hreads, hgap, hrep, List.length_replicate]

/-- A read of `n` bytes at `o` is short when there is no block for the
last of them. -/
theorem reads_short (hs : Sound s) (h : Shaped s) {path : CStr} (hat : FileAt s path i)
    {o n : Nat} (hn : 0 < n) (hslot : slot s i ((o + n - 1) / blockSize) = none) (c : Ctx)
    (l : List UInt8) : reads c s path n o ≠ .ok ((n : Int), l) := by
  have hcount : attachedCount s i ≤ (o + n - 1) / blockSize := by
    by_contra hlt
    exact slot_attached (by omega) hslot
  have hlen := length_visible s i
  rw [h.reads hs hat]
  intro heq
  rw [Except.ok.injEq, Prod.mk.injEq, List.length_take, List.length_drop] at heq
  have hfull := heq.1
  simp only [blockSize] at *
  omega

/-- For every file of a reachable state and every write that begins behind
its end and returns a positive count: later reads see the bytes written,
the old content and zeros in between if and only if the gap was ready. -/
theorem write_past_end_iff {u : User} {P : Fs Attached → Op → Fs Attached → Prop}
    {s t : Fs Attached} (h : Reachable u P s) {path : CStr} {i : Fin maxInodes}
    (hat : FileAt s path i) {o : Nat} (hlo : (s.inodes i).fileSizeBytes < o)
    (hhi : o < numDirectBlocks * blockSize) {c : Ctx} {buffer : List UInt8} {n : Nat}
    (hn : 0 < n) (hstep : step c s (.writeFile path buffer o false) = .ok ((n : Int), t)) :
    ExtendedByWrite s t path (s.inodes i).fileSizeBytes o n buffer ↔ GapReady s i o := by
  have hs := h.sound
  have hshape := h.shaped
  have hne : buffer ≠ [] := by
    rintro rfl
    rw [show step c s (.writeFile path [] o false) = .ok (-1, s) from rfl, Except.ok.injEq,
      Prod.mk.injEq] at hstep
    omega
  obtain ⟨s', t', hss, htt, hwrite⟩ := fsWriteFile_file c hs hat hne o false
  have hstart : writeStart s' i o false = o := by
    simp only [writeStart, Bool.false_eq_true, if_false, toSize]
    simp only [numDirectBlocks, blockSize] at hhi
    omega
  have hstep' : fsWriteFile c s path buffer o false = .ok ((n : Int), t) := hstep
  rw [hwrite, hstart, Except.ok.injEq, Prod.mk.injEq, Int.natCast_inj] at hstep'
  obtain ⟨hcount, rfl⟩ := hstep'
  rw [hstart] at htt
  have hs' := hs.same hss
  have hshape' := hshape.same hss
  have hsound : Sound t' := step_sound hs hstep
  have hshapet : Shaped t' := (hshape'.written hs' i buffer o).same htt.symm
  have hatt : FileAt t' path i := ((hat.same hss).written hs' i buffer o).same htt.symm
  have hgapsame : gapByte s' i = gapByte s i :=
    (hss.apply (fun s => gapByte s i) (fun _ => rfl)).symm
  have hcountsame : attachedCount s' i = attachedCount s i :=
    (hss.apply (fun s => attachedCount s i) (fun _ => rfl)).symm
  have hsizesame : (s'.inodes i).fileSizeBytes = (s.inodes i).fileSizeBytes :=
    (hss.apply (fun s => (s.inodes i).fileSizeBytes) (fun _ => rfl)).symm
  by_cases hq : o / blockSize ≤ attachedCount s i
  · obtain ⟨⟨m, hm⟩, hsize, hle, hmax⟩ := hshape'.written_content hs' hne
      (by rw [hsizesame]; exact hlo) (by rw [hcountsame]; exact hq) hcount.symm hn
    rw [hgapsame] at hm
    have hm' := hm.same htt.symm
    rw [← htt.apply (fun s => (s.inodes i).fileSizeBytes) (fun _ => rfl)] at hsize
    rw [extendedByWrite_iff hs hshape hat hsound hatt hm' hsize hle hmax hlo]
    exact ⟨fun hgap => ⟨hq, hgap.1, hgap.2⟩, fun hready => ⟨hready.sized, hready.zero⟩⟩
  · refine iff_of_false (fun hext => ?_) (fun hready => hq hready.next)
    rcases hw : writeLoop i buffer loopFuel s' 0 o with ⟨w, n', pos'⟩
    rw [hw] at hcount
    obtain rfl : n' = n := hcount
    obtain ⟨hsum, hlag⟩ := writeLoop_lags loopFuel hs'.blockSize
      (fun k hk => hshape'.slot_empty hk) (fun _ => by rw [hcountsame]; omega)
      (fun h0 => absurd h0 (Nat.lt_irrefl 0)) hw
    have hnone : slot t' i ((o + n' - 1) / blockSize) = none := by
      rw [htt.apply (fun s => slot s i ((o + n' - 1) / blockSize)) (fun _ => rfl)]
      have hcontent : slot (written s' i buffer o) i = slot w i := by
        funext k
        simp only [written, hw, slot, Fs.modifyInode, Function.update_self, inodeGetDirectBlock,
          (grow_frame pos' (w.inodes i)).2.2]
      rw [hcontent]
      rw [show o + n' = pos' by omega]
      exact hlag hn
    exact reads_short hsound hshapet hatt hn hnone _ _ (hext.back ⟨0, 0, 0⟩)

/-- One byte at 5 of a new file: the block it got with its creation is
clear. -/
theorem write_past_end_iff_new_file :
    ∃ s t : Fs Attached, Reachable ⟨0, 0⟩ (fun _ _ _ => True) s ∧ FileAt s (cstr "/f") 1 ∧
      step (User.at ⟨0, 0⟩ 0) s (.writeFile (cstr "/f") [7] 5 false) = .ok (1, t) ∧
      GapReady s 1 5 ∧ ExtendedByWrite s t (cstr "/f") 0 5 1 [7] := by
  set c := User.at ⟨0, 0⟩ 0 with hc
  have hrun : returns (step c (fsInit c) (.createFile (cstr "/f") 6)) 0 (fun s =>
      decide (target s (cstr "/f") = some (0, cstr "f", 1) ∧ (s.inodes 1).fileSizeBytes = 0 ∧
        attachedCount s 1 = 1 ∧ ∀ x ∈ List.range 5, gapByte s 1 x = 0) &&
      returns (step c s (.writeFile (cstr "/f") [7] 5 false)) 1 (fun _ => true)) = true := by
    decide +kernel
  obtain ⟨s, hcreate, hrun⟩ := returns_true hrun
  rw [Bool.and_eq_true, decide_eq_true_eq] at hrun
  obtain ⟨⟨htarget, hsize, hcount, hzero⟩, hwrite⟩ := hrun
  obtain ⟨t, hstep, -⟩ := returns_true hwrite
  have hreach : Reachable ⟨0, 0⟩ (fun _ _ _ => True) s := ⟨0, .single ⟨0, _, _, hcreate, trivial⟩⟩
  have hready : GapReady s 1 5 := by
    refine ⟨?_, ?_, fun x _ hx => hzero x (List.mem_range.mpr hx)⟩
    · rw [hcount]
      decide
    · rw [hsize]
      exact Nat.zero_le _
  have hext := (write_past_end_iff (o := 5) (n := 1) hreach ⟨_, _, htarget⟩
    (by rw [hsize]; decide) (by decide) (by decide) hstep).mpr hready
  rw [hsize] at hext
  exact ⟨s, t, hreach, ⟨_, _, htarget⟩, hstep, hready, hext⟩

/-- One byte at 8192 of a new file: it is counted, and a read at 8192
returns nothing. -/
theorem written_byte_not_read :
    ∃ s t : Fs Attached, Reachable ⟨0, 0⟩ (fun _ _ _ => True) s ∧ FileAt s (cstr "/f") 1 ∧
      (s.inodes 1).inodeType = .file ∧ (s.inodes 1).fileSizeBytes = 0 ∧
      step (User.at ⟨0, 0⟩ 0) s (.writeFile (cstr "/f") [7] 8192 false) = .ok (1, t) ∧
      reads (User.at ⟨0, 0⟩ 0) t (cstr "/f") 1 8192 = .ok (0, []) ∧
      ¬ ExtendedByWrite s t (cstr "/f") 0 8192 1 [7] := by
  set c := User.at ⟨0, 0⟩ 0 with hc
  have hrun : returns (step c (fsInit c) (.createFile (cstr "/f") 6)) 0 (fun s =>
      decide (target s (cstr "/f") = some (0, cstr "f", 1) ∧ (s.inodes 1).inodeType = .file ∧
        (s.inodes 1).fileSizeBytes = 0) &&
      returns (step c s (.writeFile (cstr "/f") [7] 8192 false)) 1 (fun t =>
        returns (fsReadFile c t (cstr "/f") 1 8192) (0, []) (fun _ => true))) = true := by
    decide +kernel
  obtain ⟨s, hcreate, hrun⟩ := returns_true hrun
  rw [Bool.and_eq_true, decide_eq_true_eq] at hrun
  obtain ⟨⟨htarget, htype, hsize⟩, hwrite⟩ := hrun
  obtain ⟨t, hstep, hread⟩ := returns_true hwrite
  have hreads := reads_of_returns hread
  refine ⟨s, t, ⟨0, .single ⟨0, _, _, hcreate, trivial⟩⟩, ⟨_, _, htarget⟩, htype, hsize, hstep,
    hreads, fun hext => ?_⟩
  have hback := hext.back c
  rw [show ((8192 : Nat) : Int) = 8192 from rfl, hreads, Except.ok.injEq, Prod.mk.injEq] at hback
  exact absurd hback.1 (by decide)

/-! ## Truncating to a larger length -/

/-- A read of `n` bytes returns `l` and then zeros. -/
def ZeroExtended (t : Fs Attached) (path : CStr) (l : List UInt8) (n : Nat) : Prop :=
  ∀ c, reads c t path n 0 = .ok ((n : Int), l ++ List.replicate (n - l.length) 0)

/-- A truncation of `path` from content `l` to length `n` extends the file
with zeros: `fs_resolve_path` finds the path, the file has blocks for `n`
bytes, and these hold zeros behind `l`. -/
structure ExtensionReady (s : Fs Attached) (i : Fin maxInodes) (path : CStr) (l : List UInt8)
    (n : Nat) : Prop where
  found : (strtok path).length ≠ maxDirDepth + 2
  attached : n ≤ attachedCount s i * blockSize
  zero : ∀ x, l.length ≤ x → x < n → blockByte s i x = 0

theorem getElem?_blockBytes {x : Nat} (hx : x < attachedCount s i * blockSize) :
    (blockBytes s i)[x]? = some (blockByte s i x) := by
  rw [blockBytes, List.getElem?_map, List.getElem?_range hx, Option.map_some]

/-- Zeros after a prefix, byte by byte. -/
theorem take_blockBytes_iff {size n : Nat} {l : List UInt8} (hl : l = (blockBytes s i).take size)
    (hn : l.length < n) :
    (blockBytes s i).take n = l ++ List.replicate (n - l.length) 0 ↔
      n ≤ attachedCount s i * blockSize ∧
        ∀ x, l.length ≤ x → x < n → blockByte s i x = 0 := by
  have hlen := length_blockBytes s i
  constructor
  · intro heq
    have hle := congrArg List.length heq
    rw [List.length_take, List.length_append, List.length_replicate] at hle
    refine ⟨by omega, fun x hx hxn => ?_⟩
    have hget := congrArg (fun l : List UInt8 => l[x]?) heq
    simp only [List.getElem?_take_of_lt hxn] at hget
    rw [getElem?_blockBytes (by omega), List.getElem?_append_right hx,
      List.getElem?_replicate_of_lt (by omega)] at hget
    simpa using hget
  · rintro ⟨hle, hzero⟩
    have hpre : l = (blockBytes s i).take l.length := by
      rw [hl, List.length_take, List.take_eq_take_iff]
      omega
    refine List.ext_getElem? (fun x => ?_)
    by_cases hxn : x < n
    · rw [List.getElem?_take_of_lt hxn]
      by_cases hx : x < l.length
      · rw [List.getElem?_append_left hx]
        conv_rhs => rw [hpre]
        rw [List.getElem?_take_of_lt hx]
      · rw [List.getElem?_append_right (by omega), List.getElem?_replicate_of_lt (by omega),
          getElem?_blockBytes (by omega), hzero x (by omega) hxn]
    · rw [List.getElem?_eq_none (by rw [List.length_take]; omega),
        List.getElem?_eq_none (by rw [List.length_append, List.length_replicate]; omega)]

/-- A length other than 0 is only a new size. -/
theorem visible_truncated {n : Nat} (hn : n ≠ 0) (hmax : n ≤ numDirectBlocks * blockSize) :
    visible (truncated s i n) i = (blockBytes s i).take n := by
  have hsize : ((truncated s i n).inodes i).fileSizeBytes = n := by
    have hu : u32 (toSize n) = n := by
      simp only [numDirectBlocks, blockSize] at hmax
      simp only [u32, toSize]
      omega
    simp [truncated, hn, Fs.modifyInode, hu]
  have hslot : slot (truncated s i n) i = slot s i := by
    funext k
    simp [slot, truncated, hn, Fs.modifyInode, inodeGetDirectBlock]
  have hdata : (truncated s i n).data = s.data := by simp [truncated, hn, Fs.modifyInode]
  unfold visible blockBytes attachedCount blockByte
  rw [hsize, hslot, hdata]

/-- For every file of a reachable state, with the content that a read of
its size returns, and every length from there up to the largest: after
`fisopfs_truncate` a read of that length returns the content and then
zeros if and only if the length is that of the content or the extension
was ready. -/
theorem truncate_extends_iff {u : User} {P : Fs Attached → Op → Fs Attached → Prop}
    {s : Fs Attached} (h : Reachable u P s) {path : CStr} {i : Fin maxInodes}
    (hat : FileAt s path i) (hty : (s.inodes i).inodeType = .file) {c : Ctx} {k : Int}
    {l : List UInt8} (hl : reads c s path (s.inodes i).fileSizeBytes 0 = .ok (k, l)) {n : Nat}
    (hlo : l.length ≤ n) (hhi : n ≤ numDirectBlocks * blockSize) (c' : Ctx) :
    ∃ r t, step c' s (.truncate path n) = .ok (r, t) ∧
      (ZeroExtended t path l n ↔ n = l.length ∨ ExtensionReady s i path l n) := by
  have hs := h.sound
  have hshape := h.shaped
  have hvis : l = visible s i := by
    rw [show (0 : Int) = ((0 : Nat) : Int) from rfl, hshape.reads hs hat, Except.ok.injEq,
      Prod.mk.injEq, List.drop_zero] at hl
    rw [← hl.2, List.take_of_length_le]
    rw [length_visible]
    exact Nat.min_le_left _ _
  have hreads : ∀ (t : Fs Attached) (l' : List UInt8), (∀ c, reads c t path n ((0 : Nat) : Int)
      = .ok ((((l'.drop 0).take n).length : Int), (l'.drop 0).take n)) →
      (ZeroExtended t path l n ↔ l'.take n = l ++ List.replicate (n - l.length) 0) := by
    intro t l' ht
    unfold ZeroExtended
    rw [show (0 : Int) = ((0 : Nat) : Int) from rfl]
    simp only [ht, List.drop_zero, Except.ok.injEq, Prod.mk.injEq]
    constructor
    · intro heq
      exact (heq c).2
    · intro heq _
      refine ⟨?_, heq⟩
      rw [heq, List.length_append, List.length_replicate]
      omega
  obtain ⟨d, name, htarget⟩ := hat
  have hat : FileAt s path i := ⟨d, name, htarget⟩
  by_cases hdeep : (strtok path).length = maxDirDepth + 2
  · -- the path is one component too deep for `fs_resolve_path`, and nothing happens
    obtain ⟨s', hres, hsame⟩ := fsResolvePath_eq c' hs.dirs path
    have hno : ∃ e, resolve s path = .error e := by
      cases hr : resolve s path with
      | error e => exact ⟨e, rfl⟩
      | ok j =>
          obtain ⟨-, -, hdepth, -⟩ := resolve_ok.mp hr
          omega
    obtain ⟨e, he⟩ := hno
    rw [he] at hres
    refine ⟨-enoent, s', by simp [step, fisopfsTruncate, hres], ?_⟩
    rw [hreads s' l (fun c => ?_), List.take_of_length_le hlo]
    · constructor
      · intro heq
        have hlen := congrArg List.length heq
        rw [List.length_append, List.length_replicate] at hlen
        exact Or.inl (by omega)
      · rintro (heq | hready)
        · rw [heq, Nat.sub_self, List.replicate_zero, List.append_nil]
        · exact absurd hdeep hready.found
    · rw [hvis, hsame.symm.apply (fun s => visible s i) (fun _ => rfl)]
      exact (hshape.same hsame.symm).reads (hs.same hsame.symm) (hat.same hsame.symm) c n 0
  · obtain ⟨s', t, hss, htt, hok⟩ :=
      fisopfsTruncate_ok c' hs ((resolve_of_target htarget).mpr hdeep) n
    have hs' := hs.same hss
    have hty' : (s'.inodes i).inodeType ≠ .dir := by
      rw [← hss.apply (fun s => (s.inodes i).inodeType) (fun _ => rfl), hty]
      decide
    have hstep : step c' s (.truncate path n) = .ok (0, t) := hok
    have hsound : Sound t := step_sound hs hstep
    have hshapet := ((hshape.same hss).truncated hs' i n).same htt.symm
    have hatt := ((hat.same hss).truncated hs' hty' n).same htt.symm
    refine ⟨0, t, hok, ?_⟩
    rw [hreads t _ (fun c => hshapet.reads hsound hatt c n 0)]
    by_cases hn : n = 0
    · have hnil : l = [] := List.eq_nil_of_length_eq_zero (by omega)
      subst hn
      simp [hnil]
    · have hbytes : visible t i = (blockBytes s i).take n := by
        rw [htt.apply (fun s => visible s i) (fun _ => rfl), visible_truncated hn hhi,
          hss.apply (fun s => blockBytes s i) (fun _ => rfl)]
      rw [hbytes, List.take_take, Nat.min_self]
      by_cases heq : n = l.length
      · refine iff_of_true ?_ (Or.inl heq)
        rw [heq, Nat.sub_self, List.replicate_zero, List.append_nil, hvis, length_visible,
          visible, List.take_eq_take_iff, length_blockBytes]
        omega
      · rw [take_blockBytes_iff hvis (by omega), or_iff_right heq]
        exact ⟨fun hroom => ⟨hdeep, hroom.1, hroom.2⟩,
          fun hready => ⟨hready.attached, hready.zero⟩⟩

/-- A new file, truncated to 5 bytes. -/
theorem truncate_extends_iff_new_file :
    ∃ s t : Fs Attached, Reachable ⟨0, 0⟩ (fun _ _ _ => True) s ∧ FileAt s (cstr "/f") 1 ∧
      reads (User.at ⟨0, 0⟩ 0) s (cstr "/f") 0 0 = .ok (0, []) ∧
      step (User.at ⟨0, 0⟩ 0) s (.truncate (cstr "/f") 5) = .ok (0, t) ∧
      ZeroExtended t (cstr "/f") [] 5 := by
  set c := User.at ⟨0, 0⟩ 0 with hc
  have hrun : returns (step c (fsInit c) (.createFile (cstr "/f") 6)) 0 (fun s =>
      decide (target s (cstr "/f") = some (0, cstr "f", 1) ∧ (s.inodes 1).inodeType = .file ∧
        (s.inodes 1).fileSizeBytes = 0 ∧ attachedCount s 1 = 1 ∧
        ∀ x ∈ List.range 5, blockByte s 1 x = 0) &&
      (returns (fsReadFile c s (cstr "/f") 0 0) (0, []) (fun _ => true) &&
        returns (step c s (.truncate (cstr "/f") 5)) 0 (fun _ => true))) = true := by
    decide +kernel
  obtain ⟨s, hcreate, hrun⟩ := returns_true hrun
  rw [Bool.and_eq_true, Bool.and_eq_true, decide_eq_true_eq] at hrun
  obtain ⟨⟨htarget, htype, hsize, hcount, hzero⟩, hread, htrunc⟩ := hrun
  have hreads := reads_of_returns hread
  obtain ⟨t, hstep, -⟩ := returns_true htrunc
  have hreach : Reachable ⟨0, 0⟩ (fun _ _ _ => True) s := ⟨0, .single ⟨0, _, _, hcreate, trivial⟩⟩
  have hready : ExtensionReady s 1 (cstr "/f") [] 5 := by
    refine ⟨by decide, ?_, fun x _ hx => hzero x (List.mem_range.mpr hx)⟩
    rw [hcount]
    decide
  obtain ⟨r, t', hstep', hiff⟩ := truncate_extends_iff (n := 5) hreach ⟨_, _, htarget⟩ htype
    (by rw [hsize]; exact hreads) (by decide) (by decide) c
  rw [show ((5 : Nat) : Int) = 5 from rfl, hstep, Except.ok.injEq, Prod.mk.injEq] at hstep'
  obtain ⟨-, rfl⟩ := hstep'
  exact ⟨s, t, hreach, ⟨_, _, htarget⟩, hreads, hstep, hiff.mpr (Or.inr hready)⟩

/-- Three bytes, truncated to one and back to three: the old bytes are
there again. -/
theorem truncated_bytes_return :
    ∃ s t : Fs Attached, Reachable ⟨0, 0⟩ (fun _ _ _ => True) s ∧ FileAt s (cstr "/f") 1 ∧
      (s.inodes 1).inodeType = .file ∧
      reads (User.at ⟨0, 0⟩ 0) s (cstr "/f") (s.inodes 1).fileSizeBytes 0 = .ok (1, [7]) ∧
      step (User.at ⟨0, 0⟩ 0) s (.truncate (cstr "/f") 3) = .ok (0, t) ∧
      reads (User.at ⟨0, 0⟩ 0) t (cstr "/f") 3 0 = .ok (3, [7, 8, 9]) ∧
      ¬ ZeroExtended t (cstr "/f") [7] 3 := by
  set c := User.at ⟨0, 0⟩ 0 with hc
  obtain ⟨s, hs, hv⟩ := runOps_eval c (fsInit c)
    [.createFile (cstr "/f") 6, .writeFile (cstr "/f") [7, 8, 9] 0 false, .truncate (cstr "/f") 1]
    (fun s : Fs Attached =>
      decide (target s (cstr "/f") = some (0, cstr "f", 1) ∧ (s.inodes 1).inodeType = .file) &&
      (returns (fsReadFile c s (cstr "/f") (s.inodes 1).fileSizeBytes 0) (1, [7])
          (fun _ => true) &&
        returns (step c s (.truncate (cstr "/f") 3)) 0 (fun t =>
          returns (fsReadFile c t (cstr "/f") 3 0) (3, [7, 8, 9]) (fun _ => true)))) true
    (by decide +kernel)
  rw [Bool.and_eq_true, Bool.and_eq_true, decide_eq_true_eq] at hv
  obtain ⟨⟨htarget, htype⟩, hread, htrunc⟩ := hv
  obtain ⟨t, hstep, hread'⟩ := returns_true htrunc
  have hreads := reads_of_returns hread'
  refine ⟨s, t, ⟨0, runOps_reaches (fun _ _ _ _ => trivial) hs⟩, ⟨_, _, htarget⟩, htype,
    reads_of_returns hread, hstep, hreads, fun hext => ?_⟩
  have hzero := hext c
  rw [hreads, Except.ok.injEq, Prod.mk.injEq] at hzero
  exact absurd hzero.2 (by decide)

end SistemasOperativos.FileSystem
