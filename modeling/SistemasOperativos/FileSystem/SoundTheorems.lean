/-
SistemasOperativos.FileSystem.SoundTheorems — `Sound` holds in every state
of every run.

There is no condition on the runs here: any operation, any path (with
`.` and `..`), any argument. `Effect.sound` is one case per effect; the
cases share one lemma per way a state is built (`installed`, `reset`,
`freed`, …). The loop of `fs_write_file` gets a rule of its own,
`writeLoop_invariant`, which is the only induction over it that the
invariants need.
-/
import SistemasOperativos.FileSystem.OperationTheorems

namespace SistemasOperativos.FileSystem

/-! ## Slots after an update of one inode -/

theorem slot_update {s t : Fs Attached} {i : Fin maxInodes} {n : Inode}
    (h : t.inodes = Function.update s.inodes i n) (j : Fin maxInodes) (k : Nat) :
    slot t j k = if j = i then inodeGetDirectBlock n k else slot s j k := by
  unfold slot
  rw [h]
  by_cases hj : j = i
  · subst hj; simp
  · simp [hj]

theorem type_update {s t : Fs Attached} {i : Fin maxInodes} {n : Inode}
    (h : t.inodes = Function.update s.inodes i n) (j : Fin maxInodes) :
    (t.inodes j).inodeType = if j = i then n.inodeType else (s.inodes j).inodeType := by
  rw [h]
  by_cases hj : j = i
  · subst hj; simp
  · simp [hj]

/-! ## The counters -/

theorem u32Dec_lt {n : Nat} (h : n < 4294967296) : u32Dec n < 4294967296 := by
  rw [u32Dec]
  split <;> omega

theorem u32Inc_lt (n : Nat) : u32Inc n < 4294967296 := by
  rw [u32Inc]
  exact u32_lt _

theorem iterate_u32Inc_lt {n : Nat} (h : n < 4294967296) (m : Nat) :
    u32Inc^[m] n < 4294967296 := by
  cases m with
  | zero => exact h
  | succ m => rw [Function.iterate_succ_apply']; exact u32Inc_lt _

/-! ## The ways a state is built -/

/-- A store into inode `i` that keeps its type and its slots. -/
theorem Sound.modifyInode {s : Fs Attached} (hs : Sound s) (i : Fin maxInodes)
    {f : Inode → Inode} (hty : (f (s.inodes i)).inodeType = (s.inodes i).inodeType)
    (hptr : (f (s.inodes i)).directBlockPtrs = (s.inodes i).directBlockPtrs) :
    Sound (s.modifyInode i f) := by
  have hslot : ∀ j k, slot (s.modifyInode i f) j k = slot s j k := by
    intro j k
    rw [slot_update (s := s) rfl]
    split
    · rename_i hj
      subst hj
      simp only [slot, inodeGetDirectBlock, hptr]
    · rfl
  have htype : ∀ j, ((s.modifyInode i f).inodes j).inodeType = (s.inodes j).inodeType := by
    intro j
    rw [type_update (s := s) rfl]
    split
    · rename_i hj
      rw [hj, hty]
    · rfl
  exact
    { dirs := fun j hj => hs.dirs j (by rw [← htype j]; exact hj)
      dirUsed := fun j hj => hs.dirUsed j (by rw [← htype j]; exact hj)
      slotUsed := fun j k b hb => hs.slotUsed j k b (by rw [← hslot]; exact hb)
      slotInj := fun j k j' k' b hb hb' =>
        hs.slotInj j k j' k' b (by rw [← hslot]; exact hb) (by rw [← hslot]; exact hb')
      counters := ⟨hs.counters.inodes, hs.counters.blocks⟩
      root := hs.root
      blockSize := hs.blockSize
      maxFileSize := hs.maxFileSize }

/-- New directories or bytes, with everything else as it was. -/
theorem Sound.withData {s : Fs Attached} (hs : Sound s) {data : Attached}
    (hd : DirsOk { s with data := data }) : Sound { s with data := data } where
  dirs := hd
  dirUsed := hs.dirUsed
  slotUsed := hs.slotUsed
  slotInj := hs.slotInj
  counters := ⟨hs.counters.inodes, hs.counters.blocks⟩
  root := hs.root
  blockSize := hs.blockSize
  maxFileSize := hs.maxFileSize

/-- A free block is in no slot. -/
theorem Sound.slot_ne_free {s : Fs Attached} (hs : Sound s) {b : Nat}
    (hb : s.intmap.blocks b = false) (i : Fin maxInodes) (k : Nat) : slot s i k ≠ some b := by
  intro h
  rw [(hs.slotUsed i k b h).2] at hb
  cases hb

theorem Sound.installed {s : Fs Attached} (hs : Sound s) {i : Fin maxInodes} {n : Inode} {b : Nat}
    {data : Attached} (hf : Fresh s i b) (hn : n.directBlockPtrs = onePtr b)
    (hd : DirsOk (installed s i n b data)) : Sound (installed s i n b data) := by
  obtain ⟨hlt, hfree⟩ := findFreeBlock_some hf.block
  have hslot : ∀ j k x, slot (FileSystem.installed s i n b data) j k = some x →
      (j = i ∧ k = 0 ∧ x = b) ∨ (j ≠ i ∧ slot s j k = some x) := by
    intro j k x hx
    rw [slot_update (s := s) rfl] at hx
    split at hx
    · rename_i hj
      rw [getDirectBlock_eq_some, hn, onePtr_eq_some] at hx
      exact Or.inl ⟨hj, hx.2⟩
    · rename_i hj
      exact Or.inr ⟨hj, hx⟩
  refine ⟨hd, ?_, ?_, ?_, ⟨u32Dec_lt hs.counters.inodes, u32Dec_lt hs.counters.blocks⟩,
    hs.root, hs.blockSize, hs.maxFileSize⟩
  · intro j hj
    by_cases hji : j = i
    · subst hji; simp [FileSystem.installed]
    · rw [type_update (s := s) rfl, if_neg hji] at hj
      simpa [FileSystem.installed, hji] using hs.dirUsed j hj
  · intro j k x hx
    by_cases hxb : x = b
    · subst hxb; simpa [FileSystem.installed] using hlt
    · rcases hslot j k x hx with ⟨-, -, h⟩ | ⟨-, h⟩
      · exact absurd h hxb
      · simpa [FileSystem.installed, hxb] using hs.slotUsed j k x h
  · intro j k j' k' x hx hx'
    rcases hslot j k x hx with ⟨rfl, rfl, rfl⟩ | ⟨-, h⟩
    · rcases hslot j' k' x hx' with ⟨rfl, rfl, -⟩ | ⟨-, h'⟩
      · exact ⟨rfl, rfl⟩
      · exact absurd h' (hs.slot_ne_free hfree j' k')
    · rcases hslot j' k' x hx' with ⟨-, -, rfl⟩ | ⟨-, h'⟩
      · exact absurd h (hs.slot_ne_free hfree j k)
      · exact hs.slotInj j k j' k' x h h'

/-- What `reset`, `freed`, `released` and the release loop have in common:
inode `i` loses its slots, and only bits of blocks it held are cleared. -/
theorem Sound.cleared {s t : Fs Attached} (hs : Sound s) {i : Fin maxInodes} {n : Inode}
    (hin : t.inodes = Function.update s.inodes i n)
    (hn : ∀ k, inodeGetDirectBlock n k = none)
    (hmap : ∀ b, t.intmap.blocks b = false → s.intmap.blocks b = false ∨ holds (s.inodes i) b)
    (hdirs : DirsOk t)
    (hdirUsed : ∀ j, (t.inodes j).inodeType = .dir → t.intmap.inodes j = true)
    (hc : CountersOk t) (hroot : t.superblock.rootInodeNumber = s.superblock.rootInodeNumber)
    (hbs : t.superblock.blockSizeBytes = s.superblock.blockSizeBytes)
    (hmf : t.superblock.maxFileSizeBytes = s.superblock.maxFileSizeBytes) : Sound t := by
  have hslot : ∀ j k x, slot t j k = some x → j ≠ i ∧ slot s j k = some x := by
    intro j k x hx
    rw [slot_update hin] at hx
    split at hx
    · rw [hn] at hx; cases hx
    · rename_i hj; exact ⟨hj, hx⟩
  refine ⟨hdirs, hdirUsed, ?_, ?_, hc, hroot.trans hs.root, hbs.trans hs.blockSize,
    hmf.trans hs.maxFileSize⟩
  · intro j k x hx
    obtain ⟨hj, hx⟩ := hslot j k x hx
    obtain ⟨hlt, hused⟩ := hs.slotUsed j k x hx
    refine ⟨hlt, ?_⟩
    by_contra hfree
    rcases hmap x (by simpa using hfree) with h | h
    · rw [hused] at h; cases h
    · obtain ⟨l, hl⟩ := holds_iff.mp h
      exact hj (hs.slotInj j k i l x hx hl).1
  · intro j k j' k' x hx hx'
    exact hs.slotInj j k j' k' x (hslot j k x hx).2 (hslot j' k' x hx').2

theorem Sound.reset {s : Fs Attached} (hs : Sound s) (c : Ctx) {i : Fin maxInodes}
    {data : Attached}
    (hdirs : ∀ j ≠ i, data.dirs j = s.data.dirs j) : Sound (reset c s i data) := by
  have hty : ∀ j, ((FileSystem.reset c s i data).inodes j).inodeType = .dir →
      j ≠ i ∧ (s.inodes j).inodeType = .dir := by
    intro j hj
    rw [type_update (s := s) rfl] at hj
    split at hj
    · cases hj
    · rename_i hji; exact ⟨hji, hj⟩
  refine hs.cleared rfl (getDirectBlock_inodeInit c) (fun b hb => Or.inl hb) ?_ ?_
    ⟨hs.counters.inodes, hs.counters.blocks⟩ rfl rfl rfl
  · intro j hj
    obtain ⟨hji, hj⟩ := hty j hj
    show DirOk (data.dirs j)
    rw [hdirs j hji]
    exact hs.dirs j hj
  · intro j hj
    exact hs.dirUsed j (hty j hj).2

theorem mapWithout_false {bm : Intmap} {n : Inode} {b : Nat}
    (h : (mapWithout bm n numDirectBlocks).blocks b = false) :
    bm.blocks b = false ∨ holds n b := by
  simp only [mapWithout, Bool.and_eq_false_iff, Bool.not_eq_false'] at h
  exact h

/-- An inode given back: both `fs_delete_file` and `fs_remove_directory`. -/
theorem Sound.givenBack {s t : Fs Attached} (hs : Sound s) {c : Ctx} {i : Fin maxInodes}
    (hin : t.inodes = Function.update s.inodes i (inodeInit c))
    (hmap : t.intmap = clearInodeUsed (mapWithout s.intmap (s.inodes i) numDirectBlocks) i)
    (hdirs : ∀ j ≠ i, (s.inodes j).inodeType = .dir → DirOk (t.data.dirs j))
    (hc : CountersOk t) (hroot : t.superblock.rootInodeNumber = s.superblock.rootInodeNumber)
    (hbs : t.superblock.blockSizeBytes = s.superblock.blockSizeBytes)
    (hmf : t.superblock.maxFileSizeBytes = s.superblock.maxFileSizeBytes) : Sound t := by
  have hty : ∀ j, (t.inodes j).inodeType = .dir → j ≠ i ∧ (s.inodes j).inodeType = .dir := by
    intro j hj
    rw [type_update hin] at hj
    split at hj
    · cases hj
    · rename_i hji; exact ⟨hji, hj⟩
  refine hs.cleared hin (getDirectBlock_inodeInit c) ?_ ?_ ?_ hc hroot hbs hmf
  · intro b hb
    rw [hmap] at hb
    exact mapWithout_false hb
  · intro j hj
    exact hdirs j (hty j hj).1 (hty j hj).2
  · intro j hj
    rw [hmap]
    simpa [clearInodeUsed, mapWithout, (hty j hj).1] using hs.dirUsed j (hty j hj).2

theorem Sound.releaseBlocks {s : Fs Attached} (hs : Sound s) (i : Fin maxInodes) :
    Sound (releaseBlocks i s) := by
  rw [releaseBlocks_eq s i (hs.slotsBelow i)]
  have hty : ∀ j, (Function.update s.inodes i (clearedTo (s.inodes i) numDirectBlocks) j).inodeType
      = (s.inodes j).inodeType := by
    intro j
    by_cases hj : j = i
    · subst hj; simp [clearedTo]
    · simp [hj]
  exact hs.cleared rfl (getDirectBlock_clearedTo _) (fun b hb => mapWithout_false hb)
    (fun j hj => hs.dirs j ((hty j).symm.trans hj))
    (fun j hj => hs.dirUsed j ((hty j).symm.trans hj))
    ⟨hs.counters.inodes, iterate_u32Inc_lt hs.counters.blocks _⟩ rfl rfl rfl

theorem Sound.putBlock {s : Fs Attached} (hs : Sound s) {i : Fin maxInodes} {k b : Nat}
    (hk : (s.inodes i).directBlockPtrs k = none) (hb : findFreeBlock s.intmap = some b) :
    Sound (decFreeBlocks (putBlock s i k b)) := by
  obtain ⟨hlt, hfree⟩ := findFreeBlock_some hb
  set n : Inode :=
    { s.inodes i with
      directBlockPtrs := Function.update (s.inodes i).directBlockPtrs k (some b) } with hn
  have hin : (decFreeBlocks (FileSystem.putBlock s i k b)).inodes
      = Function.update s.inodes i n := rfl
  have hty : ∀ j, ((decFreeBlocks (FileSystem.putBlock s i k b)).inodes j).inodeType
      = (s.inodes j).inodeType := by
    intro j
    rw [type_update hin]
    split
    · rename_i hj; rw [hj]
    · rfl
  have hslot : ∀ j l x, slot (decFreeBlocks (FileSystem.putBlock s i k b)) j l = some x →
      (j = i ∧ l = k ∧ x = b) ∨ slot s j l = some x := by
    intro j l x hx
    rw [slot_update hin] at hx
    split at hx
    · rename_i hj
      rw [getDirectBlock_eq_some] at hx
      by_cases hl : l = k
      · subst hl
        have hxb : b = x := by simpa [hn] using hx.2
        exact Or.inl ⟨hj, rfl, hxb.symm⟩
      · right
        rw [hj, slot, getDirectBlock_eq_some]
        exact ⟨hx.1, by simpa [hn, hl] using hx.2⟩
    · exact Or.inr hx
  refine ⟨fun j hj => hs.dirs j ((hty j).symm.trans hj),
    fun j hj => hs.dirUsed j ((hty j).symm.trans hj), ?_, ?_,
    ⟨hs.counters.inodes, u32Dec_lt hs.counters.blocks⟩, hs.root, hs.blockSize, hs.maxFileSize⟩
  · intro j l x hx
    by_cases hxb : x = b
    · subst hxb; simpa [decFreeBlocks, FileSystem.putBlock] using hlt
    · rcases hslot j l x hx with ⟨-, -, h⟩ | h
      · exact absurd h hxb
      · simpa [decFreeBlocks, FileSystem.putBlock, hxb] using hs.slotUsed j l x h
  · intro j l j' l' x hx hx'
    rcases hslot j l x hx with ⟨rfl, rfl, rfl⟩ | h
    · rcases hslot j' l' x hx' with ⟨rfl, rfl, -⟩ | h'
      · exact ⟨rfl, rfl⟩
      · exact absurd h' (hs.slot_ne_free hfree j' l')
    · rcases hslot j' l' x hx' with ⟨-, -, rfl⟩ | h'
      · exact absurd h (hs.slot_ne_free hfree j l)
      · exact hs.slotInj j l j' l' x h h'

/-! ## The loop of `fs_write_file` -/

/-- A copy that fits in block `b` changes no other block. -/
theorem store_within_block (m : Memory) {b off : Nat} {chunk : List UInt8}
    (h : off + chunk.length ≤ blockSize) {a : Nat} (ha : a / blockSize ≠ b) :
    store m (blockAddr b off) chunk a = m a := by
  have : ¬ (blockAddr b off ≤ a ∧ a < blockAddr b off + chunk.length) := by
    simp only [blockAddr, blockSize] at *
    omega
  simp only [store, this, if_false]

/-- What `blockForWrite` hands to the loop: the state as it was, with the
block of slot `k`, or the state with a fresh block in the empty slot `k`. -/
theorem blockForWrite_some {s t : Fs Attached} {i : Fin maxInodes} {idx b : Nat}
    (h : blockForWrite s i idx = some (b, t)) :
    (slot s i idx = some b ∧ t = s) ∨
      ∃ k < numDirectBlocks, slot s i idx = none ∧ (s.inodes i).directBlockPtrs k = none ∧
        (∀ j < k, (s.inodes i).directBlockPtrs j ≠ none) ∧
        findFreeBlock s.intmap = some b ∧ t = decFreeBlocks (putBlock s i k b) := by
  unfold blockForWrite at h
  cases hslot : inodeGetDirectBlock (s.inodes i) idx with
  | some b' =>
      simp only [hslot, Option.some.injEq, Prod.mk.injEq] at h
      obtain ⟨rfl, rfl⟩ := h
      exact Or.inl ⟨hslot, rfl⟩
  | none =>
      simp only [hslot] at h
      cases hfree : findFreeBlock s.intmap with
      | none => simp [hfree] at h
      | some b' =>
          simp only [hfree, Option.map_eq_some_iff, Prod.mk.injEq] at h
          obtain ⟨t', hadd, rfl, rfl⟩ := h
          obtain ⟨k, hk, hempty, hlow, rfl⟩ := addDirectBlock_some hadd
          exact Or.inr ⟨k, hk, hslot, hempty, hlow, rfl, rfl⟩

theorem slot_putBlock_self {s : Fs Attached} {i : Fin maxInodes} {k b : Nat}
    (hk : k < numDirectBlocks) : slot (decFreeBlocks (putBlock s i k b)) i k = some b := by
  rw [slot, getDirectBlock_of_lt _ hk]
  simp [decFreeBlocks, putBlock, setPtr, Fs.modifyInode]

/-- The loop rule: what survives a fresh block and a copy into a block of
the inode survives the loop. -/
theorem writeLoop_invariant {P : Fs Attached → Prop} (i : Fin maxInodes) (buffer : List UInt8)
    (hsize : ∀ {s}, P s → s.superblock.blockSizeBytes = blockSize)
    (hput : ∀ {s k b}, P s → k < numDirectBlocks → (s.inodes i).directBlockPtrs k = none →
      (∀ j < k, (s.inodes i).directBlockPtrs j ≠ none) → findFreeBlock s.intmap = some b →
      P (decFreeBlocks (putBlock s i k b)))
    (hstore : ∀ {s k b m}, P s → slot s i k = some b →
      (∀ a, a / blockSize ≠ b → m a = s.data.bytes a) → P (s.setBytes m))
    (fuel : Nat) {s : Fs Attached} (hs : P s) (bytesWritten pos : Nat) :
    P (writeLoop i buffer fuel s bytesWritten pos).1 := by
  induction fuel generalizing s bytesWritten pos with
  | zero => exact hs
  | succ fuel ih =>
      rw [writeLoop]
      split
      · dsimp only
        split
        · exact hs
        · cases hb : blockForWrite s i (pos / s.superblock.blockSizeBytes) with
          | none => exact hs
          | some r =>
              obtain ⟨b, t⟩ := r
              have ht : P t ∧ ∃ k, slot t i k = some b := by
                rcases blockForWrite_some hb with
                  ⟨hslot, rfl⟩ | ⟨k, hk, -, hempty, hlow, hfree, rfl⟩
                · exact ⟨hs, _, hslot⟩
                · exact ⟨hput hs hk hempty hlow hfree, k, slot_putBlock_self hk⟩
              obtain ⟨hpt, k, hslot⟩ := ht
              apply ih
              refine hstore hpt hslot (fun a ha => store_within_block _ ?_ ha)
              rw [hsize hpt, hsize hs]
              have : pos % blockSize < blockSize := Nat.mod_lt _ (by decide)
              rw [List.length_take]
              split <;> omega
      · exact hs

theorem Sound.setBytes {s : Fs Attached} (hs : Sound s) (m : Memory) : Sound (s.setBytes m) :=
  hs.withData hs.dirs

theorem Sound.written {s : Fs Attached} (hs : Sound s) (i : Fin maxInodes)
    (buffer : List UInt8) (pos : Nat) : Sound (written s i buffer pos) := by
  have hloop : Sound (writeLoop i buffer loopFuel s 0 pos).1 :=
    writeLoop_invariant i buffer (fun h => h.blockSize) (fun h _ hk _ hb => h.putBlock hk hb)
      (fun h _ _ => h.setBytes _) _ hs _ _
  refine hloop.modifyInode i ?_ ?_
  · unfold grow; split <;> rfl
  · unfold grow; split <;> rfl

theorem Sound.truncated {s : Fs Attached} (hs : Sound s) (i : Fin maxInodes) (size : Int) :
    Sound (truncated s i size) := by
  unfold FileSystem.truncated
  split
  · exact (hs.releaseBlocks _).modifyInode _ rfl rfl
  · exact hs.modifyInode _ rfl rfl

/-! ## Paths and `.` -/

/-- Whatever has an entry with a path starts at a directory. -/
theorem root_isDir_of_target {s : Fs Attached} {path name : CStr} {d i : Fin maxInodes}
    (h : target s path = some (d, name, i)) :
    (s.inodes s.superblock.rootInodeNumber).inodeType = .dir := by
  obtain ⟨hp, hc⟩ := target_some.mp h
  obtain ⟨ts, -, hw, -⟩ := resolveParent_ok hp
  cases ts with
  | nil =>
      rw [walk, Option.some.injEq] at hw
      rw [hw]
      exact child_isDir hc
  | cons t ts =>
      rw [walk] at hw
      cases hcr : child s s.superblock.rootInodeNumber t with
      | none => simp [hcr] at hw
      | some j => exact child_isDir hcr

/-- A lookup of `.` or `..` gives inode 0. -/
theorem child_not_real {s : Fs Attached} (hs : DirsOk s) {d i : Fin maxInodes} {name : CStr}
    (hc : child s d name = some i) (hn : realName name = false) : i = 0 := by
  obtain ⟨-, e, he, hi⟩ := child_some hc
  have h0 := Directory.entryNamed_not_real (hs d (child_isDir hc)) hn he
  rw [h0] at hi
  exact Fin.ext hi.symm

/-- In an empty root only `.` and `..` are found, and they lead back. -/
theorem walk_of_empty_root {s : Fs Attached} (hs : DirsOk s) (hempty : (s.data.dirs 0).length ≤ 2)
    (ts : List CStr) {d : Fin maxInodes} (h : walk s 0 ts = some d) : d = 0 := by
  induction ts with
  | nil => rw [walk, Option.some.injEq] at h; exact h.symm
  | cons t ts ih =>
      rw [walk] at h
      cases hc : child s 0 t with
      | none => simp [hc] at h
      | some j =>
          have hj : j = 0 := by
            by_cases hn : realName t = true
            · obtain ⟨-, e, he, -⟩ := child_some hc
              obtain ⟨hmem, rfl⟩ := Directory.entryNamed_some he
              have : e ∈ (s.data.dirs 0).real := List.mem_filter.mpr ⟨hmem, hn⟩
              have := Directory.two_lt_length (hs 0 (child_isDir hc)) this
              omega
            · exact child_not_real hs hc (by simpa using hn)
          subst hj
          simp only [hc] at h
          exact ih h

/-- A file is never removed under the name `.` or `..`. -/
theorem realName_of_target_file {s : Fs Attached} (hs : Sound s) {path name : CStr}
    {d i : Fin maxInodes} (ht : target s path = some (d, name, i))
    (hty : (s.inodes i).inodeType ≠ .dir) : realName name = true := by
  by_contra hn
  have hi := child_not_real hs.dirs (target_some.mp ht).2 (by simpa using hn)
  have hroot := root_isDir_of_target ht
  rw [hs.root, ← hi] at hroot
  exact hty hroot

/-- A directory removed under `.` or `..` is the empty root, found in
itself. -/
theorem removed_dot {s : Fs Attached} (hs : Sound s) {path name : CStr} {d i : Fin maxInodes}
    (ht : target s path = some (d, name, i)) (hempty : (s.data.dirs i).length ≤ 2) :
    realName name = true ∨ (d = i ∧ i = 0) := by
  by_cases hn : realName name = true
  · exact Or.inl hn
  · obtain ⟨hp, hc⟩ := target_some.mp ht
    have hi := child_not_real hs.dirs hc (by simpa using hn)
    subst hi
    obtain ⟨ts, -, hw, -⟩ := resolveParent_ok hp
    rw [hs.root] at hw
    exact Or.inr ⟨walk_of_empty_root hs.dirs hempty ts hw, rfl⟩

/-! ## Every effect keeps `Sound` -/

theorem DirsOk.withEntry {s t : Fs Attached} (hs : DirsOk s) {d i : Fin maxInodes} {name : CStr}
    (hadd : CanAdd s d name) {data : Attached}
    (ht : t.data = withEntry data d name i) (hdata : data.dirs d = s.data.dirs d)
    (hrest : ∀ j ≠ d, (t.inodes j).inodeType = .dir → DirOk (data.dirs j)) : DirsOk t := by
  intro j hj
  rw [ht]
  by_cases hjd : j = d
  · subst hjd
    simpa [FileSystem.withEntry, Attached.setDir, hdata] using
      Directory.DirOk.add (hs j hadd.isDir) hadd.free hadd.short i.isLt
  · simpa [FileSystem.withEntry, Attached.setDir, hjd] using hrest j hjd hj

theorem DirsOk.withoutEntry {s : Fs Attached} (hs : DirsOk s) {d : Fin maxInodes} {name : CStr}
    (hn : realName name = true) {j : Fin maxInodes} (hj : (s.inodes j).inodeType = .dir) :
    DirOk ((withoutEntry s.data d name).dirs j) := by
  by_cases hjd : j = d
  · subst hjd
    simpa [FileSystem.withoutEntry, Attached.setDir] using Directory.DirOk.without (hs j hj) hn
  · simpa [FileSystem.withoutEntry, Attached.setDir, hjd] using hs j hj

theorem Effect.sound {c : Ctx} {s t : Fs Attached} {op : Op} {r : Int} (h : Effect c s op r t)
    (hs : Sound s) : Sound t := by
  cases h with
  | unchanged => exact hs
  | rolledBack _ _ hdirs _ => exact hs.reset c hdirs
  | @createFile path mode d i name b hp hadd hf =>
      refine hs.installed hf rfl (hs.dirs.withEntry hadd rfl rfl ?_)
      intro j _ hj
      rw [type_update (s := s) rfl] at hj
      split at hj
      · cases hj
      · exact hs.dirs j hj
  | @createSymlink target linkpath d i name b hp hadd _ hf =>
      refine hs.installed hf rfl (hs.dirs.withEntry hadd rfl rfl ?_)
      intro j _ hj
      rw [type_update (s := s) rfl] at hj
      split at hj
      · cases hj
      · exact hs.dirs j hj
  | @createDirectory path mode filename name d i b hp _ hadd hne hf =>
      refine Sound.modifyInode ?_ d rfl rfl
      refine hs.installed hf rfl (hs.dirs.withEntry hadd rfl ?_ ?_)
      · simp [Attached.setDir, hne]
      · intro j _ hj
        by_cases hji : j = i
        · subst hji
          simpa [Attached.setDir] using Directory.DirOk.initial
        · rw [type_update (s := s) rfl, if_neg hji] at hj
          simpa [Attached.setDir, hji] using hs.dirs j hj
  | @createHardLink source dest src d name hsrc hty hp hadd =>
      refine Sound.modifyInode ?_ src rfl rfl
      exact hs.withData (hs.dirs.withEntry hadd rfl rfl (fun j _ hj => hs.dirs j hj))
  | @unlinked path d i name ht hty hlinks =>
      refine Sound.modifyInode ?_ i rfl rfl
      exact hs.withData (fun j hj =>
        hs.dirs.withoutEntry (realName_of_target_file hs ht hty) hj)
  | @deleted path d i name ht hty hlinks =>
      exact hs.givenBack rfl rfl
        (fun j _ hj => hs.dirs.withoutEntry (realName_of_target_file hs ht hty) hj)
        ⟨u32Inc_lt _, iterate_u32Inc_lt hs.counters.blocks _⟩ rfl rfl rfl
  | @removeDirectory path d i name p ht hr hdir hempty =>
      refine hs.givenBack rfl rfl (fun j hji hj => ?_)
        ⟨u32Inc_lt _, hs.counters.blocks⟩ rfl rfl rfl
      rcases removed_dot hs ht hempty with hn | ⟨rfl, -⟩
      · exact hs.dirs.withoutEntry hn hj
      · simpa [freed, FileSystem.withoutEntry, Attached.setDir, hji] using hs.dirs j hj
  | changeMode => exact hs.modifyInode _ rfl rfl
  | changeOwner => exact hs.modifyInode _ rfl rfl
  | writeFile => exact hs.written _ _ _
  | truncate => exact hs.truncated _ _

/-! ## Runs -/

theorem step_sound {c : Ctx} {s t : Fs Attached} {op : Op} {r : Int} (hs : Sound s)
    (h : step c s op = .ok (r, t)) : Sound t := by
  obtain ⟨s', t', hss, htt, he⟩ := step_effect hs h
  exact (he.sound (hs.same hss)).same htt.symm

theorem slot_fsInit (c : Ctx) {i : Fin maxInodes} {k b : Nat}
    (h : slot (fsInit c : Fs Attached) i k = some b) : i = 0 ∧ k = 0 ∧ b = 0 := by
  rw [slot, getDirectBlock_eq_some] at h
  by_cases hi : i = 0
  · subst hi
    have h2 : onePtr 0 k = some b := h.2
    rw [onePtr_eq_some] at h2
    exact ⟨rfl, h2⟩
  · have : ((fsInit c : Fs Attached).inodes i) = inodeInit c := by simp [fsInit, hi]
    rw [this] at h
    cases h.2

theorem type_fsInit (c : Ctx) {i : Fin maxInodes}
    (h : ((fsInit c : Fs Attached).inodes i).inodeType = .dir) : i = 0 := by
  by_contra hi
  have : ((fsInit c : Fs Attached).inodes i) = inodeInit c := by simp [fsInit, hi]
  rw [this] at h
  cases h

theorem Sound.init (c : Ctx) : Sound (fsInit c) where
  dirs := by
    intro i hi
    obtain rfl := type_fsInit c hi
    exact Directory.DirOk.initial
  dirUsed := by
    intro i hi
    obtain rfl := type_fsInit c hi
    rfl
  slotUsed := by
    intro i k b hb
    obtain ⟨-, -, rfl⟩ := slot_fsInit c hb
    exact ⟨by decide, rfl⟩
  slotInj := by
    intro i k j l b hb hb'
    obtain ⟨rfl, rfl, -⟩ := slot_fsInit c hb
    obtain ⟨rfl, rfl, -⟩ := slot_fsInit c hb'
    exact ⟨rfl, rfl⟩
  counters :=
    ⟨show maxInodes - 1 < 4294967296 by decide, show maxBlocks - 1 < 4294967296 by decide⟩
  root := rfl
  blockSize := rfl
  maxFileSize := rfl

/-- Every state of every run is `Sound`. -/
theorem Reachable.sound {u : User} {P : Fs Attached → Op → Fs Attached → Prop} {t : Fs Attached}
    (h : Reachable u P t) : Sound t :=
  h.invariant (fun now => Sound.init (u.at now)) (fun hs _ hstep => step_sound hs hstep)

end SistemasOperativos.FileSystem
