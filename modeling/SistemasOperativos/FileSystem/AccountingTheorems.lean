/-
SistemasOperativos.FileSystem.AccountingTheorems — `free_blocks_count`
against the block map.

Every operation but one keeps the counter equal to the number of clear
cells of `intmap.blocks`: allocations lower both, the two release loops
raise both, and the roll-backs restore both. `fs_remove_directory` is the
exception. It clears the bits through `inode_free`, which leaves the
counting to its caller, and only raises `free_inodes_count`.
-/
import SistemasOperativos.FileSystem.SoundTheorems
import SistemasOperativos.Lib.Bitmap

namespace SistemasOperativos.FileSystem

/-- The number of blocks whose entry in `intmap.blocks` is 0. -/
def freeBlocks (s : Fs Attached) : Nat := Bitmap.clear (Finset.range maxBlocks) s.intmap.blocks

/-- The counter and the map agree. -/
def BlocksCounted (s : Fs Attached) : Prop := s.superblock.freeBlocksCount = freeBlocks s

theorem BlocksCounted.same {s t : Fs Attached} (h : Same s t) (hs : BlocksCounted s) :
    BlocksCounted t := (h.apply BlocksCounted (fun _ => rfl)).mp hs

theorem freeBlocks_le (s : Fs Attached) : freeBlocks s ≤ maxBlocks :=
  (Bitmap.clear_le _ _).trans_eq (Finset.card_range maxBlocks)

/-! ## Allocation -/

theorem u32Dec_of_succ {n m : Nat} (h : m + 1 = n) : u32Dec n = m := by
  rw [u32Dec, if_neg (by omega)]
  omega

/-- Marking a free block and lowering the counter. -/
theorem BlocksCounted.take {s t : Fs Attached} (hs : BlocksCounted s) {b : Nat}
    (hb : findFreeBlock s.intmap = some b)
    (hmap : t.intmap.blocks = Function.update s.intmap.blocks b true)
    (hcount : t.superblock.freeBlocksCount = u32Dec s.superblock.freeBlocksCount) :
    BlocksCounted t := by
  obtain ⟨hlt, hfree⟩ := findFreeBlock_some hb
  have h := Bitmap.clear_update_true (Finset.mem_range.mpr hlt) hfree
  unfold BlocksCounted freeBlocks at *
  rw [hcount, hmap, hs]
  exact u32Dec_of_succ h

theorem BlocksCounted.written {s : Fs Attached} (hs : Sound s) (h : BlocksCounted s)
    (i : Fin maxInodes) (buffer : List UInt8) (pos : Nat) :
    BlocksCounted (written s i buffer pos) := by
  have hloop : (writeLoop i buffer loopFuel s 0 pos).1.superblock.blockSizeBytes = blockSize ∧
      BlocksCounted (writeLoop i buffer loopFuel s 0 pos).1 :=
    writeLoop_invariant
      (P := fun s => s.superblock.blockSizeBytes = blockSize ∧ BlocksCounted s) i buffer
      (fun h => h.1) (fun h _ _ _ hb => ⟨h.1, h.2.take hb rfl rfl⟩) (fun h _ _ => ⟨h.1, h.2⟩)
      _ ⟨hs.blockSize, h⟩ _ _
  exact hloop.2

/-! ## Release -/

theorem u32Inc_of_lt {n : Nat} (h : n + 1 < 4294967296) : u32Inc n = n + 1 := by
  simp only [u32Inc, u32]
  omega

theorem iterate_u32Inc {n m : Nat} (h : n + m < 4294967296) : u32Inc^[m] n = n + m := by
  induction m with
  | zero => rfl
  | succ m ih =>
      rw [Function.iterate_succ_apply', ih (by omega), u32Inc_of_lt (by omega)]
      omega

/-- The slots of one inode hold as many different blocks as are counted. -/
theorem clear_mapWithout {s : Fs Attached} (hs : Sound s) (i : Fin maxInodes) (m : Nat)
    (hm : m ≤ numDirectBlocks) :
    Bitmap.clear (Finset.range maxBlocks) (mapWithout s.intmap (s.inodes i) m).blocks
      = freeBlocks s + heldCount (s.inodes i) m := by
  induction m with
  | zero => rw [mapWithout_zero, heldCount, Nat.add_zero, freeBlocks]
  | succ m ih =>
      rw [heldCount]
      cases he : (s.inodes i).directBlockPtrs m with
      | none => simpa [mapWithout_succ_of_empty _ _ _ he] using ih (by omega)
      | some b =>
          have hslot : slot s i m = some b := getDirectBlock_eq_some.mpr ⟨by omega, he⟩
          obtain ⟨hlt, hused⟩ := hs.slotUsed i m b hslot
          -- slot `m` is the only one with `b`, so its bit is still set
          have hstill : (mapWithout s.intmap (s.inodes i) m).blocks b = true := by
            have hnot : holdsBelow (s.inodes i) m b = false := by
              rw [Bool.eq_false_iff, Ne, holdsBelow_iff]
              rintro ⟨k, hk, hkb⟩
              have := (hs.slotInj i k i m b
                (getDirectBlock_eq_some.mpr ⟨by omega, hkb⟩) hslot).2
              omega
            simp [mapWithout, hused, hnot]
          have hstep := Bitmap.clear_update_false (Finset.mem_range.mpr hlt) hstill
          rw [← mapWithout_succ _ _ _ he, hstep, ih (by omega)]
          simp only [reduceCtorEq, if_false]
          omega

/-- Clearing the bits of an inode's blocks and raising the counter as often. -/
theorem BlocksCounted.release {s t : Fs Attached} (hs : Sound s) (h : BlocksCounted s)
    (i : Fin maxInodes)
    (hmap : t.intmap.blocks = (mapWithout s.intmap (s.inodes i) numDirectBlocks).blocks)
    (hcount : t.superblock.freeBlocksCount
      = u32Inc^[heldCount (s.inodes i) numDirectBlocks] s.superblock.freeBlocksCount) :
    BlocksCounted t := by
  have hclear := clear_mapWithout hs i numDirectBlocks (Nat.le_refl _)
  have hfree : freeBlocks t = freeBlocks s + heldCount (s.inodes i) numDirectBlocks := by
    rw [← hclear, freeBlocks, hmap]
  have hle := freeBlocks_le t
  unfold BlocksCounted at *
  rw [hcount, h, hfree]
  apply iterate_u32Inc
  simp only [maxBlocks] at hle
  omega

/-! ## `fs_remove_directory` -/

/-- `op` is a `fs_remove_directory` that gets to the removal: its path is
an empty directory that its parent lists under a name. -/
def RemovesDirectory (s : Fs Attached) (op : Op) : Prop :=
  ∃ path d name i p, op = .removeDirectory path ∧ target s path = some (d, name, i) ∧
    resolve s path = .ok i ∧ getDirectoryByInode s i = some p ∧ (s.data.dirs i).length ≤ 2

theorem RemovesDirectory.same {s t : Fs Attached} (h : Same s t) {op : Op}
    (hs : RemovesDirectory s op) : RemovesDirectory t op := by
  obtain ⟨path, d, name, i, p, rfl, ht, hr, hp, hlen⟩ := hs
  refine ⟨path, d, name, i, p, rfl, ?_, ?_, ?_, ?_⟩
  · rw [← target_same h, ht]
  · rw [← resolve_same h, hr]
  · rw [← h.apply (fun s => getDirectoryByInode s i) (fun _ => rfl), hp]
  · rwa [← h.apply (fun s => (s.data.dirs i).length) (fun _ => rfl)]

theorem heldCount_pos {n : Inode} {k b m : Nat} (hk : k < m) (h : n.directBlockPtrs k = some b) :
    0 < heldCount n m := by
  induction m with
  | zero => omega
  | succ m ih =>
      rw [heldCount]
      by_cases hkm : k = m
      · subst hkm; simp [h]
      · have := ih (by omega)
        omega

theorem getDirectoryByInode_slot {s : Fs Attached} {i : Fin maxInodes} {p : DirPtr}
    (h : getDirectoryByInode s i = some p) : ∃ k b, slot s i k = some b := by
  unfold getDirectoryByInode at h
  split at h
  · cases h
  · rw [Option.map_eq_some_iff] at h
    obtain ⟨b, hb, -⟩ := h
    obtain ⟨k, -, hk⟩ := List.exists_of_findSome?_eq_some hb
    exact ⟨k, b, hk⟩

/-- The removal gives back at least one block that it does not count. -/
theorem freed_not_counted (c : Ctx) {s : Fs Attached} (hs : Sound s) (h : BlocksCounted s)
    {i : Fin maxInodes} {p : DirPtr} (hp : getDirectoryByInode s i = some p) (data : Attached) :
    ¬ BlocksCounted (freed c s i data) := by
  intro hc
  obtain ⟨k, b, hk⟩ := getDirectoryByInode_slot hp
  obtain ⟨hlt, hptr⟩ := getDirectBlock_eq_some.mp hk
  have hpos := heldCount_pos hlt hptr
  have hclear := clear_mapWithout hs i numDirectBlocks (Nat.le_refl _)
  have hc' : s.superblock.freeBlocksCount
      = Bitmap.clear (Finset.range maxBlocks)
          (mapWithout s.intmap (s.inodes i) numDirectBlocks).blocks := hc
  unfold BlocksCounted at h
  omega

/-! ## Steps and runs -/

theorem Effect.blocksCounted {c : Ctx} {s t : Fs Attached} {op : Op} {r : Int}
    (he : Effect c s op r t) (hs : Sound s) (h : BlocksCounted s)
    (hop : ¬ RemovesDirectory s op) : BlocksCounted t := by
  cases he with
  | unchanged => exact h
  | rolledBack => exact h
  | createFile _ _ hf => exact h.take hf.block rfl rfl
  | createSymlink _ _ _ hf => exact h.take hf.block rfl rfl
  | createDirectory _ _ _ _ hf => exact h.take hf.block rfl rfl
  | createHardLink => exact h
  | unlinked => exact h
  | deleted => exact h.release hs _ rfl rfl
  | removeDirectory ht hr hdir hempty =>
      exact absurd ⟨_, _, _, _, _, rfl, ht, hr, hdir, hempty⟩ hop
  | changeMode => exact h
  | changeOwner => exact h
  | writeFile => exact h.written hs _ _ _
  | @truncate path size i hr =>
      unfold truncated
      split
      · have hrel : BlocksCounted (releaseBlocks i s) := by
          rw [releaseBlocks_eq s i (hs.slotsBelow i)]
          exact h.release hs i rfl rfl
        exact hrel
      · exact h

theorem step_blocksCounted {c : Ctx} {s t : Fs Attached} {op : Op} {r : Int} (hs : Sound s)
    (h : BlocksCounted s) (hop : ¬ RemovesDirectory s op) (hstep : step c s op = .ok (r, t)) :
    BlocksCounted t := by
  obtain ⟨s', t', hss, htt, he⟩ := step_effect hs hstep
  exact (he.blocksCounted (hs.same hss) (h.same hss) (fun hr => hop (hr.same hss.symm))).same
    htt.symm

/-- The removal is not only possible: the step makes it. -/
theorem step_of_removesDirectory (c : Ctx) {s t : Fs Attached} {op : Op} {r : Int}
    (hs : Sound s) (hop : RemovesDirectory s op) (hstep : step c s op = .ok (r, t)) :
    ∃ s' i p data, Same s s' ∧ getDirectoryByInode s' i = some p ∧
      Same t (freed c s' i data) := by
  obtain ⟨path, d, name, i, p, rfl, ht, hr, hp, hlen⟩ := hop
  obtain ⟨hne, hmax, -, -⟩ := resolve_ok.mp hr
  obtain ⟨hpar, hchild⟩ := target_some.mp ht
  obtain ⟨s1, h1, hsame⟩ := fsResolvePath_eq c hs.dirs path
  obtain ⟨s2, h2, hsame2⟩ := fsResolveParent_eq c (hs.dirs.same hsame.symm) path
  have hs2 : Same s2 s := hsame2.trans hsame
  have hp1 : getDirectoryByInode s1 i = some p :=
    (hsame.apply (fun s => getDirectoryByInode s i) (fun _ => rfl)).trans hp
  have hp2 : getDirectoryByInode s2 i = some p :=
    (hs2.apply (fun s => getDirectoryByInode s i) (fun _ => rfl)).trans hp
  obtain ⟨hty1, hpi⟩ := getDirectoryByInode_some hp1
  obtain ⟨⟨q, hq⟩, -⟩ := child_some hchild
  have hq2 : getDirectoryByInode s2 d = some q :=
    (hs2.apply (fun s => getDirectoryByInode s d) (fun _ => rfl)).trans hq
  have hcount : ¬ entryCount s1.data p > 2 := by
    have : entryCount s1.data p = (s.data.dirs i).length := by
      rw [← hpi]
      exact congrArg List.length (hsame.apply (fun s => s.data.dirs p.inode) (fun _ => rfl))
    omega
  obtain ⟨ts, -, -, hlen0, -⟩ := resolveParent_ok hpar
  have hrem : directoryRemoveEntry s2.data q name = some (withoutEntry s2.data d name) :=
    removeEntry_of_child hq2 hlen0
      ((hs2.apply (fun s => child s d name) (fun _ => rfl)).trans hchild)
  have hfreed := freed_eq c (hs.same hs2.symm) i (withoutEntry s2.data d name)
  rw [step, fsRemoveDirectory, if_neg hne, if_neg (by omega), h1, hr] at hstep
  have hstep' : removeDirectoryAt c s1 path i = .ok (r, t) := hstep
  rw [removeDirectoryAt, if_neg (by simp [hty1])] at hstep'
  simp only [hp1, hcount, if_false, removeDirectoryEntry, h2, resolveParent_same hsame, hpar,
    hq2, hrem, Except.ok.injEq, Prod.mk.injEq] at hstep'
  refine ⟨s2, i, p, withoutEntry s2.data d name, hs2.symm, hp2, ?_⟩
  rw [← hstep'.2, ← hfreed]
  have hinc : ∀ {a b : Fs Attached}, Same a b → Same (incFreeInodes a) (incFreeInodes b) :=
    fun {a b} hab => congrArg incFreeInodes hab
  exact hinc ((same_updateMtime _ _ _).trans
    ((same_updateCtime _ _ _).trans (same_updateCtime _ _ _)))

theorem BlocksCounted.init (c : Ctx) : BlocksCounted (fsInit c) := by
  have hmap : (fsInit c : Fs Attached).intmap.blocks
      = Function.update (fun _ => false) 0 true := rfl
  have h := Bitmap.clear_update_true (S := Finset.range maxBlocks) (f := fun _ => false)
    (Finset.mem_range.mpr (show 0 < maxBlocks by decide)) rfl
  have hall : Bitmap.clear (Finset.range maxBlocks) (fun _ => false) = maxBlocks := by
    simp [Bitmap.clear]
  have hcount : (fsInit c : Fs Attached).superblock.freeBlocksCount = maxBlocks - 1 := rfl
  rw [BlocksCounted, freeBlocks, hmap, hcount]
  omega

/-- `free_blocks_count` is the number of clear cells of the block map as
long as no `fs_remove_directory` removes a directory, and from a state
where the two agree that removal is exactly what makes them differ. -/
theorem freeBlocksCount_eq_iff_no_removal (u : User) :
    (∀ t : Fs Attached, Reachable u (fun s op _ => ¬ RemovesDirectory s op) t →
      t.superblock.freeBlocksCount = freeBlocks t) ∧
    (∀ (P : Fs Attached → Op → Fs Attached → Prop) (now : Int) (s t : Fs Attached) (op : Op)
      (r : Int), Reachable u P s → s.superblock.freeBlocksCount = freeBlocks s →
      step (u.at now) s op = .ok (r, t) →
      (t.superblock.freeBlocksCount = freeBlocks t ↔ ¬ RemovesDirectory s op)) := by
  constructor
  · intro t ht
    have h : Sound t ∧ BlocksCounted t :=
      ht.invariant (I := fun t => Sound t ∧ BlocksCounted t)
        (fun now => ⟨Sound.init _, BlocksCounted.init _⟩)
        (fun h hop hstep => ⟨step_sound h.1 hstep, step_blocksCounted h.1 h.2 hop hstep⟩)
    exact h.2
  · intro P now s t op r hreach hcount hstep
    have hs := hreach.sound
    constructor
    · intro hct hop
      obtain ⟨s', i, p, data, hss, hp, htt⟩ := step_of_removesDirectory _ hs hop hstep
      exact freed_not_counted _ (hs.same hss) (BlocksCounted.same hss hcount) hp data
        (BlocksCounted.same htt hct)
    · intro hop
      exact step_blocksCounted hs hcount hop hstep

/-- One file created: no step removes a directory, and the two agree. -/
theorem freeBlocksCount_after_create :
    ∃ t : Fs Attached, Reachable ⟨0, 0⟩ (fun s op _ => ¬ RemovesDirectory s op) t ∧
      t.superblock.freeBlocksCount = 1022 ∧ t.superblock.freeBlocksCount = freeBlocks t := by
  obtain ⟨t, ht, hv⟩ := runOps_eval (User.at ⟨0, 0⟩ 0) (fsInit (User.at ⟨0, 0⟩ 0))
    [.createFile (cstr "/f") 6] (fun t : Fs Attached => t.superblock.freeBlocksCount) 1022
    (by decide +kernel)
  have hreach : Reachable ⟨0, 0⟩ (fun s op _ => ¬ RemovesDirectory s op) t := by
    refine ⟨0, runOps_reaches ?_ ht⟩
    rintro op hop s - ⟨path, d, name, i, p, rfl, -⟩
    simp at hop
  exact ⟨t, hreach, hv, (freeBlocksCount_eq_iff_no_removal ⟨0, 0⟩).1 t hreach⟩

/-- `mkdir /d` and `rmdir /d`: 1023 blocks are free and 1022 are counted. -/
theorem freeBlocksCount_after_mkdir_rmdir :
    ∃ t : Fs Attached,
      runOps (User.at ⟨0, 0⟩ 0) (fsInit (User.at ⟨0, 0⟩ 0))
        [.createDirectory (cstr "/d") 7 (cstr "d"), .removeDirectory (cstr "/d")] = .ok t ∧
      Reachable ⟨0, 0⟩ (fun _ _ _ => True) t ∧
      t.superblock.freeBlocksCount = 1022 ∧ freeBlocks t = 1023 := by
  obtain ⟨t, ht, hv⟩ := runOps_eval (User.at ⟨0, 0⟩ 0) (fsInit (User.at ⟨0, 0⟩ 0))
    [.createDirectory (cstr "/d") 7 (cstr "d"), .removeDirectory (cstr "/d")]
    (fun t : Fs Attached => (t.superblock.freeBlocksCount, freeBlocks t)) (1022, 1023)
    (by decide +kernel)
  have hv' := Prod.mk.inj hv
  exact ⟨t, ht, ⟨0, runOps_reaches (fun _ _ _ _ => trivial) ht⟩, hv'.1, hv'.2⟩

end SistemasOperativos.FileSystem
