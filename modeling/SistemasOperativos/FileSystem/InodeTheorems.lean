/-
SistemasOperativos.FileSystem.InodeTheorems — the functions of `inode.c`,
and the slot loop of `fs_delete_file` and `fisopfs_truncate`, in closed
form.

Each allocation and each release is one equation between states. The
loops over the twelve slots are folded once, here, into the predicate
`holds`: the inode has the block in one of its slots. Later modules never
unfold a slot loop again.
-/
import SistemasOperativos.FileSystem.Fisopfs

namespace SistemasOperativos.FileSystem

variable {δ : Type}

/-! ## Slots -/

/-- The block in slot `k` of inode `i`. -/
def slot (s : Fs δ) (i : Fin maxInodes) (k : Nat) : Option Nat :=
  inodeGetDirectBlock (s.inodes i) k

theorem getDirectBlock_of_lt (n : Inode) {k : Nat} (hk : k < numDirectBlocks) :
    inodeGetDirectBlock n k = n.directBlockPtrs k := if_neg (by omega)

theorem getDirectBlock_eq_some {n : Inode} {k b : Nat} :
    inodeGetDirectBlock n k = some b ↔ k < numDirectBlocks ∧ n.directBlockPtrs k = some b := by
  unfold inodeGetDirectBlock
  split
  · simp only [reduceCtorEq, false_iff]
    rintro ⟨h, -⟩
    omega
  · rename_i h
    exact ⟨fun hb => ⟨by omega, hb⟩, fun hb => hb.2⟩

/-- Block `b` is in one of the slots below `m`. -/
def holdsBelow (n : Inode) (m b : Nat) : Bool :=
  (List.range m).any (fun k => n.directBlockPtrs k == some b)

/-- Block `b` is in one of the slots. -/
abbrev holds (n : Inode) (b : Nat) : Bool := holdsBelow n numDirectBlocks b

theorem holdsBelow_iff {n : Inode} {m b : Nat} :
    holdsBelow n m b = true ↔ ∃ k < m, n.directBlockPtrs k = some b := by
  simp [holdsBelow, List.any_eq_true]

theorem holds_iff {n : Inode} {b : Nat} :
    holds n b = true ↔ ∃ k, inodeGetDirectBlock n k = some b := by
  simp only [holds, holdsBelow_iff, getDirectBlock_eq_some]

theorem holdsBelow_succ (n : Inode) (m b : Nat) :
    holdsBelow n (m + 1) b = (holdsBelow n m b || n.directBlockPtrs m == some b) := by
  simp [holdsBelow, List.range_succ, List.any_append]

/-- The inode with the slots below `m` emptied. -/
def clearedTo (n : Inode) (m : Nat) : Inode :=
  { n with directBlockPtrs := fun k => if k < m then none else n.directBlockPtrs k }

theorem clearedTo_zero (n : Inode) : clearedTo n 0 = n := by
  simp [clearedTo]

theorem clearedTo_ptr_self (n : Inode) (m : Nat) :
    (clearedTo n m).directBlockPtrs m = n.directBlockPtrs m := by
  simp [clearedTo]

/-- Emptying one more slot. -/
theorem clearedTo_succ (n : Inode) (m : Nat) :
    { clearedTo n m with
      directBlockPtrs := Function.update (clearedTo n m).directBlockPtrs m none }
      = clearedTo n (m + 1) := by
  simp only [clearedTo, Inode.mk.injEq, true_and, and_true]
  funext k
  by_cases hk : k = m
  · subst hk; simp
  · have : k < m ↔ k < m + 1 := by omega
    simp [hk, this]

theorem clearedTo_succ_of_empty (n : Inode) (m : Nat) (h : n.directBlockPtrs m = none) :
    clearedTo n (m + 1) = clearedTo n m := by
  simp only [clearedTo, Inode.mk.injEq, true_and, and_true]
  funext k
  by_cases hk : k = m
  · subst hk; simp [h]
  · have : k < m ↔ k < m + 1 := by omega
    simp [this]

theorem getDirectBlock_clearedTo (n : Inode) (k : Nat) :
    inodeGetDirectBlock (clearedTo n numDirectBlocks) k = none := by
  unfold inodeGetDirectBlock
  split
  · rfl
  · simp only [clearedTo, ite_eq_left_iff]
    omega

theorem getDirectBlock_inodeInit (c : Ctx) (k : Nat) :
    inodeGetDirectBlock (inodeInit c) k = none := by
  unfold inodeGetDirectBlock
  split <;> rfl

/-! ## Allocation -/

theorem allocateInode_some {c : Ctx} {s t : Fs δ} {i : Fin maxInodes}
    (h : allocateInode c s = some (i, t)) :
    s.intmap.inodes i = false ∧
      t = { s with
            inodes := Function.update s.inodes i (inodeInit c)
            intmap := setInodeUsed s.intmap i } := by
  unfold allocateInode at h
  split at h
  · rename_i j hj
    simp only [Option.some.injEq, Prod.mk.injEq] at h
    obtain ⟨rfl, rfl⟩ := h
    refine ⟨by simpa using List.find?_some hj, ?_⟩
    simp [Fs.modifyInode]
  · cases h

theorem allocateInode_none {c : Ctx} {s : Fs δ} (h : allocateInode c s = none)
    (i : Fin maxInodes) : s.intmap.inodes i = true := by
  unfold allocateInode at h
  split at h
  · cases h
  · rename_i hnone
    rw [List.find?_eq_none] at hnone
    simpa using hnone i (List.mem_finRange i)

theorem findFreeBlock_some {bm : Intmap} {b : Nat} (h : findFreeBlock bm = some b) :
    b < maxBlocks ∧ bm.blocks b = false := by
  unfold findFreeBlock at h
  rw [List.find?_range_eq_some] at h
  exact ⟨List.mem_range.mp h.2.1, by simpa using h.1⟩

/-- Block `b` put in slot `k` of inode `i` and marked used. -/
def putBlock (s : Fs δ) (i : Fin maxInodes) (k b : Nat) : Fs δ :=
  { setPtr i k (some b) s with
    intmap := { s.intmap with blocks := Function.update s.intmap.blocks b true } }

theorem addDirectBlock_some {s t : Fs δ} {i : Fin maxInodes} {b : Nat}
    (h : inodeAddDirectBlock s i b = some t) :
    ∃ k < numDirectBlocks, (s.inodes i).directBlockPtrs k = none ∧
      (∀ j < k, (s.inodes i).directBlockPtrs j ≠ none) ∧ t = putBlock s i k b := by
  unfold inodeAddDirectBlock at h
  split at h
  · cases h
  · rename_i hb
    split at h
    · rename_i k hk
      rw [List.find?_range_eq_some] at hk
      refine ⟨k, List.mem_range.mp hk.2.1, by simpa using hk.1, ?_, ?_⟩
      · intro j hj
        simpa [Option.isSome_iff_ne_none] using hk.2.2 j hj
      · simp only [Option.some.injEq] at h
        rw [← h]
        simp [putBlock, setBlockUsed, setPtr, hb]
    · cases h

theorem addDirectBlock_none {s : Fs δ} {i : Fin maxInodes} {b : Nat} (hb : b < maxBlocks)
    (h : inodeAddDirectBlock s i b = none) {k : Nat} (hk : k < numDirectBlocks) :
    (s.inodes i).directBlockPtrs k ≠ none := by
  unfold inodeAddDirectBlock at h
  rw [if_neg (by omega)] at h
  split at h
  · cases h
  · rename_i hnone
    rw [List.find?_range_eq_none] at hnone
    simpa [Option.isSome_iff_ne_none] using hnone k hk

/-- On an inode without blocks, slot 0 is taken. -/
theorem addDirectBlock_fresh {s : Fs δ} {i : Fin maxInodes} {b : Nat} (hb : b < maxBlocks)
    (h : (s.inodes i).directBlockPtrs = fun _ => none) :
    inodeAddDirectBlock s i b = some (putBlock s i 0 b) := by
  cases ha : inodeAddDirectBlock s i b with
  | none => exact absurd (by rw [h]) (addDirectBlock_none hb ha (k := 0) (by decide))
  | some t =>
      obtain ⟨k, -, -, hlow, rfl⟩ := addDirectBlock_some ha
      have hk : k = 0 := by
        by_contra hk
        exact hlow 0 (by omega) (by rw [h])
      rw [hk]

/-! ## `inode_free` -/

theorem clearBlockUsed_of_lt {bm : Intmap} {b : Nat} (hb : b < maxBlocks) :
    clearBlockUsed bm b = { bm with blocks := Function.update bm.blocks b false } := by
  rw [clearBlockUsed, if_neg (by omega)]

/-- The maps after the blocks in the slots below `m` have been cleared. -/
def mapWithout (bm : Intmap) (n : Inode) (m : Nat) : Intmap :=
  { bm with blocks := fun b => bm.blocks b && !holdsBelow n m b }

theorem mapWithout_zero (bm : Intmap) (n : Inode) : mapWithout bm n 0 = bm := by
  simp [mapWithout, holdsBelow]

theorem mapWithout_succ (bm : Intmap) (n : Inode) (m : Nat) {b : Nat}
    (hb : n.directBlockPtrs m = some b) :
    { mapWithout bm n m with blocks := Function.update (mapWithout bm n m).blocks b false }
      = mapWithout bm n (m + 1) := by
  simp only [mapWithout, Intmap.mk.injEq, true_and]
  funext x
  rw [holdsBelow_succ, hb]
  by_cases hx : x = b
  · subst hx; simp
  · have hx' : (some b == some x) = false := by simpa using fun h => hx h.symm
    simp [hx, hx']

theorem mapWithout_succ_of_empty (bm : Intmap) (n : Inode) (m : Nat)
    (h : n.directBlockPtrs m = none) : mapWithout bm n (m + 1) = mapWithout bm n m := by
  simp only [mapWithout, Intmap.mk.injEq, true_and]
  funext x
  simp [holdsBelow_succ, h]

/-- The blocks in the slots of an inode are blocks of `data_block`. -/
def SlotsBelow (n : Inode) : Prop :=
  ∀ k b, inodeGetDirectBlock n k = some b → b < maxBlocks

theorem foldl_inodeFreeSlot (s : Fs δ) (i : Fin maxInodes) (hs : SlotsBelow (s.inodes i))
    (m : Nat) (hm : m ≤ numDirectBlocks) :
    (List.range m).foldl (inodeFreeSlot i) s =
      { s with
        inodes := Function.update s.inodes i (clearedTo (s.inodes i) m)
        intmap := mapWithout s.intmap (s.inodes i) m } := by
  induction m with
  | zero => simp [clearedTo_zero, mapWithout_zero]
  | succ m ih =>
      rw [List.range_succ, List.foldl_append, ih (by omega), List.foldl_cons, List.foldl_nil]
      unfold inodeFreeSlot
      simp only [Function.update_self, clearedTo_ptr_self]
      cases he : (s.inodes i).directBlockPtrs m with
      | none => rw [clearedTo_succ_of_empty _ _ he, mapWithout_succ_of_empty _ _ _ he]
      | some b =>
          have hlt : b < maxBlocks := hs m b (getDirectBlock_eq_some.mpr ⟨by omega, he⟩)
          simp only [clearBlockUsed_of_lt hlt, mapWithout_succ _ _ _ he, setPtr, Fs.modifyInode,
            Function.update_self, Function.update_idem, clearedTo_succ]

/-- `inode_free` in one equation. -/
theorem inodeFree_eq (c : Ctx) (s : Fs δ) (i : Fin maxInodes) (hs : SlotsBelow (s.inodes i)) :
    inodeFree c i s =
      { s with
        inodes := Function.update s.inodes i (inodeInit c)
        intmap := clearInodeUsed (mapWithout s.intmap (s.inodes i) numDirectBlocks) i } := by
  unfold inodeFree
  rw [foldl_inodeFreeSlot s i hs _ (Nat.le_refl _)]
  simp [Fs.modifyInode]

/-! ## The release loop -/

/-- How many of the slots below `m` hold a block. -/
def heldCount (n : Inode) : Nat → Nat
  | 0 => 0
  | m + 1 => heldCount n m + (if n.directBlockPtrs m = none then 0 else 1)

/-- The bytes after the blocks in the slots below `m` have been zeroed. -/
def bytesWithout (mem : Memory) (n : Inode) (m : Nat) : Memory :=
  fun a => if holdsBelow n m (a / blockSize) then 0 else mem a

theorem bytesWithout_zero (mem : Memory) (n : Inode) : bytesWithout mem n 0 = mem := by
  funext a
  simp [bytesWithout, holdsBelow]

theorem memset_block (mem : Memory) (b : Nat) (v : UInt8) :
    memset mem (blockAddr b 0) v blockSize
      = fun a => if a / blockSize = b then v else mem a := by
  funext a
  have : (blockAddr b 0 ≤ a ∧ a < blockAddr b 0 + blockSize) ↔ a / blockSize = b := by
    simp only [blockAddr, blockSize]
    omega
  simp only [memset, this]

theorem bytesWithout_succ (mem : Memory) (n : Inode) (m : Nat) {b : Nat}
    (hb : n.directBlockPtrs m = some b) :
    memset (bytesWithout mem n m) (blockAddr b 0) 0 blockSize = bytesWithout mem n (m + 1) := by
  rw [memset_block]
  funext a
  simp only [bytesWithout, holdsBelow_succ, hb]
  by_cases ha : a / blockSize = b
  · simp [ha]
  · have ha' : (some b == some (a / blockSize)) = false := by simpa using fun h => ha h.symm
    rw [if_neg ha, ha', Bool.or_false]

theorem bytesWithout_succ_of_empty (mem : Memory) (n : Inode) (m : Nat)
    (h : n.directBlockPtrs m = none) : bytesWithout mem n (m + 1) = bytesWithout mem n m := by
  funext a
  simp [bytesWithout, holdsBelow_succ, h]

theorem foldl_releaseSlot (s : Fs Attached) (i : Fin maxInodes)
    (hs : SlotsBelow (s.inodes i)) (m : Nat) (hm : m ≤ numDirectBlocks) :
    (List.range m).foldl (releaseSlot i) s =
      { inodes := Function.update s.inodes i (clearedTo (s.inodes i) m)
        intmap := mapWithout s.intmap (s.inodes i) m
        superblock :=
          { s.superblock with
            freeBlocksCount := u32Inc^[heldCount (s.inodes i) m] s.superblock.freeBlocksCount }
        data := { s.data with bytes := bytesWithout s.data.bytes (s.inodes i) m } } := by
  induction m with
  | zero => simp [clearedTo_zero, mapWithout_zero, heldCount, bytesWithout_zero]
  | succ m ih =>
      rw [List.range_succ, List.foldl_append, ih (by omega), List.foldl_cons, List.foldl_nil]
      unfold releaseSlot
      simp only [Function.update_self, getDirectBlock_of_lt _ (show m < numDirectBlocks by omega),
        clearedTo_ptr_self]
      cases he : (s.inodes i).directBlockPtrs m with
      | none =>
          simp only [clearedTo_succ_of_empty _ _ he, mapWithout_succ_of_empty _ _ _ he,
            bytesWithout_succ_of_empty _ _ _ he, heldCount, he, if_true, Nat.add_zero]
      | some b =>
          have hlt : b < maxBlocks := hs m b (getDirectBlock_eq_some.mpr ⟨by omega, he⟩)
          simp only [clearBlockUsed_of_lt hlt, mapWithout_succ _ _ _ he, heldCount, he,
            reduceCtorEq, if_false, Function.iterate_succ_apply', setPtr, Fs.modifyInode,
            incFreeBlocks, Fs.setBytes, Fs.bytes, Function.update_self, Function.update_idem,
            clearedTo_succ]
          simp only [DataArea.bytes, DataArea.setBytes, bytesWithout_succ _ _ _ he]

/-- The release loop in one equation. -/
theorem releaseBlocks_eq (s : Fs Attached) (i : Fin maxInodes) (hs : SlotsBelow (s.inodes i)) :
    releaseBlocks i s =
      { inodes := Function.update s.inodes i (clearedTo (s.inodes i) numDirectBlocks)
        intmap := mapWithout s.intmap (s.inodes i) numDirectBlocks
        superblock :=
          { s.superblock with
            freeBlocksCount :=
              u32Inc^[heldCount (s.inodes i) numDirectBlocks] s.superblock.freeBlocksCount }
        data := { s.data with bytes := bytesWithout s.data.bytes (s.inodes i) numDirectBlocks } } :=
  foldl_releaseSlot s i hs _ (Nat.le_refl _)

end SistemasOperativos.FileSystem
