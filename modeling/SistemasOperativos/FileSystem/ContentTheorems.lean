/-
SistemasOperativos.FileSystem.ContentTheorems — the bytes of one file.

`FileIs s i l` says that inode `i` is a regular file whose content is the
list `l`: the slots are filled from the left without a gap, the size is
the length of `l`, and the blocks show `l`. The part of the last block
behind the end, and whole blocks that a truncation left behind, may hold
anything. Reading, writing without a gap and truncating are slicing,
overwriting and taking a prefix of `l`.
-/
import SistemasOperativos.FileSystem.FrameTheorems
import SistemasOperativos.Lib.Paged

namespace SistemasOperativos.FileSystem

open Paged

/-- The first `m` slots of inode `i` are filled, the others are empty, and
the blocks show `l`. -/
structure Content (s : Fs Attached) (i : Fin maxInodes) (m : Nat) (l : List UInt8) : Prop where
  filled : ∀ k < m, slot s i k ≠ none
  empty : ∀ k, m ≤ k → slot s i k = none
  room : l.length ≤ m * blockSize
  shown : Shows blockSize (slot s i) s.data.bytes l

structure FileIs (s : Fs Attached) (i : Fin maxInodes) (l : List UInt8) : Prop where
  type : (s.inodes i).inodeType = .file
  used : s.intmap.inodes i = true
  size : (s.inodes i).fileSizeBytes = l.length
  content : ∃ m, Content s i m l

section

variable {s t : Fs Attached} {i : Fin maxInodes} {m : Nat} {l : List UInt8}

theorem Content.le_slots (h : Content s i m l) : m ≤ numDirectBlocks := by
  by_contra hlt
  exact h.filled numDirectBlocks (by omega) (by simp [slot, inodeGetDirectBlock])

theorem Content.length_le (h : Content s i m l) : l.length ≤ numDirectBlocks * blockSize :=
  h.room.trans (Nat.mul_le_mul_right _ h.le_slots)

theorem Content.lt_of_slot (h : Content s i m l) {k b : Nat} (hk : slot s i k = some b) :
    k < m := by
  by_contra hlt
  rw [h.empty k (by omega)] at hk
  cases hk

theorem Content.slot_of_lt (h : Content s i m l) {k : Nat} (hk : k * blockSize < l.length) :
    ∃ b, slot s i k = some b := by
  have hroom := h.room
  refine Option.ne_none_iff_exists'.mp (h.filled k ?_)
  simp only [blockSize] at *
  omega

theorem Content.take (h : Content s i m l) (n : Nat) :
    Content s i m (l.take n) where
  filled := h.filled
  empty := h.empty
  room := by
    rw [List.length_take]
    exact (Nat.min_le_right _ _).trans h.room
  shown := h.shown.take n

theorem Sound.shows_inj (hs : Sound s) (k k' b : Nat) (h : slot s i k = some b)
    (h' : slot s i k' = some b) : k = k' :=
  (hs.slotInj i k i k' b h h').2

/-! ## `fs_read_file` -/

/-- The end of a block is the start of the next. -/
theorem next_block {idx off x : Nat} (h : idx * blockSize + off = x) (hoff : off < blockSize) :
    (idx + 1) * blockSize = x + (blockSize - off) := by
  simp only [blockSize] at *
  omega

/-- The copy loop: `out` holds the bytes from position `o` on, and the
loop goes on at block `idx`, offset `off`. It stops where the wanted bytes
end or at the first empty slot. -/
theorem readLoop_eq (hs : Sound s) (h : Content s i m l) {o n : Nat}
    (hn : o + n ≤ l.length ∨ l.length = m * blockSize)
    (fuel : Nat) {idx off : Nat} {out : List UInt8} (hout : out = (l.drop o).take out.length)
    (hle : out.length ≤ n)
    (hpos : out.length < n → idx * blockSize + off = o + out.length ∧ off < blockSize)
    (hfuel : out.length < n → loopFuel ≤ fuel + idx) :
    readLoop s i n fuel idx off out = (l.drop o).take n := by
  have hmax := h.length_le
  -- nothing is left of `l`, so `out` is all of it from `o` on
  have hall : l.length ≤ o + out.length → out = (l.drop o).take n := by
    intro hend
    rw [List.take_of_length_le (by rw [List.length_drop]; omega)]
    rwa [List.take_of_length_le (by rw [List.length_drop]; omega)] at hout
  induction fuel generalizing idx off out with
  | zero =>
      rw [readLoop]
      by_cases hlt : out.length < n
      · obtain ⟨hidx, -⟩ := hpos hlt
        have hf := hfuel hlt
        apply hall
        simp only [blockSize, numDirectBlocks, loopFuel] at *
        omega
      · rwa [show out.length = n by omega] at hout
  | succ fuel ih =>
      rw [readLoop]
      by_cases hlt : out.length < n
      · obtain ⟨hidx, hoff⟩ := hpos hlt
        have hf := hfuel hlt
        rw [if_pos hlt]
        by_cases hend : l.length ≤ o + out.length
        · have hnone : inodeGetDirectBlock (s.inodes i) idx = none := by
            refine h.empty idx ?_
            rcases hn with hn | hn
            · omega
            · simp only [blockSize] at *
              omega
          simp only [hnone, ite_self]
          exact hall hend
        · obtain ⟨b, hb⟩ := h.slot_of_lt (k := idx) (by omega)
          have hidxm := h.lt_of_slot hb
          have hidxlt : idx < numDirectBlocks := hidxm.trans_le h.le_slots
          have hget : inodeGetDirectBlock (s.inodes i) idx = some b := hb
          simp only [if_neg (not_le.mpr hidxlt), hget, hs.blockSize]
          generalize hcopy : (if n - out.length < blockSize - off then n - out.length
            else blockSize - off) = copySize
          have hfit : off + copySize ≤ blockSize ∧ copySize ≤ n - out.length := by
            rw [← hcopy]
            split <;> omega
          have hin : o + out.length + copySize ≤ l.length := by
            rcases hn with hn | hn
            · omega
            · simp only [blockSize] at *
              omega
          have hload : load s.bytes (blockAddr b off) copySize
              = (l.drop (o + out.length)).take copySize := by
            rw [← hidx]
            exact h.shown.load hb hfit.1 (by omega)
          have hlen : ((l.drop (o + out.length)).take copySize).length = copySize := by
            rw [List.length_take, List.length_drop]
            omega
          have hnext : out ++ (l.drop (o + out.length)).take copySize
              = (l.drop o).take (out.length + copySize) := by
            rw [List.take_add, List.drop_drop]
            exact congrArg (· ++ (l.drop (o + out.length)).take copySize) hout
          have hnextlen : (out ++ (l.drop (o + out.length)).take copySize).length
              = out.length + copySize := by
            rw [List.length_append, hlen]
          rw [hload]
          refine ih ?_ ?_ ?_ ?_ ?_
          · rw [hnextlen]
            exact hnext
          · omega
          · rw [hnextlen]
            intro hmore
            -- there is more to read, so the turn went up to the end of its block
            have hend : copySize = blockSize - off := by
              by_cases hc : n - out.length < blockSize - off
              · rw [if_pos hc] at hcopy
                omega
              · rw [← hcopy, if_neg hc]
            rw [hend, ← Nat.add_assoc, Nat.add_zero]
            exact ⟨next_block hidx hoff, by decide⟩
          · intro _
            omega
          · rw [hnextlen]
            intro hend'
            rw [hnext, List.take_of_length_le (by rw [List.length_drop]; omega),
              List.take_of_length_le (by rw [List.length_drop]; omega)]
      · rw [if_neg hlt]
        rwa [show out.length = n by omega] at hout

/-- `fs_read_file` returns a slice of what the blocks show, up to the size
of the file or to the end of its last block. -/
theorem Content.readFileAt (c : Ctx) (hs : Sound s) (h : Content s i m l)
    (hsize : l.length = min (s.inodes i).fileSizeBytes (m * blockSize))
    (hlt : (s.inodes i).fileSizeBytes < 4294967296) (size : Nat) {offset : Int}
    (ho : 0 ≤ offset) :
    (readFileAt c s i size offset).1
      = ((((l.drop offset.toNat).take size).length : Int), (l.drop offset.toNat).take size) := by
  unfold FileSystem.readFileAt
  dsimp only
  generalize (s.inodes i).fileSizeBytes = len at hsize hlt ⊢
  by_cases hge : offset ≥ (len : Int)
  · have hnil : l.drop offset.toNat = [] := List.drop_eq_nil_iff.mpr (by omega)
    simp [hge, hnil]
  · have hleft : toSize ((len : Int) - offset) = len - offset.toNat := by
      simp only [toSize]
      omega
    have hoff : toSize offset = offset.toNat := by
      simp only [toSize]
      omega
    rw [if_neg hge, hleft, hoff, hs.blockSize]
    generalize hoo : offset.toNat = o
    set n := if size < len - o then size else len - o with hn
    have hnle : o + n ≤ l.length ∨ l.length = m * blockSize := by
      by_cases hfull : len ≤ m * blockSize
      · left
        rw [hn]
        split <;> omega
      · right
        omega
    have hloop : readLoop s i n loopFuel (o / blockSize) (o % blockSize) []
        = (l.drop o).take n := by
      refine readLoop_eq hs h hnle loopFuel (by simp) (by simp) ?_
        (fun _ => Nat.le_add_right _ _)
      intro _
      exact ⟨Nat.div_add_mod' o blockSize, Nat.mod_lt _ (by decide)⟩
    have htake : (l.drop o).take n = (l.drop o).take size := by
      rw [hn]
      split
      · rfl
      · rw [List.take_of_length_le (by rw [List.length_drop]; omega),
          List.take_of_length_le (by rw [List.length_drop]; omega)]
    rw [hloop, htake]

/-- `fs_read_file` on a file returns a slice of its content. -/
theorem readFileAt_eq (c : Ctx) (hs : Sound s) (h : FileIs s i l) (size : Nat) {offset : Int}
    (ho : 0 ≤ offset) :
    (readFileAt c s i size offset).1
      = ((((l.drop offset.toNat).take size).length : Int), (l.drop offset.toNat).take size) := by
  obtain ⟨m, hm⟩ := h.content
  have hroom := hm.room
  have hmax := hm.length_le
  refine hm.readFileAt c hs ?_ ?_ size ho
  · rw [h.size]
    omega
  · rw [h.size]
    exact Nat.lt_of_le_of_lt hmax (by decide)

/-! ## `fs_write_file` -/

theorem slot_putBlock (s : Fs Attached) (i : Fin maxInodes) {k : Nat} (b : Nat)
    (hk : k < numDirectBlocks) (j : Nat) :
    slot (decFreeBlocks (putBlock s i k b)) i j = if j = k then some b else slot s i j := by
  by_cases hj : j = k
  · rw [if_pos hj, hj, slot_putBlock_self hk]
  · rw [if_neg hj]
    simp [slot, inodeGetDirectBlock, decFreeBlocks, putBlock, setPtr, Fs.modifyInode, hj]

/-- A write never needs a block behind the first empty slot, because it
starts inside the file or at its end. The fresh block goes where it is
needed. -/
theorem Content.blockForWrite (hs : Sound s) (h : Content s i m l) {pos b : Nat}
    (hpos : pos ≤ l.length) (hb : blockForWrite s i (pos / blockSize) = some (b, t)) :
    Sound t ∧ (∃ m', Content t i m' l) ∧ slot t i (pos / blockSize) = some b ∧
      t.superblock.blockSizeBytes = blockSize := by
  rcases blockForWrite_some hb with ⟨hslot, rfl⟩ | ⟨k, hk, hnone, hempty, hlow, hfree, rfl⟩
  · exact ⟨hs, ⟨m, h⟩, hslot, hs.blockSize⟩
  · have hroom := h.room
    have hmk : k = m := by
      refine Nat.le_antisymm ?_ ?_
      · by_contra hlt
        have hm : m < numDirectBlocks := by omega
        refine hlow m (by omega) ?_
        rw [← getDirectBlock_of_lt _ hm]
        exact h.empty m (Nat.le_refl m)
      · by_contra hlt
        refine h.filled k (by omega) ?_
        rw [slot, getDirectBlock_of_lt _ hk, hempty]
    subst hmk
    have hidx : pos / blockSize = k := by
      have hge : k ≤ pos / blockSize := by
        by_contra hlt
        exact h.filled _ (by omega) hnone
      simp only [blockSize] at *
      omega
    have hput := slot_putBlock s i b hk
    refine ⟨hs.putBlock hempty hfree, ⟨k + 1, ?_, ?_, ?_, ?_⟩, ?_, hs.blockSize⟩
    · intro j hj
      rw [hput]
      split
      · simp
      · exact h.filled j (by omega)
    · intro j hj
      rw [hput, if_neg (by omega)]
      exact h.empty j (by omega)
    · exact hroom.trans (Nat.mul_le_mul_right _ (Nat.le_succ k))
    · refine h.shown.congr (by decide) ?_ (fun _ _ _ _ _ => rfl)
      intro j hj
      rw [hput, if_neg]
      rintro rfl
      omega
    · rw [hput, if_pos hidx]

theorem blockForWrite_eq_none {δ : Type} {s : Fs δ} {i : Fin maxInodes} {idx : Nat}
    (hidx : idx < numDirectBlocks) :
    blockForWrite s i idx = none ↔ slot s i idx = none ∧ findFreeBlock s.intmap = none := by
  unfold blockForWrite slot
  cases hslot : inodeGetDirectBlock (s.inodes i) idx with
  | some b => simp
  | none =>
      cases hfree : findFreeBlock s.intmap with
      | none => simp
      | some b =>
          simp only [Option.map_eq_none_iff, reduceCtorEq, and_false, iff_false]
          intro hadd
          have hfilled := addDirectBlock_none (findFreeBlock_some hfree).1 hadd hidx
          rw [← getDirectBlock_of_lt _ hidx] at hfilled
          exact hfilled hslot

/-- Copying a piece into the block of position `pos`. -/
theorem Content.store (hs : Sound s) (h : Content s i m l) {pos b : Nat} (hpos : pos ≤ l.length)
    (hb : slot s i (pos / blockSize) = some b) (chunk : List UInt8)
    (hfit : pos % blockSize + chunk.length ≤ blockSize) :
    Content (s.setBytes (store s.bytes (blockAddr b (pos % blockSize)) chunk)) i m
      (overwrite l pos chunk) := by
  have hm := h.lt_of_slot hb
  have hroom := h.room
  have hdiv := Nat.div_add_mod' pos blockSize
  refine ⟨h.filled, h.empty, ?_, ?_⟩
  · rw [length_overwrite hpos]
    have hnext : (pos / blockSize + 1) * blockSize ≤ m * blockSize :=
      Nat.mul_le_mul_right _ hm
    rw [Nat.add_mul] at hnext
    omega
  · have hshown : Shows blockSize (slot s i)
        (FileSystem.store s.bytes (blockAddr b (pos % blockSize)) chunk)
        (overwrite l (pos / blockSize * blockSize + pos % blockSize) chunk) := by
      refine h.shown.store hs.shows_inj hb hfit (Nat.mod_lt _ (by decide)) (by omega) ?_ ?_
      · intro x hx
        have hin : blockAddr b (pos % blockSize) ≤ b * blockSize + pos % blockSize + x ∧
            b * blockSize + pos % blockSize + x
              < blockAddr b (pos % blockSize) + chunk.length := by
          rw [blockAddr]
          omega
        rw [FileSystem.store, if_pos hin, blockAddr, Nat.add_sub_cancel_left,
          List.getD_eq_getElem?_getD, List.getElem?_eq_getElem hx]
        rfl
      · intro a ha
        rw [FileSystem.store, blockAddr, if_neg ha]
        rfl
    rw [hdiv] at hshown
    exact hshown

/-- The copy loop, begun at position `o`, after `bytesWritten` bytes. -/
theorem writeLoop_content {buffer : List UInt8} {o : Nat} (ho : o ≤ l.length) (fuel : Nat)
    {bytesWritten pos : Nat} (hs : Sound s)
    (h : Content s i m (overwrite l o (buffer.take bytesWritten)))
    (hle : bytesWritten ≤ buffer.length) (hpos : pos = o + bytesWritten)
    (hfuel : bytesWritten < buffer.length → loopFuel ≤ fuel + pos / blockSize)
    {bytesWritten' pos' : Nat}
    (hw : writeLoop i buffer fuel s bytesWritten pos = (t, bytesWritten', pos')) :
    (∃ m', Content t i m' (overwrite l o (buffer.take bytesWritten'))) ∧
      bytesWritten' ≤ buffer.length ∧ pos' = o + bytesWritten' ∧
      (bytesWritten' < buffer.length →
        pos' = numDirectBlocks * blockSize ∨ findFreeBlock t.intmap = none) := by
  have hlen : (overwrite l o (buffer.take bytesWritten)).length
      = max l.length (o + bytesWritten) := by
    rw [length_overwrite ho, List.length_take, Nat.min_eq_left hle]
  have hmax := h.length_le
  induction fuel generalizing s m bytesWritten pos with
  | zero =>
      rw [writeLoop] at hw
      cases hw
      refine ⟨⟨m, h⟩, hle, hpos, fun hlt => ?_⟩
      have hf := hfuel hlt
      simp only [loopFuel, numDirectBlocks, blockSize] at *
      omega
  | succ fuel ih =>
      rw [writeLoop] at hw
      by_cases hlt : bytesWritten < buffer.length
      · simp only [if_pos hlt, hs.blockSize] at hw
        have hposle : pos ≤ (overwrite l o (buffer.take bytesWritten)).length := by omega
        by_cases hidx : pos / blockSize ≥ numDirectBlocks
        · rw [if_pos hidx] at hw
          cases hw
          refine ⟨⟨m, h⟩, hle, hpos, fun _ => Or.inl ?_⟩
          simp only [numDirectBlocks, blockSize] at *
          omega
        · rw [if_neg hidx] at hw
          cases hb : FileSystem.blockForWrite s i (pos / blockSize) with
          | none =>
              simp only [hb] at hw
              cases hw
              exact ⟨⟨m, h⟩, hle, hpos,
                fun _ => Or.inr ((blockForWrite_eq_none (by omega)).mp hb).2⟩
          | some r =>
              obtain ⟨b, s1⟩ := r
              obtain ⟨hs1, ⟨m1, h1⟩, hslot, hbs⟩ := h.blockForWrite hs hposle hb
              simp only [hb, hbs] at hw
              generalize hn : (if buffer.length - bytesWritten > blockSize - pos % blockSize
                then blockSize - pos % blockSize else buffer.length - bytesWritten) = n at hw
              have hmod : pos % blockSize < blockSize := Nat.mod_lt _ (by decide)
              have hfit : pos % blockSize + n ≤ blockSize ∧
                  n ≤ buffer.length - bytesWritten := by
                rw [← hn]
                split <;> omega
              set chunk := (buffer.drop bytesWritten).take n with hchunk
              have hclen : chunk.length = n := by
                rw [hchunk, List.length_take, List.length_drop]
                omega
              have hnext := h1.store hs1 hposle hslot chunk (by omega)
              have hjoin : overwrite (overwrite l o (buffer.take bytesWritten)) pos chunk
                  = overwrite l o (buffer.take (bytesWritten + n)) := by
                have htake : (buffer.take bytesWritten).length = bytesWritten := by
                  rw [List.length_take, Nat.min_eq_left hle]
                have happ := overwrite_append ho (buffer.take bytesWritten) chunk
                rw [htake, ← hpos] at happ
                rw [happ, hchunk, List.take_add]
              rw [hjoin] at hnext
              refine ih (hs1.setBytes _) hnext (by omega) (by omega) ?_ hw ?_ hnext.length_le
              · intro hmore
                -- there is more to write, so the turn went up to the end of its block
                have hend : n = blockSize - pos % blockSize := by
                  by_cases hc : buffer.length - bytesWritten > blockSize - pos % blockSize
                  · rw [← hn, if_pos hc]
                  · rw [if_neg hc] at hn
                    omega
                have hf := hfuel hlt
                have hstep := next_block (Nat.div_add_mod' pos blockSize) hmod
                rw [hend, ← hstep, Nat.mul_div_cancel _ (by decide)]
                omega
              · rw [length_overwrite ho, List.length_take, Nat.min_eq_left (by omega)]
      · rw [if_neg hlt] at hw
        cases hw
        exact ⟨⟨m, h⟩, hle, hpos, fun hlt' => absurd hlt' hlt⟩

/-- The loop does not touch the size. -/
theorem writeLoop_size (i : Fin maxInodes) (buffer : List UInt8) (fuel : Nat) (s : Fs Attached)
    (hs : s.superblock.blockSizeBytes = blockSize) (bytesWritten pos : Nat) :
    ((writeLoop i buffer fuel s bytesWritten pos).1.inodes i).fileSizeBytes
      = (s.inodes i).fileSizeBytes := by
  refine (writeLoop_invariant (P := fun t => t.superblock.blockSizeBytes = blockSize ∧
    (t.inodes i).fileSizeBytes = (s.inodes i).fileSizeBytes) i buffer (fun h => h.1) ?_
    (fun h _ _ => h) fuel ⟨hs, rfl⟩ bytesWritten pos).2
  rintro t k b ⟨h1, h2⟩ - - - -
  refine ⟨h1, ?_⟩
  rw [← h2]
  simp [decFreeBlocks, putBlock, setPtr, Fs.modifyInode]

/-- The size is set at the end, and the blocks stay. -/
theorem Content.grow (h : Content s i m l) (pos : Nat) :
    Content (s.modifyInode i (FileSystem.grow pos)) i m l := by
  have hslot : ∀ k, slot (s.modifyInode i (FileSystem.grow pos)) i k = slot s i k := by
    intro k
    simp only [slot, Fs.modifyInode, Function.update_self, inodeGetDirectBlock,
      (grow_frame pos (s.inodes i)).2.2]
  refine ⟨fun k hk => ?_, fun k hk => ?_, h.room, ?_⟩
  · rw [hslot]
    exact h.filled k hk
  · rw [hslot]
    exact h.empty k hk
  · exact h.shown.congr (by decide) (fun k _ => hslot k) (fun _ _ _ _ _ => rfl)

/-- `fs_write_file` on a file, begun at a position that is not behind the
end: the bytes it counts are in the file, and it stops early only at the
largest size or without a free block. -/
theorem FileIs.written (hs : Sound s) (h : FileIs s i l) (buffer : List UInt8) {pos : Nat}
    (hpos : pos ≤ l.length) {n : Nat}
    (hn : n = (writeLoop i buffer loopFuel s 0 pos).2.1) :
    FileIs (written s i buffer pos) i (overwrite l pos (buffer.take n)) ∧ n ≤ buffer.length ∧
      (n < buffer.length →
        ((written s i buffer pos).inodes i).fileSizeBytes = numDirectBlocks * blockSize ∨
          findFreeBlock (written s i buffer pos).intmap = none) := by
  obtain ⟨m, hm⟩ := h.content
  have hframe := (writeLoop_frame hs i buffer loopFuel 0 pos).frame
  have hsize := writeLoop_size i buffer loopFuel s hs.blockSize 0 pos
  rcases hw : writeLoop i buffer loopFuel s 0 pos with ⟨t, n', pos'⟩
  rw [hw] at hn hframe hsize
  obtain rfl : n = n' := hn
  have hstart : Content s i m (overwrite l pos (buffer.take 0)) := by
    rw [List.take_zero, overwrite_nil]
    exact hm
  obtain ⟨⟨m', hm'⟩, hle, hpos', hstop⟩ := writeLoop_content hpos loopFuel hs hstart
    (Nat.zero_le _) rfl (fun _ => Nat.le_add_right _ _) hw
  have hwritten : FileSystem.written s i buffer pos = t.modifyInode i (grow pos') := by
    simp only [FileSystem.written, hw]
  have hself : (t.modifyInode i (grow pos')).inodes i = grow pos' (t.inodes i) := by
    simp [Fs.modifyInode]
  have hlen : (overwrite l pos (buffer.take n)).length = max l.length pos' := by
    rw [length_overwrite hpos, List.length_take, Nat.min_eq_left hle, hpos']
  have hmax := hm'.length_le
  have hgrow : (grow pos' (t.inodes i)).fileSizeBytes = max l.length pos' := by
    have hold : (t.inodes i).fileSizeBytes = l.length := hsize.trans h.size
    rw [hlen] at hmax
    unfold grow
    rw [hold]
    split
    · show u32 pos' = _
      rw [u32_of_lt (by simp only [numDirectBlocks, blockSize] at hmax; omega)]
      omega
    · rw [hold]
      omega
  rw [hwritten]
  refine ⟨⟨?_, ?_, ?_, m', hm'.grow pos'⟩, hle, fun hlt => ?_⟩
  · rw [hself, (grow_frame pos' (t.inodes i)).1, hframe.type, h.type]
  · show t.intmap.inodes i = true
    rw [hframe.inodeMap, h.used]
  · rw [hself, hgrow, hlen]
  · rcases hstop hlt with hfull | hfree
    · left
      rw [hself, hgrow]
      rw [hlen] at hmax
      omega
    · exact Or.inr hfree

/-! ## `fisopfs_truncate` -/

/-- `fisopfs_truncate` to a shorter length. -/
theorem FileIs.truncated (hs : Sound s) (h : FileIs s i l) {size : Int} (h0 : 0 ≤ size)
    (hle : size ≤ l.length) : FileIs (truncated s i size) i (l.take size.toNat) := by
  obtain ⟨m, hm⟩ := h.content
  have hframe := truncated_frame hs i size
  have hmax := hm.length_le
  have hself : ((FileSystem.truncated s i size).inodes i).fileSizeBytes
      = (l.take size.toNat).length := by
    have hsz : u32 (toSize size) = size.toNat := by
      simp only [u32, toSize, numDirectBlocks, blockSize] at *
      omega
    rw [List.length_take, Nat.min_eq_left (by omega), ← hsz]
    simp [FileSystem.truncated, Fs.modifyInode]
  refine ⟨by rw [hframe.type, h.type], by rw [hframe.inodeMap, h.used], hself, ?_⟩
  by_cases hz : size = 0
  · -- the blocks are gone, and so are all bytes
    have hnone : ∀ k, slot (FileSystem.truncated s i size) i k = none := by
      intro k
      have hcleared := getDirectBlock_clearedTo (s.inodes i) k
      simp only [slot, FileSystem.truncated, hz, if_true, Fs.modifyInode, Function.update_self,
        releaseBlocks_eq s i (hs.slotsBelow i)]
      exact hcleared
    refine ⟨0, fun k hk => absurd hk (Nat.not_lt_zero k), fun k _ => hnone k, ?_, ?_⟩
    · simp [hz]
    · intro x hx
      simp [hz] at hx
  · have hslot : ∀ k, slot (FileSystem.truncated s i size) i k = slot s i k := by
      intro k
      simp [slot, FileSystem.truncated, hz, Fs.modifyInode, inodeGetDirectBlock]
    have hbytes : (FileSystem.truncated s i size).data.bytes = s.data.bytes := by
      simp [FileSystem.truncated, hz]
    refine ⟨m, ?_, ?_, ?_, ?_⟩
    · intro k hk
      rw [hslot]
      exact hm.filled k hk
    · intro k hk
      rw [hslot]
      exact hm.empty k hk
    · exact (hm.take _).room
    · refine (hm.take size.toNat).shown.congr (by decide) (fun k _ => hslot k) ?_
      intro _ _ _ a _
      rw [hbytes]

/-! ## `fs_create_file` -/

theorem FileIs.created (c : Ctx) (s : Fs Attached) (i : Fin maxInodes) (mode b : Nat)
    (data : Attached) : FileIs (installed s i (newFileInode c mode b) b data) i [] := by
  have hself : (installed s i (newFileInode c mode b) b data).inodes i
      = newFileInode c mode b := by
    simp [installed]
  have hslot : ∀ k, slot (installed s i (newFileInode c mode b) b data) i k
      = if k = 0 then some b else none := by
    intro k
    rw [slot, hself]
    by_cases hk : k = 0
    · subst hk
      rfl
    · simp [inodeGetDirectBlock, newFileInode, onePtr, hk]
  refine ⟨by rw [hself]; rfl, by simp [installed], by rw [hself]; rfl, 1, ?_, ?_, ?_, ?_⟩
  · intro k hk
    rw [hslot, if_pos (by omega)]
    simp
  · intro k hk
    rw [hslot, if_neg (by omega)]
  · exact Nat.zero_le _
  · intro x hx
    exact absurd hx (Nat.not_lt_zero x)

end

end SistemasOperativos.FileSystem
