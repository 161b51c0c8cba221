/-
SistemasOperativos.FileSystem.SymlinkTheorems — `fs_read_symlink` after
`fs_create_symlink`.

The target is checked against the limit for a file, twelve blocks, and
copied to the one block the link has. Both functions walk the bytes from
the start of that block on, so what was stored is what is read, as long
as it ends inside `data_block`, the last member of `filesystem_t`. The
bytes past the block belong to other blocks, and behind the last one to
nobody: the copy is sound exactly when it ends inside and those blocks
hold the rest of the target already, which a target of at most one block
has none of.
-/
import SistemasOperativos.FileSystem.ResolverTheorems
import SistemasOperativos.FileSystem.FlatTheorems

namespace SistemasOperativos.FileSystem

/-! ## The specification -/

/-- `fs_read_symlink` on `path` stores the target, cut to the buffer, and
a NUL. -/
def ReadsBack (u : User) (t : Fs Attached) (path target : CStr) : Prop :=
  ∀ (now : Int) (k : Nat), 1 ≤ k → k < 2 ^ 64 →
    ∃ t', fsReadSymlink (u.at now) t path k
      = .ok ((0, target.take (min target.length (k - 1)) ++ [0]), t')

/-- `memcpy` in `fs_create_symlink` stores inside `data_block`, and so
inside the memory of the file system. -/
def CopiedInside (s : Fs Attached) (target : CStr) : Prop :=
  ∀ b, findFreeBlock s.intmap = some b → blockAddr b 0 + target.length ≤ maxBlocks * blockSize

/-- Every byte that has changed is in the block that `find_free_block`
hands out. -/
def OnlyFreeBlockChanged (s t : Fs Attached) : Prop :=
  ∀ a, t.data.bytes a ≠ s.data.bytes a → findFreeBlock s.intmap = some (a / blockSize)

/-- The target ends inside `data_block`, and what follows the first free
block is already the rest of it. There is no rest when the target fits in
a block. -/
structure RestInPlace (s : Fs Attached) (target : CStr) : Prop where
  inside : ∀ b, findFreeBlock s.intmap = some b →
    b * blockSize + target.length ≤ maxBlocks * blockSize
  rest : ∀ b x, findFreeBlock s.intmap = some b → blockSize ≤ x → x < target.length →
    s.data.bytes (blockAddr b x) = target.getD x 0

theorem restInPlace_of_fits {s : Fs Attached} {target : CStr} (h : target.length ≤ blockSize) :
    RestInPlace s target where
  inside := by
    intro b hb
    have hlt := (findFreeBlock_some hb).1
    have hrow : (b + 1) * blockSize ≤ maxBlocks * blockSize := Nat.mul_le_mul_right _ hlt
    rw [Nat.succ_mul] at hrow
    omega
  rest := by
    intro b x _ hx hlt
    omega

/-! ## The bytes of the target -/

theorem load_take (m : Memory) (a : Nat) {n len : Nat} (h : n ≤ len) :
    load m a n = (load m a len).take n := by
  rw [load, load, ← List.map_take, List.take_range, Nat.min_eq_left h]

/-- The first bytes of the target, read from its block on. -/
theorem load_symlinkBytes (m : Memory) (b : Nat) {target : CStr} {n : Nat}
    (h : n ≤ target.length) :
    load (symlinkBytes m b target) (blockAddr b 0) n = target.take n := by
  rw [load_take _ _ h, symlinkBytes, Flat.load_store_self]

/-- Past its block, the copy stores the rest of the target. -/
theorem symlinkBytes_past (m : Memory) {b x : Nat} {target : CStr} (hx : blockSize ≤ x) :
    symlinkBytes m b target (blockAddr b x)
      = if x < target.length then target.getD x 0 else m (blockAddr b x) := by
  have hin : (blockAddr b 0 ≤ blockAddr b x ∧ blockAddr b x < blockAddr b 0 + target.length) ↔
      x < target.length := by
    simp only [blockAddr]
    omega
  have hoff : blockAddr b x - blockAddr b 0 = x := by
    simp only [blockAddr]
    omega
  have hblock : blockAddr b x / blockSize ≠ b := by
    simp only [blockAddr, blockSize] at *
    omega
  rw [symlinkBytes, store, memset_block, hoff]
  simp only [hin, if_neg hblock]

/-- Before its block, nothing. -/
theorem symlinkBytes_before (m : Memory) {b a : Nat} {target : CStr} (ha : a < blockAddr b 0) :
    symlinkBytes m b target a = m a := by
  have hblock : a / blockSize ≠ b := by
    simp only [blockAddr, blockSize] at *
    omega
  rw [symlinkBytes, store, if_neg (by omega), memset_block]
  simp only [if_neg hblock]

/-! ## After a creation -/

theorem symlink_readsBack {c : Ctx} {s t : Fs Attached} (hs : Sound s) {target path : CStr}
    (hdeep : (strtok path).length ≤ maxDirDepth)
    (h : fsCreateSymlink c s target path = .ok (0, t)) (u : User) :
    ReadsBack u t path target := by
  have hstep : step c s (.createSymlink target path) = .ok (0, t) := h
  have ht : Sound t := step_sound hs hstep
  obtain ⟨s', d, name, i, b, hsame, hp, hdir, hadd, hlen, hf, rfl⟩ := fsCreateSymlink_zero hs h
  set n := newSymlinkInode c target b with hn
  set data : Attached := { s'.data with bytes := symlinkBytes s'.data.bytes b target }
  have hlinked := Linked.ofInstalled (hs.same hsame) hp hdir hadd hf data (fun _ _ => rfl) n
  have hr : resolve (installed s' i n b (withEntry data d name i)) path = .ok i :=
    (resolve_of_target (hlinked.target_of hp)).mpr (by omega)
  have hself : (installed s' i n b (withEntry data d name i)).inodes i = n := by
    simp [installed]
  intro now k hk hmax
  obtain ⟨t', h1, hsame'⟩ := fsResolvePath_eq (u.at now) ht.dirs path
  have htype : (t'.inodes i).inodeType = .symlink := by
    rw [hsame'.apply (fun s => (s.inodes i).inodeType) (fun _ => rfl), hself]
    rfl
  have hslot : inodeGetDirectBlock (t'.inodes i) 0 = some b := by
    rw [hsame'.apply (fun s => inodeGetDirectBlock (s.inodes i) 0) (fun _ => rfl), hself]
    rfl
  have hsize : (t'.inodes i).fileSizeBytes = target.length := by
    rw [hsame'.apply (fun s => (s.inodes i).fileSizeBytes) (fun _ => rfl), hself]
    show u32 target.length = _
    simp only [u32, numDirectBlocks, blockSize] at *
    omega
  have hbytes : t'.bytes = symlinkBytes s'.data.bytes b target :=
    hsame'.apply (fun s => s.data.bytes) (fun _ => rfl)
  have hroom : toSize ((k : Int) - 1) = k - 1 := by
    simp only [toSize]
    omega
  have hcopy : (if target.length < k - 1 then target.length else k - 1)
      = min target.length (k - 1) := by
    split <;> omega
  refine ⟨t', ?_⟩
  rw [fsReadSymlink, h1, hr]
  simp only [htype, hslot, hsize, hroom, hcopy, hbytes]
  rw [if_neg (by decide), load_symlinkBytes _ _ (Nat.min_le_left _ _)]

theorem copiedInside_iff {s : Fs Attached} {target : CStr} :
    CopiedInside s target ↔ ∀ b, findFreeBlock s.intmap = some b →
      b * blockSize + target.length ≤ maxBlocks * blockSize := by
  simp only [CopiedInside, blockAddr, Nat.add_zero]

theorem symlink_frame_iff {c : Ctx} {s t : Fs Attached} (hs : Sound s) {target path : CStr}
    (h : fsCreateSymlink c s target path = .ok (0, t)) :
    CopiedInside s target ∧ OnlyFreeBlockChanged s t ↔ RestInPlace s target := by
  obtain ⟨s', d, name, i, b, hsame, -, -, -, -, hf, rfl⟩ := fsCreateSymlink_zero hs h
  have hbytes : s.data.bytes = s'.data.bytes := hsame.apply (fun s => s.data.bytes) (fun _ => rfl)
  have hblock : findFreeBlock s.intmap = some b :=
    (hsame.apply (fun s => findFreeBlock s.intmap) (fun _ => rfl)).trans hf.block
  have hafter : (installed s' i (newSymlinkInode c target b) b (withEntry
      { s'.data with bytes := symlinkBytes s'.data.bytes b target } d name i)).data.bytes
      = symlinkBytes s.data.bytes b target := by
    rw [hbytes]
    rfl
  rw [OnlyFreeBlockChanged, hafter, hblock, copiedInside_iff]
  constructor
  · rintro ⟨hinside, hframe⟩
    refine ⟨hinside, fun b₁ x hb₁ hx hlt => ?_⟩
    rw [hblock, Option.some.injEq] at hb₁
    subst hb₁
    -- byte `x` of the target is not in block `b`, so it was there before
    by_contra hne
    have hin := hframe (blockAddr b x) (by
      rw [symlinkBytes_past _ hx, if_pos hlt]
      exact fun heq => hne heq.symm)
    rw [Option.some.injEq] at hin
    simp only [blockAddr, blockSize] at *
    omega
  · rintro ⟨hinside, hrest⟩
    refine ⟨hinside, fun a hne => ?_⟩
    rw [Option.some.injEq]
    by_contra hother
    by_cases hlt : a < blockAddr b 0
    · exact hne (symlinkBytes_before _ hlt)
    · have haddr : a = blockAddr b (a - blockAddr b 0) := by
        simp only [blockAddr] at *
        omega
      have hpast : blockSize ≤ a - blockAddr b 0 := by
        simp only [blockAddr, blockSize] at *
        omega
      rw [haddr, symlinkBytes_past _ hpast] at hne
      split at hne
      · rename_i hx
        exact hne (hrest b _ hblock hpast hx).symm
      · exact hne rfl

/-- What `fs_create_symlink` accepts is what `fs_read_symlink` returns, if
the copy stays inside. It does, and leaves every other block alone,
exactly when the part of the target past one block is already in place. -/
theorem symlink_round_trip_iff {u : User} {P : Fs Attached → Op → Fs Attached → Prop}
    {s t : Fs Attached} {now : Int} {target path : CStr} (hreach : Reachable u P s)
    (hdeep : (strtok path).length ≤ 16)
    (h : step (u.at now) s (.createSymlink target path) = .ok (0, t)) :
    (CopiedInside s target → ReadsBack u t path target) ∧
      (CopiedInside s target ∧ ReadsBack u t path target ∧ OnlyFreeBlockChanged s t ↔
        RestInPlace s target) := by
  have hread := symlink_readsBack hreach.sound hdeep h u
  have hframe := symlink_frame_iff hreach.sound h
  refine ⟨fun _ => hread, ?_⟩
  rw [← hframe]
  constructor
  · rintro ⟨hinside, -, hchanged⟩
    exact ⟨hinside, hchanged⟩
  · rintro ⟨hinside, hchanged⟩
    exact ⟨hinside, hread, hchanged⟩

/-- A link of one component to three bytes. -/
theorem symlink_round_trip_iff_short :
    ∃ s t : Fs Attached, Reachable ⟨0, 0⟩ (fun _ _ _ => True) s ∧
      step (User.at ⟨0, 0⟩ 0) s (.createSymlink (cstr "abc") (cstr "/s")) = .ok (0, t) ∧
      CopiedInside s (cstr "abc") ∧ ReadsBack ⟨0, 0⟩ t (cstr "/s") (cstr "abc") ∧
      OnlyFreeBlockChanged s t := by
  have hreach : Reachable ⟨0, 0⟩ (fun _ _ _ => True)
      (fsInit (User.at ⟨0, 0⟩ 0) : Fs Attached) := ⟨0, .refl⟩
  obtain ⟨t, ht⟩ := result_eval (x := step (User.at ⟨0, 0⟩ 0)
    (fsInit (User.at ⟨0, 0⟩ 0) : Fs Attached) (.createSymlink (cstr "abc") (cstr "/s")))
    (r := 0) (by decide +kernel)
  obtain ⟨-, hiff⟩ := symlink_round_trip_iff hreach (by decide +kernel) ht
  exact ⟨_, t, hreach, ht, hiff.mpr (restInPlace_of_fits (by decide))⟩

/-- The link to 4097 bytes takes block 1, and its last byte goes to block
2. -/
theorem symlink_spills :
    ∃ s t : Fs Attached, Reachable ⟨0, 0⟩ (fun _ _ _ => True) s ∧
      step (User.at ⟨0, 0⟩ 0) s (.createSymlink (List.replicate 4097 65) (cstr "/s"))
        = .ok (0, t) ∧
      ¬ OnlyFreeBlockChanged s t := by
  have hreach : Reachable ⟨0, 0⟩ (fun _ _ _ => True)
      (fsInit (User.at ⟨0, 0⟩ 0) : Fs Attached) := ⟨0, .refl⟩
  obtain ⟨t, ht⟩ := result_eval (x := step (User.at ⟨0, 0⟩ 0)
    (fsInit (User.at ⟨0, 0⟩ 0) : Fs Attached)
      (.createSymlink (List.replicate 4097 65) (cstr "/s"))) (r := 0) (by decide +kernel)
  refine ⟨_, t, hreach, ht, fun hframe => ?_⟩
  have hcreate : fsCreateSymlink _ _ (List.replicate 4097 65) (cstr "/s") = .ok (0, t) := ht
  have hinside : CopiedInside (fsInit (User.at ⟨0, 0⟩ 0) : Fs Attached) (List.replicate 4097 65) := by
    intro b hb
    have hone : findFreeBlock (fsInit (User.at ⟨0, 0⟩ 0) : Fs Attached).intmap = some 1 := by
      decide +kernel
    rw [hone, Option.some.injEq] at hb
    rw [← hb, List.length_replicate]
    decide
  have hrest := ((symlink_frame_iff hreach.sound hcreate).mp ⟨hinside, hframe⟩).rest
  have hbyte := hrest 1 4096 (by decide +kernel) (by decide) (by rw [List.length_replicate]; decide)
  exact absurd hbyte (by decide +kernel)

end SistemasOperativos.FileSystem
