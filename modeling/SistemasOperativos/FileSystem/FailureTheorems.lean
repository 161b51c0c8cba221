/-
SistemasOperativos.FileSystem.FailureTheorems — operations that fail.

A failed operation leaves maps, counters, directories and inodes as they
were: the undo sequences are exact. One of them cannot undo what was
stored. `fs_create_symlink` copies its target to the block it was given
before it knows that the parent has room, and it copies all of it: a
target longer than `BLOCK_SIZE` goes on into the following blocks, which
may belong to other files.
-/
import SistemasOperativos.FileSystem.NamespaceTheorems

namespace SistemasOperativos.FileSystem

/-! ## The specification -/

/-- Nothing but time stamps and the bytes of free blocks is different. -/
structure Untouched (s t : Fs Attached) : Prop where
  dirs : ∀ i, (s.inodes i).inodeType = .dir → t.data.dirs i = s.data.dirs i
  intmap : t.intmap = s.intmap
  superblock : t.superblock = s.superblock
  inodes : ∀ i, (t.inodes i).untimed = (s.inodes i).untimed
  bytes : ∀ a, t.data.bytes a ≠ s.data.bytes a →
    a / blockSize < maxBlocks ∧ s.intmap.blocks (a / blockSize) = false

theorem Untouched.same {s s' t t' : Fs Attached} (hs : Same s s') (ht : Same t t')
    (h : Untouched s' t') : Untouched s t := by
  have h1 : Untouched s t' := (hs.apply (fun s => Untouched s t') (fun _ => propext
    ⟨fun ⟨a, b, c, d, e⟩ => ⟨a, b, c, d, e⟩, fun ⟨a, b, c, d, e⟩ => ⟨a, b, c, d, e⟩⟩)).mpr h
  exact (ht.apply (fun t => Untouched s t) (fun _ => propext
    ⟨fun ⟨a, b, c, d, e⟩ => ⟨a, b, c, d, e⟩, fun ⟨a, b, c, d, e⟩ => ⟨a, b, c, d, e⟩⟩)).mpr h1

/-- `op` is a `fs_create_symlink` that copies its target past the end of
the block it was given, to a block that is in use or behind `data_block`. -/
def SpillsOver (s : Fs Attached) (op : Op) : Prop :=
  ∃ target b b', CopiesTarget s op target b ∧ b < b' ∧
    b' * blockSize < b * blockSize + target.length ∧
    ¬ (b' < maxBlocks ∧ s.intmap.blocks b' = false)

theorem SpillsOver.same {s t : Fs Attached} (h : Same s t) {op : Op} (hs : SpillsOver s op) :
    SpillsOver t op := by
  obtain ⟨target, b, b', ⟨linkpath, d, name, i, rfl, hp, he, hlen, hf⟩, hlt, hreach, hused⟩ := hs
  refine ⟨target, b, b', ⟨linkpath, d, name, i, rfl, ?_, ?_, hlen, hf.same h⟩, hlt, hreach, ?_⟩
  · rw [← resolveParent_same h, hp]
  · rw [← h.apply (fun s => s.data.dirs d) (fun _ => rfl), he]
  · rw [← h.apply (fun s => s.intmap) (fun _ => rfl)]
    exact hused

/-! ## Where the copied target goes -/

/-- The copy touches block `b` and the blocks the target reaches. -/
theorem symlinkBytes_ne {m : Memory} {b : Nat} {target : CStr} {a : Nat}
    (h : symlinkBytes m b target a ≠ m a) :
    a / blockSize = b ∨
      (b < a / blockSize ∧ a / blockSize * blockSize < b * blockSize + target.length) := by
  by_contra hno
  rw [not_or] at hno
  refine h ?_
  have hout : ¬ (blockAddr b 0 ≤ a ∧ a < blockAddr b 0 + target.length) := by
    rintro ⟨h1, h2⟩
    simp only [blockAddr, blockSize] at *
    omega
  rw [symlinkBytes, store, if_neg hout, memset_block]
  exact if_neg hno.1

theorem copied_bytes_free {s : Fs Attached} {op : Op} {target : CStr} {b : Nat}
    (hc : CopiesTarget s op target b) (hop : ¬ SpillsOver s op) {a : Nat}
    (h : symlinkBytes s.data.bytes b target a ≠ s.data.bytes a) :
    a / blockSize < maxBlocks ∧ s.intmap.blocks (a / blockSize) = false := by
  have hfresh : findFreeBlock s.intmap = some b := by
    obtain ⟨linkpath, d, name, i, -, -, -, -, hf⟩ := hc
    exact hf.block
  rcases symlinkBytes_ne h with hb | ⟨hlt, hreach⟩
  · rw [hb]
    exact findFreeBlock_some hfresh
  · by_contra hused
    exact hop ⟨target, b, a / blockSize, hc, hlt, hreach, hused⟩

/-! ## Failed steps -/

theorem Effect.untouched {u : User} {now : Int} {s t : Fs Attached} {op : Op} {r : Int}
    (he : Effect (u.at now) s op r t) (hs : Consistent u s) (hop : ¬ SpillsOver s op)
    (hr : r < 0) : Untouched s t := by
  cases he with
  | unchanged => exact ⟨fun _ _ => rfl, rfl, rfl, fun _ => rfl, fun _ h => absurd rfl h⟩
  | @rolledBack _ _ i data _ hi hdirs hbytes =>
      refine ⟨?_, rfl, rfl, ?_, ?_⟩
      · intro j hj
        exact hdirs j (fun hji => hs.notDir_of_unused hi (hji ▸ hj))
      · intro j
        by_cases hj : j = i
        · subst hj
          have hself : (reset (u.at now) s j data).inodes j = inodeInit (u.at now) := by
            simp [reset]
          rw [hself, hs.unused j hi]
          rfl
        · simp [reset, hj]
      · intro a ha
        rcases hbytes with hsame | ⟨target, b, hc, hcopy⟩
        · exact absurd (congrFun hsame a) ha
        · refine copied_bytes_free hc hop (a := a) ?_
          rw [← hcopy]
          exact ha
  | writeFile => omega
  | _ => omega

/-- A step that returns a negative code leaves the file system as it was,
unless it is a `fs_create_symlink` whose target spills over. -/
theorem failed_step_untouched {u : User} {s : Fs Attached}
    (h : Reachable u (fun s op _ => op.Plain ∧ ¬ LinkOverflows s op) s) {now : Int} {op : Op}
    {r : Int} {t : Fs Attached} (hop : ¬ SpillsOver s op)
    (hstep : step (u.at now) s op = .ok (r, t)) (hr : r < 0) : Untouched s t := by
  have hs : Consistent u s := by
    refine h.consistent (fun s op t hp => ⟨hp.2, ?_⟩)
    intro path d name i heq ht
    subst heq
    exact (hp.1 path (by simp [Op.paths])).realName_of_target ht
  obtain ⟨s', t', hss, htt, he⟩ := step_effect hs.sound hstep
  exact (he.untouched (hs.same hss) (fun hsp => hop (hsp.same hss.symm)) hr).same hss htt

/-! ## A full directory and a long target -/

/-- The names of the links that fill the root. -/
def linkName (k : Nat) : CStr := [(128 + k / 64).toUInt8, (128 + k % 64).toUInt8]

theorem linkName_inj {k l : Nat} (hk : k < 1024) (hl : l < 1024) (h : linkName k = linkName l) :
    k = l := by
  simp only [linkName, List.cons.injEq, and_true] at h
  have h1 := congrArg UInt8.toNat h.1
  have h2 := congrArg UInt8.toNat h.2
  simp only [Nat.toUInt8, UInt8.toNat_ofNat'] at h1 h2
  omega

/-- The first byte of a link name is no ASCII character. -/
theorem linkName_head {k : Nat} (hk : k < 1024) {c : UInt8} (hc : c.toNat < 128) (cs : CStr) :
    linkName k ≠ c :: cs := by
  intro h
  simp only [linkName, List.cons.injEq] at h
  have h1 := congrArg UInt8.toNat h.1
  simp only [Nat.toUInt8, UInt8.toNat_ofNat'] at h1
  omega

theorem slash_notMem_linkName {k : Nat} (hk : k < 1024) : slash ∉ linkName k := by
  intro h
  simp only [linkName, List.mem_cons, List.not_mem_nil, or_false] at h
  rcases h with h | h
  all_goals
    have h1 := congrArg UInt8.toNat h
    simp only [Nat.toUInt8, UInt8.toNat_ofNat', slash] at h1
    have : (47 : UInt8).toNat = 47 := rfl
    omega

/-- Operations that create and remove names. -/
def Op.naming : Op → Bool
  | .createFile .. | .createDirectory .. | .createSymlink .. | .createHardLink .. => true
  | .deleteFile .. | .removeDirectory .. => true
  | _ => false

/-- Inode 2 is called `g` and has `n` more links in the root. Block 1 is
free, block 2 is in use and starts with a zero. -/
structure Crowded (n : Nat) (s : Fs Attached) : Prop where
  root : s.data.dirs 0 =
    [⟨dot, 0⟩, ⟨dotDot, 0⟩, ⟨[103], 2⟩] ++ (List.range n).map (fun k => ⟨linkName k, 2⟩)
  dir : getDirectoryByInode s 0 = some ⟨0, 0⟩
  file : (s.inodes 2).inodeType = .file
  links : (s.inodes 2).hardLinksCount = n + 1
  inode : s.intmap.inodes 1 = false
  block : findFreeBlock s.intmap = some 1
  used : s.intmap.blocks 2 = true
  byte : s.data.bytes 8192 = 0

theorem Crowded.same {n : Nat} {s t : Fs Attached} (h : Same s t) (hs : Crowded n s) :
    Crowded n t :=
  (h.apply (Crowded n) (fun _ => propext
    ⟨fun ⟨a, b, c, d, e, f, g, i⟩ => ⟨a, b, c, d, e, f, g, i⟩,
      fun ⟨a, b, c, d, e, f, g, i⟩ => ⟨a, b, c, d, e, f, g, i⟩⟩)).mp hs

/-- A directory whose names are ASCII but for the first links has no entry
for the next one. -/
theorem linkName_free {base : Directory} (hbase : ∀ e ∈ base, ∃ c cs, e.name = c :: cs ∧
    c.toNat < 128) {n : Nat} (hn : n < 1024) (ino : Nat) :
    Directory.entryNamed (base ++ (List.range n).map (fun k => ⟨linkName k, ino⟩)) (linkName n)
      = none := by
  rw [Directory.entryNamed, List.find?_eq_none]
  intro e he
  rw [List.mem_append, List.mem_map] at he
  rw [beq_iff_eq]
  rcases he with he | ⟨k, hk, rfl⟩
  · obtain ⟨c, cs, hname, hc⟩ := hbase e he
    rw [hname]
    exact fun heq => linkName_head hn hc cs heq.symm
  · have hlt := List.mem_range.mp hk
    intro heq
    have := linkName_inj (by omega) hn heq
    omega

theorem Crowded.free {n : Nat} {s : Fs Attached} (hs : Crowded n s) (hn : n < 1024) {name : CStr}
    (h : name = [115] ∨ name = linkName n) : (s.data.dirs 0).entryNamed name = none := by
  rw [hs.root]
  rcases h with rfl | rfl
  · rw [Directory.entryNamed, List.find?_eq_none]
    intro e he
    rw [List.mem_append, List.mem_map] at he
    rcases he with he | ⟨k, hk, rfl⟩
    · simp only [List.mem_cons, List.not_mem_nil, or_false] at he
      rcases he with rfl | rfl | rfl <;> decide
    · have := List.mem_range.mp hk
      simpa using linkName_head (by omega : k < 1024) (c := 115) (by decide) []
  · refine linkName_free (fun e he => ?_) hn 2
    simp only [List.mem_cons, List.not_mem_nil, or_false] at he
    rcases he with rfl | rfl | rfl <;> exact ⟨_, _, rfl, by decide⟩

theorem child_g {n : Nat} {s : Fs Attached} (hs : Crowded n s) : child s 0 [103] = some 2 := by
  have hentry : (s.data.dirs 0).entryNamed [103] = some ⟨[103], 2⟩ := by
    rw [hs.root]
    rfl
  simp only [child, hs.dir, hentry]
  rfl

theorem strtok_slash {name : CStr} (hne : name ≠ []) (hns : slash ∉ name) :
    strtok (slash :: name) = [name] := by
  have h := strtok_append_slash [] name
  rw [strtok_nil, List.nil_append, List.nil_append] at h
  rw [h, strtok_of_no_slash hne hns]

theorem resolveParent_slash {s : Fs Attached} (hroot : s.superblock.rootInodeNumber = 0)
    {name : CStr} (hne : name ≠ []) (hshort : name.length < maxFilenameLen) (hns : slash ∉ name) :
    resolveParent s (slash :: name) = .ok (0, name) := by
  have h : resolveParent s ([] ++ slash :: name) = .ok (0, name) := by
    refine resolveParent_of_walk ?_ (by rw [strtok_nil]; simp) hne hshort hns
      (by rw [strtok_nil, hroot]; rfl)
    simp only [List.nil_append, List.length_cons, maxPathLen, maxFilenameLen] at *
    omega
  exact h

theorem plainPath_slash {name : CStr} (hne : name ≠ []) (hns : slash ∉ name)
    (hr : realName name = true) : PlainPath (slash :: name) := by
  have htok := strtok_slash hne hns
  refine ⟨rfl, ?_, ?_⟩
  · rw [htok]
    simp [maxDirDepth]
  · rw [htok]
    simpa using hr

/-- One more link. -/
theorem Crowded.link {u : User} {P : Fs Attached → Op → Fs Attached → Prop}
    (hP : ∀ s op t, op.Plain → op.naming = true → ¬ LinkOverflows s op → P s op t) {n : Nat}
    (hn : n < 1021)
    {s : Fs Attached} (hreach : Reachable u P s) (hs : Crowded n s) :
    ∃ t, Reachable u P t ∧ Crowded (n + 1) t := by
  have hsound := hreach.sound
  have hname : linkName n ≠ [] := by simp [linkName]
  have hns : slash ∉ linkName n := slash_notMem_linkName (by omega)
  have hreal : realName (linkName n) = true := by
    rw [realName_iff]
    exact ⟨linkName_head (by omega) (by decide) _, linkName_head (by omega) (by decide) _⟩
  have hsrc : resolve s (slash :: [103]) = .ok 2 := by
    refine resolve_ok.mpr ⟨by decide, by decide, by decide +kernel, ?_⟩
    rw [strtok_slash (by decide) (by decide), hsound.root, walk, child_g hs]
    rfl
  have hpar : resolveParent s (slash :: linkName n) = .ok (0, linkName n) :=
    resolveParent_slash hsound.root hname (by simp [linkName, maxFilenameLen]) hns
  have hadd : CanAdd s 0 (linkName n) := by
    refine ⟨(getDirectoryByInode_some hs.dir).1, hs.free (by omega) (Or.inr rfl), ?_, ?_, ?_⟩
    · rw [hs.root]
      simp only [List.length_append, List.length_cons, List.length_nil, List.length_map,
        List.length_range, maxBlocks]
      omega
    · simp [linkName]
    · simp [linkName, maxFilenameLen]
  obtain ⟨s', t, hss, hstep, ht⟩ := fsCreateHardLink_file (u.at 0) hsound hsrc
    (by rw [hs.file]; decide) hpar hs.dir hadd
  have hs' := hs.same hss.symm
  refine ⟨t, ?_, ?_⟩
  · obtain ⟨now, hrun⟩ := hreach
    refine ⟨now, hrun.tail
      ⟨0, .createHardLink (slash :: [103]) (slash :: linkName n), 0, hstep, hP _ _ _ ?_ rfl ?_⟩⟩
    · intro path hpath
      simp only [Op.paths, List.mem_cons, List.not_mem_nil, or_false] at hpath
      rcases hpath with rfl | rfl
      · exact plainPath_slash (by decide) (by decide) (by decide)
      · exact plainPath_slash hname hns hreal
    · rintro ⟨source, dest, src, d, name, heq, hr, -, -, -, hlinks⟩
      obtain ⟨rfl, rfl⟩ := Op.createHardLink.inj heq
      rw [hsrc] at hr
      obtain rfl := Except.ok.inj hr
      rw [hs.links] at hlinks
      omega
  · rw [ht]
    have hself : (inodeIncrementLinks 2
        { s' with data := withEntry s'.data 0 (linkName n) 2 }).inodes 2
        = { s'.inodes 2 with hardLinksCount := u16Inc (s'.inodes 2).hardLinksCount } := by
      simp [inodeIncrementLinks, Fs.modifyInode]
    have hother : (inodeIncrementLinks 2
        { s' with data := withEntry s'.data 0 (linkName n) 2 }).inodes 0 = s'.inodes 0 := by
      simp [inodeIncrementLinks, Fs.modifyInode]
    refine ⟨?_, ?_, ?_, ?_, hs'.inode, hs'.block, hs'.used, hs'.byte⟩
    · show (withEntry s'.data 0 (linkName n) 2).dirs 0 = _
      rw [withEntry_dirs_self, hs'.root, List.range_succ, List.map_append, List.append_assoc]
      rfl
    · rw [← hs'.dir, getDirectoryByInode, getDirectoryByInode, hother]
    · rw [hself]
      exact hs'.file
    · rw [hself]
      show u16Inc (s'.inodes 2).hardLinksCount = _
      rw [hs'.links]
      simp only [u16Inc, u16]
      omega

theorem exists_crowded {P : Fs Attached → Op → Fs Attached → Prop}
    (hP : ∀ s op t, op.Plain → op.naming = true → ¬ LinkOverflows s op → P s op t) {n : Nat}
    (hn : n ≤ 1021) :
    ∃ s, Reachable ⟨0, 0⟩ P s ∧ Crowded n s := by
  induction n with
  | zero =>
      obtain ⟨s, hs, hv⟩ := runOps_eval (User.at ⟨0, 0⟩ 0) (fsInit (User.at ⟨0, 0⟩ 0))
        [.createFile (cstr "/f") 6, .createFile (cstr "/g") 6, .deleteFile (cstr "/f")]
        (fun s : Fs Attached => decide (s.data.dirs 0 = [⟨dot, 0⟩, ⟨dotDot, 0⟩, ⟨[103], 2⟩] ∧
          getDirectoryByInode s 0 = some ⟨0, 0⟩ ∧ (s.inodes 2).inodeType = .file ∧
          (s.inodes 2).hardLinksCount = 1 ∧ s.intmap.inodes 1 = false ∧
          findFreeBlock s.intmap = some 1 ∧ s.intmap.blocks 2 = true ∧ s.data.bytes 8192 = 0))
        true (by decide +kernel)
      obtain ⟨h1, h2, h3, h4, h5, h6, h7, h8⟩ := of_decide_eq_true hv
      refine ⟨s, ⟨0, runOps_reaches ?_ hs⟩, ⟨by simpa using h1, h2, h3, h4, h5, h6, h7, h8⟩⟩
      intro op hop s t
      refine hP s op t ?_ ?_ ?_
      · revert op
        decide +kernel
      · revert op
        decide
      · rintro ⟨source, dest, src, d, name, rfl, -⟩
        simp at hop
  | succ n ih =>
      obtain ⟨s, hreach, hs⟩ := ih (by omega)
      exact hs.link hP (by omega) hreach

/-- The symbolic link for which the root has no room. -/
theorem Crowded.symlink {u : User} {s : Fs Attached} (hsound : Sound s) (hs : Crowded 1021 s)
    {target : CStr} (hlen : target.length < numDirectBlocks * blockSize) :
    ∃ t, step (u.at 0) s (.createSymlink target (slash :: [115])) = .ok (-enospc, t) ∧
      t.data.bytes = symlinkBytes s.data.bytes 1 target := by
  obtain ⟨s1, h1, hsame⟩ := fsResolveParent_eq (u.at 0) hsound.dirs (slash :: [115])
  have hs1 := hs.same hsame.symm
  have hsound1 := hsound.same hsame.symm
  have hpar : resolveParent s (slash :: [115]) = .ok (0, [115]) :=
    resolveParent_slash hsound.root (by decide) (by decide) (by decide)
  have hfree := hs1.free (by decide) (Or.inl rfl)
  have hlook : ¬ directoryLookup s1.data ⟨0, 0⟩ [115] ≥ 0 := by
    have : directoryLookup s1.data ⟨0, 0⟩ [115] = -1 := Directory.lookup_of_entryNamed_none hfree
    rw [this]
    decide
  cases ha : allocateInode (u.at 0) s1 with
  | none =>
      have := allocateInode_none ha 1
      rw [hs1.inode] at this
      cases this
  | some r =>
      obtain ⟨i, s2⟩ := r
      have hfull : directoryAddEntry
          { s1.data with bytes := symlinkBytes s1.data.bytes 1 target } ⟨0, 0⟩ [115] i = none := by
        show ((s1.data.dirs 0).addEntry [115] i).map _ = none
        have hlen : (s1.data.dirs 0).length = maxBlocks := by
          rw [hs1.root]
          simp [maxBlocks]
        rw [Directory.addEntry, if_neg (by decide), if_pos (by omega)]
        rfl
      refine ⟨reset (u.at 0) s1 i
        { s1.data with bytes := symlinkBytes s1.data.bytes 1 target }, ?_, ?_⟩
      · rw [step, fsCreateSymlink, h1, hpar]
        simp only [createSymlinkIn_eq _ hsound1 hs1.dir hlook ha, hs1.block, hfull]
        rw [if_neg (not_le.mpr hlen)]
      · show symlinkBytes s1.data.bytes 1 target = _
        rw [hsame.apply (fun s => s.data.bytes) (fun _ => rfl)]

/-- With the root full, a symbolic link to one byte has its inode and its
block, and the byte in it, when it finds no room for its name: it gives
both back, and only the free block is different. -/
theorem failed_symlink_untouched :
    ∃ s t : Fs Attached, Reachable ⟨0, 0⟩ (fun s op _ => op.Plain ∧ ¬ LinkOverflows s op) s ∧
      step (User.at ⟨0, 0⟩ 0) s (.createSymlink [65] (cstr "/s")) = .ok (-enospc, t) ∧
      t.data.bytes (blockAddr 1 0) = 65 ∧ t.intmap = s.intmap ∧ s.intmap.blocks 1 = false ∧
      Untouched s t := by
  obtain ⟨s, hreach, hs⟩ := exists_crowded
    (P := fun s op _ => op.Plain ∧ ¬ LinkOverflows s op) (fun _ _ _ h1 _ h2 => ⟨h1, h2⟩)
    (Nat.le_refl 1021)
  have hshort : ([65] : CStr).length < numDirectBlocks * blockSize := by decide
  obtain ⟨t, hstep, hbytes⟩ := hs.symlink (u := ⟨0, 0⟩) hreach.sound hshort
  have hun : Untouched s t := by
    refine failed_step_untouched hreach ?_ hstep (by decide)
    rintro ⟨target, b, b', ⟨linkpath, d, name, i, heq, -⟩, hlt, hreach, -⟩
    obtain ⟨rfl, -⟩ := Op.createSymlink.inj heq
    simp only [List.length_singleton, blockSize] at hreach
    omega
  refine ⟨s, t, hreach, hstep, ?_, hun.intmap, (findFreeBlock_some hs.block).2, hun⟩
  rw [hbytes, symlinkBytes, store, if_pos (by decide)]
  rfl

/-- With the root full, a symbolic link to 4097 bytes returns `-ENOSPC`
and leaves the last of them in block 2, which is another file's. -/
theorem failed_symlink_overwrites :
    ∃ s t : Fs Attached, Reachable ⟨0, 0⟩ (fun s op _ => op.Plain ∧ ¬ LinkOverflows s op) s ∧
      step (User.at ⟨0, 0⟩ 0) s (.createSymlink (List.replicate 4097 65) (cstr "/s"))
        = .ok (-enospc, t) ∧
      s.intmap.blocks 2 = true ∧ s.data.bytes 8192 = 0 ∧ t.data.bytes 8192 = 65 ∧
      ¬ Untouched s t := by
  obtain ⟨s, hreach, hs⟩ := exists_crowded
    (P := fun s op _ => op.Plain ∧ ¬ LinkOverflows s op) (fun _ _ _ h1 _ h2 => ⟨h1, h2⟩)
    (Nat.le_refl 1021)
  have hlong : (List.replicate 4097 (65 : UInt8)).length < numDirectBlocks * blockSize := by
    rw [List.length_replicate]
    decide
  obtain ⟨t, hstep, hbytes⟩ := hs.symlink (u := ⟨0, 0⟩) hreach.sound hlong
  have hnew : t.data.bytes 8192 = 65 := by
    have hin : blockAddr 1 0 ≤ 8192 ∧
        8192 < blockAddr 1 0 + (List.replicate 4097 (65 : UInt8)).length := by
      rw [List.length_replicate]
      decide
    rw [hbytes, symlinkBytes, store, if_pos hin]
    have hidx : 8192 - blockAddr 1 0 = 4096 := rfl
    rw [hidx, List.getD_eq_getElem?_getD, List.getElem?_replicate_of_lt (by decide)]
    rfl
  refine ⟨s, t, hreach, hstep, hs.used, hs.byte, hnew, ?_⟩
  intro hun
  have := hun.bytes 8192 (by rw [hnew, hs.byte]; decide)
  rw [show 8192 / blockSize = 2 from rfl, hs.used] at this
  cases this.2

end SistemasOperativos.FileSystem
