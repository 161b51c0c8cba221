/-
SistemasOperativos.FileSystem.CreationTheorems — what a creation that
returns 0 has done.

`step_effect` lists everything a step can do; a creation that returns 0
has done exactly one of these things, because its last action was to add
an entry. `Linked` is what the four creations have in common: one more
entry, and every entry that was there is found as before. From it follows
where the new path leads.
-/
import SistemasOperativos.FileSystem.FileHistoryTheorems

namespace SistemasOperativos.FileSystem

/-! ## The last action -/

variable {c : Ctx} {s t : Fs Attached} {d : Fin maxInodes} {name path : CStr}

/-- `directory_add_entry` makes a directory longer. -/
theorem dirs_ne_of_addEntry {data data' : Attached} {p : DirPtr} {i : Nat}
    (h : directoryAddEntry data p name i = some data')
    (hdata : data.dirs p.inode = s.data.dirs p.inode) : data'.dirs ≠ s.data.dirs := by
  have h' : ((data.dirs p.inode).addEntry name i).map (data.setDir p.inode) = some data' := h
  rw [Option.map_eq_some_iff] at h'
  obtain ⟨dir, hdir, rfl⟩ := h'
  obtain ⟨-, -, -, -, rfl⟩ := Directory.addEntry_some hdir
  intro heq
  have hlen := congrArg List.length (congrFun heq p.inode)
  rw [← hdata] at hlen
  simp [Attached.setDir] at hlen

theorem addDirectBlock_data {i : Fin maxInodes} {b : Nat}
    (h : inodeAddDirectBlock s i b = some t) : t.data = s.data := by
  obtain ⟨k, -, -, -, rfl⟩ := addDirectBlock_some h
  rfl

/-- A result 0 goes with a parent `d` that has a directory, and with
directories that have changed. -/
def Grows (s : Fs Attached) (d : Fin maxInodes) (p : Int × Fs Attached) : Prop :=
  p.1 = 0 → (∃ q, getDirectoryByInode s d = some q) ∧ p.2.data.dirs ≠ s.data.dirs

theorem grows_of_code {r : Int} (hr : r ≠ 0) (s t : Fs Attached) (d : Fin maxInodes) :
    Grows s d (r, t) := fun h => absurd h hr

theorem createFileIn_grows (c : Ctx) (s : Fs Attached) (d : Fin maxInodes) (name : CStr)
    (mode : Nat) : Grows s d (createFileIn c s d name mode) := by
  unfold createFileIn
  split
  · exact grows_of_code (by decide) _ _ _
  · rename_i q hdir
    split
    · exact grows_of_code (by decide) _ _ _
    · split
      · exact grows_of_code (by decide) _ _ _
      · rename_i i s1 ha
        obtain ⟨-, rfl⟩ := allocateInode_some ha
        dsimp only
        split
        · exact grows_of_code (by decide) _ _ _
        · rename_i s2 hblock
          obtain ⟨b, -, hadd⟩ := Option.bind_eq_some_iff.mp hblock
          have hdata : s2.data = s.data := (addDirectBlock_data hadd).trans rfl
          split
          · exact grows_of_code (by decide) _ _ _
          · rename_i data hentry
            exact fun _ => ⟨⟨q, hdir⟩, dirs_ne_of_addEntry hentry (by rw [← hdata]; rfl)⟩

theorem createHardLinkIn_grows (s : Fs Attached) (src d : Fin maxInodes) (name : CStr) :
    Grows s d (createHardLinkIn s src d name) := by
  unfold createHardLinkIn
  split
  · exact grows_of_code (by decide) _ _ _
  · split
    · exact grows_of_code (by decide) _ _ _
    · rename_i q hdir
      split
      · exact grows_of_code (by decide) _ _ _
      · split
        · exact grows_of_code (by decide) _ _ _
        · rename_i data hentry
          exact fun _ => ⟨⟨q, hdir⟩, dirs_ne_of_addEntry hentry rfl⟩

theorem createSymlinkIn_grows (c : Ctx) (s : Fs Attached) (target : CStr) (d : Fin maxInodes)
    (name : CStr) : Grows s d (createSymlinkIn c s target d name) := by
  unfold createSymlinkIn
  split
  · exact grows_of_code (by decide) _ _ _
  · split
    · exact grows_of_code (by decide) _ _ _
    · rename_i q hdir
      split
      · exact grows_of_code (by decide) _ _ _
      · split
        · exact grows_of_code (by decide) _ _ _
        · rename_i i s1 ha
          obtain ⟨-, rfl⟩ := allocateInode_some ha
          dsimp only
          split
          · exact grows_of_code (by decide) _ _ _
          · split
            · exact grows_of_code (by decide) _ _ _
            · split
              · exact grows_of_code (by decide) _ _ _
              · rename_i s2 hadd
                have hdata : s2.data = s.data := (addDirectBlock_data hadd).trans rfl
                split
                · exact grows_of_code (by decide) _ _ _
                · rename_i data hentry
                  exact fun _ => ⟨⟨q, hdir⟩, dirs_ne_of_addEntry hentry (by rw [← hdata]; rfl)⟩

/-- The parent is in use, so the new directory is another inode. -/
theorem createDirectoryIn_grows (c : Ctx) {s : Fs Attached} (hs : Sound s) (d : Fin maxInodes)
    (filename : CStr) (mode : Nat) (name : CStr) :
    Grows s d (createDirectoryIn c s d filename mode name) := by
  unfold createDirectoryIn
  split
  · exact grows_of_code (by decide) _ _ _
  · rename_i p hdir
    split
    · exact grows_of_code (by decide) _ _ _
    · split
      · exact grows_of_code (by decide) _ _ _
      · rename_i i s1 ha
        obtain ⟨hi, rfl⟩ := allocateInode_some ha
        have hne : p.inode ≠ i := by
          rintro rfl
          obtain ⟨hty, hpd⟩ := getDirectoryByInode_some hdir
          rw [hpd, hs.dirUsed d hty] at hi
          cases hi
        dsimp only
        split
        · exact grows_of_code (by decide) _ _ _
        · split
          · exact grows_of_code (by decide) _ _ _
          · rename_i b _ s2 hadd
            have hdata : s2.data = s.data := (addDirectBlock_data hadd).trans rfl
            simp only [newDirectory_data]
            split
            · exact grows_of_code (by decide) _ _ _
            · rename_i data hentry
              refine fun _ => ⟨⟨p, hdir⟩, dirs_ne_of_addEntry hentry ?_⟩
              show ((s2.data.setDir i Directory.init).dirs p.inode) = _
              rw [hdata]
              simp [Attached.setDir, hne]

/-! ## The four creations -/

/-- The parent that a creation which does not fail has found. -/
theorem parent_of_zero {f : Fs Attached → Fin maxInodes → CStr → Int × Fs Attached} {e : Int}
    {x : Except Fault (Int × Fs Attached)} (hs : Sound s) (he : e ≠ 0)
    (herr : ∀ e' s', fsResolveParent c s path = .ok (.error e', s') → x = .ok (e, s'))
    (hok : ∀ d name s', fsResolveParent c s path = .ok (.ok (d, name), s') →
      x = .ok (f s' d name)) (hx : x = .ok (0, t)) :
    ∃ s' d name, Same s s' ∧ resolveParent s' path = .ok (d, name) ∧ f s' d name = (0, t) := by
  obtain ⟨s', h1, hsame⟩ := fsResolveParent_eq c hs.dirs path
  cases hp : resolveParent s path with
  | error e' =>
      rw [hp] at h1
      rw [herr e' s' h1, Except.ok.injEq, Prod.mk.injEq] at hx
      exact absurd hx.1 he
  | ok q =>
      obtain ⟨d, name⟩ := q
      rw [hp] at h1
      rw [hok d name s' h1, Except.ok.injEq] at hx
      exact ⟨s', d, name, hsame.symm, by rw [resolveParent_same hsame, hp], hx⟩

theorem fsCreateFile_zero (hs : Sound s) {mode : Nat}
    (h : fsCreateFile c s path mode = .ok (0, t)) :
    ∃ s' d name i b, Same s s' ∧ resolveParent s' path = .ok (d, name) ∧
      (∃ p, getDirectoryByInode s' d = some p) ∧ CanAdd s' d name ∧ Fresh s' i b ∧
      t = installed s' i (newFileInode c mode b) b (withEntry s'.data d name i) := by
  unfold fsCreateFile at h
  split at h
  · cases h
  split at h
  · cases h
  obtain ⟨s', d, name, hsame, hp, hin⟩ :=
    parent_of_zero (f := fun s d name => createFileIn c s d name mode) hs (by decide : -1 ≠ 0)
      (fun e' s' he => by rw [he]) (fun d name s' he => by rw [he]) h
  have heff := createFileIn_effect c (hs.same hsame) hp mode
  have hgrows := createFileIn_grows c s' d name mode
  rw [hin] at heff hgrows
  generalize hr : (0 : Int) = r at heff
  cases heff with
  | unchanged => exact absurd rfl (hgrows rfl).2
  | rolledBack hneg => omega
  | createFile hp' hadd hf =>
      rw [hp] at hp'
      cases hp'
      exact ⟨s', d, name, _, _, hsame, hp, (hgrows rfl).1, hadd, hf, rfl⟩

theorem fsCreateSymlink_zero (hs : Sound s) {target : CStr}
    (h : fsCreateSymlink c s target path = .ok (0, t)) :
    ∃ s' d name i b, Same s s' ∧ resolveParent s' path = .ok (d, name) ∧
      (∃ p, getDirectoryByInode s' d = some p) ∧ CanAdd s' d name ∧
      target.length < numDirectBlocks * blockSize ∧ Fresh s' i b ∧
      t = installed s' i (newSymlinkInode c target b) b
        (withEntry { s'.data with bytes := symlinkBytes s'.data.bytes b target } d name i) := by
  obtain ⟨s', d, name, hsame, hp, hin⟩ :=
    parent_of_zero (f := fun s d name => createSymlinkIn c s target d name) hs
      (by decide : -enoent ≠ 0) (fun e' s' he => by rw [fsCreateSymlink, he])
      (fun d name s' he => by rw [fsCreateSymlink, he]) h
  have heff := createSymlinkIn_effect c (hs.same hsame) hp target
  have hgrows := createSymlinkIn_grows c s' target d name
  rw [hin] at heff hgrows
  generalize hr : (0 : Int) = r at heff
  cases heff with
  | unchanged => exact absurd rfl (hgrows rfl).2
  | rolledBack hneg => omega
  | createSymlink hp' hadd hlen hf =>
      rw [hp] at hp'
      cases hp'
      exact ⟨s', d, name, _, _, hsame, hp, (hgrows rfl).1, hadd, hlen, hf, rfl⟩

/-- `name` is what `fisopfs_mkdir` passes on: the last component of the
path. -/
theorem fsCreateDirectory_zero (hs : Sound s) {mode : Nat}
    (h : fsCreateDirectory c s path mode name = .ok (0, t)) :
    ∃ s' d filename i b, Same s s' ∧ resolveParent s' path = .ok (d, filename) ∧
      (∃ p, getDirectoryByInode s' d = some p) ∧ CanAdd s' d name ∧ d ≠ i ∧ Fresh s' i b ∧
      t = inodeIncrementLinks d (installed s' i (newDirInode c mode b) b
        (withEntry (s'.data.setDir i Directory.init) d name i)) := by
  unfold fsCreateDirectory at h
  split at h
  · cases h
  split at h
  · cases h
  obtain ⟨s', d, filename, hsame, hp, hin⟩ :=
    parent_of_zero (f := fun s d filename => createDirectoryIn c s d filename mode name) hs
      (by decide : -1 ≠ 0) (fun e' s' he => by rw [he]) (fun d name s' he => by rw [he]) h
  have heff := createDirectoryIn_effect c (hs.same hsame) hp mode name
  have hgrows := createDirectoryIn_grows c (hs.same hsame) d filename mode name
  rw [hin] at heff hgrows
  generalize hr : (0 : Int) = r at heff
  cases heff with
  | unchanged => exact absurd rfl (hgrows rfl).2
  | rolledBack hneg => omega
  | createDirectory hp' hfree hadd hne hf =>
      rw [hp] at hp'
      cases hp'
      exact ⟨s', d, filename, _, _, hsame, hp, (hgrows rfl).1, hadd, hne, hf, rfl⟩

theorem fsCreateHardLink_zero (hs : Sound s) {source : CStr}
    (h : fsCreateHardLink c s source path = .ok (0, t)) :
    ∃ s' src d name, Same s s' ∧ resolve s' source = .ok src ∧
      resolveParent s' path = .ok (d, name) ∧ (∃ p, getDirectoryByInode s' d = some p) ∧
      CanAdd s' d name ∧
      t = inodeIncrementLinks src { s' with data := withEntry s'.data d name src } := by
  obtain ⟨s1, h1, hsame1⟩ := fsResolvePath_eq c hs.dirs source
  have hs1 := hs.same hsame1.symm
  rw [fsCreateHardLink, h1] at h
  cases hr : resolve s source with
  | error e =>
      simp only [hr] at h
      cases h
  | ok src =>
      simp only [hr] at h
      split at h
      · cases h
      rename_i hty
      obtain ⟨s', d, name, hsame, hp, hin⟩ :=
        parent_of_zero (f := fun s d name => createHardLinkIn s src d name) hs1
          (by decide : -enoent ≠ 0) (fun e' s' he => by rw [he])
          (fun d name s' he => by rw [he]) h
      have hsrc : resolve s' source = .ok src := by
        rw [← hr, resolve_same (hsame1.symm.trans hsame)]
      have hty' : (s'.inodes src).inodeType ≠ .dir := by
        rw [← hsame.apply (fun s => (s.inodes src).inodeType) (fun _ => rfl)]
        exact hty
      have heff := createHardLinkIn_effect c hsrc hty' hp
      have hgrows := createHardLinkIn_grows s' src d name
      rw [hin] at heff hgrows
      generalize hz : (0 : Int) = r at heff
      cases heff with
      | unchanged => exact absurd rfl (hgrows rfl).2
      | rolledBack hneg => omega
      | createHardLink hsrc' _ hp' hadd =>
          rw [hp] at hp'
          cases hp'
          rw [hsrc] at hsrc'
          cases hsrc'
          exact ⟨s', src, d, name, hsame1.symm.trans hsame, hsrc, hp, (hgrows rfl).1, hadd, rfl⟩

/-! ## The new entry -/

/-- `path` has become a name of `i`, and every entry that was there leads
where it did. -/
structure Linked (s t : Fs Attached) (path : CStr) (i : Fin maxInodes) : Prop where
  entry : ∃ d name, resolveParent s path = .ok (d, name) ∧ child t d name = some i
  kept : ∀ e x j, child s e x = some j → child t e x = some j
  root : t.superblock.rootInodeNumber = s.superblock.rootInodeNumber

theorem Linked.same {s' : Fs Attached} {i : Fin maxInodes} (h : Same s s')
    (hl : Linked s' t path i) : Linked s t path i where
  entry := by
    obtain ⟨d, name, hp, hc⟩ := hl.entry
    exact ⟨d, name, by rw [resolveParent_same h, hp], hc⟩
  kept := fun e x j hc => hl.kept e x j (by
    rwa [h.apply (fun s => child s e x) (fun _ => rfl)] at hc)
  root := hl.root.trans
    (h.apply (fun s => s.superblock.rootInodeNumber) (fun _ => rfl)).symm

theorem child_withEntry {data : Attached} {i : Fin maxInodes} {p : DirPtr}
    (hfree : (data.dirs d).entryNamed name = none) (hdir : getDirectoryByInode t d = some p)
    (hdata : t.data = withEntry data d name i) : child t d name = some i := by
  have hentry : (t.data.dirs d).entryNamed name = some ⟨name, i⟩ := by
    rw [hdata, withEntry_dirs_self]
    exact Directory.entryNamed_add_self hfree _
  simp [child, hdir, hentry]

/-- The path after a creation: the two resolvers walk the same
components. -/
theorem Linked.target_of {i : Fin maxInodes} (h : Linked s t path i)
    (hp : resolveParent s path = .ok (d, name)) :
    FileSystem.target t path = some (d, name, i) := by
  obtain ⟨d', name', hp', hc⟩ := h.entry
  rw [hp] at hp'
  cases hp'
  refine target_some.mpr ⟨resolveParent_of_walks hp (fun ts _ hw => ?_), hc⟩
  rw [h.root]
  exact walk_mono hw (fun _ x _ b j _ hcx _ => h.kept b x j hcx)

theorem Linked.target {i : Fin maxInodes} (h : Linked s t path i) :
    ∃ d name, FileSystem.target t path = some (d, name, i) := by
  obtain ⟨d, name, hp, -⟩ := h.entry
  exact ⟨d, name, h.target_of hp⟩

theorem Linked.incrementLinks {i : Fin maxInodes} (h : Linked s t path i) (j : Fin maxInodes) :
    Linked s (inodeIncrementLinks j t) path i where
  entry := by
    obtain ⟨d, name, hp, hc⟩ := h.entry
    exact ⟨d, name, hp, child_modifyInode hc (fun _ => rfl) (fun _ => rfl)⟩
  kept := fun e x k hc => child_modifyInode (h.kept e x k hc) (fun _ => rfl) (fun _ => rfl)
  root := h.root

/-- An entry for an inode that was free. -/
theorem Linked.ofInstalled (hs : Sound s) {i : Fin maxInodes} {b : Nat}
    (hp : resolveParent s path = .ok (d, name)) (hdir : ∃ p, getDirectoryByInode s d = some p)
    (hadd : CanAdd s d name) (hf : Fresh s i b) (data : Attached)
    (hdata : ∀ e ≠ i, data.dirs e = s.data.dirs e) (n : Inode) :
    Linked s (installed s i n b (withEntry data d name i)) path i := by
  have hother : ∀ e, (s.inodes e).inodeType = .dir → e ≠ i := by
    rintro e hty rfl
    have hfree := hf.inode
    rw [hs.dirUsed e hty] at hfree
    cases hfree
  have hinode : ∀ e, (s.inodes e).inodeType = .dir →
      (FileSystem.installed s i n b (withEntry data d name i)).inodes e = s.inodes e := by
    intro e hty
    simp [FileSystem.installed, hother e hty]
  refine ⟨⟨d, name, hp, ?_⟩, fun e x j hc => ?_, rfl⟩
  · obtain ⟨p, hq⟩ := hdir
    have hq' : getDirectoryByInode (FileSystem.installed s i n b (withEntry data d name i)) d
        = some p := by
      unfold getDirectoryByInode at hq ⊢
      rwa [hinode d hadd.isDir]
    refine child_withEntry ?_ hq' rfl
    rw [hdata d (hother d hadd.isDir)]
    exact hadd.free
  · have hty := child_isDir hc
    exact child_of_inode hc (hinode e hty) (entryNamed_withEntry hadd hc (hdata e (hother e hty)))

/-- One more entry for an inode that is in use. -/
theorem Linked.ofEntry {i : Fin maxInodes} (hp : resolveParent s path = .ok (d, name))
    (hdir : ∃ p, getDirectoryByInode s d = some p) (hadd : CanAdd s d name) :
    Linked s { s with data := withEntry s.data d name i } path i := by
  refine ⟨⟨d, name, hp, ?_⟩, fun e x j hc => ?_, rfl⟩
  · obtain ⟨p, hq⟩ := hdir
    exact child_withEntry hadd.free (p := p) hq rfl
  · exact child_of_inode hc rfl (entryNamed_withEntry hadd hc rfl)

end SistemasOperativos.FileSystem
