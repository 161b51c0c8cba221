/-
SistemasOperativos.FileSystem.HardLinkTheorems — link counts of files,
and what deleting one of several names does to the others.

The count of a file is the number of its names, so `fs_delete_file`
releases the inode exactly with the last of them. That another name
still resolves afterwards rests on the tree: two different paths in the
form libfuse passes never go through the same entry to the same file.
-/
import SistemasOperativos.FileSystem.NamespaceTheorems
import SistemasOperativos.FileSystem.AccountingTheorems

namespace SistemasOperativos.FileSystem

/-! ## Paths in the form libfuse passes -/

/-- A slash before every component. -/
def joinPath (ts : List CStr) : CStr := ts.flatMap (fun t => slash :: t)

/-- Absolute, single slashes, no `.` or `..`, at most 16 components. -/
def LibfusePath (path : CStr) : Prop :=
  ∃ ts : List CStr, path = (if ts = [] then nameRoot else joinPath ts) ∧
    ts.length ≤ maxDirDepth ∧ ∀ t ∈ ts, t ≠ [] ∧ slash ∉ t ∧ realName t = true

theorem joinPath_concat (ts : List CStr) (t : CStr) :
    joinPath (ts ++ [t]) = joinPath ts ++ slash :: t := by
  simp [joinPath]

theorem strtok_joinPath {ts : List CStr} (h : ∀ t ∈ ts, t ≠ [] ∧ slash ∉ t) :
    strtok (joinPath ts) = ts := by
  induction ts using List.reverseRecOn with
  | nil => exact strtok_nil
  | append_singleton ts t ih =>
      have ht := h t (by simp)
      rw [joinPath_concat, strtok_append_slash, ih (fun x hx => h x (by simp [hx])),
        strtok_of_no_slash ht.1 ht.2]

/-- The components determine the path. -/
theorem LibfusePath.strtok_inj {p q : CStr} (hp : LibfusePath p) (hq : LibfusePath q)
    (h : strtok p = strtok q) : p = q := by
  have hback : ∀ {path ts}, path = (if ts = [] then nameRoot else joinPath ts) →
      (∀ t ∈ ts, t ≠ [] ∧ slash ∉ t ∧ realName t = true) → strtok path = ts := by
    rintro path ts rfl hts
    split
    · rename_i hnil
      rw [hnil, strtok_root]
    · exact strtok_joinPath (fun t ht => ⟨(hts t ht).1, (hts t ht).2.1⟩)
  obtain ⟨ts, rfl, -, hts⟩ := hp
  obtain ⟨us, rfl, -, hus⟩ := hq
  rw [hback rfl hts, hback rfl hus] at h
  rw [h]

theorem LibfusePath.real {p : CStr} (hp : LibfusePath p) : ∀ t ∈ strtok p, realName t = true := by
  obtain ⟨ts, rfl, -, hts⟩ := hp
  split
  · rw [strtok_root]
    simp
  · rw [strtok_joinPath (fun t ht => ⟨(hts t ht).1, (hts t ht).2.1⟩)]
    exact fun t ht => (hts t ht).2.2

/-- A path that is not the root splits at its last component. -/
theorem LibfusePath.split {p : CStr} (hp : LibfusePath p) (hne : strtok p ≠ []) :
    ∃ a name, p = a ++ slash :: name ∧ strtok p = strtok a ++ [name] ∧ name ≠ [] ∧
      slash ∉ name ∧ (strtok a).length ≤ maxDirDepth := by
  obtain ⟨ts, rfl, hdepth, hts⟩ := hp
  by_cases hnil : ts = []
  · rw [if_pos hnil, strtok_root] at hne
    exact absurd rfl hne
  · rw [if_neg hnil]
    obtain ⟨us, t, rfl⟩ := List.eq_nil_or_concat ts |>.resolve_left hnil
    have hus : ∀ x ∈ us, x ≠ [] ∧ slash ∉ x := fun x hx =>
      ⟨(hts x (by simp [hx])).1, (hts x (by simp [hx])).2.1⟩
    have ht := hts t (by simp)
    rw [List.concat_eq_append] at *
    refine ⟨joinPath us, t, joinPath_concat us t, ?_, ht.1, ht.2.1, ?_⟩
    · rw [joinPath_concat, strtok_append_slash, strtok_of_no_slash ht.1 ht.2.1]
    · rw [strtok_joinPath hus]
      rw [List.length_append] at hdepth
      omega

/-! ## Paths as walks in the graph -/

theorem walk_graphOf {s : Fs Attached} (hs : Sound s) {ts : List CStr} {i : Fin maxInodes}
    (hreal : ∀ t ∈ ts, realName t = true)
    (h : walk s s.superblock.rootInodeNumber ts = some i) : (graphOf s).Walk ts i := by
  induction ts using List.reverseRecOn generalizing i with
  | nil =>
      rw [walk, Option.some.injEq] at h
      rw [← h]
      exact .root
  | append_singleton ts t ih =>
      rw [walk_concat] at h
      cases hw : walk s s.superblock.rootInodeNumber ts with
      | none => simp [hw] at h
      | some d =>
          rw [hw, Option.bind_some] at h
          have hfind := find_graphOf hs.dirs (hreal t (by simp)) h
          exact .step (ih (fun x hx => hreal x (by simp [hx])) hw)
            (List.mem_of_find?_eq_some hfind)

/-- Two paths to one directory have the same components. -/
theorem Consistent.walk_unique {u : User} {s : Fs Attached} (hs : Consistent u s)
    {ts us : List CStr} {d : Fin maxInodes} (hts : ∀ t ∈ ts, realName t = true)
    (hus : ∀ t ∈ us, realName t = true) (hd : (s.inodes d).inodeType = .dir)
    (h : walk s s.superblock.rootInodeNumber ts = some d)
    (h' : walk s s.superblock.rootInodeNumber us = some d) : ts = us :=
  hs.tree.walk_unique (walk_graphOf hs.sound hts h) (walk_graphOf hs.sound hus h') hd

/-- The entry behind a path that names a file. -/
theorem target_of_resolve {s : Fs Attached} (hs : Sound s) {p : CStr} (hp : LibfusePath p)
    {i : Fin maxInodes} (h : resolve s p = .ok i) (hi : i ≠ 0) :
    ∃ a name d, strtok p = strtok a ++ [name] ∧ target s p = some (d, name, i) ∧
      walk s s.superblock.rootInodeNumber (strtok a) = some d := by
  obtain ⟨-, hlen, -, hw⟩ := resolve_ok.mp h
  have hne : strtok p ≠ [] := by
    intro hnil
    rw [hnil, walk, Option.some.injEq, hs.root] at hw
    exact hi hw.symm
  obtain ⟨a, name, rfl, htok, hname, hns, hdepth⟩ := hp.split hne
  rw [htok, walk_concat] at hw
  cases hwa : walk s s.superblock.rootInodeNumber (strtok a) with
  | none => simp [hwa] at hw
  | some d =>
      rw [hwa, Option.bind_some] at hw
      obtain ⟨-, e, he, -⟩ := child_some hw
      have hshort : name.length < maxFilenameLen := by
        rw [← (Directory.entryNamed_some he).2]
        exact (hs.dirs d (child_isDir hw)).short e (Directory.entryNamed_some he).1
      have hpar := resolveParent_of_walk hlen (by omega) hname hshort hns hwa
      exact ⟨a, name, d, htok, target_some.mpr ⟨hpar, hw⟩, hwa⟩

/-! ## Paths after an entry is gone -/

/-- A lookup that is not the removed one. -/
theorem child_unlinked {s : Fs Attached} {d i x : Fin maxInodes} {name n : CStr}
    (h : x ≠ d ∨ n ≠ name) :
    child (inodeDecrementLinks i { s with data := withoutEntry s.data d name }) x n
      = child s x n := by
  set t := inodeDecrementLinks i { s with data := withoutEntry s.data d name } with ht
  have hdir : getDirectoryByInode t x = getDirectoryByInode s x := by
    unfold getDirectoryByInode
    by_cases hx : x = i
    · subst hx
      simp only [ht, inodeDecrementLinks, Fs.modifyInode, Function.update_self]
      rfl
    · simp only [ht, inodeDecrementLinks, Fs.modifyInode, Function.update_of_ne hx]
  have hentry : (t.data.dirs x).entryNamed n = (s.data.dirs x).entryNamed n :=
    entryNamed_withoutEntry s.data (fun hc => h.elim (· hc.1) (· hc.2))
  simp only [child, hdir, hentry]

/-- A walk that does not go through the removed entry. -/
theorem walk_unlinked {s : Fs Attached} {d i : Fin maxInodes} {name : CStr} {ts : List CStr}
    {x y : Fin maxInodes} (h : walk s x ts = some y)
    (havoid : ∀ us n vs, ts = us ++ n :: vs → walk s x us = some d → n ≠ name) :
    walk (inodeDecrementLinks i { s with data := withoutEntry s.data d name }) x ts = some y := by
  induction ts generalizing x with
  | nil => exact h
  | cons t ts ih =>
      rw [walk] at h ⊢
      have hne : x ≠ d ∨ t ≠ name := by
        by_cases hx : x = d
        · exact Or.inr (havoid [] t ts rfl (by rw [walk, hx]))
        · exact Or.inl hx
      rw [child_unlinked hne]
      cases hc : child s x t with
      | none => simp [hc] at h
      | some z =>
          simp only [hc] at h
          refine ih h (fun us n vs hts hw => ?_)
          refine havoid (t :: us) n vs (by rw [hts]; rfl) ?_
          rw [walk, hc]
          exact hw

/-- A path to the same file that is not the removed one avoids the entry. -/
theorem Consistent.resolve_other {u : User} {s : Fs Attached} (hs : Consistent u s)
    {p q name : CStr} {d i : Fin maxInodes} (hp : LibfusePath p) (hq : LibfusePath q)
    (hne : p ≠ q) (hty : (s.inodes i).inodeType ≠ .dir) {a : CStr}
    (htok : strtok p = strtok a ++ [name])
    (hwa : walk s s.superblock.rootInodeNumber (strtok a) = some d)
    (hc : child s d name = some i) (hr : resolve s q = .ok i) :
    resolve (inodeDecrementLinks i { s with data := withoutEntry s.data d name }) q
      = .ok i := by
  obtain ⟨h1, h2, h3, hw⟩ := resolve_ok.mp hr
  refine resolve_ok.mpr ⟨h1, h2, h3, walk_unlinked hw ?_⟩
  rintro us n vs hts hwu' rfl
  have hwu : walk s s.superblock.rootInodeNumber us = some d := hwu'
  rw [hts, walk_append, hwu, Option.bind_some, walk, hc] at hw
  -- the removed entry leads to a file, so it would be the last step
  have hvs : vs = [] := by
    cases vs with
    | nil => rfl
    | cons v vs =>
        simp only [walk] at hw
        cases hcv : child s i v with
        | none => simp [hcv] at hw
        | some z => exact absurd (child_isDir hcv) hty
  subst hvs
  have hus : ∀ t ∈ us, realName t = true := fun t ht => hq.real t (by rw [hts]; simp [ht])
  have has : ∀ t ∈ strtok a, realName t = true := fun t ht => hp.real t (by rw [htok]; simp [ht])
  have heq := hs.walk_unique has hus (child_isDir hc) hwa hwu
  exact hne (hp.strtok_inj hq (by rw [htok, hts, heq]))

/-! ## Deleting a name -/

/-- The inode and all its blocks are free, the blocks zeroed and both
counters raised. -/
structure Released (s t : Fs Attached) (i : Fin maxInodes) : Prop where
  inode : t.intmap.inodes i = false
  blocks : ∀ k b, slot s i k = some b → t.intmap.blocks b = false
  zeroed : ∀ k b, slot s i k = some b → ∀ a, a / blockSize = b → t.data.bytes a = 0
  freeInodes : t.superblock.freeInodesCount = s.superblock.freeInodesCount + 1
  freeBlocks : t.superblock.freeBlocksCount
    = s.superblock.freeBlocksCount + heldCount (s.inodes i) numDirectBlocks

/-- The inode is in use with the same size, pointers and bytes, and no
counter has changed. -/
structure Kept (s t : Fs Attached) (i : Fin maxInodes) : Prop where
  inode : t.intmap.inodes i = true
  type : (t.inodes i).inodeType = (s.inodes i).inodeType
  size : (t.inodes i).fileSizeBytes = (s.inodes i).fileSizeBytes
  pointers : (t.inodes i).directBlockPtrs = (s.inodes i).directBlockPtrs
  blocks : t.intmap.blocks = s.intmap.blocks
  bytes : t.data.bytes = s.data.bytes
  superblock : t.superblock = s.superblock

theorem Released.same {s s' t t' : Fs Attached} {i : Fin maxInodes} (hs : Same s' s)
    (ht : Same t t') (h : Released s' t' i) : Released s t i := by
  have h1 : Released s t' i := (hs.apply (fun s => Released s t' i) (fun _ => propext
    ⟨fun ⟨a, b, c, d, e⟩ => ⟨a, b, c, d, e⟩, fun ⟨a, b, c, d, e⟩ => ⟨a, b, c, d, e⟩⟩)).mp h
  exact (ht.apply (fun t => Released s t i) (fun _ => propext
    ⟨fun ⟨a, b, c, d, e⟩ => ⟨a, b, c, d, e⟩, fun ⟨a, b, c, d, e⟩ => ⟨a, b, c, d, e⟩⟩)).mpr h1

theorem Kept.same {s s' t t' : Fs Attached} {i : Fin maxInodes} (hs : Same s' s)
    (ht : Same t t') (h : Kept s' t' i) : Kept s t i := by
  have h1 : Kept s t' i := (hs.apply (fun s => Kept s t' i) (fun _ => propext
    ⟨fun ⟨a, b, c, d, e, f, g⟩ => ⟨a, b, c, d, e, f, g⟩,
      fun ⟨a, b, c, d, e, f, g⟩ => ⟨a, b, c, d, e, f, g⟩⟩)).mp h
  exact (ht.apply (fun t => Kept s t i) (fun _ => propext
    ⟨fun ⟨a, b, c, d, e, f, g⟩ => ⟨a, b, c, d, e, f, g⟩,
      fun ⟨a, b, c, d, e, f, g⟩ => ⟨a, b, c, d, e, f, g⟩⟩)).mpr h1

theorem released_released {u : User} (c : Ctx) {s : Fs Attached} (hs : Consistent u s)
    (hb : BlocksCounted s) (i : Fin maxInodes) (dirs : Fin maxInodes → Directory) :
    Released s (released c s i dirs) i := by
  have hheld : ∀ k b, slot s i k = some b →
      holdsBelow (s.inodes i) numDirectBlocks b = true := fun k b hk => holds_iff.mpr ⟨k, hk⟩
  refine ⟨by simp [released, clearInodeUsed], ?_, ?_, ?_, ?_⟩
  · intro k b hk
    simp [released, clearInodeUsed, mapWithout, hheld k b hk]
  · rintro k b hk a rfl
    simp [released, bytesWithout, hheld k _ hk]
  · have hle := freeInodes_le s
    rw [← hs.counted] at hle
    simp only [maxInodes] at hle
    exact u32Inc_of_lt (by omega)
  · have hclear := clear_mapWithout hs.sound i numDirectBlocks (Nat.le_refl _)
    have hle := (Bitmap.clear_le (Finset.range maxBlocks)
      (mapWithout s.intmap (s.inodes i) numDirectBlocks).blocks).trans_eq
      (Finset.card_range maxBlocks)
    rw [hclear, ← hb] at hle
    simp only [maxBlocks] at hle
    exact iterate_u32Inc (by omega)

theorem kept_unlinked {s : Fs Attached} {i d : Fin maxInodes} {name : CStr}
    (hi : s.intmap.inodes i = true) :
    Kept s (inodeDecrementLinks i { s with data := withoutEntry s.data d name }) i := by
  have hself : (inodeDecrementLinks i { s with data := withoutEntry s.data d name }).inodes i
      = { s.inodes i with hardLinksCount := u16Dec (s.inodes i).hardLinksCount } := by
    simp [inodeDecrementLinks, Fs.modifyInode]
  refine ⟨hi, ?_, ?_, ?_, rfl, rfl, rfl⟩
  · rw [hself]
  · rw [hself]
  · rw [hself]

/-! ## Runs without `fs_remove_directory` -/

/-- The runs of this section. -/
abbrev LinkRun (_ : Fs Attached) (op : Op) (t : Fs Attached) : Prop :=
  (∀ path, op ≠ .removeDirectory path) ∧ FewNames t

theorem Reachable.linkRun {u : User} {t : Fs Attached} (h : Reachable u LinkRun t) :
    Consistent u t ∧ BlocksCounted t := by
  refine h.invariant (I := fun t => Consistent u t ∧ BlocksCounted t)
    (fun now => ⟨Consistent.init u now, BlocksCounted.init _⟩) ?_
  rintro now s op r t ⟨hs, hb⟩ ⟨hop, hnames⟩ hstep
  refine ⟨step_consistent_of_names hs hnames ?_ hstep,
    step_blocksCounted hs.sound hb ?_ hstep⟩
  · intro path d name i heq
    exact absurd heq (hop path)
  · rintro ⟨path, d, name, i, p, heq, -⟩
    exact hop path heq

/-- `fs_delete_file` on one name of a file. -/
theorem delete_name {u : User} {s : Fs Attached} (hs : Consistent u s) (hb : BlocksCounted s)
    (now : Int) {p : CStr} (hp : LibfusePath p) {i : Fin maxInodes}
    (hr : resolve s p = .ok i) (hty : (s.inodes i).inodeType ≠ .dir) :
    ∃ t, step (u.at now) s (.deleteFile p) = .ok (0, t) ∧
      (nameCount s i = 1 → Released s t i) ∧
      (nameCount s i ≠ 1 → Kept s t i ∧
        ∀ q, LibfusePath q → q ≠ p → resolve s q = .ok i → resolve t q = .ok i) := by
  have hi0 : i ≠ 0 := by
    rintro rfl
    have := hs.tree.rootDir
    rw [show (graphOf s).root = 0 from hs.sound.root] at this
    exact hty this
  obtain ⟨a, name, d, htok, ht, hwa⟩ := target_of_resolve hs.sound hp hr hi0
  obtain ⟨s', t, hss, hstep, hlast, hmore⟩ := fsDeleteFile_file (u.at now) hs.sound ht hty
  have hs' := hs.same hss.symm
  have hcount : (s.inodes i).hardLinksCount = nameCount s i := by
    rw [← names_graphOf hs.sound.dirs]
    exact hs.links i (hs.resolveLive hr) hty
  rw [u16Dec_eq_zero, hcount] at hlast
  rw [Ne, u16Dec_eq_zero, hcount] at hmore
  refine ⟨t, hstep, fun h1 => ?_, fun h1 => ⟨?_, ?_⟩⟩
  · exact (released_released (u.at now) hs' (hb.same hss.symm) i _).same hss (hlast h1)
  · exact (kept_unlinked (hs'.resolveLive (by rw [resolve_same hss]; exact hr))).same hss
      (hmore h1)
  · intro q hq hqp hrq
    rw [resolve_same (hmore h1)]
    have hty' : (s'.inodes i).inodeType ≠ .dir := by
      rw [hss.apply (fun s => (s.inodes i).inodeType) (fun _ => rfl)]
      exact hty
    have hwa' : walk s' s'.superblock.rootInodeNumber (strtok a) = some d := by
      rw [walk_same hss, hss.apply (fun s => s.superblock.rootInodeNumber) (fun _ => rfl)]
      exact hwa
    have hc' : child s' d name = some i :=
      (hss.apply (fun s => child s d name) (fun _ => rfl)).trans (target_some.mp ht).2
    exact hs'.resolve_other hp hq (Ne.symm hqp) hty' htok hwa' hc' (by rw [resolve_same hss, hrq])

/-- A file named by two paths has two names. -/
theorem two_le_nameCount {u : User} {s : Fs Attached} (hs : Consistent u s) {p q : CStr}
    (hp : LibfusePath p) (hq : LibfusePath q) (hne : p ≠ q) {i : Fin maxInodes}
    (hi : i ≠ 0) (hrp : resolve s p = .ok i) (hrq : resolve s q = .ok i) :
    2 ≤ nameCount s i := by
  obtain ⟨a, n, d, htp, hp', hwa⟩ := target_of_resolve hs.sound hp hrp hi
  obtain ⟨b, m, e, htq, hq', hwb⟩ := target_of_resolve hs.sound hq hrq hi
  have hreal : ∀ {x : CStr} {ts : List CStr} {t : CStr}, LibfusePath x → strtok x = ts ++ [t] →
      realName t = true ∧ ∀ y ∈ ts, realName y = true := by
    intro x ts t hx hts
    exact ⟨hx.real t (by rw [hts]; simp), fun y hy => hx.real y (by rw [hts]; simp [hy])⟩
  have hcp := (target_some.mp hp').2
  have hcq := (target_some.mp hq').2
  have hmp := List.mem_of_find?_eq_some (find_graphOf hs.sound.dirs (hreal hp htp).1 hcp)
  have hmq := List.mem_of_find?_eq_some (find_graphOf hs.sound.dirs (hreal hq htq).1 hcq)
  rw [← names_graphOf hs.sound.dirs]
  refine NameGraph.two_names hmp hmq ?_
  by_contra hsame
  rw [not_or, not_not, not_not] at hsame
  obtain ⟨rfl, rfl⟩ := hsame
  have := hs.walk_unique (hreal hp htp).2 (hreal hq htq).2 (child_isDir hcp) hwa hwb
  exact hne (hp.strtok_inj hq (by rw [htp, htq, this]))

/-- The link count of a file is the number of its names. Deleting one of
two names leaves the other with the same inode, and the inode is released
exactly with its last name. -/
theorem hard_links_count_names {u : User} {s : Fs Attached} (h : Reachable u LinkRun s) :
    (∀ i, s.intmap.inodes i = true → (s.inodes i).inodeType ≠ .dir →
      (s.inodes i).hardLinksCount = nameCount s i) ∧
    (∀ (now : Int) (p q : CStr) (i : Fin maxInodes), LibfusePath p → LibfusePath q → p ≠ q →
      ResolvesTo (u.at now) s p i → ResolvesTo (u.at now) s q i →
      ∃ t, step (u.at now) s (.deleteFile p) = .ok (0, t) ∧ Kept s t i ∧
        ∀ now', ResolvesTo (u.at now') t q i) ∧
    (∀ (now : Int) (p : CStr) (i : Fin maxInodes), LibfusePath p →
      ResolvesTo (u.at now) s p i → (s.inodes i).inodeType ≠ .dir →
      ∃ t, step (u.at now) s (.deleteFile p) = .ok (0, t) ∧
        (Released s t i ↔ nameCount s i = 1) ∧ (Kept s t i ↔ nameCount s i ≠ 1)) := by
  obtain ⟨hs, hb⟩ := h.linkRun
  have hd := hs.sound.dirs
  have hexcl : ∀ {t i}, Released s t i → Kept s t i → False := by
    intro t i hr hk
    have := hr.inode
    rw [hk.inode] at this
    cases this
  refine ⟨?_, ?_, ?_⟩
  · intro i hi hty
    rw [← names_graphOf hd]
    exact hs.links i hi hty
  · intro now p q i hp hq hne hrp hrq
    rw [resolvesTo_iff _ hd] at hrp hrq
    -- two different paths cannot end in one directory
    have hty : (s.inodes i).inodeType ≠ .dir := by
      intro hdir
      have := hs.walk_unique hp.real hq.real hdir (resolve_ok.mp hrp).2.2.2
        (resolve_ok.mp hrq).2.2.2
      exact hne (hp.strtok_inj hq this)
    have hi : i ≠ 0 := by
      rintro rfl
      have := hs.tree.rootDir
      rw [show (graphOf s).root = 0 from hs.sound.root] at this
      exact hty this
    obtain ⟨t, hstep, -, hmore⟩ := delete_name hs hb now hp hrp hty
    have htwo := two_le_nameCount hs hp hq hne hi hrp hrq
    obtain ⟨hkept, hother⟩ := hmore (by omega)
    refine ⟨t, hstep, hkept, fun now' => ?_⟩
    rw [resolvesTo_iff _ (step_sound hs.sound hstep).dirs]
    exact hother q hq (Ne.symm hne) hrq
  · intro now p i hp hrp hty
    rw [resolvesTo_iff _ hd] at hrp
    obtain ⟨t, hstep, hlast, hmore⟩ := delete_name hs hb now hp hrp hty
    refine ⟨t, hstep, ⟨fun hr => ?_, hlast⟩, ⟨fun hk h1 => ?_, fun h1 => (hmore h1).1⟩⟩
    · by_contra h1
      exact hexcl hr (hmore h1).1
    · exact hexcl (hlast h1) hk

/-- A test for runs on fixed inputs. -/
def linkCheck (op : Op) (t : Fs Attached) : Bool :=
  (match op with
    | .removeDirectory _ => false
    | _ => true) && decide (∑ d, (t.data.dirs d).length < 65536)

theorem linkCheck_sound (s : Fs Attached) (op : Op) (t : Fs Attached)
    (h : linkCheck op t = true) : LinkRun s op t := by
  obtain ⟨hop, hsmall⟩ := Bool.and_eq_true_iff.mp h
  have hfew : FewNames t := fewNames_of_entries (decide_eq_true_iff.mp hsmall)
  refine ⟨?_, hfew⟩
  rintro path rfl
  cases hop

/-- `/f` linked as `/g`, and `/f` deleted: `/g` is still inode 1. -/
theorem hard_links_count_names_after_link :
    ∃ s : Fs Attached, Reachable ⟨0, 0⟩ LinkRun s ∧ nameCount s 1 = 2 ∧
      (s.inodes 1).hardLinksCount = nameCount s 1 ∧
      ∃ t, step (User.at ⟨0, 0⟩ 0) s (.deleteFile (cstr "/f")) = .ok (0, t) ∧ Kept s t 1 ∧
        ResolvesTo (User.at ⟨0, 0⟩ 0) t (cstr "/g") 1 := by
  have hrun : (runChecked (User.at ⟨0, 0⟩ 0) linkCheck (fsInit (User.at ⟨0, 0⟩ 0))
      [.createFile (cstr "/f") 6, .createHardLink (cstr "/f") (cstr "/g")]).map
      (fun s => (nameCount s 1, s.intmap.inodes 1, (s.inodes 1).inodeType,
        (resolve s (cstr "/f")).toOption, (resolve s (cstr "/g")).toOption))
      = some (2, true, .file, some 1, some 1) := by
    decide +kernel
  obtain ⟨s, hs, hv⟩ := Option.map_eq_some_iff.mp hrun
  simp only [Prod.mk.injEq] at hv
  obtain ⟨hn, hlive, hty, hf, hg⟩ := hv
  have hreach : Reachable ⟨0, 0⟩ LinkRun s :=
    ⟨0, runChecked_reaches linkCheck linkCheck_sound hs⟩
  obtain ⟨hcount, hother, -⟩ := hard_links_count_names hreach
  have hd := hreach.sound.dirs
  have hpath : ∀ {t : CStr}, t ≠ [] → slash ∉ t → realName t = true →
      LibfusePath (slash :: t) := by
    intro t h1 h2 h3
    exact ⟨[t], by simp [joinPath], by simp [maxDirDepth], by simpa using ⟨h1, h2, h3⟩⟩
  obtain ⟨t, hstep, hkept, hres⟩ := hother 0 (cstr "/f") (cstr "/g") 1
    (hpath (t := cstr "f") (by decide) (by decide) (by decide))
    (hpath (t := cstr "g") (by decide) (by decide) (by decide)) (by decide)
    ((resolvesTo_iff _ hd).mpr (ok_of_toOption hf))
    ((resolvesTo_iff _ hd).mpr (ok_of_toOption hg))
  exact ⟨s, hreach, hn, hcount 1 hlive (by rw [hty]; decide), t, hstep, hkept, hres 0⟩

end SistemasOperativos.FileSystem
