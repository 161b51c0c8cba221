/-
SistemasOperativos.FileSystem.ConsistencyTheorems — the invariant that
ties entries, link counts, both maps and the inode counter together.

`Consistent` adds to `Sound` what needs a condition on the run. Two steps
can break it: a hard link to an inode whose `hard_links_count` is already
at the top of its 16 bits (the count wraps to 0 and the next unlink frees
an inode that is still named), and `rmdir` of the root under the name
`.`. `Tame` excludes exactly these two; with it every effect keeps
`Consistent`, for any path and any argument.
-/
import SistemasOperativos.FileSystem.TreeTheorems
import SistemasOperativos.FileSystem.FrameTheorems
import SistemasOperativos.Lib.Bitmap

namespace SistemasOperativos.FileSystem

/-! ## The invariant -/

/-- The number of inodes not marked used. -/
def freeInodes (s : Fs Attached) : Nat := Bitmap.clear Finset.univ s.intmap.inodes

structure Consistent (u : User) (s : Fs Attached) : Prop where
  sound : Sound s
  tree : (graphOf s).Wf
  links : ∀ i, s.intmap.inodes i = true → (s.inodes i).inodeType ≠ .dir →
    (s.inodes i).hardLinksCount = (graphOf s).names i
  unused : ∀ i, s.intmap.inodes i = false →
    (s.inodes i).untimed = (inodeInit (u.at 0)).untimed
  owned : ∀ b, s.intmap.blocks b = true → ∃ i k, s.intmap.inodes i = true ∧ slot s i k = some b
  counted : s.superblock.freeInodesCount = freeInodes s

theorem Consistent.same {u : User} {s t : Fs Attached} (h : Same s t) (hs : Consistent u s) :
    Consistent u t := by
  have hiff : ∀ s : Fs Attached, Consistent u s.untimed = Consistent u s := by
    intro s
    have hsame : Same s.untimed s := rfl
    exact propext
      ⟨fun h => ⟨h.sound.same hsame, h.tree, h.links, h.unused, h.owned, h.counted⟩,
        fun h => ⟨h.sound.same hsame.symm, h.tree, h.links, h.unused, h.owned, h.counted⟩⟩
  exact (h.apply (Consistent u) hiff).mp hs

/-- `op` is a `fs_create_hard_link` that gets to raise a link count which
is at the top of its 16 bits. -/
def LinkOverflows (s : Fs Attached) (op : Op) : Prop :=
  ∃ source dest src d name, op = .createHardLink source dest ∧ resolve s source = .ok src ∧
    (s.inodes src).inodeType ≠ .dir ∧ resolveParent s dest = .ok (d, name) ∧
    CanAdd s d name ∧ 65535 ≤ (s.inodes src).hardLinksCount

/-- The two steps that break the invariant are not taken. -/
structure Tame (s : Fs Attached) (op : Op) : Prop where
  link : ¬ LinkOverflows s op
  rmdir : ∀ path d name i, op = .removeDirectory path → target s path = some (d, name, i) →
    realName name = true

theorem LinkOverflows.same {s t : Fs Attached} (h : Same s t) {op : Op}
    (hs : LinkOverflows s op) : LinkOverflows t op := by
  obtain ⟨source, dest, src, d, name, rfl, hr, hty, hp, hadd, hlinks⟩ := hs
  refine ⟨source, dest, src, d, name, rfl, ?_, ?_, ?_, hadd.same h, ?_⟩
  · rw [← resolve_same h, hr]
  · rw [← h.apply (fun s => (s.inodes src).inodeType) (fun _ => rfl)]
    exact hty
  · rw [← resolveParent_same h, hp]
  · rw [← h.apply (fun s => (s.inodes src).hardLinksCount) (fun _ => rfl)]
    exact hlinks

theorem Tame.same {s t : Fs Attached} (h : Same s t) {op : Op} (hs : Tame s op) : Tame t op where
  link := fun ho => hs.link (ho.same h.symm)
  rmdir := by
    intro path d name i hop ht
    exact hs.rmdir path d name i hop (by rw [target_same h]; exact ht)

/-! ## What the invariant says of paths -/

theorem Consistent.notDir_of_unused {u : User} {s : Fs Attached} (hs : Consistent u s)
    {i : Fin maxInodes} (hi : s.intmap.inodes i = false) : (s.inodes i).inodeType ≠ .dir := by
  intro h
  rw [hs.sound.dirUsed i h] at hi
  cases hi

theorem Consistent.names_unused {u : User} {s : Fs Attached} (hs : Consistent u s)
    {i : Fin maxInodes} (hi : s.intmap.inodes i = false) : (graphOf s).names i = 0 := by
  by_contra h
  obtain ⟨d, hd⟩ := NameGraph.names_pos_iff.mp (Nat.pos_of_ne_zero h)
  have : s.intmap.inodes i = true := hs.tree.targetLive hd
  rw [this] at hi
  cases hi

theorem Consistent.rootLive {u : User} {s : Fs Attached} (hs : Consistent u s) :
    s.intmap.inodes 0 = true := by
  have h := hs.tree.dirLive hs.tree.rootDir
  rw [show (graphOf s).root = 0 from hs.sound.root] at h
  exact h

theorem Consistent.childLive {u : User} {s : Fs Attached} (hs : Consistent u s)
    {d i : Fin maxInodes} {name : CStr} (hc : child s d name = some i) :
    s.intmap.inodes i = true := by
  by_cases hn : realName name = true
  · exact hs.tree.targetLive (edge_of_child hs.sound.dirs hn hc)
  · rw [child_not_real hs.sound.dirs hc (by simpa using hn)]
    exact hs.rootLive

theorem Consistent.walkLive {u : User} {s : Fs Attached} (hs : Consistent u s)
    {i j : Fin maxInodes} (hi : s.intmap.inodes i = true) (ts : List CStr)
    (h : walk s i ts = some j) : s.intmap.inodes j = true := by
  induction ts generalizing i with
  | nil =>
      rw [walk, Option.some.injEq] at h
      rwa [← h]
  | cons t ts ih =>
      rw [walk] at h
      cases hc : child s i t with
      | none => simp [hc] at h
      | some x =>
          simp only [hc] at h
          exact ih (hs.childLive hc) h

theorem Consistent.resolveLive {u : User} {s : Fs Attached} (hs : Consistent u s) {path : CStr}
    {i : Fin maxInodes} (h : resolve s path = .ok i) : s.intmap.inodes i = true := by
  have hw := (resolve_ok.mp h).2.2.2
  rw [hs.sound.root] at hw
  exact hs.walkLive hs.rootLive _ hw

/-! ## Creations -/

theorem freeInodes_le (s : Fs Attached) : freeInodes s ≤ maxInodes :=
  (Bitmap.clear_le _ _).trans_eq (by simp)

/-- Taking a free inode and a free block, with one new entry for it. -/
theorem Consistent.installed {u : User} {s t : Fs Attached} (hs : Consistent u s)
    {i d : Fin maxInodes} {b : Nat} {name : CStr} {k : Prop} (hf : Fresh s i b)
    (hsound : Sound t) (hd : (s.inodes d).inodeType = .dir)
    (hgraph : graphOf t = (graphOf s).addEntry d name i k)
    (hothers : ∀ j ≠ i, (t.inodes j).inodeType = (s.inodes j).inodeType ∧
      ((s.inodes j).inodeType ≠ .dir → t.inodes j = s.inodes j) ∧
      (t.inodes j).directBlockPtrs = (s.inodes j).directBlockPtrs)
    (hlinks : (t.inodes i).inodeType ≠ .dir → (t.inodes i).hardLinksCount = 1)
    (hslot : slot t i 0 = some b)
    (hmap : t.intmap.inodes = Function.update s.intmap.inodes i true)
    (hblocks : t.intmap.blocks = Function.update s.intmap.blocks b true)
    (hcount : t.superblock.freeInodesCount = u32Dec s.superblock.freeInodesCount) :
    Consistent u t := by
  have hlive : t.intmap.inodes i = true := by rw [hmap]; simp
  have hold : ∀ j ≠ i, t.intmap.inodes j = s.intmap.inodes j := by
    intro j hj
    rw [hmap]
    simp [hj]
  refine ⟨hsound, ?_, ?_, ?_, ?_, ?_⟩
  · rw [hgraph]
    refine hs.tree.addEntry hd (hs.notDir_of_unused hf.inode) (fun _ hi => ?_)
    have hi' : s.intmap.inodes i = true := hi
    rw [hf.inode] at hi'
    cases hi'
  · intro j hj hty
    rw [hgraph, NameGraph.names_addEntry]
    by_cases hji : j = i
    · subst hji
      rw [hlinks hty, hs.names_unused hf.inode, if_pos rfl]
    · obtain ⟨h1, h2, -⟩ := hothers j hji
      rw [h1] at hty
      rw [hold j hji] at hj
      rw [if_neg hji, h2 hty, hs.links j hj hty, Nat.add_zero]
  · intro j hj
    have hji : j ≠ i := by
      rintro rfl
      rw [hlive] at hj
      cases hj
    rw [hold j hji] at hj
    rw [(hothers j hji).2.1 (hs.notDir_of_unused hj)]
    exact hs.unused j hj
  · intro x hx
    by_cases hxb : x = b
    · exact ⟨i, 0, hlive, by rw [hxb]; exact hslot⟩
    · rw [hblocks, Function.update_of_ne hxb] at hx
      obtain ⟨j, l, hj, hl⟩ := hs.owned x hx
      have hji : j ≠ i := by
        rintro rfl
        rw [hf.inode] at hj
        cases hj
      refine ⟨j, l, by rw [hold j hji]; exact hj, ?_⟩
      rw [← hl, slot, slot, inodeGetDirectBlock, inodeGetDirectBlock, (hothers j hji).2.2]
  · have h := Bitmap.clear_update_true (S := Finset.univ) (Finset.mem_univ i) hf.inode
    rw [hcount, freeInodes, hmap, hs.counted, freeInodes]
    rw [u32Dec, if_neg (by omega)]
    omega

/-! ## Removals -/

/-- An inode given back with its last name. -/
theorem Consistent.givenBack {u : User} {s t : Fs Attached} (hs : Consistent u s) (now : Int)
    {i d : Fin maxInodes} {name : CStr} (hi : s.intmap.inodes i = true) (hsound : Sound t)
    (hfind : ((graphOf s).entries d).find? (fun e => decide (e.1 = name)) = some (name, i))
    (hempty : (graphOf s).entries i = []) (hone : (graphOf s).names i = 1)
    (hgraph : graphOf t = (graphOf s).removeEntry d name i True)
    (hin : t.inodes = Function.update s.inodes i (inodeInit (u.at now)))
    (hmap : t.intmap = clearInodeUsed (mapWithout s.intmap (s.inodes i) numDirectBlocks) i)
    (hcount : t.superblock.freeInodesCount = u32Inc s.superblock.freeInodesCount) :
    Consistent u t := by
  have hlive : t.intmap.inodes = Function.update s.intmap.inodes i false := by rw [hmap]; rfl
  have hdead : t.intmap.inodes i = false := by rw [hlive]; simp
  have hold : ∀ j ≠ i, t.intmap.inodes j = s.intmap.inodes j := by
    intro j hj
    rw [hlive]
    simp [hj]
  have hino : ∀ j ≠ i, t.inodes j = s.inodes j := by
    intro j hj
    rw [hin]
    simp [hj]
  refine ⟨hsound, ?_, ?_, ?_, ?_, ?_⟩
  · rw [hgraph]
    exact hs.tree.removeEntry hfind hempty (by simp [hone])
  · intro j hj hty
    have hji : j ≠ i := by
      rintro rfl
      rw [hdead] at hj
      cases hj
    have hn := NameGraph.names_removeEntry (k := True) hfind j
    rw [if_neg hji, Nat.add_zero] at hn
    rw [hino j hji] at hty ⊢
    rw [hold j hji] at hj
    rw [hs.links j hj hty, hgraph, hn]
  · intro j hj
    by_cases hji : j = i
    · rw [hin, hji, Function.update_self]
      rfl
    · rw [hold j hji] at hj
      rw [hino j hji]
      exact hs.unused j hj
  · intro x hx
    rw [hmap] at hx
    have hx' : (s.intmap.blocks x && !holds (s.inodes i) x) = true := hx
    rw [Bool.and_eq_true, Bool.not_eq_true'] at hx'
    obtain ⟨j, l, hj, hl⟩ := hs.owned x hx'.1
    have hji : j ≠ i := by
      rintro rfl
      have := holds_iff.mpr ⟨l, hl⟩
      rw [hx'.2] at this
      cases this
    exact ⟨j, l, by rw [hold j hji]; exact hj, by rw [slot, hino j hji]; exact hl⟩
  · have h := Bitmap.clear_update_false (S := Finset.univ) (Finset.mem_univ i) hi
    have hle := freeInodes_le s
    rw [hcount, freeInodes, hlive, h, hs.counted]
    simp only [u32Inc, u32, maxInodes] at hle ⊢
    unfold freeInodes at *
    omega

/-! ## Names of files -/

/-- A name more or less for a file that stays in use: `fs_create_hard_link`
and `fs_delete_file` on one of several names. -/
theorem Consistent.relinked {u : User} {s t : Fs Attached} (hs : Consistent u s)
    {i : Fin maxInodes} {n : Nat} (hi : s.intmap.inodes i = true)
    (hsound : Sound t) (htree : (graphOf t).Wf)
    (hin : t.inodes = Function.update s.inodes i { s.inodes i with hardLinksCount := n })
    (hmap : t.intmap = s.intmap)
    (hcount : t.superblock.freeInodesCount = s.superblock.freeInodesCount)
    (hself : (s.inodes i).inodeType ≠ .dir → n = (graphOf t).names i)
    (hnames : ∀ j ≠ i, (graphOf t).names j = (graphOf s).names j) : Consistent u t := by
  have hino : ∀ j ≠ i, t.inodes j = s.inodes j := by
    intro j hj
    rw [hin]
    simp [hj]
  refine ⟨hsound, htree, ?_, ?_, ?_, ?_⟩
  · intro j hj hty
    rw [hmap] at hj
    by_cases hji : j = i
    · subst hji
      rw [hin, Function.update_self] at hty ⊢
      exact hself hty
    · rw [hino j hji] at hty ⊢
      rw [hs.links j hj hty, hnames j hji]
  · intro j hj
    rw [hmap] at hj
    have hji : j ≠ i := by
      rintro rfl
      rw [hi] at hj
      cases hj
    rw [hino j hji]
    exact hs.unused j hj
  · intro x hx
    rw [hmap] at hx
    obtain ⟨j, l, hj, hl⟩ := hs.owned x hx
    refine ⟨j, l, by rw [hmap]; exact hj, ?_⟩
    rw [slot_update hin]
    split
    · rename_i hji
      rw [← hl, hji]
      rfl
    · exact hl
  · rw [hcount, hs.counted, freeInodes, freeInodes, hmap]

/-! ## Contents -/

/-- Operations on the content of an inode in use. -/
theorem Consistent.framed {u : User} {s t : Fs Attached} (hs : Consistent u s)
    {i : Fin maxInodes} (hi : s.intmap.inodes i = true) (hsound : Sound t)
    (hframe : Frame s i t) : Consistent u t := by
  have hgraph : graphOf t = graphOf s :=
    graphOf_congr hframe.root hframe.inodeMap hframe.type_eq (fun j _ => by rw [hframe.dirs])
  refine ⟨hsound, by rw [hgraph]; exact hs.tree, ?_, ?_, ?_, ?_⟩
  · intro j hj hty
    rw [hframe.inodeMap] at hj
    rw [hframe.type_eq] at hty
    rw [hframe.links_eq, hgraph, hs.links j hj hty]
  · intro j hj
    rw [hframe.inodeMap] at hj
    have hji : j ≠ i := by
      rintro rfl
      rw [hi] at hj
      cases hj
    rw [hframe.others j hji]
    exact hs.unused j hj
  · intro x hx
    cases hnew : holds (t.inodes i) x with
    | true =>
        obtain ⟨k, hk⟩ := holds_iff.mp hnew
        exact ⟨i, k, by rw [hframe.inodeMap]; exact hi, hk⟩
    | false =>
        cases hold : holds (s.inodes i) x with
        | true =>
            rw [hframe.dropped x hold hnew] at hx
            cases hx
        | false =>
            rw [hframe.blocks x hold hnew] at hx
            obtain ⟨j, l, hj, hl⟩ := hs.owned x hx
            have hji : j ≠ i := by
              rintro rfl
              have := holds_iff.mpr ⟨l, hl⟩
              rw [hold] at this
              cases this
            exact ⟨j, l, by rw [hframe.inodeMap]; exact hj,
              by rw [slot, hframe.others j hji]; exact hl⟩
  · rw [hframe.freeInodesCount, hs.counted, freeInodes, freeInodes, hframe.inodeMap]

/-- A roll-back resets an inode that was free. -/
theorem Consistent.reset {u : User} {s : Fs Attached} (hs : Consistent u s) {now : Int}
    {i : Fin maxInodes} (hi : s.intmap.inodes i = false) {data : Attached}
    (hdirs : ∀ j ≠ i, data.dirs j = s.data.dirs j) :
    Consistent u (reset (u.at now) s i data) := by
  have hni := hs.notDir_of_unused hi
  have hino : ∀ j ≠ i, (FileSystem.reset (u.at now) s i data).inodes j = s.inodes j := by
    intro j hj
    simp [FileSystem.reset, hj]
  have hself : (FileSystem.reset (u.at now) s i data).inodes i = inodeInit (u.at now) := by
    simp [FileSystem.reset]
  have hgraph : graphOf (FileSystem.reset (u.at now) s i data) = graphOf s := by
    refine graphOf_congr rfl rfl (fun j => ?_) (fun j hj => hdirs j (fun h => hni (h ▸ hj)))
    by_cases hji : j = i
    · subst hji
      have h := congrArg Inode.inodeType (hs.unused j hi)
      rw [hself]
      exact h.symm
    · rw [hino j hji]
  refine ⟨hs.sound.reset _ hdirs, by rw [hgraph]; exact hs.tree, ?_, ?_, ?_, hs.counted⟩
  · intro j hj hty
    have hji : j ≠ i := by
      rintro rfl
      rw [show s.intmap.inodes j = true from hj] at hi
      cases hi
    rw [hino j hji] at hty ⊢
    rw [hgraph]
    exact hs.links j hj hty
  · intro j hj
    by_cases hji : j = i
    · rw [hji, hself]
      rfl
    · rw [hino j hji]
      exact hs.unused j hj
  · intro x hx
    obtain ⟨j, l, hj, hl⟩ := hs.owned x hx
    have hji : j ≠ i := by
      rintro rfl
      rw [hi] at hj
      cases hj
    exact ⟨j, l, hj, by rw [slot, hino j hji]; exact hl⟩

/-! ## Every tame effect keeps `Consistent` -/

theorem update_true_iff {f : Fin maxInodes → Bool} {i j : Fin maxInodes} :
    Function.update f i true j = true ↔ j = i ∨ f j = true := by
  by_cases hj : j = i <;> simp [hj]

theorem update_false_iff {f : Fin maxInodes → Bool} {i j : Fin maxInodes} :
    Function.update f i false j = true ↔ f j = true ∧ (j = i → ¬ True) := by
  by_cases hj : j = i <;> simp [hj]

theorem withEntry_dirs_self {data : Attached} {d i : Fin maxInodes} {name : CStr} :
    (withEntry data d name i).dirs d = data.dirs d ++ [⟨name, i⟩] := by
  simp [withEntry, Attached.setDir]

theorem withEntry_dirs_ne {data : Attached} {d i j : Fin maxInodes} {name : CStr} (h : j ≠ d) :
    (withEntry data d name i).dirs j = data.dirs j := by
  simp [withEntry, Attached.setDir, h]

/-- A file or a symbolic link created under a new name. -/
theorem Consistent.createLeaf {u : User} {s : Fs Attached} (hs : Consistent u s)
    {i d : Fin maxInodes} {b : Nat} {name : CStr} {n : Inode} {data : Attached}
    (hadd : CanAdd s d name) (hf : Fresh s i b) (hdata : data.dirs = s.data.dirs)
    (hty : n.inodeType ≠ .dir) (hptr : n.directBlockPtrs = onePtr b)
    (hlinks : n.hardLinksCount = 1)
    (hsound : Sound (FileSystem.installed s i n b (withEntry data d name i))) :
    Consistent u (FileSystem.installed s i n b (withEntry data d name i)) := by
  have hni := hs.notDir_of_unused hf.inode
  have hself : (FileSystem.installed s i n b (withEntry data d name i)).inodes i = n := by
    simp [FileSystem.installed]
  have hino : ∀ j ≠ i,
      (FileSystem.installed s i n b (withEntry data d name i)).inodes j = s.inodes j := by
    intro j hj
    simp [FileSystem.installed, hj]
  have hgraph : graphOf (FileSystem.installed s i n b (withEntry data d name i))
      = (graphOf s).addEntry d name i False := by
    refine graphOf_addEntry hs.sound.dirs hadd hni rfl (fun j => update_true_iff)
      (fun j hj => by rw [hino j hj]) (by simp [hself, hty]) ?_ ?_ (fun h => h.elim)
    · rw [← hdata]
      exact withEntry_dirs_self
    · intro j _ hjd
      rw [← hdata]
      exact withEntry_dirs_ne hjd
  refine hs.installed hf hsound hadd.isDir hgraph ?_ ?_ ?_ rfl rfl rfl
  · intro j hj
    rw [hino j hj]
    exact ⟨rfl, fun _ => rfl, rfl⟩
  · intro _
    rw [hself, hlinks]
  · rw [slot, hself, getDirectBlock_eq_some, hptr]
    exact ⟨by decide, rfl⟩

/-- A directory created under a new name. -/
theorem Consistent.createDirectory {u : User} {now : Int} {s : Fs Attached}
    (hs : Consistent u s) {i d : Fin maxInodes} {mode b : Nat} {name : CStr}
    (hadd : CanAdd s d name) (hne : d ≠ i) (hf : Fresh s i b)
    (hsound : Sound (inodeIncrementLinks d
      (FileSystem.installed s i (newDirInode (u.at now) mode b) b
        (withEntry (s.data.setDir i Directory.init) d name i)))) :
    Consistent u (inodeIncrementLinks d
      (FileSystem.installed s i (newDirInode (u.at now) mode b) b
        (withEntry (s.data.setDir i Directory.init) d name i))) := by
  set data := withEntry (s.data.setDir i Directory.init) d name i with hdata
  set t := inodeIncrementLinks d
    (FileSystem.installed s i (newDirInode (u.at now) mode b) b data) with ht
  have hni := hs.notDir_of_unused hf.inode
  have hself : t.inodes i = newDirInode (u.at now) mode b := by
    simp [ht, inodeIncrementLinks, Fs.modifyInode, FileSystem.installed, Ne.symm hne]
  have hino : ∀ j ≠ i, j ≠ d → t.inodes j = s.inodes j := by
    intro j hj hjd
    simp [ht, inodeIncrementLinks, Fs.modifyInode, FileSystem.installed, hj, hjd]
  have hparent : t.inodes d
      = { s.inodes d with hardLinksCount := u16Inc (s.inodes d).hardLinksCount } := by
    simp [ht, inodeIncrementLinks, Fs.modifyInode, FileSystem.installed, hne]
  have hothers : ∀ j ≠ i, (t.inodes j).inodeType = (s.inodes j).inodeType ∧
      ((s.inodes j).inodeType ≠ .dir → t.inodes j = s.inodes j) ∧
      (t.inodes j).directBlockPtrs = (s.inodes j).directBlockPtrs := by
    intro j hj
    by_cases hjd : j = d
    · rw [hjd, hparent]
      exact ⟨rfl, fun hty => absurd hadd.isDir hty, rfl⟩
    · rw [hino j hj hjd]
      exact ⟨rfl, fun _ => rfl, rfl⟩
  have hempty : data.dirs i = Directory.init := by
    rw [hdata, withEntry_dirs_ne (Ne.symm hne)]
    simp [Attached.setDir]
  have hgraph : graphOf t = (graphOf s).addEntry d name i True := by
    refine graphOf_addEntry hs.sound.dirs hadd hni rfl (fun j => update_true_iff)
      (fun j hj => (hothers j hj).1) (iff_of_true (by rw [hself]; rfl) trivial) ?_ ?_ ?_
    · refine withEntry_dirs_self.trans ?_
      simp [Attached.setDir, hne]
    · intro j hj hjd
      refine (withEntry_dirs_ne hjd).trans ?_
      simp [Attached.setDir, hj]
    · intro _
      exact (congrArg Directory.real hempty).trans (by decide)
  refine hs.installed hf hsound hadd.isDir hgraph hothers ?_ ?_ rfl rfl rfl
  · intro hty
    rw [hself] at hty
    exact absurd rfl hty
  · rw [slot, hself]
    rfl

/-- A second name for a file. -/
theorem graphOf_hardLink {s : Fs Attached} (hs : DirsOk s) {src d : Fin maxInodes} {name : CStr}
    (hlive : s.intmap.inodes src = true) (hty : (s.inodes src).inodeType ≠ .dir)
    (hadd : CanAdd s d name) :
    graphOf (inodeIncrementLinks src { s with data := withEntry s.data d name src })
      = (graphOf s).addEntry d name src False := by
  have htype : ∀ j, ((inodeIncrementLinks src
      { s with data := withEntry s.data d name src }).inodes j).inodeType
      = (s.inodes j).inodeType := by
    intro j
    by_cases hj : j = src
    · subst hj; simp [inodeIncrementLinks, Fs.modifyInode]
    · simp [inodeIncrementLinks, Fs.modifyInode, hj]
  refine graphOf_addEntry hs hadd hty rfl ?_ (fun j _ => htype j) (by simp [htype, hty])
    withEntry_dirs_self (fun j _ hjd => withEntry_dirs_ne hjd) (fun h => h.elim)
  intro j
  constructor
  · exact Or.inr
  · rintro (rfl | h)
    · exact hlive
    · exact h

theorem u16Dec_eq_zero {n : Nat} : u16Dec n = 0 ↔ n = 1 := by
  rw [u16Dec]
  split <;> omega

/-- The name that is removed belongs to a leaf of the tree. -/
theorem Consistent.leaf_of_file {u : User} {s : Fs Attached} (hs : Consistent u s)
    {i : Fin maxInodes} (hty : (s.inodes i).inodeType ≠ .dir) : (graphOf s).entries i = [] :=
  hs.tree.no_entries hty

theorem Effect.consistent {u : User} {now : Int} {s t : Fs Attached} {op : Op} {r : Int}
    (he : Effect (u.at now) s op r t) (hs : Consistent u s) (hop : Tame s op) :
    Consistent u t := by
  have hsound := he.sound hs.sound
  cases he with
  | unchanged => exact hs
  | rolledBack _ hi hdirs _ => exact hs.reset hi hdirs
  | createFile _ hadd hf =>
      exact hs.createLeaf hadd hf rfl (by simp [newFileInode]) rfl rfl hsound
  | createSymlink _ hadd _ hf =>
      exact hs.createLeaf hadd hf rfl (by simp [newSymlinkInode]) rfl rfl hsound
  | @createDirectory path mode filename name d i b hp hfree hadd hne hf =>
      exact hs.createDirectory hadd hne hf hsound
  | @createHardLink source dest src d name hsrc hty hp hadd =>
      have hlive := hs.resolveLive hsrc
      have hlt : (s.inodes src).hardLinksCount < 65535 := by
        by_contra hge
        exact hop.link ⟨source, dest, src, d, name, rfl, hsrc, hty, hp, hadd, by omega⟩
      have hgraph := graphOf_hardLink hs.sound.dirs hlive hty hadd
      refine hs.relinked hlive hsound ?_ rfl rfl rfl ?_ ?_
      · rw [hgraph]
        exact hs.tree.addEntry hadd.isDir hty (fun h => h.elim)
      · intro _
        rw [hgraph, NameGraph.names_addEntry, if_pos rfl, ← hs.links src hlive hty]
        simp only [u16Inc, u16]
        omega
      · intro j hj
        rw [hgraph, NameGraph.names_addEntry, if_neg hj, Nat.add_zero]
  | @unlinked path d i name ht hty hlinks =>
      obtain ⟨hp, hc⟩ := target_some.mp ht
      have hn := realName_of_target_file hs.sound ht hty
      have hfind := find_graphOf hs.sound.dirs hn hc
      have hedge := edge_of_child hs.sound.dirs hn hc
      have hlive := hs.childLive hc
      have hdi : d ≠ i := fun h => hty (h ▸ child_isDir hc)
      have hcount := hs.links i hlive hty
      have hne1 : (graphOf s).names i ≠ 1 := by
        rw [← hcount]
        exact fun h => hlinks (u16Dec_eq_zero.mpr h)
      have hgraph : graphOf (inodeDecrementLinks i { s with data := withoutEntry s.data d name })
          = (graphOf s).removeEntry d name i False := by
        have htype : ∀ j, ((inodeDecrementLinks i
            { s with data := withoutEntry s.data d name }).inodes j).inodeType
            = (s.inodes j).inodeType := by
          intro j
          by_cases hj : j = i
          · subst hj; simp [inodeDecrementLinks, Fs.modifyInode]
          · simp [inodeDecrementLinks, Fs.modifyInode, hj]
        exact graphOf_removeEntry (child_isDir hc) hdi hn (hs.leaf_of_file hty) rfl
          (fun j => by simp [inodeDecrementLinks]) (fun j _ => htype j) (by simp [htype]) rfl
      have hnames := NameGraph.names_removeEntry (k := False) hfind
      refine hs.relinked hlive hsound ?_ rfl rfl rfl ?_ ?_
      · rw [hgraph]
        exact hs.tree.removeEntry hfind (hs.leaf_of_file hty) (by simp [hne1])
      · intro _
        have h1 := hnames i
        rw [if_pos rfl] at h1
        rw [hgraph, hcount, u16Dec, if_neg (by omega)]
        omega
      · intro j hj
        have h1 := hnames j
        rw [if_neg hj, Nat.add_zero] at h1
        rw [hgraph, h1]
  | @deleted path d i name ht hty hlinks =>
      obtain ⟨hp, hc⟩ := target_some.mp ht
      have hn := realName_of_target_file hs.sound ht hty
      have hlive := hs.childLive hc
      have hdi : d ≠ i := fun h => hty (h ▸ child_isDir hc)
      have hone : (graphOf s).names i = 1 := by
        rw [← hs.links i hlive hty]
        exact u16Dec_eq_zero.mp hlinks
      refine hs.givenBack now hlive hsound (find_graphOf hs.sound.dirs hn hc)
        (hs.leaf_of_file hty) hone ?_ rfl rfl rfl
      refine graphOf_removeEntry (child_isDir hc) hdi hn (hs.leaf_of_file hty) rfl
        (fun j => update_false_iff) (fun j hj => by simp [released, hj]) ?_ rfl
      simp [released, inodeInit]
  | @removeDirectory path d i name p ht hr hdir hempty =>
      obtain ⟨hp, hc⟩ := target_some.mp ht
      have hn := hop.rmdir path d name i rfl ht
      have hedge := edge_of_child hs.sound.dirs hn hc
      have hty := (getDirectoryByInode_some hdir).1
      have hlive := hs.childLive hc
      have hdi : d ≠ i := fun h => hs.tree.acyclic i (.single (h ▸ hedge))
      have hleaf : (graphOf s).entries i = [] := by
        have hreal : (s.data.dirs i).real = [] := by
          by_contra h
          obtain ⟨e, he⟩ := List.exists_mem_of_ne_nil _ h
          have := Directory.two_lt_length (hs.sound.dirs i hty) he
          omega
        simp [graphOf, hreal]
      have hone := hs.tree.names_dir hty (hs.tree.targetNeRoot hedge)
      refine hs.givenBack now hlive hsound (find_graphOf hs.sound.dirs hn hc) hleaf hone
        ?_ rfl rfl rfl
      refine graphOf_removeEntry (child_isDir hc) hdi hn hleaf rfl
        (fun j => update_false_iff) (fun j hj => by simp [freed, hj]) ?_ rfl
      simp [freed, inodeInit]
  | changeMode hr =>
      exact hs.framed (hs.resolveLive hr) hsound
        ((Frame.refl _ _).modifyInode (fun _ => rfl) (fun _ => rfl) (fun _ => rfl))
  | changeOwner hr =>
      exact hs.framed (hs.resolveLive hr) hsound
        ((Frame.refl _ _).modifyInode (fun _ => rfl) (fun _ => rfl) (fun _ => rfl))
  | writeFile ht _ =>
      exact hs.framed (hs.childLive (target_some.mp ht).2) hsound (written_frame hs.sound _ _ _)
  | truncate hr =>
      exact hs.framed (hs.resolveLive hr) hsound (truncated_frame hs.sound _ _)

/-! ## Runs -/

theorem step_consistent {u : User} {now : Int} {s t : Fs Attached} {op : Op} {r : Int}
    (hs : Consistent u s) (hop : Tame s op) (h : step (u.at now) s op = .ok (r, t)) :
    Consistent u t := by
  obtain ⟨s', t', hss, htt, he⟩ := step_effect hs.sound h
  exact (he.consistent (hs.same hss) (hop.same hss)).same htt.symm

theorem nameCount_same {s t : Fs Attached} (h : Same s t) (i : Fin maxInodes) :
    nameCount s i = nameCount t i := h.apply (fun s => nameCount s i) (fun _ => rfl)

/-- In place of a condition on the hard link that overflows: no inode has
65536 names afterwards. -/
theorem step_consistent_of_names {u : User} {now : Int} {s t : Fs Attached} {op : Op} {r : Int}
    (hs : Consistent u s) (hnames : ∀ i, nameCount t i < 65536)
    (hrmdir : ∀ path d name i, op = .removeDirectory path → target s path = some (d, name, i) →
      realName name = true)
    (h : step (u.at now) s op = .ok (r, t)) : Consistent u t := by
  by_cases hover : LinkOverflows s op
  · obtain ⟨s', t', hss, htt, he⟩ := step_effect hs.sound h
    have hs' := hs.same hss
    obtain ⟨source, dest, src, d, name, rfl, hr, hty, hp, hadd, hlinks⟩ := hover.same hss
    refine Consistent.same htt.symm ?_
    cases he with
    | unchanged => exact hs'
    | rolledBack _ hi hdirs _ => exact hs'.reset hi hdirs
    | @createHardLink _ _ src' d' name' hr' hty' hp' hadd' =>
        -- the link is made, so its inode has one name more than it counts
        obtain rfl : src = src' := by
          rw [hr] at hr'
          exact Except.ok.inj hr'
        set t' := inodeIncrementLinks src { s' with data := withEntry s'.data d' name' src } with ht'
        have hlive := hs'.resolveLive hr
        have hsound : Sound t' :=
          (Effect.createHardLink (c := u.at now) hr hty' hp' hadd').sound hs'.sound
        have hgraph : graphOf t' = (graphOf s').addEntry d' name' src False :=
          graphOf_hardLink hs'.sound.dirs hlive hty' hadd'
        have hcount : nameCount t' src = nameCount s' src + 1 := by
          rw [← names_graphOf hsound.dirs, ← names_graphOf hs'.sound.dirs, hgraph,
            NameGraph.names_addEntry, if_pos rfl]
        have hlt := hnames src
        rw [nameCount_same htt, hcount, ← names_graphOf hs'.sound.dirs,
          ← hs'.links src hlive hty'] at hlt
        omega
  · exact step_consistent hs ⟨hover, hrmdir⟩ h

theorem Consistent.init (u : User) (now : Int) : Consistent u (fsInit (u.at now)) := by
  have hentries : ∀ d, (graphOf (fsInit (u.at now))).entries d = [] := by
    intro d
    simp only [graphOf]
    split
    · rename_i hd
      obtain rfl := type_fsInit _ hd
      rfl
    · rfl
  have hedge : ∀ d i, ¬ (graphOf (fsInit (u.at now))).Edge d i := by
    intro d i h
    rw [NameGraph.Edge, hentries] at h
    simp at h
  have hmap : (fsInit (u.at now) : Fs Attached).intmap.inodes
      = Function.update (fun _ => false) 0 true := rfl
  have hlive : ∀ i, (fsInit (u.at now) : Fs Attached).intmap.inodes i = true → i = 0 := by
    intro i hi
    rw [hmap] at hi
    by_contra h
    simp [h] at hi
  have hnames : ∀ i, (graphOf (fsInit (u.at now))).names i = 0 := by
    intro i
    by_contra h
    obtain ⟨d, hd⟩ := NameGraph.names_pos_iff.mp (Nat.pos_of_ne_zero h)
    exact hedge d i hd
  refine ⟨Sound.init _, ⟨rfl, ?_, fun h => absurd h (hedge _ _), fun h => absurd h (hedge _ _),
    fun h => absurd h (hedge _ _), fun _ => by rw [hnames]; omega, ?_, ?_⟩, ?_, ?_, ?_, ?_⟩
  · intro i hi
    obtain rfl := type_fsInit _ hi
    rfl
  · intro i hi
    obtain rfl := hlive i hi
    exact .refl
  · intro i h
    obtain ⟨b, hb, -⟩ := Relation.TransGen.head'_iff.mp h
    exact hedge i b hb
  · intro i hi hty
    obtain rfl := hlive i hi
    exact absurd rfl hty
  · intro i hi
    have hne : i ≠ 0 := by
      rintro rfl
      cases hi
    have : (fsInit (u.at now) : Fs Attached).inodes i = inodeInit (u.at now) := by
      simp [fsInit, hne]
    rw [this]
    rfl
  · intro b hb
    refine ⟨0, 0, rfl, ?_⟩
    have : b = 0 := by
      by_contra hne
      have hz : (fsInit (u.at now) : Fs Attached).intmap.blocks b = false :=
        Function.update_of_ne hne _ _
      rw [hz] at hb
      cases hb
    rw [this]
    rfl
  · have h := Bitmap.clear_update_true (S := Finset.univ) (f := fun _ : Fin maxInodes => false)
      (Finset.mem_univ 0) rfl
    have hall : Bitmap.clear Finset.univ (fun _ : Fin maxInodes => false) = maxInodes := by
      simp [Bitmap.clear]
    have hcount : (fsInit (u.at now) : Fs Attached).superblock.freeInodesCount = maxInodes - 1 :=
      rfl
    rw [freeInodes, hmap, hcount]
    omega

/-- Every state of a tame run is `Consistent`. -/
theorem Reachable.consistent {u : User} {P : Fs Attached → Op → Fs Attached → Prop}
    (hP : ∀ s op t, P s op t → Tame s op) {t : Fs Attached} (h : Reachable u P t) :
    Consistent u t :=
  h.invariant (fun now => Consistent.init u now)
    (fun hs hp hstep => step_consistent hs (hP _ _ _ hp) hstep)

end SistemasOperativos.FileSystem
