/-
SistemasOperativos.FileSystem.NamespaceTheorems — what a tame run keeps,
in the words of the maps, the slots and the entries.

`Consistent` speaks of the graph of a state. The theorems here read it
back: every used block has one owner, and the entries form a tree of
directories over exactly the used inodes.
-/
import SistemasOperativos.FileSystem.ConsistencyTheorems

namespace SistemasOperativos.FileSystem

/-! ## The runs -/

/-- The paths an operation is called with. -/
def Op.paths : Op → List CStr
  | .createFile path _ => [path]
  | .readFile path _ _ => [path]
  | .writeFile path _ _ _ => [path]
  | .deleteFile path => [path]
  | .createDirectory path _ _ => [path]
  | .listDirectory path => [path]
  | .removeDirectory path => [path]
  | .statistics path => [path]
  | .createSymlink _ linkpath => [linkpath]
  | .readSymlink path _ => [path]
  | .createHardLink source dest => [source, dest]
  | .changeMode path _ => [path]
  | .changeOwner path _ _ => [path]
  | .truncate path _ => [path]
  | .utimens path _ _ => [path]

/-- An absolute path of at most `MAX_DIR_DEPTH` components, none of them
`.` or `..`. -/
structure PlainPath (path : CStr) : Prop where
  absolute : path.head? = some slash
  depth : (strtok path).length ≤ maxDirDepth
  real : ∀ name ∈ strtok path, realName name = true

instance (path : CStr) : Decidable (PlainPath path) :=
  decidable_of_iff
    (path.head? = some slash ∧ (strtok path).length ≤ maxDirDepth ∧
      ∀ name ∈ strtok path, realName name = true)
    ⟨fun h => ⟨h.1, h.2.1, h.2.2⟩, fun h => ⟨h.absolute, h.depth, h.real⟩⟩

/-- All paths of the operation are plain. -/
def Op.Plain (op : Op) : Prop := ∀ path ∈ op.paths, PlainPath path

instance (op : Op) : Decidable op.Plain := inferInstanceAs (Decidable (∀ path ∈ op.paths, _))

/-- Fewer than 65536 names for every inode. -/
def FewNames (t : Fs Attached) : Prop := ∀ i, nameCount t i < 65536

/-- There are no more names than entries. -/
theorem fewNames_of_entries {t : Fs Attached} (h : ∑ d, (t.data.dirs d).length < 65536) :
    FewNames t := by
  intro i
  refine lt_of_le_of_lt (Finset.sum_le_sum (fun d _ => ?_)) h
  split
  · exact List.countP_le_length.trans (List.length_filter_le _ _)
  · exact Nat.zero_le _

/-- A test for runs on fixed inputs. -/
def plainCheck (op : Op) (t : Fs Attached) : Bool :=
  decide op.Plain && decide (∑ d, (t.data.dirs d).length < 65536)

theorem plainCheck_sound (_ : Fs Attached) (op : Op) (t : Fs Attached)
    (h : plainCheck op t = true) : op.Plain ∧ FewNames t := by
  rw [plainCheck, Bool.and_eq_true, decide_eq_true_eq, decide_eq_true_eq] at h
  exact ⟨h.1, fewNames_of_entries h.2⟩

/-- The entry a plain path ends in has a real name. -/
theorem PlainPath.realName_of_target {s : Fs Attached} {path name : CStr} {d i : Fin maxInodes}
    (hp : PlainPath path) (ht : target s path = some (d, name, i)) : realName name = true := by
  obtain ⟨ts, htok, -⟩ := resolveParent_ok (target_some.mp ht).1
  exact hp.real name (by rw [htok]; simp)

theorem Reachable.consistent_of_plain {u : User} {t : Fs Attached}
    (h : Reachable u (fun _ op t => op.Plain ∧ FewNames t) t) : Consistent u t := by
  refine h.invariant (I := Consistent u) (fun now => Consistent.init u now) ?_
  intro now s op r t hs hp hstep
  refine step_consistent_of_names hs hp.2 (fun path d name i hop ht => ?_) hstep
  subst hop
  exact (hp.1 path (by simp [Op.paths])).realName_of_target ht

/-! ## Blocks -/

/-- A block is marked used if and only if it is in exactly one slot of
exactly one used inode, and every pointer is a block of `data_block`. -/
theorem used_block_has_one_owner {u : User} {t : Fs Attached}
    (h : Reachable u (fun _ op t => op.Plain ∧ FewNames t) t) :
    (∀ b, t.intmap.blocks b = true ↔
      ∃! p : Fin maxInodes × Nat, t.intmap.inodes p.1 = true ∧ slot t p.1 p.2 = some b) ∧
    (∀ i k b, slot t i k = some b → b < maxBlocks) := by
  have hc := h.consistent_of_plain
  refine ⟨fun b => ⟨fun hb => ?_, fun hb => ?_⟩, fun i k b hk => (hc.sound.slotUsed i k b hk).1⟩
  · obtain ⟨i, k, hi, hk⟩ := hc.owned b hb
    refine ⟨(i, k), ⟨hi, hk⟩, ?_⟩
    rintro ⟨j, l⟩ ⟨-, hl⟩
    obtain ⟨rfl, rfl⟩ := hc.sound.slotInj j l i k b hl hk
    rfl
  · obtain ⟨p, ⟨-, hk⟩, -⟩ := hb
    exact (hc.sound.slotUsed p.1 p.2 b hk).2

/-- A file created in the root: block 1 is in use. -/
theorem used_block_has_one_owner_after_create :
    ∃ t : Fs Attached, Reachable ⟨0, 0⟩ (fun _ op t => op.Plain ∧ FewNames t) t ∧
      t.intmap.blocks 1 = true ∧
      ∃! p : Fin maxInodes × Nat, t.intmap.inodes p.1 = true ∧ slot t p.1 p.2 = some 1 := by
  have hrun : (runChecked (User.at ⟨0, 0⟩ 0) plainCheck (fsInit (User.at ⟨0, 0⟩ 0))
      [.createFile (cstr "/f") 6]).map (fun t => t.intmap.blocks 1) = some true := by
    decide +kernel
  obtain ⟨t, ht, hb⟩ := Option.map_eq_some_iff.mp hrun
  have hreach : Reachable ⟨0, 0⟩ (fun _ op t => op.Plain ∧ FewNames t) t :=
    ⟨0, runChecked_reaches plainCheck plainCheck_sound ht⟩
  exact ⟨t, hreach, hb, ((used_block_has_one_owner hreach).1 1).mp hb⟩

/-! ## The tree -/

/-- Directory `d` has an entry, other than `.` and `..`, for inode `i`. -/
def Names (t : Fs Attached) (d i : Fin maxInodes) : Prop :=
  (t.inodes d).inodeType = .dir ∧ ∃ e ∈ (t.data.dirs d).real, e.inodeNumber = i

theorem edge_graphOf_eq_names {t : Fs Attached} (hs : DirsOk t) :
    (graphOf t).Edge = Names t := by
  funext d i
  exact propext (edge_graphOf hs)

structure NamespaceOk (t : Fs Attached) : Prop where
  /-- Entries name inodes in use. -/
  target : ∀ d, (t.inodes d).inodeType = .dir → ∀ e ∈ (t.data.dirs d).real,
    ∃ i : Fin maxInodes, e.inodeNumber = i ∧ t.intmap.inodes i = true
  /-- The inodes in use are the root and the named ones. -/
  used : ∀ i, t.intmap.inodes i = true ↔
    i = t.superblock.rootInodeNumber ∨ ∃ d, Names t d i
  /-- A directory has one name. -/
  oneName : ∀ i, (t.inodes i).inodeType = .dir → i ≠ t.superblock.rootInodeNumber →
    nameCount t i = 1
  reached : ∀ i, t.intmap.inodes i = true →
    Relation.ReflTransGen (Names t) t.superblock.rootInodeNumber i
  acyclic : ∀ i, ¬ Relation.TransGen (Names t) i i
  counted : t.superblock.freeInodesCount = freeInodes t

theorem Consistent.namespaceOk {u : User} {t : Fs Attached} (hc : Consistent u t) :
    NamespaceOk t := by
  have hd := hc.sound.dirs
  have hedge := edge_graphOf_eq_names hd
  refine ⟨?_, ?_, ?_, ?_, ?_, hc.counted⟩
  · intro d hty e he
    refine ⟨⟨e.inodeNumber, real_lt (hd d hty) he⟩, rfl, ?_⟩
    exact hc.tree.targetLive ((edge_graphOf hd).mpr ⟨hty, e, he, rfl⟩)
  · intro i
    have h := hc.tree.live_iff (i := i)
    rw [hedge] at h
    exact h
  · intro i hty hi
    rw [← names_graphOf hd]
    exact hc.tree.names_dir hty hi
  · intro i hi
    rw [← hedge]
    exact hc.tree.reach hi
  · intro i
    rw [← hedge]
    exact hc.tree.acyclic i

/-- The name space is a tree of directories over exactly the used inodes,
in every state of every run on plain paths. -/
theorem namespace_is_tree {u : User} {t : Fs Attached}
    (h : Reachable u (fun _ op t => op.Plain ∧ FewNames t) t) : NamespaceOk t :=
  h.consistent_of_plain.namespaceOk

/-- A directory with a file in it, linked a second time into the root. -/
theorem namespace_is_tree_after_link :
    ∃ t : Fs Attached, Reachable ⟨0, 0⟩ (fun _ op t => op.Plain ∧ FewNames t) t ∧
      nameCount t 2 = 2 ∧ NamespaceOk t := by
  have hrun : (runChecked (User.at ⟨0, 0⟩ 0) plainCheck (fsInit (User.at ⟨0, 0⟩ 0))
      [.createDirectory (cstr "/d") 7 (cstr "d"), .createFile (cstr "/d/f") 6,
        .createHardLink (cstr "/d/f") (cstr "/g")]).map (fun t => nameCount t 2) = some 2 := by
    decide +kernel
  obtain ⟨t, ht, hn⟩ := Option.map_eq_some_iff.mp hrun
  have hreach : Reachable ⟨0, 0⟩ (fun _ op t => op.Plain ∧ FewNames t) t :=
    ⟨0, runChecked_reaches plainCheck plainCheck_sound ht⟩
  exact ⟨t, hreach, hn, namespace_is_tree hreach⟩

end SistemasOperativos.FileSystem
