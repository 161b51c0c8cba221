/-
SistemasOperativos.FileSystem.TreeTheorems — the name space of a state as
a `NameGraph`, and what each operation does to it.

`graphOf s` has the inodes as nodes, the inode map as liveness and the
real entries of the directories. The three creations and
`fs_create_hard_link` are `NameGraph.addEntry` on it, `fs_delete_file`
and `fs_remove_directory` are `NameGraph.removeEntry`.
-/
import SistemasOperativos.FileSystem.SoundTheorems
import SistemasOperativos.Lib.NameGraph

namespace SistemasOperativos.FileSystem

/-! ## The graph of a state -/

/-- An entry as a named edge. -/
def edgeOf (e : DirEntry) : CStr × Fin maxInodes := (e.name, Fin.ofNat maxInodes e.inodeNumber)

def graphOf (s : Fs Attached) : NameGraph (Fin maxInodes) CStr where
  root := s.superblock.rootInodeNumber
  live := fun i => s.intmap.inodes i = true
  isDir := fun i => (s.inodes i).inodeType = .dir
  entries := fun d =>
    if (s.inodes d).inodeType = .dir then (s.data.dirs d).real.map edgeOf else []

/-- The number of directory entries, other than `.` and `..`, that name
inode `i`. -/
def nameCount (s : Fs Attached) (i : Fin maxInodes) : Nat :=
  ∑ d, if (s.inodes d).inodeType = .dir then
    (s.data.dirs d).real.countP (fun e => e.inodeNumber == (i : Nat)) else 0

theorem edgeOf_eq {e : DirEntry} {n : CStr} {i : Fin maxInodes} (he : e.inodeNumber < maxInodes) :
    edgeOf e = (n, i) ↔ e.name = n ∧ e.inodeNumber = i := by
  unfold edgeOf
  rw [Prod.mk.injEq, Fin.ext_iff, Fin.val_ofNat, Nat.mod_eq_of_lt he]

theorem named_comp_edgeOf (name : CStr) :
    (fun e => decide (e.1 = name)) ∘ edgeOf = fun e => e.name == name := by
  funext e
  by_cases he : e.name = name <;> simp [edgeOf, he]

theorem real_lt {d : Directory} (hd : DirOk d) {e : DirEntry} (he : e ∈ d.real) :
    e.inodeNumber < maxInodes := hd.inos e (List.mem_filter.mp he).1

theorem count_edges {d : Directory} (hd : ∀ e ∈ d, e.inodeNumber < maxInodes)
    (i : Fin maxInodes) :
    ((d.map edgeOf).map Prod.snd).count i = d.countP (fun e => e.inodeNumber == (i : Nat)) := by
  induction d with
  | nil => rfl
  | cons e d ih =>
      have he := hd e (by simp)
      have hiff : ((edgeOf e).2 == i) = (e.inodeNumber == (i : Nat)) := by
        rw [Bool.eq_iff_iff, beq_iff_eq, beq_iff_eq, edgeOf, Fin.ext_iff, Fin.val_ofNat,
          Nat.mod_eq_of_lt he]
      rw [List.map_cons, List.map_cons, List.count_cons, List.countP_cons, hiff,
        ih (fun x hx => hd x (by simp [hx]))]

theorem names_graphOf {s : Fs Attached} (hs : DirsOk s) (i : Fin maxInodes) :
    (graphOf s).names i = nameCount s i := by
  unfold NameGraph.names nameCount graphOf
  refine Finset.sum_congr rfl (fun d _ => ?_)
  dsimp only
  split
  · rename_i hd
    exact count_edges (fun e he => real_lt (hs d hd) he) i
  · rfl

/-- An edge of the graph is a real entry of a directory. -/
theorem edge_graphOf {s : Fs Attached} (hs : DirsOk s) {d i : Fin maxInodes} :
    (graphOf s).Edge d i ↔
      (s.inodes d).inodeType = .dir ∧ ∃ e ∈ (s.data.dirs d).real, e.inodeNumber = i := by
  unfold NameGraph.Edge graphOf
  dsimp only
  split
  · rename_i hd
    simp only [List.mem_map, hd, true_and]
    constructor
    · rintro ⟨-, ⟨e, he, rfl⟩, rfl⟩
      exact ⟨e, he, by simp [edgeOf, Nat.mod_eq_of_lt (real_lt (hs d hd) he)]⟩
    · rintro ⟨e, he, hi⟩
      exact ⟨(e.name, i), ⟨e, he, (edgeOf_eq (real_lt (hs d hd) he)).mpr ⟨rfl, hi⟩⟩, rfl⟩
  · rename_i hd
    simp [hd]

/-- The entry that a real name finds is an edge with that name. -/
theorem find_graphOf {s : Fs Attached} (hs : DirsOk s) {d i : Fin maxInodes} {name : CStr}
    (hn : realName name = true) (hc : child s d name = some i) :
    ((graphOf s).entries d).find? (fun e => decide (e.1 = name)) = some (name, i) := by
  obtain ⟨-, e, he, hi⟩ := child_some hc
  have hd := child_isDir hc
  have hlt := (hs d hd).inos e (Directory.entryNamed_some he).1
  have hname := (Directory.entryNamed_some he).2
  have hfind : (s.data.dirs d).real.find? (fun e => e.name == name) = some e := by
    rw [Directory.real, List.find?_filter, ← he, Directory.entryNamed]
    congr 1
    funext x
    by_cases hx : x.name = name
    · simp [hx, hn]
    · simp [hx]
  simp only [graphOf, hd, if_true, List.find?_map]
  rw [named_comp_edgeOf, hfind]
  exact congrArg some ((edgeOf_eq hlt).mpr ⟨hname, hi⟩)

theorem edge_of_child {s : Fs Attached} (hs : DirsOk s) {d i : Fin maxInodes} {name : CStr}
    (hn : realName name = true) (hc : child s d name = some i) : (graphOf s).Edge d i :=
  NameGraph.edge_of_mem (List.mem_of_find?_eq_some (find_graphOf hs hn hc))

/-- The graph ignores everything but the root, the inode map, the types
and the directories of directory inodes. -/
theorem graphOf_congr {s t : Fs Attached}
    (hroot : t.superblock.rootInodeNumber = s.superblock.rootInodeNumber)
    (hlive : t.intmap.inodes = s.intmap.inodes)
    (hty : ∀ j, (t.inodes j).inodeType = (s.inodes j).inodeType)
    (hdirs : ∀ j, (s.inodes j).inodeType = .dir → t.data.dirs j = s.data.dirs j) :
    graphOf t = graphOf s := by
  simp only [graphOf, hroot, hlive, hty, NameGraph.mk.injEq, true_and]
  funext j
  split
  · rename_i hj; rw [hdirs j hj]
  · rfl

/-! ## Adding an entry -/

theorem graphOf_addEntry {s t : Fs Attached} (hs : DirsOk s) {d i : Fin maxInodes} {name : CStr}
    (hadd : CanAdd s d name) (hi : (s.inodes i).inodeType ≠ .dir) {k : Prop}
    (hroot : t.superblock.rootInodeNumber = s.superblock.rootInodeNumber)
    (hlive : ∀ j, t.intmap.inodes j = true ↔ j = i ∨ s.intmap.inodes j = true)
    (hty : ∀ j ≠ i, (t.inodes j).inodeType = (s.inodes j).inodeType)
    (htyi : (t.inodes i).inodeType = .dir ↔ k)
    (hd : t.data.dirs d = s.data.dirs d ++ [⟨name, i⟩])
    (hdirs : ∀ j ≠ i, j ≠ d → t.data.dirs j = s.data.dirs j)
    (hnew : k → (t.data.dirs i).real = []) :
    graphOf t = (graphOf s).addEntry d name i k := by
  have hdi : d ≠ i := fun h => hi (h ▸ hadd.isDir)
  have hname := Directory.realName_of_entryNamed_none (hs d hadd.isDir) hadd.free
  simp only [graphOf, NameGraph.addEntry, NameGraph.mk.injEq]
  refine ⟨hroot, ?_, ?_, ?_⟩
  · funext j
    exact propext (hlive j)
  · funext j
    apply propext
    by_cases hj : j = i
    · subst hj; simp [htyi, hi]
    · simp [hj, hty j hj]
  · funext j
    by_cases hj : j = i
    · subst hj
      rw [Function.update_of_ne (Ne.symm hdi), if_neg hi]
      split
      · rename_i hk
        rw [hnew (htyi.mp hk)]
        rfl
      · rfl
    · rw [hty j hj]
      by_cases hjd : j = d
      · subst hjd
        have hedge : edgeOf ⟨name, i⟩ = (name, i) := (edgeOf_eq i.isLt).mpr ⟨rfl, rfl⟩
        rw [Function.update_self, if_pos hadd.isDir, if_pos hadd.isDir, hd,
          Directory.real_add _ hname, List.map_append, List.map_cons, hedge]
        rfl
      · rw [Function.update_of_ne hjd, hdirs j hj hjd]

/-! ## Removing an entry -/

theorem graphOf_removeEntry {s t : Fs Attached} {d i : Fin maxInodes} {name : CStr} {k : Prop}
    (hd : (s.inodes d).inodeType = .dir) (hdi : d ≠ i) (hn : realName name = true)
    (hempty : (graphOf s).entries i = [])
    (hroot : t.superblock.rootInodeNumber = s.superblock.rootInodeNumber)
    (hlive : ∀ j, t.intmap.inodes j = true ↔ s.intmap.inodes j = true ∧ (j = i → ¬ k))
    (hty : ∀ j ≠ i, (t.inodes j).inodeType = (s.inodes j).inodeType)
    (htyi : (t.inodes i).inodeType = .dir ↔ (s.inodes i).inodeType = .dir ∧ ¬ k)
    (hdirs : t.data.dirs = (withoutEntry s.data d name).dirs) :
    graphOf t = (graphOf s).removeEntry d name i k := by
  simp only [graphOf, NameGraph.removeEntry, NameGraph.mk.injEq]
  refine ⟨hroot, ?_, ?_, ?_⟩
  · funext j
    exact propext (hlive j)
  · funext j
    apply propext
    by_cases hj : j = i
    · subst hj; simp [htyi]
    · simp [hj, hty j hj]
  · funext j
    rw [hdirs]
    by_cases hj : j = i
    · subst hj
      rw [Function.update_of_ne (Ne.symm hdi)]
      have hsame : (withoutEntry s.data d name).dirs j = s.data.dirs j := by
        simp [withoutEntry, Attached.setDir, Ne.symm hdi]
      have hold : (if (s.inodes j).inodeType = .dir then (s.data.dirs j).real.map edgeOf else [])
          = [] := hempty
      rw [hsame, hold]
      split
      · rename_i hk
        rw [if_pos (htyi.mp hk).1] at hold
        exact hold
      · rfl
    · rw [hty j hj]
      by_cases hjd : j = d
      · subst hjd
        have hnew : (withoutEntry s.data j name).dirs j = (s.data.dirs j).without name := by
          simp [withoutEntry, Attached.setDir]
        rw [Function.update_self, if_pos hd, if_pos hd, hnew, Directory.real_without hn,
          Directory.without, List.eraseP_map, named_comp_edgeOf]
      · have hsame : (withoutEntry s.data d name).dirs j = s.data.dirs j := by
          simp [withoutEntry, Attached.setDir, hjd]
        rw [Function.update_of_ne hjd, hsame]

end SistemasOperativos.FileSystem
