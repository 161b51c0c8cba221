/-
SistemasOperativos.FileSystem.PathTheorems — the two path resolvers as
pure functions.

`fs_resolve_path` and `fs_resolve_parent` also store access times, which
is why every operation threads the state through them. This module
separates the two: `resolve` and `resolveParent` are the answers, and
`fsResolvePath_eq` / `fsResolveParent_eq` say that the code returns them
with a state that differs in time stamps only. Both answers are about
`walk`, the path from one inode to another along directory entries.

`DirsOk` (every directory is `DirOk`) is what makes the lookups safe:
without it an entry could hold a number outside `fs->inodes[]`.
-/
import SistemasOperativos.FileSystem.DirectoryTheorems
import SistemasOperativos.FileSystem.Fisopfs

namespace SistemasOperativos.FileSystem

/-! ## States that differ in time stamps only -/

section Same

variable {δ : Type}

def Same (s t : Fs δ) : Prop := s.untimed = t.untimed

@[refl] theorem Same.refl (s : Fs δ) : Same s s := rfl

theorem Same.symm {s t : Fs δ} (h : Same s t) : Same t s := Eq.symm h

theorem Same.trans {s t u : Fs δ} (h : Same s t) (h' : Same t u) : Same s u := Eq.trans h h'

/-- A property or value that ignores time stamps is shared by `Same`
states. The hypothesis is `rfl` for everything in this development. -/
theorem Same.apply {α : Sort _} (f : Fs δ → α) (hf : ∀ s, f s.untimed = f s)
    {s t : Fs δ} (h : Same s t) : f s = f t := by
  rw [← hf s, ← hf t, show s.untimed = t.untimed from h]

theorem same_updateAtime (c : Ctx) (i : Fin maxInodes) (s : Fs δ) :
    Same (inodeUpdateAtime c i s) s := Fs.untimed_modifyInode s i (fun _ => rfl)

theorem same_updateMtime (c : Ctx) (i : Fin maxInodes) (s : Fs δ) :
    Same (inodeUpdateMtime c i s) s := Fs.untimed_modifyInode s i (fun _ => rfl)

theorem same_updateCtime (c : Ctx) (i : Fin maxInodes) (s : Fs δ) :
    Same (inodeUpdateCtime c i s) s := Fs.untimed_modifyInode s i (fun _ => rfl)

/-- Whatever the directories hold, the resolvers store access times only. -/
theorem resolveTokens_same [DataArea δ] {c : Ctx} {ts : List CStr} {depth : Nat}
    {cur : Fin maxInodes} {s t : Fs δ} {r : Except Int (Fin maxInodes)}
    (h : resolveTokens c ts depth cur s = .ok (r, t)) : Same s t := by
  induction ts generalizing depth cur s with
  | nil =>
      rw [resolveTokens, Except.ok.injEq, Prod.mk.injEq] at h
      rw [h.2]
  | cons token ts ih =>
      rw [resolveTokens] at h
      split at h
      · cases h; rfl
      · split at h
        · cases h; rfl
        · split at h
          · cases h; rfl
          · split at h
            · cases h
            · exact (same_updateAtime c _ s).symm.trans (ih h)

theorem fsResolvePath_same [DataArea δ] {c : Ctx} {path : CStr} {s t : Fs δ}
    {r : Except Int (Fin maxInodes)} (h : fsResolvePath c s path = .ok (r, t)) : Same s t := by
  unfold fsResolvePath at h
  split at h
  · cases h; rfl
  · split at h
    · cases h; rfl
    · split at h
      · cases h; rfl
      · exact (same_updateAtime c _ s).symm.trans (resolveTokens_same h)

theorem fsResolveParent_same [DataArea δ] {c : Ctx} {path : CStr} {s t : Fs δ}
    {r : Except Int (Fin maxInodes × CStr)} (h : fsResolveParent c s path = .ok (r, t)) :
    Same s t := by
  unfold fsResolveParent at h
  split at h
  · cases h; rfl
  · split at h
    · cases h; rfl
    · split at h
      · cases h; rfl
      · dsimp only at h
        split at h
        · cases h; rfl
        · split at h
          · cases h
          · rename_i hr
            cases h
            exact fsResolvePath_same hr
          · rename_i hr
            cases h
            exact fsResolvePath_same hr

end Same

/-! ## Operations that only look -/

section Looking

variable {δ : Type} [DataArea δ] {c : Ctx} {s t : Fs δ} {path : CStr}

omit [DataArea δ] in
theorem codeOnly_ok {α : Type} {x : Except Fault ((Int × α) × Fs δ)} {r : Int}
    (h : codeOnly x = .ok (r, t)) : ∃ a, x = .ok ((r, a), t) := by
  cases x with
  | error f => cases h
  | ok p =>
      obtain ⟨⟨r', a⟩, t'⟩ := p
      cases h
      exact ⟨a, rfl⟩

theorem inodeAt_ok {r : Int} {i : Fin maxInodes} (h : inodeAt r = .ok i) :
    r = ((i : Nat) : Int) := by
  unfold inodeAt at h
  split at h
  · rename_i hr
    cases h
    simp only
    omega
  · cases h

theorem readFileAt_same (c : Ctx) (s : Fs δ) (i : Fin maxInodes) (size : Nat)
    (offset : Int) : Same s (readFileAt c s i size offset).2 := by
  unfold readFileAt
  dsimp only
  split
  · exact Same.refl s
  · exact (same_updateAtime c i s).symm

theorem fsReadFile_same {size : Nat} {offset : Int} {r : Int × List UInt8}
    (h : fsReadFile c s path size offset = .ok (r, t)) : Same s t := by
  unfold fsReadFile at h
  split at h
  · cases h
  · rename_i hp
    cases h
    exact fsResolveParent_same hp
  · rename_i hp
    have hsame := fsResolveParent_same hp
    split at h
    · cases h; exact hsame
    · split at h
      · cases h; exact hsame
      · split at h
        · cases h
        · rw [← show _ = t from congrArg Prod.snd (Except.ok.inj h)]
          exact hsame.trans (readFileAt_same _ _ _ _ _)

/-- After a test against -1 alone: nothing found, or one inode. -/
theorem resolvedOrFault_ok {α : Type} {res : Except Int (Fin maxInodes)} {x y : α}
    {f : Fin maxInodes → α} (h : resolvedOrFault res x f = .ok y) :
    y = x ∨ ∃ i, y = f i := by
  unfold resolvedOrFault at h
  split at h
  · cases h; exact Or.inr ⟨_, rfl⟩
  · split at h
    · cases h; exact Or.inl rfl
    · cases h

theorem listDirectoryAt_same (c : Ctx) (s : Fs δ) (i : Fin maxInodes) :
    Same s (listDirectoryAt c s i).2 := by
  unfold listDirectoryAt
  split
  · rfl
  · split
    · rfl
    · exact (same_updateAtime c i s).symm

theorem fsListDirectory_same {r : Int × List CStr}
    (h : fsListDirectory c s path = .ok (r, t)) : Same s t := by
  unfold fsListDirectory at h
  split at h
  · cases h; rfl
  · split at h
    · cases h; rfl
    · split at h
      · cases h
      · rename_i s1 hp
        have hsame := fsResolvePath_same hp
        rcases resolvedOrFault_ok h with heq | ⟨i, heq⟩
        · cases heq; exact hsame
        · have hlist := listDirectoryAt_same c s1 i
          rw [← heq] at hlist
          exact hsame.trans hlist

theorem fsStatistics_same {r : Int × Option Stat} (h : fsStatistics c s path = .ok (r, t)) :
    Same s t := by
  unfold fsStatistics at h
  split at h
  · cases h
  · rename_i hp
    have hsame := fsResolvePath_same hp
    rcases resolvedOrFault_ok h with heq | ⟨i, heq⟩
    · cases heq; exact hsame
    · cases heq
      exact hsame.trans (same_updateAtime c i _).symm

theorem fsReadSymlink_same {size : Nat} {r : Int × List UInt8}
    (h : fsReadSymlink c s path size = .ok (r, t)) : Same s t := by
  unfold fsReadSymlink at h
  split at h
  · cases h
  · rename_i hp
    cases h
    exact fsResolvePath_same hp
  · rename_i hp
    have hsame := fsResolvePath_same hp
    split at h
    · cases h; exact hsame
    · split at h
      · cases h; exact hsame
      · cases h; exact hsame

theorem fisopfsUtimens_same {atime mtime r : Int}
    (h : fisopfsUtimens c s path atime mtime = .ok (r, t)) : Same s t := by
  unfold fisopfsUtimens at h
  split at h
  · cases h
  · rename_i hp
    cases h
    exact fsResolvePath_same hp
  · rename_i hp
    cases h
    exact (fsResolvePath_same hp).trans (Same.symm (Fs.untimed_modifyInode _ _ (fun _ => rfl)))

end Looking

/-! ## Directories of a state -/

/-- Every directory inode carries a directory that is `DirOk`. -/
def DirsOk (s : Fs Attached) : Prop :=
  ∀ i, (s.inodes i).inodeType = .dir → DirOk (s.data.dirs i)

theorem DirsOk.same {s t : Fs Attached} (h : Same s t) (hs : DirsOk s) : DirsOk t :=
  (h.apply DirsOk (fun _ => rfl)).mp hs

theorem getDirectoryByInode_some {s : Fs Attached} {i : Fin maxInodes} {p : DirPtr}
    (h : getDirectoryByInode s i = some p) : (s.inodes i).inodeType = .dir ∧ p.inode = i := by
  unfold getDirectoryByInode at h
  split at h
  · cases h
  · rename_i ht
    rw [Option.map_eq_some_iff] at h
    obtain ⟨b, -, rfl⟩ := h
    exact ⟨not_not.mp ht, rfl⟩

/-- The inode that entry `name` of directory `i` names. -/
def child (s : Fs Attached) (i : Fin maxInodes) (name : CStr) : Option (Fin maxInodes) :=
  match getDirectoryByInode s i with
  | none => none
  | some _ =>
      match (s.data.dirs i).entryNamed name with
      | none => none
      | some e => if h : e.inodeNumber < maxInodes then some ⟨e.inodeNumber, h⟩ else none

theorem child_some {s : Fs Attached} {i j : Fin maxInodes} {name : CStr}
    (h : child s i name = some j) :
    (∃ p, getDirectoryByInode s i = some p) ∧
      ∃ e, (s.data.dirs i).entryNamed name = some e ∧ e.inodeNumber = j := by
  unfold child at h
  split at h
  · cases h
  · rename_i p hp
    split at h
    · cases h
    · rename_i e he
      split at h
      · cases h
        exact ⟨⟨p, hp⟩, e, he, rfl⟩
      · cases h

theorem child_isDir {s : Fs Attached} {i j : Fin maxInodes} {name : CStr}
    (h : child s i name = some j) : (s.inodes i).inodeType = .dir := by
  obtain ⟨⟨p, hp⟩, -⟩ := child_some h
  exact (getDirectoryByInode_some hp).1

/-- `directory_lookup` on the directory of inode `i` is `child`. -/
theorem lookup_eq_child {s : Fs Attached} (hs : DirsOk s) {i : Fin maxInodes} {p : DirPtr}
    (hp : getDirectoryByInode s i = some p) (name : CStr) :
    directoryLookup s.data p name = (child s i name).elim (-1) (fun j => ((j : Nat) : Int)) := by
  obtain ⟨ht, hi⟩ := getDirectoryByInode_some hp
  subst hi
  have hd := hs p.inode ht
  show (s.data.dirs p.inode).lookup name = _
  simp only [child, hp]
  cases he : (s.data.dirs p.inode).entryNamed name with
  | none => simp [Directory.lookup_of_entryNamed_none he]
  | some e =>
      have hin := hd.inos e (Directory.entryNamed_some he).1
      simp [Directory.lookup_of_entryNamed he hin, hin]

theorem inodeAt_coe (j : Fin maxInodes) : inodeAt ((j : Nat) : Int) = .ok j := by
  simp [inodeAt]

/-! ## Walking along entries -/

def walk (s : Fs Attached) : Fin maxInodes → List CStr → Option (Fin maxInodes)
  | i, [] => some i
  | i, name :: rest =>
      match child s i name with
      | none => none
      | some j => walk s j rest

theorem walk_append (s : Fs Attached) (ts us : List CStr) (i : Fin maxInodes) :
    walk s i (ts ++ us) = (walk s i ts).bind (fun j => walk s j us) := by
  induction ts generalizing i with
  | nil => rfl
  | cons t ts ih =>
      rw [List.cons_append, walk, walk]
      cases child s i t with
      | none => rfl
      | some j => exact ih j

theorem walk_concat (s : Fs Attached) (ts : List CStr) (t : CStr) (i : Fin maxInodes) :
    walk s i (ts ++ [t]) = (walk s i ts).bind (fun j => child s j t) := by
  rw [walk_append]
  congr 1
  funext j
  rw [walk]
  cases child s j t <;> rfl

/-! ## `fs_resolve_path` -/

/-- The answer of the token loop. -/
def resolveFrom (s : Fs Attached) :
    List CStr → Nat → Fin maxInodes → Except Int (Fin maxInodes)
  | [], _, cur => .ok cur
  | token :: rest, depth, cur =>
      if depth > maxDirDepth then .error (-enametoolong)
      else
        match child s cur token with
        | none => .error (-1)
        | some next => resolveFrom s rest (depth + 1) next

/-- The answer of `fs_resolve_path`. -/
def resolve (s : Fs Attached) (path : CStr) : Except Int (Fin maxInodes) :=
  if path = [] then .error (-1)
  else if path.length ≥ maxPathLen then .error (-enametoolong)
  else resolveFrom s (strtok path) 0 s.superblock.rootInodeNumber

theorem resolveFrom_untimed (s : Fs Attached) (ts : List CStr) (depth : Nat)
    (cur : Fin maxInodes) : resolveFrom s.untimed ts depth cur = resolveFrom s ts depth cur := by
  induction ts generalizing depth cur with
  | nil => rfl
  | cons t ts ih =>
      have hc : child s.untimed cur t = child s cur t := rfl
      simp only [resolveFrom, hc]
      split
      · rfl
      · cases child s cur t with
        | none => rfl
        | some j => exact ih (depth + 1) j

theorem walk_untimed (s : Fs Attached) (ts : List CStr) (i : Fin maxInodes) :
    walk s.untimed i ts = walk s i ts := by
  induction ts generalizing i with
  | nil => rfl
  | cons t ts ih =>
      have hc : child s.untimed i t = child s i t := rfl
      simp only [walk, hc]
      cases child s i t with
      | none => rfl
      | some j => exact ih j

theorem resolve_same {s t : Fs Attached} (h : Same s t) (path : CStr) :
    resolve s path = resolve t path := by
  refine h.apply (fun s => resolve s path) (fun s => ?_)
  simp only [resolve]
  rw [resolveFrom_untimed]
  rfl

theorem walk_same {s t : Fs Attached} (h : Same s t) (i : Fin maxInodes) (ts : List CStr) :
    walk s i ts = walk t i ts := h.apply (fun s => walk s i ts) (fun s => walk_untimed s ts i)

theorem resolveTokens_eq (c : Ctx) {s : Fs Attached} (hs : DirsOk s) (ts : List CStr)
    (depth : Nat) (cur : Fin maxInodes) :
    ∃ t, resolveTokens c ts depth cur s = .ok (resolveFrom s ts depth cur, t) ∧ Same t s := by
  induction ts generalizing s depth cur with
  | nil => exact ⟨s, rfl, Same.refl s⟩
  | cons token ts ih =>
      rw [resolveTokens, resolveFrom]
      by_cases hdepth : depth > maxDirDepth
      · exact ⟨s, by rw [if_pos hdepth, if_pos hdepth], Same.refl s⟩
      · rw [if_neg hdepth, if_neg hdepth]
        cases hp : getDirectoryByInode s cur with
        | none => exact ⟨s, by simp [child, hp], Same.refl s⟩
        | some p =>
            simp only [lookup_eq_child hs hp]
            cases hc : child s cur token with
            | none => exact ⟨s, by simp, Same.refl s⟩
            | some next =>
                have hs' : DirsOk (inodeUpdateAtime c next s) :=
                  hs.same (same_updateAtime c next s).symm
                obtain ⟨t, ht, hsame⟩ := ih hs' (depth + 1) next
                refine ⟨t, ?_, hsame.trans (same_updateAtime c next s)⟩
                have hne : ¬ (((next : Nat) : Int) = -1) := by omega
                simp only [Option.elim_some, hne, if_false, inodeAt_coe, ht]
                rw [← resolveFrom_untimed (inodeUpdateAtime c next s),
                  show (inodeUpdateAtime c next s).untimed = s.untimed from
                    same_updateAtime c next s, resolveFrom_untimed]

/-- `fs_resolve_path` answers `resolve` and touches access times only. -/
theorem fsResolvePath_eq (c : Ctx) {s : Fs Attached} (hs : DirsOk s) (path : CStr) :
    ∃ t, fsResolvePath c s path = .ok (resolve s path, t) ∧ Same t s := by
  unfold fsResolvePath resolve
  split
  · exact ⟨s, rfl, Same.refl s⟩
  · split
    · exact ⟨s, rfl, Same.refl s⟩
    · split
      · rename_i hroot
        subst hroot
        exact ⟨s, rfl, Same.refl s⟩
      · have hs' := hs.same (same_updateAtime c s.superblock.rootInodeNumber s).symm
        obtain ⟨t, ht, hsame⟩ :=
          resolveTokens_eq c hs' (strtok path) 0 s.superblock.rootInodeNumber
        refine ⟨t, ?_, hsame.trans (same_updateAtime c _ s)⟩
        rw [ht, ← resolveFrom_untimed (inodeUpdateAtime c s.superblock.rootInodeNumber s),
          show (inodeUpdateAtime c s.superblock.rootInodeNumber s).untimed = s.untimed from
            same_updateAtime c _ s, resolveFrom_untimed]

/-- The token loop succeeds when the walk does and the depth allows it. -/
theorem resolveFrom_ok (s : Fs Attached) (ts : List CStr) (depth : Nat)
    (cur i : Fin maxInodes) :
    resolveFrom s ts depth cur = .ok i ↔
      walk s cur ts = some i ∧ (ts = [] ∨ ts.length + depth ≤ maxDirDepth + 1) := by
  induction ts generalizing depth cur with
  | nil => simp [resolveFrom, walk]
  | cons t ts ih =>
      rw [resolveFrom, walk]
      by_cases hd : depth > maxDirDepth
      · rw [if_pos hd]
        constructor
        · intro h; cases h
        · rintro ⟨-, h | h⟩
          · cases h
          · rw [List.length_cons] at h; omega
      · rw [if_neg hd]
        cases child s cur t with
        | none => simp
        | some j =>
            simp only [ih, List.length_cons, reduceCtorEq, false_or]
            refine and_congr_right (fun _ => ?_)
            constructor
            · rintro (rfl | h)
              · simp only [List.length_nil]; omega
              · omega
            · intro h; right; omega

theorem resolve_ok {s : Fs Attached} {path : CStr} {i : Fin maxInodes} :
    resolve s path = .ok i ↔
      path ≠ [] ∧ path.length < maxPathLen ∧ (strtok path).length ≤ maxDirDepth + 1 ∧
        walk s s.superblock.rootInodeNumber (strtok path) = some i := by
  unfold resolve
  split
  · rename_i h; simp [h]
  · split
    · rename_i h1 h2
      constructor
      · intro h; cases h
      · rintro ⟨-, h, -⟩; omega
    · rename_i h1 h2
      rw [resolveFrom_ok]
      constructor
      · rintro ⟨hw, hl⟩
        refine ⟨h1, by omega, ?_, hw⟩
        rcases hl with hl | hl
        · simp [hl]
        · omega
      · rintro ⟨-, -, hl, hw⟩
        exact ⟨hw, Or.inr (by omega)⟩

theorem ok_of_toOption {x : Except Int (Fin maxInodes)} {i : Fin maxInodes}
    (h : x.toOption = some i) : x = .ok i := by
  cases x with
  | error e => cases h
  | ok j => cases h; rfl

/-- `fs_resolve_path(path)` returns inode `i`. -/
def ResolvesTo (c : Ctx) (s : Fs Attached) (path : CStr) (i : Fin maxInodes) : Prop :=
  ∃ t, fsResolvePath c s path = .ok (.ok i, t)

/-- `fs_resolve_parent(path)` succeeds with a directory in which the last
component has inode `i`. -/
def ParentLeadsTo {δ : Type} [DataArea δ] (c : Ctx) (s : Fs δ) (path : CStr)
    (i : Fin maxInodes) : Prop :=
  ∃ t d name p, fsResolveParent c s path = .ok (.ok (d, name), t) ∧
    getDirectoryByInode t d = some p ∧ directoryLookup t.data p name = ((i : Nat) : Int)

theorem resolvesTo_iff (c : Ctx) {s : Fs Attached} (hs : DirsOk s) {path : CStr}
    {i : Fin maxInodes} : ResolvesTo c s path i ↔ resolve s path = .ok i := by
  obtain ⟨t, ht, -⟩ := fsResolvePath_eq c hs path
  unfold ResolvesTo
  rw [ht]
  constructor
  · rintro ⟨t', h⟩
    exact congrArg Prod.fst (Except.ok.inj h)
  · intro h
    exact ⟨t, by rw [h]⟩

/-! ## The last slash -/

theorem lastSlash_some {path : CStr} {pos : Nat} (h : lastSlash path = some pos) :
    path = path.take pos ++ slash :: path.drop (pos + 1) ∧ slash ∉ path.drop (pos + 1) := by
  rw [lastSlash, List.find?_eq_some_iff_append] at h
  obtain ⟨hpos, as, bs, happ, has⟩ := h
  have hget : path[pos]? = some slash := by simpa using hpos
  obtain ⟨hlt, hval⟩ := List.getElem?_eq_some_iff.mp hget
  have hsplit : path.drop pos = slash :: path.drop (pos + 1) := by
    rw [List.drop_eq_getElem_cons hlt, hval]
  constructor
  · rw [← hsplit, List.take_append_drop]
  · intro hmem
    obtain ⟨k, hk, hkv⟩ := List.getElem_of_mem hmem
    rw [List.getElem_drop] at hkv
    rw [List.length_drop] at hk
    -- a slash behind `pos` would have been met earlier by the backward scan
    have hmem' : pos + 1 + k ∈ (List.range path.length).reverse := by
      rw [List.mem_reverse, List.mem_range]; omega
    have hrev : List.range path.length = bs.reverse ++ [pos] ++ as.reverse := by
      rw [← List.reverse_reverse (List.range path.length), happ]
      simp
    have hsorted : (List.range path.length).Pairwise (· < ·) := List.pairwise_lt_range
    rw [hrev] at hsorted
    rw [happ, List.mem_append, List.mem_cons] at hmem'
    rcases hmem' with hin | hin | hin
    · have := has _ hin
      rw [List.getElem?_eq_getElem (by omega), hkv] at this
      simp at this
    · omega
    · rw [List.pairwise_append, List.pairwise_append] at hsorted
      have := hsorted.1.2.2 (pos + 1 + k) (by simpa using hin) pos (by simp)
      omega

theorem lastSlash_append (a : CStr) {name : CStr} (h : slash ∉ name) :
    lastSlash (a ++ slash :: name) = some a.length := by
  set path := a ++ slash :: name with hpath
  have hat : path[a.length]? = some slash := by simp [hpath]
  cases hl : lastSlash path with
  | none =>
      rw [lastSlash, List.find?_eq_none] at hl
      have hmem : a.length ∈ (List.range path.length).reverse := by
        rw [List.mem_reverse, List.mem_range, hpath]
        simp
      exact absurd (by rw [hat]; rfl) (hl _ hmem)
  | some pos =>
      obtain ⟨hsplit, hns⟩ := lastSlash_some hl
      have hlen : pos < path.length := by
        by_contra hge
        have htake : path.take pos = path := List.take_of_length_le (by omega)
        rw [htake] at hsplit
        have := congrArg List.length hsplit
        simp at this
      -- of two slashes the later one is in the rest behind the earlier one
      rcases Nat.lt_trichotomy pos a.length with hlt | heq | hgt
      · refine absurd ?_ hns
        have : (path.drop (pos + 1))[a.length - (pos + 1)]? = some slash := by
          rw [List.getElem?_drop, ← hat]
          congr 1
          omega
        exact List.mem_of_getElem? this
      · rw [heq]
      · refine absurd ?_ h
        have hpos : path[pos]? = some slash := by
          rw [hsplit, List.getElem?_append_right (by simp)]
          simp [Nat.min_eq_left hlen.le]
        have : name[pos - (a.length + 1)]? = some slash := by
          rw [← hpos, hpath, List.getElem?_append_right (by omega)]
          rw [show pos - a.length = (pos - (a.length + 1)) + 1 by omega, List.getElem?_cons_succ]
        exact List.mem_of_getElem? this

theorem strtok_append_slash (a b : CStr) : strtok (a ++ slash :: b) = strtok a ++ strtok b := by
  rw [strtok, List.splitOn_append_cons_self, List.filter_append]
  rfl

theorem strtok_of_no_slash {name : CStr} (hne : name ≠ []) (h : slash ∉ name) :
    strtok name = [name] := by
  rw [strtok, List.splitOn_eq_singleton h]
  simp [hne]

theorem strtok_nil : strtok [] = [] := by
  rw [strtok, List.splitOn_nil]
  rfl

theorem strtok_root : strtok nameRoot = [] := by
  have := strtok_append_slash [] []
  rwa [strtok_nil] at this

/-! ## `fs_resolve_parent` -/

/-- The answer of `fs_resolve_parent`. -/
def resolveParent (s : Fs Attached) (path : CStr) : Except Int (Fin maxInodes × CStr) :=
  if path = [] then .error (-einval)
  else if path.length ≥ maxPathLen then .error (-enametoolong)
  else
    match lastSlash path with
    | none => .error (-einval)
    | some pos =>
        if (path.drop (pos + 1)).length = 0 ∨ (path.drop (pos + 1)).length ≥ maxFilenameLen then
          .error (-einval)
        else
          match resolve s (if pos = 0 then nameRoot else path.take pos) with
          | .error e => .error e
          | .ok d => .ok (d, path.drop (pos + 1))

theorem resolveParent_same {s t : Fs Attached} (h : Same s t) (path : CStr) :
    resolveParent s path = resolveParent t path := by
  unfold resolveParent
  simp only [resolve_same h]

/-- `fs_resolve_parent` answers `resolveParent` and touches access times
only. -/
theorem fsResolveParent_eq (c : Ctx) {s : Fs Attached} (hs : DirsOk s) (path : CStr) :
    ∃ t, fsResolveParent c s path = .ok (resolveParent s path, t) ∧ Same t s := by
  unfold fsResolveParent resolveParent
  split
  · exact ⟨s, rfl, Same.refl s⟩
  · split
    · exact ⟨s, rfl, Same.refl s⟩
    · cases lastSlash path with
      | none => exact ⟨s, rfl, Same.refl s⟩
      | some pos =>
          dsimp only
          split
          · exact ⟨s, rfl, Same.refl s⟩
          · obtain ⟨t, ht, hsame⟩ :=
              fsResolvePath_eq c hs (if pos = 0 then nameRoot else path.take pos)
            refine ⟨t, ?_, hsame⟩
            rw [ht]
            cases resolve s (if pos = 0 then nameRoot else path.take pos) <;> rfl

/-- What `fs_resolve_parent` has found when it answers: the path split
at its last slash, and a walk along what is before it. -/
theorem resolveParent_split {s : Fs Attached} {path : CStr} {d : Fin maxInodes} {name : CStr}
    (h : resolveParent s path = .ok (d, name)) :
    ∃ a, path = a ++ slash :: name ∧ path.length < maxPathLen ∧
      (strtok a).length ≤ maxDirDepth + 1 ∧ name ≠ [] ∧ name.length < maxFilenameLen ∧
      slash ∉ name ∧ walk s s.superblock.rootInodeNumber (strtok a) = some d := by
  unfold resolveParent at h
  split at h
  · cases h
  · split at h
    · cases h
    · rename_i hlong
      cases hpos : lastSlash path with
      | none => simp [hpos] at h
      | some pos =>
          simp only [hpos] at h
          split at h
          · cases h
          · rename_i hlen
            cases hr : resolve s (if pos = 0 then nameRoot else path.take pos) with
            | error e => simp [hr] at h
            | ok d' =>
                simp only [hr, Except.ok.injEq, Prod.mk.injEq] at h
                obtain ⟨rfl, rfl⟩ := h
                obtain ⟨hpath, hns⟩ := lastSlash_some hpos
                obtain ⟨-, -, hdepth, hw⟩ := resolve_ok.mp hr
                have htok : strtok (if pos = 0 then nameRoot else path.take pos)
                    = strtok (path.take pos) := by
                  by_cases h0 : pos = 0
                  · subst h0
                    rw [if_pos rfl, List.take_zero, strtok_root, strtok_nil]
                  · rw [if_neg h0]
                rw [htok] at hdepth hw
                refine ⟨path.take pos, hpath, by omega, hdepth, ?_, by omega, hns, hw⟩
                intro hnil
                rw [hnil] at hlen
                exact hlen (Or.inl rfl)

/-- The parent and the name that `fs_resolve_parent` finds split the
tokens of the path at its last component. -/
theorem resolveParent_ok {s : Fs Attached} {path : CStr} {d : Fin maxInodes} {name : CStr}
    (h : resolveParent s path = .ok (d, name)) :
    ∃ ts, strtok path = ts ++ [name] ∧ walk s s.superblock.rootInodeNumber ts = some d ∧
      0 < name.length ∧ name.length < maxFilenameLen ∧ slash ∉ name := by
  obtain ⟨a, rfl, -, -, hne, hshort, hns, hw⟩ := resolveParent_split h
  refine ⟨strtok a, ?_, hw, List.length_pos_iff.mpr hne, hshort, hns⟩
  rw [strtok_append_slash, strtok_of_no_slash hne hns]

/-- The parent of a path, found by walking all components but the last. -/
theorem resolveParent_of_walk {s : Fs Attached} {a name : CStr} {d : Fin maxInodes}
    (hlen : (a ++ slash :: name).length < maxPathLen)
    (hdepth : (strtok a).length ≤ maxDirDepth + 1) (hne : name ≠ [])
    (hshort : name.length < maxFilenameLen) (hns : slash ∉ name)
    (hw : walk s s.superblock.rootInodeNumber (strtok a) = some d) :
    resolveParent s (a ++ slash :: name) = .ok (d, name) := by
  have hpos : 0 < name.length := List.length_pos_iff.mpr hne
  have hdrop : (a ++ slash :: name).drop (a.length + 1) = name := by
    rw [show a ++ slash :: name = (a ++ [slash]) ++ name by simp]
    exact List.drop_left' (by simp)
  have hres : resolve s (if a.length = 0 then nameRoot else (a ++ slash :: name).take a.length)
      = .ok d := by
    by_cases ha : a.length = 0
    · have hnil : a = [] := List.length_eq_zero_iff.mp ha
      subst hnil
      rw [if_pos ha]
      refine resolve_ok.mpr ⟨by decide, by decide, ?_, ?_⟩
      · rw [strtok_root]
        exact Nat.zero_le _
      · rw [strtok_root]
        rwa [strtok_nil] at hw
    · rw [if_neg ha, List.take_left]
      refine resolve_ok.mpr ⟨?_, ?_, by omega, hw⟩
      · rintro rfl
        exact ha rfl
      · rw [List.length_append] at hlen
        omega
  unfold resolveParent
  rw [if_neg (by simp), if_neg (by omega), lastSlash_append a hns]
  simp only [hdrop, hres]
  rw [if_neg (by omega)]

/-- `fs_resolve_parent` in another state where the walk to the parent
ends in the same directory. -/
theorem resolveParent_of_walks {s t : Fs Attached} {path name : CStr} {d : Fin maxInodes}
    (h : resolveParent s path = .ok (d, name))
    (hwalk : ∀ ts, strtok path = ts ++ [name] →
      walk s s.superblock.rootInodeNumber ts = some d →
      walk t t.superblock.rootInodeNumber ts = some d) :
    resolveParent t path = .ok (d, name) := by
  obtain ⟨a, rfl, hlen, hdepth, hne, hshort, hns, hw⟩ := resolveParent_split h
  refine resolveParent_of_walk hlen hdepth hne hshort hns (hwalk _ ?_ hw)
  rw [strtok_append_slash, strtok_of_no_slash hne hns]

/-- The two resolvers agree: the inode of a path is the one its last
name has in its parent. -/
theorem child_of_resolve {s : Fs Attached} {path : CStr} {i d : Fin maxInodes} {name : CStr}
    (hi : resolve s path = .ok i) (hd : resolveParent s path = .ok (d, name)) :
    child s d name = some i := by
  obtain ⟨ts, htok, hw, -⟩ := resolveParent_ok hd
  have h := (resolve_ok.mp hi).2.2.2
  rwa [htok, walk_concat, hw] at h

/-- The entry an operation on an existing path acts on: the parent, the
name and the inode the name has. -/
def target (s : Fs Attached) (path : CStr) : Option (Fin maxInodes × CStr × Fin maxInodes) :=
  match resolveParent s path with
  | .error _ => none
  | .ok (d, name) => (child s d name).map (fun i => (d, name, i))

theorem target_some {s : Fs Attached} {path : CStr} {d i : Fin maxInodes} {name : CStr} :
    target s path = some (d, name, i) ↔
      resolveParent s path = .ok (d, name) ∧ child s d name = some i := by
  unfold target
  cases h : resolveParent s path with
  | error e => simp
  | ok p =>
      obtain ⟨d', name'⟩ := p
      simp only [Option.map_eq_some_iff, Prod.mk.injEq, Except.ok.injEq]
      constructor
      · rintro ⟨j, hj, rfl, rfl, rfl⟩; exact ⟨⟨rfl, rfl⟩, hj⟩
      · rintro ⟨⟨rfl, rfl⟩, hj⟩; exact ⟨i, hj, rfl, rfl, rfl⟩

theorem target_same {s t : Fs Attached} (h : Same s t) (path : CStr) :
    target s path = target t path := by
  have hc : ∀ d name, child s d name = child t d name := fun d name =>
    h.apply (fun s => child s d name) (fun _ => rfl)
  simp only [target, resolveParent_same h, hc]

end SistemasOperativos.FileSystem
