/-
SistemasOperativos.FileSystem.IndexTheorems — when the callers of
`fs_resolve_path` index `fs->inodes[]` inside the array.

`fs_resolve_path` has two kinds of negative results: -1 when a component
is missing, and `-ENAMETOOLONG` for a path of `MAX_PATH_LEN` bytes or a
walk that goes on after `MAX_DIR_DEPTH + 1` components. `fs_statistics`,
`fs_list_directory` and `fs_remove_directory` test for -1 only and take
the other code for an index.

Everything here is for both readings of `data_block`. In the flat reading
an entry can also hold a number that is no inode, once file contents have
run over a directory; `walkEnd` keeps that case apart.
-/
import SistemasOperativos.FileSystem.PathTheorems

namespace SistemasOperativos.FileSystem

variable {δ : Type} [DataArea δ]

/-! ## Walks in any reading of the data -/

/-- How a walk along components ends. -/
inductive WalkEnd where
  | reached (i : Fin maxInodes)
  | missing
  | wild (r : Int)
  deriving DecidableEq, Repr

/-- The walk of `fs_resolve_path`, without the limit on its depth. -/
def walkEnd (s : Fs δ) : Fin maxInodes → List CStr → WalkEnd
  | cur, [] => .reached cur
  | cur, token :: rest =>
      match getDirectoryByInode s cur with
      | none => .missing
      | some dir =>
          if directoryLookup s.data dir token = -1 then .missing
          else
            match inodeAt (directoryLookup s.data dir token) with
            | .error _ => .wild (directoryLookup s.data dir token)
            | .ok next => walkEnd s next rest

/-- The inodes a walk comes to. -/
def visited (s : Fs δ) : Fin maxInodes → List CStr → List (Fin maxInodes)
  | _, [] => []
  | cur, token :: rest =>
      match getDirectoryByInode s cur with
      | none => []
      | some dir =>
          match inodeAt (directoryLookup s.data dir token) with
          | .error _ => []
          | .ok next => next :: visited s next rest

/-- The components `fs_resolve_path` looks at before its depth check
stops it. -/
def lookedAt (path : CStr) : List CStr := (strtok path).take (maxDirDepth + 1)

/-! ## The specification -/

/-- `t` is `s` but for access times of inodes of `V`. -/
structure OnlyAtimes (V : List (Fin maxInodes)) (s t : Fs δ) : Prop where
  intmap : t.intmap = s.intmap
  superblock : t.superblock = s.superblock
  data : t.data = s.data
  inodes : ∀ i, t.inodes i = { s.inodes i with lastAccessTime := (t.inodes i).lastAccessTime }
  others : ∀ i, i ∉ V → t.inodes i = s.inodes i

/-- The operation stays inside `fs->inodes[]`; and when
`fs_resolve_path` reports a negative code, it returns an error and
touches only access times of the inodes on the way. -/
structure IndexSafe (c : Ctx) (s : Fs δ) (path : CStr) (x : Except Fault (Int × Fs δ)) : Prop where
  inside : ∃ r t, x = .ok (r, t)
  failed : ∀ e s', fsResolvePath c s path = .ok (.error e, s') → ∃ r t, x = .ok (r, t) ∧ r < 0 ∧
    OnlyAtimes (s.superblock.rootInodeNumber ::
      visited s s.superblock.rootInodeNumber (lookedAt path)) s t

/-- The walk meets no entry with a number outside `fs->inodes[]`, and it
does not get to an 18th component: there is none, or one before it is
missing. -/
def EndsInTime (s : Fs δ) (path : CStr) : Prop :=
  match walkEnd s s.superblock.rootInodeNumber (lookedAt path) with
  | .wild _ => False
  | .missing => True
  | .reached _ => (strtok path).length ≤ maxDirDepth + 1

/-! ## Access times -/

section Atimes

omit [DataArea δ]

variable {V W : List (Fin maxInodes)} {s t u : Fs δ}

theorem OnlyAtimes.refl (V : List (Fin maxInodes)) (s : Fs δ) : OnlyAtimes V s s :=
  ⟨rfl, rfl, rfl, fun _ => rfl, fun _ _ => rfl⟩

theorem OnlyAtimes.update (c : Ctx) {i : Fin maxInodes} (hi : i ∈ V) (s : Fs δ) :
    OnlyAtimes V s (inodeUpdateAtime c i s) where
  intmap := rfl
  superblock := rfl
  data := rfl
  inodes := by
    intro j
    by_cases hj : j = i
    · subst hj
      simp [inodeUpdateAtime, Fs.modifyInode]
    · simp [inodeUpdateAtime, Fs.modifyInode, hj]
  others := by
    intro j hj
    have hne : j ≠ i := fun heq => hj (heq ▸ hi)
    simp [inodeUpdateAtime, Fs.modifyInode, hne]

theorem OnlyAtimes.trans (h : OnlyAtimes V s t) (h' : OnlyAtimes V t u) : OnlyAtimes V s u where
  intmap := h'.intmap.trans h.intmap
  superblock := h'.superblock.trans h.superblock
  data := h'.data.trans h.data
  inodes := by
    intro i
    have hi := h'.inodes i
    rw [h.inodes i] at hi
    exact hi
  others := fun i hi => (h'.others i hi).trans (h.others i hi)

theorem OnlyAtimes.mono (h : OnlyAtimes V s t) (hsub : ∀ i ∈ V, i ∈ W) : OnlyAtimes W s t :=
  { h with others := fun i hi => h.others i (fun hV => hi (hsub i hV)) }

end Atimes

/-! ## `fs_resolve_path` -/

theorem walkEnd_same {s t : Fs δ} (h : Same s t) (cur : Fin maxInodes) (ts : List CStr) :
    walkEnd s cur ts = walkEnd t cur ts := by
  refine h.apply (fun s => walkEnd s cur ts) (fun s => ?_)
  induction ts generalizing cur with
  | nil => rfl
  | cons token ts ih => simp only [walkEnd, ih]; rfl

theorem visited_same {s t : Fs δ} (h : Same s t) (cur : Fin maxInodes) (ts : List CStr) :
    visited s cur ts = visited t cur ts := by
  refine h.apply (fun s => visited s cur ts) (fun s => ?_)
  induction ts generalizing cur with
  | nil => rfl
  | cons token ts ih => simp only [visited, ih]; rfl

/-- What the token loop returns after `n` components that it may still
look at. -/
def loopResult (ts : List CStr) (n : Nat) : WalkEnd → Except Fault (Except Int (Fin maxInodes))
  | .wild r => .error (.inodeIndex r)
  | .missing => .ok (.error (-1))
  | .reached i => if ts.length ≤ n then .ok (.ok i) else .ok (.error (-enametoolong))

theorem resolveTokens_spec (c : Ctx) (ts : List CStr) {depth n : Nat}
    (hn : depth + n = maxDirDepth + 1) (cur : Fin maxInodes) (s : Fs δ) :
    ∃ t, resolveTokens c ts depth cur s
        = (loopResult ts n (walkEnd s cur (ts.take n))).map (fun r => (r, t)) ∧
      OnlyAtimes (visited s cur (ts.take n)) s t := by
  induction ts generalizing depth n cur s with
  | nil => exact ⟨s, by simp [resolveTokens, walkEnd, loopResult, Except.map], OnlyAtimes.refl _ s⟩
  | cons token ts ih =>
      rw [resolveTokens]
      cases n with
      | zero =>
          refine ⟨s, ?_, OnlyAtimes.refl _ s⟩
          rw [if_pos (by omega)]
          simp [walkEnd, loopResult, Except.map]
      | succ n =>
          rw [if_neg (by omega), List.take_succ_cons]
          cases hdir : getDirectoryByInode s cur with
          | none => exact ⟨s, by simp [walkEnd, hdir, loopResult, Except.map], OnlyAtimes.refl _ s⟩
          | some dir =>
              by_cases hmiss : directoryLookup s.data dir token = -1
              · refine ⟨s, ?_, OnlyAtimes.refl _ s⟩
                simp [walkEnd, hdir, hmiss, loopResult, Except.map]
              · cases hat : inodeAt (directoryLookup s.data dir token) with
                | error f =>
                    refine ⟨s, ?_, OnlyAtimes.refl _ s⟩
                    have hf : f = .inodeIndex (directoryLookup s.data dir token) := by
                      rw [inodeAt] at hat
                      split at hat
                      · cases hat
                      · exact (Except.error.inj hat).symm
                    simp [walkEnd, hdir, hmiss, hat, hf, loopResult, Except.map]
                | ok next =>
                    -- the walk goes on in the state with the new access time
                    obtain ⟨t, ht, hatimes⟩ :=
                      ih (by omega : depth + 1 + n = maxDirDepth + 1) next
                        (inodeUpdateAtime c next s)
                    rw [walkEnd_same (same_updateAtime c next s)] at ht
                    rw [visited_same (same_updateAtime c next s)] at hatimes
                    refine ⟨t, ?_, ?_⟩
                    · simp only [walkEnd, hdir, hmiss, if_false, hat, ht]
                      cases walkEnd s next (ts.take n) <;> simp [loopResult]
                    · simp only [visited, hdir, hat]
                      exact (OnlyAtimes.update c List.mem_cons_self s).trans
                        (hatimes.mono (fun i hi => List.mem_cons_of_mem next hi))

/-- The answer of `fs_resolve_path`. -/
def pathResult (s : Fs δ) (path : CStr) : Except Fault (Except Int (Fin maxInodes)) :=
  if path = [] then .ok (.error (-1))
  else if path.length ≥ maxPathLen then .ok (.error (-enametoolong))
  else loopResult (strtok path) (maxDirDepth + 1)
    (walkEnd s s.superblock.rootInodeNumber (lookedAt path))

theorem fsResolvePath_spec (c : Ctx) (s : Fs δ) (path : CStr) :
    ∃ t, fsResolvePath c s path = (pathResult s path).map (fun r => (r, t)) ∧
      OnlyAtimes (s.superblock.rootInodeNumber ::
        visited s s.superblock.rootInodeNumber (lookedAt path)) s t := by
  unfold fsResolvePath pathResult
  split
  · exact ⟨s, rfl, OnlyAtimes.refl _ s⟩
  · split
    · exact ⟨s, rfl, OnlyAtimes.refl _ s⟩
    · split
      · rename_i hroot
        subst hroot
        exact ⟨s, rfl, OnlyAtimes.refl _ s⟩
      · obtain ⟨t, ht, hatimes⟩ := resolveTokens_spec c (strtok path)
          (Nat.zero_add (maxDirDepth + 1)) s.superblock.rootInodeNumber
          (inodeUpdateAtime c s.superblock.rootInodeNumber s)
        rw [walkEnd_same (same_updateAtime c _ s)] at ht
        rw [visited_same (same_updateAtime c _ s)] at hatimes
        exact ⟨t, ht, (OnlyAtimes.update c List.mem_cons_self s).trans
          (hatimes.mono (fun i hi => List.mem_cons_of_mem _ hi))⟩

theorem pathResult_same {s t : Fs δ} (h : Same s t) (path : CStr) :
    pathResult s path = pathResult t path := by
  have hroot : s.superblock.rootInodeNumber = t.superblock.rootInodeNumber :=
    h.apply (fun s => s.superblock.rootInodeNumber) (fun _ => rfl)
  unfold pathResult
  rw [hroot, walkEnd_same h]

/-- The answers the callers are prepared for: an inode, or -1. -/
def Expected (s : Fs δ) (path : CStr) : Prop :=
  (∃ i, pathResult s path = .ok (.ok i)) ∨ pathResult s path = .ok (.error (-1))

theorem expected_iff {s : Fs δ} {path : CStr} :
    Expected s path ↔ path.length < maxPathLen ∧ EndsInTime s path := by
  unfold Expected pathResult EndsInTime
  by_cases hnil : path = []
  · subst hnil
    refine iff_of_true (Or.inr (if_pos rfl)) ⟨by decide, ?_⟩
    simp [lookedAt, strtok_nil, walkEnd]
  · rw [if_neg hnil]
    by_cases hlong : path.length ≥ maxPathLen
    · rw [if_pos hlong]
      refine iff_of_false ?_ (fun h => absurd h.1 (by omega))
      rintro (⟨i, hi⟩ | hi)
      · cases hi
      · exact absurd (Except.error.inj (Except.ok.inj hi)) (by decide)
    · rw [if_neg hlong]
      have hlt : path.length < maxPathLen := by omega
      cases walkEnd s s.superblock.rootInodeNumber (lookedAt path) with
      | wild r => simp [loopResult]
      | missing => simpa [loopResult] using hlt
      | reached i =>
          by_cases hdeep : (strtok path).length ≤ maxDirDepth + 1
          · simp [loopResult, hdeep, hlt]
          · have hcode : enametoolong ≠ 1 := by decide
            simp [loopResult, hdeep, hcode]

theorem expected_of_short {s : Fs δ} {path : CStr} (h : ¬ path.length ≥ maxPathLen) :
    Expected s path ↔ EndsInTime s path := expected_iff.trans (and_iff_right (by omega))

/-! ## The callers -/

/-- An operation that goes on with an inode, fails with a code for -1,
and faults for any other negative code. -/
theorem indexSafe_iff {c : Ctx} {s : Fs δ} {path : CStr} {x : Except Fault (Int × Fs δ)}
    (hfault : ∀ f, fsResolvePath c s path = .error f → x = .error f)
    (hfound : ∀ i t, fsResolvePath c s path = .ok (.ok i, t) → ∃ r t', x = .ok (r, t'))
    (hmissing : ∀ t, fsResolvePath c s path = .ok (.error (-1), t) → x = .ok (-enoent, t))
    (hother : ∀ e t, e ≠ -1 → fsResolvePath c s path = .ok (.error e, t) → ∃ f, x = .error f) :
    IndexSafe c s path x ↔ Expected s path := by
  obtain ⟨t, ht, hatimes⟩ := fsResolvePath_spec c s path
  unfold Expected
  cases hres : pathResult s path with
  | error f =>
      rw [hres] at ht
      refine iff_of_false (fun h => ?_) (by simp)
      obtain ⟨r, t', hx⟩ := h.inside
      rw [hfault f ht] at hx
      cases hx
  | ok r =>
      rw [hres] at ht
      cases r with
      | ok i =>
          refine iff_of_true ⟨hfound i t ht, fun e s' he => ?_⟩ (Or.inl ⟨i, rfl⟩)
          rw [ht] at he
          cases he
      | error e =>
          by_cases he : e = -1
          · subst he
            have hx := hmissing t ht
            refine iff_of_true ⟨⟨_, t, hx⟩, fun e s' he => ⟨_, t, hx, by decide, hatimes⟩⟩
              (Or.inr rfl)
          · obtain ⟨f, hx⟩ := hother e t he ht
            refine iff_of_false (fun h => ?_) (by simp [he])
            obtain ⟨r, t', hx'⟩ := h.inside
            rw [hx] at hx'
            cases hx'

theorem fsStatistics_indexSafe (c : Ctx) (s : Fs δ) (path : CStr) :
    IndexSafe c s path (codeOnly (fsStatistics c s path)) ↔ Expected s path := by
  apply indexSafe_iff
  · intro f hf
    simp [codeOnly, fsStatistics, hf, Except.map]
  · intro i t ht
    exact ⟨0, inodeUpdateAtime c i t,
      by simp [codeOnly, fsStatistics, ht, resolvedOrFault, Except.map]⟩
  · intro t ht
    simp [codeOnly, fsStatistics, ht, resolvedOrFault, Except.map]
  · intro e t he ht
    exact ⟨.inodeIndex e, by simp [codeOnly, fsStatistics, ht, resolvedOrFault, he, Except.map]⟩

/-- `fs_list_directory` and `fs_remove_directory` refuse the empty path
and the paths that are too long on their own. -/
theorem indexSafe_of_refused {c : Ctx} {s : Fs δ} {path : CStr} {r : Int} (hr : r < 0) :
    IndexSafe c s path (.ok (r, s)) :=
  ⟨⟨r, s, rfl⟩, fun _ _ _ => ⟨r, s, rfl, hr, OnlyAtimes.refl _ s⟩⟩

theorem endsInTime_nil (s : Fs δ) : EndsInTime s [] :=
  (expected_iff.mp (Or.inr (if_pos rfl) : Expected s [])).2

theorem fsListDirectory_indexSafe (c : Ctx) (s : Fs δ) (path : CStr) :
    IndexSafe c s path (codeOnly (fsListDirectory c s path)) ↔
      maxPathLen ≤ path.length ∨ EndsInTime s path := by
  by_cases hnil : path = []
  · subst hnil
    exact iff_of_true (indexSafe_of_refused (by decide : (-1 : Int) < 0))
      (Or.inr (endsInTime_nil s))
  · by_cases hlong : path.length ≥ maxPathLen
    · have hx : codeOnly (fsListDirectory c s path) = .ok (-enametoolong, s) := by
        rw [fsListDirectory, if_neg hnil, if_pos hlong]
        rfl
      rw [hx]
      exact iff_of_true (indexSafe_of_refused (by decide)) (Or.inl hlong)
    · rw [or_iff_right hlong, ← expected_of_short hlong, fsListDirectory, if_neg hnil,
        if_neg hlong]
      apply indexSafe_iff
      · intro f hf
        simp [codeOnly, hf, Except.map]
      · intro i t ht
        exact ⟨_, _, by simp only [codeOnly, ht, resolvedOrFault, Except.map]; rfl⟩
      · intro t ht
        simp [codeOnly, ht, resolvedOrFault, Except.map]
      · intro e t he ht
        exact ⟨.inodeIndex e, by simp [codeOnly, ht, resolvedOrFault, he, Except.map]⟩

theorem reached_of_append {s : Fs δ} {ts us : List CStr} {cur i : Fin maxInodes}
    (h : walkEnd s cur (ts ++ us) = .reached i) : ∃ j, walkEnd s cur ts = .reached j := by
  induction ts generalizing cur with
  | nil => exact ⟨cur, rfl⟩
  | cons token ts ih =>
      rw [List.cons_append, walkEnd] at h
      rw [walkEnd]
      cases hdir : getDirectoryByInode s cur with
      | none =>
          rw [hdir] at h
          cases h
      | some dir =>
          simp only [hdir] at h ⊢
          by_cases hmiss : directoryLookup s.data dir token = -1
          · rw [if_pos hmiss] at h
            cases h
          · rw [if_neg hmiss] at h ⊢
            cases hat : inodeAt (directoryLookup s.data dir token) with
            | error f =>
                rw [hat] at h
                cases h
            | ok next =>
                rw [hat] at h
                exact ih h

theorem reached_of_pathResult {s : Fs δ} {path : CStr} {i : Fin maxInodes}
    (h : pathResult s path = .ok (.ok i)) : (strtok path).length ≤ maxDirDepth + 1 ∧
      walkEnd s s.superblock.rootInodeNumber (strtok path) = .reached i := by
  unfold pathResult at h
  split at h
  · cases h
  · split at h
    · cases h
    · cases hw : walkEnd s s.superblock.rootInodeNumber (lookedAt path) with
      | wild r =>
          rw [hw] at h
          cases h
      | missing =>
          rw [hw] at h
          cases h
      | reached j =>
          rw [hw, loopResult] at h
          split at h
          · rename_i hdeep
            cases h
            rw [lookedAt, List.take_of_length_le hdeep] at hw
            exact ⟨hdeep, hw⟩
          · cases h

/-- No number outside the array is met on a part of a walk that ends at
an inode. -/
theorem pathResult_inside {s : Fs δ} {path path' : CStr} {i : Fin maxInodes}
    (h : pathResult s path = .ok (.ok i)) {us : List CStr}
    (hpre : strtok path = strtok path' ++ us) : ∃ r, pathResult s path' = .ok r := by
  obtain ⟨hdeep, hw⟩ := reached_of_pathResult h
  have hdeep' : (strtok path').length ≤ maxDirDepth + 1 := by
    rw [hpre, List.length_append] at hdeep
    omega
  rw [hpre] at hw
  obtain ⟨j, hj⟩ := reached_of_append hw
  unfold pathResult
  split
  · exact ⟨_, rfl⟩
  · split
    · exact ⟨_, rfl⟩
    · rw [lookedAt, List.take_of_length_le hdeep', hj, loopResult, if_pos hdeep']
      exact ⟨_, rfl⟩

/-- The parent of a path that resolves is on the way. -/
theorem fsResolveParent_inside (c : Ctx) {s : Fs δ} {path : CStr} {i : Fin maxInodes}
    (h : pathResult s path = .ok (.ok i)) : ∃ r t, fsResolveParent c s path = .ok (r, t) := by
  unfold fsResolveParent
  split
  · exact ⟨_, s, rfl⟩
  · split
    · exact ⟨_, s, rfl⟩
    · rename_i hnil hlong
      cases hpos : lastSlash path with
      | none => exact ⟨_, s, rfl⟩
      | some pos =>
          dsimp only
          split
          · exact ⟨_, s, rfl⟩
          · obtain ⟨t, ht, -⟩ :=
              fsResolvePath_spec c s (if pos = 0 then nameRoot else path.take pos)
            have htok : strtok path
                = strtok (if pos = 0 then nameRoot else path.take pos)
                  ++ strtok (path.drop (pos + 1)) := by
              by_cases h0 : pos = 0
              · subst h0
                have hroot : strtok nameRoot = strtok (path.take 0) := by
                  rw [strtok_root, List.take_zero, strtok_nil]
                rw [if_pos rfl, hroot, ← strtok_append_slash, ← (lastSlash_some hpos).1]
              · rw [if_neg h0, ← strtok_append_slash, ← (lastSlash_some hpos).1]
            obtain ⟨r, hr⟩ := pathResult_inside h htok
            rw [ht, hr]
            cases r with
            | error e => exact ⟨_, t, rfl⟩
            | ok d => exact ⟨_, t, rfl⟩

theorem removeDirectoryAt_inside (c : Ctx) {s : Fs δ} {path : CStr} {i : Fin maxInodes}
    (h : pathResult s path = .ok (.ok i)) : ∃ r t, removeDirectoryAt c s path i = .ok (r, t) := by
  unfold removeDirectoryAt
  split
  · exact ⟨_, s, rfl⟩
  · split
    · exact ⟨_, s, rfl⟩
    · split
      · exact ⟨_, s, rfl⟩
      · obtain ⟨r, t, hparent⟩ := fsResolveParent_inside c h
        rw [removeDirectoryEntry, hparent]
        cases r with
        | error e => exact ⟨_, t, rfl⟩
        | ok p =>
            dsimp only
            split
            · exact ⟨_, t, rfl⟩
            · split
              · exact ⟨_, t, rfl⟩
              · exact ⟨_, _, rfl⟩

theorem fsRemoveDirectory_indexSafe (c : Ctx) (s : Fs δ) (path : CStr) :
    IndexSafe c s path (fsRemoveDirectory c s path) ↔
      maxPathLen ≤ path.length ∨ EndsInTime s path := by
  by_cases hnil : path = []
  · subst hnil
    exact iff_of_true (indexSafe_of_refused (by decide : (-1 : Int) < 0))
      (Or.inr (endsInTime_nil s))
  · by_cases hlong : path.length ≥ maxPathLen
    · rw [fsRemoveDirectory, if_neg hnil, if_pos hlong]
      exact iff_of_true (indexSafe_of_refused (by decide)) (Or.inl hlong)
    · rw [or_iff_right hlong, ← expected_of_short hlong, fsRemoveDirectory, if_neg hnil,
        if_neg hlong]
      apply indexSafe_iff
      · intro f hf
        simp [hf]
      · intro i t ht
        have hres : pathResult s path = .ok (.ok i) := by
          obtain ⟨t', ht', -⟩ := fsResolvePath_spec c s path
          rw [ht] at ht'
          cases hp : pathResult s path with
          | error f =>
              rw [hp] at ht'
              cases ht'
          | ok r =>
              rw [hp] at ht'
              cases ht'
              rfl
        rw [pathResult_same (fsResolvePath_same ht)] at hres
        obtain ⟨r, t', hx⟩ := removeDirectoryAt_inside c hres
        exact ⟨r, t', by simp [ht, resolvedOrFault, Except.bind, hx]⟩
      · intro t ht
        simp [ht, resolvedOrFault, Except.bind]
      · intro e t he ht
        exact ⟨.inodeIndex e, by simp [ht, resolvedOrFault, he, Except.bind]⟩

omit [DataArea δ] in
/-- Reading a fault off a concrete step. -/
theorem error_of_map {α β : Type} {x : Except Fault α} {f : Fault} (g : α → β)
    (h : x.map g = .error f) : x = .error f := by
  cases x with
  | error f' => exact congrArg Except.error (Except.error.inj h)
  | ok a => cases h

/-- The three callers of `fs_resolve_path` that test for -1 alone, in
every state and for every path. -/
theorem inode_indices_in_range_iff (c : Ctx) (s : Fs δ) (path : CStr) :
    (IndexSafe c s path (codeOnly (fsStatistics c s path)) ↔
      path.length < maxPathLen ∧ EndsInTime s path) ∧
    (IndexSafe c s path (codeOnly (fsListDirectory c s path)) ↔
      maxPathLen ≤ path.length ∨ EndsInTime s path) ∧
    (IndexSafe c s path (fsRemoveDirectory c s path) ↔
      maxPathLen ≤ path.length ∨ EndsInTime s path) :=
  ⟨(fsStatistics_indexSafe c s path).trans expected_iff, fsListDirectory_indexSafe c s path,
    fsRemoveDirectory_indexSafe c s path⟩

/-- A path of 256 bytes and one of 18 components, right after
`fs_init`: the code that `fs_resolve_path` reports is taken for an index. -/
theorem inode_index_negative :
    Reachable ⟨0, 0⟩ (fun _ _ _ => True) (fsInit (User.at ⟨0, 0⟩ 0) : Fs Flat) ∧
    fsStatistics (User.at ⟨0, 0⟩ 0) (fsInit (User.at ⟨0, 0⟩ 0) : Fs Flat)
      (slash :: List.replicate 255 97) = .error (.inodeIndex (-36)) ∧
    fsListDirectory (User.at ⟨0, 0⟩ 0) (fsInit (User.at ⟨0, 0⟩ 0) : Fs Flat)
      (List.replicate 18 [slash, 46]).flatten = .error (.inodeIndex (-36)) ∧
    fsRemoveDirectory (User.at ⟨0, 0⟩ 0) (fsInit (User.at ⟨0, 0⟩ 0) : Fs Flat)
      (List.replicate 18 [slash, 46]).flatten = .error (.inodeIndex (-36)) ∧
    ¬ IndexSafe (User.at ⟨0, 0⟩ 0) (fsInit (User.at ⟨0, 0⟩ 0) : Fs Flat)
      (slash :: List.replicate 255 97)
      (codeOnly (fsStatistics (User.at ⟨0, 0⟩ 0) (fsInit (User.at ⟨0, 0⟩ 0))
        (slash :: List.replicate 255 97))) := by
  have hstat : fsStatistics (User.at ⟨0, 0⟩ 0) (fsInit (User.at ⟨0, 0⟩ 0) : Fs Flat)
      (slash :: List.replicate 255 97) = .error (.inodeIndex (-36)) :=
    error_of_map Prod.fst (by decide +kernel)
  refine ⟨⟨0, .refl⟩, hstat, error_of_map Prod.fst (by decide +kernel),
    error_of_map Prod.fst (by decide +kernel), fun h => ?_⟩
  obtain ⟨r, t, hx⟩ := h.inside
  rw [hstat] at hx
  cases hx

end SistemasOperativos.FileSystem
