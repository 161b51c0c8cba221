/-
SistemasOperativos.Shell.ArgvTheorems — the argument vector that
`parse_exec` builds.

`parseExec` takes the segment as a string. Here the loop is also written
as the source has it, with an index into the buffer that is moved behind
each token and behind the space after it, and the two agree: the loop
ends for every segment. The tokens it meets are the pieces between
spaces, and an empty piece, of which a run of spaces has many, adds
nothing.
-/
import SistemasOperativos.Lib.Fold
import SistemasOperativos.Shell.ParsingTheorems

namespace SistemasOperativos.Shell

/-! ## The loop over the buffer -/

/-- `get_token(buf, idx)`, for `p = buf + idx`. -/
def getTokenAt (mem : Mem) (p : Nat) : Except Fault Str := do
  let n ← scan (fun x => x == space || x == endString) (mem.drop p)
  return (mem.drop p).take n

/-- The `while` of `parse_exec`. -/
def parseExecLoop (env : Environ) (mem : Mem) (buf : Nat) :
    Nat → Nat → ExecCmd → Except Fault ExecCmd
  | 0, _, _ => .error .outOfFuel
  | fuel + 1, idx, c => do
      if (← load mem (buf + idx)) = endString then return c
      else
        let tok ← getTokenAt mem (buf + idx)
        let idx := idx + tok.length
        let next ← load mem (buf + idx)
        let idx := if next ≠ endString then idx + 1 else idx
        let c ← parseToken env c tok
        parseExecLoop env mem buf fuel idx c

/-- `parse_exec` of the string at `buf`. -/
def parseExecAt (env : Environ) (mem : Mem) (buf fuel : Nat) : Except Fault ExecCmd := do
  let c ← parseExecLoop env mem buf fuel 0 (execCmdCreate (← cString mem buf))
  if c.argv.length < maxArgs then return c
  else throw .outOfBounds

/-! ## The specification -/

/-- What is between spaces. -/
def tokens (s : Str) : List Str := (s.splitOn space).filter (· ≠ [])

/-- The token asks for a redirection. -/
def Redirects (tok : Str) : Prop := '<' ∈ tok ∨ '>' ∈ tok

instance : DecidablePred Redirects := fun _ => inferInstanceAs (Decidable (_ ∨ _))

/-- The token has a key: an `=` that is not its first character, and no
`-`. -/
def Assigns (tok : Str) : Prop := '=' ∈ tok ∧ tok.head? ≠ some '=' ∧ '-' ∉ tok

instance : DecidablePred Assigns := fun _ => inferInstanceAs (Decidable (_ ∧ _))

/-- The last status for `$?…`, the value of the variable for `$…`, the
token itself otherwise. -/
def expansion (env : Environ) (tok : Str) : Str :=
  if ['$', '?'].isPrefixOf tok then (toString env.status).toList
  else if ['$'].isPrefixOf tok then (env.getenv (tok.drop 1)).getD []
  else tok

/-- The arguments among some tokens. -/
def arguments (env : Environ) (toks : List Str) : List Str :=
  ((toks.filter (fun t => ¬ Redirects t ∧ ¬ Assigns t)).map (expansion env)).filter (· ≠ [])

/-- The assignments among some tokens. -/
def assignments (toks : List Str) : List Str := toks.filter (fun t => ¬ Redirects t ∧ Assigns t)

/-! ## One token -/

variable {env : Environ} {c : ExecCmd} {tok : Str}

theorem blockContains_nonneg (s : Str) (x : Char) : blockContains s x ≥ 0 ↔ x ∈ s := by
  unfold blockContains
  cases h : s.idxOf? x with
  | none =>
      rw [List.idxOf?_eq_none_iff] at h
      simp [h]
  | some i =>
      have hmem : x ∈ s := by
        refine Decidable.byContradiction (fun hnot => ?_)
        rw [List.idxOf?_eq_none_iff.mpr hnot] at h
        cases h
      simp [hmem]

/-- The `=` is there, and not first. -/
theorem blockContains_pos (s : Str) (x : Char) :
    blockContains s x > 0 ↔ x ∈ s ∧ s.head? ≠ some x := by
  cases s with
  | nil => simp [blockContains]
  | cons y ys =>
      by_cases hy : y = x
      · subst hy
        simp [blockContains, List.idxOf?_cons]
      · have hne : (y == x) = false := beq_eq_false_iff_ne.mpr hy
        have hmem := blockContains_nonneg ys x
        unfold blockContains at *
        rw [List.idxOf?_cons, hne]
        cases h : ys.idxOf? x with
        | none =>
            rw [h] at hmem
            simp at hmem
            simp [hmem, Ne.symm hy]
        | some i =>
            rw [h] at hmem
            simp at hmem
            simp [hmem, hy]

/-- The index of the first one. -/
theorem blockContains_append {x : Char} {s : Str} (hx : x ∉ s) (rest : Str) :
    blockContains (s ++ x :: rest) x = s.length := by
  have hidx : (s ++ x :: rest).idxOf? x = some s.length := by
    induction s with
    | nil => simp [List.idxOf?_cons]
    | cons y ys ih =>
        have hne : (y == x) = false := by
          exact beq_eq_false_iff_ne.mpr (fun heq => hx (heq ▸ List.mem_cons_self))
        rw [List.cons_append, List.idxOf?_cons, hne, ih (fun h => hx (List.mem_cons_of_mem _ h))]
        rfl
  rw [blockContains, hidx]

theorem parseRedirFlow_none : parseRedirFlow c tok = none ↔ ¬ Redirects tok := by
  have hout := blockContains_nonneg tok '>'
  have hin := blockContains_nonneg tok '<'
  unfold parseRedirFlow Redirects
  dsimp only
  by_cases h : blockContains tok '>' ≥ 0
  · rw [if_pos h]
    simp [hout.mp h]
  · rw [if_neg h]
    by_cases h' : blockContains tok '<' ≥ 0
    · rw [if_pos h']
      simp [hin.mp h']
    · rw [if_neg h']
      simp [mt hout.mpr h, mt hin.mpr h']

theorem redirects_of_some {c' : ExecCmd} (h : parseRedirFlow c tok = some c') : Redirects tok := by
  refine Decidable.byContradiction (fun hnot => ?_)
  rw [parseRedirFlow_none.mpr hnot] at h
  cases h

/-- A redirection leaves the two vectors and the text alone. -/
theorem parseRedirFlow_some {c' : ExecCmd} (h : parseRedirFlow c tok = some c') :
    c'.argv = c.argv ∧ c'.eargv = c.eargv ∧ c'.scmd = c.scmd ∧ c'.type = .redir := by
  unfold parseRedirFlow at h
  dsimp only at h
  split at h
  · cases h
    split
    · exact ⟨rfl, rfl, rfl, rfl⟩
    · split <;> exact ⟨rfl, rfl, rfl, rfl⟩
  · split at h
    · cases h
      exact ⟨rfl, rfl, rfl, rfl⟩
    · cases h

theorem parseEnvironVar_eq : parseEnvironVar c tok =
    if Assigns tok then
      if c.eargv.length < maxArgs then .ok (some { c with eargv := c.eargv ++ [tok] })
      else .error .outOfBounds
    else .ok none := by
  have hkey := blockContains_pos tok '='
  have hdash := blockContains_nonneg tok '-'
  unfold parseEnvironVar
  by_cases hk : blockContains tok '=' > 0
  · rw [if_pos hk]
    by_cases hd : blockContains tok '-' < 0
    · have hassign : Assigns tok :=
        ⟨(hkey.mp hk).1, (hkey.mp hk).2, fun hmem => by have := hdash.mpr hmem; omega⟩
      rw [if_pos hd, if_pos hassign]
    · have hnot : ¬ Assigns tok := fun h => h.2.2 (hdash.mp (by omega))
      rw [if_neg hd, if_neg hnot]
  · have hnot : ¬ Assigns tok := fun h => hk (hkey.mpr ⟨h.1, h.2.1⟩)
    rw [if_neg hk, if_neg hnot]

theorem expandEnvironVar_eq (env : Environ) (tok : Str) :
    expandEnvironVar env tok = expansion env tok := by
  unfold expandEnvironVar expansion
  split
  · simp
  · rename_i name hnot
    have hq : ['$', '?'].isPrefixOf ('$' :: name) = false := by
      cases name with
      | nil => rfl
      | cons x xs =>
          have hx : x ≠ '?' := fun hx => hnot xs (by rw [hx])
          simp [List.isPrefixOf, Ne.symm hx]
    rw [hq]
    cases hget : env.getenv name with
    | none => simp [hget]
    | some value => simp [hget]
  · rename_i hnot
    have hp : ['$'].isPrefixOf tok = false := by
      cases tok with
      | nil => rfl
      | cons x xs =>
          have hx : x ≠ '$' := fun hx => hnot xs (by rw [hx])
          simp [List.isPrefixOf, Ne.symm hx]
    have hq : ['$', '?'].isPrefixOf tok = false := by
      cases tok with
      | nil => rfl
      | cons x xs =>
          have hx : x ≠ '$' := fun hx => hnot xs (by rw [hx])
          simp [List.isPrefixOf, Ne.symm hx]
    simp [hp, hq]

/-- What one token adds to the two vectors. -/
theorem parseToken_ok (hargs : (c.argv ++ arguments env [tok]).length ≤ maxArgs)
    (hassign : (c.eargv ++ assignments [tok]).length ≤ maxArgs) :
    ∃ c', parseToken env c tok = .ok c' ∧ c'.argv = c.argv ++ arguments env [tok] ∧
      c'.eargv = c.eargv ++ assignments [tok] := by
  unfold parseToken
  cases hredir : parseRedirFlow c tok with
  | some c' =>
      have hr := redirects_of_some hredir
      obtain ⟨hargv, heargv, -⟩ := parseRedirFlow_some hredir
      refine ⟨c', rfl, ?_, ?_⟩
      · simp [arguments, hr, hargv]
      · simp [assignments, hr, heargv]
  | none =>
      have hr := parseRedirFlow_none.mp hredir
      dsimp only
      rw [parseEnvironVar_eq]
      by_cases ha : Assigns tok
      · have hargs' : arguments env [tok] = [] := by simp [arguments, ha]
        have hassign' : assignments [tok] = [tok] := by simp [assignments, hr, ha]
        rw [hassign', List.length_append, List.length_singleton] at hassign
        rw [if_pos ha, if_pos (by omega), hargs', hassign']
        exact ⟨_, rfl, by simp, rfl⟩
      · have hassign' : assignments [tok] = [] := by simp [assignments, ha]
        have hargs' : arguments env [tok] = if expansion env tok = [] then [] else
            [expansion env tok] := by
          simp [arguments, hr, ha, List.filter_cons]
        rw [if_neg ha, hassign', List.append_nil, hargs']
        rw [hargs', List.length_append] at hargs
        simp only [bind, Except.bind, expandEnvironVar_eq]
        by_cases hnil : expansion env tok = []
        · rw [if_pos hnil, if_pos hnil]
          exact ⟨c, rfl, by simp, rfl⟩
        · rw [if_neg hnil, List.length_singleton] at hargs
          rw [if_neg hnil, if_neg hnil, if_pos (by omega)]
          exact ⟨_, rfl, rfl, rfl⟩

/-- What one token can do. -/
theorem parseToken_cases {c' : ExecCmd} (h : parseToken env c tok = .ok c') :
    (Redirects tok ∧ parseRedirFlow c tok = some c') ∨
    (¬ Redirects tok ∧ Assigns tok ∧ c.eargv.length < maxArgs ∧
      c' = { c with eargv := c.eargv ++ [tok] }) ∨
    (¬ Redirects tok ∧ ¬ Assigns tok ∧ expansion env tok = [] ∧ c' = c) ∨
    (¬ Redirects tok ∧ ¬ Assigns tok ∧ expansion env tok ≠ [] ∧ c.argv.length < maxArgs ∧
      c' = { c with argv := c.argv ++ [expansion env tok] }) := by
  unfold parseToken at h
  cases hredir : parseRedirFlow c tok with
  | some c₁ =>
      rw [hredir] at h
      cases h
      exact Or.inl ⟨redirects_of_some hredir, rfl⟩
  | none =>
      have hr := parseRedirFlow_none.mp hredir
      rw [hredir] at h
      simp only [parseEnvironVar_eq, expandEnvironVar_eq, bind, Except.bind] at h
      by_cases ha : Assigns tok
      · rw [if_pos ha] at h
        by_cases hroom : c.eargv.length < maxArgs
        · rw [if_pos hroom] at h
          cases h
          exact Or.inr (Or.inl ⟨hr, ha, hroom, rfl⟩)
        · rw [if_neg hroom] at h
          cases h
      · rw [if_neg ha] at h
        by_cases hnil : expansion env tok = []
        · simp only [if_pos hnil] at h
          cases h
          exact Or.inr (Or.inr (Or.inl ⟨hr, ha, hnil, rfl⟩))
        · simp only [if_neg hnil] at h
          by_cases hroom : c.argv.length < maxArgs
          · rw [if_pos hroom] at h
            cases h
            exact Or.inr (Or.inr (Or.inr ⟨hr, ha, hnil, hroom, rfl⟩))
          · rw [if_neg hroom] at h
            cases h

/-- A token leaves the vectors within their bounds. -/
theorem parseToken_bounds {c' : ExecCmd} (h : parseToken env c tok = .ok c')
    (hargs : c.argv.length ≤ maxArgs) (hassign : c.eargv.length ≤ maxArgs) :
    (c.argv ++ arguments env [tok]).length ≤ maxArgs ∧
      (c.eargv ++ assignments [tok]).length ≤ maxArgs := by
  rcases parseToken_cases h with ⟨hr, -⟩ | ⟨hr, ha, hroom, -⟩ | ⟨hr, ha, hnil, -⟩ | ⟨hr, ha, hne, hroom, -⟩
  · simp [arguments, assignments, hr, hargs, hassign]
  · simp [arguments, assignments, hr, ha, hargs]
    omega
  · simp [arguments, assignments, hr, ha, hnil, hargs, hassign]
  · simp [arguments, assignments, hr, ha, hne, hassign]
    omega

/-- An empty token adds nothing. -/
theorem parseToken_nil : parseToken env c [] = .ok c := rfl

/-! ## All tokens -/

theorem arguments_cons (env : Environ) (t : Str) (ts : List Str) :
    arguments env (t :: ts) = arguments env [t] ++ arguments env ts := by
  rw [← List.singleton_append]
  simp only [arguments, List.filter_append, List.map_append]

theorem assignments_cons (t : Str) (ts : List Str) :
    assignments (t :: ts) = assignments [t] ++ assignments ts := by
  rw [← List.singleton_append]
  simp only [assignments, List.filter_append]

theorem foldlM_parseToken {toks : List Str} {c : ExecCmd}
    (hargs : (c.argv ++ arguments env toks).length ≤ maxArgs)
    (hassign : (c.eargv ++ assignments toks).length ≤ maxArgs) :
    ∃ c', toks.foldlM (parseToken env) c = .ok c' ∧ c'.argv = c.argv ++ arguments env toks ∧
      c'.eargv = c.eargv ++ assignments toks := by
  induction toks generalizing c with
  | nil => exact ⟨c, rfl, by simp [arguments], by simp [assignments]⟩
  | cons t ts ih =>
      rw [arguments_cons, ← List.append_assoc] at hargs
      rw [assignments_cons, ← List.append_assoc] at hassign
      obtain ⟨c₁, hstep, hargv, heargv⟩ := @parseToken_ok env c t
        (by rw [List.length_append] at hargs; omega)
        (by rw [List.length_append] at hassign; omega)
      rw [← hargv] at hargs
      rw [← heargv] at hassign
      obtain ⟨c₂, hrest, hargv', heargv'⟩ := ih hargs hassign
      refine ⟨c₂, ?_, ?_, ?_⟩
      · rw [List.foldlM_cons, hstep]
        exact hrest
      · rw [hargv', hargv, arguments_cons env t ts, List.append_assoc]
      · rw [heargv', heargv, assignments_cons t ts, List.append_assoc]

theorem foldlM_parseToken_bounds {toks : List Str} {c c' : ExecCmd}
    (h : toks.foldlM (parseToken env) c = .ok c') (hargs : c.argv.length ≤ maxArgs)
    (hassign : c.eargv.length ≤ maxArgs) :
    (c.argv ++ arguments env toks).length ≤ maxArgs ∧
      (c.eargv ++ assignments toks).length ≤ maxArgs := by
  induction toks generalizing c with
  | nil => simp [arguments, assignments, hargs, hassign]
  | cons t ts ih =>
      obtain ⟨c₁, hstep, hrest⟩ := Fold.foldlM_cons_ok h
      obtain ⟨hargs₁, hassign₁⟩ := parseToken_bounds hstep hargs hassign
      obtain ⟨c₂, hstep₂, hargv, heargv⟩ := parseToken_ok hargs₁ hassign₁
      rw [hstep] at hstep₂
      cases hstep₂
      rw [arguments_cons, ← List.append_assoc, ← hargv, assignments_cons, ← List.append_assoc,
        ← heargv]
      exact ih hrest (by rw [hargv]; exact hargs₁) (by rw [heargv]; exact hassign₁)

/-- The token at the head of a segment, and what is behind it. -/
theorem splitOn_space (s : Str) :
    (∃ rest, s = getToken s ++ space :: rest ∧
        s.splitOn space = getToken s :: rest.splitOn space) ∨
      s = getToken s ∧ s.splitOn space = [s] := by
  have htok : space ∉ getToken s := not_mem_takeWhile_ne space s
  rcases takeWhile_stops (· != space) s with hwhole | ⟨x, rest, hx, hsplit⟩
  · refine Or.inr ⟨hwhole, List.splitOn_eq_singleton ?_⟩
    rw [hwhole]
    exact htok
  · obtain rfl : x = space := by simpa using hx
    refine Or.inl ⟨rest, hsplit, ?_⟩
    conv => lhs; rw [hsplit]
    exact List.splitOn_append_cons_self_of_not_mem htok rest

/-- The loop goes through the pieces between spaces. -/
theorem parseTokens_splitOn (env : Environ) (s : Str) (c : ExecCmd) :
    parseTokens env c s = (s.splitOn space).foldlM (parseToken env) c := by
  induction hn : s.length using Nat.strongRecOn generalizing s c with
  | ind n ih =>
      cases s with
      | nil =>
          rw [parseTokens, List.splitOn_nil, List.foldlM_cons, parseToken_nil]
          rfl
      | cons x xs =>
          rw [parseTokens]
          rcases splitOn_space (x :: xs) with ⟨rest, hsplit, hpieces⟩ | ⟨hwhole, hpieces⟩
          · have hdrop : ((x :: xs).drop (getToken (x :: xs)).length).drop 1 = rest := by
              have hleft : (x :: xs).drop (getToken (x :: xs)).length = space :: rest := by
                have := @List.drop_left Char (getToken (x :: xs)) (space :: rest)
                rwa [← hsplit] at this
              rw [hleft]
              rfl
            have hlt : rest.length < n := by
              have := congrArg List.length hsplit
              rw [List.length_append, List.length_cons (a := space)] at this
              omega
            rw [hpieces, List.foldlM_cons, hdrop]
            cases parseToken env c (getToken (x :: xs)) with
            | error f => rfl
            | ok c' => exact ih rest.length hlt rest c' rfl
          · have hdrop : ((x :: xs).drop (getToken (x :: xs)).length).drop 1 = [] := by
              rw [← hwhole]
              simp
            rw [hpieces, List.foldlM_cons, hdrop, ← hwhole]
            cases parseToken env c (x :: xs) with
            | error f => rfl
            | ok c' =>
                show parseTokens env c' [] = _
                rw [parseTokens]
                rfl

/-- An empty piece adds nothing. -/
theorem parseTokens_eq (env : Environ) (s : Str) (c : ExecCmd) :
    parseTokens env c s = (tokens s).foldlM (parseToken env) c := by
  rw [parseTokens_splitOn, tokens]
  induction s.splitOn space generalizing c with
  | nil => rfl
  | cons t ts ih =>
      by_cases ht : t = []
      · subst ht
        rw [List.filter_cons_of_neg (by simp), List.foldlM_cons, parseToken_nil]
        exact ih c
      · rw [List.filter_cons_of_pos (by simp [ht]), List.foldlM_cons, List.foldlM_cons]
        cases parseToken env c t with
        | error f => rfl
        | ok c' => exact ih c'

/-! ## The index into the buffer -/

variable {mem : Mem} {buf : Nat} {s rest : Str}

theorem getTokenAt_eq {x : Char} {xs : Str} (hmem : mem.drop buf = x :: xs ++ endString :: rest)
    (hs : endString ∉ x :: xs) :
    getTokenAt mem buf = .ok (getToken (x :: xs)) := by
  have htok : ∀ y ∈ getToken (x :: xs), (y == space || y == endString) = false := by
    intro y hy
    have hspace : y ≠ space := by
      rintro rfl
      exact not_mem_takeWhile_ne space _ hy
    have hend : y ≠ endString := by
      rintro rfl
      exact hs ((List.takeWhile_prefix _).subset hy)
    simp [hspace, hend]
  have hscan : ∃ z zs, mem.drop buf = getToken (x :: xs) ++ z :: zs ∧
      (z == space || z == endString) = true := by
    rcases splitOn_space (x :: xs) with ⟨r, hsplit, -⟩ | ⟨hwhole, -⟩
    · refine ⟨space, r ++ endString :: rest, ?_, by decide⟩
      rw [hmem]
      conv => lhs; rw [hsplit]
      simp
    · refine ⟨endString, rest, ?_, by decide⟩
      rw [hmem, ← hwhole]
  obtain ⟨z, zs, hdrop, hz⟩ := hscan
  rw [getTokenAt, hdrop, scan_append htok hz]
  show Except.ok _ = _
  rw [List.take_left]

/-- The loop with the index is the loop over what is left, and every turn
moves the index. -/
theorem parseExecLoop_eq (env : Environ) (hmem : mem.drop buf = s ++ endString :: rest)
    (hs : endString ∉ s) {fuel idx : Nat} (hidx : idx ≤ s.length)
    (hfuel : s.length - idx < fuel) (c : ExecCmd) :
    parseExecLoop env mem buf fuel idx c = parseTokens env c (s.drop idx) := by
  induction fuel generalizing idx c with
  | zero => omega
  | succ fuel ih =>
      have hfrom : ∀ i ≤ s.length, mem.drop (buf + i) = s.drop i ++ endString :: rest := by
        intro i hi
        rw [← List.drop_drop, hmem, List.drop_append_of_le_length hi]
      have hload : ∀ i ≤ s.length, load mem (buf + i) = .ok ((s.drop i).headD endString) := by
        intro i hi
        have hget : mem[buf + i]? = (mem.drop (buf + i))[0]? := by
          rw [List.getElem?_drop, Nat.add_zero]
        rw [load, hget, hfrom i hi]
        cases s.drop i with
        | nil => rfl
        | cons y ys => rfl
      rw [parseExecLoop, hload idx hidx]
      cases hleft : s.drop idx with
      | nil =>
          rw [parseTokens]
          rfl
      | cons x xs =>
          have hnotend : endString ∉ x :: xs := by
            rw [← hleft]
            exact fun h => hs (List.mem_of_mem_drop h)
          have hx : x ≠ endString := fun hx => hnotend (by rw [hx]; exact List.mem_cons_self)
          have hmem' := hfrom idx hidx
          rw [hleft] at hmem'
          have hlen : idx + (x :: xs).length = s.length := by
            rw [← hleft, List.length_drop]
            omega
          have htoklen : (getToken (x :: xs)).length ≤ (x :: xs).length :=
            (List.takeWhile_prefix _).length_le
          have hnext : s.drop (idx + (getToken (x :: xs)).length) =
              (x :: xs).drop (getToken (x :: xs)).length := by
            rw [← List.drop_drop, hleft]
          rw [parseTokens]
          simp only [bind, Except.bind, List.headD_cons, hx, if_false,
            getTokenAt_eq hmem' hnotend, hload _ (by omega : idx + (getToken (x :: xs)).length ≤
              s.length), hnext]
          cases parseToken env c (getToken (x :: xs)) with
          | error f => rfl
          | ok c' =>
              dsimp only
              rcases splitOn_space (x :: xs) with ⟨r, hsplit, -⟩ | ⟨hwhole, -⟩
              · have hdrop : (x :: xs).drop (getToken (x :: xs)).length = space :: r := by
                  have := @List.drop_left Char (getToken (x :: xs)) (space :: r)
                  rwa [← hsplit] at this
                have hr : (x :: xs).length = (getToken (x :: xs)).length + (r.length + 1) := by
                  have := congrArg List.length hsplit
                  rwa [List.length_append, List.length_cons (a := space)] at this
                have hspace : (space :: r).headD endString ≠ endString := by
                  rw [List.headD_cons]
                  decide
                rw [hdrop, if_pos hspace, ih (by omega) (by omega), ← List.drop_drop, hnext, hdrop]
              · have hdrop : (x :: xs).drop (getToken (x :: xs)).length = [] := by
                  rw [← hwhole]
                  simp
                have hfull : (getToken (x :: xs)).length = (x :: xs).length := by
                  rw [← hwhole]
                rw [hdrop, if_neg (by simp), ih (by omega) (by simp at *; omega), hnext, hdrop]
                rfl

/-! ## The whole segment -/

/-- A token may be one too many for its vector, and nothing else. -/
theorem parseToken_error {f : Fault} (h : parseToken env c tok = .error f) :
    f = .outOfBounds := by
  unfold parseToken at h
  split at h
  · cases h
  · rw [parseEnvironVar_eq] at h
    simp only [bind, Except.bind] at h
    split at h
    · rename_i hvar
      split at hvar
      · split at hvar
        · cases hvar
        · cases hvar
          cases h
          rfl
      · cases hvar
    · split at h
      · cases h
      · split at h
        · cases h
        · split at h
          · cases h
          · cases h
            rfl

theorem foldlM_parseToken_error {toks : List Str} {c : ExecCmd} {f : Fault}
    (h : toks.foldlM (parseToken env) c = .error f) : f = .outOfBounds := by
  induction toks generalizing c with
  | nil => cases h
  | cons t ts ih =>
      rw [List.foldlM_cons] at h
      cases hstep : parseToken env c t with
      | error f' =>
          rw [hstep] at h
          cases h
          exact parseToken_error hstep
      | ok c' =>
          rw [hstep] at h
          exact ih h

theorem parseExec_error {f : Fault} (h : parseExec env s = .error f) : f = .outOfBounds := by
  unfold parseExec at h
  cases hloop : parseTokens env (execCmdCreate s) s with
  | error f' =>
      rw [hloop] at h
      cases h
      rw [parseTokens_eq] at hloop
      exact foldlM_parseToken_error hloop
  | ok c =>
      rw [hloop] at h
      simp only [bind, Except.bind] at h
      split at h
      · cases h
      · cases h
        rfl

/-- The string at `buf` is the segment, and the two readings of
`parse_exec` agree on it. -/
theorem parseExecAt_eq (env : Environ) (hmem : mem.drop buf = s ++ endString :: rest)
    (hs : endString ∉ s) {fuel : Nat} (hfuel : s.length < fuel) :
    parseExecAt env mem buf fuel = parseExec env s := by
  have hstop : ∀ x ∈ s, (x == endString) = false := by
    intro x hx
    exact beq_eq_false_iff_ne.mpr (fun heq => hs (heq ▸ hx))
  have hstring : cString mem buf = .ok s := by
    rw [cString, hmem, scan_append hstop (by decide)]
    show Except.ok _ = _
    rw [List.take_left]
  rw [parseExecAt, hstring]
  simp only [bind, Except.bind, parseExecLoop_eq env hmem hs (Nat.zero_le _) hfuel,
    List.drop_zero]
  rfl

/-- What the two vectors of a segment are, when its arguments leave room
for the `NULL` and its assignments fit. -/
theorem parseExec_vectors (hargs : (arguments env (tokens s)).length ≤ maxArgs - 1)
    (hassign : (assignments (tokens s)).length ≤ maxArgs) :
    ∃ c, parseExec env s = .ok c ∧ c.argv = arguments env (tokens s) ∧
      c.eargv = assignments (tokens s) := by
  obtain ⟨c, hfold, hargv, heargv⟩ := @foldlM_parseToken env (tokens s) (execCmdCreate s)
    (Nat.le_trans hargs (by decide)) hassign
  refine ⟨c, ?_, hargv, heargv⟩
  have hroom : c.argv.length < maxArgs := by
    rw [hargv]
    exact Nat.lt_of_le_of_lt hargs (by decide)
  rw [parseExec, parseTokens_eq, hfold]
  simp only [bind, Except.bind]
  rw [if_pos hroom]
  rfl

/-- The arguments leave room for the `NULL`, and the assignments fit. -/
def Fits (env : Environ) (s : Str) : Prop :=
  (arguments env (tokens s)).length ≤ maxArgs - 1 ∧ (assignments (tokens s)).length ≤ maxArgs

instance : DecidablePred (Fits env) := fun _ => inferInstanceAs (Decidable (_ ∧ _))

/-- A segment that is parsed has gone through the whole loop, with room left
for the `NULL`. -/
theorem fold_of_parseExec {c : ExecCmd} (h : parseExec env s = .ok c) :
    (tokens s).foldlM (parseToken env) (execCmdCreate s) = .ok c ∧ c.argv.length < maxArgs := by
  unfold parseExec at h
  rw [parseTokens_eq] at h
  cases hloop : (tokens s).foldlM (parseToken env) (execCmdCreate s) with
  | error f =>
      rw [hloop] at h
      cases h
  | ok c' =>
      rw [hloop] at h
      simp only [bind, Except.bind] at h
      split at h
      · rename_i hroom
        cases h
        exact ⟨rfl, hroom⟩
      · cases h

theorem fits_of_parseExec {c : ExecCmd} (h : parseExec env s = .ok c) : Fits env s := by
  obtain ⟨hloop, hroom⟩ := fold_of_parseExec h
  have hbounds := foldlM_parseToken_bounds hloop (Nat.zero_le _) (Nat.zero_le _)
  obtain ⟨c₁, hfold, hargv, -⟩ := foldlM_parseToken hbounds.1 hbounds.2
  rw [hloop] at hfold
  cases hfold
  rw [hargv, show (execCmdCreate s).argv = [] from rfl, List.nil_append] at hroom
  exact ⟨Nat.le_pred_of_lt hroom, hbounds.2⟩

/-- `parse_exec` returns exactly if both vectors fit. -/
theorem parseExec_ok_iff : (∃ c, parseExec env s = .ok c) ↔ Fits env s := by
  constructor
  · rintro ⟨c, hc⟩
    exact fits_of_parseExec hc
  · intro h
    obtain ⟨c, hc, -⟩ := parseExec_vectors h.1 h.2
    exact ⟨c, hc⟩

theorem vectors_of_parseExec {c : ExecCmd} (h : parseExec env s = .ok c) :
    c.argv = arguments env (tokens s) ∧ c.eargv = assignments (tokens s) := by
  have hfits := fits_of_parseExec h
  obtain ⟨c', hc', hargv, heargv⟩ := parseExec_vectors hfits.1 hfits.2
  rw [h] at hc'
  cases hc'
  exact ⟨hargv, heargv⟩

/-- The command keeps the text of its segment. -/
theorem scmd_of_parseExec {c : ExecCmd} (h : parseExec env s = .ok c) : c.scmd = s := by
  refine Fold.foldlM_inv (P := fun c => c.scmd = s) (fun tok _ c c' hc hstep => ?_) rfl
    (fold_of_parseExec h).1
  rcases parseToken_cases hstep with ⟨-, hredir⟩ | ⟨-, -, -, rfl⟩ | ⟨-, -, -, rfl⟩ | ⟨-, -, -, -, rfl⟩
  · rw [(parseRedirFlow_some hredir).2.2.1, hc]
  · exact hc
  · exact hc
  · exact hc

/-- `parse_exec` of a segment ends, whatever the segment, the variables
and the last status. With room for them, `argv` has the arguments in order
and, in the slot behind them, the `NULL`; `eargv` has the assignments. -/
theorem parse_exec_vectors (env : Environ) (mem : Mem) (buf : Nat) (s rest : Str)
    (hmem : mem.drop buf = s ++ endString :: rest) (hs : endString ∉ s) :
    (∀ fuel, s.length < fuel → parseExecAt env mem buf fuel ≠ .error .outOfFuel) ∧
      ((arguments env (tokens s)).length ≤ maxArgs - 1 →
        (assignments (tokens s)).length ≤ maxArgs →
        ∃ c, (∀ fuel, s.length < fuel → parseExecAt env mem buf fuel = .ok c) ∧
          c.argv = arguments env (tokens s) ∧ c.argv.length < maxArgs ∧
          c.eargv = assignments (tokens s)) := by
  constructor
  · intro fuel hfuel h
    rw [parseExecAt_eq env hmem hs hfuel] at h
    cases parseExec_error h
  · intro hargs hassign
    obtain ⟨c, hparse, hargv, heargv⟩ := parseExec_vectors hargs hassign
    refine ⟨c, fun fuel hfuel => ?_, hargv, ?_, heargv⟩
    · rw [parseExecAt_eq env hmem hs hfuel, hparse]
    · rw [hargv]
      exact Nat.lt_of_le_of_lt hargs (by decide)

/-- No variable is set, and the last status is 3. -/
def noVariables : Environ where
  getenv _ := none
  status := 3

/-- An unset variable leaves no hole, a run of spaces neither, and the
assignment and the redirection are no arguments. -/
theorem parse_exec_vectors_unset :
    ∃ c, (∀ fuel, 27 < fuel →
        parseExecAt noVariables ("K=v echo  hi $X bye $? >out\x00".toList) 0 fuel = .ok c) ∧
      c.argv = ["echo".toList, "hi".toList, "bye".toList, "3".toList] ∧
      c.eargv = ["K=v".toList] := by
  obtain ⟨c, hparse, hargv, -, heargv⟩ := (parse_exec_vectors noVariables
    ("K=v echo  hi $X bye $? >out\x00".toList) 0 ("K=v echo  hi $X bye $? >out".toList) []
    (by decide) (by decide)).2 (by decide) (by decide)
  refine ⟨c, hparse, ?_, ?_⟩
  · rw [hargv]
    decide
  · rw [heargv]
    decide

end SistemasOperativos.Shell
