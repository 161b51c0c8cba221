/-
SistemasOperativos.Shell.LineTheorems — the tree of any line.

`parseLine_eq_pipeTree` is about lines whose stages are in order. Here a
line is any sequence of characters that fits in the buffer: stages may be
empty or start with `&`, and a NUL may stand anywhere. The first stage
ends at the first `|` or NUL; what `split_line` returns is behind it, on
the other side of the NUL if there is no `|`. From there on only a `|`
separates. An empty stage is a null pointer.

Two things go wrong outside the tree: a line that fills the buffer has
nothing behind its end, and a line that starts with `&` is read from one
place before the buffer.
-/
import SistemasOperativos.Shell.ArgvTheorems

namespace SistemasOperativos.Shell

/-! ## The stages of a line -/

/-- The string that starts here. -/
def upToEnd (s : Str) : Str := s.takeWhile (· != endString)

def firstStage (line : Str) : Str := line.takeWhile (fun x => x != '|' && x != endString)

/-- What `split_line` returns. -/
def rightOf (line : Str) : Str := upToEnd (skipSpaces (line.drop ((firstStage line).length + 1)))

def laterStages (line : Str) : List Str := ((rightOf line).splitOn '|').map skipSpaces

/-- `parse_cmd` of a stage behind the first. -/
def parseLater (env : Environ) (s : Str) : Except Fault Cmd :=
  if s = [] then .ok .null else parseStage env s

/-- `parse_cmd` of the first stage: before an `&` at its start there is
nothing to read. -/
def parseFirst (env : Environ) (s : Str) : Except Fault Cmd :=
  if s.head? = some '&' then .error .outOfBounds else parseLater env s

def laterTree (env : Environ) : List Str → Except Fault Cmd
  | [] => .ok .null
  | s :: ss => do
      let l ← parseLater env s
      let r ← laterTree env ss
      return pipeCmdCreate l r

/-- The tree of a line. -/
def lineTree (env : Environ) (line : Str) : Except Fault Cmd := do
  let l ← parseFirst env (firstStage line)
  let r ← laterTree env (laterStages line)
  return pipeCmdCreate l r

/-! ## One stage -/

/-- The test of `parse_cmd` on a stage that has something in front of its
first `&`. -/
def inBack (s : Str) : Bool :=
  match s.idxOf? '&' with
  | none => false
  | some i => s[i - 1]? != some '>'

/-- The part of a stage that `parse_exec` is given. -/
def execPart (s : Str) : Str := if inBack s then s.takeWhile (· != '&') else s

theorem take_idxOf? {s : Str} {i : Nat} (hi : s.idxOf? '&' = some i) :
    s.take i = s.takeWhile (· != '&') := by
  induction s generalizing i with
  | nil => simp at hi
  | cons x xs ih =>
    rw [List.idxOf?_cons] at hi
    by_cases hx : x = '&'
    · rw [if_pos (by simp [hx])] at hi
      cases hi
      rw [List.takeWhile_cons_of_neg (by simp [hx])]
      rfl
    · rw [if_neg (by simp [hx])] at hi
      cases hidx : xs.idxOf? '&' with
      | none =>
        rw [hidx] at hi
        cases hi
      | some j =>
        rw [hidx] at hi
        cases hi
        rw [List.takeWhile_cons_of_pos (by simp [hx]), ← ih hidx]
        rfl

theorem parseStage_eq (env : Environ) (s : Str) : parseStage env s =
    (parseExec env (execPart s)).map (if inBack s then backCmdCreate else Cmd.exec) := by
  cases hidx : s.idxOf? '&' with
  | none =>
    have hback : inBack s = false := by rw [inBack, hidx]
    rw [parseStage, hidx, execPart, hback]
    rfl
  | some i =>
    have hback : inBack s = (s[i - 1]? != some '>') := by rw [inBack, hidx]
    rw [parseStage, hidx, execPart, hback, ← take_idxOf? hidx]
    by_cases hprev : s[i - 1]? = some '>'
    · simp [hprev]
    · simp [hprev]

/-! ## `parse_cmd` in the buffer -/

variable {env : Environ} {mem mem' : Mem} {buf : Nat} {s rest line : Str}

/-- What `parse_cmd` may read in front of its argument. -/
def NotAfterRedir (mem : Mem) (buf : Nat) : Prop := ∃ p, 0 < buf ∧ mem[buf - 1]? = some p ∧ p ≠ '>'

theorem parseCmd_nil (env : Environ) (hmem : mem.drop buf = endString :: rest) :
    parseCmd env mem buf = .ok (mem, .null) := by
  have hstring : cString mem buf = .ok [] := cString_eq (s := []) hmem (by simp)
  rw [parseCmd, hstring]
  rfl

theorem parseCmd_and (env : Environ) {b : Str} (hmem : mem.drop buf = '&' :: b ++ endString :: rest)
    (hb : endString ∉ b) (hprev : NotAfterRedir mem buf) :
    ∃ mem', parseCmd env mem buf = (parseStage env ('&' :: b)).map (Prod.mk mem') ∧
      mem'.drop (buf + ('&' :: b).length) = endString :: rest := by
  obtain ⟨p, hpos, hp, hne⟩ := hprev
  have hs : endString ∉ '&' :: b := by
    rw [List.mem_cons]
    exact not_or.2 ⟨by decide, hb⟩
  obtain ⟨mem', hback, hmem'⟩ := @parseBack_spec env mem buf [] rest b hmem (by simp) (by simp)
  have hruns : runsInBack mem buf ('&' :: b) = .ok true := by
    have hload : load mem (buf - 1) = .ok p := by rw [load, hp]
    have hidx : blockContains ('&' :: b) '&' = 0 := by simp [blockContains, List.idxOf?_cons]
    rw [runsInBack, hidx]
    simp [Nat.ne_of_gt hpos, hload, Except.map, hne]
  refine ⟨mem', ?_, hmem'⟩
  rw [parseCmd, cString_eq hmem hs]
  show (runsInBack mem buf ('&' :: b) >>= _) = _
  rw [hruns]
  show parseBack env mem buf = _
  rw [hback, parseStage]
  simp [List.idxOf?_cons]

theorem parseCmd_later (env : Environ) (hmem : mem.drop buf = s ++ endString :: rest)
    (hs : endString ∉ s) (hprev : NotAfterRedir mem buf) :
    ∃ mem', parseCmd env mem buf = (parseLater env s).map (Prod.mk mem') ∧
      mem'.drop (buf + s.length) = endString :: rest := by
  cases s with
  | nil => exact ⟨mem, parseCmd_nil env hmem, hmem⟩
  | cons x xs =>
    rw [parseLater, if_neg (List.cons_ne_nil x xs)]
    by_cases hx : x = '&'
    · subst hx
      exact parseCmd_and env hmem (fun hmem => hs (List.mem_cons_of_mem _ hmem)) hprev
    · exact parseCmd_spec env hmem hs (List.cons_ne_nil x xs) (by simpa using hx)

theorem parseCmd_first (env : Environ) (hmem : mem.drop 0 = s ++ endString :: rest)
    (hs : endString ∉ s) :
    ∃ mem', parseCmd env mem 0 = (parseFirst env s).map (Prod.mk mem') ∧
      mem'.drop s.length = endString :: rest := by
  have hdrop : mem.drop s.length = endString :: rest := by
    have := drop_add hmem
    rwa [Nat.zero_add] at this
  cases s with
  | nil => exact ⟨mem, parseCmd_nil env hmem, hdrop⟩
  | cons x xs =>
    by_cases hx : x = '&'
    · subst hx
      refine ⟨mem, ?_, hdrop⟩
      have hruns : runsInBack mem 0 ('&' :: xs) = .error .outOfBounds := by
        simp [runsInBack, blockContains, List.idxOf?_cons]
      rw [parseCmd, cString_eq hmem hs, parseFirst]
      simp [bind, Except.bind, hruns, Except.map]
    · obtain ⟨mem', hcmd, hmem'⟩ := parseCmd_spec env hmem hs (List.cons_ne_nil x xs) (by simpa using hx)
      rw [Nat.zero_add] at hmem'
      refine ⟨mem', ?_, hmem'⟩
      rw [hcmd, parseFirst, if_neg (by simpa using hx), parseLater, if_neg (List.cons_ne_nil x xs)]

/-! ## `split_line` -/

theorem splitLine_keeps {x : Char} {right : Nat} (h : splitLine mem buf x = .ok (mem', right)) {i : Nat}
    (hi : i < buf) : mem'[i]? = mem[i]? := by
  unfold splitLine at h
  cases hscan : scan (fun y => y == x || y == endString) (mem.drop buf) with
  | error e =>
    rw [hscan] at h
    cases h
  | ok n =>
    rw [hscan] at h
    simp only [bind, Except.bind, store] at h
    split at h
    · cases h
    · rename_i mem₁ hstore
      split at h
      · cases h
      · split at hstore
        · cases hstore
          cases h
          rw [List.getElem?_set_ne (by omega)]
        · cases hstore

theorem takeWhile_skipSpaces (s : Str) : s.takeWhile (· == space) ++ skipSpaces s = s :=
  List.takeWhile_append_dropWhile

/-- Spaces are followed by something else before the end of the string. -/
theorem skipSpaces_append (s rest : Str) :
    ∃ y ys, skipSpaces s ++ endString :: rest = y :: ys ∧ y ≠ space := by
  cases hskip : skipSpaces s with
  | nil => exact ⟨endString, rest, rfl, by decide⟩
  | cons y ys =>
    exact ⟨y, ys ++ endString :: rest, rfl, skipSpaces_head hskip⟩

/-- Where the string ends at `c`, `split_line` returns the place behind
`c` and the spaces after it. -/
theorem splitLine_right {c : Char} {right : Str} (hmem : mem.drop buf = s ++ c :: (right ++ endString :: rest))
    (hpipe : '|' ∉ s) (hs : endString ∉ s) (hc : c = '|' ∨ c = endString) :
    ∃ mem', splitLine mem buf '|' =
        .ok (mem', buf + s.length + 1 + (right.takeWhile (· == space)).length) ∧
      mem'.drop buf = s ++ endString :: (right ++ endString :: rest) := by
  obtain ⟨y, ys, hskip, hy⟩ := skipSpaces_append right rest
  have hright : right ++ endString :: rest = right.takeWhile (· == space) ++ y :: ys := by
    rw [← hskip, ← List.append_assoc, takeWhile_skipSpaces]
  rw [hright] at hmem ⊢
  exact splitLine_spec _ hmem hpipe hs hc (fun _ => eq_space_of_mem) hy

/-- What is at that place, and in front of it. -/
theorem right_pointer {n : Nat} {right : Str} (hmem : mem.drop n = endString :: (right ++ endString :: rest)) :
    mem.drop (n + 1 + (right.takeWhile (· == space)).length) = skipSpaces right ++ endString :: rest ∧
      NotAfterRedir mem (n + 1 + (right.takeWhile (· == space)).length) := by
  have hcut : mem.drop n = (endString :: right.takeWhile (· == space)) ++
      (skipSpaces right ++ endString :: rest) := by
    rw [List.cons_append, ← List.append_assoc, takeWhile_skipSpaces]
    exact hmem
  constructor
  · have := drop_add hcut
    rwa [List.length_cons, Nat.add_comm _ 1, ← Nat.add_assoc] at this
  · have hget : mem[n + (right.takeWhile (· == space)).length]? =
        (endString :: right.takeWhile (· == space))[(right.takeWhile (· == space)).length]? := by
      rw [← List.getElem?_drop, hcut, List.getElem?_append_left (by simp)]
    obtain ⟨p, hp⟩ : ∃ p, (endString :: right.takeWhile (· == space))[
        (right.takeWhile (· == space)).length]? = some p :=
      ⟨_, List.getElem?_eq_getElem (by simp)⟩
    refine ⟨p, by omega, ?_, ?_⟩
    · rw [show n + 1 + (right.takeWhile (· == space)).length - 1 =
        n + (right.takeWhile (· == space)).length by omega, hget, hp]
    · rcases List.mem_cons.1 (List.mem_of_getElem? hp) with rfl | hmem
      · decide
      · rw [eq_space_of_mem hmem]
        decide

theorem skipSpaces_append_cons (s : Str) {y : Char} (hy : y ≠ space) (ys : Str) :
    skipSpaces (s ++ y :: ys) = skipSpaces s ++ y :: ys := by
  have hstop : (y :: ys).dropWhile (· == space) = y :: ys :=
    List.dropWhile_cons_of_neg (by simpa using hy)
  rw [skipSpaces, List.dropWhile_append, hstop]
  split
  · rename_i hempty
    rw [skipSpaces, List.isEmpty_iff.1 hempty]
    rfl
  · rfl

theorem skipSpaces_joinPipes (t : Str) (ss : List Str) :
    skipSpaces (joinPipes (t :: ss)) = joinPipes (skipSpaces t :: ss) := by
  cases ss with
  | nil => simp [joinPipes]
  | cons u ss =>
    rw [joinPipes_cons, joinPipes_cons]
    exact skipSpaces_append_cons t (by decide) _

/-! ## Behind the first `|` -/

/-- One turn of `parse_line`, from what its calls do. -/
theorem parseLine_succ {fuel right : Nat} {mem₁ mem₂ mem₃ : Mem} {l r : Except Fault Cmd}
    (hsplit : splitLine mem buf '|' = .ok (mem₁, right))
    (hcmd : parseCmd env mem₁ buf = l.map (Prod.mk mem₂))
    (hrest : (strchr mem₂ right '|' >>= fun again =>
      if again then parseLine env fuel mem₂ right else parseCmd env mem₂ right) = r.map (Prod.mk mem₃)) :
    parseLine env (fuel + 1) mem buf = (do
      let l ← l
      let r ← r
      return pipeCmdCreate l r : Except Fault Cmd).map (Prod.mk mem₃) := by
  rw [parseLine, hsplit]
  show (parseCmd env mem₁ buf >>= _) = _
  rw [hcmd]
  cases l with
  | error e => rfl
  | ok l =>
    show (strchr mem₂ right '|' >>= fun again =>
      (if again then parseLine env fuel mem₂ right else parseCmd env mem₂ right) >>= _) = _
    rw [← bind_assoc, hrest]
    cases r with
    | error e => rfl
    | ok r => rfl

/-- The stages from a place on, joined by `|`. -/
theorem parseLine_later (env : Environ) {ss : List Str} (hss : ∀ t ∈ ss, '|' ∉ t ∧ endString ∉ t) :
    ∀ {fuel mem buf s}, ss.length ≤ fuel → '|' ∉ s → endString ∉ s → NotAfterRedir mem buf →
      mem.drop buf = joinPipes (s :: ss) ++ endString :: rest →
      ∃ mem', (strchr mem buf '|' >>= fun again =>
        if again then parseLine env fuel mem buf else parseCmd env mem buf) =
          (laterTree env (s :: ss.map skipSpaces)).map (Prod.mk mem') := by
  induction ss with
  | nil =>
    intro fuel mem buf s _ hpipe hs hprev hmem
    have hone : mem.drop buf = s ++ endString :: rest := by
      simpa [joinPipes] using hmem
    obtain ⟨mem', hcmd, -⟩ := parseCmd_later env hone hs hprev
    refine ⟨mem', ?_⟩
    rw [strchr_eq hone hpipe hs (Or.inr rfl)]
    show parseCmd env mem buf = _
    rw [hcmd, laterTree, List.map_nil, laterTree]
    cases parseLater env s with
    | error e => rfl
    | ok l => rfl
  | cons t ss ih =>
    intro fuel mem buf s hfuel hpipe hs hprev hmem
    cases fuel with
    | zero => simp at hfuel
    | succ fuel =>
      have ht := hss t (by simp)
      have hmany : mem.drop buf = s ++ '|' :: (joinPipes (t :: ss) ++ endString :: rest) := by
        rw [hmem, joinPipes_cons]
        simp
      obtain ⟨mem₁, hsplit, hmem₁⟩ := splitLine_right hmany hpipe hs (Or.inl rfl)
      have hprev₁ : NotAfterRedir mem₁ buf := by
        obtain ⟨p, hpos, hp, hne⟩ := hprev
        exact ⟨p, hpos, (splitLine_keeps hsplit (by omega)).trans hp, hne⟩
      obtain ⟨mem₂, hcmd, hmem₂⟩ := parseCmd_later env hmem₁ hs hprev₁
      obtain ⟨hright, hprev₂⟩ := right_pointer hmem₂
      rw [skipSpaces_joinPipes] at hright
      obtain ⟨mem₃, hrest⟩ := ih (fun u hu => hss u (by simp [hu])) (Nat.le_of_succ_le_succ hfuel)
        (fun hp => ht.1 ((List.dropWhile_sublist _).mem hp))
        (fun he => ht.2 ((List.dropWhile_sublist _).mem he)) hprev₂ hright
      refine ⟨mem₃, ?_⟩
      rw [strchr_eq hmany hpipe hs (Or.inl rfl)]
      show parseLine env (fuel + 1) mem buf = _
      exact parseLine_succ hsplit hcmd hrest

/-! ## The whole line -/

/-- The pieces of a split lack the separator, and come from the list. -/
theorem mem_splitOn {x : Char} {xs w : Str} (h : w ∈ xs.splitOn x) : x ∉ w ∧ ∀ y ∈ w, y ∈ xs := by
  induction xs generalizing w with
  | nil =>
    rw [List.splitOn_nil, List.mem_singleton] at h
    simp [h]
  | cons a xs ih =>
    rw [List.splitOn_cons_eq_if_modifyHead] at h
    obtain ⟨p, ps, hps⟩ := List.exists_cons_of_ne_nil (List.splitOn_ne_nil x xs)
    rw [hps] at h ih
    split at h
    · rcases List.mem_cons.1 h with rfl | h
      · simp
      · exact ⟨(ih h).1, fun y hy => List.mem_cons_of_mem a ((ih h).2 y hy)⟩
    · rename_i ha
      have hax : x ≠ a := fun hax => ha (by simp [hax])
      rw [List.modifyHead_cons] at h
      rcases List.mem_cons.1 h with rfl | h
      · have hp := ih (List.mem_cons_self ..)
        refine ⟨by simp [hax, hp.1], fun y hy => ?_⟩
        rcases List.mem_cons.1 hy with rfl | hy
        · simp
        · exact List.mem_cons_of_mem a (hp.2 y hy)
      · have hw := ih (List.mem_cons_of_mem p h)
        exact ⟨hw.1, fun y hy => List.mem_cons_of_mem a (hw.2 y hy)⟩

theorem length_splitOn_le (x : Char) (xs : Str) : (xs.splitOn x).length ≤ xs.length + 1 := by
  induction xs with
  | nil => simp
  | cons a xs ih =>
    rw [List.splitOn_cons_eq_if_modifyHead]
    split
    · simp only [List.length_cons]
      omega
    · rw [List.length_modifyHead, List.length_cons]
      omega

theorem upToEnd_append (s rest : Str) :
    ∃ rest', s ++ endString :: rest = upToEnd s ++ endString :: rest' ∧ endString ∉ upToEnd s := by
  have hnot : endString ∉ upToEnd s := not_mem_takeWhile_ne endString s
  rcases takeWhile_stops (· != endString) s with hwhole | ⟨y, ys, hy, hsplit⟩
  · refine ⟨rest, ?_, hnot⟩
    rw [upToEnd, ← hwhole]
  · obtain rfl : y = endString := by simpa using hy
    refine ⟨ys ++ endString :: rest, ?_, hnot⟩
    conv => lhs; rw [hsplit]
    simp [upToEnd]

theorem skipSpaces_upToEnd (s : Str) : skipSpaces (upToEnd (skipSpaces s)) = upToEnd (skipSpaces s) := by
  cases hskip : skipSpaces s with
  | nil => rfl
  | cons y ys =>
    have hy : y ≠ space := skipSpaces_head hskip
    by_cases hend : y = endString
    · rw [upToEnd, List.takeWhile_cons_of_neg (by simp [hend])]
      rfl
    · rw [upToEnd, List.takeWhile_cons_of_pos (by simp [hend])]
      exact List.dropWhile_cons_of_neg (by simpa using hy)

/-- The buffer at the end of the first stage. -/
theorem readBuffer_first (hlen : line.length < bufLen) (hfirst : (firstStage line).length < bufLen - 1) :
    ∃ c pad, (readBuffer line).drop 0 =
        firstStage line ++ c :: (line.drop ((firstStage line).length + 1) ++ endString :: pad) ∧
      (c = '|' ∨ c = endString) := by
  rcases takeWhile_stops (fun x => x != '|' && x != endString) line with hline | ⟨c, w, hc, hline⟩
  · replace hline : firstStage line = line := hline.symm
    refine ⟨endString, List.replicate (bufLen - line.length - 2) endString, ?_, Or.inr rfl⟩
    rw [hline] at hfirst ⊢
    rw [List.drop_zero, readBuffer, List.drop_eq_nil_of_le (by omega), List.nil_append,
      ← List.replicate_succ, ← List.replicate_succ]
    congr 2
    omega
  · have hc : c = '|' ∨ c = endString := by
      simpa [Decidable.or_iff_not_imp_left] using hc
    replace hline : firstStage line ++ c :: w = line := hline.symm
    have hw : (firstStage line ++ c :: w).drop ((firstStage line).length + 1) = w := by
      rw [← List.drop_drop, List.drop_left]
      rfl
    have hbuf : readBuffer line =
        (firstStage line ++ c :: w) ++ endString :: List.replicate (bufLen - line.length - 1) endString := by
      rw [hline, readBuffer, ← List.replicate_succ]
      congr 2
      omega
    rw [hline] at hw
    refine ⟨c, List.replicate (bufLen - line.length - 1) endString, ?_, hc⟩
    rw [hw, List.drop_zero, hbuf]
    simp

theorem firstStage_free (line : Str) : '|' ∉ firstStage line ∧ endString ∉ firstStage line := by
  constructor
  · intro hmem
    simpa using List.mem_takeWhile_imp hmem
  · intro hmem
    simpa using List.mem_takeWhile_imp hmem

/-- `parse_line` of a line in the buffer: the tree of its stages. A
recursion as deep as the line is long is enough. -/
theorem parseLine_eq_lineTree (env : Environ) (hlen : line.length < bufLen)
    (hfirst : (firstStage line).length < bufLen - 1) {fuel : Nat} (hfuel : line.length < fuel) :
    ∃ mem', parseLine env fuel (readBuffer line) 0 = (lineTree env line).map (Prod.mk mem') := by
  cases fuel with
  | zero => omega
  | succ fuel =>
    obtain ⟨hpipe, hend⟩ := firstStage_free line
    obtain ⟨c, pad, hbuf, hc⟩ := readBuffer_first hlen hfirst
    obtain ⟨mem₁, hsplit, hmem₁⟩ := splitLine_right hbuf hpipe hend hc
    obtain ⟨mem₂, hcmd, hmem₂⟩ := parseCmd_first env hmem₁ hend
    obtain ⟨hright, hprev⟩ := right_pointer hmem₂
    obtain ⟨pad', hstring, hfree⟩ :=
      upToEnd_append (skipSpaces (line.drop ((firstStage line).length + 1))) pad
    rw [hstring, ← rightOf] at hright
    rw [← rightOf] at hfree
    obtain ⟨s, ss, hpieces⟩ := List.exists_cons_of_ne_nil (List.splitOn_ne_nil '|' (rightOf line))
    have hfreePiece : ∀ t ∈ s :: ss, '|' ∉ t ∧ endString ∉ t := by
      intro t ht
      rw [← hpieces] at ht
      have := mem_splitOn ht
      exact ⟨this.1, fun he => hfree (this.2 _ he)⟩
    have hjoin : rightOf line = joinPipes (skipSpaces s :: ss) := by
      rw [← skipSpaces_joinPipes, ← hpieces, joinPipes, List.intercalate_splitOn, rightOf,
        skipSpaces_upToEnd]
    have hdepth : ss.length ≤ fuel := by
      have hpiecesLen := length_splitOn_le '|' (rightOf line)
      have hrightLen : (rightOf line).length ≤ line.length :=
        ((List.takeWhile_prefix _).sublist.trans ((List.dropWhile_sublist _).trans
          (List.drop_sublist _ _))).length_le
      rw [hpieces, List.length_cons] at hpiecesLen
      omega
    have hs := hfreePiece s (by simp)
    rw [hjoin] at hright
    obtain ⟨mem₃, hrest⟩ := parseLine_later env (fun t ht => hfreePiece t (by simp [ht])) hdepth
      (fun hp => hs.1 ((List.dropWhile_sublist _).mem hp))
      (fun he => hs.2 ((List.dropWhile_sublist _).mem he)) hprev hright
    rw [Nat.zero_add] at hsplit
    refine ⟨mem₃, ?_⟩
    rw [parseLine_succ hsplit hcmd hrest, lineTree, laterStages, hpieces, List.map_cons]
    rfl

/-- A line that fills the buffer in one stage: `split_line` goes past its
end. -/
theorem parseLine_full (env : Environ) (hfirst : (firstStage line).length = bufLen - 1)
    (hlen : line.length < bufLen) (fuel : Nat) :
    parseLine env (fuel + 1) (readBuffer line) 0 = .error .outOfBounds := by
  obtain ⟨hpipe, hend⟩ := firstStage_free line
  have hline : firstStage line = line :=
    (List.takeWhile_prefix _).eq_of_length_le (by rw [show (line.takeWhile _) = firstStage line from rfl]; omega)
  have hbuf : (readBuffer line).drop 0 = line ++ [endString] := by
    rw [List.drop_zero, readBuffer, show bufLen - line.length = 1 by rw [← hline]; omega]
    rfl
  rw [hline] at hpipe hend
  obtain ⟨mem', hstore, hmem'⟩ := store_eq hbuf endString
  have hpast : mem'.drop (0 + (line.length + 1)) = [] := by
    have hwhole : mem'.drop 0 = (line ++ [endString]) ++ [] := by
      rw [List.append_nil]
      exact hmem'
    simpa using drop_add hwhole
  have hsplit : splitLine (readBuffer line) 0 '|' = .error .outOfBounds := by
    rw [splitLine, hbuf, scan_until hpipe hend (Or.inr rfl)]
    show (store (readBuffer line) (0 + line.length) endString >>= _) = _
    rw [hstore]
    show (scan (fun z => z != space) (mem'.drop (0 + (line.length + 1))) >>= _) = _
    rw [hpast]
    rfl
  rw [parseLine, hsplit]
  rfl

end SistemasOperativos.Shell
