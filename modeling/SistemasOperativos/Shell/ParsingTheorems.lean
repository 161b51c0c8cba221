/-
SistemasOperativos.Shell.ParsingTheorems — a pipeline is parsed stage by
stage.

`parse_line` cuts one buffer in place. The induction is over the stages,
with the buffer from the current one on as its invariant: the stages that
are left, joined by `|`, and at least two NULs after them. Two, because
`split_line` goes one past the end of a line that has no `|`.
-/
import Mathlib.Data.List.TakeWhile
import SistemasOperativos.Shell.Parsing

namespace SistemasOperativos.Shell

/-! ## The specification -/

/-- A line as `read_line` leaves it. -/
def readBuffer (line : Str) : Mem := line ++ List.replicate (bufLen - line.length) endString

def joinPipes (stages : List Str) : Str := ['|'].intercalate stages

def skipSpaces (s : Str) : Str := s.dropWhile (· == space)

/-- `parse_cmd` of one string, in a buffer of its own. -/
def parseCmdOf (env : Environ) (s : Str) : Except Fault Cmd :=
  (parseCmd env (readBuffer s) 0).map Prod.snd

/-- The right-nested tree with these leaves. -/
def pipeTree : List Cmd → Cmd
  | [] => .null
  | [c] => c
  | c :: cs => .pipe c (pipeTree cs)

/-- A stage has no `|` and no NUL, and does not start with `&`. -/
structure Stage (s : Str) : Prop where
  noPipe : '|' ∉ s
  noEnd : endString ∉ s
  noBack : (skipSpaces s).head? ≠ some '&'

/-! ## Loops over the buffer -/

variable {env : Environ} {mem : Mem} {buf : Nat} {s rest : Str} {c : Char}

theorem scan_append {stop : Char → Bool} (hs : ∀ x ∈ s, stop x = false) (hc : stop c = true) :
    scan stop (s ++ c :: rest) = .ok s.length := by
  induction s with
  | nil => simp [scan, hc]
  | cons x xs ih =>
      have hx : stop x = false := hs x (by simp)
      have hxs : ∀ y ∈ xs, stop y = false := fun y hy => hs y (by simp [hy])
      simp [scan, hx, ih hxs, Except.map]

/-- A loop over a string gets to its end, or stops at a character. -/
theorem takeWhile_stops (p : Char → Bool) (s : Str) :
    s = s.takeWhile p ∨ ∃ x rest, p x = false ∧ s = s.takeWhile p ++ x :: rest := by
  have hsplit : s = s.takeWhile p ++ s.dropWhile p := List.takeWhile_append_dropWhile.symm
  cases hdrop : s.dropWhile p with
  | nil =>
      rw [hdrop, List.append_nil] at hsplit
      exact Or.inl hsplit
  | cons x rest =>
      have hhead := List.head?_dropWhile_not p s
      rw [hdrop] at hhead hsplit
      exact Or.inr ⟨x, rest, by simpa using hhead, hsplit⟩

/-- A loop that stops at `x` does not take it. -/
theorem not_mem_takeWhile_ne (x : Char) (s : Str) : x ∉ s.takeWhile (· != x) := by
  intro hmem
  simpa using List.mem_takeWhile_imp hmem

theorem cString_eq (hmem : mem.drop buf = s ++ endString :: rest) (hs : endString ∉ s) :
    cString mem buf = .ok s := by
  have hscan : scan (· == endString) (mem.drop buf) = .ok s.length := by
    rw [hmem]
    refine scan_append (fun x hx => ?_) (by decide)
    rw [beq_eq_false_iff_ne]
    rintro rfl
    exact hs hx
  rw [cString, hscan, hmem]
  show Except.ok ((s ++ endString :: rest).take s.length) = _
  rw [List.take_left']
  rfl

/-- What is at an address inside the buffer. -/
theorem getElem?_of_drop (hmem : mem.drop buf = s ++ c :: rest) :
    mem[buf + s.length]? = some c := by
  rw [← List.getElem?_drop, hmem]
  simp

theorem load_eq (hmem : mem.drop buf = s ++ c :: rest) : load mem (buf + s.length) = .ok c := by
  rw [load, getElem?_of_drop hmem]

theorem store_eq (hmem : mem.drop buf = s ++ c :: rest) (x : Char) :
    ∃ mem', store mem (buf + s.length) x = .ok mem' ∧ mem'.drop buf = s ++ x :: rest := by
  have hlt : buf + s.length < mem.length := by
    have hlen := congrArg List.length hmem
    simp only [List.length_drop, List.length_append, List.length_cons] at hlen
    omega
  refine ⟨mem.set (buf + s.length) x, if_pos hlt, ?_⟩
  rw [List.drop_set, if_neg (by omega), hmem, Nat.add_sub_cancel_left,
    List.set_append_right _ _ (Nat.le_refl _)]
  simp

theorem drop_add (hmem : mem.drop buf = s ++ rest) : mem.drop (buf + s.length) = rest := by
  rw [← List.drop_drop, hmem, List.drop_left']
  rfl

/-- A loop that stops at `x` or at the end of the string. -/
theorem scan_until {x : Char} (hx : x ∉ s) (hs : endString ∉ s) (hc : c = x ∨ c = endString) :
    scan (fun y => y == x || y == endString) (s ++ c :: rest) = .ok s.length := by
  refine scan_append (fun y hy => ?_) (by simpa using hc)
  rw [Bool.or_eq_false_iff, beq_eq_false_iff_ne, beq_eq_false_iff_ne]
  exact ⟨fun hyx => hx (hyx ▸ hy), fun hye => hs (hye ▸ hy)⟩

theorem strchr_eq {x : Char} (hmem : mem.drop buf = s ++ c :: rest) (hx : x ∉ s)
    (hs : endString ∉ s) (hc : c = x ∨ c = endString) : strchr mem buf x = .ok (c == x) := by
  rw [strchr, hmem, scan_until hx hs hc]
  show (load mem (buf + s.length) >>= _) = _
  rw [load_eq hmem]
  rfl

/-- `split_line` ends the string at the splitter, or where it ends anyway,
and skips the spaces that follow. -/
theorem splitLine_spec {x y : Char} (spaces : Str)
    (hmem : mem.drop buf = s ++ c :: (spaces ++ y :: rest)) (hx : x ∉ s) (hs : endString ∉ s)
    (hc : c = x ∨ c = endString) (hspaces : ∀ z ∈ spaces, z = space) (hy : y ≠ space) :
    ∃ mem', splitLine mem buf x = .ok (mem', buf + s.length + 1 + spaces.length) ∧
      mem'.drop buf = s ++ endString :: (spaces ++ y :: rest) := by
  obtain ⟨mem', hstore, hmem'⟩ := store_eq hmem endString
  have hskip : scan (fun z => z != space) (mem'.drop (buf + (s.length + 1))) =
      .ok spaces.length := by
    have hrest : mem'.drop (buf + (s.length + 1)) = spaces ++ y :: rest := by
      have hcut : mem'.drop buf = (s ++ [endString]) ++ (spaces ++ y :: rest) := by
        simpa using hmem'
      simpa using drop_add hcut
    rw [hrest]
    refine scan_append (fun z hz => ?_) (by simpa using hy)
    simp [hspaces z hz]
  refine ⟨mem', ?_, hmem'⟩
  rw [splitLine, hmem, scan_until hx hs hc]
  show (store mem (buf + s.length) endString >>= _) = _
  rw [hstore]
  show (scan (fun z => z != space) (mem'.drop (buf + (s.length + 1))) >>= _) = _
  rw [hskip]
  rfl

/-! ## `parse_cmd` reads one string -/

/-- `parse_cmd` as a function of the string it is given. -/
def parseStage (env : Environ) (s : Str) : Except Fault Cmd :=
  match s.idxOf? '&' with
  | none => (parseExec env s).map .exec
  | some i =>
      if s[i - 1]? = some '>' then (parseExec env s).map .exec
      else (parseExec env (s.take i)).map backCmdCreate

/-- A string with an `&` that is not its first character. -/
theorem exists_split_of_idxOf? {i : Nat} (hi : s.idxOf? '&' = some i) (hhead : s.head? ≠ some '&') :
    ∃ a p b, s = (a ++ [p]) ++ '&' :: b ∧ '&' ∉ a ++ [p] ∧ i = (a ++ [p]).length := by
  obtain ⟨a, b, hs, ha, hlen⟩ : ∃ a b, s = a ++ '&' :: b ∧ '&' ∉ a ∧ i = a.length := by
    obtain ⟨hlt, hget, hmin⟩ := List.idxOf?_eq_some_iff.1 hi
    refine ⟨s.take i, s.drop (i + 1), ?_, ?_, ?_⟩
    · rw [← hget, List.getElem_cons_drop, List.take_append_drop]
    · intro hmem
      obtain ⟨j, hj, heq⟩ := List.mem_take_iff_getElem.1 hmem
      exact hmin j (by omega) heq
    · simp [Nat.le_of_lt hlt]
  rcases List.eq_nil_or_concat a with rfl | ⟨a', p, rfl⟩
  · rw [hs] at hhead
    exact absurd rfl hhead
  · exact ⟨a', p, b, by simpa using hs, by simpa using ha, by simpa using hlen⟩

theorem runsInBack_none (hi : s.idxOf? '&' = none) : runsInBack mem buf s = .ok false := by
  simp [runsInBack, blockContains, hi]

theorem runsInBack_some {i : Nat} (hi : s.idxOf? '&' = some i) (hhead : s.head? ≠ some '&')
    (hmem : mem.drop buf = s ++ rest) : runsInBack mem buf s = .ok (s[i - 1]? != some '>') := by
  obtain ⟨a, p, b, rfl, -, rfl⟩ := exists_split_of_idxOf? hi hhead
  have hload : load mem (buf + a.length) = .ok p := by
    have hmem' : mem.drop buf = a ++ p :: ('&' :: b ++ rest) := by
      simpa using hmem
    exact load_eq hmem'
  have hidx : blockContains ((a ++ [p]) ++ '&' :: b) '&' = ((a.length + 1 : Nat) : Int) := by
    rw [blockContains, hi]
    simp
  have hprev : ((a ++ [p]) ++ '&' :: b)[(a ++ [p]).length - 1]? = some p := by
    simp
  rw [runsInBack, hidx, hprev, if_pos (by omega), Int.toNat_natCast, if_neg (by omega),
    Nat.add_succ_sub_one, hload]
  rfl

theorem parseBack_spec {b : Str} (hmem : mem.drop buf = s ++ '&' :: b ++ endString :: rest)
    (hand : '&' ∉ s) (hs : endString ∉ s) :
    ∃ mem', parseBack env mem buf = ((parseExec env s).map backCmdCreate).map (Prod.mk mem') ∧
      mem'.drop (buf + (s ++ '&' :: b).length) = endString :: rest := by
  have hmem₁ : mem.drop buf = s ++ '&' :: (b ++ endString :: rest) := by
    simpa using hmem
  have hscan : scan (· == '&') (mem.drop buf) = .ok s.length := by
    rw [hmem₁]
    refine scan_append (fun x hx => ?_) (by decide)
    rw [beq_eq_false_iff_ne]
    rintro rfl
    exact hand hx
  obtain ⟨mem', hstore, hmem'⟩ := store_eq hmem₁ endString
  refine ⟨mem', ?_, ?_⟩
  · rw [parseBack, hscan]
    show (store mem (buf + s.length) endString >>= _) = _
    rw [hstore]
    show (cString mem' buf >>= _) = _
    rw [cString_eq hmem' hs]
    show (parseExec env s >>= _) = _
    cases parseExec env s with
    | error e => rfl
    | ok e => rfl
  · have hcut : mem'.drop buf = (s ++ endString :: b) ++ endString :: rest := by
      simpa using hmem'
    simpa using drop_add hcut

/-- `parse_cmd` depends on its string only, and writes inside it. -/
theorem parseCmd_spec (env : Environ) (hmem : mem.drop buf = s ++ endString :: rest) (hs : endString ∉ s)
    (hne : s ≠ []) (hhead : s.head? ≠ some '&') :
    ∃ mem', parseCmd env mem buf = (parseStage env s).map (Prod.mk mem') ∧
      mem'.drop (buf + s.length) = endString :: rest := by
  have hlen : ¬ s.length = 0 := by
    rw [List.length_eq_zero_iff]
    exact hne
  have hexec : ∃ mem', (parseExec env s >>= fun e => pure (mem, Cmd.exec e)) =
      ((parseExec env s).map Cmd.exec).map (Prod.mk mem') ∧
      mem'.drop (buf + s.length) = endString :: rest := by
    refine ⟨mem, ?_, drop_add hmem⟩
    cases parseExec env s with
    | error e => rfl
    | ok e => rfl
  have hstart : parseCmd env mem buf = (do
      if ← runsInBack mem buf s then parseBack env mem buf
      else
        let e ← parseExec env s
        return (mem, .exec e)) := by
    rw [parseCmd, cString_eq hmem hs]
    exact if_neg hlen
  rw [hstart]
  cases hi : s.idxOf? '&' with
  | none =>
      rw [runsInBack_none hi, parseStage, hi]
      exact hexec
  | some i =>
      rw [runsInBack_some hi hhead hmem, parseStage, hi]
      by_cases hprev : s[i - 1]? = some '>'
      · simp only [hprev, bne_self_eq_false, if_true]
        exact hexec
      · obtain ⟨a, p, b, hsplit, hand, hlen'⟩ := exists_split_of_idxOf? hi hhead
        have htake : s.take i = a ++ [p] := by
          rw [hsplit, hlen', List.take_left']
          rfl
        have hback : (s[i - 1]? != some '>') = true := by
          simpa using hprev
        simp only [hback, if_neg hprev, htake]
        rw [hsplit] at hmem hs ⊢
        exact parseBack_spec hmem hand (fun hmem => hs (List.mem_append_left _ hmem))

theorem exists_of_map_ok {α β : Type} {f : α → β} {x : Except Fault α} {r : β}
    (hx : x.map f = .ok r) : ∃ a, x = .ok a ∧ f a = r := by
  cases x with
  | error e => cases hx
  | ok a =>
      cases hx
      exact ⟨a, rfl, rfl⟩

theorem parseStage_ne_null {r : Cmd} (hr : parseStage env s = .ok r) : r ≠ .null := by
  rintro rfl
  unfold parseStage at hr
  split at hr
  · obtain ⟨e, -, he⟩ := exists_of_map_ok hr
    cases he
  · split at hr
    · obtain ⟨e, -, he⟩ := exists_of_map_ok hr
      cases he
    · obtain ⟨e, -, he⟩ := exists_of_map_ok hr
      cases he

/-! ## Joined stages -/

theorem joinPipes_cons (s t : Str) (ss : List Str) :
    joinPipes (s :: t :: ss) = s ++ '|' :: joinPipes (t :: ss) := by
  simp [joinPipes]

/-- The spaces before a stage, and the stage. -/
theorem joinPipes_skipSpaces (s : Str) (ss : List Str) :
    joinPipes (s :: ss) = s.takeWhile (· == space) ++ joinPipes (skipSpaces s :: ss) := by
  have hs : s = s.takeWhile (· == space) ++ skipSpaces s :=
    List.takeWhile_append_dropWhile.symm
  cases ss with
  | nil => simpa [joinPipes] using hs
  | cons t ss =>
      rw [joinPipes_cons, joinPipes_cons, ← List.append_assoc, ← hs]

theorem eq_space_of_mem {x : Char} (hx : x ∈ s.takeWhile (· == space)) : x = space := by
  have hspace := List.mem_takeWhile_imp hx
  exact beq_iff_eq.1 hspace

theorem skipSpaces_head {y : Char} {ys : Str} (h : skipSpaces s = y :: ys) : y ≠ space := by
  have hhead := List.head?_dropWhile_not (· == space) s
  rw [show s.dropWhile (· == space) = y :: ys from h] at hhead
  simpa using hhead

theorem skipSpaces_cons (hs : ∃ x ∈ s, x ≠ space) :
    ∃ y ys, skipSpaces s = y :: ys ∧ y ≠ space := by
  cases hskip : skipSpaces s with
  | nil =>
      obtain ⟨x, hx, hne⟩ := hs
      have htake : s.takeWhile (· == space) = s := by
        have happ : s.takeWhile (· == space) ++ skipSpaces s = s := List.takeWhile_append_dropWhile
        rwa [hskip, List.append_nil] at happ
      rw [← htake] at hx
      exact absurd (eq_space_of_mem hx) hne
  | cons y ys =>
      exact ⟨y, ys, rfl, skipSpaces_head hskip⟩

/-- A stage as `parse_cmd` gets it. -/
structure Trimmed (s : Str) : Prop where
  ne_nil : s ≠ []
  noPipe : '|' ∉ s
  noEnd : endString ∉ s
  head : s.head? ≠ some '&'

theorem Stage.trimmed (hs : Stage s) (hne : ∃ x ∈ s, x ≠ space) : Trimmed (skipSpaces s) where
  ne_nil := by
    obtain ⟨y, ys, hskip, -⟩ := skipSpaces_cons hne
    rw [hskip]
    exact List.cons_ne_nil y ys
  noPipe := fun hp => hs.noPipe ((List.dropWhile_sublist _).mem hp)
  noEnd := fun he => hs.noEnd ((List.dropWhile_sublist _).mem he)
  head := hs.noBack

theorem pipeTree_ne_null {r : Cmd} (hr : r ≠ .null) (rs : List Cmd) : pipeTree (r :: rs) ≠ .null := by
  cases rs with
  | nil => exact hr
  | cons r' rs => exact Cmd.noConfusion

theorem pipeCmdCreate_of_ne_null (l : Cmd) {r : Cmd} (hr : r ≠ .null) :
    pipeCmdCreate l r = .pipe l r := by
  cases r with
  | null => exact absurd rfl hr
  | exec e => rfl
  | back scmd c => rfl
  | pipe l' r' => rfl

/-! ## The whole line -/

/-- The trees of all stages. -/
def parseStages (env : Environ) (ss : List Str) : Except Fault (List Cmd) := ss.mapM (parseStage env)

theorem parseStages_cons (ss : List Str) :
    parseStages env (s :: ss) = (do
      let r ← parseStage env s
      let rs ← parseStages env ss
      return r :: rs) :=
  List.mapM_cons

theorem parseStages_ok {ss : List Str} {rs : List Cmd} (hrs : parseStages env (s :: ss) = .ok rs) :
    pipeTree rs ≠ .null ∧ rs ≠ [] := by
  rw [parseStages_cons] at hrs
  cases hr : parseStage env s with
  | error e =>
      rw [hr] at hrs
      cases hrs
  | ok r =>
      cases hrs' : parseStages env ss with
      | error e =>
          rw [hr, hrs'] at hrs
          cases hrs
      | ok rs' =>
          rw [hr, hrs'] at hrs
          cases hrs
          exact ⟨pipeTree_ne_null (parseStage_ne_null hr) rs', List.cons_ne_nil r rs'⟩

/-- The last stage: `split_line` finds no `|`, and what it returns is the
empty string one past the end. -/
theorem parseLine_last (env : Environ) (fuel : Nat) (hs : Trimmed s)
    (hmem : mem.drop buf = s ++ endString :: endString :: rest) :
    ∃ mem', parseLine env (fuel + 1) mem buf = (parseStage env s).map (Prod.mk mem') := by
  obtain ⟨mem₁, hsplit, hmem₁⟩ := splitLine_spec [] hmem hs.noPipe hs.noEnd
    (Or.inr rfl) (by simp) (by decide)
  obtain ⟨mem₂, hcmd, hmem₂⟩ := parseCmd_spec env hmem₁ hs.noEnd hs.ne_nil hs.head
  have hright : mem₂.drop (buf + s.length + 1) = [] ++ endString :: rest := by
    have hcut : mem₂.drop (buf + s.length) = [endString] ++ endString :: rest := hmem₂
    exact drop_add hcut
  have hnull : parseCmd env mem₂ (buf + s.length + 1) = .ok (mem₂, .null) := by
    rw [parseCmd, cString_eq hright (by simp)]
    rfl
  have hchr : strchr mem₂ (buf + s.length + 1) '|' = .ok false :=
    strchr_eq hright (by simp) (by simp) (Or.inr rfl)
  refine ⟨mem₂, ?_⟩
  rw [parseLine, hsplit]
  show (parseCmd env mem₁ buf >>= _) = _
  rw [hcmd]
  cases parseStage env s with
  | error e => rfl
  | ok l =>
      show (strchr mem₂ (buf + s.length + 1) '|' >>= _) = _
      rw [hchr]
      show (parseCmd env mem₂ (buf + s.length + 1) >>= _) = _
      rw [hnull]
      rfl

/-- What is to the right of the first `|`, whether or not there is another
one after it. -/
theorem parseRight_spec {fuel : Nat} {ss : List Str} (hs : Trimmed s)
    (hmem : mem.drop buf = joinPipes (s :: ss) ++ endString :: rest)
    (hrec : ss ≠ [] → ∃ mem', parseLine env fuel mem buf =
      (parseStages env (s :: ss.map skipSpaces)).map (fun rs => (mem', pipeTree rs))) :
    ∃ mem', (strchr mem buf '|' >>= fun again =>
      if again then parseLine env fuel mem buf else parseCmd env mem buf) =
        (parseStages env (s :: ss.map skipSpaces)).map (fun rs => (mem', pipeTree rs)) := by
  cases ss with
  | nil =>
      have hone : mem.drop buf = s ++ endString :: rest := by
        simpa [joinPipes] using hmem
      obtain ⟨mem', hcmd, -⟩ := parseCmd_spec env hone hs.noEnd hs.ne_nil hs.head
      refine ⟨mem', ?_⟩
      rw [strchr_eq hone hs.noPipe hs.noEnd (Or.inr rfl)]
      show parseCmd env mem buf = _
      rw [hcmd, parseStages_cons]
      cases parseStage env s with
      | error e => rfl
      | ok r => rfl
  | cons t ss =>
      have hmany : mem.drop buf = s ++ '|' :: (joinPipes (t :: ss) ++ endString :: rest) := by
        rw [hmem, joinPipes_cons]
        simp
      obtain ⟨mem', hline⟩ := hrec (List.cons_ne_nil t ss)
      refine ⟨mem', ?_⟩
      rw [strchr_eq hmany hs.noPipe hs.noEnd (Or.inl rfl)]
      exact hline

/-- From the current stage on, `parse_line` parses the stages that are
left. -/
theorem parseLine_spec {ss : List Str} (hss : ∀ t ∈ ss, Stage t ∧ ∃ x ∈ t, x ≠ space) :
    ∀ {fuel mem buf s}, ss.length < fuel → Trimmed s →
      mem.drop buf = joinPipes (s :: ss) ++ endString :: endString :: rest →
      ∃ mem', parseLine env fuel mem buf =
        (parseStages env (s :: ss.map skipSpaces)).map (fun rs => (mem', pipeTree rs)) := by
  induction ss with
  | nil =>
      intro fuel mem buf s hfuel hs hmem
      obtain ⟨fuel, rfl⟩ := Nat.exists_eq_succ_of_ne_zero (Nat.ne_of_gt hfuel)
      have hone : mem.drop buf = s ++ endString :: endString :: rest := by
        simpa [joinPipes] using hmem
      obtain ⟨mem', hline⟩ := parseLine_last env fuel hs hone
      refine ⟨mem', ?_⟩
      rw [hline, List.map_nil, parseStages_cons]
      cases parseStage env s with
      | error e => rfl
      | ok r => rfl
  | cons t ss ih =>
      intro fuel mem buf s hfuel hs hmem
      obtain ⟨fuel, rfl⟩ := Nat.exists_eq_succ_of_ne_zero (Nat.ne_of_gt (Nat.zero_lt_of_lt hfuel))
      have ht := hss t (by simp)
      obtain ⟨y, ys, hskip, hy⟩ := skipSpaces_cons ht.2
      have htrim := ht.1.trimmed ht.2
      -- the line, cut at the first `|` and at the spaces after it
      have hjoin : ∃ tail, joinPipes (skipSpaces t :: ss) = y :: tail := by
        rw [hskip]
        cases ss with
        | nil => exact ⟨ys, by simp [joinPipes]⟩
        | cons u ss => exact ⟨ys ++ '|' :: joinPipes (u :: ss), by rw [joinPipes_cons]; rfl⟩
      obtain ⟨tail, htail⟩ := hjoin
      have hcut : mem.drop buf = s ++ '|' :: (t.takeWhile (· == space) ++
          y :: (tail ++ endString :: endString :: rest)) := by
        rw [hmem, joinPipes_cons, joinPipes_skipSpaces, htail]
        simp
      obtain ⟨mem₁, hsplit, hmem₁⟩ := splitLine_spec (t.takeWhile (· == space)) hcut hs.noPipe
        hs.noEnd (Or.inl rfl) (fun _ => eq_space_of_mem) hy
      obtain ⟨mem₂, hcmd, hmem₂⟩ := parseCmd_spec env hmem₁ hs.noEnd hs.ne_nil hs.head
      have hright : mem₂.drop (buf + s.length + 1 + (t.takeWhile (· == space)).length) =
          joinPipes (skipSpaces t :: ss) ++ endString :: endString :: rest := by
        have hcut₂ : mem₂.drop (buf + s.length) = (endString :: t.takeWhile (· == space)) ++
            (joinPipes (skipSpaces t :: ss) ++ endString :: endString :: rest) := by
          rw [hmem₂, htail]
          simp
        have hdrop := drop_add hcut₂
        rw [List.length_cons, ← Nat.add_assoc, Nat.add_right_comm] at hdrop
        exact hdrop
      obtain ⟨mem₃, hrest⟩ := parseRight_spec htrim hright
        (fun _ => ih (fun u hu => hss u (by simp [hu])) (Nat.lt_of_succ_lt_succ hfuel) htrim hright)
      refine ⟨mem₃, ?_⟩
      rw [parseLine, hsplit]
      show (parseCmd env mem₁ buf >>= _) = _
      rw [hcmd, parseStages_cons, List.map_cons]
      cases parseStage env s with
      | error e => rfl
      | ok l =>
          show (strchr mem₂ (buf + s.length + 1 + (t.takeWhile (· == space)).length) '|' >>=
            fun again => (if again then parseLine env fuel mem₂ _ else parseCmd env mem₂ _) >>= _) = _
          rw [← bind_assoc, hrest]
          cases hrs : parseStages env (skipSpaces t :: ss.map skipSpaces) with
          | error e => rfl
          | ok rs =>
              obtain ⟨hnull, hnil⟩ := parseStages_ok hrs
              obtain ⟨r, rs, rfl⟩ := List.exists_cons_of_ne_nil hnil
              show Except.ok (mem₃, pipeCmdCreate l (pipeTree (r :: rs))) = _
              rw [pipeCmdCreate_of_ne_null l hnull]
              rfl

theorem length_le_joinPipes {t : Str} {ss : List Str} (ht : t ∈ ss) :
    t.length ≤ (joinPipes ss).length := by
  induction ss with
  | nil => cases ht
  | cons s ss ih =>
      cases ss with
      | nil =>
          rw [List.mem_singleton] at ht
          simp [joinPipes, ht]
      | cons u ss =>
          rw [joinPipes_cons, List.length_append, List.length_cons]
          rcases List.mem_cons.1 ht with rfl | ht
          · omega
          · have hle := ih ht
            omega

theorem parseCmdOf_eq (env : Environ) (hs : Trimmed s) (hlen : s.length < bufLen) :
    parseCmdOf env s = parseStage env s := by
  have hbuf : (readBuffer s).drop 0 =
      s ++ endString :: List.replicate (bufLen - s.length - 1) endString := by
    rw [List.drop_zero, readBuffer, ← List.replicate_succ]
    congr 2
    omega
  obtain ⟨mem', hcmd, -⟩ := parseCmd_spec env hbuf hs.noEnd hs.ne_nil hs.head
  rw [parseCmdOf, hcmd]
  cases parseStage env s with
  | error e => rfl
  | ok r => rfl

theorem mapM_parseCmdOf (env : Environ) {ss : List Str}
    (hss : ∀ t ∈ ss, Trimmed t ∧ t.length < bufLen) :
    ss.mapM (parseCmdOf env) = parseStages env ss := by
  induction ss with
  | nil => rfl
  | cons t ss ih =>
      have ht := hss t (by simp)
      rw [List.mapM_cons, parseStages_cons, ih (fun u hu => hss u (by simp [hu])),
        parseCmdOf_eq env ht.1 ht.2]

/-- The first stage keeps its leading spaces. -/
theorem Stage.trimmed_first (hs : Stage s) (hne : s ≠ []) : Trimmed s where
  ne_nil := hne
  noPipe := hs.noPipe
  noEnd := hs.noEnd
  head := by
    intro hhead
    cases s with
    | nil => cases hhead
    | cons x xs =>
        cases hhead
        exact hs.noBack rfl

/-- `parse_line` returns the right-nested tree of the stages, each parsed
by itself. A recursion as deep as there are stages is enough. -/
theorem parseLine_eq_pipeTree (env : Environ) {s : Str} {ss : List Str}
    (hstages : ∀ t ∈ s :: ss, Stage t) (hs : s ≠ []) (hss : ∀ t ∈ ss, ∃ x ∈ t, x ≠ space)
    (hlen : (joinPipes (s :: ss)).length < bufLen - 1) {fuel : Nat} (hfuel : ss.length < fuel) :
    (parseLine env fuel (readBuffer (joinPipes (s :: ss))) 0).map Prod.snd =
      ((s :: ss.map skipSpaces).mapM (parseCmdOf env)).map pipeTree := by
  have hfirst := (hstages s (by simp)).trimmed_first hs
  have hrest : ∀ t ∈ ss, Stage t ∧ ∃ x ∈ t, x ≠ space :=
    fun t ht => ⟨hstages t (by simp [ht]), hss t ht⟩
  have hbuf : (readBuffer (joinPipes (s :: ss))).drop 0 = joinPipes (s :: ss) ++ endString ::
      endString :: List.replicate (bufLen - (joinPipes (s :: ss)).length - 2) endString := by
    rw [List.drop_zero, readBuffer, ← List.replicate_succ, ← List.replicate_succ]
    congr 2
    omega
  have hall : ∀ t ∈ s :: ss.map skipSpaces, Trimmed t ∧ t.length < bufLen := by
    intro t ht
    rcases List.mem_cons.1 ht with rfl | ht
    · have hle := length_le_joinPipes (show t ∈ t :: ss by simp)
      exact ⟨hfirst, by omega⟩
    · obtain ⟨u, hu, rfl⟩ := List.mem_map.1 ht
      have hle := length_le_joinPipes (List.mem_cons_of_mem s hu)
      have hskip : (skipSpaces u).length ≤ u.length := (List.dropWhile_sublist _).length_le
      exact ⟨(hrest u hu).1.trimmed (hrest u hu).2, by omega⟩
  obtain ⟨mem', hline⟩ := parseLine_spec hrest hfuel hfirst hbuf
  rw [hline, mapM_parseCmdOf env hall]
  cases parseStages env (s :: ss.map skipSpaces) with
  | error e => rfl
  | ok rs => rfl

/-- The two stages of the line `ls| wc`. -/
def ls : ExecCmd := { execCmdCreate ['l', 's'] with argv := [['l', 's']] }

def wc : ExecCmd := { execCmdCreate ['w', 'c'] with argv := [['w', 'c']] }

def lsWc : List Cmd := [.exec ls, .exec wc]

theorem parseLine_eq_pipeTree_lsWc :
    (∀ t ∈ [['l', 's'], [' ', 'w', 'c']], Stage t) ∧
    (parseLine ⟨fun _ => none, 0⟩ 2 (readBuffer (joinPipes [['l', 's'], [' ', 'w', 'c']])) 0).map
      Prod.snd = .ok (.pipe (.exec ls) (.exec wc)) := by
  have hls : Stage ['l', 's'] := ⟨by decide, by decide, by decide⟩
  have hwc : Stage [' ', 'w', 'c'] := ⟨by decide, by decide, by decide⟩
  have hstages : ∀ t ∈ [['l', 's'], [' ', 'w', 'c']], Stage t := by
    intro t ht
    rcases List.mem_cons.1 ht with rfl | ht
    · exact hls
    · rw [List.mem_singleton.1 ht]
      exact hwc
  have hwords : ∀ t ∈ [[' ', 'w', 'c']], ∃ x ∈ t, x ≠ space := by
    intro t ht
    rw [List.mem_singleton.1 ht]
    exact ⟨'w', by simp, by decide⟩
  have hlen : (joinPipes [['l', 's'], [' ', 'w', 'c']]).length < bufLen - 1 := by
    show 6 < 1023
    omega
  have htree := parseLine_eq_pipeTree ⟨fun _ => none, 0⟩ hstages (List.cons_ne_nil _ _) hwords
    hlen Nat.one_lt_two
  exact ⟨hstages, htree.trans (by decide +kernel)⟩

end SistemasOperativos.Shell
