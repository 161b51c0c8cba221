/-
SistemasOperativos.Shell.BoundsTheorems — which lines stay within the
arrays of the shell.

No loop over a line knows the size of what it fills. A line is safe if it
fits in `buffer`, with a place to spare if it is one stage, if it does not
start with `&`, and if each stage has at most 19 arguments and 20
assignments. These are the only reasons: on all other lines some access is
outside.
-/
import SistemasOperativos.Shell.LineTheorems
import SistemasOperativos.Shell.ReadLine

namespace SistemasOperativos.Shell

variable {env : Environ} {s line input : Str}

/-! ## One stage -/

theorem map_ok_iff {α β : Type} {f : α → β} {x : Except Fault α} :
    (∃ r, x.map f = .ok r) ↔ ∃ a, x = .ok a := by
  cases x with
  | error e => simp [Except.map]
  | ok a => simp [Except.map]

theorem parseStage_ok_iff : (∃ r, parseStage env s = .ok r) ↔ Fits env (execPart s) := by
  rw [← parseExec_ok_iff, parseStage_eq]
  exact map_ok_iff

theorem fits_nil : Fits env [] := by
  refine ⟨?_, ?_⟩
  · simp [tokens, arguments]
  · simp [tokens, assignments]

theorem parseLater_ok_iff : (∃ r, parseLater env s = .ok r) ↔ Fits env (execPart s) := by
  unfold parseLater
  split
  · rename_i hs
    subst hs
    exact ⟨fun _ => fits_nil, fun _ => ⟨_, rfl⟩⟩
  · exact parseStage_ok_iff

theorem bind_ok_iff {α β : Type} {x : Except Fault α} {f : α → Except Fault β} {r : β} :
    (x >>= f) = .ok r ↔ ∃ a, x = .ok a ∧ f a = .ok r := by
  cases x with
  | error e => simp [bind, Except.bind]
  | ok a => simp [bind, Except.bind]

theorem laterTree_ok_iff {ss : List Str} :
    (∃ r, laterTree env ss = .ok r) ↔ ∀ s ∈ ss, Fits env (execPart s) := by
  induction ss with
  | nil => simp [laterTree]
  | cons s ss ih =>
    rw [List.forall_mem_cons, ← parseLater_ok_iff, ← ih]
    simp only [laterTree, bind_ok_iff]
    constructor
    · rintro ⟨r, l, hl, r', hr', -⟩
      exact ⟨⟨l, hl⟩, ⟨r', hr'⟩⟩
    · rintro ⟨⟨l, hl⟩, ⟨r', hr'⟩⟩
      exact ⟨_, l, hl, r', hr', rfl⟩

theorem lineTree_ok_iff : (∃ r, lineTree env line = .ok r) ↔
    (firstStage line).head? ≠ some '&' ∧
      ∀ s ∈ firstStage line :: laterStages line, Fits env (execPart s) := by
  rw [List.forall_mem_cons, ← parseLater_ok_iff, ← laterTree_ok_iff]
  simp only [lineTree, parseFirst, bind_ok_iff]
  constructor
  · rintro ⟨r, l, hl, r', hr', -⟩
    split at hl
    · cases hl
    · rename_i hhead
      exact ⟨hhead, ⟨l, hl⟩, ⟨r', hr'⟩⟩
  · rintro ⟨hhead, ⟨l, hl⟩, ⟨r', hr'⟩⟩
    exact ⟨_, l, by rw [if_neg hhead, hl], r', hr', rfl⟩

theorem map_error {α β : Type} {f : α → β} {x : Except Fault α} {e : Fault} (h : x.map f = .error e) :
    x = .error e := by
  cases x with
  | error e' =>
    cases h
    rfl
  | ok a => cases h

theorem parseLater_error {e : Fault} (h : parseLater env s = .error e) : e = .outOfBounds := by
  unfold parseLater at h
  split at h
  · cases h
  · rw [parseStage_eq] at h
    exact parseExec_error (map_error h)

theorem laterTree_error {ss : List Str} {e : Fault} (h : laterTree env ss = .error e) :
    e = .outOfBounds := by
  induction ss with
  | nil => cases h
  | cons s ss ih =>
    rw [laterTree] at h
    cases hl : parseLater env s with
    | error e' =>
      rw [hl] at h
      cases h
      exact parseLater_error hl
    | ok l =>
      rw [hl] at h
      cases hr : laterTree env ss with
      | error e' =>
        rw [hr] at h
        cases h
        exact ih hr
      | ok r =>
        rw [hr] at h
        cases h

theorem lineTree_error {e : Fault} (h : lineTree env line = .error e) : e = .outOfBounds := by
  rw [lineTree, parseFirst] at h
  split at h
  · cases h
    rfl
  · change laterTree env (firstStage line :: laterStages line) = .error e at h
    exact laterTree_error h

/-! ## The line in the buffer -/

theorem store_replicate (pre : Str) (k : Nat) (x : Char) :
    store (pre ++ List.replicate k endString) pre.length x =
      if 0 < k then .ok (pre ++ x :: List.replicate (k - 1) endString) else .error .outOfBounds := by
  cases k with
  | zero => simp [store]
  | succ k => simp [store, List.replicate_succ]

/-- A line that the input ends with a newline. -/
theorem readChars_line (rest : Str) (hline : endLine ∉ line) (pre : Str) (k : Nat) :
    readChars (line ++ endLine :: rest) pre.length (pre ++ List.replicate k endString) =
      if line.length < k then
        .ok (some (pre ++ (line ++ List.replicate (k - line.length) endString), rest))
      else .error .outOfBounds := by
  induction line generalizing pre k with
  | nil =>
    rw [List.nil_append, readChars, if_pos rfl, store_replicate]
    cases k with
    | zero => rfl
    | succ k => rfl
  | cons c line ih =>
    have hc : c ≠ endLine := fun hc => hline (by simp [hc])
    rw [List.cons_append, readChars, if_neg hc, store_replicate]
    cases k with
    | zero => rfl
    | succ k =>
      have hnext := ih (fun hmem => hline (by simp [hmem])) (pre ++ [c]) k
      simp only [List.length_append, List.length_singleton, List.append_assoc,
        List.singleton_append] at hnext
      show readChars (line ++ endLine :: rest) (pre.length + 1) _ = _
      rw [show k + 1 - 1 = k by omega, hnext]
      simp

/-- An input that ends before the line does. -/
theorem readChars_eof (hinput : endLine ∉ input) (pre : Str) (k : Nat) :
    readChars input pre.length (pre ++ List.replicate k endString) =
      if input.length ≤ k then .ok none else .error .outOfBounds := by
  induction input generalizing pre k with
  | nil => simp [readChars]
  | cons c input ih =>
    have hc : c ≠ endLine := fun hc => hinput (by simp [hc])
    rw [readChars, if_neg hc, store_replicate]
    cases k with
    | zero => simp [bind, Except.bind]
    | succ k =>
      have hnext := ih (fun hmem => hinput (by simp [hmem])) (pre ++ [c]) k
      simp only [List.length_append, List.length_singleton, List.append_assoc,
        List.singleton_append] at hnext
      show readChars input (pre.length + 1) _ = _
      rw [show k + 1 - 1 = k by omega, hnext]
      simp

/-- What `read_line` leaves in the buffer. -/
theorem readLine_eq (rest : Str) (hline : endLine ∉ line) : readLine (line ++ endLine :: rest) =
    if line.length < bufLen then .ok (some (readBuffer line, rest)) else .error .outOfBounds :=
  readChars_line rest hline [] bufLen

theorem readLine_eof (hinput : endLine ∉ input) : readLine input =
    if input.length ≤ bufLen then .ok none else .error .outOfBounds :=
  readChars_eof hinput [] bufLen

/-! ## `run_cmd` -/

theorem readBuffer_string (hlen : line.length < bufLen) :
    cString (readBuffer line) 0 = .ok (upToEnd line) := by
  obtain ⟨rest, hrest, hfree⟩ :=
    upToEnd_append line (List.replicate (bufLen - line.length - 1) endString)
  have hbuf : (readBuffer line).drop 0 = upToEnd line ++ endString :: rest := by
    rw [← hrest, List.drop_zero, readBuffer, ← List.replicate_succ]
    congr 2
    omega
  exact cString_eq hbuf hfree

/-- A line that reaches `parse_line`. -/
def IsCommand (line : Str) : Prop := upToEnd line ≠ [] ∧ isBuiltin (upToEnd line) = false

instance : DecidablePred IsCommand := fun _ => inferInstanceAs (Decidable (_ ∧ _))

theorem runCmdTree_eq (env : Environ) (fuel : Nat) (hlen : line.length < bufLen) :
    runCmdTree env fuel (readBuffer line) =
      if IsCommand line then (parseLine env fuel (readBuffer line) 0).map fun r => some r.2
      else .ok none := by
  rw [runCmdTree]
  simp only [readBuffer_string hlen, bind, Except.bind]
  cases line with
  | nil => rfl
  | cons x xs =>
    have hload : load (readBuffer (x :: xs)) 0 = .ok x := rfl
    rw [hload]
    by_cases hx : x = endString
    · subst hx
      have hnot : ¬ IsCommand (endString :: xs) := fun h => h.1 (by simp [upToEnd])
      rw [if_neg hnot]
      rfl
    · have hne : upToEnd (x :: xs) ≠ [] := by simp [upToEnd, hx]
      simp only [if_neg hx]
      by_cases hb : isBuiltin (upToEnd (x :: xs)) = true
      · rw [if_pos hb, if_neg (fun h => by rw [h.2] at hb; cases hb)]
        rfl
      · rw [if_neg hb, if_pos ⟨hne, by simpa using hb⟩]
        cases parseLine env fuel (readBuffer (x :: xs)) 0 with
        | error e => rfl
        | ok r => rfl

/-! ## Every line -/

/-- The line of the input, without its newline. -/
def lineOf (input : Str) : Str := input.takeWhile (· != endLine)

/-- What a command line must be: it ends before the last place of the
buffer, unless a `|` or a NUL cuts it; nothing is read in front of it; and
its stages fit in their vectors. -/
structure LineFits (env : Environ) (line : Str) : Prop where
  first : (firstStage line).length < bufLen - 1
  head : (firstStage line).head? ≠ some '&'
  stages : ∀ s ∈ firstStage line :: laterStages line, Fits env (execPart s)

/-- What an input must be. -/
def InputFits (env : Environ) (input : Str) : Prop :=
  if endLine ∈ input then
    (lineOf input).length < bufLen ∧ (IsCommand (lineOf input) → LineFits env (lineOf input))
  else input.length ≤ bufLen

/-- `parse_line` returns exactly for the lines that fit. -/
theorem parseLine_ok_iff {fuel : Nat} (hlen : line.length < bufLen) (hfuel : line.length < fuel) :
    (∃ r, parseLine env fuel (readBuffer line) 0 = .ok r) ↔ LineFits env line := by
  by_cases hfirst : (firstStage line).length < bufLen - 1
  · obtain ⟨mem', hline⟩ := parseLine_eq_lineTree env hlen hfirst hfuel
    rw [hline, map_ok_iff, lineTree_ok_iff]
    exact ⟨fun h => ⟨hfirst, h.1, h.2⟩, fun h => ⟨h.head, h.stages⟩⟩
  · have hle : (firstStage line).length ≤ line.length := (List.takeWhile_prefix _).length_le
    obtain ⟨fuel, rfl⟩ := Nat.exists_eq_succ_of_ne_zero (Nat.ne_of_gt (Nat.zero_lt_of_lt hfuel))
    rw [parseLine_full env (by omega) hlen]
    constructor
    · rintro ⟨r, hr⟩
      cases hr
    · intro h
      exact absurd h.first hfirst

theorem parseLine_error {fuel : Nat} {e : Fault} (hlen : line.length < bufLen) (hfuel : line.length < fuel)
    (h : parseLine env fuel (readBuffer line) 0 = .error e) : e = .outOfBounds := by
  by_cases hfirst : (firstStage line).length < bufLen - 1
  · obtain ⟨mem', hline⟩ := parseLine_eq_lineTree env hlen hfirst hfuel
    rw [hline] at h
    exact lineTree_error (map_error h)
  · have hle : (firstStage line).length ≤ line.length := (List.takeWhile_prefix _).length_le
    obtain ⟨fuel, rfl⟩ := Nat.exists_eq_succ_of_ne_zero (Nat.ne_of_gt (Nat.zero_lt_of_lt hfuel))
    rw [parseLine_full env (by omega) hlen] at h
    cases h
    rfl

/-- A line that the input ends: it goes well, or some access is outside. -/
theorem readTree_line (rest : Str) (hline : endLine ∉ line) {fuel : Nat} (hfuel : line.length < fuel) :
    (∃ r, readTree env fuel (line ++ endLine :: rest) = .ok r) ∧
        line.length < bufLen ∧ (IsCommand line → LineFits env line) ∨
      readTree env fuel (line ++ endLine :: rest) = .error .outOfBounds ∧
        ¬ (line.length < bufLen ∧ (IsCommand line → LineFits env line)) := by
  rw [readTree, readLine_eq rest hline]
  by_cases hlen : line.length < bufLen
  · rw [if_pos hlen]
    show (∃ r, runCmdTree env fuel (readBuffer line) = .ok r) ∧ _ ∨
      runCmdTree env fuel (readBuffer line) = .error .outOfBounds ∧ _
    rw [runCmdTree_eq env fuel hlen]
    by_cases hcmd : IsCommand line
    · rw [if_pos hcmd, map_ok_iff, parseLine_ok_iff hlen hfuel]
      by_cases hfits : LineFits env line
      · exact Or.inl ⟨hfits, hlen, fun _ => hfits⟩
      · refine Or.inr ⟨?_, fun h => hfits (h.2 hcmd)⟩
        cases hparse : parseLine env fuel (readBuffer line) 0 with
        | error e =>
          rw [parseLine_error hlen hfuel hparse]
          rfl
        | ok r => exact absurd ((parseLine_ok_iff hlen hfuel).1 ⟨r, hparse⟩) hfits
    · rw [if_neg hcmd]
      exact Or.inl ⟨⟨_, rfl⟩, hlen, fun h => absurd h hcmd⟩
  · rw [if_neg hlen]
    exact Or.inr ⟨rfl, fun h => hlen h.1⟩

/-- An input that ends before the line does. -/
theorem readTree_eof (env : Environ) (fuel : Nat) (hinput : endLine ∉ input) :
    readTree env fuel input = if input.length ≤ bufLen then .ok none else .error .outOfBounds := by
  rw [readTree, readLine_eof hinput]
  split
  · rfl
  · rfl

theorem lineOf_split (h : endLine ∈ input) :
    ∃ rest, input = lineOf input ++ endLine :: rest ∧ endLine ∉ lineOf input := by
  have hnot : endLine ∉ lineOf input := not_mem_takeWhile_ne endLine input
  rcases takeWhile_stops (· != endLine) input with hwhole | ⟨y, ys, hy, hsplit⟩
  · rw [hwhole] at h
    exact absurd h hnot
  · obtain rfl : y = endLine := by simpa using hy
    exact ⟨ys, hsplit, hnot⟩

/-- A turn of the shell ends, and all its accesses are within the arrays
exactly for the inputs that fit. -/
theorem shell_bounds (env : Environ) (input : Str) (fuel : Nat) (hfuel : input.length < fuel) :
    readTree env fuel input ≠ .error .outOfFuel ∧
      (readTree env fuel input ≠ .error .outOfBounds ↔ InputFits env input) := by
  by_cases hend : endLine ∈ input
  · obtain ⟨rest, hsplit, hline⟩ := lineOf_split hend
    have hle : (lineOf input).length ≤ input.length := (List.takeWhile_prefix _).length_le
    have hcases := @readTree_line env (lineOf input) rest hline fuel (by omega)
    rw [← hsplit] at hcases
    rw [InputFits, if_pos hend]
    rcases hcases with ⟨⟨r, hr⟩, hfits⟩ | ⟨hr, hnot⟩
    · rw [hr]
      exact ⟨by simp, fun _ => hfits, fun _ => by simp⟩
    · rw [hr]
      exact ⟨by simp, fun h => absurd rfl h, fun h => absurd h hnot⟩
  · rw [readTree_eof env fuel hend, InputFits, if_neg hend]
    split
    · rename_i hlen
      exact ⟨by simp, fun _ => hlen, fun _ => by simp⟩
    · rename_i hlen
      exact ⟨by simp, fun h => absurd rfl h, fun h => absurd h hlen⟩

theorem shell_bounds_echo :
    readTree noVariables 20 ("echo a | wc\n".toList) ≠ .error .outOfFuel ∧
      readTree noVariables 20 ("echo a | wc\n".toList) ≠ .error .outOfBounds := by
  have hbounds := shell_bounds noVariables ("echo a | wc\n".toList) 20 (by decide)
  have hfits : InputFits noVariables ("echo a | wc\n".toList) := by
    rw [InputFits, if_pos (by decide)]
    exact ⟨by decide, fun _ => ⟨by decide, by decide, by decide⟩⟩
  exact ⟨hbounds.1, hbounds.2.mpr hfits⟩

/-- Twenty arguments leave no place for the `NULL`; before an `&` at the
start of the buffer there is nothing; and a line of 1024 characters has no
place for its own end. -/
theorem shell_bounds_overrun :
    readTree noVariables 99 ("a a a a a a a a a a a a a a a a a a a a\n".toList) = .error .outOfBounds ∧
    readTree noVariables 99 ("&\n".toList) = .error .outOfBounds ∧
    readTree noVariables 2000 (List.replicate 1024 'a' ++ ['\n']) = .error .outOfBounds := by
  refine ⟨?_, ?_, ?_⟩
  · have hcases := @readTree_line noVariables ("a a a a a a a a a a a a a a a a a a a a".toList) []
      (by decide) 99 (by decide)
    rcases hcases with ⟨-, -, hfits⟩ | ⟨hout, -⟩
    · exact absurd ((hfits (by decide)).stages _ (List.mem_cons_self ..)) (by decide)
    · exact hout
  · have hcases := @readTree_line noVariables ("&".toList) [] (by decide) 99 (by decide)
    rcases hcases with ⟨-, -, hfits⟩ | ⟨hout, -⟩
    · exact absurd rfl (hfits (by decide)).head
    · exact hout
  · have hcases := @readTree_line noVariables (List.replicate 1024 'a') []
      (fun hmem => absurd (List.eq_of_mem_replicate hmem) (by decide)) 2000
      (by rw [List.length_replicate]; decide)
    rcases hcases with ⟨-, hlen, -⟩ | ⟨hout, -⟩
    · rw [List.length_replicate] at hlen
      exact absurd hlen (by decide)
    · exact hout

end SistemasOperativos.Shell
