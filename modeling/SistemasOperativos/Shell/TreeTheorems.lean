/-
SistemasOperativos.Shell.TreeTheorems — which lines give a tree that can
be run, and which run in the background.

`pipe_cmd_create` drops an empty right side and keeps an empty left one,
so a tree has no null pointer exactly if no stage is empty before one that
is not. The root is the background command of the line only if the line
has a single stage, and if the `&` that ends it is the first of the stage
or follows others that are no part of a redirection.
-/
import SistemasOperativos.Shell.BoundsTheorems

namespace SistemasOperativos.Shell

variable {env : Environ} {s line : Str} {ss : List Str} {r : Cmd}

/-! ## Null pointers -/

/-- No null pointer in the tree. -/
def Cmd.Formed : Cmd → Prop
  | .null => False
  | .exec _ => True
  | .back _ _ => True
  | .pipe leftcmd rightcmd => leftcmd.Formed ∧ rightcmd.Formed

/-- The nodes that `exec_cmd` is called on, in one process or another. -/
def Cmd.nodes : Cmd → List Cmd
  | .pipe leftcmd rightcmd => .pipe leftcmd rightcmd :: (leftcmd.nodes ++ rightcmd.nodes)
  | c => [c]

theorem freeCommand_iff (c : Cmd) : freeCommand c = some () ↔ c.Formed := by
  induction c with
  | null => simp [freeCommand, Cmd.Formed]
  | exec e => simp [freeCommand, Cmd.Formed]
  | back scmd e => simp [freeCommand, Cmd.Formed]
  | pipe l r ihl ihr =>
    rw [freeCommand, Cmd.Formed, ← ihl, ← ihr]
    cases freeCommand l with
    | none => simp
    | some u => simp

theorem null_not_mem_nodes (c : Cmd) : Cmd.null ∉ c.nodes ↔ c.Formed := by
  induction c with
  | null => simp [Cmd.nodes, Cmd.Formed]
  | exec e => simp [Cmd.nodes, Cmd.Formed]
  | back scmd e => simp [Cmd.nodes, Cmd.Formed]
  | pipe l r ihl ihr => simp [Cmd.nodes, Cmd.Formed, ← ihl, ← ihr]

theorem Cmd.Formed.ne_null {c : Cmd} (h : c.Formed) : c ≠ .null := by
  rintro rfl
  exact h

theorem formed_parseStage (h : parseStage env s = .ok r) : r.Formed := by
  rw [parseStage_eq] at h
  obtain ⟨e, -, rfl⟩ := exists_of_map_ok h
  split
  · trivial
  · trivial

/-- A stage is a null pointer exactly if it is empty. -/
theorem parseLater_formed (h : parseLater env s = .ok r) :
    (s = [] ∧ r = .null) ∨ (s ≠ [] ∧ r.Formed) := by
  rw [parseLater] at h
  split at h
  · rename_i hs
    cases h
    exact Or.inl ⟨hs, rfl⟩
  · rename_i hs
    exact Or.inr ⟨hs, formed_parseStage h⟩

/-- No stage is empty before one that is not. -/
def EmptyLast (ss : List Str) : Prop := ss.Pairwise (fun s t => t ≠ [] → s ≠ [])

instance : DecidablePred EmptyLast := fun ss =>
  inferInstanceAs (Decidable (ss.Pairwise (fun s t => t ≠ [] → s ≠ [])))

/-- The tree of some stages is null if all are empty, and else has null
pointers inside unless the empty ones come last. -/
theorem laterTree_formed (h : laterTree env ss = .ok r) :
    (r = .null ∧ ∀ s ∈ ss, s = []) ∨ (r ≠ .null ∧ (∃ s ∈ ss, s ≠ []) ∧ (r.Formed ↔ EmptyLast ss)) := by
  induction ss generalizing r with
  | nil =>
    cases h
    exact Or.inl ⟨rfl, by simp⟩
  | cons s ss ih =>
    rw [laterTree] at h
    simp only [bind_ok_iff] at h
    obtain ⟨l, hl, r', hr', hr⟩ := h
    cases hr
    rcases ih hr' with ⟨rfl, hempty⟩ | ⟨hne, ⟨t, ht, htne⟩, hformed⟩
    · show (l = .null ∧ _) ∨ (l ≠ .null ∧ _ ∧ (l.Formed ↔ _))
      have hlast : EmptyLast (s :: ss) := by
        refine List.pairwise_cons.2 ⟨fun t ht htne => absurd (hempty t ht) htne, ?_⟩
        exact List.Pairwise.imp_of_mem (fun _ ht _ htne => absurd (hempty _ ht) htne)
          (List.pairwise_of_forall fun _ _ => trivial)
      rcases parseLater_formed hl with ⟨hs, hlnull⟩ | ⟨hs, hlformed⟩
      · exact Or.inl ⟨hlnull, by simpa [hs] using hempty⟩
      · exact Or.inr ⟨hlformed.ne_null, ⟨s, by simp, hs⟩, fun _ => hlast, fun _ => hlformed⟩
    · rw [pipeCmdCreate_of_ne_null l hne]
      refine Or.inr ⟨Cmd.noConfusion, ⟨t, by simp [ht], htne⟩, ?_⟩
      rw [Cmd.Formed, hformed, EmptyLast, EmptyLast, List.pairwise_cons]
      rcases parseLater_formed hl with ⟨hs, hlnull⟩ | ⟨hs, hlformed⟩
      · rw [hlnull]
        exact ⟨fun h => h.1.elim, fun h => absurd hs (h.1 t ht htne)⟩
      · exact ⟨fun h => ⟨fun _ _ _ => hs, h.2⟩, fun h => ⟨hlformed, h.2⟩⟩

/-! ## The line that is read -/

theorem lineTree_eq (hhead : (firstStage line).head? ≠ some '&') :
    lineTree env line = laterTree env (firstStage line :: laterStages line) := by
  rw [lineTree, parseFirst, if_neg hhead]
  rfl

/-- What `parse_line` returns for a line that is read. -/
theorem readParse_iff (rest : Str) (hline : endLine ∉ line) {fuel : Nat} (hfuel : line.length < fuel) :
    readParse env fuel (line ++ endLine :: rest) = .ok (some r) ↔
      line.length < bufLen ∧ LineFits env line ∧
        laterTree env (firstStage line :: laterStages line) = .ok r := by
  rw [readParse, readLine_eq rest hline]
  by_cases hlen : line.length < bufLen
  · rw [if_pos hlen]
    show (parseLine env fuel (readBuffer line) 0 >>= fun x => Except.ok (some x.2)) = _ ↔ _
    rw [bind_ok_iff]
    constructor
    · rintro ⟨x, hx, hr⟩
      cases hr
      have hfits := (parseLine_ok_iff hlen hfuel).1 ⟨x, hx⟩
      obtain ⟨mem', htree⟩ := parseLine_eq_lineTree env hlen hfits.first hfuel
      rw [hx, lineTree_eq hfits.head] at htree
      refine ⟨hlen, hfits, ?_⟩
      cases hlater : laterTree env (firstStage line :: laterStages line) with
      | error e =>
        rw [hlater] at htree
        cases htree
      | ok r =>
        rw [hlater] at htree
        cases htree
        rfl
    · rintro ⟨-, hfits, htree⟩
      obtain ⟨mem', hparse⟩ := parseLine_eq_lineTree env hlen hfits.first hfuel
      rw [lineTree_eq hfits.head, htree] at hparse
      exact ⟨(mem', r), hparse, rfl⟩
  · rw [if_neg hlen]
    constructor
    · intro h
      cases h
    · intro h
      exact absurd h.1 hlen

theorem readTree_of_isCommand (env : Environ) (rest : Str) (hline : endLine ∉ line)
    (hcmd : IsCommand line) (fuel : Nat) :
    readTree env fuel (line ++ endLine :: rest) = readParse env fuel (line ++ endLine :: rest) := by
  rw [readTree, readParse, readLine_eq rest hline]
  by_cases hlen : line.length < bufLen
  · rw [if_pos hlen]
    show runCmdTree env fuel (readBuffer line) = (parseLine env fuel (readBuffer line) 0 >>= _)
    rw [runCmdTree_eq env fuel hlen, if_pos hcmd]
    cases parseLine env fuel (readBuffer line) 0 with
    | error e => rfl
    | ok x => rfl
  · rw [if_neg hlen]
    rfl

/-- A command line gives a tree without null pointers, on which neither
`exec_cmd` nor `free_command` follows one, exactly if it stays within the
arrays, its first stage is not empty and its empty stages come last. -/
theorem tree_formed (env : Environ) (line rest : Str) (fuel : Nat) (hline : endLine ∉ line)
    (hcmd : IsCommand line) (hfuel : line.length < fuel) :
    (∃ tree, readTree env fuel (line ++ endLine :: rest) = .ok (some tree) ∧ tree.Formed ∧
        Cmd.null ∉ tree.nodes ∧ freeCommand tree = some ()) ↔
      line.length < bufLen ∧ LineFits env line ∧ firstStage line ≠ [] ∧
        EmptyLast (firstStage line :: laterStages line) := by
  rw [readTree_of_isCommand env rest hline hcmd]
  constructor
  · rintro ⟨tree, htree, hformed, -, -⟩
    obtain ⟨hlen, hfits, hlater⟩ := (readParse_iff rest hline hfuel).1 htree
    rcases laterTree_formed hlater with ⟨hnull, -⟩ | ⟨-, ⟨t, ht, htne⟩, hiff⟩
    · exact absurd hnull hformed.ne_null
    · have hlast := hiff.1 hformed
      refine ⟨hlen, hfits, ?_, hlast⟩
      rcases List.mem_cons.1 ht with rfl | ht
      · exact htne
      · exact (List.pairwise_cons.1 hlast).1 t ht htne
  · rintro ⟨hlen, hfits, hfirst, hlast⟩
    have hstages := hfits.stages
    rw [← laterTree_ok_iff] at hstages
    obtain ⟨tree, htree⟩ := hstages
    rcases laterTree_formed htree with ⟨-, hempty⟩ | ⟨-, -, hiff⟩
    · exact absurd (hempty _ (List.mem_cons_self ..)) hfirst
    · have hformed := hiff.2 hlast
      exact ⟨tree, (readParse_iff rest hline hfuel).2 ⟨hlen, hfits, htree⟩, hformed,
        (null_not_mem_nodes tree).2 hformed, (freeCommand_iff tree).2 hformed⟩

theorem tree_formed_pipes :
    ∃ tree, readTree noVariables 9 ("a | b |".toList ++ endLine :: []) = .ok (some tree) ∧
      tree.Formed ∧ Cmd.null ∉ tree.nodes ∧ freeCommand tree = some () := by
  have hfits : LineFits noVariables ("a | b |".toList) := ⟨by decide, by decide, by decide⟩
  exact (tree_formed noVariables _ [] 9 (by decide) (by decide) (by decide)).mpr
    ⟨by decide, hfits, by decide, by decide⟩

/-- The line `|a`: the left side of the pipe is a null pointer. -/
theorem tree_formed_leading :
    ∃ r, readTree noVariables 9 ("|a".toList ++ endLine :: []) = .ok (some (.pipe .null r)) ∧
      ¬ (Cmd.pipe .null r).Formed ∧ freeCommand (.pipe .null r) = none := by
  obtain ⟨e, he⟩ := parseExec_ok_iff.2 (show Fits noVariables ['a'] by decide)
  refine ⟨.exec e, ?_, fun h => h.1, rfl⟩
  rw [readTree_of_isCommand noVariables [] (by decide) (by decide), readParse_iff [] (by decide) (by decide)]
  refine ⟨by decide, ⟨by decide, by decide, by decide⟩, ?_⟩
  have hstages : firstStage ("|a".toList) :: laterStages ("|a".toList) = [[], ['a']] := by decide
  have hlater : parseLater noVariables ['a'] = .ok (.exec e) := by
    rw [parseLater, if_neg (by decide), parseStage_eq, show execPart ['a'] = ['a'] by decide, he]
    rfl
  rw [hstages, laterTree, laterTree, hlater]
  rfl

/-! ## The background -/

/-- The last character that is no space is an `&` with no `>` before it. -/
def EndsInBack (s : Str) : Prop :=
  ∃ a b, s = a ++ '&' :: b ∧ (∀ x ∈ b, x = space) ∧ a.getLast? ≠ some '>'

/-- Every `&` follows a `>`. -/
def OnlyInRedir (s : Str) : Prop := ∀ a b, s = a ++ '&' :: b → a.getLast? = some '>'

/-- The first `&` does not follow a `>`. -/
def FirstIsBack (s : Str) : Prop := ∃ a b, s = a ++ '&' :: b ∧ '&' ∉ a ∧ a.getLast? ≠ some '>'

/-- Some variable among the arguments has the value `&`. -/
def ExpandsToAnd (env : Environ) (s : Str) : Prop :=
  ∃ tok ∈ tokens s, ¬ Redirects tok ∧ ¬ Assigns tok ∧ tok.head? = some '$' ∧ expansion env tok = ['&']

theorem inBack_append {a : Str} (b : Str) (ha : '&' ∉ a) :
    inBack (a ++ '&' :: b) = (a.getLast? != some '>') := by
  have hidx : (a ++ '&' :: b).idxOf? '&' = some a.length := by
    refine List.idxOf?_eq_some_iff.2 ⟨by simp, by simp, fun j hj heq => ?_⟩
    rw [List.getElem_append_left hj] at heq
    exact ha (heq ▸ List.getElem_mem hj)
  rw [inBack, hidx]
  rcases List.eq_nil_or_concat a with rfl | ⟨a', p, rfl⟩
  · rfl
  · simp

theorem inBack_iff (s : Str) : inBack s = true ↔ FirstIsBack s := by
  constructor
  · intro h
    have hmem : '&' ∈ s := by
      refine Decidable.byContradiction fun hnot => ?_
      rw [inBack, List.idxOf?_eq_none_iff.2 hnot] at h
      cases h
    obtain ⟨a, b, rfl, ha⟩ := List.eq_append_cons_of_mem hmem
    rw [inBack_append b ha] at h
    exact ⟨a, b, rfl, ha, by simpa using h⟩
  · rintro ⟨a, b, rfl, ha, hlast⟩
    rw [inBack_append b ha]
    simpa using hlast

theorem laterTree_empty (h : ∀ t ∈ ss, t = []) : laterTree env ss = .ok .null := by
  induction ss with
  | nil => rfl
  | cons s ss ih =>
    rw [laterTree, ih fun t ht => h t (by simp [ht]), h s (by simp)]
    rfl

/-- The root of a tree is in the background exactly if the only stage is. -/
theorem laterTree_back {scmd : Str} {e : ExecCmd} :
    laterTree env (s :: ss) = .ok (.back scmd e) ↔
      (∀ t ∈ ss, t = []) ∧ inBack s = true ∧ parseExec env (execPart s) = .ok e ∧ scmd = e.scmd := by
  constructor
  · intro h
    rw [laterTree] at h
    simp only [bind_ok_iff] at h
    obtain ⟨l, hl, r', hr', hr⟩ := h
    rcases laterTree_formed hr' with ⟨rfl, hempty⟩ | ⟨hne, -, -⟩
    · change Except.ok l = _ at hr
      cases hr
      refine ⟨hempty, ?_⟩
      rw [parseLater] at hl
      split at hl
      · cases hl
      · rw [parseStage_eq] at hl
        obtain ⟨e', hexec, hroot⟩ := exists_of_map_ok hl
        by_cases hback : inBack s = true
        · rw [if_pos hback] at hroot
          cases hroot
          exact ⟨hback, hexec, rfl⟩
        · rw [if_neg hback] at hroot
          cases hroot
    · rw [pipeCmdCreate_of_ne_null l hne] at hr
      cases hr
  · rintro ⟨hempty, hback, hexec, rfl⟩
    have hs : s ≠ [] := by
      rintro rfl
      cases hback
    rw [laterTree, laterTree_empty hempty, parseLater, if_neg hs, parseStage_eq, hexec, if_pos hback]
    rfl

/-- The string starts with the first stage. -/
theorem firstStage_prefix (line : Str) : ∃ t, upToEnd line = firstStage line ++ t := by
  induction line with
  | nil => exact ⟨[], rfl⟩
  | cons x xs ih =>
    obtain ⟨t, ht⟩ := ih
    by_cases hx : x = endString
    · exact ⟨[], by simp [upToEnd, firstStage, hx]⟩
    · by_cases hp : x = '|'
      · exact ⟨upToEnd (x :: xs), by simp [firstStage, hp]⟩
      · refine ⟨t, ?_⟩
        rw [upToEnd, firstStage, List.takeWhile_cons_of_pos (by simpa using hx),
          List.takeWhile_cons_of_pos (by simp [hx, hp])]
        exact congrArg (x :: ·) ht

theorem mem_of_mem_tokens {tok : Str} (h : tok ∈ tokens s) {x : Char} (hx : x ∈ tok) : x ∈ s := by
  rw [tokens, List.mem_filter] at h
  exact (mem_splitOn h.1).2 x hx

/-- An argument is `&` only where a variable has that value. -/
theorem and_mem_arguments (hs : '&' ∉ s) : ['&'] ∈ arguments env (tokens s) ↔ ExpandsToAnd env s := by
  simp only [arguments, List.mem_filter, List.mem_map, ExpandsToAnd]
  constructor
  · rintro ⟨⟨tok, ⟨htok, hplain⟩, hexp⟩, -⟩
    have hplain : ¬ Redirects tok ∧ ¬ Assigns tok := by simpa using hplain
    refine ⟨tok, htok, hplain.1, hplain.2, ?_, hexp⟩
    cases tok with
    | nil => cases hexp
    | cons x xs =>
      refine Decidable.byContradiction fun hx => ?_
      have hx : x ≠ '$' := by simpa using hx
      have hself : expansion env (x :: xs) = x :: xs := by
        simp [expansion, List.isPrefixOf, Ne.symm hx]
      rw [hself] at hexp
      exact hs (mem_of_mem_tokens htok (by rw [hexp]; exact List.mem_cons_self ..))
  · rintro ⟨tok, htok, hr, ha, -, hexp⟩
    exact ⟨⟨tok, ⟨htok, by simp [hr, ha]⟩, hexp⟩, by simp⟩

/-- What a line that ends in `&` must be: it stays within the arrays, there
is nothing behind its first stage, the first `&` is the one, and no
argument turns into an `&`. -/
structure BackFits (env : Environ) (line : Str) : Prop where
  buffer : line.length < bufLen
  fits : LineFits env line
  single : ∀ t ∈ laterStages line, t = []
  first : FirstIsBack (firstStage line)
  plain : ¬ ExpandsToAnd env ((firstStage line).takeWhile (· != '&'))

/-- A line that ends in `&` runs in the background, with no `&` among its
arguments, exactly if it is such a line; and one whose `&`s are all in
redirections never does. -/
theorem background_lines (env : Environ) (line rest : Str) (fuel : Nat) (hline : endLine ∉ line)
    (hfuel : line.length < fuel) :
    ((EndsInBack (upToEnd line) → ∃ scmd e,
        readParse env fuel (line ++ endLine :: rest) = .ok (some (.back scmd e)) ∧
          waitsFor (.back scmd e) = false ∧ ['&'] ∉ e.argv) ∧
      (OnlyInRedir (upToEnd line) → ∀ tree,
        readParse env fuel (line ++ endLine :: rest) = .ok (some tree) →
          ∀ scmd e, tree ≠ .back scmd e)) ↔
      (EndsInBack (upToEnd line) → BackFits env line) := by
  have hpart : inBack (firstStage line) = true →
      execPart (firstStage line) = (firstStage line).takeWhile (· != '&') := by
    intro hback
    rw [execPart, if_pos hback]
  have hfree : '&' ∉ (firstStage line).takeWhile (· != '&') := not_mem_takeWhile_ne '&' _
  have hredir : OnlyInRedir (upToEnd line) → ∀ tree,
      readParse env fuel (line ++ endLine :: rest) = .ok (some tree) → ∀ scmd e, tree ≠ .back scmd e := by
    intro honly tree htree scmd e heq
    rw [heq, readParse_iff rest hline hfuel, laterTree_back] at htree
    obtain ⟨a, b, hab, -, hlast⟩ := (inBack_iff _).1 htree.2.2.2.1
    obtain ⟨t, ht⟩ := firstStage_prefix line
    exact hlast (honly a (b ++ t) (by rw [ht, hab]; simp))
  constructor
  · intro h hends
    obtain ⟨scmd, e, htree, -, hplain⟩ := h.1 hends
    rw [readParse_iff rest hline hfuel, laterTree_back] at htree
    obtain ⟨hlen, hfits, hsingle, hback, hexec, -⟩ := htree
    rw [hpart hback] at hexec
    rw [(vectors_of_parseExec hexec).1, and_mem_arguments hfree] at hplain
    exact ⟨hlen, hfits, hsingle, (inBack_iff _).1 hback, hplain⟩
  · intro h
    refine ⟨fun hends => ?_, hredir⟩
    have hok := h hends
    have hback := (inBack_iff _).2 hok.first
    have hstage := hok.fits.stages _ (List.mem_cons_self ..)
    rw [← parseExec_ok_iff] at hstage
    obtain ⟨e, hexec⟩ := hstage
    refine ⟨e.scmd, e, ?_, rfl, ?_⟩
    · rw [readParse_iff rest hline hfuel, laterTree_back]
      exact ⟨hok.buffer, hok.fits, hok.single, hback, hexec, rfl⟩
    · rw [hpart hback] at hexec
      rw [(vectors_of_parseExec hexec).1, and_mem_arguments hfree]
      exact hok.plain

theorem background_lines_sleep :
    ∃ scmd e, readParse noVariables 10 ("sleep 2 &".toList ++ endLine :: []) =
        .ok (some (.back scmd e)) ∧
      waitsFor (.back scmd e) = false ∧ ['&'] ∉ e.argv := by
  have hends : EndsInBack (upToEnd ("sleep 2 &".toList)) :=
    ⟨"sleep 2 ".toList, [], by decide, by simp, by decide⟩
  have hback : BackFits noVariables ("sleep 2 &".toList) :=
    { buffer := by decide
      fits := ⟨by decide, by decide, by decide⟩
      single := by decide
      first := ⟨"sleep 2 ".toList, [], by decide, by decide, by decide⟩
      plain := by
        rintro ⟨tok, hmem, -, -, hhead, -⟩
        revert tok
        decide }
  have hline := background_lines noVariables ("sleep 2 &".toList) [] 10 (by decide) (by decide)
  exact (hline.mpr fun _ => hback).1 hends

/-- The line `a 2>&1 &`: the first `&` belongs to the redirection, the
command is waited for, and the last `&` is an argument. -/
theorem background_lines_redirected :
    EndsInBack (upToEnd ("a 2>&1 &".toList)) ∧
    ∃ e, readParse noVariables 9 ("a 2>&1 &".toList ++ endLine :: []) = .ok (some (.exec e)) ∧
      waitsFor (.exec e) = true ∧ ['&'] ∈ e.argv := by
  have hfits : Fits noVariables ("a 2>&1 &".toList) := by decide
  obtain ⟨e, he⟩ := parseExec_ok_iff.2 hfits
  refine ⟨⟨"a 2>&1 ".toList, [], by decide, by simp, by decide⟩, e, ?_, rfl, ?_⟩
  · rw [readParse_iff [] (by decide) (by decide)]
    refine ⟨by decide, ⟨by decide, by decide, by decide⟩, ?_⟩
    have hstages : firstStage ("a 2>&1 &".toList) :: laterStages ("a 2>&1 &".toList) =
        ["a 2>&1 &".toList, []] := by decide
    rw [hstages, laterTree, laterTree_empty (by simp), parseLater, if_neg (by decide), parseStage_eq,
      show execPart ("a 2>&1 &".toList) = "a 2>&1 &".toList by decide, he]
    rfl
  · rw [(vectors_of_parseExec he).1]
    decide

end SistemasOperativos.Shell
