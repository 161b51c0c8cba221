/-
SistemasOperativos.Shell.EnvironTheorems — the variables of one command.

`parse_environ_var` decides which tokens are assignments, and looks for a
`-` in the whole token; `set_environ_vars` splits each of them at its
first `=`. The comment in the former speaks of the key only. So a pair
reaches the child unless its value has a `-`: that token is an argument.
-/
import SistemasOperativos.Lib.Fold
import SistemasOperativos.Shell.ArgvTheorems
import SistemasOperativos.Shell.Environ

namespace SistemasOperativos.Shell

open Fold

/-! ## The specification -/

/-- What is before the first `=`. -/
def keyOf (tok : Str) : Str := tok.takeWhile (· ≠ '=')

/-- What is behind it. -/
def valueOf (tok : Str) : Str := (tok.dropWhile (· ≠ '=')).drop 1

/-- The token is `KEY=VALUE`, with a key that is not empty and has no `-`,
and no redirection. -/
def IsPair (tok : Str) : Prop :=
  ¬ Redirects tok ∧ '=' ∈ tok ∧ keyOf tok ≠ [] ∧ '-' ∉ keyOf tok

instance : DecidablePred IsPair := fun _ => inferInstanceAs (Decidable (_ ∧ _))

/-- What a pair stores, and where. -/
def storedBy (tok : Str) : Str × Option Str := (keyOf tok, some (valueOf tok))

/-- The pairs of the segment are its assignments, the arguments are among
the other tokens, and the child has for each key what the last pair stores
there, or what the shell has. -/
def PairsReachChild (env : Environ) (s : Str) : Prop :=
  ∃ c child, parseExec env s = .ok c ∧ c.eargv = (tokens s).filter IsPair ∧
    c.argv = (((tokens s).filter (fun t => ¬ Redirects t ∧ ¬ IsPair t)).map
      (expansion env)).filter (· ≠ []) ∧
    setEnvironVars env.getenv c.eargv = .ok child ∧
    ∀ key, child key =
      (lastFor key (((tokens s).filter IsPair).map storedBy)).getD (env.getenv key)

/-! ## The two parts of a pair -/

variable {env : Environ} {s tok key value : Str} {vars : Variables}

theorem keyOf_append (hkey : '=' ∉ key) (value : Str) : keyOf (key ++ '=' :: value) = key := by
  have hall : ∀ x ∈ key, decide (x ≠ '=') = true := by
    intro x hx
    exact decide_eq_true (fun heq => hkey (heq ▸ hx))
  rw [keyOf, List.takeWhile_append_of_pos hall, List.takeWhile_cons_of_neg (by decide),
    List.append_nil]

theorem valueOf_append (hkey : '=' ∉ key) (value : Str) :
    valueOf (key ++ '=' :: value) = value := by
  have hall : ∀ x ∈ key, decide (x ≠ '=') = true := by
    intro x hx
    exact decide_eq_true (fun heq => hkey (heq ▸ hx))
  rw [valueOf, List.dropWhile_append_of_pos hall, List.dropWhile_cons_of_neg (by decide)]
  rfl

/-- What the parser takes for an assignment is a pair without a `-` in its
value either. -/
theorem assigns_iff (hr : ¬ Redirects tok) : Assigns tok ↔ IsPair tok ∧ '-' ∉ valueOf tok := by
  constructor
  · rintro ⟨heq, hhead, hdash⟩
    obtain ⟨key, value, rfl, hkey⟩ := List.eq_append_cons_of_mem heq
    rw [IsPair, keyOf_append hkey, valueOf_append hkey]
    refine ⟨⟨hr, heq, ?_, fun h => hdash (List.mem_append_left _ h)⟩,
      fun h => hdash (List.mem_append_right _ (List.mem_cons_of_mem _ h))⟩
    rintro rfl
    exact hhead rfl
  · rintro ⟨⟨-, heq, hne, hdash⟩, hvalue⟩
    obtain ⟨key, value, rfl, hkey⟩ := List.eq_append_cons_of_mem heq
    rw [keyOf_append hkey] at hne hdash
    rw [valueOf_append hkey] at hvalue
    refine ⟨heq, ?_, ?_⟩
    · cases key with
      | nil => exact absurd rfl hne
      | cons x xs =>
          intro hx
          exact hkey (List.mem_cons.mpr (Or.inl (Option.some.inj hx).symm))
    · intro h
      rcases List.mem_append.mp h with h | h
      · exact hdash h
      · rcases List.mem_cons.mp h with h | h
        · exact absurd h (by decide)
        · exact hvalue h

/-! ## `set_environ_vars` -/

/-- One pair: both buffers are long enough, and the key gets the value. -/
theorem setEnvironVar_append (vars : Variables) (hne : key ≠ []) (hkey : '=' ∉ key)
    (value : Str) :
    setEnvironVar vars (key ++ '=' :: value) = .ok (Function.update vars key (some value)) := by
  have hstop : ∀ x ∈ key, (x == '=') = false := by
    intro x hx
    exact beq_eq_false_iff_ne.mpr (fun heq => hkey (heq ▸ hx))
  have hgetKey : getEnvironKey (key ++ '=' :: value) (key.length + 1) = .ok key := by
    rw [getEnvironKey, scan_append hstop (by decide)]
    show copyInto _ ((key ++ '=' :: value).take key.length) = _
    rw [List.take_left, copyInto, if_pos (Nat.lt_succ_self _)]
  have hgetValue : getEnvironValue (key ++ '=' :: value)
      ((key ++ '=' :: value).length - key.length) key.length = .ok value := by
    have hdrop : (key ++ '=' :: value).drop (key.length + 1) = value := by
      rw [← List.drop_drop, List.drop_left]
      rfl
    rw [getEnvironValue, hdrop, copyInto, if_pos]
    rw [List.length_append, List.length_cons]
    omega
  have hset : setenv vars key value = Function.update vars key (some value) :=
    if_neg (not_or.mpr ⟨hne, hkey⟩)
  unfold setEnvironVar
  dsimp only
  rw [blockContains_append hkey value, if_neg (by omega), Int.toNat_natCast, hgetKey]
  simp only [bind, Except.bind, hgetValue, hset]
  rfl

/-- The same, read at one key. -/
theorem setEnvironVar_get (vars : Variables) (hpair : IsPair tok) :
    ∃ vars', setEnvironVar vars tok = .ok vars' ∧
      ∀ k, vars' k = (lastFor k [storedBy tok]).getD (vars k) := by
  obtain ⟨-, heq, hne, -⟩ := hpair
  obtain ⟨key, value, rfl, hkey⟩ := List.eq_append_cons_of_mem heq
  rw [keyOf_append hkey] at hne
  refine ⟨_, setEnvironVar_append vars hne hkey value, fun k => ?_⟩
  rw [lastFor_singleton, storedBy, keyOf_append hkey, valueOf_append hkey]
  by_cases hk : key = k
  · subst hk
    rw [if_pos rfl, Function.update_self]
    rfl
  · rw [if_neg hk, Function.update_of_ne (Ne.symm hk)]
    rfl

/-- The whole vector: the last pair for a key wins. -/
theorem setEnvironVars_pairs (vars : Variables) {pairs : List Str}
    (h : ∀ tok ∈ pairs, IsPair tok) :
    ∃ child, setEnvironVars vars pairs = .ok child ∧
      ∀ key, child key = (lastFor key (pairs.map storedBy)).getD (vars key) := by
  have htotal : ∀ tok ∈ pairs, ∀ vars, ∃ vars', setEnvironVar vars tok = .ok vars' := by
    intro tok htok vars
    obtain ⟨vars', hset, -⟩ := setEnvironVar_get vars (h tok htok)
    exact ⟨vars', hset⟩
  obtain ⟨child, hchild⟩ := foldlM_total htotal vars
  refine ⟨child, hchild, fun key => ?_⟩
  rw [← List.filterMap_eq_map]
  refine foldlM_slots (fun vars key => vars key) (fun tok => some (storedBy tok))
    (fun tok htok vars vars' hset k => ?_) hchild key
  obtain ⟨vars₁, hset₁, hget⟩ := setEnvironVar_get vars (h tok htok)
  rw [hset] at hset₁
  cases hset₁
  exact hget k

/-! ## The segment -/

/-- Where no pair has a `-` in its value, the parser and the specification
agree on what is an assignment. -/
theorem assigns_iff_isPair (h : ∀ tok ∈ tokens s, IsPair tok → '-' ∉ valueOf tok)
    (htok : tok ∈ tokens s) (hr : ¬ Redirects tok) : Assigns tok ↔ IsPair tok := by
  rw [assigns_iff hr]
  exact ⟨fun hpair => hpair.1, fun hpair => ⟨hpair, h tok htok hpair⟩⟩

theorem assignments_eq_pairs (h : ∀ tok ∈ tokens s, IsPair tok → '-' ∉ valueOf tok) :
    assignments (tokens s) = (tokens s).filter IsPair := by
  unfold assignments
  refine List.filter_congr (fun tok htok => decide_eq_decide.mpr ?_)
  by_cases hr : Redirects tok
  · exact iff_of_false (fun ha => ha.1 hr) (fun hp => hp.1 hr)
  · rw [assigns_iff_isPair h htok hr]
    exact ⟨fun hp => hp.2, fun hp => ⟨hr, hp⟩⟩

theorem arguments_eq_others (env : Environ)
    (h : ∀ tok ∈ tokens s, IsPair tok → '-' ∉ valueOf tok) :
    arguments env (tokens s) = (((tokens s).filter (fun t => ¬ Redirects t ∧ ¬ IsPair t)).map
      (expansion env)).filter (· ≠ []) := by
  unfold arguments
  congr 2
  refine List.filter_congr (fun tok htok => decide_eq_decide.mpr ?_)
  refine and_congr_right (fun hr => ?_)
  rw [assigns_iff_isPair h htok hr]

/-- The pairs of a segment reach the child exactly if both vectors fit and
no value has a `-`. -/
theorem environ_pairs (env : Environ) (s : Str) :
    PairsReachChild env s ↔
      Fits env s ∧ ∀ tok ∈ tokens s, IsPair tok → '-' ∉ valueOf tok := by
  constructor
  · rintro ⟨c, child, hparse, heargv, -⟩
    refine ⟨fits_of_parseExec hparse, fun tok htok hpair => ?_⟩
    have hmem : tok ∈ assignments (tokens s) := by
      rw [← (vectors_of_parseExec hparse).2, heargv, List.mem_filter]
      exact ⟨htok, decide_eq_true hpair⟩
    obtain ⟨-, hassigns⟩ := List.mem_filter.mp hmem
    exact ((assigns_iff hpair.1).mp (of_decide_eq_true hassigns).2).2
  · rintro ⟨hfits, hvalues⟩
    obtain ⟨c, hparse⟩ := parseExec_ok_iff.mpr hfits
    obtain ⟨hargv, heargv⟩ := vectors_of_parseExec hparse
    rw [arguments_eq_others env hvalues] at hargv
    rw [assignments_eq_pairs hvalues] at heargv
    have hpairs : ∀ tok ∈ (tokens s).filter IsPair, IsPair tok :=
      fun tok htok => of_decide_eq_true (List.mem_filter.mp htok).2
    obtain ⟨child, hchild, hkeys⟩ := setEnvironVars_pairs env.getenv hpairs
    exact ⟨c, child, hparse, heargv, hargv, by rw [heargv, hchild], hkeys⟩

/-- In `A=b-c env` the pair is the program to run. -/
theorem environ_pairs_dash :
    (∃ c, parseExec noVariables "A=b-c env".toList = .ok c ∧
        c.argv = ["A=b-c".toList, "env".toList] ∧ c.eargv = []) ∧
      ¬ PairsReachChild noVariables "A=b-c env".toList := by
  constructor
  · obtain ⟨c, hparse⟩ := @parseExec_ok_iff noVariables "A=b-c env".toList |>.mpr (by decide)
    obtain ⟨hargv, heargv⟩ := vectors_of_parseExec hparse
    refine ⟨c, hparse, ?_, ?_⟩
    · rw [hargv]
      decide
    · rw [heargv]
      decide
  · rintro ⟨c, child, hparse, heargv, -⟩
    rw [(vectors_of_parseExec hparse).2] at heargv
    exact absurd heargv (by decide)

end SistemasOperativos.Shell
