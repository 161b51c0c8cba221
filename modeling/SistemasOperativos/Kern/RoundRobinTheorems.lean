/-
SistemasOperativos.Kern.RoundRobinTheorems — `SCHED_ROUND_ROBIN` on one
CPU.

The search does not see the running environment: `env_run` makes it
runnable only when another one has been chosen, and when there is no
other the last branch of `sched_yield` runs it again. Either way the
first of those that wait is served and goes to the end, so that
`turnOrder`, read off the table once, tells who is dispatched at every
later call.
-/
import SistemasOperativos.Kern.KernelTheorems
import SistemasOperativos.Lib.Rotation

namespace SistemasOperativos.Kern

open Rotation

/-! ## The specification -/

/-- The environments that take turns: the runnable ones, and the current
one while it is running. -/
def Served (k : Kernel) (cur : Option EnvIdx) (e : EnvIdx) : Prop :=
  (k.envs e).envStatus = .runnable ∨ cur = some e ∧ (k.envs e).envStatus = .running

instance (k : Kernel) (cur : Option EnvIdx) : DecidablePred (Served k cur) :=
  fun _ => inferInstanceAs (Decidable (_ ∨ _))

/-- A table of one CPU: nothing runs but the current environment, and the
ids of those that may be current carry their index. -/
structure OneCpu (k : Kernel) (cur : Option EnvIdx) : Prop where
  alone : ∀ e, (k.envs e).envStatus = .running → cur = some e
  ids : ∀ e, Served k cur e ∨ cur = some e → envx (k.envs e).envId = e

/-- How far `e` is from the index where a search begins. -/
def offset (start : Nat) (e : EnvIdx) : Nat := (e + (nenv - start % nenv)) % nenv

/-- Who is current after a call. -/
def curenvAfter (cur : Option EnvIdx) : Leave → Option EnvIdx
  | .run e => some e
  | .halt => none
  | .monitor => cur

/-- What happens between two calls leaves the statuses alone, and nothing
changes an id. -/
def SameStatuses (k k' : Kernel) : Prop :=
  ∀ e, (k'.envs e).envStatus = (k.envs e).envStatus ∧ (k'.envs e).envId = (k.envs e).envId

/-- Successive calls of `sched_yield`, with how each of them ended. -/
inductive Calls (k : Kernel) (cur : Option EnvIdx) :
    List Leave → Kernel → Option EnvIdx → Prop where
  | start : Calls k cur [] k cur
  | call {ends : List Leave} {k₁ k₂ : Kernel} {cur₁ : Option EnvIdx} :
      Calls k cur ends k₁ cur₁ → SameStatuses k₁ k₂ →
      Calls k cur (ends ++ [(schedYield .roundRobin k₂ cur₁).2])
        (schedYield .roundRobin k₂ cur₁).1
        (curenvAfter cur₁ (schedYield .roundRobin k₂ cur₁).2)

/-- Those that take turns, from the one after the current on. -/
def turnOrder (k : Kernel) (cur : Option EnvIdx) : List EnvIdx :=
  (circular (afterCurrent cur)).filter (fun e => Served k cur e)

/-! ## The circular order -/

theorem length_circular (start : Nat) : (circular start).length = nenv := by
  simp [circular_eq]

theorem getElem?_circular {start i : Nat} (hi : i < nenv) :
    (circular start)[i]? = some (slotAt start i) := by
  rw [circular_eq, List.getElem?_map, List.getElem?_range hi]
  rfl

/-- Behind the environment at place `i` the order is the same, rotated. -/
theorem rotate_circular {start i : Nat} {e : EnvIdx} (hi : (circular start)[i]? = some e) :
    (circular start).rotate (i + 1) = circular (e + 1) := by
  have hlt : i < nenv := by
    have := (List.getElem?_eq_some_iff.mp hi).1
    rwa [length_circular] at this
  rw [getElem?_circular hlt, Option.some.injEq] at hi
  subst hi
  apply List.ext_getElem?
  intro j
  by_cases hj : j < nenv
  · rw [List.getElem?_rotate (by rwa [length_circular]), length_circular,
      getElem?_circular (Nat.mod_lt _ (by decide)), getElem?_circular hj]
    simp only [slotAt, nenv, Option.some.injEq, Fin.mk.injEq]
    omega
  · rw [List.getElem?_eq_none (by rw [List.length_rotate, length_circular]; omega),
      List.getElem?_eq_none (by rw [length_circular]; omega)]

theorem offset_slotAt {start i : Nat} (hi : i < nenv) : offset start (slotAt start i) = i := by
  simp only [offset, slotAt, nenv] at *
  omega

theorem pairwise_circular (start : Nat) :
    (circular start).Pairwise (fun a b => offset start a < offset start b) := by
  rw [circular_eq, List.pairwise_map]
  refine List.Pairwise.imp_of_mem ?_ List.pairwise_lt_range
  intro i j hi hj hlt
  rw [offset_slotAt (List.mem_range.mp hi), offset_slotAt (List.mem_range.mp hj)]
  exact hlt

/-- A search comes last to the environment it started behind. -/
theorem circular_succ (e : EnvIdx) : ∃ l, circular (e + 1) = l ++ [e] ∧ e ∉ l := by
  have hlast : slotAt (e + 1) 1023 = e := by
    have := e.isLt
    simp only [slotAt, nenv, Fin.ext_iff] at *
    omega
  refine ⟨(List.range 1023).map (slotAt (e + 1)), ?_, ?_⟩
  · rw [circular_eq, List.range_succ (n := 1023), List.map_append, List.map_singleton, hlast]
  · intro hmem
    obtain ⟨i, hi, heq⟩ := List.mem_map.mp hmem
    have hi' := List.mem_range.mp hi
    have := e.isLt
    simp only [slotAt, nenv, Fin.ext_iff] at *
    omega

/-! ## One call -/

variable {k k' : Kernel} {cur : Option EnvIdx} {e : EnvIdx} {rest : List EnvIdx}

theorem mem_turnOrder : e ∈ turnOrder k cur ↔ Served k cur e := by
  rw [turnOrder, List.mem_filter, decide_eq_true_eq]
  exact and_iff_right (mem_circular _ e)

theorem OneCpu.searchStart_eq (h : OneCpu k cur) : searchStart k cur = afterCurrent cur :=
  Kern.searchStart_eq (fun c hc => h.ids c (Or.inr hc))

/-- The current environment is first only when it is the only one. -/
theorem OneCpu.alone_of_head (h : OneCpu k cur) (horder : turnOrder k cur = e :: rest)
    (hrun : (k.envs e).envStatus = .running) (j : EnvIdx) :
    (k.envs j).envStatus ≠ .runnable := by
  have hcur := h.alone e hrun
  subst hcur
  obtain ⟨l, hl, hnot⟩ := circular_succ e
  intro hj
  have hmem : j ∈ turnOrder k (some e) := mem_turnOrder.mpr (Or.inl hj)
  have hje : j ≠ e := by
    rintro rfl
    rw [hrun] at hj
    cases hj
  rw [turnOrder, afterCurrent, hl, List.filter_append] at horder hmem
  cases hfilter : l.filter (fun e' => Served k (some e) e') with
  | nil =>
      rw [hfilter, List.nil_append, List.mem_filter, List.mem_singleton] at hmem
      exact hje hmem.1
  | cons x xs =>
      rw [hfilter, List.cons_append] at horder
      cases horder
      have hx : e ∈ l.filter (fun e' => Served k (some e) e') := by
        rw [hfilter]
        exact List.mem_cons_self
      exact hnot (List.mem_filter.mp hx).1

/-- The call, with the statistics put aside. -/
theorem schedYield_roundRobin (k : Kernel) (cur : Option EnvIdx) :
    schedYield .roundRobin k cur =
      match findRunnable k.envs (searchStart k cur) with
      | some e => (envRun (countEnvRun (countSchedCall k) e) cur e, .run e)
      | none => yieldFallback (countSchedCall k) cur := rfl

/-- The first of those that wait is dispatched. -/
theorem OneCpu.schedYield_eq (h : OneCpu k cur) (horder : turnOrder k cur = e :: rest) :
    ∃ k₀, UpToPriority k k₀ ∧ schedYield .roundRobin k cur = (envRun k₀ cur e, .run e) := by
  have hserved : Served k cur e := by
    rw [← mem_turnOrder, horder]
    exact List.mem_cons_self
  have hcount := (upToPriority_countSchedCall k).trans (upToPriority_countEnvRun _ e)
  rcases hserved with hrunnable | ⟨hcur, hrunning⟩
  · -- nobody before `e` waits, so that nobody before it is runnable
    have hfind : findRunnable k.envs (afterCurrent cur) = some e := by
      obtain ⟨before, after, hsplit, hbefore, -, -⟩ := List.filter_eq_cons_iff.mp horder
      rw [findRunnable, hsplit, List.find?_append, List.find?_eq_none.mpr]
      · simp [hrunnable]
      · intro j hj
        have hnot := hbefore j hj
        rw [decide_eq_true_eq] at hnot ⊢
        exact fun hr => hnot (Or.inl hr)
    refine ⟨countEnvRun (countSchedCall k) e, hcount, ?_⟩
    rw [schedYield_roundRobin, h.searchStart_eq, hfind]
  · have hfind : findRunnable k.envs (afterCurrent cur) = none := by
      rw [findRunnable, List.find?_eq_none]
      intro j _
      rw [decide_eq_true_eq]
      exact h.alone_of_head horder hrunning j
    refine ⟨countEnvRun (countSchedCall k) e, hcount, ?_⟩
    rw [schedYield_roundRobin, h.searchStart_eq, hfind, hcur]
    exact if_pos hrunning

/-- A dispatch moves the marks of the running environment; the same ones
take turns. -/
theorem served_envRun (hserved : Served k cur e) (j : EnvIdx) :
    Served (envRun k cur e) (some e) j ↔ Served k cur j := by
  rw [Served, envRun_apply]
  by_cases hj : j = e
  · subst hj
    simp [hserved]
  · by_cases hold : cur = some j ∧ (k.envs j).envStatus = .running
    · simp [hj, hold, Served]
    · rw [if_neg hj, if_neg hold]
      simp [Served, hold, Ne.symm hj]

theorem OneCpu.envRun (h : OneCpu k cur) (hserved : Served k cur e) :
    OneCpu (envRun k cur e) (some e) where
  alone := by
    intro j hj
    rw [envRun_apply] at hj
    split at hj
    · rename_i heq
      rw [heq]
    · split at hj
      · cases hj
      · rename_i hold
        exact absurd ⟨h.alone j hj, hj⟩ hold
  ids := by
    intro j hj
    have hid : ((Kern.envRun k cur e).envs j).envId = (k.envs j).envId := by
      rw [envRun_apply]
      split
      · rename_i heq
        rw [heq]
      · split <;> rfl
    rw [hid]
    rcases hj with hj | hj
    · exact h.ids j (Or.inl ((served_envRun hserved j).mp hj))
    · cases hj
      exact h.ids e (Or.inl hserved)

/-- Statuses and ids are all that matters. -/
theorem SameStatuses.served (h : SameStatuses k k') (e : EnvIdx) :
    Served k' cur e ↔ Served k cur e := by
  rw [Served, Served, (h e).1]

theorem SameStatuses.oneCpu (hs : SameStatuses k k') (h : OneCpu k cur) : OneCpu k' cur where
  alone := by
    intro e he
    rw [(hs e).1] at he
    exact h.alone e he
  ids := by
    intro e he
    rw [hs.served] at he
    rw [(hs e).2]
    exact h.ids e he

theorem SameStatuses.turnOrder_eq (h : SameStatuses k k') : turnOrder k' cur = turnOrder k cur := by
  rw [turnOrder, turnOrder]
  congr 1
  funext e
  rw [decide_eq_decide]
  exact h.served e

theorem UpToPriority.sameStatuses (h : UpToPriority k k') : SameStatuses k k' := by
  intro e
  rw [h.env e]
  exact ⟨rfl, rfl⟩

/-- `env_run` of the current environment, at the end of `trap`, is one of
the things that may happen between two calls. -/
theorem sameStatuses_envRun (hrun : (k.envs e).envStatus = .running) :
    SameStatuses k (envRun k (some e) e) := by
  intro j
  rw [envRun_apply]
  by_cases hj : j = e
  · subst hj
    simp [hrun]
  · simp [hj, Ne.symm hj]

/-- One call: the first of those that wait goes to the end. -/
theorem OneCpu.step (h : OneCpu k cur) (horder : turnOrder k cur = e :: rest) :
    (schedYield .roundRobin k cur).2 = .run e ∧
      OneCpu (schedYield .roundRobin k cur).1 (some e) ∧
      turnOrder (schedYield .roundRobin k cur).1 (some e) = rest ++ [e] := by
  obtain ⟨k₀, hsame, heq⟩ := h.schedYield_eq horder
  have h₀ := hsame.sameStatuses.oneCpu h
  have hserved : Served k₀ cur e := by
    rw [hsame.sameStatuses.served, ← mem_turnOrder, horder]
    exact List.mem_cons_self
  obtain ⟨i, hi, hfilter⟩ := filter_rotate_head horder
  rw [rotate_circular hi] at hfilter
  rw [heq]
  refine ⟨rfl, h₀.envRun hserved, ?_⟩
  rw [turnOrder, ← hfilter]
  congr 1
  funext j
  rw [decide_eq_decide, served_envRun hserved, hsame.sameStatuses.served]

/-! ## Successive calls -/

/-- After `n` calls those that wait are the same, rotated `n` times. -/
theorem OneCpu.calls (h : OneCpu k cur) (hne : turnOrder k cur ≠ []) {ends : List Leave}
    {cur' : Option EnvIdx} (hcalls : Calls k cur ends k' cur') :
    OneCpu k' cur' ∧ turnOrder k' cur' = (turnOrder k cur).rotate ends.length ∧
      GoesRound ((turnOrder k cur).map Leave.run) ends := by
  induction hcalls with
  | start =>
      refine ⟨h, ?_, GoesRound.nil _⟩
      simp
  | @call ends k₁ k₂ cur₁ _ hsame ih =>
      obtain ⟨h₁, horder, hround⟩ := ih
      have h₂ := hsame.oneCpu h₁
      rw [← hsame.turnOrder_eq] at horder
      cases hhead : turnOrder k₂ cur₁ with
      | nil =>
          rw [hhead] at horder
          exact absurd (List.rotate_eq_nil_iff.mp horder.symm) hne
      | cons e rest =>
          obtain ⟨hend, hcpu, hnext⟩ := h₂.step hhead
          rw [hend]
          rw [hhead] at horder
          refine ⟨hcpu, ?_, ?_⟩
          · rw [curenvAfter, hnext, List.length_append, List.length_singleton,
              ← List.rotate_rotate, ← horder]
            simp
          · have hturn : ((turnOrder k cur).map Leave.run).rotate ends.length =
                Leave.run e :: rest.map Leave.run := by
              rw [← List.map_rotate, ← horder]
              rfl
            exact hround.snoc hturn

/-- **Round robin.** The environments that take turns are dispatched in
circular order from the one after the current on, and any window of as
many calls as there are of them dispatches each once. -/
theorem round_robin (h : OneCpu k cur) (hsome : ∃ e, Served k cur e) :
    ∃ order : List EnvIdx, (∀ e, e ∈ order ↔ Served k cur e) ∧
      order.Pairwise (fun a b => offset (afterCurrent cur) a < offset (afterCurrent cur) b) ∧
      ∀ ends k' cur', Calls k cur ends k' cur' →
        (∀ i < ends.length, ends[i]? = (order[i % order.length]?).map Leave.run) ∧
        ∀ i, i + order.length ≤ ends.length →
          ((ends.drop i).take order.length).Perm (order.map Leave.run) := by
  have hne : turnOrder k cur ≠ [] := by
    obtain ⟨e, he⟩ := hsome
    exact List.ne_nil_of_mem (mem_turnOrder.mpr he)
  refine ⟨turnOrder k cur, fun e => mem_turnOrder, (pairwise_circular _).filter _, ?_⟩
  intro ends k' cur' hcalls
  obtain ⟨-, -, hround⟩ := h.calls hne hcalls
  refine ⟨?_, ?_⟩
  · intro i hi
    have := hround i hi
    rwa [List.getElem?_map, List.length_map] at this
  · intro i hi
    have := hround.window (i := i) (by rwa [List.length_map])
    rwa [List.length_map] at this

theorem status_twoEnvs (p q ticks : Int) (e : EnvIdx) :
    ((twoEnvs p q ticks).envs e).envStatus =
      if e = 0 then .running else if e = 1 then .runnable else .free := by
  simp only [twoEnvs]
  split
  · rfl
  · split <;> rfl

theorem served_twoEnvs (p q ticks : Int) (e : EnvIdx) :
    Served (twoEnvs p q ticks) (some 0) e ↔ e = 0 ∨ e = 1 := by
  rw [Served, status_twoEnvs]
  by_cases h0 : e = 0
  · simp [h0]
  · rw [if_neg h0]
    by_cases h1 : e = 1
    · rw [if_pos h1]
      simp [h1]
    · rw [if_neg h1]
      simp [h0, h1]

theorem oneCpu_twoEnvs (p q ticks : Int) : OneCpu (twoEnvs p q ticks) (some 0) where
  alone := by
    intro e he
    rw [status_twoEnvs] at he
    split at he
    · rename_i h0
      rw [h0]
    · split at he <;> cases he
  ids := by
    intro e he
    have hcases : e = 0 ∨ e = 1 := by
      rcases he with he | he
      · exact (served_twoEnvs p q ticks e).mp he
      · exact Or.inl (Option.some.inj he).symm
    rcases hcases with rfl | rfl
    · rfl
    · rfl

/-- The running environment and the runnable one alternate. -/
theorem round_robin_two : ∃ order : List EnvIdx, (∀ e, e ∈ order ↔ e = 0 ∨ e = 1) ∧
    ∀ ends k' cur', Calls (twoEnvs 8 8 0) (some 0) ends k' cur' →
      ∀ i < ends.length, ends[i]? = (order[i % order.length]?).map Leave.run := by
  obtain ⟨order, hmem, -, hcalls⟩ :=
    round_robin (oneCpu_twoEnvs 8 8 0) ⟨1, Or.inl rfl⟩
  refine ⟨order, fun e => (hmem e).trans (served_twoEnvs 8 8 0 e), ?_⟩
  intro ends k' cur' hrun
  exact (hcalls ends k' cur' hrun).1

end SistemasOperativos.Kern
