/-
SistemasOperativos.Kern.EnvIdTheorems — environment ids are fresh.

An id is a generation, counted in steps of `1 << ENVGENSHIFT`, and the
index of the slot. The generation is kept in the freed slot, so that the
next environment of the slot gets the next one, until the addition
overflows into the sign bit and starts again at 1: the ids of a slot go
round a cycle of `2^19 - 1`. `idAt` is that cycle, and the invariant says
that a slot that was allocated `n` times stands at place `n - 1` of it.
-/
import Mathlib.Algebra.Group.Nat.Defs
import SistemasOperativos.Kern.KernelTheorems

namespace SistemasOperativos.Kern

/-! ## The specification -/

/-- What leaves ids, allocation and the free list alone. -/
structure Quiet (k k' : Kernel) : Prop where
  list : k'.envFreeList = k.envFreeList
  id : ∀ e, (k'.envs e).envId = (k.envs e).envId
  free : ∀ e, (k'.envs e).envStatus = .free ↔ (k.envs e).envStatus = .free

/-- The runs of `env_alloc` and `env_free` from `env_init` on, with the
allocations in order, each with its slot and its id. Other code may run in
between. -/
inductive EnvLife (k₀ : Kernel) : List (EnvIdx × Int) → Kernel → Prop where
  | init : EnvLife k₀ [] (envInit k₀)
  | alloc {log : List (EnvIdx × Int)} {k k' : Kernel} {parentId : Int} {e : EnvIdx} :
      EnvLife k₀ log k → envAlloc k parentId = .ok (e, k') →
      EnvLife k₀ (log ++ [(e, (k'.envs e).envId)]) k'
  | free {log : List (EnvIdx × Int)} {k k' : Kernel} {e : EnvIdx} :
      EnvLife k₀ log k → (k.envs e).envStatus ≠ .free → envFree k e = .ok k' →
      EnvLife k₀ log k'
  | other {log : List (EnvIdx × Int)} {k k' : Kernel} :
      EnvLife k₀ log k → Quiet k k' → EnvLife k₀ log k'

/-- The ids that slot `e` has been given. -/
def idsOf (e : EnvIdx) (log : List (EnvIdx × Int)) : List Int :=
  log.filterMap (fun a => if a.1 = e then some a.2 else none)

/-- The generations: those of 19 bits but 0. -/
abbrev generations : Nat := 2 ^ 19 - 1

/-! ## The cycle of the ids of a slot -/

/-- The id of the `i`-th environment of slot `e`. -/
def idAt (e : EnvIdx) (i : Nat) : Int := 4096 * ((i % 524287 : Nat) + 1) + e

theorem nextEnvId_zero (e : EnvIdx) : nextEnvId 0 e = idAt e 0 := by
  simp [nextEnvId, idAt, toInt32]

/-- The overflow: after the last generation comes the first. -/
theorem nextEnvId_idAt (e : EnvIdx) (i : Nat) : nextEnvId (idAt e i) e = idAt e (i + 1) := by
  have he : (e : Nat) < 1024 := e.isLt
  have hmod := Nat.mod_lt i (by decide : 524287 > 0)
  unfold nextEnvId
  dsimp only
  by_cases hlast : i % 524287 = 524286
  · have hsucc : (i + 1) % 524287 = 0 := by omega
    have hover : toInt32 (idAt e i + 4096) / 1024 * 1024 = -2147483648 := by
      simp only [toInt32, idAt, hlast]
      omega
    rw [hover, if_pos (by decide), idAt, hsucc]
    rfl
  · have hsucc : (i + 1) % 524287 = i % 524287 + 1 := by omega
    have hnext : toInt32 (idAt e i + 4096) / 1024 * 1024 = 4096 * ((i % 524287 : Nat) + 2) := by
      simp only [toInt32, idAt]
      omega
    rw [hnext, if_neg (by omega), idAt, hsucc]
    omega

theorem idAt_pos (e : EnvIdx) (i : Nat) : 0 < idAt e i := by
  unfold idAt
  omega

theorem envx_idAt (e : EnvIdx) (i : Nat) : envx (idAt e i) = e := by
  have he := e.isLt
  simp only [envx, idAt, Fin.ext_iff, nenv] at *
  omega

/-- Fewer than `2^19 - 1` steps do not come back. -/
theorem idAt_ne {e : EnvIdx} {i j : Nat} (hlt : i < j) (hnear : j - i < generations) :
    idAt e i ≠ idAt e j := by
  simp only [idAt, generations] at *
  omega

/-! ## One step -/

/-- The free list is the free slots, each once; slot `e` has been given
the first ids of its cycle, and holds the last of them. -/
structure FreshIds (log : List (EnvIdx × Int)) (k : Kernel) : Prop where
  nodup : k.envFreeList.Nodup
  free : ∀ e, e ∈ k.envFreeList ↔ (k.envs e).envStatus = .free
  ids : ∀ e, idsOf e log = (List.range (idsOf e log).length).map (idAt e)
  unborn : ∀ e, idsOf e log = [] → (k.envs e).envId = 0 ∧ (k.envs e).envStatus = .free
  last : ∀ e n, (idsOf e log).length = n + 1 → (k.envs e).envId = idAt e n

variable {k₀ k k' : Kernel} {log : List (EnvIdx × Int)} {e : EnvIdx}

theorem idsOf_snoc (e j : EnvIdx) (id : Int) (log : List (EnvIdx × Int)) :
    idsOf j (log ++ [(e, id)]) = if e = j then idsOf j log ++ [id] else idsOf j log := by
  by_cases h : e = j
  · simp [idsOf, List.filterMap_append, h]
  · simp [idsOf, List.filterMap_append, h]

theorem FreshIds.init (k : Kernel) : FreshIds [] (envInit k) where
  nodup := by
    simp only [envInit]
    exact List.nodup_finRange nenv
  free e := by simp [envInit]
  ids e := by simp [idsOf]
  unborn e _ := by simp [envInit]
  last e n h := by simp [idsOf] at h

/-- The id that the next environment of a slot gets. -/
theorem FreshIds.nextEnvId_eq (h : FreshIds log k) (e : EnvIdx) :
    nextEnvId (k.envs e).envId e = idAt e (idsOf e log).length := by
  cases hlen : (idsOf e log).length with
  | zero => rw [(h.unborn e (List.length_eq_zero_iff.mp hlen)).1, nextEnvId_zero]
  | succ n => rw [h.last e n hlen, nextEnvId_idAt]

theorem FreshIds.alloc (h : FreshIds log k) {parentId : Int}
    (halloc : envAlloc k parentId = .ok (e, k')) :
    FreshIds (log ++ [(e, (k'.envs e).envId)]) k' := by
  obtain ⟨rest, pgdir, mem, hlist, -, rfl⟩ := envAlloc_ok halloc
  have hnodup := h.nodup
  rw [hlist, List.nodup_cons] at hnodup
  have hid : (freshEnv e parentId pgdir (k.envs e)).envId = idAt e (idsOf e log).length :=
    h.nextEnvId_eq e
  simp only [Kernel.modifyEnv_self]
  rw [hid]
  refine ⟨hnodup.2, ?_, ?_, ?_, ?_⟩
  · intro j
    have hmem := h.free j
    rw [hlist, List.mem_cons] at hmem
    by_cases hj : j = e
    · subst hj
      simp [hnodup.1, freshEnv]
    · simpa [hj] using hmem
  · intro j
    rw [idsOf_snoc]
    by_cases hj : e = j
    · subst hj
      rw [if_pos rfl, List.length_append, List.length_singleton, List.range_succ,
        List.map_append, ← h.ids e]
      rfl
    · rw [if_neg hj]
      exact h.ids j
  · intro j hnil
    rw [idsOf_snoc] at hnil
    by_cases hj : e = j
    · rw [if_pos hj] at hnil
      simp at hnil
    · rw [if_neg hj] at hnil
      rw [Kernel.modifyEnv_of_ne _ _ (Ne.symm hj)]
      exact h.unborn j hnil
  · intro j n hlen
    rw [idsOf_snoc] at hlen
    by_cases hj : e = j
    · subst hj
      rw [if_pos rfl, List.length_append, List.length_singleton] at hlen
      obtain rfl : (idsOf e log).length = n := by omega
      rw [Kernel.modifyEnv_self]
      exact hid
    · rw [if_neg hj] at hlen
      rw [Kernel.modifyEnv_of_ne _ _ (Ne.symm hj)]
      exact h.last j n hlen

theorem FreshIds.freed (h : FreshIds log k) (hlive : (k.envs e).envStatus ≠ .free)
    (hfree : envFree k e = .ok k') : FreshIds log k' := by
  obtain ⟨mem, rfl⟩ := envFree_ok hfree
  have hid : ∀ j, ((({ k with mem := mem, envFreeList := e :: k.envFreeList } : Kernel).modifyEnv e
      (fun v => { v with envPgdir := none, envStatus := .free })).envs j).envId =
        (k.envs j).envId := by
    intro j
    rw [Kernel.modifyEnv_apply]
    split <;> rfl
  refine ⟨?_, ?_, h.ids, ?_, ?_⟩
  · exact List.nodup_cons.mpr ⟨fun hmem => hlive ((h.free e).mp hmem), h.nodup⟩
  · intro j
    have hmem := h.free j
    by_cases hj : j = e
    · subst hj
      simp
    · simpa [hj] using hmem
  · intro j hnil
    refine ⟨by rw [hid, (h.unborn j hnil).1], ?_⟩
    rw [Kernel.modifyEnv_apply]
    split
    · rfl
    · exact (h.unborn j hnil).2
  · intro j n hlen
    rw [hid, h.last j n hlen]

theorem FreshIds.quiet (h : FreshIds log k) (hq : Quiet k k') : FreshIds log k' where
  nodup := by
    rw [hq.list]
    exact h.nodup
  free e := by
    rw [hq.list, hq.free]
    exact h.free e
  ids := h.ids
  unborn e hnil := by
    rw [hq.id, hq.free]
    exact h.unborn e hnil
  last e n hlen := by
    rw [hq.id]
    exact h.last e n hlen

/-! ## Whole runs -/

theorem EnvLife.freshIds (hrun : EnvLife k₀ log k) : FreshIds log k := by
  induction hrun with
  | init => exact FreshIds.init k₀
  | alloc _ halloc ih => exact ih.alloc halloc
  | free _ hlive hfree ih => exact ih.freed hlive hfree
  | other _ hq ih => exact ih.quiet hq

/-- An allocated environment holds the last id of its slot. -/
theorem FreshIds.live_id (h : FreshIds log k) (hlive : (k.envs e).envStatus ≠ .free) :
    ∃ n, (idsOf e log).length = n + 1 ∧ (k.envs e).envId = idAt e n := by
  cases hlen : (idsOf e log).length with
  | zero => exact absurd (h.unborn e (List.length_eq_zero_iff.mp hlen)).2 hlive
  | succ n => exact ⟨n, rfl, h.last e n hlen⟩

theorem FreshIds.getElem?_idsOf (h : FreshIds log k) {i : Nat} (hi : i < (idsOf e log).length) :
    (idsOf e log)[i]? = some (idAt e i) := by
  rw [h.ids e, List.getElem?_map, List.getElem?_range hi]
  rfl

/-- The id of a dead environment is refused while its slot has not come
round. -/
theorem FreshIds.envid2env_dead (h : FreshIds log k) {i : Nat}
    (hdead : (k.envs e).envStatus = .free ∨ i + 1 < (idsOf e log).length)
    (hnear : (idsOf e log).length - 1 - i < generations) (cur : EnvIdx) (checkperm : Bool) :
    envid2env k cur (idAt e i) checkperm = none := by
  have hpos := idAt_pos e i
  rw [envid2env, if_neg (by omega)]
  dsimp only
  rw [envx_idAt, if_pos]
  by_cases hfree : (k.envs e).envStatus = .free
  · exact Or.inl hfree
  · obtain ⟨n, hlen, hid⟩ := h.live_id hfree
    refine Or.inr ?_
    rw [hid]
    have hlater : i + 1 < (idsOf e log).length := hdead.resolve_left hfree
    exact (idAt_ne (by omega) (by omega)).symm

/-- **Ids are fresh.** The free list is the free slots; ids of allocated
environments are positive and carry their slot; the ids of a slot repeat
after `2^19 - 1` allocations at the earliest, and the id of a dead
environment is refused until then. -/
theorem env_ids_fresh (hrun : EnvLife k₀ log k) :
    (k.envFreeList.Nodup ∧ ∀ e, e ∈ k.envFreeList ↔ (k.envs e).envStatus = .free) ∧
    (∀ e, (k.envs e).envStatus ≠ .free →
      0 < (k.envs e).envId ∧ envx (k.envs e).envId = e) ∧
    (∀ e e', (k.envs e).envStatus ≠ .free → (k.envs e').envStatus ≠ .free →
      (k.envs e).envId = (k.envs e').envId → e = e') ∧
    (∀ e i j, i < j → j < (idsOf e log).length → j - i < 2 ^ 19 - 1 →
      (idsOf e log)[i]? ≠ (idsOf e log)[j]?) ∧
    ∀ e i id, (idsOf e log)[i]? = some id →
      ((k.envs e).envStatus = .free ∨ i + 1 < (idsOf e log).length) →
      (idsOf e log).length - 1 - i < 2 ^ 19 - 1 →
      ∀ cur checkperm, envid2env k cur id checkperm = none := by
  have h := hrun.freshIds
  have hlive : ∀ e, (k.envs e).envStatus ≠ .free →
      0 < (k.envs e).envId ∧ envx (k.envs e).envId = e := by
    intro e he
    obtain ⟨n, -, hid⟩ := h.live_id he
    rw [hid]
    exact ⟨idAt_pos e n, envx_idAt e n⟩
  refine ⟨⟨h.nodup, h.free⟩, hlive, ?_, ?_, ?_⟩
  · intro e e' he he' heq
    rw [← (hlive e he).2, heq, (hlive e' he').2]
  · intro e i j hij hj hnear
    rw [h.getElem?_idsOf (by omega), h.getElem?_idsOf hj]
    intro heq
    exact idAt_ne hij hnear (Option.some.inj heq)
  · intro e i id hget hdead hnear cur checkperm
    have hi := (List.getElem?_eq_some_iff.mp hget).1
    rw [h.getElem?_idsOf hi, Option.some.injEq] at hget
    rw [← hget]
    exact h.envid2env_dead hdead hnear cur checkperm

/-- Two pages are free. -/
def smallBoot : Kernel where
  envs _ := {}
  envFreeList := []
  mem := { npages := 3, kernPgdir := 0, frames := fun _ _ => 0, ppRef := fun _ => 0,
           pageFreeList := [1, 2] }

/-- An environment is created and freed. -/
def oneLife : Except Panic (EnvIdx × Int × Kernel) :=
  match envAlloc (envInit smallBoot) 0 with
  | .error _ => .error .nullPgdir
  | .ok (e, k) => do
      let k' ← envFree k e
      return (e, (k.envs e).envId, k')

theorem oneLife_life {id : Int} (h : oneLife = .ok (e, id, k)) :
    EnvLife smallBoot [(e, id)] k ∧ (k.envs e).envStatus = .free := by
  unfold oneLife at h
  split at h
  · cases h
  · rename_i e' k₁ halloc
    rw [bind_ok] at h
    obtain ⟨k₂, hfree, h⟩ := h
    cases h
    have hborn := EnvLife.init.alloc halloc
    have hlive : (k₁.envs e).envStatus ≠ .free := by
      obtain ⟨rest, pgdir, mem, -, -, rfl⟩ := envAlloc_ok halloc
      simp [freshEnv]
    refine ⟨hborn.free hlive hfree, ?_⟩
    obtain ⟨mem, rfl⟩ := envFree_ok hfree
    simp

/-- The first id is 4096, and it is refused once its owner is dead. -/
theorem env_ids_fresh_once : ∃ k, EnvLife smallBoot [(0, 4096)] k ∧
    ∀ cur checkperm, envid2env k cur 4096 checkperm = none := by
  obtain ⟨⟨e, id, k⟩, hrun, hvalues⟩ := eval_ok (x := oneLife) (f := fun r => (r.1, r.2.1))
    (v := (0, 4096)) (by decide +kernel)
  cases hvalues
  obtain ⟨hlife, hfree⟩ := oneLife_life hrun
  obtain ⟨-, -, -, -, hdead⟩ := env_ids_fresh hlife
  exact ⟨k, hlife, hdead 0 0 4096 rfl (Or.inl hfree) (by decide)⟩

end SistemasOperativos.Kern
