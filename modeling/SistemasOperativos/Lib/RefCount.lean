/-
SistemasOperativos.Lib.RefCount — reference counting in a pool of objects.

Slots refer to objects, each object has a count, and the objects that
nothing refers to are kept in a free list. The counts are right when each
is the number of slots that refer to the object, with one more for an
object that has been counted and is about to be stored (`held`). Some
slots are marked as owners: what an owner refers to, nothing else does.
-/
import Mathlib.Data.Set.Card
import Mathlib.Data.Set.Finite.Range

namespace RefCount

variable {ι α : Type*}

/-! ## Counting references -/

/-- How many slots refer to `p`. -/
noncomputable def uses (target : ι → Option α) (p : α) : Nat := Set.ncard {s | target s = some p}

section Uses

variable [Finite ι] {target : ι → Option α} {s : ι} {p : α}

theorem uses_eq_zero : uses target p = 0 ↔ ∀ s, target s ≠ some p := by
  rw [uses, Set.ncard_eq_zero, Set.eq_empty_iff_forall_notMem]
  rfl

theorem uses_pos (h : target s = some p) : 0 < uses target p := by
  rw [Nat.pos_iff_ne_zero, ne_eq, uses_eq_zero]
  exact fun hnone => hnone s h

/-- Distinct slots that all refer to `p`. -/
theorem card_le_uses {κ : Type*} [Finite κ] {f : κ → ι} (hf : Function.Injective f)
    (h : ∀ x, target (f x) = some p) : Nat.card κ ≤ uses target p := by
  have hrange : (Set.range f).ncard = Nat.card κ := by
    rw [← Set.image_univ, Set.ncard_image_of_injective _ hf, Set.ncard_univ]
  rw [← hrange]
  refine Set.ncard_le_ncard ?_
  rintro s ⟨x, rfl⟩
  exact h x

omit [Finite ι] in
/-- All the slots that refer to `p` are among these. -/
theorem uses_le_card {κ : Type*} [Finite κ] {f : κ → ι}
    (h : ∀ s, target s = some p → ∃ x, f x = s) : uses target p ≤ Nat.card κ := by
  calc uses target p ≤ (Set.range f).ncard :=
        Set.ncard_le_ncard (fun s hs => h s hs) (Set.finite_range f)
    _ ≤ (Set.univ : Set κ).ncard := by
        rw [← Set.image_univ]
        exact Set.ncard_image_le
    _ = Nat.card κ := Set.ncard_univ κ

variable [DecidableEq ι] [DecidableEq α]

theorem uses_update_some (h : target s = none) (q : α) :
    uses (Function.update target s (some p)) q = uses target q + if q = p then 1 else 0 := by
  by_cases hq : q = p
  · subst hq
    have hset : {i | Function.update target s (some q) i = some q}
        = insert s {i | target i = some q} := by
      ext i
      by_cases hi : i = s
      · subst hi
        simp
      · simp [hi]
    rw [uses, hset, Set.ncard_insert_of_notMem (by simp [h]), if_pos rfl, uses]
  · have hset : {i | Function.update target s (some p) i = some q} = {i | target i = some q} := by
      ext i
      by_cases hi : i = s
      · subst hi
        simp [h, Ne.symm hq]
      · simp [hi]
    rw [uses, hset, if_neg hq, Nat.add_zero, uses]

theorem uses_update_none (h : target s = some p) (q : α) :
    uses (Function.update target s none) q + (if q = p then 1 else 0) = uses target q := by
  have hback : Function.update (Function.update target s none) s (some p) = target := by
    rw [Function.update_idem, ← h, Function.update_eq_self]
  have hclear : Function.update target s none s = none := Function.update_self s none target
  have hadd := uses_update_some (p := p) hclear q
  rw [hback] at hadd
  exact hadd.symm

end Uses

/-! ## Pools -/

structure Pool (ι α : Type*) where
  target : ι → Option α
  held : Option α
  ref : α → Nat
  free : List α

variable [DecidableEq α]

/-- What the held object adds to the count of `p`. -/
def heldCount : Option α → α → Nat
  | none, _ => 0
  | some q, p => if p = q then 1 else 0

@[simp] theorem heldCount_none (p : α) : heldCount none p = 0 := rfl

@[simp] theorem heldCount_some (q p : α) : heldCount (some q) p = if p = q then 1 else 0 := rfl

/-- The pool's counts are right. `M` are the objects it manages, and
`owner` the slots that share with nobody. -/
structure Pool.Sound (M : α → Prop) (owner : ι → Prop) (x : Pool ι α) : Prop where
  managed : ∀ s p, x.target s = some p → M p
  held : ∀ p, x.held = some p → M p
  exclusive : ∀ s s' p, owner s → x.target s = some p → x.target s' = some p → s' = s
  free : ∀ p ∈ x.free, M p ∧ x.ref p = 0
  nodup : x.free.Nodup
  count : ∀ p, M p → x.ref p = uses x.target p + heldCount x.held p

variable {M : α → Prop} {owner : ι → Prop} {x : Pool ι α} {s : ι} {p : α}

/-- Taking the first free object. -/
theorem Pool.Sound.take (h : x.Sound M owner) {rest : List α} (hfree : x.free = p :: rest) :
    ({ x with free := rest } : Pool ι α).Sound M owner where
  managed := h.managed
  held := h.held
  exclusive := h.exclusive
  free := by
    intro q hq
    exact h.free q (by rw [hfree]; exact List.mem_cons_of_mem _ hq)
  nodup := by
    have := h.nodup
    rw [hfree] at this
    exact (List.nodup_cons.mp this).2
  count := h.count

/-- A count goes up before the reference is stored. -/
def Pool.pin (x : Pool ι α) (p : α) : Pool ι α :=
  { x with held := some p, ref := Function.update x.ref p (x.ref p + 1) }

theorem Pool.Sound.pin (h : x.Sound M owner) (hheld : x.held = none) (hM : M p)
    (hfree : p ∉ x.free) : (x.pin p).Sound M owner where
  managed := h.managed
  held := by
    intro q hq
    cases hq
    exact hM
  exclusive := h.exclusive
  free := by
    intro q hq
    have hne : q ≠ p := by
      rintro rfl
      exact hfree hq
    refine ⟨(h.free q hq).1, ?_⟩
    simp only [Pool.pin]
    rw [Function.update_of_ne hne]
    exact (h.free q hq).2
  nodup := h.nodup
  count := by
    intro q hq
    have hc := h.count q hq
    rw [hheld, heldCount_none] at hc
    simp only [Pool.pin, heldCount_some]
    by_cases hqp : q = p
    · subst hqp
      rw [Function.update_self, if_pos rfl, hc]
    · rw [Function.update_of_ne hqp, if_neg hqp, hc]

section Sound

variable [Finite ι]

/-- The counted reference is stored. -/
def Pool.attach [DecidableEq ι] (x : Pool ι α) (s : ι) (p : α) : Pool ι α :=
  { x with target := Function.update x.target s (some p), held := none }

/-- A reference is dropped; the last one frees the object. -/
def Pool.detach [DecidableEq ι] (x : Pool ι α) (s : ι) (p : α) : Pool ι α :=
  { x with
    target := Function.update x.target s none
    ref := Function.update x.ref p (x.ref p - 1)
    free := if x.ref p = 1 then p :: x.free else x.free }

theorem Pool.Sound.ref_pos (h : x.Sound M owner) (hs : x.target s = some p) : 0 < x.ref p := by
  rw [h.count p (h.managed s p hs)]
  have := uses_pos hs
  omega

/-- Nothing refers to a free object. -/
theorem Pool.Sound.unused_of_free (h : x.Sound M owner) (hp : p ∈ x.free) :
    x.target s ≠ some p := by
  intro hs
  have hpos := h.ref_pos hs
  rw [(h.free p hp).2] at hpos
  omega

theorem Pool.Sound.notMem_free (h : x.Sound M owner) (hs : x.target s = some p) : p ∉ x.free :=
  fun hp => h.unused_of_free hp hs

/-- An object that no owner refers to may be stored anywhere, and in an
owner if nothing refers to it at all. -/
theorem Pool.Sound.attach [DecidableEq ι] (h : x.Sound M owner) (hheld : x.held = some p)
    (hnone : x.target s = none) (hleaf : ∀ s', owner s' → x.target s' ≠ some p)
    (hown : owner s → ∀ s', x.target s' ≠ some p) : (x.attach s p).Sound M owner where
  managed := by
    intro s' q hs'
    simp only [Pool.attach] at hs'
    by_cases hss : s' = s
    · subst hss
      rw [Function.update_self] at hs'
      cases hs'
      exact h.held p hheld
    · rw [Function.update_of_ne hss] at hs'
      exact h.managed s' q hs'
  held := by
    intro q hq
    cases hq
  exclusive := by
    intro s₁ s₂ q how h₁ h₂
    simp only [Pool.attach, Function.update_apply] at h₁ h₂
    split at h₁
    · rename_i hs₁
      subst hs₁
      cases h₁
      split at h₂
      · assumption
      · exact absurd h₂ (hown how s₂)
    · split at h₂
      · cases h₂
        exact absurd h₁ (hleaf s₁ how)
      · exact h.exclusive s₁ s₂ q how h₁ h₂
  free := h.free
  nodup := h.nodup
  count := by
    intro q hq
    have hc := h.count q hq
    simp only [Pool.attach, heldCount_none]
    rw [uses_update_some hnone, Nat.add_zero, hc, hheld, heldCount_some]

theorem Pool.Sound.detach [DecidableEq ι] (h : x.Sound M owner) (hs : x.target s = some p) :
    (x.detach s p).Sound M owner where
  managed := by
    intro s' q hs'
    simp only [Pool.detach, Function.update_apply] at hs'
    split at hs'
    · cases hs'
    · exact h.managed s' q hs'
  held := h.held
  exclusive := by
    intro s₁ s₂ q how h₁ h₂
    simp only [Pool.detach, Function.update_apply] at h₁ h₂
    split at h₁
    · cases h₁
    · split at h₂
      · cases h₂
      · exact h.exclusive s₁ s₂ q how h₁ h₂
  free := by
    intro q hq
    simp only [Pool.detach] at hq ⊢
    by_cases hqp : q = p
    · subst hqp
      refine ⟨h.managed s q hs, ?_⟩
      rw [Function.update_self]
      split at hq
      · omega
      · exact absurd hq (h.notMem_free hs)
    · rw [Function.update_of_ne hqp]
      split at hq
      · exact h.free q ((List.mem_cons.mp hq).resolve_left hqp)
      · exact h.free q hq
  nodup := by
    simp only [Pool.detach]
    split
    · exact List.nodup_cons.mpr ⟨h.notMem_free hs, h.nodup⟩
    · exact h.nodup
  count := by
    intro q hq
    have hc := h.count q hq
    have hu := uses_update_none hs q
    have hpos := h.ref_pos hs
    simp only [Pool.detach]
    by_cases hqp : q = p
    · subst hqp
      rw [if_pos rfl] at hu
      rw [Function.update_self]
      omega
    · rw [if_neg hqp] at hu
      rw [Function.update_of_ne hqp]
      omega

end Sound

end RefCount
