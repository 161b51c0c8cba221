/-
SistemasOperativos.Lib.Serial — critical sections under one lock.

Threads with a state of their own share a state that only the owner of
the lock may read or write. A section is taken in small steps, and the
steps of different threads interleave in any order; threads outside do
not touch the shared state. Every interleaved run is then a run of whole
sections, one after another, in the order in which the lock was released
(`Run.serial`); a section that is still open has been working on the
state that the last whole section left (`Pending`). A section carries a
label, and the log of a run says which thread left which section.
-/
import Mathlib.Logic.Function.Basic
import Mathlib.Logic.Relation

namespace Serial

/-- What a section is made of: taking the lock, the steps inside, and
releasing it, which tells the label. -/
structure Sections (ι ℓ σ τ : Type*) where
  enter : ι → τ → τ → Prop
  work : ι → τ × σ → τ × σ → Prop
  leave : ι → ℓ → τ → τ → Prop

/-- The lock, the shared state and the threads. -/
structure State (ι σ τ : Type*) where
  owner : Option ι
  shared : σ
  thread : ι → τ

variable {ι ℓ σ τ : Type*} [DecidableEq ι]

/-- One interleaved step, with the section that ends in it. -/
inductive Step (S : Sections ι ℓ σ τ) : State ι σ τ → List (ι × ℓ) → State ι σ τ → Prop where
  | enter {s : State ι σ τ} {c : ι} {t : τ} (hfree : s.owner = none)
      (h : S.enter c (s.thread c) t) :
      Step S s [] { s with owner := some c, thread := Function.update s.thread c t }
  | work {s : State ι σ τ} {c : ι} {t : τ} {x : σ} (hown : s.owner = some c)
      (h : S.work c (s.thread c, s.shared) (t, x)) :
      Step S s [] { s with shared := x, thread := Function.update s.thread c t }
  | leave {s : State ι σ τ} {c : ι} {ev : ℓ} {t : τ} (hown : s.owner = some c)
      (h : S.leave c ev (s.thread c) t) :
      Step S s [(c, ev)] { s with owner := none, thread := Function.update s.thread c t }

/-- A run, with the sections that have ended, in order. -/
inductive Run (S : Sections ι ℓ σ τ) (s₀ : State ι σ τ) :
    List (ι × ℓ) → State ι σ τ → Prop where
  | refl : Run S s₀ [] s₀
  | step {s s' : State ι σ τ} {log new : List (ι × ℓ)} (hrun : Run S s₀ log s) (h : Step S s new s') :
      Run S s₀ (log ++ new) s'

/-- The shared state and the threads, when no section is open. -/
abbrev Config (ι σ τ : Type*) := σ × (ι → τ)

/-- The steps `c` has made inside its section. -/
def Inside (S : Sections ι ℓ σ τ) (c : ι) (p : Config ι σ τ) (t : τ) (x : σ) : Prop :=
  ∃ t₁, S.enter c (p.2 c) t₁ ∧ Relation.ReflTransGen (S.work c) (t₁, p.1) (t, x)

/-- A whole section of `c`, as one step. -/
def Atomic (S : Sections ι ℓ σ τ) (c : ι) (ev : ℓ) (p q : Config ι σ τ) : Prop :=
  ∃ t t', Inside S c p t q.1 ∧ S.leave c ev t t' ∧ q.2 = Function.update p.2 c t'

/-- Whole sections, one after another. -/
inductive AtomicRun (S : Sections ι ℓ σ τ) (p₀ : Config ι σ τ) :
    List (ι × ℓ) → Config ι σ τ → Prop where
  | refl : AtomicRun S p₀ [] p₀
  | step {p q : Config ι σ τ} {log : List (ι × ℓ)} {c : ι} {ev : ℓ} (hrun : AtomicRun S p₀ log p)
      (h : Atomic S c ev p q) : AtomicRun S p₀ (log ++ [(c, ev)]) q

/-- What an interleaved state adds to the state `p` between two sections. -/
def Pending (S : Sections ι ℓ σ τ) (p : Config ι σ τ) (s : State ι σ τ) : Prop :=
  match s.owner with
  | none => p = (s.shared, s.thread)
  | some c => (∀ d, d ≠ c → p.2 d = s.thread d) ∧ Inside S c p (s.thread c) s.shared

/-- One interleaved step: either the section that is open goes on, or it
ends and becomes a step of the atomic run. -/
theorem Step.pending {S : Sections ι ℓ σ τ} {s s' : State ι σ τ} {new : List (ι × ℓ)}
    {p : Config ι σ τ} (h : Step S s new s') (hp : Pending S p s) :
    (new = [] ∧ Pending S p s') ∨
      ∃ c ev q, new = [(c, ev)] ∧ Atomic S c ev p q ∧ Pending S q s' := by
  cases h with
  | @enter c t hfree h =>
    simp only [Pending, hfree] at hp
    subst hp
    refine .inl ⟨rfl, ?_⟩
    show (∀ d, d ≠ c → s.thread d = Function.update s.thread c t d) ∧ _
    refine ⟨fun d hd => by simp [hd], t, h, ?_⟩
    simp only [Function.update_self]
    exact .refl
  | @work c t x hown h =>
    simp only [Pending, hown] at hp
    obtain ⟨hothers, t₁, henter, hwork⟩ := hp
    refine .inl ⟨rfl, ?_⟩
    simp only [Pending, hown]
    refine ⟨fun d hd => by rw [hothers d hd, Function.update_of_ne hd], t₁, henter, ?_⟩
    rw [Function.update_self]
    exact hwork.tail h
  | @leave c ev t hown h =>
    simp only [Pending, hown] at hp
    obtain ⟨hothers, hinside⟩ := hp
    refine .inr ⟨c, ev, (s.shared, Function.update s.thread c t), rfl, ?_, rfl⟩
    refine ⟨s.thread c, t, hinside, h, ?_⟩
    funext d
    by_cases hd : d = c
    · subst hd
      simp
    · simp [hd, hothers d hd]

/-- Every interleaved run is a run of whole sections, in the order in
which they ended. -/
theorem Run.serial {S : Sections ι ℓ σ τ} {s₀ s : State ι σ τ} {log : List (ι × ℓ)}
    (h : Run S s₀ log s) (hfree : s₀.owner = none) :
    ∃ p, AtomicRun S (s₀.shared, s₀.thread) log p ∧ Pending S p s := by
  induction h with
  | refl =>
    refine ⟨_, .refl, ?_⟩
    simp only [Pending, hfree]
  | step hrun hstep ih =>
    obtain ⟨p, hp, hpending⟩ := ih
    obtain ⟨rfl, hpending'⟩ | ⟨c, ev, q, rfl, hatomic, hpending'⟩ := hstep.pending hpending
    · exact ⟨p, by rwa [List.append_nil], hpending'⟩
    · exact ⟨q, hp.step hatomic, hpending'⟩

end Serial
