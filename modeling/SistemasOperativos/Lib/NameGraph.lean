/-
SistemasOperativos.Lib.NameGraph — directory graphs.

A `NameGraph` is what any hierarchical name space looks like from above:
nodes, some of them live, some of them directories, and for every node
the list of its named entries. `Wf` says that it is a tree of directories
with leaves that may have several names: the entries of directories lead
to live nodes, every directory has one name, everything live is reached
from the root and nothing is reached from itself.

There are two operations, `addEntry` and `removeEntry`. The node an entry
is added for, or removed from, is a leaf in both, and a path can only end
in a leaf: that is the whole argument for reachability and for the
absence of cycles (`transGen_off_leaf`).
-/
import Mathlib.Logic.Relation
import Mathlib.Algebra.BigOperators.Group.Finset.Basic
import Mathlib.Algebra.BigOperators.Group.Finset.Piecewise
import Mathlib.Algebra.Order.BigOperators.Group.Finset

/-! ## Paths and leaves -/

section Leaf

variable {α : Type*} {r r' : α → α → Prop} {i a b : α}

open Relation

/-- Two relations that agree on the edges not into the leaf `i` have the
same paths to everything else. -/
theorem transGen_off_leaf (hagree : ∀ a b, b ≠ i → r a b → r' a b) (hleaf : ∀ b, ¬ r i b)
    (h : TransGen r a b) (hb : b ≠ i) : TransGen r' a b := by
  induction h with
  | single h => exact .single (hagree _ _ hb h)
  | tail _ hbc ih =>
      -- the node before the last edge has an outgoing edge, so it is no leaf
      exact .tail (ih (fun hi => hleaf _ (hi ▸ hbc))) (hagree _ _ hb hbc)

theorem reflTransGen_off_leaf (hagree : ∀ a b, b ≠ i → r a b → r' a b) (hleaf : ∀ b, ¬ r i b)
    (h : ReflTransGen r a b) (hb : b ≠ i) : ReflTransGen r' a b := by
  rcases reflTransGen_iff_eq_or_transGen.mp h with rfl | h
  · exact .refl
  · exact (transGen_off_leaf hagree hleaf h hb).to_reflTransGen

end Leaf

structure NameGraph (ι ν : Type*) where
  root : ι
  live : ι → Prop
  isDir : ι → Prop
  entries : ι → List (ν × ι)

namespace NameGraph

variable {ι ν : Type*}

open Relation

/-! ## Well-formedness -/

/-- Some entry of `d` leads to `i`. -/
def Edge (g : NameGraph ι ν) (d i : ι) : Prop := i ∈ (g.entries d).map Prod.snd

/-- The number of entries that lead to `i`. -/
def names [Fintype ι] [DecidableEq ι] (g : NameGraph ι ν) (i : ι) : Nat :=
  ∑ d, ((g.entries d).map Prod.snd).count i

structure Wf [Fintype ι] [DecidableEq ι] (g : NameGraph ι ν) : Prop where
  rootDir : g.isDir g.root
  dirLive : ∀ {i}, g.isDir i → g.live i
  dirOfEdge : ∀ {d i}, g.Edge d i → g.isDir d
  targetLive : ∀ {d i}, g.Edge d i → g.live i
  targetNeRoot : ∀ {d i}, g.Edge d i → i ≠ g.root
  once : ∀ {i}, g.isDir i → g.names i ≤ 1
  reach : ∀ {i}, g.live i → ReflTransGen g.Edge g.root i
  acyclic : ∀ i, ¬ TransGen g.Edge i i

theorem edge_of_mem {g : NameGraph ι ν} {d i : ι} {n : ν} (h : (n, i) ∈ g.entries d) :
    g.Edge d i := List.mem_map.mpr ⟨(n, i), h, rfl⟩

variable [Fintype ι] [DecidableEq ι] {g : NameGraph ι ν} {d i : ι} {n : ν}

theorem names_pos_iff : 0 < g.names i ↔ ∃ d, g.Edge d i := by
  unfold names Edge
  rw [Finset.sum_pos_iff]
  simp [List.count_pos_iff]

theorem Wf.no_entries (hg : g.Wf) (hi : ¬ g.isDir i) : g.entries i = [] := by
  cases h : g.entries i with
  | nil => rfl
  | cons e l =>
      have : g.Edge i e.2 := edge_of_mem (n := e.1) (by rw [h]; simp)
      exact absurd (hg.dirOfEdge this) hi

/-- Live nodes are the root and the nodes with a name. -/
theorem Wf.live_iff (hg : g.Wf) : g.live i ↔ i = g.root ∨ ∃ d, g.Edge d i := by
  constructor
  · intro h
    rcases (hg.reach h).cases_tail with h | ⟨d, -, he⟩
    · exact Or.inl h
    · exact Or.inr ⟨d, he⟩
  · rintro (rfl | ⟨d, he⟩)
    · exact hg.dirLive hg.rootDir
    · exact hg.targetLive he

theorem Wf.names_dir (hg : g.Wf) (hi : g.isDir i) (hr : i ≠ g.root) : g.names i = 1 := by
  have hpos : 0 < g.names i := by
    rcases hg.live_iff.mp (hg.dirLive hi) with h | h
    · exact absurd h hr
    · exact names_pos_iff.mpr h
  have := hg.once hi
  omega

/-! ## Counting names -/

/-- The number of names when one directory is replaced. -/
theorem names_update (g : NameGraph ι ν) (live isDir : ι → Prop) (d : ι) (l : List (ν × ι))
    (i : ι) :
    names { g with live := live, isDir := isDir, entries := Function.update g.entries d l } i
      + ((g.entries d).map Prod.snd).count i = g.names i + (l.map Prod.snd).count i := by
  unfold names
  have hnew := Finset.sum_update_of_mem (Finset.mem_univ d)
    (fun x => ((g.entries x).map Prod.snd).count i) ((l.map Prod.snd).count i)
  have hold := Finset.sum_update_of_mem (Finset.mem_univ d)
    (fun x => ((g.entries x).map Prod.snd).count i) (((g.entries d).map Prod.snd).count i)
  rw [Function.update_eq_self] at hold
  have hfun : (fun x => ((Function.update g.entries d l x).map Prod.snd).count i)
      = Function.update (fun x => ((g.entries x).map Prod.snd).count i) d
          ((l.map Prod.snd).count i) := by
    funext x
    by_cases hx : x = d
    · subst hx; simp
    · simp [hx]
  simp only [hfun]
  rw [hnew, hold]
  omega

/-- Two entries for one node are two names. -/
theorem two_names {d' : ι} {n' : ν} (h : (n, i) ∈ g.entries d) (h' : (n', i) ∈ g.entries d')
    (hne : d ≠ d' ∨ n ≠ n') : 2 ≤ g.names i := by
  have hc : ∀ {x m}, (m, i) ∈ g.entries x → 0 < ((g.entries x).map Prod.snd).count i :=
    fun hm => List.count_pos_iff.mpr (edge_of_mem hm)
  by_cases hd : d = d'
  · subst hd
    have hn : n ≠ n' := hne.resolve_left (fun h => h rfl)
    have hsub : 2 ≤ ((g.entries d).map Prod.snd).count i := by
      obtain ⟨l₁, l₂, hl⟩ := List.append_of_mem h
      rw [hl] at h' ⊢
      rw [List.mem_append, List.mem_cons] at h'
      have hrest : 0 < ((l₁ ++ l₂).map Prod.snd).count i := by
        refine List.count_pos_iff.mpr (List.mem_map.mpr ⟨(n', i), ?_, rfl⟩)
        rcases h' with h' | h' | h'
        · simp [h']
        · exact absurd (congrArg Prod.fst h').symm hn
        · simp [h']
      simp only [List.map_append, List.map_cons, List.count_append, List.count_cons_self]
        at hrest ⊢
      omega
    calc 2 ≤ ((g.entries d).map Prod.snd).count i := hsub
      _ ≤ g.names i :=
        Finset.single_le_sum (f := fun x => ((g.entries x).map Prod.snd).count i)
          (fun _ _ => Nat.zero_le _) (Finset.mem_univ d)
  · have hpair : ∑ x ∈ {d, d'}, ((g.entries x).map Prod.snd).count i ≤ g.names i :=
      Finset.sum_le_univ_sum_of_nonneg (fun _ => Nat.zero_le _)
    rw [Finset.sum_pair hd] at hpair
    have h1 := hc h
    have h2 := hc h'
    omega

/-! ## Adding an entry -/

/-- A new entry of `d`, for a node that may be new. `k` says whether the
new node is a directory. -/
def addEntry (g : NameGraph ι ν) (d : ι) (n : ν) (i : ι) (k : Prop) : NameGraph ι ν where
  root := g.root
  live := fun j => j = i ∨ g.live j
  isDir := fun j => (j = i ∧ k) ∨ g.isDir j
  entries := Function.update g.entries d (g.entries d ++ [(n, i)])

theorem names_addEntry (g : NameGraph ι ν) (d : ι) (n : ν) (i : ι) (k : Prop) (j : ι) :
    (g.addEntry d n i k).names j = g.names j + if j = i then 1 else 0 := by
  have h := names_update g (fun j => j = i ∨ g.live j) (fun j => (j = i ∧ k) ∨ g.isDir j) d
    (g.entries d ++ [(n, i)]) j
  rw [List.map_append, List.count_append] at h
  have hone : (List.map Prod.snd [(n, i)]).count j = if j = i then 1 else 0 := by
    by_cases hj : j = i
    · subst hj; simp
    · simp [hj, Ne.symm hj]
  rw [hone] at h
  unfold addEntry
  omega

omit [Fintype ι] in
theorem edge_addEntry {a b : ι} {k : Prop} :
    (g.addEntry d n i k).Edge a b ↔ g.Edge a b ∨ (a = d ∧ b = i) := by
  unfold Edge addEntry
  by_cases ha : a = d
  · subst ha
    simp [List.map_append]
  · simp [ha]

theorem Wf.addEntry (hg : g.Wf) {k : Prop} (hd : g.isDir d) (hi : ¬ g.isDir i)
    (hk : k → ¬ g.live i) : (g.addEntry d n i k).Wf := by
  have hroot : i ≠ g.root := fun h => hi (h ▸ hg.rootDir)
  have hdi : d ≠ i := fun h => hi (h ▸ hd)
  have hleaf : ∀ b, ¬ (g.addEntry d n i k).Edge i b := by
    intro b hb
    rcases edge_addEntry.mp hb with h | ⟨h, -⟩
    · exact hi (hg.dirOfEdge h)
    · exact hdi h.symm
  have hback : ∀ a b, b ≠ i → (g.addEntry d n i k).Edge a b → g.Edge a b := by
    intro a b hb h
    rcases edge_addEntry.mp h with h | ⟨-, h⟩
    · exact h
    · exact absurd h hb
  have hmono : ∀ a b, g.Edge a b → (g.addEntry d n i k).Edge a b :=
    fun a b h => edge_addEntry.mpr (Or.inl h)
  refine ⟨Or.inr hg.rootDir, ?_, ?_, ?_, ?_, ?_, ?_, ?_⟩
  · rintro j (⟨rfl, -⟩ | hj)
    · exact Or.inl rfl
    · exact Or.inr (hg.dirLive hj)
  · intro a b h
    rcases edge_addEntry.mp h with h | ⟨rfl, -⟩
    · exact Or.inr (hg.dirOfEdge h)
    · exact Or.inr hd
  · intro a b h
    rcases edge_addEntry.mp h with h | ⟨-, rfl⟩
    · exact Or.inr (hg.targetLive h)
    · exact Or.inl rfl
  · intro a b h
    rcases edge_addEntry.mp h with h | ⟨-, rfl⟩
    · exact hg.targetNeRoot h
    · exact hroot
  · rintro j (⟨rfl, hk'⟩ | hj)
    · have h0 : g.names j = 0 := by
        by_contra hpos
        obtain ⟨a, ha⟩ := names_pos_iff.mp (Nat.pos_of_ne_zero hpos)
        exact hk hk' (hg.targetLive ha)
      rw [names_addEntry, h0, if_pos rfl]
    · have hji : j ≠ i := fun h => hi (h ▸ hj)
      rw [names_addEntry, if_neg hji]
      exact hg.once hj
  · rintro j (rfl | hj)
    · exact (ReflTransGen.mono hmono _ _ (hg.reach (hg.dirLive hd))).tail
        (edge_addEntry.mpr (Or.inr ⟨rfl, rfl⟩))
    · exact ReflTransGen.mono hmono _ _ (hg.reach hj)
  · intro j hcycle
    have hji : j ≠ i := by
      rintro rfl
      obtain ⟨b, h, -⟩ := TransGen.head'_iff.mp hcycle
      exact hleaf b h
    exact hg.acyclic j (transGen_off_leaf hback hleaf hcycle hji)

/-! ## Removing an entry -/

/-- The first entry of `d` called `n`, which leads to `i`, taken away.
`k` says whether the node dies with it. -/
def removeEntry [DecidableEq ν] (g : NameGraph ι ν) (d : ι) (n : ν) (i : ι) (k : Prop) :
    NameGraph ι ν where
  root := g.root
  live := fun j => g.live j ∧ (j = i → ¬ k)
  isDir := fun j => g.isDir j ∧ (j = i → ¬ k)
  entries := Function.update g.entries d ((g.entries d).eraseP (fun e => decide (e.1 = n)))

variable [DecidableEq ν]

omit [Fintype ι] in
theorem count_eraseP {l : List (ν × ι)} (h : l.find? (fun e => decide (e.1 = n)) = some (n, i)) (j : ι) :
    ((l.eraseP (fun e => decide (e.1 = n))).map Prod.snd).count j + (if j = i then 1 else 0)
      = (l.map Prod.snd).count j := by
  induction l with
  | nil => simp at h
  | cons e l ih =>
      by_cases he : e.1 = n
      · have hei : e = (n, i) := by simpa [List.find?_cons, he] using h
        subst hei
        by_cases hj : j = i
        · subst hj; simp
        · simp [hj, Ne.symm hj]
      · have hfind : l.find? (fun e => decide (e.1 = n)) = some (n, i) := by
          simpa [List.find?_cons, he] using h
        have := ih hfind
        simp only [List.eraseP_cons, decide_eq_true_eq, he, Bool.cond_eq_ite, List.map_cons,
          List.count_cons, if_false] at this ⊢
        omega

theorem names_removeEntry {k : Prop}
    (h : (g.entries d).find? (fun e => decide (e.1 = n)) = some (n, i)) (j : ι) :
    (g.removeEntry d n i k).names j + (if j = i then 1 else 0) = g.names j := by
  have hu := names_update g (fun j => g.live j ∧ (j = i → ¬ k))
    (fun j => g.isDir j ∧ (j = i → ¬ k)) d ((g.entries d).eraseP (fun e => decide (e.1 = n))) j
  have hc := count_eraseP h j
  unfold removeEntry
  omega

omit [Fintype ι] in
theorem edge_of_removeEntry {a b : ι} {k : Prop} (h : (g.removeEntry d n i k).Edge a b) :
    g.Edge a b := by
  unfold Edge removeEntry at *
  by_cases ha : a = d
  · subst ha
    simp only [Function.update_self] at h
    exact (List.eraseP_sublist.map Prod.snd).subset h
  · simpa [ha] using h

omit [Fintype ι] in
theorem edge_removeEntry_of_ne {a b : ι} {k : Prop}
    (hfind : (g.entries d).find? (fun e => decide (e.1 = n)) = some (n, i)) (hb : b ≠ i)
    (h : g.Edge a b) : (g.removeEntry d n i k).Edge a b := by
  unfold Edge removeEntry at *
  by_cases ha : a = d
  · subst ha
    have hc := count_eraseP hfind b
    rw [if_neg hb, Nat.add_zero] at hc
    simp only [Function.update_self]
    rw [← List.count_pos_iff] at h ⊢
    omega
  · simpa [ha] using h

theorem Wf.removeEntry (hg : g.Wf) {k : Prop}
    (hfind : (g.entries d).find? (fun e => decide (e.1 = n)) = some (n, i)) (hempty : g.entries i = [])
    (hk : k ↔ g.names i = 1) : (g.removeEntry d n i k).Wf := by
  have hin : (n, i) ∈ g.entries d := List.mem_of_find?_eq_some hfind
  have hedge : g.Edge d i := edge_of_mem hin
  have hroot : i ≠ g.root := hg.targetNeRoot hedge
  have hleaf : ∀ b, ¬ g.Edge i b := by
    intro b hb
    rw [Edge, hempty] at hb
    simp at hb
  have hkeep : ∀ a b, b ≠ i → g.Edge a b → (g.removeEntry d n i k).Edge a b :=
    fun a b hb h => edge_removeEntry_of_ne hfind hb h
  have hnames := names_removeEntry (k := k) hfind i
  rw [if_pos rfl] at hnames
  -- a node that dies has lost its last name
  have hdead : ∀ {a b}, (g.removeEntry d n i k).Edge a b → b = i → ¬ k := by
    rintro a b h rfl hk'
    have hpos := names_pos_iff.mpr ⟨a, h⟩
    have h1 := hk.mp hk'
    omega
  refine ⟨⟨hg.rootDir, fun h => absurd h.symm hroot⟩, ?_, ?_, ?_, ?_, ?_, ?_, ?_⟩
  · exact fun h => ⟨hg.dirLive h.1, h.2⟩
  · intro a b h
    have hold := edge_of_removeEntry h
    exact ⟨hg.dirOfEdge hold, fun ha => absurd (ha ▸ hold) (hleaf b)⟩
  · intro a b h
    exact ⟨hg.targetLive (edge_of_removeEntry h), hdead h⟩
  · intro a b h
    exact hg.targetNeRoot (edge_of_removeEntry h)
  · intro j hj
    have h1 := names_removeEntry (k := k) hfind j
    have h2 := hg.once hj.1
    omega
  · rintro j ⟨hj, hjk⟩
    by_cases hji : j = i
    · subst hji
      -- it keeps another name, in a directory that is reached without it
      have h2 : 0 < (g.removeEntry d n j k).names j := by
        have hne : g.names j ≠ 1 := fun h => hjk rfl (hk.mpr h)
        omega
      obtain ⟨a, ha⟩ := names_pos_iff.mp h2
      have hold := edge_of_removeEntry ha
      have haj : a ≠ j := fun h => hleaf _ (h ▸ hold)
      have hreach := hg.reach (hg.dirLive (hg.dirOfEdge hold))
      exact (reflTransGen_off_leaf hkeep hleaf hreach haj).tail ha
    · exact reflTransGen_off_leaf hkeep hleaf (hg.reach hj) hji
  · intro j hcycle
    exact hg.acyclic j (TransGen.mono (fun _ _ h => edge_of_removeEntry h) _ _ hcycle)

/-! ## Paths to directories are unique -/

/-- The names along a path from the root. -/
inductive Walk (g : NameGraph ι ν) : List ν → ι → Prop
  | root : Walk g [] g.root
  | step {ns : List ν} {d : ι} {n : ν} {i : ι} : Walk g ns d → (n, i) ∈ g.entries d →
      Walk g (ns ++ [n]) i

omit [DecidableEq ν] in
theorem Wf.walk_unique (hg : g.Wf) {ns ms : List ν} (h : g.Walk ns i) (h' : g.Walk ms i)
    (hi : g.isDir i) : ns = ms := by
  induction h generalizing ms with
  | root =>
      cases h' with
      | root => rfl
      | step _ hmem => exact absurd rfl (hg.targetNeRoot (edge_of_mem hmem))
  | @step ns d n i hwalk hmem ih =>
      cases h' with
      | root => exact absurd rfl (hg.targetNeRoot (edge_of_mem hmem))
      | @step ms d' n' _ hwalk' hmem' =>
          have honce := hg.once hi
          have hsame : ¬ (d ≠ d' ∨ n ≠ n') := by
            intro hne
            have := two_names hmem hmem' hne
            omega
          rw [not_or, not_not, not_not] at hsame
          obtain ⟨rfl, rfl⟩ := hsame
          rw [ih hwalk' (hg.dirOfEdge (edge_of_mem hmem))]

end NameGraph
