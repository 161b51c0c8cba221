/-
SistemasOperativos.Lib.Paged — a list stored in pages of a memory.

A page table says which page holds each run of `P` consecutive elements,
and `Shows` that the elements found that way are those of a list. Storing
into one page overwrites a piece of the list, and loading from one page
gives a slice of it.
-/
import Mathlib.Data.List.Basic

namespace Paged

variable {α : Type*}

/-! ## Overwriting a piece of a list -/

/-- `l` with `bs` in place of what it has from position `off` on. -/
def overwrite (l : List α) (off : Nat) (bs : List α) : List α :=
  l.take off ++ bs ++ l.drop (off + bs.length)

theorem overwrite_nil (l : List α) (off : Nat) : overwrite l off [] = l := by
  simp [overwrite]

theorem length_overwrite {l : List α} {off : Nat} (h : off ≤ l.length) (bs : List α) :
    (overwrite l off bs).length = max l.length (off + bs.length) := by
  simp only [overwrite, List.length_append, List.length_take, List.length_drop]
  omega

theorem getElem?_overwrite {l : List α} {off : Nat} (h : off ≤ l.length) (bs : List α) (x : Nat) :
    (overwrite l off bs)[x]?
      = if off ≤ x ∧ x < off + bs.length then bs[x - off]? else l[x]? := by
  have htake : (l.take off).length = off := by
    rw [List.length_take]
    omega
  rw [overwrite, List.append_assoc]
  by_cases h1 : x < off
  · rw [List.getElem?_append_left (by omega), List.getElem?_take_of_lt h1,
      if_neg (by omega)]
  · rw [List.getElem?_append_right (by omega), htake]
    by_cases h2 : x < off + bs.length
    · rw [List.getElem?_append_left (by omega), if_pos ⟨by omega, h2⟩]
    · rw [List.getElem?_append_right (by omega), List.getElem?_drop, if_neg (by omega)]
      congr 1
      omega

/-- Two pieces, one right after the other. -/
theorem overwrite_append {l : List α} {off : Nat} (h : off ≤ l.length) (as bs : List α) :
    overwrite (overwrite l off as) (off + as.length) bs = overwrite l off (as ++ bs) := by
  refine List.ext_getElem? (fun x => ?_)
  have hlen := length_overwrite h as
  rw [getElem?_overwrite (by omega), getElem?_overwrite h, getElem?_overwrite h,
    List.length_append]
  by_cases h1 : off ≤ x ∧ x < off + as.length
  · rw [if_neg (by omega), if_pos h1, if_pos (by omega), List.getElem?_append_left (by omega)]
  · by_cases h2 : off + as.length ≤ x ∧ x < off + as.length + bs.length
    · rw [if_pos h2, if_pos (by omega), List.getElem?_append_right (by omega)]
      congr 1
      omega
    · rw [if_neg h2, if_neg h1, if_neg (by omega)]

/-! ## Pages -/

/-- Position `x`, looked up through the page table. -/
def view (P : Nat) (page : Nat → Option Nat) (mem : Nat → α) (x : Nat) : Option α :=
  (page (x / P)).map (fun b => mem (b * P + x % P))

/-- The pages hold the elements of `l`, in order. -/
def Shows (P : Nat) (page : Nat → Option Nat) (mem : Nat → α) (l : List α) : Prop :=
  ∀ x < l.length, view P page mem x = l[x]?

variable {P : Nat} {page page' : Nat → Option Nat} {mem mem' : Nat → α} {l : List α}

theorem Shows.take (h : Shows P page mem l) (n : Nat) : Shows P page mem (l.take n) := by
  intro x hx
  rw [List.length_take] at hx
  rw [h x (by omega), List.getElem?_take_of_lt (by omega)]

/-- Only the pages that `l` reaches matter. -/
theorem Shows.congr (h : Shows P page mem l) (hP : 0 < P)
    (hpage : ∀ k, k * P < l.length → page' k = page k)
    (hmem : ∀ k b, page k = some b → ∀ a, a / P = b → mem' a = mem a) :
    Shows P page' mem' l := by
  intro x hx
  rw [← h x hx, view, view, hpage _ (Nat.lt_of_le_of_lt (Nat.div_mul_le_self x P) hx)]
  cases hk : page (x / P) with
  | none => rfl
  | some b =>
      have hin : (b * P + x % P) / P = b := by
        rw [Nat.mul_comm, Nat.mul_add_div hP, Nat.div_eq_of_lt (Nat.mod_lt x hP), Nat.add_zero]
      simp only [Option.map_some, hmem _ b hk _ hin]

/-- Loading from one page. -/
theorem Shows.load (h : Shows P page mem l) {k b off n : Nat} (hk : page k = some b)
    (hoff : off + n ≤ P) (hlen : k * P + off + n ≤ l.length) :
    (List.range n).map (fun x => mem (b * P + off + x)) = (l.drop (k * P + off)).take n := by
  refine List.ext_getElem? (fun x => ?_)
  by_cases hx : x < n
  · have hdiv : (k * P + off + x) / P = k := by
      rw [Nat.add_assoc, Nat.mul_comm, Nat.mul_add_div (by omega),
        Nat.div_eq_of_lt (by omega), Nat.add_zero]
    have hmod : (k * P + off + x) % P = off + x := by
      rw [Nat.add_assoc, Nat.mul_comm, Nat.mul_add_mod, Nat.mod_eq_of_lt (by omega)]
    have hview := h (k * P + off + x) (by omega)
    rw [view, hdiv, hk, hmod] at hview
    rw [List.getElem?_take_of_lt hx, List.getElem?_drop, ← hview]
    simp [hx, Nat.add_assoc]
  · rw [List.getElem?_eq_none (by simpa using hx),
      List.getElem?_eq_none (by rw [List.length_take]; omega)]

/-- Storing into one page. -/
theorem Shows.store (h : Shows P page mem l)
    (hinj : ∀ k k' b, page k = some b → page k' = some b → k = k') {k b off : Nat}
    (hk : page k = some b) {bs : List α} (hoff : off + bs.length ≤ P) (hlt : off < P)
    (hpos : k * P + off ≤ l.length)
    (hin : ∀ x < bs.length, some (mem' (b * P + off + x)) = bs[x]?)
    (hout : ∀ a, ¬ (b * P + off ≤ a ∧ a < b * P + off + bs.length) → mem' a = mem a) :
    Shows P page mem' (overwrite l (k * P + off) bs) := by
  intro x hx
  rw [length_overwrite hpos] at hx
  rw [getElem?_overwrite hpos]
  have hx' : x / P * P + x % P = x := Nat.div_add_mod' x P
  have hmod : x % P < P := Nat.mod_lt x (by omega)
  by_cases hpiece : k * P + off ≤ x ∧ x < k * P + off + bs.length
  · have hdiv : x / P = k := by
      refine Nat.div_eq_of_lt_le (by omega) ?_
      rw [Nat.succ_mul]
      omega
    rw [hdiv] at hx'
    rw [if_pos hpiece, view, hdiv, hk, Option.map_some, ← hin _ (by omega)]
    congr 2
    omega
  · rw [if_neg hpiece, ← h x (by omega), view, view]
    cases hb : page (x / P) with
    | none => rfl
    | some b' =>
        rw [Option.map_some, Option.map_some, hout]
        intro haddr
        -- the address lies in page `b`, so the position lies in the piece
        have hbb : b' = b := by
          have h1 : (b' * P + x % P) / P = b' := by
            rw [Nat.mul_comm, Nat.mul_add_div (by omega), Nat.div_eq_of_lt hmod, Nat.add_zero]
          rw [← h1]
          refine Nat.div_eq_of_lt_le (by omega) ?_
          rw [Nat.succ_mul]
          omega
        subst hbb
        have hkk := hinj _ _ _ hb hk
        rw [hkk] at hx'
        exact hpiece ⟨by omega, by omega⟩

end Paged
