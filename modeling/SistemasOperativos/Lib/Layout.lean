/-
SistemasOperativos.Lib.Layout — values laid out in a fixed number of
bytes, as a C compiler lays out a struct.

A `Codec` carries the proof that what it encodes has its size and decodes
to the same value, so a layout that loses a field cannot be built. The
layout of a struct is put together from the layouts of its members:
integers with the low byte first, padding, pairs, arrays, and a change of
view (`Codec.via`) from the tuple of members to the struct itself.
-/
import Mathlib.Algebra.Order.Ring.Nat
import Mathlib.Data.Fin.Tuple.Basic

namespace Layout

abbrev Bytes := List UInt8

/-- A layout for the values that `Fits` admits. -/
structure Codec (α : Type) where
  size : Nat
  Fits : α → Prop
  enc : α → Bytes
  /-- Decodes `size` bytes; `none` if they are no value of the type. -/
  dec : Bytes → Option α
  length_enc : ∀ a, (enc a).length = size
  dec_enc : ∀ a, Fits a → dec (enc a) = some a

variable {α β : Type}

/-! ## Integers -/

/-- The `w` low bytes of a number, the lowest first. -/
def encNat : Nat → Nat → Bytes
  | 0, _ => []
  | w + 1, n => (n % 256).toUInt8 :: encNat w (n / 256)

def decNat : Bytes → Nat
  | [] => 0
  | b :: bs => b.toNat + 256 * decNat bs

theorem length_encNat (w n : Nat) : (encNat w n).length = w := by
  induction w generalizing n with
  | zero => rfl
  | succ w ih => simp [encNat, ih]

theorem decNat_encNat {w n : Nat} (h : n < 256 ^ w) : decNat (encNat w n) = n := by
  induction w generalizing n with
  | zero => simp_all [encNat, decNat]
  | succ w ih =>
    have hdiv : n / 256 < 256 ^ w := by
      rw [Nat.div_lt_iff_lt_mul (by decide)]
      rwa [pow_succ] at h
    have hbyte : ((n % 256).toUInt8).toNat = n % 256 := by
      simp
    rw [encNat, decNat, ih hdiv, hbyte]
    omega

/-- An unsigned integer of `w` bytes. -/
def uint (w : Nat) : Codec Nat where
  size := w
  Fits n := n < 256 ^ w
  enc := encNat w
  dec bs := some (decNat bs)
  length_enc := length_encNat w
  dec_enc _ h := by rw [decNat_encNat h]

/-! ## Padding, pairs and arrays -/

/-- Bytes between two members; nothing is read from them. -/
def pad (w : Nat) : Codec Unit where
  size := w
  Fits _ := True
  enc _ := List.replicate w 0
  dec _ := some ()
  length_enc _ := List.length_replicate
  dec_enc _ _ := rfl

def byte : Codec UInt8 where
  size := 1
  Fits _ := True
  enc b := [b]
  dec bs := bs.head?
  length_enc _ := rfl
  dec_enc _ _ := rfl

/-- One member after the other. -/
def pair (c : Codec α) (d : Codec β) : Codec (α × β) where
  size := c.size + d.size
  Fits p := c.Fits p.1 ∧ d.Fits p.2
  enc p := c.enc p.1 ++ d.enc p.2
  dec bs := (c.dec (bs.take c.size)).bind fun a => (d.dec (bs.drop c.size)).map fun b => (a, b)
  length_enc p := by rw [List.length_append, c.length_enc, d.length_enc]
  dec_enc p h := by
    rw [List.take_left' (c.length_enc p.1), List.drop_left' (c.length_enc p.1), c.dec_enc _ h.1,
      d.dec_enc _ h.2]
    rfl

def encArray (c : Codec α) : (n : Nat) → (Fin n → α) → Bytes
  | 0, _ => []
  | n + 1, f => c.enc (f 0) ++ encArray c n (fun i => f i.succ)

def decArray (c : Codec α) : (n : Nat) → Bytes → Option (Fin n → α)
  | 0, _ => some Fin.elim0
  | n + 1, bs =>
      (c.dec (bs.take c.size)).bind fun a =>
        (decArray c n (bs.drop c.size)).map fun f => Fin.cons a f

theorem length_encArray (c : Codec α) (n : Nat) (f : Fin n → α) :
    (encArray c n f).length = n * c.size := by
  induction n with
  | zero => simp [encArray]
  | succ n ih =>
    rw [encArray, List.length_append, c.length_enc, ih, Nat.succ_mul, Nat.add_comm]

theorem decArray_encArray (c : Codec α) (n : Nat) (f : Fin n → α) (h : ∀ i, c.Fits (f i)) :
    decArray c n (encArray c n f) = some f := by
  induction n with
  | zero =>
    rw [decArray, Option.some.injEq]
    funext i
    exact i.elim0
  | succ n ih =>
    rw [encArray, decArray, List.take_left' (c.length_enc _), List.drop_left' (c.length_enc _),
      c.dec_enc _ (h 0), ih _ (fun i => h i.succ)]
    simp only [Option.bind_some, Option.map_some, Option.some.injEq]
    exact Fin.cons_self_tail f

def array (n : Nat) (c : Codec α) : Codec (Fin n → α) where
  size := n * c.size
  Fits f := ∀ i, c.Fits (f i)
  enc := encArray c n
  dec := decArray c n
  length_enc := length_encArray c n
  dec_enc := decArray_encArray c n

/-! ## Another view of the same bytes -/

/-- The layout of `β`, read as `α`. -/
def Codec.via (c : Codec β) (view : α → β) (back : β → Option α) : Codec α where
  size := c.size
  Fits a := c.Fits (view a) ∧ back (view a) = some a
  enc a := c.enc (view a)
  dec bs := (c.dec bs).bind back
  length_enc a := c.length_enc (view a)
  dec_enc a h := by rw [c.dec_enc _ h.1, Option.bind_some, h.2]

/-- A signed integer of `w` bytes, in two's complement. -/
def int (w : Nat) : Codec Int :=
  (uint w).via (fun i => (i % (256 ^ w : Nat)).toNat)
    (fun n => some (if 2 * n < 256 ^ w then (n : Int) else (n : Int) - (256 ^ w : Nat)))

theorem int_fits {w : Nat} {i : Int} (hlow : -(256 ^ w : Nat) ≤ 2 * i)
    (hhigh : 2 * i < (256 ^ w : Nat)) : (int w).Fits i := by
  have hpos : (0 : Int) < (256 ^ w : Nat) := Int.natCast_pos.mpr (Nat.pow_pos (by decide))
  have hnonneg := Int.emod_nonneg i hpos.ne'
  have hlt := Int.emod_lt_of_pos i hpos
  refine ⟨?_, ?_⟩
  · show (i % (256 ^ w : Nat)).toNat < 256 ^ w
    omega
  · simp only [Option.some.injEq]
    rcases Int.lt_or_le i 0 with hneg | hnn
    · have hmod : i % (256 ^ w : Nat) = i + (256 ^ w : Nat) := by
        rw [← Int.add_emod_right, Int.emod_eq_of_lt (by omega) (by omega)]
      rw [hmod, if_neg (by omega), Int.toNat_of_nonneg (by omega)]
      omega
    · have hmod : i % (256 ^ w : Nat) = i := Int.emod_eq_of_lt hnn (by omega)
      rw [hmod, if_pos (by omega), Int.toNat_of_nonneg hnn]

end Layout
