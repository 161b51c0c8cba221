/-
SistemasOperativos.Lib.ByteMemory — the memory of a 32-bit machine, byte
by byte, and the words in it.

Addresses wrap, and a word may start anywhere. A word has its low byte
first. Two runs of bytes are compared through the distance from one
address to the other, which is what makes wrapping harmless.
-/
import Mathlib.Algebra.Group.Nat.Defs

namespace SistemasOperativos.Lib

abbrev Addr := BitVec 32

abbrev ByteMem := Addr → BitVec 8

/-- Bytes stored from `a` on. -/
def storeBytes (m : ByteMem) (a : Addr) (bs : List (BitVec 8)) : ByteMem :=
  fun x => bs.getD (x - a).toNat (m x)

/-- The bytes of a word. -/
def wordBytes (v : BitVec 32) : List (BitVec 8) :=
  [v.extractLsb' 0 8, v.extractLsb' 8 8, v.extractLsb' 16 8, v.extractLsb' 24 8]

def storeWord (m : ByteMem) (a : Addr) (v : BitVec 32) : ByteMem := storeBytes m a (wordBytes v)

def readWord (m : ByteMem) (a : Addr) : BitVec 32 :=
  m (a + 3#32) ++ m (a + 2#32) ++ m (a + 1#32) ++ m (a + 0#32)

/-- The two words have no byte in common. -/
def Apart (a b : Addr) : Prop := 4 ≤ (b - a).toNat ∧ 4 ≤ (a - b).toNat

variable {m m' : ByteMem} {a b x : Addr} {bs : List (BitVec 8)}

theorem Apart.symm (h : Apart a b) : Apart b a := ⟨h.2, h.1⟩

/-! ## Runs of bytes -/

theorem storeBytes_outside (h : bs.length ≤ (x - a).toNat) : storeBytes m a bs x = m x := by
  rw [storeBytes, List.getD_eq_getElem?_getD, List.getElem?_eq_none h, Option.getD_none]

theorem storeBytes_inside {i : Nat} {v : BitVec 8} (h : bs[i]? = some v) (hi : i < 2 ^ 32) :
    storeBytes m a bs (a + BitVec.ofNat 32 i) = v := by
  have hdist : (a + BitVec.ofNat 32 i - a).toNat = i := by
    rw [BitVec.add_comm, BitVec.add_sub_cancel, BitVec.toNat_ofNat, Nat.mod_eq_of_lt hi]
  rw [storeBytes, hdist, List.getD_eq_getElem?_getD, h, Option.getD_some]

@[simp] theorem length_wordBytes (v : BitVec 32) : (wordBytes v).length = 4 := rfl

theorem storeWord_outside {v : BitVec 32} (h : 4 ≤ (x - a).toNat) : storeWord m a v x = m x :=
  storeBytes_outside h

/-- The bytes of a list of words, one after the other. -/
theorem getElem?_flatMap_wordBytes (ws : List (BitVec 32)) (i : Nat) {k : Nat} (hk : k < 4) :
    (ws.flatMap wordBytes)[4 * i + k]? = ws[i]?.bind (fun v => (wordBytes v)[k]?) := by
  induction ws generalizing i with
  | nil => rfl
  | cons v vs ih =>
      rw [List.flatMap_cons]
      cases i with
      | zero =>
          rw [Nat.mul_zero, Nat.zero_add, List.getElem?_append_left (by simpa using hk)]
          rfl
      | succ i =>
          rw [List.getElem?_append_right (by rw [length_wordBytes]; omega), length_wordBytes,
            show 4 * (i + 1) + k - 4 = 4 * i + k by omega, ih]
          rfl

/-! ## Words -/

/-- The four bytes make up the word again. -/
theorem append_wordBytes (v : BitVec 32) :
    v.extractLsb' 24 8 ++ v.extractLsb' 16 8 ++ v.extractLsb' 8 8 ++ v.extractLsb' 0 8 = v := by
  rw [BitVec.extractLsb'_append_extractLsb'_eq_extractLsb' (show 24 = 16 + 8 from rfl),
    BitVec.extractLsb'_append_extractLsb'_eq_extractLsb' (show 16 = 8 + 8 from rfl),
    BitVec.extractLsb'_append_extractLsb'_eq_extractLsb' (show 8 = 0 + 8 from rfl)]
  exact BitVec.extractLsb'_eq_self

theorem readWord_congr (h : ∀ i < 4, m' (a + BitVec.ofNat 32 i) = m (a + BitVec.ofNat 32 i)) :
    readWord m' a = readWord m a := by
  rw [readWord, readWord, h 0 (by decide), h 1 (by decide), h 2 (by decide), h 3 (by decide)]

/-- A word is read back from the bytes that are stored over it. -/
theorem readWord_eq {v : BitVec 32}
    (h : ∀ i < 4, some (m (a + BitVec.ofNat 32 i)) = (wordBytes v)[i]?) : readWord m a = v := by
  have h₀ : m (a + 0#32) = v.extractLsb' 0 8 := Option.some.inj (h 0 (by decide))
  have h₁ : m (a + 1#32) = v.extractLsb' 8 8 := Option.some.inj (h 1 (by decide))
  have h₂ : m (a + 2#32) = v.extractLsb' 16 8 := Option.some.inj (h 2 (by decide))
  have h₃ : m (a + 3#32) = v.extractLsb' 24 8 := Option.some.inj (h 3 (by decide))
  rw [readWord, h₀, h₁, h₂, h₃]
  exact append_wordBytes v

/-- The words of a structure that is stored at `a`. -/
theorem readWord_storeBytes {ws : List (BitVec 32)} {i : Nat} {v : BitVec 32}
    (h : ws[i]? = some v) (hi : 4 * i + 4 ≤ 2 ^ 32) :
    readWord (storeBytes m a (ws.flatMap wordBytes)) (a + BitVec.ofNat 32 (4 * i)) = v := by
  apply readWord_eq
  intro k hk
  have hbyte := getElem?_flatMap_wordBytes ws i hk
  rw [h, Option.bind_some] at hbyte
  have hlt : k < (wordBytes v).length := hk
  rw [List.getElem?_eq_getElem hlt] at hbyte ⊢
  rw [BitVec.add_assoc, ← BitVec.ofNat_add, storeBytes_inside hbyte (by omega)]

theorem readWord_storeWord_self (m : ByteMem) (a : Addr) (v : BitVec 32) :
    readWord (storeWord m a v) a = v := by
  have h : readWord (storeBytes m a ([v].flatMap wordBytes)) (a + BitVec.ofNat 32 (4 * 0)) = v :=
    readWord_storeBytes rfl (by decide)
  rwa [Nat.mul_zero, BitVec.add_zero] at h

/-- A word that is away from the bytes that are stored. -/
theorem readWord_storeBytes_of_apart
    (h : ∀ i < 4, bs.length ≤ (b + BitVec.ofNat 32 i - a).toNat) :
    readWord (storeBytes m a bs) b = readWord m b :=
  readWord_congr fun i hi => storeBytes_outside (h i hi)

theorem readWord_storeWord_of_apart {v : BitVec 32} (h : Apart a b) :
    readWord (storeWord m a v) b = readWord m b := by
  apply readWord_storeBytes_of_apart
  intro i hi
  obtain ⟨hab, hba⟩ := h
  rw [length_wordBytes]
  bv_omega

end SistemasOperativos.Lib
