/-
SistemasOperativos.FileSystem.FlatTheorems — directories in place.

`directory_t` as the bytes it is: `entry_count` records of 36 bytes from
the start of the block on, and the count behind the last of the 1024
records there is room for. Removing an entry moves the records behind it
one place down.
-/
import SistemasOperativos.FileSystem.Fisopfs
import Mathlib.Tactic.Common

namespace SistemasOperativos.FileSystem.Flat

/-! ## Loads after stores -/

theorem load_store_of_disjoint (m : Memory) {a b n : Nat} {bs : List UInt8}
    (h : b + n ≤ a ∨ a + bs.length ≤ b) : load (store m a bs) b n = load m b n := by
  refine List.map_congr_left (fun x hx => ?_)
  have := List.mem_range.mp hx
  exact if_neg (by omega)

theorem load_store_self (m : Memory) (a : Nat) (bs : List UInt8) :
    load (store m a bs) a bs.length = bs := by
  refine List.ext_getElem? (fun x => ?_)
  by_cases hx : x < bs.length
  · simp [load, store, hx]
  · rw [List.getElem?_eq_none (by simpa [load] using hx), List.getElem?_eq_none (by omega)]

theorem loadU32_encodeU32 (m : Memory) (a : Nat) {n : Nat} (hn : n < 4294967296) :
    loadU32 (store m a (encodeU32 n)) a = n := by
  simp only [loadU32, store, encodeU32, List.length_cons, List.length_nil]
  simp
  omega

/-! ## Records -/

/-- The bytes of `entries[k]`. -/
def record (m : Memory) (p : DirPtr) (k : Nat) : List UInt8 := load m (entryAddr p k) dirEntrySize

/-- `entries[0 .. entry_count)`. -/
def entries (m : Memory) (p : DirPtr) : List (List UInt8) :=
  (List.range (count m p)).map (record m p)

theorem getElem?_entries (m : Memory) (p : DirPtr) (k : Nat) :
    (entries m p)[k]? = if k < count m p then some (record m p k) else none := by
  rw [entries, List.getElem?_map]
  by_cases hk : k < count m p
  · rw [if_pos hk, List.getElem?_range hk, Option.map_some]
  · rw [if_neg hk, List.getElem?_eq_none (by simpa using hk), Option.map_none]

theorem record_setCount (m : Memory) (p : DirPtr) (n : Nat) {k : Nat} (hk : k < maxBlocks) :
    record (setCount m p n) p k = record m p k := by
  refine load_store_of_disjoint m (Or.inl ?_)
  simp only [entryAddr, countAddr, dirEntrySize, maxBlocks, maxFilenameLen] at *
  omega

theorem count_setCount (m : Memory) (p : DirPtr) {n : Nat} (hn : n < 4294967296) :
    count (setCount m p n) p = n := loadU32_encodeU32 m _ hn

/-! ## `directory_remove_entry` -/

theorem record_shiftEntry (m : Memory) (p : DirPtr) (x k : Nat) :
    record (shiftEntry p m x) p k = if k = x then record m p (x + 1) else record m p k := by
  have hlen : (load m (entryAddr p (x + 1)) dirEntrySize).length = dirEntrySize := by
    simp [load]
  by_cases hk : k = x
  · subst hk
    rw [if_pos rfl, record, shiftEntry]
    have := load_store_self m (entryAddr p k) (load m (entryAddr p (k + 1)) dirEntrySize)
    rwa [hlen] at this
  · rw [if_neg hk]
    refine load_store_of_disjoint m ?_
    rw [hlen]
    simp only [entryAddr, dirEntrySize, maxFilenameLen]
    omega

/-- The shift loop, after `l` turns. -/
theorem record_shifts (m : Memory) (p : DirPtr) (j l k : Nat) :
    record ((List.range' j l).foldl (shiftEntry p) m) p k
      = if j ≤ k ∧ k < j + l then record m p (k + 1) else record m p k := by
  induction l generalizing k with
  | zero => rw [if_neg (by omega)]; rfl
  | succ l ih =>
      rw [List.range'_concat, List.foldl_append, List.foldl_cons, List.foldl_nil,
        record_shiftEntry, Nat.one_mul]
      by_cases hk : k = j + l
      · rw [if_pos hk, ih, if_neg (by omega), if_pos (by omega), hk]
      · rw [if_neg hk, ih]
        by_cases hin : j ≤ k ∧ k < j + l
        · rw [if_pos hin, if_pos (by omega)]
        · rw [if_neg hin, if_neg (by omega)]

theorem find_lt {m : Memory} {p : DirPtr} {name : CStr} {j : Nat}
    (h : find m p name = some j) : j < count m p := by
  rw [find, List.find?_range_eq_some] at h
  exact List.mem_range.mp h.2.1

theorem count_removeEntry {m m' : Memory} {p : DirPtr} {name : CStr}
    (hn : count m p ≤ maxBlocks) (h : removeEntry m p name = some m') :
    count m' p = count m p - 1 := by
  unfold removeEntry at h
  split at h
  · cases h
  · split at h
    · cases h
      refine count_setCount _ p ?_
      simp only [maxBlocks] at hn
      omega
    · cases h

/-- `directory_remove_entry` takes the entry it finds out of the list. -/
theorem entries_removeEntry {m m' : Memory} {p : DirPtr} {name : CStr}
    (hn : count m p ≤ maxBlocks) (h : removeEntry m p name = some m') :
    ∃ j, find m p name = some j ∧ entries m' p = (entries m p).eraseIdx j := by
  have hcount := count_removeEntry hn h
  unfold removeEntry at h
  split at h
  · cases h
  · split at h
    · rename_i j hj
      refine ⟨j, hj, ?_⟩
      have hlt := find_lt hj
      cases h
      refine List.ext_getElem? (fun k => ?_)
      rw [List.getElem?_eraseIdx, getElem?_entries, getElem?_entries, getElem?_entries, hcount]
      by_cases hk : k < count m p - 1
      · rw [if_pos hk, record_setCount _ _ _ (by omega), record_shifts]
        by_cases hkj : k < j
        · rw [if_neg (by omega), if_pos hkj, if_pos (by omega)]
        · rw [if_pos (by omega), if_neg hkj, if_pos (by omega)]
      · rw [if_neg hk, if_neg (by omega), if_neg (by omega)]
    · cases h

end SistemasOperativos.FileSystem.Flat
