/-
SistemasOperativos.FileSystem.DirectoryMapTheorems — a directory in place
is a finite map that remembers the order of its names.

The bytes of a `directory_t` stand for a directory value (`Stores`): each
record is a name padded with zeros and a little-endian inode number. The
functions of `directory.c` on the bytes do to that value what their
counterparts on values do. A run of calls from `directory_init` on is
then read off the list of those that succeeded: the entries are the adds
that no remove of their name follows.
-/
import Mathlib.Data.List.InsertIdx
import SistemasOperativos.FileSystem.DirectoryTheorems
import SistemasOperativos.FileSystem.FlatTheorems

namespace SistemasOperativos.FileSystem.Flat

/-! ## Bytes of a record -/

/-- The bytes of an entry: `name`, then `inode_number`. -/
def encodeEntry (e : DirEntry) : List UInt8 :=
  strncpyBytes e.name maxFilenameLen ++ encodeU32 e.inodeNumber

/-- A C string that `directory_add_entry` takes. -/
structure NameOk (name : CStr) : Prop where
  ne_nil : name ≠ []
  short : name.length < maxFilenameLen
  noNul : 0 ∉ name

theorem strncpyBytes_length {name : CStr} {n : Nat} (h : name.length ≤ n) :
    (strncpyBytes name n).length = n := by
  simp [strncpyBytes, h]

theorem load_succ (m : Memory) (a n : Nat) : load m a (n + 1) = m a :: load m (a + 1) n := by
  rw [load, List.range_succ_eq_map, List.map_cons, List.map_map, load]
  congr 1
  refine List.map_congr_left fun x _ => ?_
  simp only [Function.comp_apply, Nat.succ_eq_add_one]
  congr 1
  omega

theorem load_add (m : Memory) (a n k : Nat) : load m a (n + k) = load m a n ++ load m (a + n) k := by
  induction n generalizing a with
  | zero => simp [load]
  | succ n ih =>
    rw [show n + 1 + k = n + k + 1 by omega, load_succ, ih, load_succ, List.cons_append]
    congr 3
    omega

/-- `strcmp` against a string in memory. -/
theorem strEqAt_of_load {m : Memory} {name s rest : CStr} {a n : Nat}
    (h : load m a n = s ++ 0 :: rest) (hs : 0 ∉ s) (hname : 0 ∉ name) :
    strEqAt m a name = (s == name) := by
  induction name generalizing a n s with
  | nil =>
    cases n with
    | zero => simp [load] at h
    | succ n =>
      rw [load_succ] at h
      cases s with
      | nil => simp_all [strEqAt]
      | cons x s =>
        simp only [List.cons_append, List.cons.injEq] at h
        have hx : x ≠ 0 := fun hx => hs (by simp [hx])
        simp [strEqAt, h.1, hx]
  | cons c cs ih =>
    have hc : c ≠ 0 := fun hc => hname (by simp [hc])
    cases n with
    | zero => simp [load] at h
    | succ n =>
      rw [load_succ] at h
      cases s with
      | nil =>
        simp only [List.nil_append, List.cons.injEq] at h
        simp [strEqAt, h.1, Ne.symm hc]
      | cons x s =>
        simp only [List.cons_append, List.cons.injEq] at h
        rw [strEqAt, h.1, ih h.2 (fun hm => hs (by simp [hm])) (fun hm => hname (by simp [hm]))]
        rfl

theorem loadU32_of_load {m : Memory} {a n : Nat} (h : load m a 4 = encodeU32 n) (hn : n < 4294967296) :
    loadU32 m a = n := by
  simp only [load_succ, encodeU32, List.cons.injEq] at h
  obtain ⟨h0, h1, h2, h3, -⟩ := h
  rw [loadU32, h0, show a + 2 = a + 1 + 1 from rfl, show a + 3 = a + 1 + 1 + 1 from rfl, h1, h2, h3]
  simp
  omega

theorem encodeU32_u32 (n : Nat) : encodeU32 (u32 n) = encodeU32 n := by
  have h0 : n % 4294967296 % 256 = n % 256 := by omega
  have h1 : n % 4294967296 / 256 % 256 = n / 256 % 256 := by omega
  have h2 : n % 4294967296 / 65536 % 256 = n / 65536 % 256 := by omega
  have h3 : n % 4294967296 / 16777216 % 256 = n / 16777216 % 256 := by omega
  rw [u32, encodeU32, encodeU32, h0, h1, h2, h3]

/-! ## One record -/

section Record

variable {m : Memory} {p : DirPtr} {j : Nat} {e : DirEntry}

theorem load_name (h : record m p j = encodeEntry e) (hname : NameOk e.name) :
    load m (entryAddr p j) maxFilenameLen = strncpyBytes e.name maxFilenameLen ∧
      load m (entryAddr p j + maxFilenameLen) 4 = encodeU32 e.inodeNumber := by
  rw [record, load_add, encodeEntry] at h
  refine List.append_inj h ?_
  rw [strncpyBytes_length (Nat.le_of_lt hname.short)]
  simp [load]

theorem strncpyBytes_eq {name : CStr} (hname : NameOk name) :
    strncpyBytes name maxFilenameLen =
      name ++ 0 :: List.replicate (maxFilenameLen - name.length - 1) 0 := by
  have hlen := hname.short
  rw [strncpyBytes, List.take_of_length_le (Nat.le_of_lt hlen), ← List.replicate_succ]
  congr 2
  omega

theorem strEqAt_record (h : record m p j = encodeEntry e) (he : NameOk e.name) {name : CStr}
    (hname : 0 ∉ name) : strEqAt m (entryAddr p j) name = (e.name == name) :=
  strEqAt_of_load ((load_name h he).1.trans (strncpyBytes_eq he)) he.noNul hname

theorem nameAt_record (h : record m p j = encodeEntry e) (he : NameOk e.name) :
    nameAt m (entryAddr p j) = e.name := by
  rw [nameAt, (load_name h he).1, strncpyBytes_eq he, List.takeWhile_append_of_pos]
  · simp
  · intro c hc
    simpa using ne_of_mem_of_not_mem hc he.noNul

end Record

theorem record_setEntry (m : Memory) (p : DirPtr) (j : Nat) {name : CStr} (ino k : Nat)
    (hname : name.length ≤ maxFilenameLen) :
    record (setEntry m p j name ino) p k =
      if k = j then encodeEntry ⟨name, ino⟩ else record m p k := by
  have hlen := strncpyBytes_length hname
  have hino : (encodeU32 ino).length = 4 := rfl
  by_cases hk : k = j
  · subst hk
    rw [if_pos rfl, record, load_add, setEntry, load_store_of_disjoint _ (Or.inl (Nat.le_refl _))]
    have hfirst := load_store_self m (entryAddr p k) (strncpyBytes name maxFilenameLen)
    have hsecond := load_store_self (store m (entryAddr p k) (strncpyBytes name maxFilenameLen))
      (entryAddr p k + maxFilenameLen) (encodeU32 ino)
    rw [hlen] at hfirst
    rw [hino] at hsecond
    rw [hfirst, hsecond, encodeEntry]
  · have hapart : entryAddr p k + dirEntrySize ≤ entryAddr p j ∨
        entryAddr p j + dirEntrySize ≤ entryAddr p k := by
      simp only [entryAddr, dirEntrySize, maxFilenameLen]
      omega
    rw [if_neg hk, record, setEntry, load_store_of_disjoint, load_store_of_disjoint]
    · rfl
    · rw [hlen]
      simp only [dirEntrySize, maxFilenameLen] at hapart ⊢
      omega
    · rw [hino]
      simp only [dirEntrySize, maxFilenameLen] at hapart ⊢
      omega

theorem count_setEntry (m : Memory) (p : DirPtr) {j : Nat} {name : CStr} (ino : Nat)
    (hj : j < maxBlocks) (hname : name.length ≤ maxFilenameLen) :
    count (setEntry m p j name ino) p = count m p := by
  have hlen := strncpyBytes_length hname
  have hbehind : entryAddr p j + dirEntrySize ≤ countAddr p := by
    simp only [entryAddr, countAddr, dirEntrySize, maxBlocks, maxFilenameLen] at hj ⊢
    omega
  have hsame : ∀ x, countAddr p ≤ x → setEntry m p j name ino x = m x := by
    intro x hx
    simp only [dirEntrySize] at hbehind
    rw [setEntry, store, if_neg, store, if_neg]
    · rw [hlen]
      omega
    · rw [show (encodeU32 ino).length = 4 from rfl]
      omega
  simp only [count, loadU32]
  rw [hsame _ (Nat.le_refl _), hsame _ (by omega), hsame _ (by omega), hsame _ (by omega)]

/-! ## The value that the bytes stand for -/

structure Stores (m : Memory) (p : DirPtr) (d : Directory) : Prop where
  entries : entries m p = d.map encodeEntry
  room : d.length ≤ maxBlocks
  names : ∀ e ∈ d, NameOk e.name
  inos : ∀ e ∈ d, e.inodeNumber < 4294967296

namespace Stores

variable {m : Memory} {p : DirPtr} {d : Directory}

theorem count (h : Stores m p d) : count m p = d.length := by
  simpa [Flat.entries] using congrArg List.length h.entries

theorem record (h : Stores m p d) {j : Nat} (hj : j < d.length) :
    record m p j = encodeEntry d[j] := by
  have hget := congrArg (·[j]?) h.entries
  simp only [getElem?_entries, h.count, if_pos hj, List.getElem?_map, List.getElem?_eq_getElem hj,
    Option.map_some] at hget
  exact Option.some.inj hget

theorem name (h : Stores m p d) {j : Nat} (hj : j < d.length) : NameOk d[j].name :=
  h.names _ (List.getElem_mem hj)

theorem find (h : Stores m p d) {name : CStr} (hname : 0 ∉ name) :
    find m p name = d.findIdx? (fun e => e.name == name) := by
  have hat : ∀ j (hj : j < d.length), strEqAt m (entryAddr p j) name = (d[j].name == name) :=
    fun j hj => strEqAt_record (h.record hj) (h.name hj) hname
  rw [Flat.find, h.count]
  refine Option.ext fun i => ?_
  rw [List.find?_range_eq_some, List.findIdx?_eq_some_iff_getElem]
  constructor
  · intro hi
    have hlt := List.mem_range.1 hi.2.1
    refine ⟨hlt, (hat i hlt).symm.trans hi.1, fun j hj => ?_⟩
    have := hi.2.2 j hj
    rw [hat j (by omega)] at this
    simpa using this
  · intro hi
    obtain ⟨hlt, heq, hbefore⟩ := hi
    refine ⟨(hat i hlt).trans heq, List.mem_range.2 hlt, fun j hj => ?_⟩
    rw [hat j (by omega)]
    simpa using hbefore j hj

theorem lookup (h : Stores m p d) {name : CStr} (hname : 0 ∉ name) :
    lookup m p name = d.lookup name := by
  rw [Flat.lookup, Directory.lookup, h.find hname, List.find?_eq_bind_findIdx?_getElem?]
  cases hidx : d.findIdx? (fun e => e.name == name) with
  | none => rfl
  | some j =>
    obtain ⟨hj, -, -⟩ := List.findIdx?_eq_some_iff_getElem.1 hidx
    have hino := loadU32_of_load (load_name (h.record hj) (h.name hj)).2 (h.inos _ (List.getElem_mem hj))
    simp only [Option.bind_some, List.getElem?_eq_getElem hj, hino]

theorem listEntries (h : Stores m p d) : listEntries m p = d.listEntries := by
  refine List.ext_getElem? fun j => ?_
  rw [Flat.listEntries, Directory.listEntries, h.count, List.getElem?_map, List.getElem?_map]
  by_cases hj : j < d.length
  · rw [List.getElem?_range hj, List.getElem?_eq_getElem hj, Option.map_some, Option.map_some,
      nameAt_record (h.record hj) (h.name hj)]
  · rw [List.getElem?_eq_none (by simpa using hj), List.getElem?_eq_none (by simpa using hj)]
    rfl

/-! ## The functions of `directory.c` -/

theorem of_records (hcount : Flat.count m p = d.length) (hroom : d.length ≤ maxBlocks)
    (hrecords : ∀ j (hj : j < d.length), Flat.record m p j = encodeEntry d[j])
    (hnames : ∀ e ∈ d, NameOk e.name) (hinos : ∀ e ∈ d, e.inodeNumber < 4294967296) :
    Stores m p d where
  entries := by
    refine List.ext_getElem? fun j => ?_
    rw [getElem?_entries, hcount, List.getElem?_map]
    split
    · rename_i hj
      rw [hrecords j hj, List.getElem?_eq_getElem hj, Option.map_some]
    · rename_i hj
      rw [List.getElem?_eq_none (Nat.le_of_not_lt hj), Option.map_none]
  room := hroom
  names := hnames
  inos := hinos

theorem init (m : Memory) (p : DirPtr) : Stores (init m p) p Directory.init := by
  refine of_records ?_ (by decide) ?_ ?_ ?_
  · rw [Flat.init, count_setEntry _ _ _ (by decide) (by decide),
      count_setEntry _ _ _ (by decide) (by decide), count_setCount _ _ (by decide)]
    rfl
  · intro j hj
    rw [Flat.init, record_setEntry _ _ _ _ _ (by decide), record_setEntry _ _ _ _ _ (by decide)]
    have hj : j = 0 ∨ j = 1 := by
      simp only [Directory.init, List.length_cons, List.length_nil] at hj
      omega
    rcases hj with rfl | rfl
    · rfl
    · rfl
  · intro e he
    simp only [Directory.init, List.mem_cons, List.not_mem_nil, or_false] at he
    rcases he with rfl | rfl
    · exact ⟨by decide, by decide, by decide⟩
    · exact ⟨by decide, by decide, by decide⟩
  · intro e he
    simp only [Directory.init, List.mem_cons, List.not_mem_nil, or_false] at he
    rcases he with rfl | rfl
    · decide
    · decide

/-- `directory_add_entry` on the bytes fails where it fails on the value,
and else stores the new value. -/
theorem addEntry (h : Stores m p d) {name : CStr} (hname : 0 ∉ name) (ino : Nat) :
    addEntry m p name ino = none ∧ d.addEntry name ino = none ∨
      ∃ m' d', addEntry m p name ino = some m' ∧ d.addEntry name ino = some d' ∧ Stores m' p d' := by
  have hfound : (Flat.find m p name).isSome = d.any (fun e => e.name == name) := by
    rw [h.find hname, List.findIdx?_isSome]
  rw [Flat.addEntry, Directory.addEntry, hfound, h.count]
  split
  · exact Or.inl ⟨rfl, rfl⟩
  rename_i hlen
  split
  · exact Or.inl ⟨rfl, rfl⟩
  rename_i hroom
  split
  · exact Or.inl ⟨rfl, rfl⟩
  have hok : NameOk name := ⟨fun hnil => hlen (by simp [hnil]), by omega, hname⟩
  have hlt : d.length < maxBlocks := Nat.lt_of_not_le hroom
  refine Or.inr ⟨_, _, rfl, rfl, of_records ?_ ?_ ?_ ?_ ?_⟩
  · rw [count_setCount _ _ (by simp only [maxBlocks] at hlt; omega)]
    simp
  · rw [List.length_append]
    exact hlt
  · intro j hj
    have hj' : j < d.length + 1 := by simpa using hj
    rw [record_setCount _ _ _ (by omega), record_setEntry _ _ _ _ _ (by omega)]
    by_cases hlast : j = d.length
    · subst hlast
      simp [encodeEntry, encodeU32_u32]
    · rw [if_neg hlast, h.record (by omega), List.getElem_append_left (by omega)]
  · intro e he
    rcases List.mem_append.1 he with hold | hnew
    · exact h.names e hold
    · simp only [List.mem_singleton] at hnew
      rw [hnew]
      exact hok
  · intro e he
    rcases List.mem_append.1 he with hold | hnew
    · exact h.inos e hold
    · simp only [List.mem_singleton] at hnew
      rw [hnew, u32]
      exact Nat.mod_lt _ (by decide)

theorem removeEntry (h : Stores m p d) {name : CStr} (hname : 0 ∉ name) :
    removeEntry m p name = none ∧ d.removeEntry name = none ∨
      ∃ m' d', removeEntry m p name = some m' ∧ d.removeEntry name = some d' ∧ Stores m' p d' := by
  by_cases hlen : name.length = 0
  · rw [Flat.removeEntry, Directory.removeEntry, if_pos hlen, if_pos hlen]
    exact Or.inl ⟨rfl, rfl⟩
  have hfound : d.any (fun e => e.name == name) = (Flat.find m p name).isSome := by
    rw [h.find hname, List.findIdx?_isSome]
  have herase := @List.eraseP_eq_eraseIdx _ d fun e => e.name == name
  cases hm : Flat.removeEntry m p name with
  | none =>
    left
    refine ⟨rfl, ?_⟩
    rw [Flat.removeEntry, if_neg hlen] at hm
    rw [Directory.removeEntry, if_neg hlen, hfound]
    cases hj : Flat.find m p name with
    | none => rfl
    | some j =>
      rw [hj] at hm
      cases hm
  | some m' =>
    right
    obtain ⟨j, hj, hentries⟩ := entries_removeEntry (h.count ▸ h.room) hm
    rw [h.find hname] at hj
    rw [hj] at herase
    refine ⟨m', d.eraseIdx j, rfl, ?_, ?_, ?_, ?_, ?_⟩
    · rw [Directory.removeEntry, if_neg hlen, hfound, h.find hname, hj, herase]
      rfl
    · rw [hentries, h.entries, List.eraseIdx_map]
    · exact Nat.le_trans (List.length_eraseIdx_le ..) h.room
    · exact fun e he => h.names e (List.mem_of_mem_eraseIdx he)
    · exact fun e he => h.inos e (List.mem_of_mem_eraseIdx he)

end Stores

/-! ## Runs -/

inductive Call where
  | add (name : CStr) (ino : Nat)
  | remove (name : CStr)
  deriving DecidableEq, Repr

def Call.name : Call → CStr
  | .add name _ => name
  | .remove name => name

/-- What the call leaves, and what it returns. -/
def Call.run (m : Memory) (p : DirPtr) : Call → Memory × Int
  | .add name ino => match addEntry m p name ino with
      | some m' => (m', 0)
      | none => (m, -1)
  | .remove name => match removeEntry m p name with
      | some m' => (m', 0)
      | none => (m, -1)

theorem Call.run_failed {m : Memory} {p : DirPtr} {c : Call} (h : (c.run m p).2 = -1) :
    (c.run m p).1 = m := by
  cases c with
  | add name ino =>
    rw [Call.run] at h ⊢
    split at h
    · cases h
    · rfl
  | remove name =>
    rw [Call.run] at h ⊢
    split at h
    · cases h
    · rfl

theorem Call.run_result (m : Memory) (p : DirPtr) (c : Call) :
    (c.run m p).2 = 0 ∨ (c.run m p).2 = -1 := by
  cases c with
  | add name ino =>
    rw [Call.run]
    split
    · exact Or.inl rfl
    · exact Or.inr rfl
  | remove name =>
    rw [Call.run]
    split
    · exact Or.inl rfl
    · exact Or.inr rfl

/-- What calls from `directory_init` on leave, with those that succeeded,
the oldest first; the entries of `directory_init` count as adds. -/
inductive Reached (p : DirPtr) : List Call → Memory → Prop where
  | init (m : Memory) : Reached p [.add dot 0, .add dotDot 0] (init m p)
  | success {log : List Call} {m m' : Memory} (c : Call) : Reached p log m → 0 ∉ c.name →
      c.run m p = (m', 0) → Reached p (log ++ [c]) m'
  | failure {log : List Call} {m m' : Memory} (c : Call) : Reached p log m → 0 ∉ c.name →
      c.run m p = (m', -1) → Reached p log m'

/-- The adds that no remove of their name follows, the oldest first. -/
def present : List Call → Directory
  | [] => []
  | .add name ino :: log =>
      if .remove name ∈ log then present log else ⟨name, u32 ino⟩ :: present log
  | .remove _ :: log => present log

/-- The inode number of the last add of `name`, unless a remove of it
follows. -/
def lastAdd (log : List Call) (name : CStr) : Option Nat :=
  match log.reverse.find? (fun c => c.name == name) with
  | some (.add _ ino) => some (u32 ino)
  | _ => none

theorem present_add (log : List Call) (name : CStr) (ino : Nat) :
    present (log ++ [.add name ino]) = present log ++ [⟨name, u32 ino⟩] := by
  induction log with
  | nil => simp [present]
  | cons c log ih =>
    cases c with
    | add n i =>
      simp only [List.cons_append, present, ih, List.mem_append, List.mem_singleton, reduceCtorEq,
        or_false]
      split
      · rfl
      · rfl
    | remove n => exact ih

theorem present_remove (log : List Call) (name : CStr) :
    present (log ++ [.remove name]) = (present log).filter (fun e => e.name ≠ name) := by
  induction log with
  | nil => simp [present]
  | cons c log ih =>
    cases c with
    | add n i =>
      simp only [List.cons_append, present, ih, List.mem_append, List.mem_singleton, Call.remove.injEq]
      by_cases hlater : Call.remove n ∈ log
      · rw [if_pos (Or.inl hlater), if_pos hlater]
      · by_cases hn : n = name
        · rw [if_pos (Or.inr hn), if_neg hlater, List.filter_cons_of_neg (by simp [hn])]
        · rw [if_neg (by simp [hlater, hn]), if_neg hlater, List.filter_cons_of_pos (by simp [hn])]
    | remove n => exact ih

theorem lastAdd_add (log : List Call) (n name : CStr) (ino : Nat) :
    lastAdd (log ++ [.add n ino]) name = if n = name then some (u32 ino) else lastAdd log name := by
  rw [lastAdd, List.reverse_append, List.reverse_singleton, List.singleton_append]
  by_cases hn : n = name
  · rw [if_pos hn, List.find?_cons_of_pos (by simpa [Call.name] using hn)]
  · rw [if_neg hn, List.find?_cons_of_neg (by simpa [Call.name] using hn), lastAdd]

theorem lastAdd_remove (log : List Call) (n name : CStr) :
    lastAdd (log ++ [.remove n]) name = if n = name then none else lastAdd log name := by
  rw [lastAdd, List.reverse_append, List.reverse_singleton, List.singleton_append]
  by_cases hn : n = name
  · rw [if_pos hn, List.find?_cons_of_pos (by simpa [Call.name] using hn)]
  · rw [if_neg hn, List.find?_cons_of_neg (by simpa [Call.name] using hn), lastAdd]

/-- What a run keeps: the bytes stand for the adds that are left, under
distinct names, and a name is found under its last add. -/
structure Mapped (p : DirPtr) (log : List Call) (m : Memory) : Prop where
  stores : Stores m p (present log)
  nodup : ((present log).map DirEntry.name).Nodup
  last : ∀ name, lastAdd log name = ((present log).entryNamed name).map DirEntry.inodeNumber

theorem eraseP_eq_filter {d : Directory} (h : (d.map DirEntry.name).Nodup) (name : CStr) :
    d.eraseP (fun e => e.name == name) = d.filter (fun e => e.name ≠ name) := by
  induction d with
  | nil => rfl
  | cons e d ih =>
    rw [List.map_cons, List.nodup_cons] at h
    by_cases he : e.name = name
    · rw [List.eraseP_cons_of_pos (by simp [he]), List.filter_cons_of_neg (by simp [he])]
      refine (List.filter_eq_self.2 fun x hx => ?_).symm
      have hne : x.name ≠ name := by
        intro hx'
        exact h.1 (List.mem_map.2 ⟨x, hx, hx'.trans he.symm⟩)
      simpa using hne
    · rw [List.eraseP_cons_of_neg (by simp [he]), List.filter_cons_of_pos (by simp [he]), ih h.2]

theorem Mapped.add {p : DirPtr} {log : List Call} {m m' : Memory} (h : Mapped p log m) {name : CStr}
    {ino : Nat} (hname : 0 ∉ name) (hm : addEntry m p name ino = some m') :
    Mapped p (log ++ [.add name ino]) m' := by
  rcases h.stores.addEntry hname ino with ⟨hnone, -⟩ | ⟨m₁, d', hm₁, hd, hstores⟩
  · rw [hm] at hnone
    cases hnone
  · rw [hm] at hm₁
    cases hm₁
    obtain ⟨-, -, -, habsent, rfl⟩ := Directory.addEntry_some hd
    refine ⟨by rwa [present_add], ?_, fun other => ?_⟩
    · rw [present_add, List.map_append, List.nodup_append]
      refine ⟨h.nodup, by simp, ?_⟩
      intro x hx y hy hxy
      simp only [List.map_cons, List.map_nil, List.mem_singleton] at hy
      exact Directory.not_mem_names habsent (hy ▸ hxy ▸ hx)
    · rw [lastAdd_add, present_add]
      by_cases ho : other = name
      · subst ho
        rw [if_pos rfl, Directory.entryNamed_add_self habsent]
        rfl
      · rw [if_neg (fun hn => ho hn.symm), Directory.entryNamed_add_ne _ ho, h.last other]

theorem Mapped.remove {p : DirPtr} {log : List Call} {m m' : Memory} (h : Mapped p log m) {name : CStr}
    (hname : 0 ∉ name) (hm : removeEntry m p name = some m') :
    Mapped p (log ++ [.remove name]) m' := by
  rcases h.stores.removeEntry hname with ⟨hnone, -⟩ | ⟨m₁, d', hm₁, hd, hstores⟩
  · rw [hm] at hnone
    cases hnone
  · rw [hm] at hm₁
    cases hm₁
    obtain ⟨-, rfl⟩ := Directory.removeEntry_some hd
    have hleft : present (log ++ [.remove name]) = (present log).without name := by
      rw [present_remove, Directory.without, eraseP_eq_filter h.nodup]
    refine ⟨by rwa [hleft], ?_, fun other => ?_⟩
    · rw [hleft]
      exact h.nodup.sublist (List.Sublist.map _ (List.eraseP_sublist ..))
    · rw [lastAdd_remove]
      by_cases ho : other = name
      · subst ho
        have hgone : (present (log ++ [.remove other])).entryNamed other = none := by
          simp [present_remove, Directory.entryNamed]
        rw [if_pos rfl, hgone]
        rfl
      · rw [if_neg (fun hn => ho hn.symm), hleft, Directory.entryNamed_without_ne _ ho, h.last other]

theorem Reached.mapped {p : DirPtr} {log : List Call} {m : Memory} (h : Reached p log m) :
    Mapped p log m := by
  induction h with
  | init m =>
    have hinit : present [.add dot 0, .add dotDot 0] = Directory.init := by
      simp [present, Directory.init, u32_of_lt]
    refine ⟨by rw [hinit]; exact Stores.init m p, by rw [hinit]; decide, fun name => ?_⟩
    change lastAdd (([] ++ [.add dot 0]) ++ [.add dotDot 0]) name = _
    rw [lastAdd_add, lastAdd_add, hinit]
    by_cases hdd : dotDot = name
    · simp [← hdd, Directory.entryNamed, Directory.init, u32_of_lt]
    · by_cases hd : dot = name
      · simp [← hd, Directory.entryNamed, Directory.init, u32_of_lt]
      · simp [hd, hdd, Directory.entryNamed, Directory.init, lastAdd]
  | success c _ hnul hrun ih =>
    cases c with
    | add name ino =>
      rw [Call.run] at hrun
      split at hrun
      · rename_i hm
        cases hrun
        exact ih.add hnul hm
      · cases hrun
    | remove name =>
      rw [Call.run] at hrun
      split at hrun
      · rename_i hm
        cases hrun
        exact ih.remove hnul hm
      · cases hrun
  | @failure log m m' c _ _ hrun ih =>
    have hsame : (c.run m p).1 = m := Call.run_failed (by rw [hrun])
    have hsame : m' = m := by simpa [hrun] using hsame
    rw [hsame]
    exact ih

/-- A directory after any calls from `directory_init` on. -/
theorem directory_map (p : DirPtr) (log : List Call) (m : Memory) (h : Reached p log m) :
    count m p ≤ maxBlocks ∧
    (listEntries m p).Nodup ∧
    (∀ name ∈ listEntries m p, name ≠ [] ∧ name.length < maxFilenameLen) ∧
    (∀ name, 0 ∉ name → lookup m p name =
      match lastAdd log name with
      | some ino => toInt ino
      | none => -1) ∧
    listEntries m p = (present log).map DirEntry.name ∧
    ∀ c : Call, (c.run m p).2 = -1 → (c.run m p).1 = m := by
  have hmap := h.mapped
  have hlist := hmap.stores.listEntries
  refine ⟨?_, ?_, ?_, ?_, hlist, fun c => c.run_failed⟩
  · rw [hmap.stores.count]
    exact hmap.stores.room
  · rw [hlist]
    exact hmap.nodup
  · intro name hname
    rw [hlist] at hname
    obtain ⟨e, he, rfl⟩ := List.mem_map.1 hname
    exact ⟨(hmap.stores.names e he).ne_nil, (hmap.stores.names e he).short⟩
  · intro name hname
    rw [hmap.stores.lookup hname, hmap.last name]
    cases hfind : Directory.entryNamed (present log) name with
    | none =>
      unfold Directory.entryNamed at hfind
      rw [Directory.lookup, hfind]
      rfl
    | some e =>
      unfold Directory.entryNamed at hfind
      rw [Directory.lookup, hfind]
      rfl

/-- The calls in order, with the log of those that succeeded. -/
def runCalls (p : DirPtr) : List Call → List Call → Memory → List Call × Memory
  | [], log, m => (log, m)
  | c :: cs, log, m =>
      if (c.run m p).2 = 0 then runCalls p cs (log ++ [c]) (c.run m p).1
      else runCalls p cs log (c.run m p).1

theorem Reached.runCalls {p : DirPtr} {cs log : List Call} {m : Memory} (h : Reached p log m)
    (hnul : ∀ c ∈ cs, 0 ∉ c.name) :
    Reached p (runCalls p cs log m).1 (runCalls p cs log m).2 := by
  induction cs generalizing log m with
  | nil => exact h
  | cons c cs ih =>
    have hrest : ∀ c ∈ cs, 0 ∉ c.name := fun c hc => hnul c (List.mem_cons_of_mem _ hc)
    have hc := hnul c List.mem_cons_self
    rw [Flat.runCalls]
    rcases c.run_result m p with hok | hfailed
    · rw [if_pos hok]
      exact ih (.success c h hc (Prod.ext rfl hok)) hrest
    · rw [if_neg (by rw [hfailed]; decide)]
      exact ih (.failure c h hc (Prod.ext rfl hfailed)) hrest

/-- Adds of `a` and `b`, a second add of `a` that is refused, a remove of
`a`, one of `c` that is refused, and `a` again. -/
def someCalls : List Call :=
  [.add [97] 5, .add [98] 6, .add [97] 7, .remove [97], .remove [99], .add [97] 9]

theorem directory_map_calls :
    ∃ log m, Reached ⟨0, 0⟩ log m ∧ (runCalls ⟨0, 0⟩ someCalls [.add dot 0, .add dotDot 0]
        (init (fun _ => 0) ⟨0, 0⟩)).2 = m ∧
      listEntries m ⟨0, 0⟩ = [dot, dotDot, [98], [97]] ∧ lookup m ⟨0, 0⟩ [97] = 9 ∧
      lookup m ⟨0, 0⟩ [98] = 6 ∧ lookup m ⟨0, 0⟩ [99] = -1 ∧
      ((Call.add [98] 1).run m ⟨0, 0⟩).1 = m := by
  have hnul : ∀ c ∈ someCalls, 0 ∉ c.name := by decide
  have hreach := (Reached.init (p := ⟨0, 0⟩) (fun _ => 0)).runCalls hnul
  have hlog : (runCalls ⟨0, 0⟩ someCalls [.add dot 0, .add dotDot 0]
      (init (fun _ => 0) ⟨0, 0⟩)).1 = [.add dot 0, .add dotDot 0, .add [97] 5, .add [98] 6,
        .remove [97], .add [97] 9] := by
    decide +kernel
  rw [hlog] at hreach
  obtain ⟨-, -, -, hlookup, hlist, hfailed⟩ := directory_map _ _ _ hreach
  refine ⟨_, _, hreach, rfl, hlist.trans (by decide +kernel), ?_, ?_, ?_, ?_⟩
  · rw [hlookup _ (by decide)]
    decide +kernel
  · rw [hlookup _ (by decide)]
    decide +kernel
  · rw [hlookup _ (by decide)]
    decide +kernel
  · exact hfailed _ (by decide +kernel)

/-- The inode number 4294967295 is returned as the -1 of an absent name. -/
theorem directory_map_unsigned :
    ∃ log m, Reached ⟨0, 0⟩ log m ∧ [97] ∈ listEntries m ⟨0, 0⟩ ∧
      lastAdd log [97] = some 4294967295 ∧ lookup m ⟨0, 0⟩ [97] ≠ 4294967295 ∧ lookup m ⟨0, 0⟩ [97] = -1 := by
  have hadd : (Call.add [97] 4294967295).run (init (fun _ => 0) ⟨0, 0⟩) ⟨0, 0⟩ =
      (((Call.add [97] 4294967295).run (init (fun _ => 0) ⟨0, 0⟩) ⟨0, 0⟩).1, 0) :=
    Prod.ext rfl (by decide +kernel)
  refine ⟨_, _, .success _ (.init fun _ => 0) (by decide) hadd, ?_, ?_, ?_, ?_⟩
  · decide +kernel
  · decide +kernel
  · decide +kernel
  · decide +kernel

end SistemasOperativos.FileSystem.Flat
