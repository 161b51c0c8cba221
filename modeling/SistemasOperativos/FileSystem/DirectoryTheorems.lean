/-
SistemasOperativos.FileSystem.DirectoryTheorems — what the functions of
`directory.c` do to a directory value.

A directory is kept as `DirOk`: it starts with the two entries of
`directory_init`, no name occurs twice, every name fits in its field and
every inode number is an index of `fs->inodes[]`. `addEntry` keeps it unconditionally and
`removeEntry` keeps it unless it removes `.` or `..`. The entries that
are not `.` or `..` are the `real` ones; on a directory that is `DirOk`
both functions act on the real entries alone.
-/
import SistemasOperativos.FileSystem.Directory

namespace SistemasOperativos.FileSystem

/-! ## The names `.` and `..` -/

/-- A name that is neither `.` nor `..`. -/
def realName (name : CStr) : Bool := name != dot && name != dotDot

theorem realName_iff (name : CStr) : realName name = true ↔ name ≠ dot ∧ name ≠ dotDot := by
  simp [realName]

/-- The entries other than `.` and `..`. -/
def Directory.real (d : Directory) : Directory := d.filter (fun e => realName e.name)

structure DirOk (d : Directory) : Prop where
  init : Directory.init <+: d
  nodup : (d.map DirEntry.name).Nodup
  inos : ∀ e ∈ d, e.inodeNumber < maxInodes
  short : ∀ e ∈ d, e.name.length < maxFilenameLen

namespace Directory

/-! ## Lookup -/

/-- The entry a lookup finds. -/
def entryNamed (d : Directory) (name : CStr) : Option DirEntry := d.find? (fun e => e.name == name)

theorem entryNamed_some {d : Directory} {name : CStr} {e : DirEntry} (h : d.entryNamed name = some e) :
    e ∈ d ∧ e.name = name := by
  refine ⟨List.mem_of_find?_eq_some h, ?_⟩
  simpa using List.find?_some h

theorem entryNamed_none {d : Directory} {name : CStr} (h : d.entryNamed name = none) :
    ∀ e ∈ d, e.name ≠ name := by
  simpa [entryNamed] using h

theorem toInt_of_lt {n : Nat} (h : n < maxInodes) : toInt n = n := by
  have : n < 2147483648 := by simp only [maxInodes] at h; omega
  simp [toInt, this]

theorem lookup_of_entryNamed {d : Directory} {name : CStr} {e : DirEntry}
    (h : d.entryNamed name = some e) (hi : e.inodeNumber < maxInodes) :
    d.lookup name = e.inodeNumber := by
  rw [entryNamed] at h
  simp [lookup, h, toInt_of_lt hi]

theorem lookup_of_entryNamed_none {d : Directory} {name : CStr} (h : d.entryNamed name = none) :
    d.lookup name = -1 := by
  rw [entryNamed] at h
  simp [lookup, h]

theorem entryNamed_none_of_lookup_neg {d : Directory} (hd : DirOk d) {name : CStr}
    (h : d.lookup name < 0) : d.entryNamed name = none := by
  cases he : d.entryNamed name with
  | none => rfl
  | some e =>
      have hi := hd.inos e (entryNamed_some he).1
      rw [lookup_of_entryNamed he hi] at h
      omega

/-! ## `.` and `..` -/

theorem entryNamed_dot {d : Directory} (hd : DirOk d) : d.entryNamed dot = some ⟨dot, 0⟩ := by
  obtain ⟨rest, rfl⟩ := hd.init
  rfl

theorem entryNamed_dotDot {d : Directory} (hd : DirOk d) : d.entryNamed dotDot = some ⟨dotDot, 0⟩ := by
  obtain ⟨rest, rfl⟩ := hd.init
  rfl

/-- A name that is not real can only be found with inode number 0. -/
theorem entryNamed_not_real {d : Directory} (hd : DirOk d) {name : CStr} {e : DirEntry}
    (hn : realName name = false) (h : d.entryNamed name = some e) : e.inodeNumber = 0 := by
  have hcases : name = dot ∨ name = dotDot := by
    by_contra hc
    rw [not_or] at hc
    rw [(realName_iff name).mpr hc] at hn
    cases hn
  rcases hcases with rfl | rfl
  · rw [entryNamed_dot hd] at h
    cases h; rfl
  · rw [entryNamed_dotDot hd] at h
    cases h; rfl

/-! ## `addEntry` -/

theorem addEntry_some {d d' : Directory} {name : CStr} {ino : Nat}
    (h : d.addEntry name ino = some d') :
    0 < name.length ∧ name.length < maxFilenameLen ∧ d.length < maxBlocks
      ∧ d.entryNamed name = none ∧ d' = d ++ [⟨name, u32 ino⟩] := by
  unfold addEntry at h
  split at h
  · cases h
  · split at h
    · cases h
    · split at h
      · cases h
      · rename_i h1 h2 h3
        refine ⟨by omega, by omega, by omega, ?_, (Option.some.inj h).symm⟩
        simpa [entryNamed] using h3

theorem u32_of_lt_maxInodes {n : Nat} (h : n < maxInodes) : u32 n = n :=
  u32_of_lt (h.trans (by decide))

theorem not_mem_names {d : Directory} {name : CStr} (h : d.entryNamed name = none) :
    name ∉ d.map DirEntry.name := by
  intro hm
  obtain ⟨e, he, hn⟩ := List.mem_map.mp hm
  exact entryNamed_none h e he hn

theorem DirOk.add {d : Directory} (hd : DirOk d) {name : CStr} {ino : Nat}
    (hn : d.entryNamed name = none) (hl : name.length < maxFilenameLen) (hi : ino < maxInodes) :
    DirOk (d ++ [⟨name, ino⟩]) where
  init := hd.init.trans (List.prefix_append _ _)
  nodup := by
    have hni := not_mem_names hn
    rw [List.map_append, List.nodup_append]
    refine ⟨hd.nodup, by simp, ?_⟩
    intro a ha b hb
    have hb' : b = name := by simpa using hb
    subst hb'
    exact fun hab => hni (hab ▸ ha)
  inos := by
    intro e he
    rcases List.mem_append.mp he with he | he
    · exact hd.inos e he
    · have : e = ⟨name, ino⟩ := by simpa using he
      subst this; exact hi
  short := by
    intro e he
    rcases List.mem_append.mp he with he | he
    · exact hd.short e he
    · have : e = ⟨name, ino⟩ := by simpa using he
      subst this; exact hl

/-- A name that is free in a directory that is `DirOk` is a real name. -/
theorem realName_of_entryNamed_none {d : Directory} (hd : DirOk d) {name : CStr}
    (h : d.entryNamed name = none) : realName name = true := by
  rw [realName_iff]
  constructor
  · rintro rfl; rw [entryNamed_dot hd] at h; cases h
  · rintro rfl; rw [entryNamed_dotDot hd] at h; cases h

theorem real_add (d : Directory) {name : CStr} (hn : realName name = true) (ino : Nat) :
    Directory.real (d ++ [⟨name, ino⟩]) = d.real ++ [⟨name, ino⟩] := by
  simp [Directory.real, List.filter_append, hn]

theorem entryNamed_add_ne (d : Directory) {name other : CStr} (h : other ≠ name) (ino : Nat) :
    Directory.entryNamed (d ++ [⟨name, ino⟩]) other = d.entryNamed other := by
  have : (name == other) = false := by simpa using fun hc => h hc.symm
  simp [entryNamed, List.find?_append, this]

theorem entryNamed_add_self {d : Directory} {name : CStr} (h : d.entryNamed name = none) (ino : Nat) :
    Directory.entryNamed (d ++ [⟨name, ino⟩]) name = some ⟨name, ino⟩ := by
  rw [entryNamed] at h
  simp [entryNamed, List.find?_append, h]

/-! ## `removeEntry` -/

/-- The directory without its entry called `name`. -/
def without (d : Directory) (name : CStr) : Directory := d.eraseP (fun e => e.name == name)

theorem removeEntry_some {d d' : Directory} {name : CStr} (h : d.removeEntry name = some d') :
    (∃ e, d.entryNamed name = some e) ∧ d' = d.without name := by
  unfold removeEntry at h
  split at h
  · cases h
  · split at h
    · rename_i hany
      refine ⟨?_, (Option.some.inj h).symm⟩
      rw [List.any_eq_true] at hany
      obtain ⟨e, he, hn⟩ := hany
      exact Option.isSome_iff_exists.mp (List.find?_isSome.mpr ⟨e, he, hn⟩)
    · cases h

theorem mem_of_mem_without {d : Directory} {name : CStr} {e : DirEntry}
    (h : e ∈ d.without name) : e ∈ d := List.mem_of_mem_eraseP h

theorem entryNamed_without_ne (d : Directory) {name other : CStr} (h : other ≠ name) :
    (d.without name).entryNamed other = d.entryNamed other := by
  induction d with
  | nil => rfl
  | cons a d ih =>
      by_cases ha : a.name = name
      · have hne : (name == other) = false := by simpa using fun hc => h hc.symm
        simp [without, entryNamed, ha, hne]
      · by_cases ho : a.name = other
        · simp [without, entryNamed, ho, h]
        · simpa [without, entryNamed, List.eraseP_cons, ha, List.find?_cons, ho] using ih

theorem real_without {d : Directory} {name : CStr} (hn : realName name = true) :
    (d.without name).real = d.real.without name := by
  induction d with
  | nil => rfl
  | cons a d ih =>
      by_cases ha : a.name = name
      · simp [without, Directory.real, ha, hn]
      · by_cases hr : realName a.name
        · simpa [without, Directory.real, List.eraseP_cons, List.filter_cons, ha, hr] using ih
        · simpa [without, Directory.real, List.eraseP_cons, List.filter_cons, ha, hr] using ih

theorem DirOk.without {d : Directory} (hd : DirOk d) {name : CStr}
    (hn : realName name = true) : DirOk (d.without name) where
  init := by
    obtain ⟨hdot, hdd⟩ := (realName_iff name).mp hn
    obtain ⟨rest, rfl⟩ := hd.init
    have h1 : (dot == name) = false := by simpa using fun h => hdot h.symm
    have h2 : (dotDot == name) = false := by simpa using fun h => hdd h.symm
    refine ⟨Directory.without rest name, ?_⟩
    simp only [Directory.init, Directory.without, List.cons_append, List.nil_append,
      List.eraseP_cons, h1, h2, cond_false]
  nodup := hd.nodup.sublist (List.eraseP_sublist.map _)
  inos := fun e he => hd.inos e (mem_of_mem_without he)
  short := fun e he => hd.short e (mem_of_mem_without he)

/-! ## Sizes -/

/-- A directory with a real entry has more than two entries. -/
theorem two_lt_length {d : Directory} (hd : DirOk d) {e : DirEntry} (he : e ∈ d.real) :
    2 < d.length := by
  obtain ⟨rest, rfl⟩ := hd.init
  have : e ∈ Directory.real rest := by
    simpa [Directory.real, Directory.init, List.filter_cons, realName] using he
  have hpos : 0 < rest.length := List.length_pos_of_mem (List.mem_filter.mp this).1
  simp only [Directory.init, List.length_append, List.length_cons, List.length_nil]
  omega

theorem DirOk.initial : DirOk Directory.init where
  init := List.prefix_refl _
  nodup := by decide
  inos := by decide
  short := by decide

end Directory

end SistemasOperativos.FileSystem
