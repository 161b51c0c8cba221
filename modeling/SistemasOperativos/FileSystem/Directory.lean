/-
SistemasOperativos.FileSystem.Directory — `directory.c`, and the two
readings of `data_block`.

`filesystem.c` reaches `data_block` in two ways: as bytes (`memcpy`,
`memset`) and, through the cast in `get_directory_by_inode`, as a
`directory_t` that starts at the first byte of a block. `DataArea` is
that interface. It has two instances:

* `Flat` — what the machine does. There is one byte array and a
  directory is decoded from, and written to, the 36868 bytes that start
  at its block. Nothing keeps those bytes apart from other blocks.
* `Attached` — every directory is a value attached to its inode, and
  `data_block` only holds file contents. This is the model of every
  property that is about the algorithms and not about that overlap.

Addresses are byte offsets into `data_block`. An address at or past
`MAX_BLOCKS * BLOCK_SIZE` is the memory behind the struct.
-/
import SistemasOperativos.FileSystem.Inode

namespace SistemasOperativos.FileSystem

/-! ## Memory -/

/-- The bytes of `data_block`, by address. -/
abbrev Memory := Nat → UInt8

/-- `memcpy(&m[a], bs, |bs|)`. -/
def store (m : Memory) (a : Nat) (bs : List UInt8) : Memory :=
  fun x => if a ≤ x ∧ x < a + bs.length then bs.getD (x - a) 0 else m x

/-- `memset(&m[a], v, n)`. -/
def memset (m : Memory) (a : Nat) (v : UInt8) (n : Nat) : Memory :=
  fun x => if a ≤ x ∧ x < a + n then v else m x

/-- `memcpy(out, &m[a], n)`. -/
def load (m : Memory) (a n : Nat) : List UInt8 := (List.range n).map (fun x => m (a + x))

/-- The four bytes of a little-endian `uint32_t`. -/
def encodeU32 (n : Nat) : List UInt8 :=
  [(n % 256).toUInt8, (n / 256 % 256).toUInt8, (n / 65536 % 256).toUInt8,
    (n / 16777216 % 256).toUInt8]

/-- The little-endian `uint32_t` at `a`. -/
def loadU32 (m : Memory) (a : Nat) : Nat :=
  (m a).toNat + 256 * (m (a + 1)).toNat + 65536 * (m (a + 2)).toNat
    + 16777216 * (m (a + 3)).toNat

/-- `strncpy(dst, s, n)` as the bytes it stores: `s` cut at `n`, padded
with zeros up to `n`. -/
def strncpyBytes (s : CStr) (n : Nat) : List UInt8 :=
  s.take n ++ List.replicate (n - s.length) 0

/-- `strcmp(&m[a], s) == 0`. -/
def strEqAt (m : Memory) : Nat → CStr → Bool
  | a, [] => m a == 0
  | a, c :: cs => m a == c && strEqAt m (a + 1) cs

/-! ## The interface of `data_block` -/

class DataArea (δ : Type) where
  /-- `calloc`. -/
  zeroed : δ
  bytes : δ → Memory
  setBytes : δ → Memory → δ
  directoryInit : δ → DirPtr → δ
  entryCount : δ → DirPtr → Nat
  /-- The inode number as an `int`, -1 when the name is absent. -/
  directoryLookup : δ → DirPtr → CStr → Int
  /-- `none` stands for -1. -/
  directoryAddEntry : δ → DirPtr → CStr → Nat → Option δ
  /-- `none` stands for -1. -/
  directoryRemoveEntry : δ → DirPtr → CStr → Option δ
  directoryListEntries : δ → DirPtr → List CStr

export DataArea (directoryInit entryCount directoryLookup directoryAddEntry
  directoryRemoveEntry directoryListEntries)

/-! ## Directories as values -/

namespace Directory

/-- `directory_init`: `.` and `..`, both with inode number 0. -/
def init : Directory := [⟨dot, 0⟩, ⟨dotDot, 0⟩]

def lookup (d : Directory) (name : CStr) : Int :=
  match d.find? (fun e => e.name == name) with
  | some e => toInt e.inodeNumber
  | none => -1

def addEntry (d : Directory) (name : CStr) (ino : Nat) : Option Directory :=
  if name.length = 0 ∨ name.length ≥ maxFilenameLen then none
  else if d.length ≥ maxBlocks then none
  else if d.any (fun e => e.name == name) then none
  else some (d ++ [⟨name, u32 ino⟩])

def removeEntry (d : Directory) (name : CStr) : Option Directory :=
  if name.length = 0 then none
  else if d.any (fun e => e.name == name) then some (d.eraseP (fun e => e.name == name))
  else none

def listEntries (d : Directory) : List CStr := d.map DirEntry.name

end Directory

/-- Contents in `bytes`, each directory a value of its own. -/
structure Attached where
  bytes : Memory
  dirs : Fin maxInodes → Directory

namespace Attached

def setDir (a : Attached) (i : Fin maxInodes) (d : Directory) : Attached :=
  { a with dirs := Function.update a.dirs i d }

instance : DataArea Attached where
  zeroed := { bytes := fun _ => 0, dirs := fun _ => [] }
  bytes := Attached.bytes
  setBytes a m := { a with bytes := m }
  directoryInit a p := a.setDir p.inode Directory.init
  entryCount a p := (a.dirs p.inode).length
  directoryLookup a p name := (a.dirs p.inode).lookup name
  directoryAddEntry a p name ino := ((a.dirs p.inode).addEntry name ino).map (a.setDir p.inode)
  directoryRemoveEntry a p name := ((a.dirs p.inode).removeEntry name).map (a.setDir p.inode)
  directoryListEntries a p := (a.dirs p.inode).listEntries

end Attached

/-! ## Directories in place -/

/-- `data_block` as the one byte array it is. -/
structure Flat where
  bytes : Memory

namespace Flat

/-- The first byte of the `directory_t` a pointer denotes. -/
def base (p : DirPtr) : Nat := p.block * blockSize

/-- `&dir->entries[j]`. -/
def entryAddr (p : DirPtr) (j : Nat) : Nat := base p + j * dirEntrySize

/-- `&dir->entry_count`. -/
def countAddr (p : DirPtr) : Nat := base p + maxBlocks * dirEntrySize

def count (m : Memory) (p : DirPtr) : Nat := loadU32 m (countAddr p)

def setCount (m : Memory) (p : DirPtr) (n : Nat) : Memory := store m (countAddr p) (encodeU32 n)

/-- The index of the first entry called `name`. -/
def find (m : Memory) (p : DirPtr) (name : CStr) : Option Nat :=
  (List.range (count m p)).find? (fun j => strEqAt m (entryAddr p j) name)

/-- `strncpy` into `entries[j].name`, then `entries[j].inode_number`. -/
def setEntry (m : Memory) (p : DirPtr) (j : Nat) (name : CStr) (ino : Nat) : Memory :=
  store (store m (entryAddr p j) (strncpyBytes name maxFilenameLen))
    (entryAddr p j + maxFilenameLen) (encodeU32 ino)

/-- `dir->entries[j] = dir->entries[j + 1]`. -/
def shiftEntry (p : DirPtr) (m : Memory) (j : Nat) : Memory :=
  store m (entryAddr p j) (load m (entryAddr p (j + 1)) dirEntrySize)

def init (m : Memory) (p : DirPtr) : Memory :=
  setEntry (setEntry (setCount m p 2) p 0 dot 0) p 1 dotDot 0

def lookup (m : Memory) (p : DirPtr) (name : CStr) : Int :=
  match find m p name with
  | some j => toInt (loadU32 m (entryAddr p j + maxFilenameLen))
  | none => -1

def addEntry (m : Memory) (p : DirPtr) (name : CStr) (ino : Nat) : Option Memory :=
  if name.length = 0 ∨ name.length ≥ maxFilenameLen then none
  else if count m p ≥ maxBlocks then none
  else if (find m p name).isSome then none
  else
    -- the store to `name[MAX_FILENAME_LEN - 1]` repeats a zero of `strncpy`
    some (setCount (setEntry m p (count m p) name ino) p (count m p + 1))

def removeEntry (m : Memory) (p : DirPtr) (name : CStr) : Option Memory :=
  if name.length = 0 then none
  else
    match find m p name with
    | some j =>
        let m' := (List.range' j (count m p - 1 - j)).foldl (shiftEntry p) m
        some (setCount m' p (count m p - 1))
    | none => none

/-- The C string at `a`, cut at the size of a name field. -/
def nameAt (m : Memory) (a : Nat) : CStr :=
  (load m a maxFilenameLen).takeWhile (fun b => b != 0)

def listEntries (m : Memory) (p : DirPtr) : List CStr :=
  (List.range (count m p)).map (fun j => nameAt m (entryAddr p j))

instance : DataArea Flat where
  zeroed := { bytes := fun _ => 0 }
  bytes := Flat.bytes
  setBytes _ m := { bytes := m }
  directoryInit f p := { bytes := init f.bytes p }
  entryCount f p := count f.bytes p
  directoryLookup f p name := lookup f.bytes p name
  directoryAddEntry f p name ino := (addEntry f.bytes p name ino).map Flat.mk
  directoryRemoveEntry f p name := (removeEntry f.bytes p name).map Flat.mk
  directoryListEntries f p := listEntries f.bytes p

end Flat

end SistemasOperativos.FileSystem
