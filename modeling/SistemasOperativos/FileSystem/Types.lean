/-
SistemasOperativos.FileSystem.Types — the data model of `TP File System`:
the constants of `config.h` and `inode.h`, the structs of `inode.h`,
`intmap.h`, `superblock.h`, `directory.h` and `filesystem.h`, and the
error codes the operations return.

Translation notes. A C string is the list of its bytes before the NUL,
so `strlen` is `List.length` and `strcmp … == 0` is list equality. The
fixed-width fields are naturals and every store into one of them goes
through `u16` / `u32`. `filesystem_t` is generic in `δ`, the model of
`data_block`, because directories and file contents share that array and
`Directory.lean` gives two readings of it. The slot value `(uint32_t) -1`
of `direct_block_ptrs` is `none`. The fixed-width stores are irreducible:
unification must not count up to their bounds.

The three time stamps are kept, but no property here is about them:
`Fs.untimed` erases them, and two states with the same erasure are the
same file system.
-/
import Mathlib.Logic.Function.Basic

namespace SistemasOperativos.FileSystem

/-! ## `config.h` -/

abbrev maxInodes : Nat := 128
abbrev maxBlocks : Nat := 1024
abbrev blockSize : Nat := 4096

instance : @NeZero Nat Zero.ofOfNat0 maxInodes := ⟨by decide⟩

abbrev maxFilenameLen : Nat := 32
abbrev maxPathLen : Nat := 256
abbrev maxDirDepth : Nat := 16

abbrev permRead : Nat := 4
abbrev permWrite : Nat := 2
abbrev permExec : Nat := 1
abbrev permRwx : Nat := 7

abbrev fsModeDir : Nat := 0o040000
abbrev fsModeFile : Nat := 0o100000
abbrev fsModeSymlink : Nat := 0o120000

/-! ## Error codes (`errno.h`) -/

abbrev eperm : Int := 1
abbrev enoent : Int := 2
abbrev eio : Int := 5
abbrev eexist : Int := 17
abbrev enotdir : Int := 20
abbrev eisdir : Int := 21
abbrev einval : Int := 22
abbrev enospc : Int := 28
abbrev enametoolong : Int := 36
abbrev enotempty : Int := 39

/-! ## Bytes, strings and fixed-width stores -/

/-- The bytes of a C string before its NUL. -/
abbrev CStr := List UInt8

/-- The bytes of an ASCII literal. -/
def cstr (s : String) : CStr := s.toList.map (fun c => c.toNat.toUInt8)

abbrev slash : UInt8 := 47

abbrev dot : CStr := [46]
abbrev dotDot : CStr := [46, 46]

/-- `NAME_ROOT`. -/
abbrev nameRoot : CStr := [slash]

/-- A store into a `uint16_t`. -/
@[irreducible] def u16 (n : Nat) : Nat := n % 65536

/-- A store into a `uint32_t`. -/
@[irreducible] def u32 (n : Nat) : Nat := n % 4294967296

theorem u32_of_lt {n : Nat} (h : n < 4294967296) : u32 n = n := by
  rw [u32, Nat.mod_eq_of_lt h]

/-- `x++` on a `uint32_t`. -/
@[irreducible] def u32Inc (n : Nat) : Nat := u32 (n + 1)

/-- `x--` on a `uint32_t`. -/
@[irreducible] def u32Dec (n : Nat) : Nat := if n = 0 then 4294967295 else n - 1

/-- `x++` on a `uint16_t`. -/
@[irreducible] def u16Inc (n : Nat) : Nat := u16 (n + 1)

/-- `x--` on a `uint16_t`. -/
@[irreducible] def u16Dec (n : Nat) : Nat := if n = 0 then 65535 else n - 1

/-- An `off_t` converted to `size_t` or, through `u32`, to `uint32_t`. -/
@[irreducible] def toSize (n : Int) : Nat := (n % 18446744073709551616).toNat

/-- A `uint32_t` returned as an `int`. -/
def toInt (n : Nat) : Int := if n < 2147483648 then n else (n : Int) - 4294967296

/-! ## Inodes -/

abbrev numDirectBlocks : Nat := 12

inductive InodeType where
  | file
  | dir
  | symlink
  deriving DecidableEq, Repr

structure Inode where
  fileSizeBytes : Nat
  ownerUserId : Nat
  ownerGroupId : Nat
  permissionBits : Nat
  lastAccessTime : Int
  lastModificationTime : Int
  lastMetadataChangeTime : Int
  hardLinksCount : Nat
  directBlockPtrs : Nat → Option Nat
  inodeType : InodeType

/-! ## The maps and the superblock -/

/-- `intmap_t`. The code only ever stores 0 and 1, so a cell is a `Bool`. -/
structure Intmap where
  inodes : Fin maxInodes → Bool
  blocks : Nat → Bool

structure Superblock where
  totalInodes : Nat
  totalBlocks : Nat
  freeInodesCount : Nat
  freeBlocksCount : Nat
  blockSizeBytes : Nat
  maxFileSizeBytes : Nat
  maxFilenameLength : Nat
  maxPathLength : Nat
  rootInodeNumber : Fin maxInodes
  deriving DecidableEq, Repr

/-! ## Directories -/

structure DirEntry where
  name : CStr
  inodeNumber : Nat
  deriving DecidableEq, Repr

/-- `directory_t` as a value: `entries[0 .. entry_count)`. -/
abbrev Directory := List DirEntry

/-- `sizeof(dir_entry_t)`: the name field and a `uint32_t`. -/
abbrev dirEntrySize : Nat := maxFilenameLen + 4

/-- `sizeof(directory_t)`: `entries[MAX_BLOCKS]` and `entry_count`. -/
abbrev directorySize : Nat := maxBlocks * dirEntrySize + 4

/-- What `get_directory_by_inode` returns: the address of block `block`,
reached through inode `inode`. -/
structure DirPtr where
  inode : Fin maxInodes
  block : Nat
  deriving DecidableEq, Repr

/-! ## The file system -/

structure Fs (δ : Type) where
  inodes : Fin maxInodes → Inode
  intmap : Intmap
  superblock : Superblock
  data : δ

/-- What an operation reads from the process: `getuid()`, `getgid()` and
one reading of `time()` for the whole call. -/
structure Ctx where
  uid : Nat
  gid : Nat
  now : Int

/-- An access of `fs->inodes[i]` outside the array. The state after it
is undefined. -/
inductive Fault where
  | inodeIndex (i : Int)
  deriving DecidableEq, Repr

variable {δ : Type}

/-- Store through `&fs->inodes[i]`. -/
def Fs.modifyInode (s : Fs δ) (i : Fin maxInodes) (f : Inode → Inode) : Fs δ :=
  { s with inodes := Function.update s.inodes i (f (s.inodes i)) }

@[simp] theorem Fs.modifyInode_intmap (s : Fs δ) (i : Fin maxInodes) (f : Inode → Inode) :
    (s.modifyInode i f).intmap = s.intmap := rfl

@[simp] theorem Fs.modifyInode_superblock (s : Fs δ) (i : Fin maxInodes) (f : Inode → Inode) :
    (s.modifyInode i f).superblock = s.superblock := rfl

@[simp] theorem Fs.modifyInode_data (s : Fs δ) (i : Fin maxInodes) (f : Inode → Inode) :
    (s.modifyInode i f).data = s.data := rfl

/-! ## Erasing the time stamps -/

def Inode.untimed (n : Inode) : Inode :=
  { n with lastAccessTime := 0, lastModificationTime := 0, lastMetadataChangeTime := 0 }

def Fs.untimed (s : Fs δ) : Fs δ := { s with inodes := fun i => (s.inodes i).untimed }

/-- A store that only touches time stamps is invisible after erasure. -/
theorem Fs.untimed_modifyInode (s : Fs δ) (i : Fin maxInodes) {f : Inode → Inode}
    (hf : ∀ n, (f n).untimed = n.untimed) : (s.modifyInode i f).untimed = s.untimed := by
  simp only [Fs.untimed, Fs.modifyInode, Fs.mk.injEq, and_self, and_true]
  funext j
  by_cases hj : j = i
  · subst hj; simp [hf]
  · simp [hj]

end SistemasOperativos.FileSystem
