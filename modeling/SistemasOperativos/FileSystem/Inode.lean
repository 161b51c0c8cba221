/-
SistemasOperativos.FileSystem.Inode — `intmap.c` and `inode.c`.

Translation notes. A function that returns an index or -1 returns an
`Option`; `allocate_inode`, which also changes the file system, returns
the index with the new state. A pointer `&fs->inodes[i]` is the index
`i`, and the guards against NULL pointers disappear with it. The slot
loops of `inode_free`, `fs_delete_file` and `fisopfs_truncate` are folds
over the slot numbers; the last two are the same loop and share
`releaseBlocks`, which lives in `Filesystem.lean` because it also zeroes
the blocks. `find_free_inode` has no caller and is left out.
-/
import SistemasOperativos.FileSystem.Types
import Mathlib.Data.Fin.Basic

namespace SistemasOperativos.FileSystem

variable {δ : Type}

/-! ## `intmap.c` -/

def intmapInit : Intmap := { inodes := fun _ => false, blocks := fun _ => false }

def setInodeUsed (bm : Intmap) (i : Fin maxInodes) : Intmap :=
  { bm with inodes := Function.update bm.inodes i true }

def clearInodeUsed (bm : Intmap) (i : Fin maxInodes) : Intmap :=
  { bm with inodes := Function.update bm.inodes i false }

def setBlockUsed (bm : Intmap) (b : Nat) : Intmap :=
  if b ≥ maxBlocks then bm else { bm with blocks := Function.update bm.blocks b true }

def clearBlockUsed (bm : Intmap) (b : Nat) : Intmap :=
  if b ≥ maxBlocks then bm else { bm with blocks := Function.update bm.blocks b false }

def findFreeBlock (bm : Intmap) : Option Nat :=
  (List.range maxBlocks).find? (fun b => !bm.blocks b)

/-! ## `inode.c` -/

/-- Every field is overwritten, so the result does not depend on the
inode it is stored into. -/
def inodeInit (c : Ctx) : Inode where
  fileSizeBytes := 0
  ownerUserId := u16 c.uid
  ownerGroupId := u16 c.gid
  permissionBits := permRead
  lastAccessTime := c.now
  lastModificationTime := c.now
  lastMetadataChangeTime := c.now
  hardLinksCount := 1
  directBlockPtrs := fun _ => none
  inodeType := .file

def allocateInode (c : Ctx) (s : Fs δ) : Option (Fin maxInodes × Fs δ) :=
  match (List.finRange maxInodes).find? (fun i => !s.intmap.inodes i) with
  | some i =>
      let s := { s with intmap := setInodeUsed s.intmap i }
      some (i, s.modifyInode i (fun _ => inodeInit c))
  | none => none

def inodeUpdateAtime (c : Ctx) (i : Fin maxInodes) (s : Fs δ) : Fs δ :=
  s.modifyInode i (fun n => { n with lastAccessTime := c.now })

def inodeUpdateMtime (c : Ctx) (i : Fin maxInodes) (s : Fs δ) : Fs δ :=
  s.modifyInode i (fun n => { n with lastModificationTime := c.now })

def inodeUpdateCtime (c : Ctx) (i : Fin maxInodes) (s : Fs δ) : Fs δ :=
  s.modifyInode i (fun n => { n with lastMetadataChangeTime := c.now })

def inodeIncrementLinks (i : Fin maxInodes) (s : Fs δ) : Fs δ :=
  s.modifyInode i (fun n => { n with hardLinksCount := u16Inc n.hardLinksCount })

def inodeDecrementLinks (i : Fin maxInodes) (s : Fs δ) : Fs δ :=
  s.modifyInode i (fun n => { n with hardLinksCount := u16Dec n.hardLinksCount })

/-- `inode->direct_block_ptrs[k] = b`. -/
def setPtr (i : Fin maxInodes) (k : Nat) (b : Option Nat) (s : Fs δ) : Fs δ :=
  s.modifyInode i (fun n =>
    { n with directBlockPtrs := Function.update n.directBlockPtrs k b })

/-- Puts `b` in the first empty slot, whichever slot the caller needs. -/
def inodeAddDirectBlock (s : Fs δ) (i : Fin maxInodes) (b : Nat) : Option (Fs δ) :=
  if b ≥ maxBlocks then none
  else
    match (List.range numDirectBlocks).find?
        (fun k => (s.inodes i).directBlockPtrs k == none) with
    | some k =>
        let s := setPtr i k (some b) s
        some { s with intmap := setBlockUsed s.intmap b }
    | none => none

def inodeGetDirectBlock (n : Inode) (k : Nat) : Option Nat :=
  if k ≥ numDirectBlocks then none else n.directBlockPtrs k

/-- One turn of the slot loop of `inode_free`. -/
def inodeFreeSlot (i : Fin maxInodes) (s : Fs δ) (k : Nat) : Fs δ :=
  match (s.inodes i).directBlockPtrs k with
  | some b => setPtr i k none { s with intmap := clearBlockUsed s.intmap b }
  | none => s

/-- Clears the map bits but neither `free_inodes_count` nor
`free_blocks_count`: every caller has to do that. -/
def inodeFree (c : Ctx) (i : Fin maxInodes) (s : Fs δ) : Fs δ :=
  let s := (List.range numDirectBlocks).foldl (inodeFreeSlot i) s
  let s := { s with intmap := clearInodeUsed s.intmap i }
  s.modifyInode i (fun _ => inodeInit c)

end SistemasOperativos.FileSystem
