/-
SistemasOperativos.FileSystem.Persistence — `fisops_init` and
`fisops_destroy`: the file system as a file on the host's disk.

`fisops_destroy` writes the struct `filesystem_t` as it stands in memory,
and `fisops_init` reads it back. The layout is the one of the x86-64 ABI:
members in order, each aligned to its size, integers with the low byte
first, an `enum` in four bytes. The struct is 4207784 bytes long.

Two things are not in the file. The struct ends with `data_block`, and
what a directory in one of the last blocks stores past its end is memory
behind the struct, which `fwrite` does not see and the next `calloc` does
not bring back. And a daemon that is killed never gets to
`fisops_destroy`.

`calloc` is taken to succeed. The bytes of a file that this program did
not write need not be a value of the model's types; `fisopsInit` is
`none` there.
-/
import SistemasOperativos.FileSystem.Fisopfs
import SistemasOperativos.Lib.Layout

namespace SistemasOperativos.FileSystem

open Layout

/-! ## The layout of `filesystem_t` -/

/-- `direct_block_ptrs[k]`, where -1 is an empty slot. -/
def ptrCodec : Codec (Option Nat) :=
  (uint 4).via (fun b => b.getD 4294967295) (fun n => some (if n = 4294967295 then none else some n))

def inodeTypeCodec : Codec InodeType :=
  (uint 4).via
    (fun t => match t with
      | .file => 0
      | .dir => 1
      | .symlink => 2)
    (fun n => match n with
      | 0 => some .file
      | 1 => some .dir
      | 2 => some .symlink
      | _ => none)

/-- The pointers of an inode: the array has `NUM_DIRECT_BLOCKS` elements. -/
def ofPtrs (f : Fin numDirectBlocks → Option Nat) (k : Nat) : Option Nat :=
  if h : k < numDirectBlocks then f ⟨k, h⟩ else none

/-- `inode_t`: 96 bytes, six of them padding before the times and two
before the pointers. -/
def inodeCodec : Codec Inode :=
  (pair (uint 4) (pair (uint 2) (pair (uint 2) (pair (uint 2) (pair (pad 6) (pair (int 8)
    (pair (int 8) (pair (int 8) (pair (uint 2) (pair (pad 2)
      (pair (array numDirectBlocks ptrCodec) inodeTypeCodec))))))))))).via
    (fun n => (n.fileSizeBytes, n.ownerUserId, n.ownerGroupId, n.permissionBits, (),
      n.lastAccessTime, n.lastModificationTime, n.lastMetadataChangeTime, n.hardLinksCount, (),
      (fun k => n.directBlockPtrs k.val), n.inodeType))
    (fun (size, uid, gid, perm, _, atime, mtime, ctime, links, _, ptrs, type) =>
      some
        { fileSizeBytes := size
          ownerUserId := uid
          ownerGroupId := gid
          permissionBits := perm
          lastAccessTime := atime
          lastModificationTime := mtime
          lastMetadataChangeTime := ctime
          hardLinksCount := links
          directBlockPtrs := ofPtrs ptrs
          inodeType := type })

/-- A cell of `intmap_t`. -/
def cellCodec : Codec Bool :=
  byte.via (fun b => if b then 1 else 0)
    (fun x => if x = 0 then some false else if x = 1 then some true else none)

def intmapCodec : Codec Intmap :=
  (pair (array maxInodes cellCodec) (array maxBlocks cellCodec)).via
    (fun bm => (bm.inodes, fun b => bm.blocks b.val))
    (fun (inodes, blocks) =>
      some { inodes := inodes, blocks := fun b => if h : b < maxBlocks then blocks ⟨b, h⟩ else false })

def superblockCodec : Codec Superblock :=
  (pair (uint 4) (pair (uint 4) (pair (uint 4) (pair (uint 4) (pair (uint 4) (pair (uint 4)
    (pair (uint 4) (pair (uint 4) (uint 4))))))))).via
    (fun sb => (sb.totalInodes, sb.totalBlocks, sb.freeInodesCount, sb.freeBlocksCount,
      sb.blockSizeBytes, sb.maxFileSizeBytes, sb.maxFilenameLength, sb.maxPathLength,
      sb.rootInodeNumber.val))
    (fun (totalInodes, totalBlocks, freeInodes, freeBlocks, block, file, name, path, root) =>
      if h : root < maxInodes then
        some
          { totalInodes := totalInodes
            totalBlocks := totalBlocks
            freeInodesCount := freeInodes
            freeBlocksCount := freeBlocks
            blockSizeBytes := block
            maxFileSizeBytes := file
            maxFilenameLength := name
            maxPathLength := path
            rootInodeNumber := ⟨root, h⟩ }
      else none)

/-- `sizeof(data_block)`. -/
abbrev dataSize : Nat := maxBlocks * blockSize

/-- What the struct holds of a file system. -/
structure Image where
  inodes : Fin maxInodes → Inode
  intmap : Intmap
  superblock : Superblock
  data : Fin dataSize → UInt8

def imageCodec : Codec Image :=
  (pair (array maxInodes inodeCodec) (pair intmapCodec (pair superblockCodec
    (pair (array dataSize byte) (pad 4))))).via
    (fun im => (im.inodes, im.intmap, im.superblock, im.data, ()))
    (fun (inodes, intmap, superblock, data, _) => some ⟨inodes, intmap, superblock, data⟩)

/-- `sizeof(filesystem_t)`. -/
def sizeofFs : Nat := imageCodec.size

theorem sizeofFs_eq : sizeofFs = 4207784 := rfl

def Fs.image (s : Fs Flat) : Image where
  inodes := s.inodes
  intmap := s.intmap
  superblock := s.superblock
  data := fun a => s.data.bytes a.val

/-- The file system in a struct, with `behind` in the memory after it. -/
def Image.toFs (im : Image) (behind : Memory) : Fs Flat where
  inodes := im.inodes
  intmap := im.intmap
  superblock := im.superblock
  data := ⟨fun a => if h : a < dataSize then im.data ⟨a, h⟩ else behind a⟩

/-! ## `fisops_init` and `fisops_destroy` -/

/-- The persistence file; `none` if there is none. -/
abbrev Disk := Option Bytes

/-- `new_fs`, in memory with `behind` after the struct. -/
def newFs (c : Ctx) (behind : Memory) : Fs Flat :=
  (fsInit c : Fs Flat).image.toFs behind

/-- `fisops_init`. `opens` is whether `fopen` can open a file that
exists. -/
def fisopsInit (c : Ctx) (behind : Memory) (opens : Bool) (disk : Disk) : Option (Fs Flat) :=
  match disk with
  | none => some (newFs c behind)
  | some file =>
      if ¬ opens then some (newFs c behind)
      else if file.length = 0 then some (newFs c behind)
      else if file.length < sizeofFs then some (newFs c behind)
      else (imageCodec.dec (file.take sizeofFs)).map (fun im => im.toFs behind)

/-- `fisops_destroy`. `written` is `none` if `fopen` fails, and otherwise
how many of the bytes reach the file, which `fopen` has emptied. -/
def fisopsDestroy (s : Fs Flat) (written : Option Nat) (disk : Disk) : Disk :=
  match written with
  | none => disk
  | some n => some ((imageCodec.enc s.image).take n)

/-! ## The daemon over its mounts -/

/-- The disk, and the file system while it is mounted. -/
structure Daemon where
  disk : Disk
  live : Option (Fs Flat)

inductive Event where
  | mount (now : Int) (behind : Memory) (opens : Bool)
  | op (now : Int) (op : Op)
  | unmount (written : Option Nat)
  /-- The daemon is killed, or the machine stops. -/
  | crash

/-- A `time_t`. -/
def TimeOk (t : Int) : Prop := -9223372036854775808 ≤ t ∧ t < 9223372036854775808

/-- The times that enter with an event are `time_t`s. -/
def Event.TimesOk : Event → Prop
  | .mount now _ _ => TimeOk now
  | .op now o =>
      TimeOk now ∧ ∀ path atime mtime, o = .utimens path atime mtime → TimeOk atime ∧ TimeOk mtime
  | .unmount _ => True
  | .crash => True

/-- One event; `none` where it cannot happen. -/
def Daemon.step (u : User) (d : Daemon) : Event → Option Daemon
  | .mount now behind opens =>
      match d.live with
      | none => (fisopsInit (u.at now) behind opens d.disk).map (fun s => { d with live := some s })
      | some _ => none
  | .op now op =>
      match d.live with
      | none => none
      | some s =>
          match FileSystem.step (u.at now) s op with
          | .ok (_, t) => some { d with live := some t }
          | .error _ => none
  | .unmount written =>
      match d.live with
      | none => none
      | some s => some { disk := fisopsDestroy s written d.disk, live := none }
  | .crash =>
      match d.live with
      | none => none
      | some _ => some { d with live := none }

/-- What happens to the daemon, from a disk without a persistence file. -/
inductive Daemon.Run (u : User) : List Event → Daemon → Prop where
  | refl : Daemon.Run u [] ⟨none, none⟩
  | step {d d' : Daemon} {evs : List Event} {ev : Event} (hrun : Daemon.Run u evs d)
      (htimes : ev.TimesOk) (h : d.step u ev = some d') : Daemon.Run u (evs ++ [ev]) d'

end SistemasOperativos.FileSystem
