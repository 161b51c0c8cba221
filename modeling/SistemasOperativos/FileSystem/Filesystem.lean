/-
SistemasOperativos.FileSystem.Filesystem — `filesystem.c`.

Every operation returns `Except Fault (result × state)`. The result is
the C return value, with what the function stored through an output
pointer beside it; a `Fault` is an access outside `fs->inodes[]`. The
resolvers return `Except Int`: a valid inode, or the negative code the
callers test.

Translation notes. The part of each operation after its path has been
resolved is a definition of its own (`createFileIn`, `deleteFileIn`, …),
so that the resolver can be reasoned about once. `strtok` is the list of
non-empty fields between slashes. The loops of `fs_read_file` and
`fs_write_file` visit consecutive blocks and leave at block
`NUM_DIRECT_BLOCKS`, so `loopFuel` turns are enough for them; a buffer
and its size are one byte list.
-/
import SistemasOperativos.FileSystem.Directory

namespace SistemasOperativos.FileSystem

variable {δ : Type}

/-! ## The superblock counters -/

def decFreeInodes (s : Fs δ) : Fs δ :=
  { s with superblock :=
      { s.superblock with freeInodesCount := u32Dec s.superblock.freeInodesCount } }

def incFreeInodes (s : Fs δ) : Fs δ :=
  { s with superblock :=
      { s.superblock with freeInodesCount := u32Inc s.superblock.freeInodesCount } }

def decFreeBlocks (s : Fs δ) : Fs δ :=
  { s with superblock :=
      { s.superblock with freeBlocksCount := u32Dec s.superblock.freeBlocksCount } }

def incFreeBlocks (s : Fs δ) : Fs δ :=
  { s with superblock :=
      { s.superblock with freeBlocksCount := u32Inc s.superblock.freeBlocksCount } }

variable [DataArea δ]

def Fs.bytes (s : Fs δ) : Memory := DataArea.bytes s.data

def Fs.setBytes (s : Fs δ) (m : Memory) : Fs δ := { s with data := DataArea.setBytes s.data m }

/-- The address of byte `off` of `fs->data_block[b].data`. -/
def blockAddr (b off : Nat) : Nat := b * blockSize + off

/-! ## `fs_init` -/

/-- `new_fs`: `fs_init` on zeroed memory. -/
def fsInit (c : Ctx) : Fs δ :=
  let root : Inode :=
    { inodeInit c with
      inodeType := .dir
      permissionBits := permRwx
      ownerUserId := 0
      ownerGroupId := 0
      directBlockPtrs := Function.update (fun _ => none) 0 (some 0)
      fileSizeBytes := directorySize }
  { inodes := Function.update (fun _ => inodeInit c) 0 root
    intmap := setInodeUsed (setBlockUsed intmapInit 0) 0
    superblock :=
      { totalInodes := maxInodes
        totalBlocks := maxBlocks
        rootInodeNumber := 0
        freeInodesCount := maxInodes - 1
        freeBlocksCount := maxBlocks - 1
        blockSizeBytes := blockSize
        maxFileSizeBytes := numDirectBlocks * blockSize
        maxFilenameLength := maxFilenameLen
        maxPathLength := maxPathLen }
    data := directoryInit (DataArea.zeroed : δ) ⟨0, 0⟩ }

/-! ## Directories and paths -/

/-- `get_directory_by_inode`: the first block of a directory inode. -/
def getDirectoryByInode (s : Fs δ) (i : Fin maxInodes) : Option DirPtr :=
  if (s.inodes i).inodeType ≠ .dir then none
  else
    ((List.range numDirectBlocks).findSome? (inodeGetDirectBlock (s.inodes i))).map
      (fun b => ⟨i, b⟩)

/-- The tokens `strtok(path, "/")` yields. -/
def strtok (path : CStr) : List CStr := (path.splitOn slash).filter (fun t => t ≠ [])

/-- `&fs->inodes[r]`. -/
def inodeAt (r : Int) : Except Fault (Fin maxInodes) :=
  if h : 0 ≤ r ∧ r.toNat < maxInodes then .ok ⟨r.toNat, h.2⟩ else .error (.inodeIndex r)

/-- The token loop of `fs_resolve_path`. -/
def resolveTokens (c : Ctx) : List CStr → Nat → Fin maxInodes → Fs δ →
    Except Fault (Except Int (Fin maxInodes) × Fs δ)
  | [], _, cur, s => .ok (.ok cur, s)
  | token :: rest, depth, cur, s =>
      if depth > maxDirDepth then .ok (.error (-enametoolong), s)
      else
        match getDirectoryByInode s cur with
        | none => .ok (.error (-1), s)
        | some dir =>
            if directoryLookup s.data dir token = -1 then .ok (.error (-1), s)
            else
              match inodeAt (directoryLookup s.data dir token) with
              | .error f => .error f
              | .ok next => resolveTokens c rest (depth + 1) next (inodeUpdateAtime c next s)

def fsResolvePath (c : Ctx) (s : Fs δ) (path : CStr) :
    Except Fault (Except Int (Fin maxInodes) × Fs δ) :=
  if path = [] then .ok (.error (-1), s)
  else if path.length ≥ maxPathLen then .ok (.error (-enametoolong), s)
  else if path = nameRoot then .ok (.ok s.superblock.rootInodeNumber, s)
  else
    let root := s.superblock.rootInodeNumber
    resolveTokens c (strtok path) 0 root (inodeUpdateAtime c root s)

/-- `pos_last_dir`: the position of the last slash. -/
def lastSlash (path : CStr) : Option Nat :=
  (List.range path.length).reverse.find? (fun i => path[i]? == some slash)

/-- The parent's inode and the name after the last slash. -/
def fsResolveParent (c : Ctx) (s : Fs δ) (path : CStr) :
    Except Fault (Except Int (Fin maxInodes × CStr) × Fs δ) :=
  if path = [] then .ok (.error (-einval), s)
  else if path.length ≥ maxPathLen then .ok (.error (-enametoolong), s)
  else
    match lastSlash path with
    | none => .ok (.error (-einval), s)
    | some pos =>
        let name := path.drop (pos + 1)
        if name.length = 0 ∨ name.length ≥ maxFilenameLen then .ok (.error (-einval), s)
        else
          let parentPath := if pos = 0 then nameRoot else path.take pos
          match fsResolvePath c s parentPath with
          | .error f => .error f
          | .ok (.error e, s) => .ok (.error e, s)
          | .ok (.ok d, s) => .ok (.ok (d, name), s)

/-! ## `fs_create_file` -/

/-- `fs_create_file` once the parent is known. -/
def createFileIn (c : Ctx) (s : Fs δ) (parent : Fin maxInodes) (filename : CStr) (mode : Nat) :
    Int × Fs δ :=
  match getDirectoryByInode s parent with
  | none => (-1, s)
  | some parentDir =>
      if directoryLookup s.data parentDir filename ≥ 0 then (-eexist, s)
      else
        match allocateInode c s with
        | none => (-enospc, s)
        | some (i, s) =>
            let s := decFreeInodes s
            let s := s.modifyInode i (fun _ =>
              { inodeInit c with inodeType := .file, permissionBits := u16 mode })
            match (findFreeBlock s.intmap).bind (inodeAddDirectBlock s i) with
            | none => (-enospc, incFreeInodes (inodeFree c i s))
            | some s =>
                let s := decFreeBlocks s
                match directoryAddEntry s.data parentDir filename i with
                | none => (-1, incFreeBlocks (incFreeInodes (inodeFree c i s)))
                | some data => (0, { s with data := data })

def fsCreateFile (c : Ctx) (s : Fs δ) (path : CStr) (mode : Nat) : Except Fault (Int × Fs δ) :=
  if path = [] then .ok (-1, s)
  else if path.length ≥ maxPathLen then .ok (-enametoolong, s)
  else
    match fsResolveParent c s path with
    | .error f => .error f
    | .ok (.error _, s) => .ok (-1, s)
    | .ok (.ok (parent, filename), s) => .ok (createFileIn c s parent filename mode)

/-! ## `fs_read_file` -/

/-- Turns that are enough for the block loops. -/
abbrev loopFuel : Nat := numDirectBlocks + 1

/-- The copy loop of `fs_read_file`; `out` is what has been copied. -/
def readLoop (s : Fs δ) (i : Fin maxInodes) (bytesToRead : Nat) :
    Nat → Nat → Nat → List UInt8 → List UInt8
  | 0, _, _, out => out
  | fuel + 1, blockIdx, blockOffset, out =>
      if out.length < bytesToRead then
        if blockIdx ≥ numDirectBlocks then out
        else
          match inodeGetDirectBlock (s.inodes i) blockIdx with
          | none => out
          | some blockNum =>
              let available := s.superblock.blockSizeBytes - blockOffset
              let rest := bytesToRead - out.length
              let copySize := if rest < available then rest else available
              readLoop s i bytesToRead fuel (blockIdx + 1) 0
                (out ++ load s.bytes (blockAddr blockNum blockOffset) copySize)
      else out

/-- `fs_read_file` once the inode is known. -/
def readFileAt (c : Ctx) (s : Fs δ) (i : Fin maxInodes) (size : Nat) (offset : Int) :
    (Int × List UInt8) × Fs δ :=
  let fileSize := (s.inodes i).fileSizeBytes
  if offset ≥ fileSize then ((0, []), s)
  else
    let bytesLeft := toSize (fileSize - offset)
    let bytesToRead := if size < bytesLeft then size else bytesLeft
    let blockIdx := toSize offset / s.superblock.blockSizeBytes
    let blockOffset := toSize offset % s.superblock.blockSizeBytes
    let out := readLoop s i bytesToRead loopFuel blockIdx blockOffset []
    ((out.length, out), inodeUpdateAtime c i s)

/-- Returns the count and the bytes stored into `buffer`. -/
def fsReadFile (c : Ctx) (s : Fs δ) (path : CStr) (size : Nat) (offset : Int) :
    Except Fault ((Int × List UInt8) × Fs δ) :=
  match fsResolveParent c s path with
  | .error f => .error f
  | .ok (.error _, s) => .ok ((-1, []), s)
  | .ok (.ok (parent, filename), s) =>
      match getDirectoryByInode s parent with
      | none => .ok ((-1, []), s)
      | some parentDir =>
          if directoryLookup s.data parentDir filename < 0 then .ok ((-1, []), s)
          else
            match inodeAt (directoryLookup s.data parentDir filename) with
            | .error f => .error f
            | .ok i => .ok (readFileAt c s i size offset)

/-! ## `fs_write_file` -/

/-- The block of slot `blockIndex`, or else a fresh block. The fresh
block goes to the first empty slot, which need not be `blockIndex`. -/
def blockForWrite (s : Fs δ) (i : Fin maxInodes) (blockIndex : Nat) : Option (Nat × Fs δ) :=
  match inodeGetDirectBlock (s.inodes i) blockIndex with
  | some b => some (b, s)
  | none =>
      match findFreeBlock s.intmap with
      | none => none
      | some b => (inodeAddDirectBlock s i b).map (fun s => (b, decFreeBlocks s))

/-- The copy loop of `fs_write_file`. Returns the state, `bytes_written`
and `current_pos`. -/
def writeLoop (i : Fin maxInodes) (buffer : List UInt8) :
    Nat → Fs δ → Nat → Nat → Fs δ × Nat × Nat
  | 0, s, bytesWritten, currentPos => (s, bytesWritten, currentPos)
  | fuel + 1, s, bytesWritten, currentPos =>
      if bytesWritten < buffer.length then
        let blockIndex := currentPos / s.superblock.blockSizeBytes
        let blockOffset := currentPos % s.superblock.blockSizeBytes
        if blockIndex ≥ numDirectBlocks then (s, bytesWritten, currentPos)
        else
          match blockForWrite s i blockIndex with
          | none => (s, bytesWritten, currentPos)
          | some (b, s) =>
              let aux := s.superblock.blockSizeBytes - blockOffset
              let rest := buffer.length - bytesWritten
              let n := if rest > aux then aux else rest
              let chunk := (buffer.drop bytesWritten).take n
              writeLoop i buffer fuel (s.setBytes (store s.bytes (blockAddr b blockOffset) chunk))
                (bytesWritten + n) (currentPos + n)
      else (s, bytesWritten, currentPos)

/-- `fs_write_file` once the inode is known. -/
def writeFileAt (c : Ctx) (s : Fs δ) (i : Fin maxInodes) (buffer : List UInt8) (offset : Int)
    (append : Bool) : Int × Fs δ :=
  let offset : Int := if append then (s.inodes i).fileSizeBytes else offset
  let (s, bytesWritten, currentPos) := writeLoop i buffer loopFuel s 0 (toSize offset)
  let s := s.modifyInode i (fun n =>
    if currentPos > n.fileSizeBytes then { n with fileSizeBytes := u32 currentPos } else n)
  (bytesWritten, inodeUpdateAtime c i (inodeUpdateCtime c i (inodeUpdateMtime c i s)))

def fsWriteFile (c : Ctx) (s : Fs δ) (path : CStr) (buffer : List UInt8) (offset : Int)
    (append : Bool) : Except Fault (Int × Fs δ) :=
  if buffer.length = 0 then .ok (-1, s)
  else
    match fsResolveParent c s path with
    | .error f => .error f
    | .ok (.error _, s) => .ok (-1, s)
    | .ok (.ok (parent, filename), s) =>
        match getDirectoryByInode s parent with
        | none => .ok (-1, s)
        | some parentDir =>
            if directoryLookup s.data parentDir filename < 0 then .ok (-1, s)
            else
              match inodeAt (directoryLookup s.data parentDir filename) with
              | .error f => .error f
              | .ok i => .ok (writeFileAt c s i buffer offset append)

/-! ## `fs_delete_file` -/

/-- One turn of the slot loop that `fs_delete_file` and
`fisopfs_truncate` share. -/
def releaseSlot (i : Fin maxInodes) (s : Fs δ) (k : Nat) : Fs δ :=
  match inodeGetDirectBlock (s.inodes i) k with
  | none => s
  | some b =>
      let s := { s with intmap := clearBlockUsed s.intmap b }
      let s := s.setBytes (memset s.bytes (blockAddr b 0) 0 blockSize)
      setPtr i k none (incFreeBlocks s)

def releaseBlocks (i : Fin maxInodes) (s : Fs δ) : Fs δ :=
  (List.range numDirectBlocks).foldl (releaseSlot i) s

/-- `fs_delete_file` once the entry and its inode are known. -/
def deleteFileIn (c : Ctx) (s : Fs δ) (parentDir : DirPtr) (filename : CStr)
    (i : Fin maxInodes) : Int × Fs δ :=
  if (s.inodes i).inodeType ≠ .file ∧ (s.inodes i).inodeType ≠ .symlink then (-eisdir, s)
  else
    match directoryRemoveEntry s.data parentDir filename with
    | none => (-eio, s)
    | some data =>
        let s := inodeDecrementLinks i { s with data := data }
        let s :=
          if (s.inodes i).hardLinksCount = 0 then
            let s := releaseBlocks i s
            let s := { s with intmap := clearInodeUsed s.intmap i }
            incFreeInodes (s.modifyInode i (fun _ => inodeInit c))
          else s
        let root := s.superblock.rootInodeNumber
        (0, inodeUpdateCtime c root (inodeUpdateMtime c root s))

def fsDeleteFile (c : Ctx) (s : Fs δ) (path : CStr) : Except Fault (Int × Fs δ) :=
  match fsResolveParent c s path with
  | .error f => .error f
  | .ok (.error _, s) => .ok (-1, s)
  | .ok (.ok (parent, filename), s) =>
      match getDirectoryByInode s parent with
      | none => .ok (-1, s)
      | some parentDir =>
          if directoryLookup s.data parentDir filename < 0 then .ok (-enoent, s)
          else
            match inodeAt (directoryLookup s.data parentDir filename) with
            | .error f => .error f
            | .ok i => .ok (deleteFileIn c s parentDir filename i)

/-! ## `fs_create_directory` -/

/-- `fs_create_directory` once the parent is known. The name that is
looked up comes from the path, the name that is added is `name`. -/
def createDirectoryIn (c : Ctx) (s : Fs δ) (parent : Fin maxInodes) (filename : CStr)
    (mode : Nat) (name : CStr) : Int × Fs δ :=
  match getDirectoryByInode s parent with
  | none => (-1, s)
  | some parentDir =>
      if directoryLookup s.data parentDir filename ≥ 0 then (-eexist, s)
      else
        match allocateInode c s with
        | none => (-enospc, s)
        | some (i, s) =>
            let s := decFreeInodes s
            let s := inodeIncrementLinks i (s.modifyInode i (fun _ => inodeInit c))
            let s := s.modifyInode i (fun n =>
              { n with inodeType := .dir, permissionBits := u16 mode,
                       fileSizeBytes := directorySize })
            match findFreeBlock s.intmap with
            | none => (-enospc, incFreeInodes (inodeFree c i s))
            | some b =>
                match inodeAddDirectBlock s i b with
                | none =>
                    let s := inodeFree c i s
                    (-enospc, incFreeInodes { s with intmap := clearBlockUsed s.intmap b })
                | some s =>
                    let s := decFreeBlocks s
                    let newDir : DirPtr := ⟨i, b⟩
                    let data := directoryInit s.data newDir
                    let data := (directoryAddEntry data newDir dot i).getD data
                    let data := (directoryAddEntry data newDir dotDot parent).getD data
                    let s := { s with data := data }
                    match directoryAddEntry s.data parentDir name i with
                    | none =>
                        let s := inodeFree c i s
                        let s := { s with intmap := clearBlockUsed s.intmap b }
                        (-eio, incFreeBlocks (incFreeInodes s))
                    | some data => (0, inodeIncrementLinks parent { s with data := data })

def fsCreateDirectory (c : Ctx) (s : Fs δ) (path : CStr) (mode : Nat) (name : CStr) :
    Except Fault (Int × Fs δ) :=
  if path = [] then .ok (-1, s)
  else if path.length ≥ maxPathLen then .ok (-enametoolong, s)
  else
    match fsResolveParent c s path with
    | .error f => .error f
    | .ok (.error _, s) => .ok (-1, s)
    | .ok (.ok (parent, filename), s) => .ok (createDirectoryIn c s parent filename mode name)

/-! ## `fs_list_directory`

This function, `fs_remove_directory` and `fs_statistics` only compare the
result of `fs_resolve_path` with -1, so any other negative code is used
as an index. -/

/-- `fs->inodes[inode_number]` after a test against -1 alone. -/
def resolvedOrFault {α : Type} (r : Except Int (Fin maxInodes)) (notFound : α)
    (found : Fin maxInodes → α) : Except Fault α :=
  match r with
  | .ok i => .ok (found i)
  | .error e => if e = -1 then .ok notFound else .error (.inodeIndex e)

def listDirectoryAt (c : Ctx) (s : Fs δ) (i : Fin maxInodes) : (Int × List CStr) × Fs δ :=
  if (s.inodes i).inodeType ≠ .dir then ((-enotdir, []), s)
  else
    match getDirectoryByInode s i with
    | none => ((-eio, []), s)
    | some dir => ((entryCount s.data dir, directoryListEntries s.data dir), inodeUpdateAtime c i s)

/-- Returns the count and the names stored into `buffer`. -/
def fsListDirectory (c : Ctx) (s : Fs δ) (path : CStr) :
    Except Fault ((Int × List CStr) × Fs δ) :=
  if path = [] then .ok ((-1, []), s)
  else if path.length ≥ maxPathLen then .ok ((-enametoolong, []), s)
  else
    match fsResolvePath c s path with
    | .error f => .error f
    | .ok (r, s) => resolvedOrFault r ((-enoent, []), s) (listDirectoryAt c s)

/-! ## `fs_remove_directory` -/

/-- `fs_remove_directory` once the directory to remove is known to be
empty. The entry that is removed is found again, through the parent. -/
def removeDirectoryEntry (c : Ctx) (s : Fs δ) (path : CStr) (i : Fin maxInodes) :
    Except Fault (Int × Fs δ) :=
  match fsResolveParent c s path with
  | .error f => .error f
  | .ok (.error _, s) => .ok (-eio, s)
  | .ok (.ok (parent, targetName), s) =>
      match getDirectoryByInode s parent with
      | none => .ok (-eio, s)
      | some parentDir =>
          match directoryRemoveEntry s.data parentDir targetName with
          | none => .ok (-eio, s)
          | some data =>
              let s := inodeFree c i { s with data := data }
              let s := inodeUpdateCtime c parent (inodeUpdateCtime c i s)
              .ok (0, incFreeInodes (inodeUpdateMtime c parent s))

/-- `fs_remove_directory` once the directory is known. -/
def removeDirectoryAt (c : Ctx) (s : Fs δ) (path : CStr) (i : Fin maxInodes) :
    Except Fault (Int × Fs δ) :=
  if (s.inodes i).inodeType ≠ .dir then .ok (-enotdir, s)
  else
    match getDirectoryByInode s i with
    | none => .ok (-eio, s)
    | some dir =>
        if entryCount s.data dir > 2 then .ok (-enotempty, s)
        else removeDirectoryEntry c s path i

def fsRemoveDirectory (c : Ctx) (s : Fs δ) (path : CStr) : Except Fault (Int × Fs δ) :=
  if path = [] then .ok (-1, s)
  else if path.length ≥ maxPathLen then .ok (-enametoolong, s)
  else
    match fsResolvePath c s path with
    | .error f => .error f
    | .ok (r, s) =>
        (resolvedOrFault r (.ok (-enoent, s)) (removeDirectoryAt c s path)).bind id

/-! ## `fs_statistics` -/

/-- The fields of `struct stat` that the code sets. -/
structure Stat where
  uid : Nat
  gid : Nat
  atime : Int
  mtime : Int
  ctime : Int
  size : Nat
  nlink : Nat
  mode : Nat
  deriving DecidableEq, Repr

def typeMode : InodeType → Nat
  | .dir => fsModeDir
  | .file => fsModeFile
  | .symlink => fsModeSymlink

def statOf (n : Inode) : Stat where
  uid := n.ownerUserId
  gid := n.ownerGroupId
  atime := n.lastAccessTime
  mtime := n.lastModificationTime
  ctime := n.lastMetadataChangeTime
  size := n.fileSizeBytes
  nlink := n.hardLinksCount
  mode := typeMode n.inodeType ||| n.permissionBits

def fsStatistics (c : Ctx) (s : Fs δ) (path : CStr) :
    Except Fault ((Int × Option Stat) × Fs δ) :=
  match fsResolvePath c s path with
  | .error f => .error f
  | .ok (r, s) =>
      resolvedOrFault r ((-enoent, none), s)
        (fun i => ((0, some (statOf (s.inodes i))), inodeUpdateAtime c i s))

/-! ## Symbolic links -/

/-- `fs_create_symlink` once the parent is known. The target is copied
with its full length, whatever the size of a block. -/
def createSymlinkIn (c : Ctx) (s : Fs δ) (target : CStr) (parent : Fin maxInodes)
    (filename : CStr) : Int × Fs δ :=
  if (s.inodes parent).inodeType ≠ .dir then (-enotdir, s)
  else
    match getDirectoryByInode s parent with
    | none => (-eio, s)
    | some parentDir =>
        if directoryLookup s.data parentDir filename ≥ 0 then (-eexist, s)
        else
          match allocateInode c s with
          | none => (-enospc, s)
          | some (i, s) =>
              let s := decFreeInodes s
              let s := s.modifyInode i (fun n =>
                { n with inodeType := .symlink, ownerUserId := u16 c.uid,
                         ownerGroupId := u16 c.gid, permissionBits := permRwx,
                         hardLinksCount := 1 })
              if target.length ≥ s.superblock.maxFileSizeBytes then
                (-enametoolong, incFreeInodes (inodeFree c i s))
              else
                let s := s.modifyInode i (fun n => { n with fileSizeBytes := u32 target.length })
                match findFreeBlock s.intmap with
                | none => (-enospc, incFreeInodes (inodeFree c i s))
                | some b =>
                    match inodeAddDirectBlock s i b with
                    | none => (-enospc, incFreeInodes (inodeFree c i s))
                    | some s =>
                        let s := decFreeBlocks s
                        let m := memset s.bytes (blockAddr b 0) 0 blockSize
                        let s := s.setBytes (store m (blockAddr b 0) target)
                        match directoryAddEntry s.data parentDir filename i with
                        | none =>
                            (-enospc, incFreeBlocks (incFreeInodes (inodeFree c i s)))
                        | some data => (0, { s with data := data })

def fsCreateSymlink (c : Ctx) (s : Fs δ) (target linkpath : CStr) : Except Fault (Int × Fs δ) :=
  match fsResolveParent c s linkpath with
  | .error f => .error f
  | .ok (.error _, s) => .ok (-enoent, s)
  | .ok (.ok (parent, filename), s) => .ok (createSymlinkIn c s target parent filename)

/-- Returns the code and the bytes stored into `buf`, the NUL included. -/
def fsReadSymlink (c : Ctx) (s : Fs δ) (path : CStr) (size : Nat) :
    Except Fault ((Int × List UInt8) × Fs δ) :=
  match fsResolvePath c s path with
  | .error f => .error f
  | .ok (.error _, s) => .ok ((-enoent, []), s)
  | .ok (.ok i, s) =>
      if (s.inodes i).inodeType ≠ .symlink then .ok ((-einval, []), s)
      else
        match inodeGetDirectBlock (s.inodes i) 0 with
        | none => .ok ((-eio, []), s)
        | some b =>
            let linkLen := (s.inodes i).fileSizeBytes
            let room := toSize ((size : Int) - 1)
            let toCopy := if linkLen < room then linkLen else room
            .ok ((0, load s.bytes (blockAddr b 0) toCopy ++ [0]), s)

/-! ## Hard links -/

/-- `fs_create_hard_link` once the source and the parent are known. -/
def createHardLinkIn (s : Fs δ) (src parent : Fin maxInodes) (filename : CStr) : Int × Fs δ :=
  if (s.inodes parent).inodeType ≠ .dir then (-enotdir, s)
  else
    match getDirectoryByInode s parent with
    | none => (-eio, s)
    | some parentDir =>
        if directoryLookup s.data parentDir filename ≥ 0 then (-eexist, s)
        else
          match directoryAddEntry s.data parentDir filename src with
          | none => (-enospc, s)
          | some data => (0, inodeIncrementLinks src { s with data := data })

/-- `from` and `to` are keywords here: the two paths are `source` and `dest`. -/
def fsCreateHardLink (c : Ctx) (s : Fs δ) (source dest : CStr) : Except Fault (Int × Fs δ) :=
  match fsResolvePath c s source with
  | .error f => .error f
  | .ok (.error _, s) => .ok (-enoent, s)
  | .ok (.ok src, s) =>
      if (s.inodes src).inodeType = .dir then .ok (-eperm, s)
      else
        match fsResolveParent c s dest with
        | .error f => .error f
        | .ok (.error _, s) => .ok (-enoent, s)
        | .ok (.ok (parent, filename), s) => .ok (createHardLinkIn s src parent filename)

/-! ## Permissions and owners -/

/-- The three `if`s of `fs_change_mode`, each over the user, group and
other bit of one permission. -/
def permOfMode (mode : Nat) : Nat :=
  (if mode &&& 0o444 ≠ 0 then permRead else 0) + (if mode &&& 0o222 ≠ 0 then permWrite else 0)
    + (if mode &&& 0o111 ≠ 0 then permExec else 0)

def fsChangeMode (c : Ctx) (s : Fs δ) (path : CStr) (mode : Nat) : Except Fault (Int × Fs δ) :=
  match fsResolvePath c s path with
  | .error f => .error f
  | .ok (.error _, s) => .ok (-enoent, s)
  | .ok (.ok i, s) =>
      let s := s.modifyInode i (fun n => { n with permissionBits := permOfMode mode })
      .ok (0, inodeUpdateCtime c i s)

def fsChangeOwner (c : Ctx) (s : Fs δ) (path : CStr) (uid gid : Nat) :
    Except Fault (Int × Fs δ) :=
  match fsResolvePath c s path with
  | .error f => .error f
  | .ok (.error _, s) => .ok (-enoent, s)
  | .ok (.ok i, s) =>
      let s := s.modifyInode i (fun n => { n with ownerUserId := u16 uid, ownerGroupId := u16 gid })
      .ok (0, inodeUpdateCtime c i s)

end SistemasOperativos.FileSystem
