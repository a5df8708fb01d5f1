import LastPicked.LabelledRuns
import LastPicked.ShiftModel

/-! The file system of myfilesys.c: its two global tables and the operations
on them. Reading or writing outside an array and an `int` that overflows have
no result. What `malloc` answers is an argument of each call. -/

namespace LastPicked.FileSystem
open CIntegers CMemory

def dataStart : Nat := diskBlocks / 2

structure FsMeta where
  fileName : Vector UInt8 16
  block : Int
  offset : Int
  size : Int
  deriving DecidableEq

structure OpenFile where
  fileNum : Int
  offset : Int
  deriving DecidableEq

abbrev OpenFiles := Vector OpenFile 32

abbrev Files := Vector FsMeta 64

structure FileSys where
  openFiles : OpenFiles
  files : Files
  disk : Disk

namespace FsMeta

def zero : FsMeta := ⟨Vector.replicate 16 0, 0, 0, 0⟩

def clearName (m : FsMeta) : FsMeta := { m with fileName := m.fileName.set 0 0 }

def fresh (m : FsMeta) : FsMeta := { m.clearName with block := 0, offset := 0, size := -1 }

/-- `memcpy(file_name, name, strlen(name) + 1)` for a name that fits. -/
def setName (m : FsMeta) (name : CString) : FsMeta :=
  { m with fileName := Vector.ofFn fun j => ((name.bytes ++ [0])[j]?).getD m.fileName[j] }

@[simp] theorem setName_block (m : FsMeta) (name : CString) : (m.setName name).block = m.block := by
  simp only [setName]

@[simp] theorem setName_offset (m : FsMeta) (name : CString) :
    (m.setName name).offset = m.offset := by
  simp only [setName]

@[simp] theorem setName_size (m : FsMeta) (name : CString) : (m.setName name).size = m.size := by
  simp only [setName]

def named (name : CString) (m : FsMeta) : Option Bool := sameString m.fileName.toList name.bytes

def byte (m : FsMeta) (j : Fin 28) : UInt8 :=
  if _ : j.val < 16 then m.fileName[j.val]
  else if j.val < 20 then intByte m.block (j - 16)
  else if j.val < 24 then intByte m.offset (j - 20)
  else intByte m.size (j - 24)

def ofBytes (b : Fin 28 → UInt8) : FsMeta where
  fileName := Vector.ofFn fun j => b (j.castLE (by decide))
  block := CIntegers.ofBytes (b 16) (b 17) (b 18) (b 19)
  offset := CIntegers.ofBytes (b 20) (b 21) (b 22) (b 23)
  size := CIntegers.ofBytes (b 24) (b 25) (b 26) (b 27)

end FsMeta

/-- `memcpy(buffer, files, sizeof(fs_meta) * 64)` -/
def filesToBuffer (files : Files) (buffer : Block) : Block :=
  Vector.ofFn fun p =>
    if _ : p.val < 28 * 64 then files[p.val / 28].byte ⟨p % 28, Nat.mod_lt _ (by decide)⟩
    else buffer[p]

/-- `memcpy(files, buffer, sizeof(fs_meta) * 64)` -/
def bufferToFiles (buffer : Block) : Files :=
  Vector.ofFn fun i => FsMeta.ofBytes fun j =>
    have inside : 28 * i.val + j.val < blockSize := by unfold blockSize; omega
    buffer[28 * i.val + j.val]

def closeAll (openFiles : OpenFiles) : OpenFiles := openFiles.map fun f => { f with fileNum := -1 }

/-- `new` is what `malloc` answers: a block with the bytes it happens to
hold, or NULL. -/
def mountFs (fs : FileSys) (diskName : DiskName) (new : Option Block) : Int × FileSys :=
  let (opened, disk) := openDisk fs.disk diskName
  if opened ≠ 0 then (-1, { fs with disk })
  else
    match new with
    | none => (-1, { fs with disk })
    | some buffer =>
        let buffer := (blockRead disk 0 buffer).2
        (0, { openFiles := closeAll fs.openFiles, files := bufferToFiles buffer, disk })

/-- The name of the disk is not read. -/
def unmountFs (fs : FileSys) (new : Option Block) : Int × FileSys :=
  match new with
  | none => (-1, fs)
  | some buffer =>
      let disk := (blockWrite fs.disk 0 (filesToBuffer fs.files buffer)).2
      let (closed, disk) := closeDisk disk
      (if closed ≠ 0 then -1 else 0,
        { openFiles := closeAll fs.openFiles, files := Vector.replicate 64 FsMeta.zero, disk })

/-- What `mount_fs` and `unmount_fs` return is not looked at. -/
def makeFs (fs : FileSys) (diskName : DiskName) (new new' : Option Block) : Int × FileSys :=
  let (made, disk) := makeDisk fs.disk diskName
  if made ≠ 0 then (-1, { fs with disk })
  else
    let fs := (mountFs { fs with disk } diskName new).2
    (0, (unmountFs { fs with files := fs.files.map FsMeta.fresh } new').2)

def offsetBehind (m : FsMeta) : Option Int :=
  if m.size = -1 then some m.offset else addInt m.offset m.size

def fillBlockAndOffset (files : Files) (i : Int) : Option Files :=
  if i = 0 then modify files i fun m => { m with block := dataStart, offset := 0 }
  else do
    let before ← load files (i - 1)
    let (block, offset) ← carry blockSize before.block (← offsetBehind before)
    modify files i fun m => { m with block, offset }

/-- `fillBlockAndOffset` on `k` slots in turn, the first of them `i`. -/
def fillFrom (files : Files) : (k : Nat) → (i : Int) → Option Files
  | 0, _ => some files
  | k + 1, i => do fillFrom (← fillBlockAndOffset files i) k (i + 1)

def fsOpen (fs : FileSys) (name : CString) : Option (Int × FileSys) :=
  if 15 < name.bytes.length then some (-1, fs)
  else
    let filedesc := fs.openFiles.toList.findIdx fun f => f.fileNum = -1
    if filedesc = 32 then some (-1, fs)
    else do
      let filenum ← firstIndex (FsMeta.named name) fs.files.toList
      if filenum = 64 then some (-1, fs)
      else do
        let openFiles ← store fs.openFiles filedesc ⟨filenum, 0⟩
        some (filedesc, { fs with openFiles })

def fsClose (fs : FileSys) (fildes : Int) : Option (Int × FileSys) := do
  let f ← load fs.openFiles fildes
  if f.fileNum = -1 then some (-1, fs)
  else do
    let openFiles ← store fs.openFiles fildes { f with fileNum := -1 }
    some (0, { fs with openFiles })

def createFile (fs : FileSys) (i : Nat) (name : CString) : Option (Int × FileSys) := do
  let files ← fillBlockAndOffset fs.files i
  let files ← modify files i fun m => { m with size := 0 }
  let files ← modify files (i + 1) fun m => { m with size := -1 }
  let files ← modify files i fun m => m.setName name
  some (0, { fs with files })

/-- Only the first 32 slots are searched for a file of the same name. -/
def fsCreate (fs : FileSys) (name : CString) : Option (Int × FileSys) :=
  if 15 < name.bytes.length then some (-1, fs)
  else do
    let same ← firstIndex (FsMeta.named name) (fs.files.toList.take 32)
    if same < 32 then some (-1, fs)
    else
      let i := fs.files.toList.findIdx fun m => m.size = -1
      if i = 64 then some (-1, fs) else createFile fs i name

/-- `for (; i < 63; i++) files[i] = files[i + 1];` with `k` turns to go -/
def shiftFiles (files : Files) : (k i : Nat) → i + k = 63 → Files
  | 0, _, _ => files
  | k + 1, i, h => shiftFiles (files.set i files[i + 1]) k (i + 1) (by omega)

def deleteFile (fs : FileSys) (i : Nat) (h : i ≤ 63) (new1 new2 : Option Block) :
    Option (Int × FileSys) := do
  let m := fs.files[i]
  let disk ← shiftBlocks fs.disk m.block m.offset m.size new1 new2
  let openFiles := fs.openFiles.map fun f =>
    if (i : Int) < f.fileNum then { f with fileNum := f.fileNum - 1 } else f
  let files := shiftFiles fs.files (63 - i) i (by omega)
  let files := files.set 63 { files[63].clearName with size := -1 }
  let files ← fillFrom files (64 - i) i
  some (0, { openFiles, files, disk })

def fsDelete (fs : FileSys) (name : CString) (new1 new2 : Option Block) :
    Option (Int × FileSys) := do
  let i ← firstIndex (FsMeta.named name) fs.files.toList
  if h : i ≤ 63 then
    if fs.openFiles.any fun f => f.fileNum = i then some (-1, fs)
    else deleteFile fs i h new1 new2
  else some (-1, fs)

/-- The loop of `fs_read` goes on in the next block at the end of one. -/
def readTurn (d : Disk) (block pos : Int) (buffer : Block) : Option (Int × Int × Block) :=
  if pos = blockSize then do
    let block ← addInt block 1
    some (block, 0, (blockRead d block buffer).2)
  else some (block, pos, buffer)

def readLoop (d : Disk) : (k : Nat) → (numRead block pos : Int) → (buffer : Block) →
    Option (List UInt8)
  | 0, _, _, _, _ => some []
  | k + 1, numRead, block, pos, buffer => do
      let (block, pos, buffer) ← readTurn d block pos buffer
      let b ← load buffer pos
      let numRead ← addInt numRead 1
      let rest ← readLoop d k numRead block (pos + 1) buffer
      some (b :: rest)

def fsRead (fs : FileSys) (fildes : Int) (nbyte : Nat) (new : Option Block) :
    Option (Int × List UInt8 × FileSys) := do
  let filedes ← load fs.openFiles fildes
  let actualFile ← load fs.files filedes.fileNum
  let left ← addInt actualFile.size (-filedes.offset)
  let nbyte := if toSize left < nbyte then toSize left else nbyte
  let pos ← addInt actualFile.offset filedes.offset
  let (block, pos) ← carry blockSize actualFile.block pos
  match new with
  | none => some (-1, [], fs)
  | some buffer => do
      let bytes ← readLoop fs.disk nbyte 0 block pos (blockRead fs.disk block buffer).2
      let offset ← addInt filedes.offset bytes.length
      let openFiles ← store fs.openFiles fildes { filedes with offset }
      some (bytes.length, bytes, { fs with openFiles })

/-- The loop of `fs_write` writes a block out at its end and reads the next. -/
def writeTurn (d : Disk) (block pos : Int) (buffer : Block) : Option (Disk × Int × Int × Block) :=
  if pos = blockSize then do
    let d := (blockWrite d block buffer).2
    let block ← addInt block 1
    some (d, block, 0, (blockRead d block buffer).2)
  else some (d, block, pos, buffer)

def writeLoop : List UInt8 → Disk → (numWritten block pos : Int) → (buffer : Block) →
    Option (Disk × Int × Int × Block)
  | [], d, numWritten, block, _, buffer => some (d, numWritten, block, buffer)
  | b :: rest, d, numWritten, block, pos, buffer => do
      let (d, block, pos, buffer) ← writeTurn d block pos buffer
      let buffer ← store buffer pos b
      let numWritten ← addInt numWritten 1
      writeLoop rest d numWritten block (pos + 1) buffer

/-- Whether `fs_write` gives up because the file would run into the next one. -/
def growsInto (fs : FileSys) (filedes : OpenFile) (actualFile : FsMeta) (nbyte : Nat) :
    Option Bool :=
  if actualFile.size ≠ -1 ∧
      toSize actualFile.size < (toSize filedes.offset + nbyte) % 2 ^ 64 then do
    let next ← load fs.files (filedes.fileNum + 1)
    some (next.size ≠ -1)
  else some false

/-- `data` are the `nbyte` bytes at `buf`. The block that is written to first
is not read from the disk before. -/
def fsWrite (fs : FileSys) (fildes : Int) (data : List UInt8) (new : Option Block) :
    Option (Int × FileSys) := do
  let filedes ← load fs.openFiles fildes
  let actualFile ← load fs.files filedes.fileNum
  let pos ← addInt actualFile.offset filedes.offset
  match new with
  | none => some (-1, fs)
  | some buffer => do
      if ← growsInto fs filedes actualFile data.length then some (-1, fs)
      else do
        let (block, pos) ← carry (blockSize - 1) actualFile.block pos
        let (disk, numWritten, block, buffer) ← writeLoop data fs.disk 0 block pos buffer
        let offset ← addInt filedes.offset numWritten
        let openFiles ← store fs.openFiles fildes { filedes with offset }
        let disk := (blockWrite disk block buffer).2
        let size := if actualFile.size < offset then offset else actualFile.size
        let files ← store fs.files filedes.fileNum { actualFile with size }
        some (numWritten, { openFiles, files, disk })

def fsGetFilesize (fs : FileSys) (fildes : Int) : Option Int := do
  let f ← load fs.openFiles fildes
  if f.fileNum = -1 then some (-1)
  else (load fs.files f.fileNum).map FsMeta.size

def fsLseek (fs : FileSys) (fildes offset : Int) : Option (Int × FileSys) := do
  let f ← load fs.openFiles fildes
  if f.fileNum = -1 then some (-1, fs)
  else do
    let m ← load fs.files f.fileNum
    if m.size < offset then some (-1, fs)
    else do
      let openFiles ← store fs.openFiles fildes { f with offset := toInt offset }
      some (0, { fs with openFiles })

/-- What `fs_truncate` does once the length is accepted. The slots are filled
from the number of the descriptor on. -/
def truncateFile (fs : FileSys) (fildes : Int) (f : OpenFile) (m : FsMeta) (length : Int)
    (new1 new2 : Option Block) : Option (Int × FileSys) := do
  let (startBlock, startOffset) ← carry blockSize m.block (toInt (m.offset + length))
  let disk ← shiftBlocks fs.disk startBlock startOffset (toInt (length - 1)) new1 new2
  let files ← store fs.files f.fileNum { m with size := toInt length }
  let files ← fillFrom files (63 - fildes).toNat fildes
  let offset := if length < f.offset then toInt length else f.offset
  let openFiles ← store fs.openFiles fildes { f with offset }
  some (0, { openFiles, files, disk })

def fsTruncate (fs : FileSys) (fildes length : Int) (new1 new2 : Option Block) :
    Option (Int × FileSys) := do
  let f ← load fs.openFiles fildes
  if f.fileNum = -1 then some (-1, fs)
  else do
    let m ← load fs.files f.fileNum
    if m.size < length then some (-1, fs)
    else if length < 0 then some (-1, fs)
    else truncateFile fs fildes f m length new1 new2

/-- The calls of a program on a mounted file system, with what the `malloc`
calls inside them answer. -/
inductive Call
  | fsOpen (name : CString)
  | fsClose (fildes : Int)
  | fsCreate (name : CString)
  | fsDelete (name : CString) (new1 new2 : Option Block)
  | fsRead (fildes : Int) (nbyte : Nat) (new : Option Block)
  | fsWrite (fildes : Int) (data : List UInt8) (new : Option Block)
  | fsGetFilesize (fildes : Int)
  | fsLseek (fildes offset : Int)
  | fsTruncate (fildes length : Int) (new1 new2 : Option Block)

def Call.perform (fs : FileSys) : Call → Option (Int × FileSys)
  | .fsOpen name => FileSystem.fsOpen fs name
  | .fsClose fildes => FileSystem.fsClose fs fildes
  | .fsCreate name => FileSystem.fsCreate fs name
  | .fsDelete name new1 new2 => FileSystem.fsDelete fs name new1 new2
  | .fsRead fildes nbyte new => do
      let (r, _, fs) ← FileSystem.fsRead fs fildes nbyte new
      some (r, fs)
  | .fsWrite fildes data new => FileSystem.fsWrite fs fildes data new
  | .fsGetFilesize fildes => (FileSystem.fsGetFilesize fs fildes).map (·, fs)
  | .fsLseek fildes offset => FileSystem.fsLseek fs fildes offset
  | .fsTruncate fildes length new1 new2 => FileSystem.fsTruncate fs fildes length new1 new2

def Step (fs : FileSys) (c : Call) (fs' : FileSys) : Prop := ∃ r, c.perform fs = some (r, fs')

end LastPicked.FileSystem
