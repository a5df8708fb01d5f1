import LastPicked.AccessTraces
import LastPicked.FileSysSteps

/-! The entries of the two tables that each function of myfilesys.c reads and
writes. With its accesses on record, a function has the same result. -/

namespace LastPicked.FileSystem
open CIntegers CMemory AccessTraces AccessTraces.Traced

inductive Access
  | openFile (i : Int)
  | file (i : Int)

def Access.InBounds : Access → Prop
  | .openFile i => 0 ≤ i ∧ i < 32
  | .file i => 0 ≤ i ∧ i < 64

namespace Accesses

def loadOpen (openFiles : OpenFiles) (i : Int) : Traced Access OpenFile :=
  access (.openFile i) (load openFiles i)

def storeOpen (openFiles : OpenFiles) (i : Int) (f : OpenFile) : Traced Access OpenFiles :=
  access (.openFile i) (store openFiles i f)

def loadFile (files : Files) (i : Int) : Traced Access FsMeta := access (.file i) (load files i)

def storeFile (files : Files) (i : Int) (m : FsMeta) : Traced Access Files :=
  access (.file i) (store files i m)

def modifyFile (files : Files) (i : Int) (f : FsMeta → FsMeta) : Traced Access Files :=
  access (.file i) (modify files i f)

def touchFile (i : Int) : Traced Access Unit := access (.file i) (some ())

def searchOpen (fs : FileSys) (q : OpenFile → Bool) : Traced Access Nat :=
  search (fun k => .openFile k) (fun f => some (q f)) fs.openFiles.toList 0

def searchFiles (q : FsMeta → Option Bool) (files : List FsMeta) : Traced Access Nat :=
  search (fun k => .file k) q files 0

def fillBlockAndOffset (files : Files) (i : Int) : Traced Access Files :=
  if i = 0 then modifyFile files i fun m => { m with block := dataStart, offset := 0 }
  else do
    let before ← loadFile files (i - 1)
    touchFile i
    let (block, offset) ← lift (offsetBehind before >>= carry blockSize before.block)
    modifyFile files i fun m => { m with block, offset }

def fillFrom (files : Files) : (k : Nat) → (i : Int) → Traced Access Files
  | 0, _ => pure files
  | k + 1, i => do fillFrom (← fillBlockAndOffset files i) k (i + 1)

def fsOpen (fs : FileSys) (name : CString) : Traced Access (Int × FileSys) :=
  if 15 < name.bytes.length then pure (-1, fs)
  else do
    let filedesc ← searchOpen fs fun f => f.fileNum = -1
    if filedesc = 32 then pure (-1, fs)
    else do
      let filenum ← searchFiles (FsMeta.named name) fs.files.toList
      if filenum = 64 then pure (-1, fs)
      else do
        let openFiles ← storeOpen fs.openFiles filedesc ⟨filenum, 0⟩
        pure ((filedesc : Int), { fs with openFiles })

def fsClose (fs : FileSys) (fildes : Int) : Traced Access (Int × FileSys) := do
  let f ← loadOpen fs.openFiles fildes
  if f.fileNum = -1 then pure (-1, fs)
  else do
    let openFiles ← storeOpen fs.openFiles fildes { f with fileNum := -1 }
    pure (0, { fs with openFiles })

def createFile (fs : FileSys) (i : Nat) (name : CString) : Traced Access (Int × FileSys) := do
  let files ← fillBlockAndOffset fs.files i
  let files ← modifyFile files i fun m => { m with size := 0 }
  let files ← modifyFile files (i + 1) fun m => { m with size := -1 }
  let files ← modifyFile files i fun m => m.setName name
  pure (0, { fs with files })

def fsCreate (fs : FileSys) (name : CString) : Traced Access (Int × FileSys) :=
  if 15 < name.bytes.length then pure (-1, fs)
  else do
    let same ← searchFiles (FsMeta.named name) (fs.files.toList.take 32)
    if same < 32 then pure (-1, fs)
    else do
      let i ← searchFiles (fun m => some (m.size = -1)) fs.files.toList
      if i = 64 then pure (-1, fs) else createFile fs i name

def shiftFiles (files : Files) : (k i : Nat) → Traced Access Files
  | 0, _ => pure files
  | k + 1, i => do
      let next ← loadFile files (i + 1 : Nat)
      let files ← storeFile files i next
      shiftFiles files k (i + 1)

def touchOpen : (k : Nat) → (i : Int) → Traced Access Unit
  | 0, _ => pure ()
  | k + 1, i => do
      access (.openFile i) (some ())
      touchOpen k (i + 1)

def deleteFile (fs : FileSys) (i : Nat) (new1 new2 : Option Block) :
    Traced Access (Int × FileSys) := do
  let m ← loadFile fs.files i
  let disk ← lift (shiftBlocks fs.disk m.block m.offset m.size new1 new2)
  touchOpen 32 0
  let openFiles := fs.openFiles.map fun f =>
    if (i : Int) < f.fileNum then { f with fileNum := f.fileNum - 1 } else f
  let files ← shiftFiles fs.files (63 - i) i
  let files ← modifyFile files 63 fun m => { m.clearName with size := -1 }
  let files ← fillFrom files (64 - i) i
  pure (0, { openFiles, files, disk })

def fsDelete (fs : FileSys) (name : CString) (new1 new2 : Option Block) :
    Traced Access (Int × FileSys) := do
  let i ← searchFiles (FsMeta.named name) fs.files.toList
  if i ≤ 63 then do
    let j ← searchOpen fs fun f => f.fileNum = i
    if j < 32 then pure (-1, fs) else deleteFile fs i new1 new2
  else pure (-1, fs)

def fsRead (fs : FileSys) (fildes : Int) (nbyte : Nat) (new : Option Block) :
    Traced Access (Int × List UInt8 × FileSys) := do
  let filedes ← loadOpen fs.openFiles fildes
  let actualFile ← loadFile fs.files filedes.fileNum
  let left ← lift (addInt actualFile.size (-filedes.offset))
  let nbyte := if toSize left < nbyte then toSize left else nbyte
  let pos ← lift (addInt actualFile.offset filedes.offset)
  let (block, pos) ← lift (carry blockSize actualFile.block pos)
  match new with
  | none => pure (-1, [], fs)
  | some buffer => do
      let bytes ← lift (readLoop fs.disk nbyte 0 block pos (blockRead fs.disk block buffer).2)
      let offset ← lift (addInt filedes.offset bytes.length)
      let openFiles ← storeOpen fs.openFiles fildes { filedes with offset }
      pure ((bytes.length : Int), bytes, { fs with openFiles })

def growsInto (fs : FileSys) (filedes : OpenFile) (actualFile : FsMeta) (nbyte : Nat) :
    Traced Access Bool :=
  if actualFile.size ≠ -1 ∧
      toSize actualFile.size < (toSize filedes.offset + nbyte) % 2 ^ 64 then do
    let next ← loadFile fs.files (filedes.fileNum + 1)
    pure (next.size ≠ -1)
  else pure false

def fsWrite (fs : FileSys) (fildes : Int) (data : List UInt8) (new : Option Block) :
    Traced Access (Int × FileSys) := do
  let filedes ← loadOpen fs.openFiles fildes
  let actualFile ← loadFile fs.files filedes.fileNum
  let pos ← lift (addInt actualFile.offset filedes.offset)
  match new with
  | none => pure (-1, fs)
  | some buffer => do
      if ← growsInto fs filedes actualFile data.length then pure (-1, fs)
      else do
        let (block, pos) ← lift (carry (blockSize - 1) actualFile.block pos)
        let (disk, numWritten, block, buffer) ← lift (writeLoop data fs.disk 0 block pos buffer)
        let offset ← lift (addInt filedes.offset numWritten)
        let openFiles ← storeOpen fs.openFiles fildes { filedes with offset }
        let disk := (blockWrite disk block buffer).2
        let size := if actualFile.size < offset then offset else actualFile.size
        let files ← storeFile fs.files filedes.fileNum { actualFile with size }
        pure (numWritten, { openFiles, files, disk })

def fsGetFilesize (fs : FileSys) (fildes : Int) : Traced Access Int := do
  let f ← loadOpen fs.openFiles fildes
  if f.fileNum = -1 then pure (-1)
  else do
    let m ← loadFile fs.files f.fileNum
    pure m.size

def fsLseek (fs : FileSys) (fildes offset : Int) : Traced Access (Int × FileSys) := do
  let f ← loadOpen fs.openFiles fildes
  if f.fileNum = -1 then pure (-1, fs)
  else do
    let m ← loadFile fs.files f.fileNum
    if m.size < offset then pure (-1, fs)
    else do
      let openFiles ← storeOpen fs.openFiles fildes { f with offset := toInt offset }
      pure (0, { fs with openFiles })

def truncateFile (fs : FileSys) (fildes : Int) (f : OpenFile) (m : FsMeta) (length : Int)
    (new1 new2 : Option Block) : Traced Access (Int × FileSys) := do
  let (startBlock, startOffset) ← lift (carry blockSize m.block (toInt (m.offset + length)))
  let disk ← lift (shiftBlocks fs.disk startBlock startOffset (toInt (length - 1)) new1 new2)
  let files ← storeFile fs.files f.fileNum { m with size := toInt length }
  let files ← fillFrom files (63 - fildes).toNat fildes
  let offset := if length < f.offset then toInt length else f.offset
  let openFiles ← storeOpen fs.openFiles fildes { f with offset }
  pure (0, { openFiles, files, disk })

def fsTruncate (fs : FileSys) (fildes length : Int) (new1 new2 : Option Block) :
    Traced Access (Int × FileSys) := do
  let f ← loadOpen fs.openFiles fildes
  if f.fileNum = -1 then pure (-1, fs)
  else do
    let m ← loadFile fs.files f.fileNum
    if m.size < length then pure (-1, fs)
    else if length < 0 then pure (-1, fs)
    else truncateFile fs fildes f m length new1 new2

def perform (fs : FileSys) : Call → Traced Access (Int × FileSys)
  | .fsOpen name => fsOpen fs name
  | .fsClose fildes => fsClose fs fildes
  | .fsCreate name => fsCreate fs name
  | .fsDelete name new1 new2 => fsDelete fs name new1 new2
  | .fsRead fildes nbyte new => do
      let (r, _, fs) ← fsRead fs fildes nbyte new
      pure (r, fs)
  | .fsWrite fildes data new => fsWrite fs fildes data new
  | .fsGetFilesize fildes => do
      let size ← fsGetFilesize fs fildes
      pure (size, fs)
  | .fsLseek fildes offset => fsLseek fs fildes offset
  | .fsTruncate fildes length new1 new2 => fsTruncate fs fildes length new1 new2

section
variable (fs : FileSys) (files : Files)

@[simp] theorem loadOpen_result (openFiles : OpenFiles) (i : Int) :
    (loadOpen openFiles i).result = load openFiles i := rfl

@[simp] theorem storeOpen_result (openFiles : OpenFiles) (i : Int) (f : OpenFile) :
    (storeOpen openFiles i f).result = store openFiles i f := rfl

@[simp] theorem loadFile_result (i : Int) : (loadFile files i).result = load files i := rfl

@[simp] theorem storeFile_result (i : Int) (m : FsMeta) :
    (storeFile files i m).result = store files i m := rfl

@[simp] theorem modifyFile_result (i : Int) (f : FsMeta → FsMeta) :
    (modifyFile files i f).result = CMemory.modify files i f := rfl

@[simp] theorem touchFile_result (i : Int) : (touchFile i).result = some () := rfl

@[simp] theorem searchFiles_result (q : FsMeta → Option Bool) (files : List FsMeta) :
    (searchFiles q files).result = firstIndex q files := by
  rw [searchFiles, search_result]
  exact Option.map_id'

@[simp] theorem searchOpen_result (q : OpenFile → Bool) :
    (searchOpen fs q).result = some (fs.openFiles.toList.findIdx q) := by
  rw [searchOpen, search_result, firstIndex_eq fun _ _ => rfl]
  rfl

@[simp] theorem fillBlockAndOffset_result (i : Int) :
    (fillBlockAndOffset files i).result = FileSystem.fillBlockAndOffset files i := by
  unfold fillBlockAndOffset FileSystem.fillBlockAndOffset
  simp only [ite_result, bind_result, loadFile_result, modifyFile_result, touchFile_result,
    lift_result, Option.bind_eq_bind, Option.bind_some, Option.bind_assoc]

@[simp] theorem fillFrom_result (k : Nat) (i : Int) :
    (fillFrom files k i).result = FileSystem.fillFrom files k i := by
  induction k generalizing files i with
  | zero => rfl
  | succ k ih =>
    simp only [fillFrom, FileSystem.fillFrom, bind_result, fillBlockAndOffset_result, ih,
      Option.bind_eq_bind]

theorem fsOpen_result (name : CString) : (fsOpen fs name).result = FileSystem.fsOpen fs name := by
  unfold fsOpen FileSystem.fsOpen
  simp only [ite_result, bind_result, pure_result, searchOpen_result, searchFiles_result,
    storeOpen_result, Option.bind_eq_bind, Option.bind_some]

theorem fsClose_result (fildes : Int) :
    (fsClose fs fildes).result = FileSystem.fsClose fs fildes := by
  unfold fsClose FileSystem.fsClose
  simp only [ite_result, bind_result, pure_result, loadOpen_result, storeOpen_result,
    Option.bind_eq_bind]

theorem createFile_result (i : Nat) (name : CString) :
    (createFile fs i name).result = FileSystem.createFile fs i name := by
  unfold createFile FileSystem.createFile
  simp only [bind_result, pure_result, fillBlockAndOffset_result, modifyFile_result,
    Option.bind_eq_bind]

theorem firstIndex_free : firstIndex (fun m : FsMeta => some (decide (m.size = -1))) files.toList =
    some (files.toList.findIdx fun m => m.size = -1) :=
  firstIndex_eq fun _ _ => rfl

theorem fsCreate_result (name : CString) :
    (fsCreate fs name).result = FileSystem.fsCreate fs name := by
  unfold fsCreate FileSystem.fsCreate
  simp only [ite_result, bind_result, pure_result, searchFiles_result, firstIndex_free,
    createFile_result, Option.bind_eq_bind, Option.bind_some]

theorem shiftFiles_result {k i : Nat} (h : i + k = 63) :
    (shiftFiles files k i).result = some (FileSystem.shiftFiles files k i h) := by
  induction k generalizing files i with
  | zero => rfl
  | succ k ih =>
    have next : load files (i + 1 : Nat) = some files[i + 1] := load_of_lt files (by omega)
    have moved (m : FsMeta) : store files i m = some (files.set i m) :=
      store_of_lt files (by omega) m
    rw [shiftFiles, bind_result, loadFile_result, next, Option.bind_some, bind_result,
      storeFile_result, moved, Option.bind_some, ih, FileSystem.shiftFiles]

@[simp] theorem touchOpen_result (k : Nat) (i : Int) : (touchOpen k i).result = some () := by
  induction k generalizing i with
  | zero => rfl
  | succ k ih => simp only [touchOpen, bind_result, access_result, ih, Option.bind_some]

theorem deleteFile_result {i : Nat} (h : i ≤ 63) (new1 new2 : Option Block) :
    (deleteFile fs i new1 new2).result = FileSystem.deleteFile fs i h new1 new2 := by
  have found : load fs.files i = some fs.files[i] := load_of_lt fs.files (by omega)
  have shifted := shiftFiles_result fs.files (show i + (63 - i) = 63 by omega)
  have last (files : Files) (f : FsMeta → FsMeta) :
      CMemory.modify files 63 f = some (files.set 63 (f files[63])) :=
    modify_of_lt files (show 63 < 64 by decide) f
  unfold deleteFile FileSystem.deleteFile
  simp only [bind_result, pure_result, lift_result, loadFile_result, touchOpen_result,
    modifyFile_result, fillFrom_result, found, shifted, last, Option.bind_eq_bind, Option.bind_some]

theorem findIdx_open (i : Int) :
    fs.openFiles.toList.findIdx (fun f => f.fileNum = i) < 32 ↔
      fs.openFiles.any (fun f => f.fileNum = i) = true := by
  have found :
      fs.openFiles.toList.findIdx (fun f => f.fileNum = i) < fs.openFiles.toList.length ↔ _ :=
    List.findIdx_lt_length
  rw [Vector.length_toList] at found
  rw [found, ← Vector.any_toList, List.any_eq_true]

theorem fsDelete_result (name : CString) (new1 new2 : Option Block) :
    (fsDelete fs name new1 new2).result = FileSystem.fsDelete fs name new1 new2 := by
  unfold fsDelete FileSystem.fsDelete
  rw [bind_result, searchFiles_result, Option.bind_eq_bind]
  congr 1
  funext i
  split
  case isTrue h =>
    simp only [bind_result, searchOpen_result, Option.bind_some, ite_result, pure_result,
      deleteFile_result fs h, findIdx_open]
  case isFalse => rfl

theorem fsRead_result (fildes : Int) (nbyte : Nat) (new : Option Block) :
    (fsRead fs fildes nbyte new).result = FileSystem.fsRead fs fildes nbyte new := by
  unfold fsRead FileSystem.fsRead
  simp only [bind_result, loadOpen_result, loadFile_result, lift_result, Option.bind_eq_bind]
  cases new with
  | none => rfl
  | some buffer =>
    simp only [bind_result, lift_result, storeOpen_result, pure_result]

theorem growsInto_result (f : OpenFile) (m : FsMeta) (nbyte : Nat) :
    (growsInto fs f m nbyte).result = FileSystem.growsInto fs f m nbyte := by
  unfold growsInto FileSystem.growsInto
  simp only [ite_result, bind_result, loadFile_result, pure_result, Option.bind_eq_bind]

theorem fsWrite_result (fildes : Int) (data : List UInt8) (new : Option Block) :
    (fsWrite fs fildes data new).result = FileSystem.fsWrite fs fildes data new := by
  unfold fsWrite FileSystem.fsWrite
  simp only [bind_result, loadOpen_result, loadFile_result, lift_result, Option.bind_eq_bind]
  cases new with
  | none => rfl
  | some buffer =>
    simp only [bind_result, growsInto_result, ite_result, pure_result, lift_result,
      storeOpen_result, storeFile_result]

theorem fsGetFilesize_result (fildes : Int) :
    (fsGetFilesize fs fildes).result = FileSystem.fsGetFilesize fs fildes := by
  unfold fsGetFilesize FileSystem.fsGetFilesize
  simp only [ite_result, bind_result, pure_result, loadOpen_result, loadFile_result,
    Option.bind_eq_bind, Option.map_eq_bind]
  rfl

theorem fsLseek_result (fildes offset : Int) :
    (fsLseek fs fildes offset).result = FileSystem.fsLseek fs fildes offset := by
  unfold fsLseek FileSystem.fsLseek
  simp only [ite_result, bind_result, pure_result, loadOpen_result, loadFile_result,
    storeOpen_result, Option.bind_eq_bind]

theorem truncateFile_result (fildes : Int) (f : OpenFile) (m : FsMeta) (length : Int)
    (new1 new2 : Option Block) : (truncateFile fs fildes f m length new1 new2).result =
      FileSystem.truncateFile fs fildes f m length new1 new2 := by
  unfold truncateFile FileSystem.truncateFile
  simp only [bind_result, pure_result, lift_result, storeFile_result, fillFrom_result,
    storeOpen_result, Option.bind_eq_bind]

theorem fsTruncate_result (fildes length : Int) (new1 new2 : Option Block) :
    (fsTruncate fs fildes length new1 new2).result =
      FileSystem.fsTruncate fs fildes length new1 new2 := by
  unfold fsTruncate FileSystem.fsTruncate
  simp only [ite_result, bind_result, pure_result, loadOpen_result, loadFile_result,
    truncateFile_result, Option.bind_eq_bind]

/-- The accesses on record are those of the call itself. -/
theorem perform_result (c : Call) : (perform fs c).result = c.perform fs := by
  cases c with
  | fsOpen name => exact fsOpen_result fs name
  | fsClose fildes => exact fsClose_result fs fildes
  | fsCreate name => exact fsCreate_result fs name
  | fsDelete name new1 new2 => exact fsDelete_result fs name new1 new2
  | fsRead fildes nbyte new =>
    simp only [perform, Call.perform, bind_result, pure_result, fsRead_result, Option.bind_eq_bind]
  | fsWrite fildes data new => exact fsWrite_result fs fildes data new
  | fsGetFilesize fildes =>
    simp only [perform, Call.perform, bind_result, pure_result, fsGetFilesize_result,
      Option.map_eq_bind]
    rfl
  | fsLseek fildes offset => exact fsLseek_result fs fildes offset
  | fsTruncate fildes length new1 new2 => exact fsTruncate_result fs fildes length new1 new2

end

end Accesses

end LastPicked.FileSystem
