import LastPicked.FileSysModel

/-! The table on the disk. Its entries survive the way through block 0, and a
file system that was made and then mounted has no file and no open
descriptor. -/

namespace LastPicked.FileSystem
open CIntegers CMemory

structure FsMeta.Ranged (m : FsMeta) : Prop where
  block : intMin ≤ m.block ∧ m.block ≤ intMax
  offset : intMin ≤ m.offset ∧ m.offset ≤ intMax
  size : intMin ≤ m.size ∧ m.size ≤ intMax

structure FsMeta.Unused (m : FsMeta) : Prop where
  name : m.fileName.toList.head? = some 0
  size : m.size = -1

theorem FsMeta.ofBytes_byte {m : FsMeta} (ranged : m.Ranged) : FsMeta.ofBytes m.byte = m := by
  have block := ofBytes_intByte ranged.block.1 ranged.block.2
  have offset := ofBytes_intByte ranged.offset.1 ranged.offset.2
  have size := ofBytes_intByte ranged.size.1 ranged.size.2
  have name : (Vector.ofFn fun j : Fin 16 => m.byte (j.castLE (by decide))) = m.fileName := by
    ext j hj
    simp [FsMeta.byte]
  obtain ⟨fileName, _, _, _⟩ := m
  simp only [FsMeta.ofBytes, name, FsMeta.mk.injEq, true_and]
  exact ⟨block, offset, size⟩

/-- The table of files is read back from block 0 as it was written. -/
theorem bufferToFiles_filesToBuffer {files : Files} (buffer : Block)
    (ranged : ∀ i : Fin 64, files[i].Ranged) :
    bufferToFiles (filesToBuffer files buffer) = files := by
  ext1 i hi
  have bound (j : Fin 28) : 28 * i + j.val < blockSize := by unfold blockSize; omega
  have entry : (fun j : Fin 28 =>
      have inside := bound j
      (filesToBuffer files buffer)[28 * i + j.val]) = files[i].byte := by
    funext j
    have inside : 28 * i + j.val < 28 * 64 := by omega
    have slot : (28 * i + j.val) / 28 = i := by omega
    have place : (28 * i + j.val) % 28 = j := by omega
    simp [filesToBuffer, inside, slot, place]
  calc
    (bufferToFiles (filesToBuffer files buffer))[i] = FsMeta.ofBytes files[i].byte := by
      simp [bufferToFiles, entry]
    _ = files[i] := FsMeta.ofBytes_byte (ranged ⟨i, hi⟩)

theorem mountFs_eq {fs mounted : FileSys} {diskName : DiskName} {new : Option Block}
    (mount : mountFs fs diskName new = (0, mounted)) :
    ∃ name blocks, diskName = some name ∧ fs.disk.handle = none ∧
      fs.disk.host name = some blocks ∧ fs.disk.permits name ∧
      mounted = ⟨closeAll fs.openFiles, bufferToFiles blocks[0],
        { fs.disk with handle := some name }⟩ := by
  unfold mountFs at mount
  rcases openDisk_cases fs.disk diskName with
    failed | ⟨name, blocks, rfl, closed, image, permitted, opened⟩
  · simp [failed] at mount
  · cases new with
    | none => simp [opened] at mount
    | some buffer =>
      have read := blockRead_open (d := { fs.disk with handle := some name }) rfl image
        (Int.le_refl 0) (by decide) buffer
      simp only [opened, ne_eq, not_true, if_false, read, Prod.mk.injEq, true_and] at mount
      exact ⟨name, blocks, rfl, closed, image, permitted, mount.symm⟩

theorem mountFs_disk (fs : FileSys) {name : CString} {blocks : Image}
    (closed : fs.disk.handle = none) (image : fs.disk.host name = some blocks)
    (permitted : fs.disk.permits name) (new : Option Block) :
    (mountFs fs (some name) new).2.disk = { fs.disk with handle := some name } := by
  cases new <;> simp [mountFs, openDisk, closed, image, permitted]

theorem unmountFs_table (fs : FileSys) {name : CString} {blocks : Image} {new : Option Block}
    (opened : fs.disk.handle = some name) (image : fs.disk.host name = some blocks)
    (closed : (unmountFs fs new).2.disk.handle = none) :
    ∃ buffer, (unmountFs fs new).2.disk.host name =
      some (blocks.set 0 (filesToBuffer fs.files buffer)) := by
  cases new with
  | none =>
    rw [unmountFs, opened] at closed
    cases closed
  | some buffer =>
    have write := blockWrite_open opened image (Int.le_refl 0) (by decide)
      (filesToBuffer fs.files buffer)
    exact ⟨buffer, by simp [unmountFs, closeDisk, write, opened]⟩

theorem FsMeta.clearName_head (m : FsMeta) : m.clearName.fileName.toList.head? = some 0 := by
  simp [clearName, List.head?_eq_getElem?]

theorem FsMeta.fresh_unused (m : FsMeta) : m.fresh.Unused := ⟨m.clearName_head, rfl⟩

theorem FsMeta.fresh_ranged (m : FsMeta) : m.fresh.Ranged := by
  constructor <;> simp [fresh, intMin, intMax]

theorem makeFs_table {fs made : FileSys} {diskName : DiskName} {new new' : Option Block}
    (closed : fs.disk.handle = none) (make : makeFs fs diskName new new' = (0, made))
    (after : made.disk.handle = none) :
    ∃ (name : CString) (files : Files) (buffer : Block) (blocks : Image), diskName = some name ∧
      made.disk.host name =
        some (blocks.set 0 (filesToBuffer (files.map FsMeta.fresh) buffer)) := by
  unfold makeFs at make
  rcases makeDisk_cases fs.disk diskName with failed | ⟨name, rfl, permitted, created⟩
  · simp [failed] at make
  · simp only [created, ne_eq, not_true, if_false, Prod.mk.injEq, true_and] at make
    have opened := mountFs_disk { fs with disk := { fs.disk with
      host := Function.update fs.disk.host name (some (Vector.replicate diskBlocks zeroBlock)) } }
      closed (Function.update_self _ _ _) permitted new
    generalize (mountFs _ (some name) new).2 = mounted at make opened
    subst make
    obtain ⟨buffer, written⟩ := unmountFs_table
      { mounted with files := mounted.files.map FsMeta.fresh } (congrArg Disk.handle opened)
      ((congrArg (fun d => d.host name) opened).trans (Function.update_self _ _ _)) after
    exact ⟨name, mounted.files, buffer, _, rfl, written⟩

/-- `make_fs` and then `mount_fs`, on a disk that is not open before: the table is
the one of `make_fs`, and no descriptor is open. -/
theorem mounted_fresh {fs made mounted : FileSys} {diskName : DiskName}
    {new new' new'' : Option Block} (closed : fs.disk.handle = none)
    (make : makeFs fs diskName new new' = (0, made))
    (mount : mountFs made diskName new'' = (0, mounted)) :
    (∃ files : Files, mounted.files = files.map FsMeta.fresh) ∧
      ∀ k : Fin 32, mounted.openFiles[k].fileNum = -1 := by
  obtain ⟨name, blocks, rfl, after, image, -, rfl⟩ := mountFs_eq mount
  obtain ⟨_, files, buffer, old, same, table⟩ := makeFs_table closed make after
  obtain rfl := Option.some.inj same
  obtain rfl : old.set 0 (filesToBuffer (files.map FsMeta.fresh) buffer) = blocks :=
    Option.some.inj (table.symm.trans image)
  have entries : bufferToFiles (filesToBuffer (files.map FsMeta.fresh) buffer) =
      files.map FsMeta.fresh :=
    bufferToFiles_filesToBuffer buffer fun i => by simpa using FsMeta.fresh_ranged _
  refine ⟨⟨files, ?_⟩, fun k => by simp [closeAll]⟩
  simpa using entries

theorem mounted_empty {fs made mounted : FileSys} {diskName : DiskName}
    {new new' new'' : Option Block} (closed : fs.disk.handle = none)
    (make : makeFs fs diskName new new' = (0, made))
    (mount : mountFs made diskName new'' = (0, mounted)) :
    (∀ k : Fin 64, mounted.files[k].Unused) ∧
      ∀ k : Fin 32, mounted.openFiles[k].fileNum = -1 := by
  obtain ⟨⟨files, entries⟩, openFiles⟩ := mounted_fresh closed make mount
  refine ⟨fun k => ?_, openFiles⟩
  simpa [entries] using FsMeta.fresh_unused _

theorem bufferToFiles_zero : bufferToFiles zeroBlock = Vector.replicate 64 FsMeta.zero := by
  have name : (Vector.ofFn fun _ : Fin 16 => (0 : UInt8)) = Vector.replicate 16 0 := by
    ext1 j hj
    simp
  have int : CIntegers.ofBytes 0 0 0 0 = 0 := by decide
  ext1 i hi
  simp [bufferToFiles, zeroBlock, FsMeta.ofBytes, FsMeta.zero, name, int]

theorem closeAll_closeAll (openFiles : OpenFiles) :
    closeAll (closeAll openFiles) = closeAll openFiles := by
  ext1 k hk
  simp [closeAll]

section
variable (fs : FileSys) {name : CString} {blocks : Image}

theorem mountFs_open (closed : fs.disk.handle = none) (image : fs.disk.host name = some blocks)
    (permitted : fs.disk.permits name) (buffer : Block) :
    ∃ disk, mountFs fs (some name) (some buffer) =
        (0, ⟨closeAll fs.openFiles, bufferToFiles blocks[0], disk⟩) ∧
      disk.handle = some name ∧ disk.host name = some blocks ∧ disk.permits = fs.disk.permits := by
  have opened : openDisk fs.disk (some name) = (0, { fs.disk with handle := some name }) := by
    simp [openDisk, closed, image, permitted]
  have read := blockRead_open (d := { fs.disk with handle := some name }) rfl image
    (Int.le_refl 0) (by decide) buffer
  exact ⟨{ fs.disk with handle := some name }, by simp [mountFs, opened, read], rfl, image, rfl⟩

theorem unmountFs_open (opened : fs.disk.handle = some name)
    (image : fs.disk.host name = some blocks) (buffer : Block) :
    ∃ disk, unmountFs fs (some buffer) =
        (0, ⟨closeAll fs.openFiles, Vector.replicate 64 FsMeta.zero, disk⟩) ∧
      disk.handle = none ∧ disk.permits = fs.disk.permits ∧
      disk.host name = some (blocks.set 0 (filesToBuffer fs.files buffer)) := by
  have write := blockWrite_open opened image (Int.le_refl 0) (by decide)
    (filesToBuffer fs.files buffer)
  refine ⟨{ fs.disk with host := Function.update fs.disk.host name _, handle := none },
    by simp [unmountFs, closeDisk, write, opened], rfl, rfl, Function.update_self _ _ _⟩

theorem makeFs_mountFs (closed : fs.disk.handle = none) (permitted : fs.disk.permits name)
    (buffer buffer' buffer'' : Block) :
    ∃ made disk, makeFs fs (some name) (some buffer) (some buffer') = (0, made) ∧
      mountFs made (some name) (some buffer'') =
        (0, ⟨closeAll fs.openFiles, Vector.replicate 64 FsMeta.zero.fresh, disk⟩) ∧
      disk.permits = fs.disk.permits := by
  obtain ⟨disk, created, closed, permits, image⟩ : ∃ d, makeDisk fs.disk (some name) = (0, d) ∧
      d.handle = none ∧ d.permits = fs.disk.permits ∧
      d.host name = some (Vector.replicate diskBlocks zeroBlock) :=
    ⟨_, if_pos permitted, closed, rfl, Function.update_self _ _ _⟩
  obtain ⟨disk₁, mounted, opened, image, permits₁⟩ :=
    mountFs_open { fs with disk } closed image (by rw [permits]; exact permitted) buffer
  have blank : (Vector.replicate diskBlocks zeroBlock)[0] = zeroBlock := Vector.getElem_replicate _
  rw [blank, bufferToFiles_zero] at mounted
  obtain ⟨disk₂, unmounted, closed, permits₂, image⟩ := unmountFs_open
    ⟨closeAll fs.openFiles, Vector.replicate 64 FsMeta.zero.fresh, disk₁⟩ opened image buffer'
  have same : disk₂.permits = fs.disk.permits := permits₂.trans (permits₁.trans permits)
  refine ⟨⟨closeAll (closeAll fs.openFiles), Vector.replicate 64 FsMeta.zero, disk₂⟩, ?_⟩
  obtain ⟨disk₃, again, -, -, permits₃⟩ := mountFs_open
    ⟨closeAll (closeAll fs.openFiles), Vector.replicate 64 FsMeta.zero, disk₂⟩ closed image
    (by rw [same]; exact permitted) buffer''
  have table : bufferToFiles (filesToBuffer (Vector.replicate 64 FsMeta.zero.fresh) buffer') =
      Vector.replicate 64 FsMeta.zero.fresh :=
    bufferToFiles_filesToBuffer buffer' fun i => by simpa using FsMeta.fresh_ranged _
  refine ⟨disk₃, ?_, ?_, permits₃.trans same⟩
  · simp only [makeFs, created, mounted, ne_eq, not_true, if_false, Vector.map_replicate, unmounted]
  · simpa only [closeAll_closeAll, Vector.getElem_set_self, table] using again

end

end LastPicked.FileSystem
