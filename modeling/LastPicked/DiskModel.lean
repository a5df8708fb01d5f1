import LastPicked.CMemory

/-! The virtual disk of disk.c: a file of the host that is read and written
in whole blocks. The host's files behave as arrays of `DISK_BLOCKS` blocks,
and the transfers themselves succeed. -/

namespace LastPicked.FileSystem
open CMemory

def diskBlocks : Nat := 8192

def blockSize : Nat := 4096

abbrev Block := Vector UInt8 blockSize

abbrev Image := Vector Block diskBlocks

def zeroBlock : Block := Vector.replicate blockSize 0

structure Disk where
  /-- The host's disk files. -/
  host : CString → Option Image
  /-- Whether the host lets the file of a name be opened for writing. -/
  permits : CString → Bool
  /-- `active` and `handle`: the file that is open, if there is one. -/
  handle : Option CString

abbrev DiskName := Option CString

def makeDisk (d : Disk) (name : DiskName) : Int × Disk :=
  match name with
  | none => (-1, d)
  | some name =>
      if d.permits name then
        let image := some (Vector.replicate diskBlocks zeroBlock)
        (0, { d with host := Function.update d.host name image })
      else (-1, d)

def openDisk (d : Disk) (name : DiskName) : Int × Disk :=
  match name with
  | none => (-1, d)
  | some name =>
      if d.handle.isSome then (-1, d)
      else if (d.host name).isSome && d.permits name then (0, { d with handle := some name })
      else (-1, d)

def closeDisk (d : Disk) : Int × Disk :=
  if d.handle.isSome then (0, { d with handle := none }) else (-1, d)

def blockWrite (d : Disk) (block : Int) (buf : Block) : Int × Disk :=
  match d.handle with
  | none => (-1, d)
  | some name =>
      if h : block < 0 ∨ diskBlocks ≤ block then (-1, d)
      else
        let image := (d.host name).map fun blocks => blocks.set block.toNat buf (by omega)
        (0, { d with host := Function.update d.host name image })

/-- The second result is what `buf` holds afterwards. -/
def blockRead (d : Disk) (block : Int) (buf : Block) : Int × Block :=
  match d.handle >>= d.host with
  | none => (-1, buf)
  | some blocks =>
      if h : block < 0 ∨ diskBlocks ≤ block then (-1, buf)
      else (0, blocks[block.toNat])

theorem makeDisk_cases (d : Disk) (diskName : DiskName) :
    makeDisk d diskName = (-1, d) ∨
      ∃ name, diskName = some name ∧ d.permits name ∧
        makeDisk d diskName = (0, { d with
          host := Function.update d.host name
            (some (Vector.replicate diskBlocks zeroBlock)) }) := by
  unfold makeDisk
  cases diskName with
  | none => exact .inl rfl
  | some name =>
    by_cases permitted : d.permits name
    · exact .inr ⟨name, rfl, permitted, if_pos permitted⟩
    · exact .inl (if_neg permitted)

theorem openDisk_cases (d : Disk) (diskName : DiskName) :
    openDisk d diskName = (-1, d) ∨
      ∃ name blocks, diskName = some name ∧ d.handle = none ∧ d.host name = some blocks ∧
        d.permits name ∧ openDisk d diskName = (0, { d with handle := some name }) := by
  unfold openDisk
  cases diskName with
  | none => exact .inl rfl
  | some name =>
    cases active : d.handle with
    | some other => exact .inl rfl
    | none =>
      cases image : d.host name with
      | none => exact .inl (by simp [image])
      | some blocks =>
        by_cases permitted : d.permits name
        · exact .inr ⟨name, blocks, rfl, rfl, image, permitted, by simp [image, permitted]⟩
        · exact .inl (by simp [permitted])

section
variable {d : Disk} {name : CString} {blocks : Image} {block : Int}

theorem blockRead_open (opened : d.handle = some name) (image : d.host name = some blocks)
    (low : 0 ≤ block) (high : block < diskBlocks) (buf : Block) :
    blockRead d block buf = (0, blocks[block.toNat]) := by
  have bound : ¬(block < 0 ∨ diskBlocks ≤ block) := by omega
  simp [blockRead, opened, image, bound]

theorem blockWrite_open (opened : d.handle = some name) (image : d.host name = some blocks)
    (low : 0 ≤ block) (high : block < diskBlocks) (buf : Block) :
    blockWrite d block buf =
      (0, { d with host := Function.update d.host name (some (blocks.set block.toNat buf)) }) := by
  have bound : ¬(block < 0 ∨ diskBlocks ≤ block) := by omega
  simp [blockWrite, opened, image, bound]

end

end LastPicked.FileSystem
