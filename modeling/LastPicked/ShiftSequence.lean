import LastPicked.FileSysInside
import LastPicked.ShiftBytes

/-! `shiftBlocks` on the disk as one sequence of bytes. Every copy stays within its
buffers, since one that does not has no result. -/

namespace LastPicked.FileSystem
open CIntegers CMemory FlatBlocks

variable {d : Disk} {name : CString} {blocks : Image} {startBlock startOffset numShift : Int}

/-- The bytes from a position on are deleted, and zeros come in at the end. -/
theorem shiftBlocks_deletes (opened : d.handle = some name) (image : d.host name = some blocks)
    (low : 0 ≤ startBlock) (high : startBlock < diskBlocks) (lowOffset : 0 ≤ startOffset)
    (highOffset : startOffset ≤ blockSize) (pos : 0 < numShift)
    (inside : startBlock * blockSize + startOffset + numShift ≤ diskBlocks * blockSize)
    (buffer1 buffer2 : Block) :
    ∃ blocks', shiftBlocks d startBlock startOffset numShift (some buffer1) (some buffer2) =
        some (d.showing name blocks') ∧
      entries blocks' = (entries blocks).take (startBlock * blockSize + startOffset).toNat ++
        ((entries blocks).drop (startBlock * blockSize + startOffset + numShift).toNat ++
          List.replicate numShift.toNat 0) := by
  lift startBlock to Nat using low with sb
  lift startOffset to Nat using lowOffset with so
  lift numShift to Nat using pos.le with gap
  have place : ((sb : Int) * blockSize + so).toNat = sb * blockSize + so := by omega
  have rest : ((sb : Int) * blockSize + so + gap).toNat = sb * blockSize + so + gap := by omega
  have ends : sb * blockSize + so + gap ≤ diskBlocks * blockSize := by omega
  have small : (sb : Int) + (so + gap) ≤ intMax := by
    unfold intMax diskBlocks blockSize at *
    omega
  obtain ⟨blocks', run, bytes⟩ :=
    shiftBlocks_moved d name blocks (Int.ofNat_lt.mp pos) (Int.ofNat_le.mp highOffset)
    (show sb * blockSize + so ≤ diskBytes by unfold diskBytes; omega) small buffer1 buffer2
  rw [Disk.showing_self opened image] at run
  refine ⟨blocks', run, ?_⟩
  rw [place, rest, Int.toNat_natCast]
  exact entries_moved bytes ends

theorem shiftBlocks_deletes_ramp :
    ∃ blocks', shiftBlocks rampDisk 3 4000 200 (some zeroBlock) (some zeroBlock) =
      some (rampDisk.showing nameA blocks') ∧
    entries blocks' =
      (entries (Vector.replicate diskBlocks rampBlock)).take ((3 : Int) * blockSize + 4000).toNat ++
      ((entries (Vector.replicate diskBlocks rampBlock)).drop
        ((3 : Int) * blockSize + 4000 + 200).toNat ++
        List.replicate (200 : Int).toNat 0) :=
  shiftBlocks_deletes rfl rfl (by decide) (by decide) (by decide) (by decide) (by decide)
    (by decide) zeroBlock zeroBlock

end LastPicked.FileSystem
