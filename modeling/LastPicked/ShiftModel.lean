import LastPicked.CIntegers
import LastPicked.DiskModel

/-! The movement of data in myfilesys.c: positions that run over the end of
their block, and `shiftBlocks`, which drops bytes and moves up what follows. -/

namespace LastPicked.FileSystem
open CIntegers CMemory

/-- `while (pos > last) { block++; pos -= BLOCK_SIZE; }` with at most `k` turns to go -/
def carryFor (last : Nat) : (k : Nat) → (block pos : Int) → Option (Int × Int)
  | 0, block, pos => some (block, pos)
  | k + 1, block, pos =>
      if last < pos then do
        let block ← addInt block 1
        carryFor last k block (pos - blockSize)
      else some (block, pos)

/-- The whole loop. Each turn lowers `pos`, so `pos` bounds their number. -/
def carry (last : Nat) (block pos : Int) : Option (Int × Int) := carryFor last pos.toNat block pos

theorem carryFor_spec {last k : Nat} {block pos block' pos' : Int} (enough : pos ≤ k)
    (h : carryFor last k block pos = some (block', pos')) :
    block' * blockSize + pos' = block * blockSize + pos ∧ pos' ≤ last ∧
      (pos' = pos ∨ last < pos' + blockSize) := by
  induction k generalizing block pos with
  | zero => grind [carryFor]
  | succ k ih =>
    unfold carryFor at h
    split at h
    case isTrue larger =>
      obtain ⟨next, more, h⟩ := Option.bind_eq_some_iff.mp h
      obtain ⟨rfl, -⟩ := addInt_eq_some.mp more
      have rest := ih (by unfold blockSize; omega) h
      grind
    case isFalse => grind

/-- The position stays the same byte of the disk. -/
theorem carry_spec {last : Nat} {block pos block' pos' : Int}
    (h : carry last block pos = some (block', pos')) :
    block' * blockSize + pos' = block * blockSize + pos ∧ pos' ≤ last ∧
      (pos' = pos ∨ last < pos' + blockSize) :=
  carryFor_spec (Int.self_le_toNat pos) h

theorem carry_of_le {last : Nat} {block pos : Int} (h : pos ≤ last) :
    carry last block pos = some (block, pos) := by
  unfold carry
  cases pos.toNat with
  | zero => rfl
  | succ k => exact if_neg (Int.not_lt.mpr h)

theorem carry_total (last : Nat) {block pos : Int} (low : intMin ≤ block)
    (small : block + pos ≤ intMax) :
    ∃ block' pos', carry last block pos = some (block', pos') := by
  have turns (k : Nat) : ∀ block pos : Int, intMin ≤ block → block + pos ≤ intMax →
      ∃ block' pos', carryFor last k block pos = some (block', pos') := by
    induction k with
    | zero => exact fun block pos _ _ => ⟨block, pos, rfl⟩
    | succ k ih =>
      intro block pos low small
      unfold carryFor
      split
      case isTrue larger =>
        have counted : addInt block 1 = some (block + 1) :=
          addInt_eq_some.mpr ⟨rfl, by omega, by omega⟩
        rw [counted]
        exact ih (block + 1) (pos - blockSize) (by omega) (by unfold blockSize; omega)
      case isFalse => exact ⟨block, pos, rfl⟩
  exact turns _ block pos low small

theorem carry_within {last : Nat} (wide : blockSize - 1 ≤ last) {block pos : Int}
    (low : intMin ≤ block) (small : block + pos / blockSize ≤ intMax) :
    ∃ block' pos', carry last block pos = some (block', pos') := by
  have turns (k : Nat) : ∀ block pos : Int, intMin ≤ block → block + pos / blockSize ≤ intMax →
      ∃ block' pos', carryFor last k block pos = some (block', pos') := by
    induction k with
    | zero => exact fun block pos _ _ => ⟨block, pos, rfl⟩
    | succ k ih =>
      intro block pos low small
      unfold carryFor
      split
      case isTrue larger =>
        unfold blockSize at wide small
        have counted : addInt block 1 = some (block + 1) :=
          addInt_eq_some.mpr ⟨rfl, by omega, by omega⟩
        rw [counted]
        exact ih (block + 1) (pos - blockSize) (by omega) (by unfold blockSize; omega)
      case isFalse => exact ⟨block, pos, rfl⟩
  exact turns _ block pos low small

theorem carry_block {last : Nat} {block pos block' pos' : Int}
    (h : carry last block pos = some (block', pos')) : block ≤ block' := by
  have turns (k : Nat) : ∀ block pos : Int, carryFor last k block pos = some (block', pos') →
      block ≤ block' := by
    induction k with
    | zero =>
      intro block pos h
      cases h
      exact Int.le_refl _
    | succ k ih =>
      intro block pos h
      unfold carryFor at h
      split at h
      case isTrue =>
        obtain ⟨next, more, h⟩ := Option.bind_eq_some_iff.mp h
        obtain ⟨rfl, -⟩ := addInt_eq_some.mp more
        have later := ih _ _ h
        omega
      case isFalse =>
        cases h
        exact Int.le_refl _
  exact turns _ block pos h

structure Shift where
  block1 : Int
  offset1 : Int
  buffer1 : Block
  block2 : Int
  offset2 : Int
  buffer2 : Block

def advance1 (d : Disk) (s : Shift) : Option (Disk × Shift) :=
  if s.offset1 = blockSize then do
    let d := (blockWrite d s.block1 s.buffer1).2
    let block1 ← addInt s.block1 1
    some (d, { s with block1, offset1 := 0, buffer1 := (blockRead d block1 s.buffer1).2 })
  else some (d, s)

def advance2 (d : Disk) (s : Shift) : Option (Disk × Shift) :=
  if s.offset2 = blockSize then do
    let d := (blockWrite d s.block2 s.buffer2).2
    let block2 ← addInt s.block2 1
    let buffer2 := if block2 < diskBlocks then (blockRead d block2 s.buffer2).2 else s.buffer2
    some (d, { s with block2, offset2 := 0, buffer2 })
  else some (d, s)

def shiftTurn (d : Disk) (s : Shift) : Option (Disk × Shift) := do
  let numCopy := if s.offset2 < s.offset1 then blockSize - s.offset1 else blockSize - s.offset2
  let buffer1 ← copy s.buffer1 s.offset1 s.buffer2 s.offset2 numCopy
  let offset1 := s.offset1 + numCopy
  let offset2 := s.offset2 + numCopy
  let (d, s) ← advance1 d { s with buffer1, offset1, offset2 }
  advance2 d s

/-- What a turn lowers: the blocks and bytes ahead of the second cursor, and
whether the first one still has to leave a block that is full. -/
def Shift.ahead (s : Shift) : Nat :=
  (diskBlocks - s.block2).toNat * (2 * blockSize + 2) + 2 * (blockSize - s.offset2).toNat +
    if s.offset1 = blockSize then 1 else 0

theorem advance1_spec {d d' : Disk} {s s' : Shift} (h : advance1 d s = some (d', s')) :
    s'.block2 = s.block2 ∧ s'.offset2 = s.offset2 ∧
      s'.offset1 = if s.offset1 = blockSize then 0 else s.offset1 := by
  unfold advance1 at h
  split at h
  case isTrue full =>
    obtain ⟨block1, -, h⟩ := Option.bind_eq_some_iff.mp h
    cases h
    simp [full]
  case isFalse more =>
    cases h
    simp [more]

theorem advance2_spec {d d' : Disk} {s s' : Shift} (h : advance2 d s = some (d', s')) :
    s'.offset1 = s.offset1 ∧
      if s.offset2 = blockSize then s'.block2 = s.block2 + 1 ∧ s'.offset2 = 0
      else s'.block2 = s.block2 ∧ s'.offset2 = s.offset2 := by
  unfold advance2 at h
  split at h
  case isTrue full =>
    obtain ⟨block2, more, h⟩ := Option.bind_eq_some_iff.mp h
    obtain ⟨rfl, -⟩ := addInt_eq_some.mp more
    cases h
    simp [full]
  case isFalse more =>
    cases h
    simp [more]

theorem shiftTurn_ahead {d d' : Disk} {s s' : Shift} (within : s.block2 < diskBlocks)
    (h : shiftTurn d s = some (d', s')) : s'.ahead < s.ahead := by
  unfold shiftTurn at h
  obtain ⟨buffer1, copied, h⟩ := Option.bind_eq_some_iff.mp h
  obtain ⟨⟨between, s''⟩, first, second⟩ := Option.bind_eq_some_iff.mp h
  obtain ⟨count, low1, high1, low2, high2⟩ := copy_bounds copied
  obtain ⟨block2, offset2, offset1⟩ := advance1_spec first
  have moved := advance2_spec second
  unfold Shift.ahead
  unfold diskBlocks blockSize at *
  -- a turn that copies nothing only leaves the first block
  grind

/-- `while (block2 < DISK_BLOCKS)` -/
def shiftLoop (d : Disk) (s : Shift) : Option (Disk × Shift) :=
  if _ : s.block2 < diskBlocks then
    match _ : shiftTurn d s with
    | none => none
    | some (d', s') => shiftLoop d' s'
  else some (d, s)
termination_by s.ahead
decreasing_by exact shiftTurn_ahead ‹_› ‹_›

def zeroFrom (d : Disk) (block1 : Int) : (k : Nat) → Disk
  | 0 => d
  | k + 1 => zeroFrom (blockWrite d block1 zeroBlock).2 (block1 + 1) k

def zeroRest (d : Disk) (s : Shift) : Option Disk := do
  let buffer1 ← fill s.buffer1 s.offset1 (blockSize - s.offset1) 0
  let d := (blockWrite d s.block1 buffer1).2
  let block1 ← addInt s.block1 1
  some (zeroFrom d block1 (diskBlocks - block1).toNat)

/-- `new1` and `new2` are what the two `malloc` calls answer: a block with the
bytes it happens to hold, or NULL. -/
def shiftBlocks (d : Disk) (startBlock startOffset numShift : Int) (new1 new2 : Option Block) :
    Option Disk :=
  if numShift = 0 then some d
  else do
    let offset2 ← addInt startOffset numShift
    match new1, new2 with
    | some buffer1, some buffer2 => do
        let (block2, offset2) ← carry (blockSize - 1) startBlock offset2
        let buffer1 := (blockRead d startBlock buffer1).2
        let buffer2 := (blockRead d block2 buffer2).2
        let (d, s) ← shiftLoop d ⟨startBlock, startOffset, buffer1, block2, offset2, buffer2⟩
        zeroRest d s
    | _, _ => some d

end LastPicked.FileSystem
