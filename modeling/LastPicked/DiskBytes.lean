import LastPicked.FileSysSteps
import LastPicked.FlatBlocks

/-! The open disk as one sequence of bytes. Every operation on a mounted file
system rewrites the contents of the open disk at most. -/

namespace LastPicked.FileSystem
open CIntegers CMemory FlatBlocks

def Disk.showing (d : Disk) (name : CString) (blocks : Image) : Disk :=
  { d with handle := some name, host := Function.update d.host name (some blocks) }

def byteAt (blocks : Image) (p : Nat) : UInt8 := flat 0 blocks p

def diskBytes : Nat := diskBlocks * blockSize

def FsMeta.contents (m : FsMeta) (blocks : Image) : List UInt8 :=
  (List.range m.size.toNat).map fun t => byteAt blocks (m.start.toNat + t)

theorem FsMeta.contents_eq_iff {m m' : FsMeta} {blocks blocks' : Image} (size : m'.size = m.size) :
    m'.contents blocks' = m.contents blocks ↔ ∀ t < m.size.toNat,
      byteAt blocks' (m'.start.toNat + t) = byteAt blocks (m.start.toNat + t) := by
  unfold contents
  rw [size, List.map_inj_left]
  simp only [List.mem_range]

theorem FsMeta.contents_of_bytes {m : FsMeta} {blocks : Image} {xs : List UInt8} {s : Nat}
    (start : m.start = s) (size : m.size = xs.length)
    (bytes : ∀ t (ht : t < xs.length), byteAt blocks (s + t) = xs[t]) :
    m.contents blocks = xs := by
  refine List.ext_getElem (by simp [contents, size]) fun t _ ht => ?_
  simp [contents, start, bytes t ht]

theorem FsMeta.contents_congr {m m' : FsMeta} {blocks blocks' : Image} (size : m'.size = m.size)
    (same : ∀ t < m.size.toNat,
      byteAt blocks' (m'.start.toNat + t) = byteAt blocks (m.start.toNat + t)) :
    m'.contents blocks' = m.contents blocks :=
  (contents_eq_iff size).mpr same

variable {d d' : Disk} {name : CString} {blocks blocks' : Image}

theorem Disk.showing_self (opened : d.handle = some name) (image : d.host name = some blocks) :
    d.showing name blocks = d := by
  obtain ⟨host, permits, handle⟩ := d
  subst opened
  simp [Disk.showing, ← image]

@[simp] theorem Disk.showing_handle : (d.showing name blocks).handle = some name := rfl
@[simp] theorem Disk.showing_permits : (d.showing name blocks).permits = d.permits := rfl

@[simp] theorem Disk.showing_host : (d.showing name blocks).host name = some blocks :=
  Function.update_self _ _ _

@[simp] theorem Disk.showing_showing :
    (d.showing name blocks).showing name blocks' = d.showing name blocks' := by
  simp [Disk.showing]

theorem blockWrite_showing {b : Nat} (hb : b < diskBlocks) (buf : Block) :
    blockWrite (d.showing name blocks) b buf = (0, d.showing name (blocks.set b buf)) := by
  rw [blockWrite_open Disk.showing_handle Disk.showing_host (Int.natCast_nonneg b)
    (Int.ofNat_lt.mpr hb)]
  simp [Disk.showing]

theorem blockRead_showing {b : Nat} (hb : b < diskBlocks) (buf : Block) :
    blockRead (d.showing name blocks) b buf = (0, blocks[b]) :=
  blockRead_open Disk.showing_handle Disk.showing_host (Int.natCast_nonneg b)
    (Int.ofNat_lt.mpr hb) buf

theorem blockWrite_beyond {b : Int} (hb : diskBlocks ≤ b) (buf : Block) :
    (blockWrite d b buf).2 = d := by
  unfold blockWrite
  cases d.handle with
  | none => rfl
  | some name => simp [hb]

inductive Rewritten (d : Disk) : Disk → Prop
  | same : Rewritten d d
  | image {name : CString} {old blocks : Image} : d.handle = some name → d.host name = some old →
      Rewritten d (d.showing name blocks)

namespace Rewritten

theorem trans {d'' : Disk} (first : Rewritten d d') (second : Rewritten d' d'') :
    Rewritten d d'' := by
  cases first with
  | same => exact second
  | image opened image =>
    cases second with
    | same => exact .image opened image
    | image opened' =>
      obtain rfl := Option.some.inj opened'
      rw [Disk.showing_showing]
      exact .image opened image

theorem closed (h : Rewritten d d') (none : d.handle = none) : d' = d := by
  cases h with
  | same => rfl
  | image opened => simp [none] at opened

theorem opened (h : Rewritten d d') (handle : d.handle = some name)
    (image : d.host name = some blocks) : ∃ blocks', d' = d.showing name blocks' := by
  cases h with
  | same => exact ⟨blocks, (Disk.showing_self handle image).symm⟩
  | image handle' =>
    obtain rfl := Option.some.inj (handle.symm.trans handle')
    exact ⟨_, rfl⟩

theorem blockWrite (d : Disk) (b : Int) (buf : Block) : Rewritten d (blockWrite d b buf).2 := by
  obtain ⟨host, permits, handle⟩ := d
  unfold FileSystem.blockWrite
  cases handle with
  | none => exact .same
  | some name =>
    dsimp only
    split
    case isTrue => exact .same
    case isFalse =>
      cases image : host name with
      | none =>
        rw [Option.map_none, ← image, Function.update_eq_self]
        exact .same
      | some old => exact .image rfl image

end Rewritten

theorem writeLoop_rewritten {data : List UInt8} {count block pos : Int} {buffer : Block}
    {res : Int × Int × Block} (h : writeLoop data d count block pos buffer = some (d', res)) :
    Rewritten d d' := by
  induction data generalizing d count block pos buffer with
  | nil =>
    cases h
    exact .same
  | cons b rest ih =>
    obtain ⟨⟨next, block', pos', buffer'⟩, turn, h⟩ := Option.bind_eq_some_iff.mp h
    obtain ⟨buffer'', -, h⟩ := Option.bind_eq_some_iff.mp h
    obtain ⟨count', -, h⟩ := Option.bind_eq_some_iff.mp h
    refine Rewritten.trans ?_ (ih h)
    unfold writeTurn at turn
    split at turn
    case isTrue =>
      obtain ⟨block'', -, turn⟩ := Option.bind_eq_some_iff.mp turn
      cases turn
      exact .blockWrite ..
    case isFalse =>
      cases turn
      exact .same

theorem advance1_rewritten {s s' : Shift} (h : advance1 d s = some (d', s')) : Rewritten d d' := by
  unfold advance1 at h
  split at h
  case isTrue =>
    obtain ⟨block1, -, h⟩ := Option.bind_eq_some_iff.mp h
    cases h
    exact .blockWrite ..
  case isFalse =>
    cases h
    exact .same

theorem advance2_rewritten {s s' : Shift} (h : advance2 d s = some (d', s')) : Rewritten d d' := by
  unfold advance2 at h
  split at h
  case isTrue =>
    obtain ⟨block2, -, h⟩ := Option.bind_eq_some_iff.mp h
    cases h
    exact .blockWrite ..
  case isFalse =>
    cases h
    exact .same

theorem shiftTurn_rewritten {s s' : Shift} (h : shiftTurn d s = some (d', s')) :
    Rewritten d d' := by
  obtain ⟨buffer1, -, h⟩ := Option.bind_eq_some_iff.mp h
  obtain ⟨⟨between, s''⟩, first, second⟩ := Option.bind_eq_some_iff.mp h
  exact (advance1_rewritten first).trans (advance2_rewritten second)

theorem shiftLoop_rewritten {s s' : Shift} (h : shiftLoop d s = some (d', s')) :
    Rewritten d d' := by
  fun_induction shiftLoop d s with
  | case1 => cases h
  | case2 d s within next s'' turn ih => exact (shiftTurn_rewritten turn).trans (ih h)
  | case3 =>
    cases h
    exact .same

theorem zeroFrom_rewritten (d : Disk) (block1 : Int) (k : Nat) :
    Rewritten d (zeroFrom d block1 k) := by
  induction k generalizing d block1 with
  | zero => exact .same
  | succ k ih => exact (Rewritten.blockWrite d block1 zeroBlock).trans (ih _ _)

theorem shiftBlocks_rewritten {startBlock startOffset numShift : Int} {new1 new2 : Option Block}
    (h : shiftBlocks d startBlock startOffset numShift new1 new2 = some d') : Rewritten d d' := by
  unfold shiftBlocks at h
  split at h
  case isTrue =>
    cases h
    exact .same
  case isFalse =>
    obtain ⟨offset2, -, h⟩ := Option.bind_eq_some_iff.mp h
    split at h
    case h_2 =>
      cases h
      exact .same
    case h_1 =>
      obtain ⟨⟨block2, offset2'⟩, -, h⟩ := Option.bind_eq_some_iff.mp h
      obtain ⟨⟨between, s⟩, loop, h⟩ := Option.bind_eq_some_iff.mp h
      obtain ⟨buffer1, -, h⟩ := Option.bind_eq_some_iff.mp h
      obtain ⟨block1, -, h⟩ := Option.bind_eq_some_iff.mp h
      cases h
      exact (shiftLoop_rewritten loop).trans
        ((Rewritten.blockWrite ..).trans (zeroFrom_rewritten ..))

end LastPicked.FileSystem
