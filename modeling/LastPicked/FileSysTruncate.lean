import LastPicked.FileSysInside
import LastPicked.ShiftBytes

/-! `fs_truncate` on a mounted file system. It drops one byte less than the new
length of the file, and moves the starts behind it by what the file lost, so
the files behind keep their contents only where the two agree. -/

namespace LastPicked.FileSystem
open CIntegers CMemory FlatBlocks Finset

variable {fs fs' : FileSys} {files files' : Files} {d : CString} {blocks blocks' : Image}
  {n i : Nat} {k : Fin 32} {length : Int} {new1 new2 : Option Block}

/-- How far `fs_truncate` moves the data behind the cut. -/
def dataShift (length : Int) (new1 new2 : Option Block) : Nat :=
  if new1.isSome ∧ new2.isSome then length.toNat - 1 else 0

/-- How far `fs_truncate` through descriptor `k` moves the start of slot `j`
when it cuts the file in slot `i`. -/
def startShift (k i j : Nat) (size length : Int) : Int :=
  if i < j ∧ k ≤ i + 1 ∧ j < 63 then size - length else 0

/-- The shift by -1 that a truncation to nothing asks for would read in front
of the block. -/
def ReadsBefore (m : FsMeta) (length : Int) (new1 new2 : Option Block) : Prop :=
  length = 0 ∧ m.offset = 0 ∧ m.block < diskBlocks ∧ new1.isSome ∧ new2.isSome

def Truncated (fs : FileSys) (d : CString) (n i : Nat) (length : Int) (fs' : FileSys) : Prop :=
  ∃ blocks blocks', fs.disk.host d = some blocks ∧ fs'.disk.host d = some blocks' ∧
    (slot fs'.files i).size = length ∧
    (slot fs'.files i).contents blocks' = ((slot fs.files i).contents blocks).take length.toNat ∧
    ∀ j < n, j ≠ i → (slot fs'.files j).size = (slot fs.files j).size ∧
      (slot fs'.files j).contents blocks' = (slot fs.files j).contents blocks

theorem fsTruncate_refused (number : (fs.openFiles.get k).fileNum = i) (hi : i < 64)
    (bad : length < 0 ∨ (slot fs.files i).size < length) :
    fsTruncate fs k.val length new1 new2 = some (-1, fs) := by
  rw [slot_of_lt hi] at bad
  have found : load fs.openFiles k.val = some (fs.openFiles.get k) := load_of_lt _ k.isLt
  have opened : (i : Int) ≠ -1 := by omega
  rw [fsTruncate, found, Option.bind_eq_bind, Option.bind_some, number, if_neg opened,
    load_of_lt _ hi, Option.bind_eq_bind, Option.bind_some]
  split
  case isTrue => rfl
  case isFalse within => rw [if_pos (by omega)]

theorem fsTruncate_accepted (number : (fs.openFiles.get k).fileNum = i) (hi : i < 64)
    (low : 0 ≤ length) (high : length ≤ (slot fs.files i).size) :
    fsTruncate fs k.val length new1 new2 =
      truncateFile fs k.val (fs.openFiles.get k) fs.files[i] length new1 new2 := by
  rw [slot_of_lt hi] at high
  have found : load fs.openFiles k.val = some (fs.openFiles.get k) := load_of_lt _ k.isLt
  have opened : (i : Int) ≠ -1 := by omega
  rw [fsTruncate, found, Option.bind_eq_bind, Option.bind_some, number, if_neg opened,
    load_of_lt _ hi, Option.bind_eq_bind, Option.bind_some, if_neg (by omega), if_neg (by omega)]

theorem InsideDisk.cut (h : InsideDisk fs d blocks n) (hi : i < n) (low : 0 ≤ length)
    (high : length ≤ (slot fs.files i).size) :
    ∃ block offset : Nat, carry blockSize (slot fs.files i).block
        (toInt ((slot fs.files i).offset + length)) = some ((block : Int), (offset : Int)) ∧
      offset ≤ blockSize ∧
      ((block * blockSize + offset : Nat) : Int) = (slot fs.files i).start + length ∧
      (length = 0 → (block : Int) = (slot fs.files i).block ∧
        (offset : Int) = (slot fs.files i).offset) := by
  obtain ⟨block, offset, size, blockEq, offsetEq, sizeEq, start, few, within, inside⟩ :=
    h.position hi
  have bound := sum_small few within inside
  obtain ⟨len, rfl⟩ := Int.eq_ofNat_of_zero_le low
  rw [blockEq, offsetEq, start]
  rw [sizeEq] at high
  rw [toInt_of_range (show intMin ≤ (offset : Int) + len by unfold intMin; omega)
    (show (offset : Int) + len ≤ intMax by omega)]
  obtain ⟨block', offset', carried⟩ :=
    carry_total blockSize (intMin_nonpos.trans (Int.natCast_nonneg block))
    (show (block : Int) + (offset + len) ≤ intMax by omega)
  obtain ⟨kept, last, turned⟩ := carry_spec carried
  have forth := carry_block carried
  have nonneg : 0 ≤ offset' := by
    unfold blockSize at turned
    omega
  lift block' to Nat using by omega
  lift offset' to Nat using nonneg
  refine ⟨block', offset', carried, by omega, by omega, fun nothing => ?_⟩
  rw [nothing, Int.add_zero, carry_of_le (Int.ofNat_le.mpr within)] at carried
  simpa [eq_comm] using carried

theorem InsideDisk.shifted (h : InsideDisk fs d blocks n) (hi : i < n) (low : 0 ≤ length)
    (high : length ≤ (slot fs.files i).size) {block offset : Nat} (within : offset ≤ blockSize)
    (place : ((block * blockSize + offset : Nat) : Int) = (slot fs.files i).start + length)
    (nothing : length = 0 → (block : Int) = (slot fs.files i).block ∧
      (offset : Int) = (slot fs.files i).offset)
    (fine : ¬ReadsBefore (slot fs.files i) length new1 new2) :
    ∃ blocks', shiftBlocks fs.disk block offset (toInt (length - 1)) new1 new2 =
        some (fs.disk.showing d blocks') ∧
      byteAt blocks' = moved (byteAt blocks) ((slot fs.files i).start + length).toNat
        (dataShift length new1 new2) := by
  have last := (h.extent hi).2
  have inside : block * blockSize + offset ≤ diskBytes := by omega
  have few : block ≤ diskBlocks :=
    Nat.le_of_mul_le_mul_right (show block * blockSize ≤ diskBytes by omega) (by decide)
  obtain ⟨len, rfl⟩ := Int.eq_ofNat_of_zero_le low
  have bound : (len : Int) ≤ diskBytes := high.trans (h.size_le i).2
  have sum : (block : Int) + (offset + len) ≤ intMax := by
    have top : ((diskBlocks + (blockSize + diskBytes) : Nat) : Int) ≤ intMax := by decide
    omega
  rw [toInt_of_range (show intMin ≤ (len : Int) - 1 by unfold intMin; omega)
    (show (len : Int) - 1 ≤ intMax by omega), ← place, Int.toNat_natCast]
  have self := Disk.showing_self h.opened h.image
  unfold dataShift
  by_cases both : new1.isSome ∧ new2.isSome
  · rw [if_pos both, Int.toNat_natCast]
    obtain ⟨buffer1, rfl⟩ := Option.isSome_iff_exists.mp both.1
    obtain ⟨buffer2, rfl⟩ := Option.isSome_iff_exists.mp both.2
    cases len with
    | zero =>
      refine ⟨blocks, ?_, moved_zero.symm⟩
      cases offset with
      | zero =>
        -- the cut is the end of the disk, as there is no byte in front of it in its block
        have same := nothing rfl
        have ends : block = diskBlocks := by
          by_contra other
          refine fine ⟨rfl, same.2.symm, ?_, rfl, rfl⟩
          rw [← same.1]
          exact Int.ofNat_lt.mpr (lt_of_le_of_ne few other)
        rw [ends, self]
        exact shiftBlocks_back_end fs.disk buffer1 buffer2
      | succ o =>
        have room : block < diskBlocks := by
          by_contra beyond
          have far : diskBytes ≤ block * blockSize := Nat.mul_le_mul_right _ (Nat.not_lt.mp beyond)
          omega
        have back :=
          shiftBlocks_back fs.disk d blocks room (Nat.lt_of_succ_le within) buffer1 buffer2
        rwa [self] at back ⊢
    | succ gap =>
      obtain ⟨blocks', shifted, bytes⟩ := shiftBlocks_drop fs.disk d blocks gap within inside
        (by omega) buffer1 buffer2
      have gapEq : ((gap + 1 : Nat) : Int) - 1 = gap := by omega
      rw [self] at shifted
      exact ⟨blocks', by rw [gapEq]; exact shifted, bytes⟩
  · rw [if_neg both, self.symm.trans self]
    refine ⟨blocks, ?_, moved_zero.symm⟩
    have denied : new1 = none ∨ new2 = none := by
      cases new1 <;> cases new2 <;> simp at both ⊢
    have added :
        addInt (offset : Int) ((len : Int) - 1) = some ((offset : Int) + ((len : Int) - 1)) :=
      addInt_eq_some.mpr ⟨rfl, by unfold intMin; omega, by omega⟩
    rw [self]
    exact shiftBlocks_denied fs.disk added denied

theorem ReadsBefore.stuck {disk : Disk} {m : FsMeta} {block offset : Nat}
    (reads : ReadsBefore m length new1 new2)
    (nothing : length = 0 → (block : Int) = m.block ∧ (offset : Int) = m.offset) :
    shiftBlocks disk block offset (toInt (length - 1)) new1 new2 = none := by
  obtain ⟨zero, first, room, some1, some2⟩ := reads
  obtain ⟨buffer1, rfl⟩ := Option.isSome_iff_exists.mp some1
  obtain ⟨buffer2, rfl⟩ := Option.isSome_iff_exists.mp some2
  obtain ⟨same, same'⟩ := nothing zero
  subst zero
  rw [← same] at room
  rw [same', first]
  exact shiftBlocks_underflow disk (Int.ofNat_lt.mp room) buffer1 buffer2

section

theorem InsideDisk.start_cut (h : InsideDisk fs d blocks n)
    (sizes : ∀ j, (slot files j).size = if j = i then length else (slot fs.files j).size)
    (same : ∀ j, (slot files j).block = (slot fs.files j).block ∧
      (slot files j).offset = (slot fs.files j).offset)
    (low : 0 ≤ length) {k : Nat} (filled : fillFrom files (63 - k) k = some files') {j : Nat}
    (hj : j < n) :
    (slot files' j).start =
      (slot fs.files j).start - startShift k i j (slot fs.files i).size length := by
  have used (j : Nat) (hj : j < n) : 0 ≤ (slot files j).size := by
    rw [sizes]
    split
    case isTrue => exact low
    case isFalse => exact (h.layout.inUse j).mpr hj
  have unmoved (j : Nat) : (slot files j).start = (slot fs.files j).start := by
    rw [FsMeta.start, FsMeta.start, (same j).1, (same j).2]
  have abut (j : Nat) (hj : j + 1 < n) :
      (slot fs.files (j + 1)).start = (slot fs.files j).start + (slot fs.files j).size :=
    h.layout.next hj
  have refilled := fillFrom_inside filled used fun j _ hj => by
    rw [(same j).2]
    exact (h.layout.offset j hj).1
  induction j with
  | zero =>
    rw [startShift, if_neg (by omega), Int.sub_zero]
    by_cases here : 0 < k ∨ k + (63 - k) ≤ 0
    · rw [fillFrom_outside filled here, unmoved]
    · have placed := (refilled 0 hj (by omega) (by omega)).abut
      exact placed.trans (h.layout.placed hj).abut.symm
  | succ j ih =>
    by_cases outside : j + 1 < k ∨ k + (63 - k) ≤ j + 1
    · rw [fillFrom_outside filled outside, unmoved, startShift, if_neg (by omega), Int.sub_zero]
    · have placed : (slot files' (j + 1)).start = (slot files' j).start + (slot files' j).size :=
        (refilled (j + 1) hj (by omega) (by omega)).abut
      have before := ih (by omega)
      have next := abut j hj
      rw [placed, before, (fillFrom_frame filled j).1, sizes]
      unfold startShift
      split <;> grind

/-- The slots can be filled from number `k` on: when the slot before is an
unused one, the block it holds does not overflow as its offset is carried. -/
def Fillable (files : Files) (n k : Nat) : Prop :=
  n < k → ∃ block offset,
    carry blockSize (slot files (k - 1)).block (slot files (k - 1)).offset = some (block, offset)

theorem fillBlockAndOffset_unused {j : Nat} (hj : j + 1 < 64) (free : (slot files j).size = -1) :
    fillBlockAndOffset files (j + 1 : Nat) =
      (carry blockSize (slot files j).block (slot files j).offset).map fun position =>
        files.set (j + 1) { files[j + 1] with block := position.1, offset := position.2 } := by
  rw [slot_of_lt (by omega)] at free ⊢
  have later : ((j + 1 : Nat) : Int) ≠ 0 := by omega
  have found : load files (((j + 1 : Nat) : Int) - 1) = some files[j] :=
    load_eq_some.mpr ⟨j, by omega, by omega, rfl⟩
  have stored (block offset : Int) :
      modify files (j + 1 : Nat) (fun m => { m with block, offset }) =
        some (files.set (j + 1) { files[j + 1] with block, offset }) :=
    modify_eq_some.mpr ⟨j + 1, hj, rfl, rfl⟩
  simp only [fillBlockAndOffset, later, if_false, found, offsetBehind, free, if_true, stored,
    Option.bind_eq_bind, Option.bind_some]
  cases carry blockSize files[j].block files[j].offset <;> rfl

/-- Behind an unused slot with an offset inside its block, filling goes on for ever. -/
theorem fillFrom_unused {c j : Nat} (fits : j + 1 + c ≤ 64)
    (free : ∀ k, j ≤ k → (slot files k).size = -1) (within : (slot files j).offset ≤ blockSize) :
    ∃ files', fillFrom files c (j + 1 : Nat) = some files' := by
  induction c generalizing files j with
  | zero => exact ⟨files, rfl⟩
  | succ c ih =>
    have fill := fillBlockAndOffset_unused (show j + 1 < 64 by omega) (free j (Nat.le_refl j))
    rw [carry_of_le within, Option.map_some] at fill
    obtain ⟨files', filled⟩ := ih (j := j + 1) (by omega)
      (fun k hk => by rw [((fillBlockAndOffset_frame fill).2 k).1]; exact free k (by omega))
      (by rw [slot_set, if_pos rfl]; exact within)
    refine ⟨files', ?_⟩
    rw [fillFrom, fill]
    exact filled

theorem fillFrom_iff {k : Nat} (hk : k < 63) (bounded : ∀ j < n, Bounded files j)
    (sizes : ∀ j, -1 ≤ (slot files j).size ∧ (slot files j).size ≤ diskBytes)
    (free : ∀ j, n ≤ j → (slot files j).size = -1) :
    (∃ files', fillFrom files (63 - k) k = some files') ↔ Fillable files n k := by
  by_cases far : n < k
  · obtain ⟨j, rfl⟩ : ∃ j, k = j + 1 := ⟨k - 1, by omega⟩
    have fill := fillBlockAndOffset_unused (show j + 1 < 64 by omega) (free j (by omega))
    obtain ⟨c, turns⟩ : ∃ c, 63 - (j + 1) = c + 1 := ⟨63 - (j + 1) - 1, by omega⟩
    rw [turns, Fillable, Nat.add_sub_cancel]
    simp only [far, true_imp_iff]
    constructor
    · rintro ⟨files', filled⟩
      obtain ⟨between, first, -⟩ := Option.bind_eq_some_iff.mp filled
      rw [fill] at first
      obtain ⟨⟨block, offset⟩, carried, -⟩ := Option.map_eq_some_iff.mp first
      exact ⟨block, offset, carried⟩
    · rintro ⟨block, offset, carried⟩
      rw [carried, Option.map_some] at fill
      obtain ⟨files', filled⟩ := fillFrom_unused (c := c) (show j + 1 + 1 + c ≤ 64 by omega)
        (fun k hk => by rw [((fillBlockAndOffset_frame fill).2 k).1]; exact free k (by omega))
        (by rw [slot_set, if_pos rfl]; exact (carry_spec carried).2.1)
      refine ⟨files', ?_⟩
      rw [fillFrom, fill]
      exact filled
  · refine ⟨fun _ beyond => absurd beyond far, fun _ => ?_⟩
    exact fillFrom_some (by omega) (fun j next => bounded j (by omega)) sizes

theorem InsideDisk.fillable_iff (h : InsideDisk fs d blocks n) (hi : i < 64) (used : i < n)
    (low : 0 ≤ length) (high : length ≤ (slot fs.files i).size) {k : Nat} (hk : k < 63) :
    (∃ files', fillFrom (fs.files.set i { fs.files[i] with size := length }) (63 - k) k =
      some files') ↔ Fillable fs.files n k := by
  have entry := slot_set fs.files i hi { fs.files[i] with size := length }
  have same (j : Nat) : (slot (fs.files.set i { fs.files[i] with size := length }) j).block =
        (slot fs.files j).block ∧
      (slot (fs.files.set i { fs.files[i] with size := length }) j).offset =
        (slot fs.files j).offset := by
    rw [entry]
    grind [slot_of_lt]
  have size (j : Nat) : -1 ≤ (slot (fs.files.set i { fs.files[i] with size := length }) j).size ∧
      (slot (fs.files.set i { fs.files[i] with size := length }) j).size ≤ diskBytes := by
    rw [entry]
    split
    case isTrue => exact ⟨le_trans (by decide) low, high.trans (h.size_le i).2⟩
    case isFalse => exact h.size_le j
  rw [fillFrom_iff (n := n) hk (fun j hj => ?_) size fun j hj => ?_]
  · unfold Fillable
    rw [(same _).1, (same _).2]
  · obtain ⟨block, offset, -⟩ := h.bounded hj
    rw [← (same j).1] at block
    rw [← (same j).2] at offset
    exact ⟨block, offset, size j⟩
  · rw [entry, if_neg (by omega)]
    exact h.free j hj

/-- An accepted truncation has a result when neither the shift nor the filling
goes wrong, and this is what it leaves. -/
theorem InsideDisk.truncate (h : InsideDisk fs d blocks n)
    (number : (fs.openFiles.get k).fileNum = i) (used : i < n) (low : 0 ≤ length)
    (high : length ≤ (slot fs.files i).size) (new1 new2 : Option Block) :
    (∀ r fs', fsTruncate fs k.val length new1 new2 = some (r, fs') →
      ¬ReadsBefore (slot fs.files i) length new1 new2 ∧ Fillable fs.files n k) ∧
    (¬ReadsBefore (slot fs.files i) length new1 new2 → Fillable fs.files n k →
      ∃ fs' blocks', fsTruncate fs k.val length new1 new2 = some (0, fs') ∧
        fs'.disk.host d = some blocks' ∧
        byteAt blocks' = moved (byteAt blocks) ((slot fs.files i).start + length).toNat
          (dataShift length new1 new2) ∧
        (∀ j, (slot fs'.files j).size = if j = i then length else (slot fs.files j).size) ∧
        ∀ j < n, (slot fs'.files j).start =
          (slot fs.files j).start - startShift k i j (slot fs.files i).size length) := by
  have hi : i < 64 := used.trans_le h.layout.room
  have hk : k.val < 63 := by omega
  have size : toInt length = length := by
    have bound : length ≤ diskBytes := high.trans (h.size_le i).2
    have top : (diskBytes : Int) ≤ intMax := by decide
    exact toInt_of_range (le_trans (by decide) low) (bound.trans top)
  have number' : fs.openFiles[k.val].fileNum = i := number
  have turns : (63 - ((k.val : Nat) : Int)).toNat = 63 - k.val := by omega
  obtain ⟨block, offset, carried, within, place, nothing⟩ := h.cut used low high
  rw [fsTruncate_accepted number hi low high]
  constructor
  · intro r fs' done
    refine ⟨fun reads => ?_, ?_⟩
    · obtain ⟨startBlock, startOffset, carried', shifted⟩ := truncateFile_disk done
      rw [slot_of_lt hi] at carried
      obtain ⟨rfl, rfl⟩ := Prod.mk.inj (Option.some.inj (carried.symm.trans carried'))
      rw [reads.stuck nothing] at shifted
      cases shifted
    · obtain ⟨-, filled, -⟩ := truncateFile_eq number' done
      rw [size] at filled
      exact (h.fillable_iff hi used low high hk).mp ⟨fs'.files, filled⟩
  · intro fine fillable
    obtain ⟨blocks', shifted, bytes⟩ := h.shifted used low high within place nothing fine
    obtain ⟨files', filled⟩ := (h.fillable_iff hi used low high hk).mpr fillable
    have entry := slot_set fs.files i hi { fs.files[i] with size := length }
    have sizes (j : Nat) : (slot (fs.files.set i { fs.files[i] with size := length }) j).size =
        if j = i then length else (slot fs.files j).size := by
      rw [entry]
      grind
    have same (j : Nat) : (slot (fs.files.set i { fs.files[i] with size := length }) j).block =
          (slot fs.files j).block ∧
        (slot (fs.files.set i { fs.files[i] with size := length }) j).offset =
          (slot fs.files j).offset := by
      rw [entry]
      grind [slot_of_lt]
    let f : OpenFile := { fs.openFiles.get k with
      offset := if length < (fs.openFiles.get k).offset then length
        else (fs.openFiles.get k).offset }
    refine ⟨⟨fs.openFiles.set k.val f, files', fs.disk.showing d blocks'⟩, blocks', ?_,
      Disk.showing_host, bytes, fun j => ?_, fun j hj => h.start_cut sizes same low filled hj⟩
    · rw [slot_of_lt hi] at carried
      simp only [truncateFile, carried, shifted, size, number, store_of_lt, hi, turns,
        filled, k.isLt, Option.bind_eq_bind, Option.bind_some, f]
    · rw [(fillFrom_frame filled j).1, sizes]

/-- The bytes that the files behind the cut file are read from afterwards are
the same as theirs. -/
def KeepsBehind (fs : FileSys) (blocks : Image) (n k i : Nat) (length : Int)
    (new1 new2 : Option Block) : Prop :=
  ∀ j < n, i < j → ∀ t < (slot fs.files j).size.toNat,
    byteAt blocks
        (((slot fs.files j).start - startShift k i j (slot fs.files i).size length).toNat + t +
          dataShift length new1 new2) =
      byteAt blocks ((slot fs.files j).start.toNat + t)

theorem InsideDisk.truncated_iff (h : InsideDisk fs d blocks n) (used : i < n) (low : 0 ≤ length)
    (high : length ≤ (slot fs.files i).size) (image : fs'.disk.host d = some blocks')
    (bytes : byteAt blocks' = moved (byteAt blocks) ((slot fs.files i).start + length).toNat
      (dataShift length new1 new2))
    (sizes : ∀ j, (slot fs'.files j).size = if j = i then length else (slot fs.files j).size)
    (starts : ∀ j < n, (slot fs'.files j).start =
      (slot fs.files j).start - startShift k i j (slot fs.files i).size length) :
    Truncated fs d n i length fs' ↔ KeepsBehind fs blocks n k i length new1 new2 := by
  have zero : (0 : Int) ≤ dataStart * blockSize := by decide
  have first := (h.extent used).1
  have front (j : Nat) (hj : j ≤ i) : startShift k i j (slot fs.files i).size length = 0 :=
    if_neg (by omega)
  have own : (slot fs'.files i).contents blocks' =
      ((slot fs.files i).contents blocks).take length.toNat := by
    unfold FsMeta.contents
    rw [sizes, if_pos rfl, starts i used, front i (Nat.le_refl i), Int.sub_zero, ← List.map_take,
      List.take_range, min_eq_left (Int.toNat_le_toNat high)]
    refine List.map_congr_left fun t ht => ?_
    rw [bytes, moved, if_pos (by have := List.mem_range.mp ht; omega)]
  have size (j : Nat) (other : j ≠ i) : (slot fs'.files j).size = (slot fs.files j).size := by
    rw [sizes, if_neg other]
  have before (j : Nat) (earlier : j < i) :
      (slot fs'.files j).contents blocks' = (slot fs.files j).contents blocks := by
    have ordered := h.ordered earlier used
    have start := (h.extent (show j < n by omega)).1
    refine FsMeta.contents_congr (size j (by omega)) fun t ht => ?_
    rw [starts j (by omega), front j (by omega), Int.sub_zero, bytes, moved, if_pos (by omega)]
  have behind (j : Nat) (hj : j < n) (later : i < j) :
      (slot fs'.files j).contents blocks' = (slot fs.files j).contents blocks ↔
        ∀ t < (slot fs.files j).size.toNat,
          byteAt blocks (((slot fs.files j).start -
            startShift k i j (slot fs.files i).size length).toNat + t +
              dataShift length new1 new2) =
          byteAt blocks ((slot fs.files j).start.toNat + t) := by
    have ordered := h.ordered later hj
    have near : startShift k i j (slot fs.files i).size length ≤
        (slot fs.files i).size - length := by
      unfold startShift
      split <;> omega
    rw [FsMeta.contents_eq_iff (size j (by omega))]
    refine forall_congr' fun t => forall_congr' fun _ => ?_
    rw [starts j hj, bytes, moved, if_neg (by omega)]
  constructor
  · rintro ⟨old, new, oldImage, newImage, -, -, others⟩ j hj later
    obtain rfl := Option.some.inj (h.image.symm.trans oldImage)
    obtain rfl := Option.some.inj (image.symm.trans newImage)
    exact (behind j hj later).mp (others j hj (by omega)).2
  · intro keeps
    refine ⟨blocks, blocks', h.image, image, by rw [sizes, if_pos rfl], own, fun j hj other =>
      ⟨size j other, ?_⟩⟩
    rcases Nat.lt_or_gt_of_ne other with earlier | later
    · exact before j earlier
    · exact (behind j hj later).mpr (keeps j hj later)

/-- When a truncation cuts its file and keeps all the others. -/
theorem fsTruncate_truncates_iff (h : InsideDisk fs d blocks n)
    (number : (fs.openFiles.get k).fileNum = i) (used : i < n) (length : Int)
    (new1 new2 : Option Block) :
    (length < 0 ∨ (slot fs.files i).size < length →
      fsTruncate fs k.val length new1 new2 = some (-1, fs)) ∧
    (0 ≤ length → length ≤ (slot fs.files i).size →
      ((∃ fs', fsTruncate fs k.val length new1 new2 = some (0, fs') ∧
        Truncated fs d n i length fs') ↔
        ¬ReadsBefore (slot fs.files i) length new1 new2 ∧ Fillable fs.files n k ∧
          KeepsBehind fs blocks n k i length new1 new2)) := by
  refine ⟨fsTruncate_refused number (used.trans_le h.layout.room), fun low high => ?_⟩
  obtain ⟨needs, gives⟩ := h.truncate number used low high new1 new2
  constructor
  · rintro ⟨fs', done, truncated⟩
    obtain ⟨fine, fillable⟩ := needs 0 fs' done
    obtain ⟨fs₁, blocks', done₁, image, bytes, sizes, starts⟩ := gives fine fillable
    rw [done] at done₁
    cases done₁
    exact ⟨fine, fillable, (h.truncated_iff used low high image bytes sizes starts).mp truncated⟩
  · rintro ⟨fine, fillable, keeps⟩
    obtain ⟨fs', blocks', done, image, bytes, sizes, starts⟩ := gives fine fillable
    exact ⟨fs', done, (h.truncated_iff used low high image bytes sizes starts).mpr keeps⟩

end

section

def firstOpen : FileSys := twoFiles (threeOpen 0 (-1) (-1) 0)

theorem firstOpen_inside : InsideDisk firstOpen nameA (Vector.replicate diskBlocks rampBlock) 2 :=
  twoFiles_inside _

theorem firstOpen_keepsBehind (length : Int) (new1 new2 : Option Block) :
    KeepsBehind firstOpen (Vector.replicate diskBlocks rampBlock) 2 0 0 length new1 new2 ↔
      byteAt (Vector.replicate diskBlocks rampBlock)
        ((dataStart * blockSize + 3 - (3 - length) : Int).toNat + dataShift length new1 new2) =
      byteAt (Vector.replicate diskBlocks rampBlock) (dataStart * blockSize + 3) := by
  have first : (slot firstOpen.files 0).size = 3 := by
    rw [show slot firstOpen.files 0 = _ from slot_twoEntries _ _ 0]
    rfl
  have second : (slot firstOpen.files 1).size = 1 ∧
      (slot firstOpen.files 1).start = dataStart * blockSize + 3 := by
    rw [show slot firstOpen.files 1 = _ from slot_twoEntries _ _ 1]
    exact ⟨rfl, by decide⟩
  have start : ((dataStart * blockSize + 3 : Int)).toNat = dataStart * blockSize + 3 := by decide
  have shift : startShift 0 0 1 3 length = 3 - length := if_pos (by decide)
  constructor
  · intro keeps
    have here := keeps 1 (by decide) (by decide) 0 (by rw [second.1]; decide)
    rwa [first, second.2, shift, start] at here
  · intro same j hj later t ht
    obtain rfl : j = 1 := by omega
    rw [second.1] at ht
    obtain rfl : t = 0 := by omega
    rw [first, second.2, shift, start]
    exact same

/-- Cut to two of its three bytes, where two different formulas agree. -/
theorem fsTruncate_truncates_firstOpen : ∃ fs',
    fsTruncate firstOpen 0 2 (some zeroBlock) (some zeroBlock) = some (0, fs') ∧
      Truncated firstOpen nameA 2 0 2 fs' := by
  have high : (2 : Int) ≤ (slot firstOpen.files 0).size := by decide +kernel
  refine ((fsTruncate_truncates_iff (k := 0) firstOpen_inside rfl (by decide) 2 (some zeroBlock)
    (some zeroBlock)).2 (by decide) high).mpr ⟨fun reads => absurd reads.1 (by decide),
      fun far => ?_, ?_⟩
  · exact absurd far (by decide)
  · exact (firstOpen_keepsBehind 2 _ _).mpr (congrArg _ (by decide))

/-- Cut to one byte, the file in front of another one spoils it. -/
theorem fsTruncate_spoils : ¬∀ fs d blocks n k i length new1 new2, InsideDisk fs d blocks n →
    (fs.openFiles.get k).fileNum = (i : Nat) → i < n → 0 ≤ length →
    length ≤ (slot fs.files i).size →
    ∃ fs', fsTruncate fs k.val length new1 new2 = some (0, fs') ∧
      Truncated fs d n i length fs' := by
  intro truncates
  have high : (1 : Int) ≤ (slot firstOpen.files 0).size := by decide +kernel
  obtain ⟨fs', done, truncated⟩ :=
    truncates firstOpen nameA _ 2 0 0 1 (some zeroBlock) (some zeroBlock)
    firstOpen_inside rfl (by decide) (by decide) high
  have number : (firstOpen.openFiles.get 0).fileNum = (0 : Nat) := rfl
  obtain ⟨needs, gives⟩ := firstOpen_inside.truncate number (by decide) (by decide) high
    (some zeroBlock) (some zeroBlock)
  obtain ⟨fine, fillable⟩ := needs 0 fs' done
  obtain ⟨fs₁, blocks', done₁, image, bytes, sizes, starts⟩ := gives fine fillable
  obtain rfl : fs' = fs₁ := (Prod.mk.inj (Option.some.inj (done.symm.trans done₁))).2
  have keeps :=
    (firstOpen_inside.truncated_iff (by decide) (by decide) high image bytes sizes starts).mp
      truncated
  have same := (firstOpen_keepsBehind 1 _ _).mp keeps
  have place : (dataStart * blockSize + 3 - (3 - 1) : Int).toNat +
      dataShift 1 (some zeroBlock) (some zeroBlock) = dataStart * blockSize + 1 := by decide
  rw [place, byteAt_ramp_data (by decide), byteAt_ramp_data (by decide)] at same
  exact absurd same (by decide)

end

end LastPicked.FileSystem
