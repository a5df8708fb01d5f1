import LastPicked.FileSysInside
import LastPicked.WriteBytes

/-! What a call of `fs_write` leaves alone. The buffer it starts with is not
read from the disk, so the bytes around the range written survive exactly when
that buffer happens to hold them. -/

namespace LastPicked.FileSystem
open CIntegers CMemory FlatBlocks

variable {fs fs' : FileSys} {d : CString} {blocks : Image} {n i : Nat} {k : Fin 32}

def writeStart (fs : FileSys) (k : Fin 32) (i : Nat) : Nat :=
  ((slot fs.files i).start + (fs.openFiles.get k).offset).toNat

def OnlyWrites (fs fs' : FileSys) (d : CString) (s len : Nat) : Prop :=
  ∃ blocks blocks', fs.disk.host d = some blocks ∧ fs'.disk.host d = some blocks' ∧
    ∀ p < diskBytes, p < s ∨ s + len ≤ p → byteAt blocks' p = byteAt blocks p

/-- The buffer holds what the disk holds in the block of position `s`, except
where `len` bytes are written from `s` on. -/
def HoldsBlock (fs : FileSys) (d : CString) (buffer : Block) (s len : Nat) : Prop :=
  ∃ blocks, fs.disk.host d = some blocks ∧ ∀ p < diskBytes, p / blockSize = s / blockSize →
    p < s ∨ s + len ≤ p → byteAt blocks p = (buffer[p % blockSize]?).getD 0

def fileBytes (fs : FileSys) (d : CString) (i : Nat) : Option (List UInt8) :=
  (fs.disk.host d).map (slot fs.files i).contents

/-- What a write needs of its descriptor and its file to have a position on the disk. -/
structure Writable (fs : FileSys) (d : CString) (blocks : Image) (k : Fin 32) (i : Nat) : Prop where
  opened : fs.disk.handle = some d
  image : fs.disk.host d = some blocks
  room : i < 64
  number : (fs.openFiles.get k).fileNum = i
  start : 0 ≤ (slot fs.files i).start
  fileOffset : 0 ≤ (slot fs.files i).offset
  offset : 0 ≤ (fs.openFiles.get k).offset

theorem OnFile.writable (h : InsideDisk fs d blocks n) (file : OnFile fs n k i) :
    Writable fs d blocks k i where
  opened := h.opened
  image := h.image
  room := file.used.trans_le h.layout.room
  number := file.number
  start := le_trans (by decide : (0 : Int) ≤ dataStart * blockSize) (h.extent file.used).1
  fileOffset := (h.layout.offset i file.used).1
  offset := file.low

/-- What an accepted call of `fs_write` does to the disk and to the tables. -/
theorem Writable.write (h : Writable fs d blocks k i) {data : List UInt8} {buffer : Block}
    (write : fsWrite fs k.val data (some buffer) = some ((data.length : Int), fs'))
    (within : writeStart fs k i + data.length ≤ diskBytes) :
    ∃ blocks', Writable fs' d blocks' k i ∧
      writeStart fs' k i = writeStart fs k i + data.length ∧
      (fs'.openFiles.get k).offset = (fs.openFiles.get k).offset + data.length ∧
      (slot fs'.files i).start = (slot fs.files i).start ∧
      (slot fs'.files i).size = max (slot fs.files i).size
      ((fs.openFiles.get k).offset + data.length) ∧
      ∀ p < diskBytes, byteAt blocks' p =
        written (taken blocks buffer (writeStart fs k i)) (writeStart fs k i) data p := by
  have room := h.room
  have start := h.start
  have fileOffset := h.fileOffset
  have offset := h.offset
  rw [slot_of_lt room] at start fileOffset
  have place : fs.files[i].start + fs.openFiles[k.val].offset = (writeStart fs k i : Int) := by
    rw [writeStart, slot_of_lt room]
    exact (Int.toNat_of_nonneg (Int.add_nonneg start offset)).symm
  have number : fs.openFiles[k.val].fileNum = i := h.number
  have low : 0 ≤ fs.files[i].offset + fs.openFiles[k.val].offset := Int.add_nonneg fileOffset offset
  have done : (data.length : Int) ≠ -1 := by omega
  obtain ⟨blocks', disk, bytes⟩ := fsWrite_bytes h.opened h.image number low place within write done
  rcases fsWrite_cases write with
    ⟨-, failed⟩ | ⟨k', i', hk', hi', same, -, number, -, -, openFiles, files⟩
  · exact absurd failed done
  · obtain rfl : k.val = k' := Int.ofNat_inj.mp same
    obtain rfl : i = i' := Int.ofNat_inj.mp (h.number.symm.trans number)
    have entry := slot_set fs.files i hi' { fs.files[i] with
      size := max fs.files[i].size (fs.openFiles[k.val].offset + data.length) } i
    rw [← files, if_pos rfl] at entry
    have moved : fs'.openFiles.get k =
        { fs.openFiles.get k with offset := (fs.openFiles.get k).offset + data.length } := by
      rw [openFiles]
      exact Vector.getElem_set_self k.isLt
    have fixed : (slot fs'.files i).start = (slot fs.files i).start := by
      rw [entry, slot_of_lt hi', FsMeta.start, FsMeta.start]
    refine ⟨blocks', ⟨?_, ?_, h.room, ?_, ?_, ?_, ?_⟩, ?_, ?_, fixed, ?_, bytes⟩
    · rw [disk]
      rfl
    · rw [disk, Disk.showing_host]
    · rw [moved]
      exact h.number
    · rw [entry]
      exact start
    · rw [entry]
      exact fileOffset
    · rw [moved]
      exact Int.add_nonneg offset (Int.natCast_nonneg _)
    · rw [writeStart, writeStart, fixed, moved, ← Int.add_assoc]
      exact Int.toNat_add_nat (Int.add_nonneg h.start offset) data.length
    · rw [moved]
    · rw [entry, slot_of_lt hi']
      rfl

/-- A write is the plain one of its bytes exactly when the buffer held the block. -/
theorem Writable.written_iff (h : Writable fs d blocks k i) {data : List UInt8} {buffer : Block}
    {blocks' : Image} {s : Nat} (within : s + data.length ≤ diskBytes)
    (bytes : ∀ p < diskBytes, byteAt blocks' p = written (taken blocks buffer s) s data p) :
    (byteAt blocks' = written (byteAt blocks) s data ↔ HoldsBlock fs d buffer s data.length) ∧
      ((∀ p < diskBytes, p < s ∨ s + data.length ≤ p → byteAt blocks' p = byteAt blocks p) ↔
        HoldsBlock fs d buffer s data.length) := by
  have holds : HoldsBlock fs d buffer s data.length ↔ ∀ p < diskBytes, p < s ∨ s + data.length ≤ p →
      taken blocks buffer s p = byteAt blocks p := by
    unfold HoldsBlock taken
    simp only [h.image, Option.some.injEq, exists_eq_left']
    refine forall_congr' fun p => forall_congr' fun _ => ?_
    by_cases here : p / blockSize = s / blockSize
    · simp only [here, if_true, true_imp_iff, eq_comm]
    · simp only [here, if_false, false_imp_iff, implies_true]
  have outside (p : Nat) (hp : p < diskBytes) (out : p < s ∨ s + data.length ≤ p) :
      byteAt blocks' p = taken blocks buffer s p := by
    rw [bytes p hp, written_outside out]
  rw [holds]
  refine ⟨⟨fun plain p hp out => ?_, fun agree => ?_⟩, ?_⟩
  · rw [← outside p hp out, plain, written_outside out]
  · funext p
    by_cases hp : p < diskBytes
    · rw [bytes p hp]
      by_cases out : p < s ∨ s + data.length ≤ p
      · rw [written_outside out, written_outside out, agree p hp out]
      · obtain ⟨t, rfl⟩ : ∃ t, p = s + t := ⟨p - s, by omega⟩
        rw [written_inside (by omega), written_inside (by omega)]
    · rw [written_outside (by omega), byteAt, byteAt, flat_of_ge (Nat.not_lt.mp hp),
        flat_of_ge (Nat.not_lt.mp hp)]
  · refine forall_congr' fun p => forall_congr' fun hp => forall_congr' fun out => ?_
    rw [outside p hp out]

theorem Writable.onlyWrites_iff (h : Writable fs d blocks k i) {data : List UInt8} {buffer : Block}
    (write : fsWrite fs k.val data (some buffer) = some ((data.length : Int), fs'))
    (within : writeStart fs k i + data.length ≤ diskBytes) :
    OnlyWrites fs fs' d (writeStart fs k i) data.length ↔
      HoldsBlock fs d buffer (writeStart fs k i) data.length := by
  obtain ⟨blocks', h', -, -, -, -, bytes⟩ := h.write write within
  rw [← (h.written_iff within bytes).2]
  constructor
  · rintro ⟨old, new, before, after, kept⟩
    obtain rfl := Option.some.inj (h.image.symm.trans before)
    obtain rfl := Option.some.inj (h'.image.symm.trans after)
    exact kept
  · exact fun kept => ⟨blocks, blocks', h.image, h'.image, kept⟩

theorem Writable.write_holding (h : Writable fs d blocks k i) {data : List UInt8} {buffer : Block}
    (write : fsWrite fs k.val data (some buffer) = some ((data.length : Int), fs'))
    (within : writeStart fs k i + data.length ≤ diskBytes)
    (holds : HoldsBlock fs d buffer (writeStart fs k i) data.length) :
    ∃ blocks', Writable fs' d blocks' k i ∧
      writeStart fs' k i = writeStart fs k i + data.length ∧
      (fs'.openFiles.get k).offset = (fs.openFiles.get k).offset + data.length ∧
      (slot fs'.files i).start = (slot fs.files i).start ∧
      (slot fs'.files i).size = max (slot fs.files i).size
      ((fs.openFiles.get k).offset + data.length) ∧
      byteAt blocks' = written (byteAt blocks) (writeStart fs k i) data := by
  obtain ⟨blocks', h', place, offset, start, size, bytes⟩ := h.write write within
  exact ⟨blocks', h', place, offset, start, size, (h.written_iff within bytes).1.mpr holds⟩

theorem Writable.append (h : Writable fs d blocks k i) {as bs : List UInt8}
    {buffer buffer₁ buffer₂ : Block} {whole half both : FileSys}
    (once : fsWrite fs k.val (as ++ bs) (some buffer) = some (((as ++ bs).length : Int), whole))
    (first : fsWrite fs k.val as (some buffer₁) = some ((as.length : Int), half))
    (second : fsWrite half k.val bs (some buffer₂) = some ((bs.length : Int), both))
    (within : writeStart fs k i + (as ++ bs).length ≤ diskBytes)
    (holds : HoldsBlock fs d buffer (writeStart fs k i) (as ++ bs).length)
    (holds₁ : HoldsBlock fs d buffer₁ (writeStart fs k i) as.length)
    (holds₂ : HoldsBlock half d buffer₂ (writeStart half k i) bs.length) :
    fileBytes whole d i = fileBytes both d i := by
  have total : (as ++ bs).length = as.length + bs.length := List.length_append
  obtain ⟨blocks', h', -, -, start', size', bytes'⟩ := h.write_holding once within holds
  obtain ⟨blocks₁, h₁, place, offset, start₁, size₁, bytes₁⟩ :=
    h.write_holding first (by omega) holds₁
  obtain ⟨blocks₂, h₂, -, -, start₂, size₂, bytes₂⟩ :=
    h₁.write_holding second (by omega) holds₂
  have same : byteAt blocks' = byteAt blocks₂ := by
    rw [bytes', bytes₂, bytes₁, place, written_append]
  unfold fileBytes
  rw [h'.image, h₂.image, Option.map_some, Option.map_some]
  refine congrArg some (FsMeta.contents_congr ?_ fun t _ => ?_)
  · rw [size', size₂, size₁, offset, total]
    omega
  · rw [same, start', start₂, start₁]

/-- For every write to a file of the disk, and for every two writes in place of
one: the rest of the disk keeps its bytes, and both ways leave the same file,
exactly when the buffers hold the blocks the writes start in. -/
theorem fsWrite_frame (h : InsideDisk fs d blocks n) (file : OnFile fs n k i) :
    (∀ data buffer fs', fsWrite fs k.val data (some buffer) = some ((data.length : Int), fs') →
      writeStart fs k i + data.length ≤ diskBytes →
      (OnlyWrites fs fs' d (writeStart fs k i) data.length ↔
        HoldsBlock fs d buffer (writeStart fs k i) data.length)) ∧
    ∀ as bs buffer buffer₁ buffer₂ whole half both,
      fsWrite fs k.val (as ++ bs) (some buffer) = some (((as ++ bs).length : Int), whole) →
      fsWrite fs k.val as (some buffer₁) = some ((as.length : Int), half) →
      fsWrite half k.val bs (some buffer₂) = some ((bs.length : Int), both) →
      writeStart fs k i + (as ++ bs).length ≤ diskBytes →
      (OnlyWrites fs whole d (writeStart fs k i) (as ++ bs).length ∧
          OnlyWrites fs half d (writeStart fs k i) as.length ∧
          OnlyWrites half both d (writeStart half k i) bs.length ∧
          fileBytes whole d i = fileBytes both d i ↔
        HoldsBlock fs d buffer (writeStart fs k i) (as ++ bs).length ∧
          HoldsBlock fs d buffer₁ (writeStart fs k i) as.length ∧
          HoldsBlock half d buffer₂ (writeStart half k i) bs.length) := by
  have writable := file.writable h
  refine ⟨fun data buffer fs' write within => writable.onlyWrites_iff write within,
    fun as bs buffer buffer₁ buffer₂ whole half both once first second within => ?_⟩
  have total : (as ++ bs).length = as.length + bs.length := List.length_append
  obtain ⟨blocks₁, writable₁, place, -⟩ := writable.write first (by omega)
  rw [writable.onlyWrites_iff once within, writable.onlyWrites_iff first (by omega),
    writable₁.onlyWrites_iff second (by omega)]
  exact ⟨fun ⟨holds, holds₁, holds₂, _⟩ => ⟨holds, holds₁, holds₂⟩, fun ⟨holds, holds₁, holds₂⟩ =>
    ⟨holds, holds₁, holds₂, writable.append once first second within holds holds₁ holds₂⟩⟩

section

def secondByte : FileSys := twoFiles (threeOpen 0 (-1) (-1) 1)

theorem secondByte_inside : InsideDisk secondByte nameA (Vector.replicate diskBlocks rampBlock) 2 :=
  twoFiles_inside _

theorem secondByte_onFile : OnFile secondByte 2 0 0 :=
  ⟨rfl, by decide, by decide, by decide +kernel⟩

theorem writeStart_secondByte : writeStart secondByte 0 0 = dataStart * blockSize + 1 := by
  decide +kernel

theorem fsWrite_secondByte (buffer : Block) :
    ∃ fs', fsWrite secondByte 0 [7] (some buffer) = some (1, fs') ∧
      writeStart secondByte 0 0 + [(7 : UInt8)].length ≤ diskBytes := by
  rw [writeStart_secondByte]
  exact ⟨_, rfl, by decide⟩

theorem fsWrite_frame_secondByte :
    ∃ fs', fsWrite secondByte 0 [7] (some rampBlock) = some (1, fs') ∧
    OnlyWrites secondByte fs' nameA (writeStart secondByte 0 0) 1 := by
  obtain ⟨fs', write, within⟩ := fsWrite_secondByte rampBlock
  refine ⟨fs', write, ((fsWrite_frame secondByte_inside secondByte_onFile).1 [7] rampBlock fs' write
    within).mpr ⟨_, rfl, fun p inside _ _ => ?_⟩⟩
  rw [byteAt_ramp inside]

/-- With a buffer of other bytes the start of the file is lost. -/
theorem fsWrite_frame_lost : ¬∀ fs d blocks n k i data buffer fs', InsideDisk fs d blocks n →
    OnFile fs n k i → fsWrite fs k.val data (some buffer) = some ((data.length : Int), fs') →
    writeStart fs k i + data.length ≤ diskBytes →
    OnlyWrites fs fs' d (writeStart fs k i) data.length := by
  intro kept
  obtain ⟨fs', write, within⟩ := fsWrite_secondByte (Vector.replicate blockSize 255)
  have only :=
    kept secondByte nameA _ 2 0 0 [7] _ fs' secondByte_inside secondByte_onFile write within
  obtain ⟨blocks, image, holds⟩ :=
    ((secondByte_onFile.writable secondByte_inside).onlyWrites_iff write within).mp only
  obtain rfl := Option.some.inj image
  rw [writeStart_secondByte] at holds
  have first := holds (dataStart * blockSize) (by decide) (by decide) (.inl (by decide))
  rw [byteAt_ramp (by decide), Nat.mul_mod_left] at first
  have room : 0 < blockSize := by decide
  simp [rampBlock, room] at first

end

end LastPicked.FileSystem
