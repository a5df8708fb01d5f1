import LastPicked.FileSysCapacity
import LastPicked.FileSysReads

/-! A write that is read back. `fs_write` refuses exactly the writes that pass
the end of a file with another one behind it; whatever it accepts is what
`fs_read` finds at the same position. -/

namespace LastPicked.FileSystem
open CIntegers CMemory FlatBlocks

variable {fs fs' : FileSys} {d : CString} {blocks : Image} {i : Nat} {k : Fin 32}

/-- The write of `len` bytes fits the file, or there is no other file behind it. -/
def RoomFor (fs : FileSys) (k : Fin 32) (i len : Nat) : Prop :=
  (fs.openFiles.get k).offset + len ≤ (slot fs.files i).size ∨ (slot fs.files (i + 1)).size = -1

theorem Readable.growsInto (h : Readable fs d blocks k i) (small : (slot fs.files i).size ≤ intMax)
    (slots : i < 63) {len : Nat} (inside : writeStart fs k i + len ≤ diskBytes) :
    (growsInto fs (fs.openFiles.get k) (slot fs.files i) len = some false ↔ RoomFor fs k i len) ∧
      (growsInto fs (fs.openFiles.get k) (slot fs.files i) len = some true ↔
        ¬RoomFor fs k i len) := by
  have start := h.start
  have low := h.offset
  have high := h.offset_le
  have next : load fs.files ((fs.openFiles.get k).fileNum + 1) = some (slot fs.files (i + 1)) := by
    rw [h.number, slot_of_lt (show i + 1 < 64 by omega)]
    exact load_of_lt fs.files (show i + 1 < 64 by omega)
  have sized : (toSize (slot fs.files i).size : Int) = (slot fs.files i).size :=
    toSize_of_nonneg (by omega) (by unfold intMax at small; omega)
  have position : (toSize (fs.openFiles.get k).offset : Int) = (fs.openFiles.get k).offset :=
    toSize_of_nonneg low (by unfold intMax at small; omega)
  have whole : (toSize (fs.openFiles.get k).offset + len) % 2 ^ 64 =
      toSize (fs.openFiles.get k).offset + len :=
    Nat.mod_eq_of_lt (by
      unfold intMax diskBytes diskBlocks blockSize at *
      omega)
  have used : (slot fs.files i).size ≠ -1 := by omega
  unfold RoomFor
  rw [FileSystem.growsInto, whole]
  by_cases longer : toSize (slot fs.files i).size < toSize (fs.openFiles.get k).offset + len
  · have beyond : ¬(fs.openFiles.get k).offset + len ≤ (slot fs.files i).size := by omega
    rw [if_pos ⟨used, longer⟩, next, Option.bind_eq_bind, Option.bind_some]
    by_cases free : (slot fs.files (i + 1)).size = -1 <;> simp [free, beyond]
  · have within : (fs.openFiles.get k).offset + len ≤ (slot fs.files i).size := by omega
    rw [if_neg fun both => longer both.2]
    simp [within]

theorem Readable.write_some (h : Readable fs d blocks k i) (small : (slot fs.files i).size ≤ intMax)
    (slots : i < 63) (data : List UInt8) (buffer : Block)
    (inside : writeStart fs k i + data.length ≤ diskBytes) (room : RoomFor fs k i data.length) :
    ∃ fs', fsWrite fs k.val data (some buffer) = some ((data.length : Int), fs') := by
  obtain ⟨found, file⟩ := h.loads
  obtain ⟨-, -, -, added, -⟩ := h.position small (by omega)
  have grows := (h.growsInto small slots inside).1.mpr room
  have start := h.start
  have low := h.offset
  have upper := h.fileOffset_le
  have fileOffset := h.fileOffset
  have position : (writeStart fs k i : Int) =
      (slot fs.files i).start + (fs.openFiles.get k).offset := Int.toNat_of_nonneg (by omega)
  unfold FsMeta.start at start position
  have bound : ((diskBlocks + (blockSize + diskBytes) : Nat) : Int) ≤ intMax := by decide
  obtain ⟨block, pos, carried⟩ := carry_total (blockSize - 1)
    (show intMin ≤ (slot fs.files i).block by unfold intMin blockSize at *; omega)
    (show (slot fs.files i).block + ((slot fs.files i).offset + (fs.openFiles.get k).offset) ≤
        intMax by
      unfold intMax diskBytes diskBlocks blockSize at *
      omega)
  obtain ⟨kept, within, turned⟩ := carry_spec carried
  obtain ⟨pos, rfl⟩ : ∃ n : Nat, pos = n := Int.eq_ofNat_of_zero_le (by omega)
  obtain ⟨⟨disk, count, block', buffer'⟩, loop⟩ := @writeLoop_some data fs.disk 0 block pos buffer
    (by unfold blockSize at *; omega) (by omega)
    (by unfold intMax diskBytes diskBlocks blockSize at *; omega) le_rfl
    (by unfold intMax diskBytes diskBlocks blockSize at *; omega)
  obtain ⟨total, -⟩ := writeLoop_count loop (by decide)
  rw [Int.zero_add] at total
  subst total
  have moved : addInt (fs.openFiles.get k).offset data.length =
      some ((fs.openFiles.get k).offset + data.length) :=
    addInt_eq_some.mpr ⟨rfl, by unfold intMin; omega, by
      unfold intMax diskBytes diskBlocks blockSize at *
      omega⟩
  have stored (m : FsMeta) :
      store fs.files (fs.openFiles.get k).fileNum m = some (fs.files.set i m h.room) := by
    rw [h.number]
    exact store_of_lt fs.files h.room m
  simp only [fsWrite, found, file, added, grows, carried, loop, moved, stored,
    store_of_lt fs.openFiles k.isLt, Option.bind_eq_bind, Option.bind_some, if_false,
    Bool.false_eq_true]
  exact ⟨_, rfl⟩

theorem Readable.write_refused (h : Readable fs d blocks k i)
    (small : (slot fs.files i).size ≤ intMax) (slots : i < 63) (data : List UInt8)
    (new : Option Block) (inside : writeStart fs k i + data.length ≤ diskBytes)
    (room : ¬RoomFor fs k i data.length) :
    fsWrite fs k.val data new = some (-1, fs) := by
  obtain ⟨found, file⟩ := h.loads
  obtain ⟨-, -, -, added, -⟩ := h.position small (by omega)
  have grows := (h.growsInto small slots inside).2.mpr room
  cases new with
  | none => simp only [fsWrite, found, file, added, Option.bind_eq_bind, Option.bind_some]
  | some buffer =>
    simp only [fsWrite, found, file, added, grows, Option.bind_eq_bind, Option.bind_some, if_true]

theorem fsLseek_to (room : i < 64) (number : (fs.openFiles.get k).fileNum = i) {o : Int}
    (low : 0 ≤ o) (high : o ≤ (slot fs.files i).size) (small : o ≤ intMax) :
    ∃ fs', fsLseek fs k.val o = some (0, fs') ∧ fs'.disk = fs.disk ∧ fs'.files = fs.files ∧
      fs'.openFiles.get k = { fs.openFiles.get k with offset := o } := by
  have found : load fs.openFiles k.val = some (fs.openFiles.get k) := load_of_lt fs.openFiles k.isLt
  have file : load fs.files i = some (slot fs.files i) := by
    rw [slot_of_lt room]
    exact load_of_lt fs.files room
  have used : ¬(i : Int) = -1 := by omega
  have kept : toInt o = o := toInt_of_range (intMin_nonpos.trans low) small
  refine ⟨{ fs with openFiles := fs.openFiles.set k.val ⟨i, o⟩ }, ?_, rfl, rfl,
    (Vector.getElem_set_self k.isLt).trans (congrArg (OpenFile.mk · o) number.symm)⟩
  simp only [fsLseek, found, number, used, file, kept, Int.not_lt.mpr high,
    store_of_lt fs.openFiles k.isLt, Option.bind_eq_bind, Option.bind_some, if_false]

theorem written_bytesFrom {c : Nat → UInt8} {s : Nat} {data : List UInt8}
    (inside : s + data.length ≤ diskBytes)
    (bytes : ∀ p < diskBytes, byteAt blocks p = written c s data p) :
    bytesFrom blocks s data.length = data := by
  refine List.ext_getElem (bytesFrom_length ..) fun t _ ht => ?_
  simp only [bytesFrom, List.getElem_map, List.getElem_range]
  rw [bytes (s + t) (by omega), written_inside ht]

theorem fsWrite_place (room : i < 64) (number : (fs.openFiles.get k).fileNum = i)
    {data : List UInt8} {new : Option Block}
    (h : fsWrite fs k.val data new = some ((data.length : Int), fs')) :
    (fs.openFiles.get k).offset + data.length ≤ intMax ∧
      (slot fs'.files i).offset = (slot fs.files i).offset := by
  rcases fsWrite_cases h with ⟨-, failed⟩ | ⟨k', i', hk, hi, same, -, number', -, range, -, files⟩
  · omega
  · obtain rfl : k.val = k' := Int.ofNat_inj.mp same
    obtain rfl : i = i' := Int.ofNat_inj.mp (number.symm.trans number')
    refine ⟨range, ?_⟩
    rw [files, slot_set, if_pos rfl, slot_of_lt room]

/-- What is written through a descriptor and read back at the same position. -/
theorem fsWrite_readBack (h : Readable fs d blocks k i) (small : (slot fs.files i).size ≤ intMax)
    (slots : i < 63) (data : List UInt8) (buffer buffer' : Block)
    (inside : writeStart fs k i + data.length ≤ diskBytes) :
    (RoomFor fs k i data.length → ∃ fs₁ fs₂ fs₃,
      fsWrite fs k.val data (some buffer) = some ((data.length : Int), fs₁) ∧
      (slot fs₁.files i).size =
        max (slot fs.files i).size ((fs.openFiles.get k).offset + data.length) ∧
      (fs₁.openFiles.get k).offset = (fs.openFiles.get k).offset + data.length ∧
      fsLseek fs₁ k.val (fs.openFiles.get k).offset = some (0, fs₂) ∧
      fsRead fs₂ k.val data.length (some buffer') = some ((data.length : Int), data, fs₃)) ∧
    (¬RoomFor fs k i data.length → fsWrite fs k.val data (some buffer) = some (-1, fs)) := by
  refine ⟨fun room => ?_, h.write_refused small slots data (some buffer) inside⟩
  have low := h.offset
  have high := h.offset_le
  obtain ⟨fs₁, write⟩ := h.write_some small slots data buffer inside room
  obtain ⟨blocks₁, h₁, -, offset, start, size, bytes⟩ := h.toWritable.write write inside
  obtain ⟨range, place⟩ := fsWrite_place h.room h.number write
  obtain ⟨fs₂, sought, disk, files, descriptor⟩ :=
    fsLseek_to h₁.room h₁.number low (show _ ≤ (slot fs₁.files i).size by omega) (by omega)
  have h₂ : Readable fs₂ d blocks₁ k i := by
    refine ⟨⟨?_, ?_, h₁.room, ?_, ?_, ?_, ?_⟩, ?_, ?_⟩
    · rw [disk]
      exact h₁.opened
    · rw [disk]
      exact h₁.image
    · rw [descriptor]
      exact h₁.number
    · rw [files]
      exact h₁.start
    · rw [files]
      exact h₁.fileOffset
    · rwa [descriptor]
    · rw [files, place]
      exact h.fileOffset_le
    · rw [descriptor, files]
      dsimp only
      omega
  have same : writeStart fs₂ k i = writeStart fs k i := by
    rw [writeStart, writeStart, files, descriptor, start]
  have count : min data.length (bytesLeft fs₂ k i) = data.length := by
    rw [bytesLeft, files, descriptor]
    dsimp only
    omega
  obtain ⟨fs₃, read, -⟩ := h₂.read (by rw [files]; omega) data.length buffer' (by omega)
  rw [count, same, written_bytesFrom inside bytes] at read
  exact ⟨fs₁, fs₂, fs₃, write, size, offset, sought, read⟩

theorem fsWrite_readBack_secondByte : ∃ fs₁ fs₂ fs₃,
    fsWrite secondByte 0 [7] (some zeroBlock) = some (1, fs₁) ∧ fsLseek fs₁ 0 1 = some (0, fs₂) ∧
      fsRead fs₂ 0 1 (some zeroBlock) = some (1, [7], fs₃) := by
  have inside : writeStart secondByte 0 0 + [(7 : UInt8)].length ≤ diskBytes := by
    rw [writeStart_secondByte]
    decide
  have room : RoomFor secondByte 0 0 [(7 : UInt8)].length := .inl (by decide +kernel)
  obtain ⟨fs₁, fs₂, fs₃, write, -, -, seek, read⟩ := (fsWrite_readBack secondByte_readable
    (by decide +kernel) (by decide) [7] zeroBlock zeroBlock inside).1 room
  exact ⟨fs₁, fs₂, fs₃, write, seek, read⟩

end LastPicked.FileSystem
