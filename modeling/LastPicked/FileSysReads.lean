import LastPicked.FileSysWrites

/-! What `fs_read` returns. Its position is carried with another comparison
than that of `fs_write`, so that it may stay at the very end of a block, where
the loop goes on in the next one. -/

namespace LastPicked.FileSystem
open CIntegers CMemory FlatBlocks

variable {fs fs' : FileSys} {d : CString} {blocks : Image} {i : Nat} {k : Fin 32}

def bytesFrom (blocks : Image) (p len : Nat) : List UInt8 :=
  (List.range len).map fun t => byteAt blocks (p + t)

@[simp] theorem bytesFrom_length (blocks : Image) (p len : Nat) :
    (bytesFrom blocks p len).length = len := by
  simp [bytesFrom]

theorem bytesFrom_succ (blocks : Image) (p len : Nat) :
    bytesFrom blocks p (len + 1) = byteAt blocks p :: bytesFrom blocks (p + 1) len := by
  simp [bytesFrom, List.range_succ_eq_map, Function.comp_def, Nat.add_right_comm, Nat.add_assoc]

def ReadAhead (blocks : Image) (p pos : Nat) (buffer : Block) : Prop :=
  ∀ (q : Nat) (hq : q < blockSize), pos ≤ q → p + (q - pos) < diskBytes →
    buffer[q] = byteAt blocks (p + (q - pos))

theorem byteAt_of_block {b q : Nat} (hb : b < diskBlocks) (hq : q < blockSize) :
    byteAt blocks (b * blockSize + q) = blocks[b][q] := flat_block hb hq

theorem readTurn_ahead {disk : Disk} (opened : disk.handle = some d)
    (image : disk.host d = some blocks) {block : Int} {p pos : Nat} {buffer : Block}
    (place : block * blockSize + pos = p) (within : pos ≤ blockSize) (more : p < diskBytes)
    (ahead : ReadAhead blocks p pos buffer) :
    ∃ (block' : Int) (pos' : Nat) (buffer' : Block),
      readTurn disk block pos buffer = some (block', (pos' : Int), buffer') ∧
        block' * blockSize + pos' = p ∧ pos' < blockSize ∧ ReadAhead blocks p pos' buffer' := by
  by_cases full : pos = blockSize
  · subst full
    obtain ⟨b, hb⟩ : ∃ b : Nat, block + 1 = b :=
      Int.eq_ofNat_of_zero_le (by unfold diskBytes diskBlocks blockSize at *; omega)
    have next : b < diskBlocks := by
      unfold diskBytes diskBlocks blockSize at *
      omega
    have counted : addInt block 1 = some (b : Int) :=
      addInt_eq_some.mpr ⟨hb.symm, by unfold intMin intMax diskBlocks at *; omega⟩
    refine ⟨b, 0, blocks[b], ?_, by unfold blockSize at *; omega, by decide, fun q hq _ _ => ?_⟩
    · rw [readTurn, if_pos rfl, counted, Option.bind_eq_bind, Option.bind_some,
        blockRead_open opened image (Int.natCast_nonneg b) (Int.ofNat_lt.mpr next)]
      rfl
    · have start : p = b * blockSize := by
        unfold blockSize at *
        omega
      rw [start, Nat.sub_zero, byteAt_of_block next hq]
  · have inside : (pos : Int) ≠ blockSize := by omega
    exact ⟨block, pos, buffer, if_neg inside, place, by omega, ahead⟩

/-- The loop of `fs_read` on a part of the disk. -/
theorem readLoop_bytes {disk : Disk} (opened : disk.handle = some d)
    (image : disk.host d = some blocks) {len : Nat} {count block : Int} {p pos : Nat}
    {buffer : Block} (place : block * blockSize + pos = p) (within : pos ≤ blockSize)
    (inside : p + len ≤ diskBytes) (low : intMin ≤ count) (high : count + len ≤ intMax)
    (ahead : ReadAhead blocks p pos buffer) :
    readLoop disk len count block pos buffer = some (bytesFrom blocks p len) := by
  induction len generalizing count block p pos buffer with
  | zero => rfl
  | succ len ih =>
    obtain ⟨block', pos', buffer', turn, place', room, ahead'⟩ :=
      readTurn_ahead opened image place within (by omega) ahead
    have counted : addInt count 1 = some (count + 1) := addInt_eq_some.mpr ⟨rfl, by omega, by omega⟩
    have next : ReadAhead blocks (p + 1) (pos' + 1) buffer' := fun q hq behind more => by
      rw [ahead' q hq (by omega) (by omega)]
      congr 1
      omega
    have rest :=
      @ih (count + 1) block' (p + 1) (pos' + 1) buffer' (by omega) room (by omega) (by omega)
      (by omega) next
    have here : buffer'[pos'] = byteAt blocks p := by
      rw [ahead' pos' room le_rfl (by omega), Nat.sub_self, Nat.add_zero]
    have position : (pos' : Int) + 1 = (pos' + 1 : Nat) := rfl
    simp only [readLoop, turn, load_of_lt buffer' room, counted, position, rest, here,
      Option.bind_eq_bind, Option.bind_some, bytesFrom_succ]

theorem blockRead_ahead {disk : Disk} (opened : disk.handle = some d)
    (image : disk.host d = some blocks) {block : Int} {p pos : Nat}
    (place : block * blockSize + pos = p) (within : pos ≤ blockSize) (buffer : Block) :
    ReadAhead blocks p pos (blockRead disk block buffer).2 := by
  intro q hq behind more
  obtain ⟨b, rfl⟩ : ∃ b : Nat, block = b :=
    Int.eq_ofNat_of_zero_le (by unfold blockSize at *; omega)
  have inside : b < diskBlocks := by
    unfold diskBytes blockSize at *
    omega
  have start : p + (q - pos) = b * blockSize + q := by
    unfold blockSize at *
    omega
  rw [start, byteAt_of_block inside hq,
    blockRead_open opened image (Int.natCast_nonneg b) (Int.ofNat_lt.mpr inside)]
  rfl

/-- A descriptor that can be read: its file starts on the disk, and its
position is one of the file. -/
structure Readable (fs : FileSys) (d : CString) (blocks : Image) (k : Fin 32) (i : Nat) : Prop
    extends Writable fs d blocks k i where
  fileOffset_le : (slot fs.files i).offset ≤ blockSize
  offset_le : (fs.openFiles.get k).offset ≤ (slot fs.files i).size

def bytesLeft (fs : FileSys) (k : Fin 32) (i : Nat) : Nat :=
  ((slot fs.files i).size - (fs.openFiles.get k).offset).toNat

structure Advanced (fs fs' : FileSys) (k : Fin 32) (len : Nat) : Prop where
  disk : fs'.disk = fs.disk
  files : fs'.files = fs.files
  descriptor : fs'.openFiles.get k =
    { fs.openFiles.get k with offset := (fs.openFiles.get k).offset + len }
  others : ∀ j, j ≠ k → fs'.openFiles.get j = fs.openFiles.get j

theorem Readable.position (h : Readable fs d blocks k i) (small : (slot fs.files i).size ≤ intMax)
    (inside : writeStart fs k i ≤ diskBytes) :
    ∃ (block : Int) (pos : Nat), addInt (slot fs.files i).size (-(fs.openFiles.get k).offset) =
        some (bytesLeft fs k i : Int) ∧
      addInt (slot fs.files i).offset (fs.openFiles.get k).offset =
        some ((slot fs.files i).offset + (fs.openFiles.get k).offset) ∧
      carry blockSize (slot fs.files i).block
        ((slot fs.files i).offset + (fs.openFiles.get k).offset) = some (block, (pos : Int)) ∧
      block * blockSize + pos = writeStart fs k i ∧ pos ≤ blockSize := by
  have start := h.start
  have fileOffset := h.fileOffset
  have fileOffset_le := h.fileOffset_le
  have low := h.offset
  have high := h.offset_le
  unfold FsMeta.start at start
  simp only [writeStart, FsMeta.start] at inside
  have upper :
    (slot fs.files i).offset + (fs.openFiles.get k).offset ≤ blockSize + diskBytes := by omega
  have lower : intMin ≤ (slot fs.files i).block := by
    unfold intMin blockSize at *
    omega
  obtain ⟨block, pos, carried⟩ := carry_total blockSize lower
    (show (slot fs.files i).block + ((slot fs.files i).offset + (fs.openFiles.get k).offset) ≤
        intMax by
      unfold intMax diskBytes diskBlocks blockSize at *
      omega)
  obtain ⟨kept, within, turned⟩ := carry_spec carried
  obtain ⟨pos, rfl⟩ : ∃ n : Nat, pos = n := Int.eq_ofNat_of_zero_le (by omega)
  refine ⟨block, pos, addInt_eq_some.mpr ?_, addInt_eq_some.mpr ⟨rfl, ?_⟩, carried, ?_, by omega⟩
  · unfold bytesLeft intMin
    omega
  · unfold intMin intMax diskBytes diskBlocks blockSize at *
    omega
  · rw [kept, writeStart, FsMeta.start]
    omega

theorem Readable.loads (h : Readable fs d blocks k i) :
    load fs.openFiles k.val = some (fs.openFiles.get k) ∧
      load fs.files (fs.openFiles.get k).fileNum = some (slot fs.files i) := by
  refine ⟨load_of_lt fs.openFiles k.isLt, ?_⟩
  rw [h.number, slot_of_lt h.room]
  exact load_of_lt fs.files h.room

theorem Readable.read_none (h : Readable fs d blocks k i) (small : (slot fs.files i).size ≤ intMax)
    (n : Nat) (inside : writeStart fs k i ≤ diskBytes) :
    fsRead fs k.val n none = some (-1, [], fs) := by
  obtain ⟨found, file⟩ := h.loads
  obtain ⟨block, pos, left, added, carried, -⟩ := h.position small inside
  simp only [fsRead, found, file, left, added, carried, Option.bind_eq_bind, Option.bind_some]

theorem Readable.read (h : Readable fs d blocks k i) (small : (slot fs.files i).size ≤ intMax)
    (n : Nat) (buffer : Block) (inside : writeStart fs k i + min n (bytesLeft fs k i) ≤ diskBytes) :
    ∃ fs', fsRead fs k.val n (some buffer) = some (((min n (bytesLeft fs k i) : Nat) : Int),
        bytesFrom blocks (writeStart fs k i) (min n (bytesLeft fs k i)), fs') ∧
      Advanced fs fs' k (min n (bytesLeft fs k i)) := by
  obtain ⟨found, file⟩ := h.loads
  obtain ⟨block, pos, left, added, carried, place, within⟩ := h.position small (by omega)
  have low := h.offset
  have bound : (bytesLeft fs k i : Int) ≤ (slot fs.files i).size := by
    unfold bytesLeft
    have high := h.offset_le
    omega
  have count : (if toSize (bytesLeft fs k i) < n then toSize (bytesLeft fs k i) else n) =
      min n (bytesLeft fs k i) := by
    have exact : (toSize (bytesLeft fs k i) : Int) = bytesLeft fs k i :=
      toSize_of_nonneg (by omega) (by unfold intMax at small; omega)
    split <;> omega
  have bytes := readLoop_bytes h.opened h.image place within inside intMin_nonpos
    (by omega) (blockRead_ahead h.opened h.image place within buffer)
  have moved : addInt (fs.openFiles.get k).offset (min n (bytesLeft fs k i) : Nat) =
      some ((fs.openFiles.get k).offset + (min n (bytesLeft fs k i) : Nat)) := by
    refine addInt_eq_some.mpr ⟨rfl, by unfold intMin; omega, ?_⟩
    have most : (bytesLeft fs k i : Int) = (slot fs.files i).size - (fs.openFiles.get k).offset :=
      Int.toNat_of_nonneg (Int.sub_nonneg.mpr h.offset_le)
    omega
  let f : OpenFile :=
    { fs.openFiles.get k with offset := (fs.openFiles.get k).offset + (min n
      (bytesLeft fs k i) : Nat) }
  refine ⟨{ fs with openFiles := fs.openFiles.set k.val f }, ?_, rfl, rfl, ?_, ?_⟩
  · simp only [fsRead, found, file, left, added, carried, count, bytes, moved,
      store_of_lt fs.openFiles k.isLt, Option.bind_eq_bind, Option.bind_some, bytesFrom_length]
    rfl
  · exact Vector.getElem_set_self k.isLt
  · intro j other
    exact Vector.getElem_set_ne k.isLt j.isLt fun same => other (Fin.ext same.symm)

theorem Advanced.refl (fs : FileSys) (k : Fin 32) : Advanced fs fs k 0 :=
  ⟨rfl, rfl, by simp, fun _ _ => rfl⟩

theorem Advanced.trans {fs'' : FileSys} {len len' : Nat} (first : Advanced fs fs' k len)
    (second : Advanced fs' fs'' k len') : Advanced fs fs'' k (len + len') where
  disk := second.disk.trans first.disk
  files := second.files.trans first.files
  descriptor := by
    rw [second.descriptor, first.descriptor]
    simp [Int.add_assoc]
  others j other := (second.others j other).trans (first.others j other)

theorem Readable.advanced (h : Readable fs d blocks k i) {len : Nat} (moved : Advanced fs fs' k len)
    (within : len ≤ bytesLeft fs k i) :
    Readable fs' d blocks k i ∧ writeStart fs' k i = writeStart fs k i + len ∧
      bytesLeft fs' k i = bytesLeft fs k i - len := by
  have start := h.start
  have low := h.offset
  have high := h.offset_le
  unfold bytesLeft at *
  unfold writeStart
  refine ⟨⟨⟨?_, ?_, h.room, ?_, ?_, ?_, ?_⟩, ?_, ?_⟩, ?_, ?_⟩
  · rw [moved.disk]
    exact h.opened
  · rw [moved.disk]
    exact h.image
  · rw [moved.descriptor]
    exact h.number
  · rwa [moved.files]
  · rw [moved.files]
    exact h.fileOffset
  · rw [moved.descriptor]
    dsimp only
    omega
  · rw [moved.files]
    exact h.fileOffset_le
  · rw [moved.descriptor, moved.files]
    dsimp only
    omega
  · rw [moved.descriptor, moved.files]
    dsimp only
    omega
  · rw [moved.descriptor, moved.files]
    dsimp only
    omega

/-- Successive calls of `fs_read` on one descriptor: how many bytes each asks
for, and what its `malloc` answers. -/
def readAll (fs : FileSys) (fildes : Int) :
    List (Nat × Option Block) → Option (List (Int × List UInt8) × FileSys)
  | [] => some ([], fs)
  | (nbyte, new) :: calls => do
      let (r, bytes, fs) ← fsRead fs fildes nbyte new
      let (more, fs) ← readAll fs fildes calls
      some ((r, bytes) :: more, fs)

def returned (left : Nat) : List (Nat × Option Block) → List Int
  | [] => []
  | (_, none) :: calls => -1 :: returned left calls
  | (nbyte, some _) :: calls => (min nbyte left : Nat) :: returned (left - nbyte) calls

/-- How many bytes they ask for in all, a call whose `malloc` fails apart. -/
def asked (calls : List (Nat × Option Block)) : Nat :=
  (calls.map fun c => if c.2.isSome then c.1 else 0).sum

theorem bytesFrom_append (blocks : Image) (p len len' : Nat) :
    bytesFrom blocks p len ++ bytesFrom blocks (p + len) len' =
      bytesFrom blocks p (len + len') := by
  rw [bytesFrom, bytesFrom, bytesFrom, List.range_add, List.map_append, List.map_map]
  simp [Function.comp_def, Nat.add_assoc]

/-- However a file is cut into reads, each of them goes on where the last one ended. -/
theorem Readable.readAll (h : Readable fs d blocks k i) (small : (slot fs.files i).size ≤ intMax)
    (inside : writeStart fs k i + bytesLeft fs k i ≤ diskBytes)
    (calls : List (Nat × Option Block)) :
    ∃ results fs', readAll fs k.val calls = some (results, fs') ∧
      results.map Prod.fst = returned (bytesLeft fs k i) calls ∧
      (∀ x ∈ results, x.1 = x.2.length ∨ x.1 = -1 ∧ x.2 = []) ∧
      results.flatMap Prod.snd =
        bytesFrom blocks (writeStart fs k i) (min (asked calls) (bytesLeft fs k i)) ∧
      Advanced fs fs' k (min (asked calls) (bytesLeft fs k i)) := by
  induction calls generalizing fs with
  | nil =>
    exact ⟨[], fs, rfl, rfl, by simp, by simp [asked, bytesFrom], by simpa [asked] using .refl fs k⟩
  | cons c calls ih =>
    obtain ⟨n, new⟩ := c
    cases new with
    | none =>
      have read := h.read_none small n (by omega)
      obtain ⟨results, fs', run, answers, counts, bytes, moved⟩ := ih h small inside
      have total : asked ((n, none) :: calls) = asked calls := by simp [asked]
      rw [total]
      refine ⟨(-1, []) :: results, fs', ?_, ?_, ?_, ?_, moved⟩
      · simp only [FileSystem.readAll, read, run, Option.bind_eq_bind, Option.bind_some]
      · rw [List.map_cons, answers, returned]
      · exact List.forall_mem_cons.mpr ⟨.inr ⟨rfl, rfl⟩, counts⟩
      · rw [List.flatMap_cons, bytes, List.nil_append]
    | some buffer =>
      obtain ⟨fs₁, read, moved⟩ := h.read small n buffer (by omega)
      obtain ⟨h₁, start, left⟩ := h.advanced moved (Nat.min_le_right ..)
      have small₁ : (slot fs₁.files i).size ≤ intMax := by rwa [moved.files]
      obtain ⟨results, fs', run, answers, counts, bytes, moved'⟩ := ih h₁ small₁ (by omega)
      have total : min n (bytesLeft fs k i) + min (asked calls) (bytesLeft fs₁ k i) =
          min (asked ((n, some buffer) :: calls)) (bytesLeft fs k i) := by
        simp only [asked, List.map_cons, List.sum_cons, Option.isSome_some, if_true]
        omega
      have rest : bytesLeft fs₁ k i = bytesLeft fs k i - n := by omega
      refine ⟨(((min n (bytesLeft fs k i) : Nat) : Int),
        bytesFrom blocks (writeStart fs k i) (min n (bytesLeft fs k i))) :: results,
        fs', ?_, ?_, ?_, ?_, total ▸ moved.trans moved'⟩
      · simp only [FileSystem.readAll, read, run, Option.bind_eq_bind, Option.bind_some]
      · rw [List.map_cons, answers, returned, rest]
      · refine List.forall_mem_cons.mpr ⟨.inl ?_, counts⟩
        rw [bytesFrom_length]
      · rw [List.flatMap_cons, bytes, start, bytesFrom_append, total]

theorem bytesFrom_contents {m : FsMeta} {blocks : Image} {o : Int} (start : 0 ≤ m.start)
    (low : 0 ≤ o) (high : o ≤ m.size) (n : Nat) :
    bytesFrom blocks (m.start + o).toNat (min n (m.size - o).toNat) =
      ((m.contents blocks).drop o.toNat).take n := by
  refine List.ext_getElem ?_ fun t inside inside' => ?_
  · simp only [bytesFrom_length, List.length_take, List.length_drop, FsMeta.contents,
      List.length_map, List.length_range]
    omega
  · have place : (m.start + o).toNat + t = m.start.toNat + (o.toNat + t) := by omega
    simp [bytesFrom, FsMeta.contents, place]

/-- However a file inside the disk is cut into reads: what they return is the
next part of the file each time, and nothing but the descriptor moves. -/
theorem fsRead_slices (h : Readable fs d blocks k i)
    (inside : (slot fs.files i).start + (slot fs.files i).size ≤ diskBytes)
    (calls : List (Nat × Option Block)) :
    ∃ results fs', readAll fs k.val calls = some (results, fs') ∧
      results.map Prod.fst = returned (bytesLeft fs k i) calls ∧
      (∀ x ∈ results, x.1 = x.2.length ∨ x.1 = -1 ∧ x.2 = []) ∧
      results.flatMap Prod.snd = (((slot fs.files i).contents blocks).drop
        (fs.openFiles.get k).offset.toNat).take (asked calls) ∧
      Advanced fs fs' k (results.flatMap Prod.snd).length := by
  have start := h.start
  have low := h.offset
  have high := h.offset_le
  have small : (slot fs.files i).size ≤ intMax := by
    unfold intMax diskBytes diskBlocks blockSize at *
    omega
  obtain ⟨results, fs', run, answers, counts, bytes, moved⟩ := h.readAll small (by
    unfold writeStart bytesLeft
    omega) calls
  refine ⟨results, fs', run, answers, counts, ?_, ?_⟩
  · rw [bytes]
    exact bytesFrom_contents start low high (asked calls)
  · rw [bytes, bytesFrom_length]
    exact moved

theorem secondByte_readable :
    Readable secondByte nameA (Vector.replicate diskBlocks rampBlock) 0 0 :=
  ⟨secondByte_onFile.writable secondByte_inside, by decide +kernel, by decide +kernel⟩

theorem fsRead_slices_secondByte : ∃ results fs',
    readAll secondByte 0 [(1, some zeroBlock), (1, some zeroBlock), (1, some zeroBlock)] =
      some (results, fs') ∧ results.map Prod.fst = [1, 1, 0] := by
  obtain ⟨results, fs', run, answers, -⟩ := fsRead_slices secondByte_readable (by decide +kernel)
    [(1, some zeroBlock), (1, some zeroBlock), (1, some zeroBlock)]
  exact ⟨results, fs', run, answers.trans (by decide +kernel)⟩

end LastPicked.FileSystem
