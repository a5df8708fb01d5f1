import LastPicked.DiskBytes

/-! `fs_write` on the bytes of the disk. The block it starts in is not read
before, so what the buffer happens to hold stands for that block. -/

namespace LastPicked.FileSystem
open CIntegers CMemory FlatBlocks

variable (d : Disk) (name : CString) (blocks : Image)

theorem addInt_block {b : Nat} (room : b < diskBlocks) :
    addInt (b : Int) 1 = some ((b + 1 : Nat) : Int) := by
  rw [addInt_eq_some]
  unfold diskBlocks at room
  unfold intMin intMax
  omega

/-- At the end of a block the write goes on in the next one, and nothing is
lost: what the buffer stands for is written out before. -/
theorem writeTurn_showing {b pos : Nat} (hb : b < diskBlocks) (hpos : pos ≤ blockSize)
    (more : b * blockSize + pos < diskBytes) (buffer : Block) :
    ∃ blocks' b' pos' buffer', ∃ hb' : b' < diskBlocks, pos' < blockSize ∧
      b' * blockSize + pos' = b * blockSize + pos ∧
      writeTurn (d.showing name blocks) b pos buffer =
        some (d.showing name blocks', (b' : Int), (pos' : Int), buffer') ∧
      blocks'.set b' buffer' = blocks.set b buffer := by
  by_cases full : pos = blockSize
  · subst full
    have next : b + 1 < diskBlocks := by
      unfold diskBytes diskBlocks blockSize at *
      omega
    refine ⟨blocks.set b buffer, b + 1, 0, (blocks.set b buffer)[b + 1], next,
      by decide, ?_, ?_, ?_⟩
    · rw [Nat.add_zero, Nat.succ_mul]
    · simp only [writeTurn, if_true, blockWrite_showing hb, addInt_block hb, blockRead_showing next,
        Option.bind_eq_bind, Option.bind_some, Int.natCast_zero]
    · rw [Vector.set_getElem_self]
  · refine ⟨blocks, b, pos, buffer, hb, by omega, rfl, ?_, rfl⟩
    have inside : (pos : Int) ≠ blockSize := by omega
    rw [writeTurn, if_neg inside]

/-- The loop of `fs_write` on a part of the disk: seen through the buffer, it
writes its bytes one after the other. -/
theorem writeLoop_showing (data : List UInt8) {b pos : Nat} (count : Int) (hb : b < diskBlocks)
    (hpos : pos ≤ blockSize) (inside : b * blockSize + pos + data.length ≤ diskBytes)
    (low : intMin ≤ count) (high : count + data.length ≤ intMax) (buffer : Block) :
    ∃ blocks' b' buffer', ∃ hb' : b' < diskBlocks,
      writeLoop data (d.showing name blocks) count b pos buffer =
        some (d.showing name blocks', count + data.length, (b' : Int), buffer') ∧
      byteAt (blocks'.set b' buffer') =
        written (byteAt (blocks.set b buffer)) (b * blockSize + pos) data := by
  induction data generalizing blocks b pos count buffer with
  | nil => exact ⟨blocks, b, buffer, hb, by simp [writeLoop], written_nil.symm⟩
  | cons x rest ih =>
    rw [List.length_cons] at inside high
    obtain ⟨blocks₁, b₁, pos₁, buffer₁, hb₁, hpos₁, place, turn, seen⟩ :=
      writeTurn_showing d name blocks hb hpos (by omega) buffer
    have counted : addInt count 1 = some (count + 1) := addInt_eq_some.mpr ⟨rfl, by omega, by omega⟩
    obtain ⟨blocks', b', buffer', hb', loop, bytes⟩ := @ih blocks₁ b₁ (pos₁ + 1) (count + 1)
      hb₁ (by omega) (by omega) (by omega) (by omega) (buffer₁.set pos₁ x)
    refine ⟨blocks', b', buffer', hb', ?_, ?_⟩
    · have position : (pos₁ : Int) + 1 = (pos₁ + 1 : Nat) := rfl
      have total : count + 1 + rest.length = count + (x :: rest).length := by
        rw [List.length_cons]
        omega
      simp only [writeLoop, turn, store_of_lt buffer₁ hpos₁, counted, Option.bind_eq_bind,
        Option.bind_some, position, loop, total]
    · rw [bytes, written_cons]
      unfold byteAt
      rw [flat_set_set hb₁ hpos₁, seen, place, ← Nat.add_assoc, place]

/-- What `fs_write` at position `s` takes the disk to hold: the block of the
position is the buffer as the host handed it out. -/
def taken (blocks : Image) (buffer : Block) (s p : Nat) : UInt8 :=
  if p / blockSize = s / blockSize then (buffer[p % blockSize]?).getD 0 else byteAt blocks p

theorem byteAt_set {b : Nat} (hb : b < diskBlocks) (buffer : Block) {s : Nat}
    (hs : s / blockSize = b) :
    byteAt (blocks.set b buffer) = taken blocks buffer s := by
  funext p
  rw [byteAt, flat_set hb, taken, hs]
  rfl

section
variable {d : Disk} {name : CString} {blocks : Image}

theorem writeOut_bytes {data : List UInt8} {b pos s : Nat} (hpos : pos < blockSize)
    (place : b * blockSize + pos = s) (inside : s + data.length ≤ diskBytes) {buffer : Block}
    {d' : Disk} {count block' : Int} {buffer' : Block}
    (h : writeLoop data (d.showing name blocks) 0 b pos buffer = some (d', count, block', buffer'))
    (small : data.length ≤ intMax) :
    ∃ blocks', (blockWrite d' block' buffer').2 = d.showing name blocks' ∧
      ∀ p < diskBytes, byteAt blocks' p = written (taken blocks buffer s) s data p := by
  have block : s / blockSize = b := by rw [← place, div_block hpos]
  by_cases hb : b < diskBlocks
  · obtain ⟨blocks₁, b', buffer₁, hb', loop, bytes⟩ :=
      writeLoop_showing d name blocks data 0 hb hpos.le
      (by omega) (by decide) (by omega) buffer
    rw [loop] at h
    cases h
    refine ⟨blocks₁.set b' buffer', by rw [blockWrite_showing hb'], fun p _ => ?_⟩
    rw [bytes, byteAt_set blocks hb buffer block, place]
  · -- only the end of the disk is left, and nothing to write there
    have last : diskBytes ≤ b * blockSize := Nat.mul_le_mul_right _ (Nat.not_lt.mp hb)
    have empty : data = [] := List.eq_nil_of_length_eq_zero (by omega)
    subst empty
    cases h
    refine ⟨blocks, blockWrite_beyond (by omega) _, fun p hp => ?_⟩
    have other : p / blockSize ≠ s / blockSize := by
      rw [block]
      unfold diskBytes diskBlocks blockSize at *
      omega
    rw [written_nil, taken, if_neg other]

theorem blockWrite_image (b : Nat) (buffer : Block) :
    ∃ blocks', (blockWrite (d.showing name blocks) b buffer).2 = d.showing name blocks' ∧
      ∀ p < diskBytes, byteAt blocks' p =
        if p / blockSize = b then (buffer[p % blockSize]?).getD 0 else byteAt blocks p := by
  by_cases hb : b < diskBlocks
  · refine ⟨blocks.set b buffer, by rw [blockWrite_showing hb], fun p _ => ?_⟩
    rw [byteAt, flat_set hb]
    rfl
  · refine ⟨blocks, blockWrite_beyond (by omega) _, fun p inside => ?_⟩
    have other : p / blockSize ≠ b := by
      unfold diskBytes diskBlocks blockSize at *
      omega
    rw [if_neg other]

/-- In front of the position it starts at, a write leaves of the first block what the buffer held,
and the other blocks as they were. -/
theorem writeLoop_front {data : List UInt8} {b pos : Nat} {buffer buffer' : Block} {d' : Disk}
    {count count' block' : Int} (within : pos ≤ blockSize)
    (h : writeLoop data (d.showing name blocks) count b pos buffer =
      some (d', count', block', buffer')) :
    ∃ blocks', (blockWrite d' block' buffer').2 = d.showing name blocks' ∧
      ∀ p < diskBytes, p < b * blockSize + pos → byteAt blocks' p =
        if p / blockSize = b then (buffer[p % blockSize]?).getD 0 else byteAt blocks p := by
  induction data generalizing blocks b pos buffer count with
  | nil =>
    cases h
    obtain ⟨blocks', image, bytes⟩ := @blockWrite_image d name blocks b buffer'
    exact ⟨blocks', image, fun p inside _ => bytes p inside⟩
  | cons x rest ih =>
    obtain ⟨⟨d₁, block₁, pos₁, buffer₁⟩, turn, copies⟩ := Option.bind_eq_some_iff.mp h
    obtain ⟨buffer₂, stored, counts⟩ := Option.bind_eq_some_iff.mp copies
    obtain ⟨counted, -, loop⟩ := Option.bind_eq_some_iff.mp counts
    rw [writeTurn] at turn
    split at turn
    case isTrue full =>
      -- the block is written out, and all that follows is behind it
      obtain rfl : pos = blockSize := by omega
      obtain ⟨block, next, same⟩ := Option.bind_eq_some_iff.mp turn
      cases same
      obtain ⟨rfl, -⟩ := addInt_eq_some.mp next
      obtain ⟨blocks₁, image, bytes⟩ := @blockWrite_image d name blocks b buffer
      rw [image] at loop
      obtain ⟨blocks', written, rest⟩ := @ih blocks₁ (b + 1) 1 buffer₂ counted (by decide) loop
      refine ⟨blocks', written, fun p inside front => ?_⟩
      have before : p / blockSize ≠ b + 1 := by
        unfold blockSize at *
        omega
      rw [rest p inside (by rw [Nat.succ_mul]; omega), if_neg before, bytes p inside]
    case isFalse =>
      cases turn
      obtain ⟨j, room, here, rfl⟩ := store_eq_some.mp stored
      obtain rfl : pos = j := Int.ofNat_inj.mp here
      obtain ⟨blocks', written, rest⟩ := @ih blocks b (pos + 1) _ counted (by omega) loop
      refine ⟨blocks', written, fun p inside front => ?_⟩
      rw [rest p inside (by omega)]
      split
      case isTrue this =>
        have other : p % blockSize ≠ pos := by
          unfold blockSize at *
          omega
        rw [Vector.getElem?_set_ne room other.symm]
      case isFalse => rfl

end

section
variable {fs fs' : FileSys} {r : Int}

theorem fsWrite_done_iff {fildes : Int} {data : List UInt8} {new : Option Block}
    (h : fsWrite fs fildes data new = some (r, fs')) {f : OpenFile} {m : FsMeta}
    (found : load fs.openFiles fildes = some f) (file : load fs.files f.fileNum = some m) :
    r ≠ -1 ↔ new ≠ none ∧ growsInto fs f m data.length = some false := by
  rw [fsWrite, found, Option.bind_eq_bind, Option.bind_some, file, Option.bind_eq_bind,
    Option.bind_some] at h
  obtain ⟨pos, -, h⟩ := Option.bind_eq_some_iff.mp h
  cases new with
  | none => grind
  | some buffer =>
    obtain ⟨grows, checked, h⟩ := Option.bind_eq_some_iff.mp h
    cases grows with
    | true => grind
    | false =>
      obtain ⟨⟨block, pos⟩, -, h⟩ := Option.bind_eq_some_iff.mp h
      obtain ⟨⟨d', count, block', buffer'⟩, loop, h⟩ := Option.bind_eq_some_iff.mp h
      obtain ⟨offset, -, h⟩ := Option.bind_eq_some_iff.mp h
      obtain ⟨openFiles, -, h⟩ := Option.bind_eq_some_iff.mp h
      obtain ⟨files, -, h⟩ := Option.bind_eq_some_iff.mp h
      cases h
      obtain ⟨total, -⟩ := writeLoop_count loop (by decide)
      exact iff_of_true (by omega) ⟨nofun, checked⟩

theorem fsWrite_disk {k i : Nat} {hk : k < 32} {hi : i < 64} {data : List UInt8}
    {new : Option Block} (number : fs.openFiles[k].fileNum = i)
    (h : fsWrite fs k data new = some (r, fs')) (done : r ≠ -1) :
    ∃ buffer block pos d' block' buffer', new = some buffer ∧
      carry (blockSize - 1) fs.files[i].block (fs.files[i].offset + fs.openFiles[k].offset) =
        some (block, pos) ∧
      writeLoop data fs.disk 0 block pos buffer = some (d', (data.length : Int), block', buffer') ∧
      data.length ≤ intMax ∧ fs'.disk = (blockWrite d' block' buffer').2 := by
  unfold fsWrite at h
  rw [load_of_lt _ hk, Option.bind_eq_bind, Option.bind_some, number, load_of_lt _ hi,
    Option.bind_eq_bind, Option.bind_some] at h
  obtain ⟨pos, added, h⟩ := Option.bind_eq_some_iff.mp h
  obtain ⟨rfl, -⟩ := addInt_eq_some.mp added
  cases new with
  | none => grind
  | some buffer =>
    obtain ⟨grows, -, h⟩ := Option.bind_eq_some_iff.mp h
    cases grows with
    | true => grind
    | false =>
      obtain ⟨⟨block, pos⟩, carried, h⟩ := Option.bind_eq_some_iff.mp h
      obtain ⟨⟨d', count, block', buffer'⟩, loop, h⟩ := Option.bind_eq_some_iff.mp h
      obtain ⟨offset, -, h⟩ := Option.bind_eq_some_iff.mp h
      obtain ⟨openFiles, -, h⟩ := Option.bind_eq_some_iff.mp h
      obtain ⟨files, -, h⟩ := Option.bind_eq_some_iff.mp h
      cases h
      obtain ⟨total, small⟩ := writeLoop_count loop (by decide)
      rw [Int.zero_add] at total
      subst total
      exact ⟨buffer, block, pos, d', block', buffer', rfl, carried, loop, small, rfl⟩

section
variable {name : CString} {blocks : Image} {k i : Nat} {hk : k < 32} {hi : i < 64}
  {data : List UInt8} {s : Nat}
  {buffer : Block}

theorem fsWrite_loop (opened : fs.disk.handle = some name) (image : fs.disk.host name = some blocks)
    (number : fs.openFiles[k].fileNum = i) (low : 0 ≤ fs.files[i].offset + fs.openFiles[k].offset)
    (place : fs.files[i].start + fs.openFiles[k].offset = s)
    (h : fsWrite fs k data (some buffer) = some (r, fs')) (done : r ≠ -1) :
    ∃ b pos : Nat, ∃ d' block' buffer', pos < blockSize ∧ b * blockSize + pos = s ∧
      writeLoop data (fs.disk.showing name blocks) 0 b pos buffer =
        some (d', (data.length : Int), block', buffer') ∧
      data.length ≤ intMax ∧ fs'.disk = (blockWrite d' block' buffer').2 := by
  obtain ⟨_, block, pos, d', block', buffer', same, carried, loop, small, disk⟩ :=
    fsWrite_disk number h done
  obtain rfl := Option.some.inj same
  obtain ⟨kept, high, turned⟩ := carry_spec carried
  have nonneg : 0 ≤ pos := by
    unfold blockSize at turned
    omega
  unfold FsMeta.start at place
  have positive : 0 ≤ block := by
    unfold blockSize at *
    omega
  lift block to Nat using positive
  lift pos to Nat using nonneg
  rw [← Disk.showing_self opened image] at loop
  exact ⟨block, pos, d', block', buffer', by unfold blockSize at *; omega,
    by unfold blockSize at *; omega, loop, small, disk⟩

theorem fsWrite_bytes (opened : fs.disk.handle = some name)
    (image : fs.disk.host name = some blocks) (number : fs.openFiles[k].fileNum = i)
    (low : 0 ≤ fs.files[i].offset + fs.openFiles[k].offset)
    (place : fs.files[i].start + fs.openFiles[k].offset = s) (inside : s + data.length ≤ diskBytes)
    (h : fsWrite fs k data (some buffer) = some (r, fs')) (done : r ≠ -1) :
    ∃ blocks', fs'.disk = fs.disk.showing name blocks' ∧
      ∀ p < diskBytes, byteAt blocks' p = written (taken blocks buffer s) s data p := by
  obtain ⟨b, pos, d', block', buffer', within, here, loop, small, disk⟩ :=
    fsWrite_loop opened image number low place h done
  obtain ⟨blocks', written, bytes⟩ := writeOut_bytes within here inside loop small
  exact ⟨blocks', disk.trans written, bytes⟩

theorem fsWrite_front (opened : fs.disk.handle = some name)
    (image : fs.disk.host name = some blocks) (number : fs.openFiles[k].fileNum = i)
    (low : 0 ≤ fs.files[i].offset + fs.openFiles[k].offset)
    (place : fs.files[i].start + fs.openFiles[k].offset = s)
    (h : fsWrite fs k data (some buffer) = some (r, fs')) (done : r ≠ -1) :
    ∃ blocks', fs'.disk = fs.disk.showing name blocks' ∧
      ∀ p < diskBytes, p < s → byteAt blocks' p = taken blocks buffer s p := by
  obtain ⟨b, pos, d', block', buffer', within, here, loop, -, disk⟩ :=
    fsWrite_loop opened image number low place h done
  obtain ⟨blocks', written, bytes⟩ := writeLoop_front within.le loop
  have block : s / blockSize = b := by rw [← here, div_block within]
  refine ⟨blocks', disk.trans written, fun p inside front => ?_⟩
  rw [bytes p inside (by omega), taken, block]

end

end

end LastPicked.FileSystem
