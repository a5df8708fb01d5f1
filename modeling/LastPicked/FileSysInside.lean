import LastPicked.FileSysFrame
import LastPicked.FileSysRuns

/-! Mounted file systems whose files lie end to end inside the disk, and
descriptors that are open on one of them. -/

namespace LastPicked.FileSystem
open CIntegers CMemory Finset

variable {fs : FileSys} {d : CString} {blocks : Image} {n i : Nat}

/-- A mounted file system: the slots in use are the first `n`, their files lie
end to end inside the disk, and `blocks` is what the disk holds. -/
structure InsideDisk (fs : FileSys) (d : CString) (blocks : Image) (n : Nat) : Prop where
  opened : fs.disk.handle = some d
  image : fs.disk.host d = some blocks
  layout : Layout fs.files n
  free : ∀ k, n ≤ k → (slot fs.files k).size = -1
  inside : (dataStart * blockSize : Int) + ∑ k ∈ range n, (slot fs.files k).size ≤ diskBytes

theorem Layout.room {files : Files} (layout : Layout files n) : n ≤ 64 := by
  by_contra more
  have used := (layout.inUse 64).mpr (by omega)
  rw [(slot_of_ge (Nat.le_refl 64)).size] at used
  exact absurd used (by decide)

section
variable {files : Files}

/-- A slot in its place starts where the sum of the sizes before it ends, and
the other way round. -/
theorem Layout.placed (layout : Layout files n) (hi : i < n) : Placed files i := by
  refine ⟨?_, layout.offset i hi⟩
  cases i with
  | zero => simpa [EndToEnd.Abuts, FsMeta.start] using layout.start 0 hi
  | succ j => exact layout.next hi

theorem Layout.of_placed (inUse : ∀ k, 0 ≤ (slot files k).size ↔ k < n)
    (placed : ∀ k < n, Placed files k) : Layout files n where
  inUse := inUse
  start _ hk := EndToEnd.start_eq_sum (fun j hj => (placed j hj).abut) hk
  offset k hk := (placed k hk).offset
  apart _ hj _ hk :=
    EndToEnd.disjoint (fun j hj => (placed j hj).abut) (fun j => (inUse j).mpr) hj hk
  gapless := EndToEnd.cover (fun j hj => (placed j hj).abut) fun j => (inUse j).mpr

end

theorem Layout.inside {files : Files} (layout : Layout files n)
    (inside : ∀ k < n, (slot files k).start + (slot files k).size ≤ diskBytes) :
    (dataStart * blockSize : Int) + ∑ k ∈ range n, (slot files k).size ≤ diskBytes := by
  cases n with
  | zero =>
    rw [range_zero, sum_empty]
    decide
  | succ m =>
    have start : (slot files m).start = _ := layout.start m (Nat.lt_succ_self m)
    have last := inside m (Nat.lt_succ_self m)
    rw [sum_range_succ]
    omega

theorem InsideDisk.extent (h : InsideDisk fs d blocks n) (hi : i < n) :
    dataStart * blockSize ≤ (slot fs.files i).start ∧
      (slot fs.files i).start + (slot fs.files i).size ≤ diskBytes := by
  have nonneg (j : Nat) (hj : j ∈ range n) : 0 ≤ (slot fs.files j).size :=
    (h.layout.inUse j).mpr (mem_range.mp hj)
  have start : (slot fs.files i).start = _ := h.layout.start i hi
  have before : 0 ≤ ∑ j ∈ range i, (slot fs.files j).size :=
    sum_nonneg fun j hj => nonneg j (mem_range.mpr ((mem_range.mp hj).trans hi))
  have upto : ∑ j ∈ range (i + 1), (slot fs.files j).size ≤ ∑ j ∈ range n, (slot fs.files j).size :=
    sum_le_sum_of_subset_of_nonneg (range_mono hi) fun j hj _ => nonneg j hj
  rw [sum_range_succ] at upto
  have inside := h.inside
  omega

theorem InsideDisk.ordered (h : InsideDisk fs d blocks n) {j k : Nat} (earlier : j < k)
    (hk : k < n) :
    (slot fs.files j).start + (slot fs.files j).size ≤ (slot fs.files k).start :=
  EndToEnd.finish_le_start (fun _ hk => (h.layout.placed hk).abut) (fun j => (h.layout.inUse j).mpr)
    earlier hk

theorem InsideDisk.position (h : InsideDisk fs d blocks n) (hi : i < n) :
    ∃ block offset size : Nat, (slot fs.files i).block = block ∧ (slot fs.files i).offset = offset ∧
      (slot fs.files i).size = size ∧ (slot fs.files i).start = (block * blockSize + offset : Nat) ∧
      block ≤ diskBlocks ∧ offset ≤ blockSize ∧ block * blockSize + offset + size ≤ diskBytes := by
  obtain ⟨first, last⟩ := h.extent hi
  obtain ⟨low, high⟩ := h.layout.offset i hi
  have used := (h.layout.inUse i).mpr hi
  unfold FsMeta.start at first last ⊢
  have below : 0 ≤ (slot fs.files i).block := by
    unfold dataStart diskBlocks blockSize at *
    omega
  obtain ⟨block, blockEq⟩ := Int.eq_ofNat_of_zero_le below
  obtain ⟨offset, offsetEq⟩ := Int.eq_ofNat_of_zero_le low
  obtain ⟨size, sizeEq⟩ := Int.eq_ofNat_of_zero_le used
  rw [offsetEq] at high
  rw [blockEq, offsetEq, sizeEq] at last
  rw [blockEq, offsetEq, sizeEq]
  have inside : block * blockSize + offset + size ≤ diskBytes := by omega
  have few : block ≤ diskBlocks :=
    Nat.le_of_mul_le_mul_right (show block * blockSize ≤ diskBytes by omega) (by decide)
  exact ⟨block, offset, size, rfl, rfl, rfl, by omega, few, by omega, inside⟩

theorem sum_small {block offset size : Nat} (few : block ≤ diskBlocks) (within : offset ≤ blockSize)
    (inside : block * blockSize + offset + size ≤ diskBytes) :
    (block : Int) + (offset + size) ≤ intMax := by
  have bound : ((diskBlocks + (blockSize + diskBytes) : Nat) : Int) ≤ intMax := by decide
  refine le_trans ?_ bound
  exact_mod_cast Nat.add_le_add few (Nat.add_le_add within (by omega))

theorem InsideDisk.size_le (h : InsideDisk fs d blocks n) (k : Nat) :
    -1 ≤ (slot fs.files k).size ∧ (slot fs.files k).size ≤ diskBytes := by
  by_cases hk : k < n
  · obtain ⟨block, offset, size, -, -, same, -, -, -, inside⟩ := h.position hk
    rw [same]
    omega
  · rw [h.free k (by omega)]
    exact ⟨Int.le_refl _, by decide⟩

structure OnFile (fs : FileSys) (n : Nat) (k : Fin 32) (i : Nat) : Prop where
  number : (fs.openFiles.get k).fileNum = i
  used : i < n
  low : 0 ≤ (fs.openFiles.get k).offset
  high : (fs.openFiles.get k).offset ≤ (slot fs.files i).size

section
variable {files : Files} {c : Nat}

/-- Bounds that every slot of a table gets when the slots are filled in turn. -/
structure Bounded (files : Files) (j : Nat) : Prop where
  block : 0 ≤ (slot files j).block ∧ (slot files j).block ≤ (j + 1) * (2 * diskBlocks)
  offset : 0 ≤ (slot files j).offset ∧ (slot files j).offset ≤ blockSize
  size : -1 ≤ (slot files j).size ∧ (slot files j).size ≤ diskBytes

theorem InsideDisk.bounded (h : InsideDisk fs d blocks n) (hi : i < n) : Bounded fs.files i := by
  obtain ⟨block, offset, size, blockEq, offsetEq, -, -, few, within, inside⟩ := h.position hi
  refine ⟨?_, ?_, h.size_le i⟩
  · rw [blockEq]
    unfold diskBlocks at *
    omega
  · rw [offsetEq]
    omega

theorem fillBlockAndOffset_some (hi : i < 64) (before : ∀ j, i = j + 1 → Bounded files j)
    (size : -1 ≤ (slot files i).size ∧ (slot files i).size ≤ diskBytes) :
    ∃ files', fillBlockAndOffset files i = some files' ∧ Bounded files' i := by
  have stored (block offset : Int) : modify files i (fun m => { m with block, offset }) =
      some (files.set i { files[i] with block, offset }) := modify_eq_some.mpr ⟨i, hi, rfl, rfl⟩
  have entry (block offset : Int) := slot_set files i hi { files[i] with block, offset } i
  simp only [if_true] at entry
  rw [slot_of_lt hi] at size
  cases i with
  | zero =>
    refine ⟨_, (if_pos rfl).trans (stored dataStart 0), ?_, ?_, ?_⟩ <;> rw [entry]
    · exact (by decide : (0 : Int) ≤ dataStart ∧ (dataStart :
        Int) ≤ ((0 : Nat) + 1) * (2 * diskBlocks))
    · exact (by decide : (0 : Int) ≤ 0 ∧ (0 : Int) ≤ blockSize)
    · exact size
  | succ j =>
    obtain ⟨⟨low, high⟩, ⟨first, last⟩, least, most⟩ := before j rfl
    rw [slot_of_lt (by omega)] at low high first last least most
    have later : ((j + 1 : Nat) : Int) ≠ 0 := by omega
    have found : load files (((j + 1 : Nat) : Int) - 1) = some files[j] :=
      load_eq_some.mpr ⟨j, by omega, by omega, rfl⟩
    obtain ⟨behind, added, zero, bound⟩ :
        ∃ behind, offsetBehind files[j] = some behind ∧ 0 ≤ behind ∧
        behind ≤ blockSize + diskBytes := by
      unfold offsetBehind
      split
      case isTrue => exact ⟨_, rfl, first, last.trans (by omega)⟩
      case isFalse used =>
        refine ⟨_, addInt_eq_some.mpr ⟨rfl, ?_⟩, by omega, by omega⟩
        unfold intMin intMax diskBytes diskBlocks blockSize at *
        omega
    obtain ⟨block, offset, carried⟩ := carry_total blockSize (intMin_nonpos.trans low)
      (show files[j].block + behind ≤ intMax by
        unfold intMax diskBytes diskBlocks blockSize at *
        omega)
    obtain ⟨kept, within, turned⟩ := carry_spec carried
    have forth := carry_block carried
    refine ⟨files.set (j + 1) { files[j + 1] with block, offset }, ?_, ⟨?_, ?_, ?_⟩⟩
    · simp only [fillBlockAndOffset, later, if_false, found, added, carried, Option.bind_eq_bind,
        Option.bind_some]
      exact stored block offset
    all_goals rw [entry]
    · dsimp only
      unfold diskBytes diskBlocks blockSize at *
      omega
    · dsimp only
      unfold blockSize at *
      omega
    · exact size

theorem fillFrom_some (fits : i + c ≤ 64) (before : ∀ j, i = j + 1 → Bounded files j)
    (sizes : ∀ k, -1 ≤ (slot files k).size ∧ (slot files k).size ≤ diskBytes) :
    ∃ files', fillFrom files c i = some files' := by
  induction c generalizing files i with
  | zero => exact ⟨files, rfl⟩
  | succ c ih =>
    obtain ⟨between, fill, bounded⟩ := fillBlockAndOffset_some (by omega) before (sizes i)
    obtain ⟨files', filled⟩ := ih (i := i + 1) (by omega)
      (fun j next => by rwa [← Nat.succ.inj next])
      fun k => by rw [((fillBlockAndOffset_frame fill).2 k).1]; exact sizes k
    refine ⟨files', ?_⟩
    rw [fillFrom, fill]
    exact filled

end

section

def rampBlock : Block := Vector.ofFn fun q => UInt8.ofNat q

def rampDisk : Disk :=
  ⟨fun _ => some (Vector.replicate diskBlocks rampBlock), fun _ => true, some nameA⟩

def twoFiles (openFiles : OpenFiles) : FileSys :=
  ⟨openFiles, twoEntries (entry nameA 0 3) (entry nameB 3 1), rampDisk⟩

theorem byteAt_ramp {p : Nat} (inside : p < diskBytes) :
    byteAt (Vector.replicate diskBlocks rampBlock) p = (rampBlock[p % blockSize]?).getD 0 := by
  have block : p / blockSize < diskBlocks := Nat.div_lt_of_lt_mul (by rwa [Nat.mul_comm])
  simp [byteAt, FlatBlocks.flat, block]

theorem byteAt_ramp_data {t : Nat} (ht : t < blockSize) :
    byteAt (Vector.replicate diskBlocks rampBlock) (dataStart * blockSize + t) = UInt8.ofNat t := by
  have room : dataStart < diskBlocks := by decide
  rw [byteAt, FlatBlocks.flat_block room ht]
  simp [rampBlock]

theorem slot_twoEntries (a b : FsMeta) (k : Nat) :
    slot (twoEntries a b) k = if k = 1 then b else if k = 0 then a else FsMeta.zero.fresh := by
  have blank : slot (Vector.replicate 64 FsMeta.zero.fresh) k = FsMeta.zero.fresh := by
    unfold slot
    grind
  rw [twoEntries, slot_set, slot_set, blank]

theorem twoFiles_inside (openFiles : OpenFiles) :
    InsideDisk (twoFiles openFiles) nameA (Vector.replicate diskBlocks rampBlock) 2 := by
  have first : slot (twoFiles openFiles).files 0 = entry nameA 0 3 := slot_twoEntries _ _ 0
  have second : slot (twoFiles openFiles).files 1 = entry nameB 3 1 := slot_twoEntries _ _ 1
  have rest (k : Nat) (hk : 2 ≤ k) : slot (twoFiles openFiles).files k = FsMeta.zero.fresh := by
    rw [show slot (twoFiles openFiles).files k = _ from slot_twoEntries _ _ k, if_neg (by omega),
      if_neg (by omega)]
  have cases (k : Nat) (hk : k < 2) : k = 0 ∨ k = 1 := by omega
  have placed (k : Nat) (hk : k < 2) : Placed (twoFiles openFiles).files k := by
    rcases cases k hk with rfl | rfl
    · exact ⟨by rw [EndToEnd.Abuts, first]; decide, by rw [first]; decide⟩
    · exact ⟨by rw [EndToEnd.Abuts, first, second]; decide, by rw [second]; decide⟩
  have inUse (k : Nat) : 0 ≤ (slot (twoFiles openFiles).files k).size ↔ k < 2 := by
    constructor
    · intro size
      by_contra beyond
      rw [rest k (by omega)] at size
      exact absurd size (by decide)
    · intro hk
      rcases cases k hk with rfl | rfl
      · rw [first]
        decide
      · rw [second]
        decide
  have layout := Layout.of_placed inUse placed
  refine ⟨rfl, rfl, layout, fun k hk => by rw [rest k hk]; rfl, layout.inside fun k hk => ?_⟩
  rcases cases k hk with rfl | rfl
  · rw [first]
    decide +kernel
  · rw [second]
    decide +kernel

end

end LastPicked.FileSystem
