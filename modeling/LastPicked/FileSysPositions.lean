import LastPicked.FileSysNames
import LastPicked.ShiftRange

/-! The blocks and offsets in the table, in every session. They are small, so an
`int` only overflows where an offset and the size of a file are added. -/

namespace LastPicked.FileSystem
open CIntegers CMemory LabelledRuns

variable {fs fs' mounted : FileSys} {files files' : Files} {d : CString} {n i c : Nat} {r : Int}

def FsMeta.length (m : FsMeta) : Int := if m.size = -1 then 0 else m.size

/-- Where in a block `fillBlockAndOffset` puts what comes `pos` bytes behind the
start of another one. -/
def inBlock (pos : Int) : Int := if pos ≤ blockSize then pos else (pos - 1) % blockSize + 1

theorem inBlock_range {pos : Int} (nonneg : 0 ≤ pos) :
    0 ≤ inBlock pos ∧ inBlock pos ≤ blockSize := by
  unfold inBlock blockSize
  split <;> omega

theorem carry_inBlock {block pos block' pos' : Int}
    (h : carry blockSize block pos = some (block', pos')) :
    pos' = inBlock pos := by
  unfold inBlock
  split
  case isTrue inside =>
    rw [carry_of_le inside] at h
    cases h
    rfl
  case isFalse beyond =>
    obtain ⟨kept, high, turned⟩ := carry_spec h
    unfold blockSize at *
    omega

structure Positioned (files : Files) (k : Nat) : Prop where
  block : 0 ≤ (slot files k).block ∧ (slot files k).block ≤ dataStart + k * 2 ^ 20
  offset : 0 ≤ (slot files k).offset ∧ (slot files k).offset ≤ blockSize

theorem Positioned.congr {k : Nat} (positioned : Positioned files k)
    (block : (slot files' k).block = (slot files k).block)
    (offset : (slot files' k).offset = (slot files k).offset) : Positioned files' k :=
  ⟨by rw [block]; exact positioned.block, by rw [offset]; exact positioned.offset⟩

theorem positioned_of_ge (files : Files) {k : Nat} (outside : 64 ≤ k) : Positioned files k := by
  have blank : slot files k = FsMeta.zero.fresh := by simp [slot, Nat.not_lt.mpr outside]
  have first : (0 : Int) ≤ dataStart + k * 2 ^ 20 := by positivity
  refine ⟨?_, ?_⟩ <;> rw [blank]
  · exact ⟨Int.le_refl 0, first⟩
  · exact ⟨Int.le_refl 0, Int.natCast_nonneg _⟩

theorem offsetBehind_of_le {m : FsMeta} (low : 0 ≤ m.offset) (least : -1 ≤ m.size)
    (small : m.offset + m.length ≤ intMax) : offsetBehind m = some (m.offset + m.length) := by
  unfold offsetBehind
  unfold FsMeta.length at small ⊢
  split
  case isTrue => rw [Int.add_zero]
  case isFalse used =>
    rw [if_neg used] at small
    exact addInt_eq_some.mpr ⟨rfl, by unfold intMin; omega, small⟩

theorem offsetBehind_range {m : FsMeta} {sum : Int} (high : m.offset ≤ blockSize)
    (h : offsetBehind m = some sum) : m.offset + m.length ≤ intMax := by
  have same := offsetBehind_eq h
  unfold offsetBehind at h
  unfold FsMeta.length
  split at h
  case isTrue unused =>
    rw [if_pos unused, Int.add_zero]
    exact high.trans (by decide)
  case isFalse =>
    rw [← same]
    exact (addInt_eq_some.mp h).2.2

/-- The slot behind one is filled unless the end of its file is not an `int`. -/
theorem fillBlockAndOffset_next (hi : i + 1 < 64) (positioned : Positioned files i)
    (least : -1 ≤ (slot files i).size)
    (small : (slot files i).offset + (slot files i).length ≤ intMax) :
    ∃ files', fillBlockAndOffset files (i + 1 : Nat) = some files' ∧ Positioned files' (i + 1) ∧
      (slot files' (i + 1)).offset = inBlock ((slot files i).offset + (slot files i).length) := by
  obtain ⟨⟨low, high⟩, first, last⟩ := positioned
  have bytes : 0 ≤ (slot files i).length := by
    unfold FsMeta.length
    split <;> omega
  have behind := offsetBehind_of_le first least small
  obtain ⟨block, offset, carried⟩ := @carry_within blockSize (Nat.sub_le _ _)
    (slot files i).block ((slot files i).offset + (slot files i).length)
        (by unfold intMin; omega) (by
      unfold intMax dataStart diskBlocks blockSize at *
      omega)
  have place := carry_inBlock carried
  have forth := carry_block carried
  obtain ⟨kept, within, turned⟩ := carry_spec carried
  have range := inBlock_range (Int.add_nonneg first bytes)
  rw [slot_of_lt (by omega)] at behind carried
  have later : ((i + 1 : Nat) : Int) ≠ 0 := by omega
  have found : load files (((i + 1 : Nat) : Int) - 1) = some files[i] :=
    load_eq_some.mpr ⟨i, by omega, by omega, rfl⟩
  have entry := slot_set files (i + 1) hi { files[i + 1] with block, offset } (i + 1)
  rw [if_pos rfl] at entry
  refine ⟨files.set (i + 1) { files[i + 1] with block, offset }, ?_, ⟨?_, ?_⟩, ?_⟩
  · simp only [fillBlockAndOffset, later, if_false, found, behind, carried, Option.bind_eq_bind,
      Option.bind_some]
    exact modify_of_lt files hi _
  all_goals rw [entry]
  · dsimp only
    unfold intMax dataStart diskBlocks blockSize at *
    omega
  · dsimp only
    rw [place]
    exact range
  · exact place

theorem fillBlockAndOffset_small (hi : i < 64) (high : (slot files i).offset ≤ blockSize)
    (h : fillBlockAndOffset files (i + 1 : Nat) = some files') :
    (slot files i).offset + (slot files i).length ≤ intMax := by
  have later : ((i + 1 : Nat) : Int) ≠ 0 := by omega
  rw [fillBlockAndOffset, if_neg later] at h
  obtain ⟨p, found, h⟩ := Option.bind_eq_some_iff.mp h
  obtain ⟨sum, added, -⟩ := Option.bind_eq_some_iff.mp h
  obtain ⟨j, hj, same, rfl⟩ := load_eq_some.mp found
  obtain rfl : i = j := by omega
  rw [slot_of_lt hi] at high ⊢
  exact offsetBehind_range high added

theorem fillBlockAndOffset_zero (files : Files) :
    ∃ files', fillBlockAndOffset files 0 = some files' ∧
    Positioned files' 0 ∧ (slot files' 0).offset = 0 := by
  have first : (0 : Int) < 64 := by decide
  have entry := slot_set files 0 (by decide) { files[0] with block := dataStart, offset := 0 } 0
  rw [if_pos rfl] at entry
  refine ⟨_, (if_pos rfl).trans (modify_of_lt files (show 0 < 64 by decide) _), ⟨?_, ?_⟩, ?_⟩ <;>
    rw [entry]
  · exact (by decide : (0 : Int) ≤ dataStart ∧ (dataStart : Int) ≤ dataStart + (0 : Nat) * 2 ^ 20)
  · exact (by decide : (0 : Int) ≤ 0 ∧ (0 : Int) ≤ blockSize)

theorem fillBlockAndOffset_positioned (h : fillBlockAndOffset files i = some files')
    (before : ∀ j, i = j + 1 → Positioned files j ∧ -1 ≤ (slot files j).size) :
    Positioned files' i := by
  cases i with
  | zero =>
    obtain ⟨filled, same, positioned, -⟩ := fillBlockAndOffset_zero files
    obtain rfl := Option.some.inj (same.symm.trans h)
    exact positioned
  | succ j =>
    obtain ⟨-, -, hi, -⟩ := fillBlockAndOffset_eq h
    obtain ⟨positioned, least⟩ := before j rfl
    have small := fillBlockAndOffset_small (by omega) positioned.offset.2 h
    obtain ⟨filled, same, positioned', -⟩ := fillBlockAndOffset_next hi positioned least small
    obtain rfl := Option.some.inj (same.symm.trans h)
    exact positioned'

theorem fillFrom_positioned (h : fillFrom files c i = some files')
    (least : ∀ k, -1 ≤ (slot files k).size)
    (outside : ∀ k, k < i ∨ i + c ≤ k → Positioned files k) (k : Nat) : Positioned files' k := by
  induction c generalizing files i with
  | zero =>
    cases h
    exact outside k (by omega)
  | succ c ih =>
    obtain ⟨between, fill, h⟩ := Option.bind_eq_some_iff.mp h
    have here := fillBlockAndOffset_positioned fill fun j next => ⟨outside j (by omega), least j⟩
    obtain ⟨same, sizes⟩ := fillBlockAndOffset_frame fill
    refine ih (i := i + 1) h (fun k => (least k).trans_eq (sizes k).1.symm) fun k away => ?_
    by_cases this : k = i
    · subst this
      exact here
    · exact (outside k (by omega)).congr (by rw [same k this]) (by rw [same k this])

/-- Files behind one another that all end in the range of `int`, each counted from
the block it starts in. -/
def EndsInRange : (offset : Int) → List Int → Prop
  | _, [] => True
  | offset, length :: rest =>
      offset + length ≤ intMax ∧ EndsInRange (inBlock (offset + length)) rest

theorem EndsInRange.zeros {offset : Int} {rest : List Int} (within : offset ≤ blockSize)
    (zero : ∀ length ∈ rest, length = 0) : EndsInRange offset rest := by
  induction rest with
  | nil => trivial
  | cons length rest ih =>
    obtain rfl := zero length List.mem_cons_self
    have small : offset + 0 ≤ intMax := (Int.add_zero offset).trans_le (within.trans (by decide))
    rw [EndsInRange, inBlock, Int.add_zero, if_pos within]
    exact ⟨by simpa using small, ih fun length there => zero length (List.mem_cons_of_mem _ there)⟩

def lengths (files : Files) (i c : Nat) : List Int :=
  (List.range' i c).map fun k => (slot files k).length

theorem lengths_congr
    (same : ∀ k, i ≤ k → k < i + c → (slot files' k).length = (slot files k).length) :
    lengths files' i c = lengths files i c := by
  refine List.map_congr_left fun k hk => ?_
  obtain ⟨low, high⟩ := List.mem_range'_1.mp hk
  exact same k low high

theorem fillFrom_isSome_iff (fits : i + 1 + c ≤ 64) (positioned : Positioned files i)
    (least : ∀ k, -1 ≤ (slot files k).size) :
    (∃ files', fillFrom files c (i + 1 : Nat) = some files') ↔
      EndsInRange (slot files i).offset (lengths files i c) := by
  induction c generalizing files i with
  | zero => exact iff_of_true ⟨files, rfl⟩ trivial
  | succ c ih =>
    rw [lengths, List.range'_succ, List.map_cons, EndsInRange]
    by_cases small : (slot files i).offset + (slot files i).length ≤ intMax
    · obtain ⟨between, fill, next, offset⟩ :=
        fillBlockAndOffset_next (by omega) positioned (least i) small
      have sizes := (fillBlockAndOffset_frame fill).2
      have sized (k : Nat) : (slot between k).length = (slot files k).length := by
        unfold FsMeta.length
        rw [(sizes k).1]
      have rest := @ih between (i + 1) (by omega) next fun k => (least k).trans_eq (sizes k).1.symm
      rw [offset, lengths_congr fun k _ _ => sized k] at rest
      have turn : fillFrom files (c + 1) (i + 1 : Nat) = fillFrom between c (i + 1 + 1 : Nat) := by
        rw [fillFrom, fill]
        rfl
      rw [turn, and_iff_right small]
      exact rest
    · refine iff_of_false ?_ fun both => small both.1
      rintro ⟨files', filled⟩
      obtain ⟨between, fill, -⟩ := Option.bind_eq_some_iff.mp filled
      exact small (fillBlockAndOffset_small (by omega) positioned.offset.2 fill)

theorem fillFrom_zero_isSome_iff (fits : c + 1 ≤ 64) (least : ∀ k, -1 ≤ (slot files k).size) :
    (∃ files', fillFrom files (c + 1) 0 = some files') ↔ EndsInRange 0 (lengths files 0 c) := by
  obtain ⟨between, fill, first, offset⟩ := fillBlockAndOffset_zero files
  have sizes := (fillBlockAndOffset_frame (i := 0) fill).2
  have sized (k : Nat) : (slot between k).length = (slot files k).length := by
    unfold FsMeta.length
    rw [(sizes k).1]
  have rest :=
    @fillFrom_isSome_iff between 0 c (by omega) first fun k => (least k).trans_eq (sizes k).1.symm
  rw [offset, lengths_congr fun k _ _ => sized k] at rest
  rw [fillFrom, fill]
  exact rest

structure Filed (files : Files) : Prop where
  terminated : ∀ k, 0 ∈ (slot files k).fileName.toList
  positioned : ∀ k, Positioned files k

theorem Listed.least (listed : Listed files n) (k : Nat) : -1 ≤ (slot files k).size := by
  rcases Nat.lt_or_ge k n with inside | beyond
  · exact (Int.le_trans (by decide) (listed.used k inside))
  · exact (listed.free k beyond).size.symm.le

/-- The files behind slot `i` end in range when they move up to the file in front
of it. -/
def MovesUp (files : Files) : (i : Nat) → Prop
  | 0 => EndsInRange 0 (lengths files 1 63)
  | j + 1 => EndsInRange (slot files j).offset
      ((slot files j).length :: lengths files (j + 2) (62 - j))

theorem lengths_closeGap {between : Files} (moved : ∀ k, slot between k = closeGap files i k)
    {j : Nat} (behind : i ≤ j) (fits : j + c ≤ 63) :
    lengths between j c = lengths files (j + 1) c := by
  refine List.ext_getElem (by simp [lengths]) fun k hk _ => ?_
  have inside : k < c := by simpa [lengths] using hk
  have entry : slot between (j + k) = slot files (j + 1 + k) := by
    rw [moved, closeGap, if_neg (by omega), if_neg (by omega)]
    congr 1
    omega
  simp [lengths, entry]

theorem Filed.movesUp_iff (filed : Filed files) (listed : Listed files n) (hi : i < n)
    {between : Files} (moved : ∀ k, slot between k = closeGap files i k) :
    (∃ files', fillFrom between (64 - i) i = some files') ↔ MovesUp files i := by
  have room := listed.room
  have least (k : Nat) : -1 ≤ (slot between k).size := by
    rw [moved, closeGap]
    split
    case isTrue => exact listed.least k
    case isFalse =>
      split
      case isTrue => exact Int.le_refl _
      case isFalse => exact listed.least (k + 1)
  cases i with
  | zero =>
    rw [MovesUp, ← lengths_closeGap moved (Nat.le_refl 0) (by decide)]
    exact fillFrom_zero_isSome_iff (by decide) least
  | succ j =>
    have before : slot between j = slot files j := by
      rw [moved, closeGap, if_pos (Nat.lt_succ_self j)]
    have positioned : Positioned between j :=
      (filed.positioned j).congr (by rw [before]) (by rw [before])
    have count : 64 - (j + 1) = (62 - j) + 1 := by omega
    rw [MovesUp, ← lengths_closeGap moved (Nat.le_refl (j + 1)) (by omega), count,
      fillFrom_isSome_iff (by omega) positioned least, lengths, List.range'_succ,
      List.map_cons, before]
    rfl

theorem Filed.deleteFile_isSome_iff (filed : Filed fs.files) (listed : Listed fs.files n)
    (hi : i < n) (room : i ≤ 63) (new1 new2 : Option Block) :
    (∃ fs', deleteFile fs i room new1 new2 = some (0, fs')) ↔
      ((slot fs.files i).size = 0 ∨ (slot fs.files i).offset + (slot fs.files i).size ≤ intMax) ∧
        MovesUp fs.files i := by
  obtain ⟨⟨low, high⟩, within⟩ := filed.positioned i
  have blocks : (slot fs.files i).block ≤ 2 ^ 30 := by
    unfold dataStart diskBlocks at high
    omega
  have shifts := shiftBlocks_isSome_iff fs.disk ⟨low, blocks⟩ within (listed.used i hi) new1 new2
  have fills := filed.movesUp_iff listed hi
    (slot_gapClosed fs.files (show i + (63 - i) = 63 by omega) (by decide))
  rw [slot_of_lt (by omega)] at shifts ⊢
  rw [← shifts, ← fills]
  constructor
  · rintro ⟨fs', done⟩
    obtain ⟨disk, shifted, rest⟩ := Option.bind_eq_some_iff.mp done
    obtain ⟨files, filled, -⟩ := Option.bind_eq_some_iff.mp rest
    exact ⟨⟨disk, shifted⟩, files, filled⟩
  · rintro ⟨⟨disk, shifted⟩, files, filled⟩
    let openFiles := fs.openFiles.map fun f =>
      if (i : Int) < f.fileNum then { f with fileNum := f.fileNum - 1 } else f
    refine ⟨⟨openFiles, files, disk⟩, ?_⟩
    simp only [deleteFile, shifted, filled, Option.bind_eq_bind, Option.bind_some, openFiles]

namespace Filed

theorem of_same (filed : Filed files) (same : ∀ k, (slot files' k).block = (slot files k).block ∧
    (slot files' k).offset = (slot files k).offset ∧
    (slot files' k).fileName = (slot files k).fileName) :
    Filed files' where
  terminated k := by
    rw [(same k).2.2]
    exact filed.terminated k
  positioned k := (filed.positioned k).congr (same k).1 (same k).2.1

theorem set_size (filed : Filed files) (hi : i < 64) (size : Int) :
    Filed (files.set i { files[i] with size }) := by
  refine filed.of_same fun k => ?_
  rw [slot_set]
  split
  case isTrue here =>
    subst here
    rw [slot_of_lt hi]
    exact ⟨rfl, rfl, rfl⟩
  case isFalse => exact ⟨rfl, rfl, rfl⟩

theorem fill (least : ∀ k, -1 ≤ (slot files k).size)
    (terminated : ∀ k, 0 ∈ (slot files k).fileName.toList)
    (outside : ∀ k, k < i ∨ i + c ≤ k → Positioned files k) (h : fillFrom files c i = some files') :
    Filed files' where
  terminated k := by
    rw [(fillFrom_frame h k).2]
    exact terminated k
  positioned := fillFrom_positioned h least outside

theorem create (filed : Filed fs.files) (listed : Listed fs.files n) {name : CString}
    (h : fsCreate fs name = some (r, fs')) : Filed fs'.files := by
  rcases listed.create h with ⟨rfl, -⟩ | ⟨files, done, -, fill, -, -, -, entries, -⟩
  · exact filed
  · have short := (fsCreate_absent h (by omega)).1
    have placed :=
      fillBlockAndOffset_positioned fill fun j next => ⟨filed.positioned j, listed.least j⟩
    have here := entries n
    rw [if_pos rfl] at here
    refine ⟨fun k => ?_, fun k => ?_⟩ <;> by_cases new : k = n
    · subst new
      rw [here]
      exact (FsMeta.setName_string _ short).2
    · rw [entries, if_neg new]
      exact filed.terminated k
    · subst new
      exact placed.congr (by rw [here, FsMeta.setName_block]) (by rw [here, FsMeta.setName_offset])
    · exact (filed.positioned k).congr (by rw [entries, if_neg new]) (by rw [entries, if_neg new])

theorem delete (filed : Filed fs.files) (listed : Listed fs.files n) {room : i ≤ 63}
    {new1 new2 : Option Block} (h : deleteFile fs i room new1 new2 = some (r, fs')) :
    Filed fs'.files := by
  obtain ⟨files, -, moved, filled, -⟩ := deleteFile_eq h
  refine Filed.fill (fun k => ?_) (fun k => ?_) (fun k away => ?_) filled
  · rw [moved, closeGap]
    split
    case isTrue => exact listed.least k
    case isFalse =>
      split
      case isTrue => exact Int.le_refl _
      case isFalse => exact listed.least (k + 1)
  · rw [moved, closeGap]
    split
    case isTrue => exact filed.terminated k
    case isFalse =>
      split
      case isTrue => exact List.mem_of_mem_head? (FsMeta.clearName_head _)
      case isFalse => exact filed.terminated (k + 1)
  · rcases away with before | beyond
    · have same : slot files k = slot fs.files k := by rw [moved, closeGap, if_pos before]
      exact (filed.positioned k).congr (by rw [same]) (by rw [same])
    · exact positioned_of_ge files (by omega)

theorem truncate (filed : Filed fs.files) (listed : Listed fs.files n) {fildes length : Int}
    {new1 new2 : Option Block} (h : fsTruncate fs fildes length new1 new2 = some (r, fs')) :
    Filed fs'.files := by
  rcases fsTruncate_cases h with ⟨rfl, -⟩ | ⟨k, i, hk, hi, rfl, number, low, high, cut⟩
  · exact filed
  · rw [← slot_of_lt hi] at high
    have inside := listed.lt_of_size (show (slot fs.files i).size ≠ -1 by omega)
    have sized := listed.sized i inside
    obtain ⟨-, filled, -⟩ := truncateFile_eq number cut
    rw [toInt_of_range (show intMin ≤ length by unfold intMin; omega) (by omega)] at filled
    have set := filed.set_size hi length
    have listed' := listed.set_size hi inside.le (fun _ => low) (high.trans sized) (by omega)
    exact fill listed'.least set.terminated (fun k _ => set.positioned k) filled

theorem step (filed : Filed fs.files) (listed : Listed fs.files n) {c : Call} (h : Step fs c fs') :
    Filed fs'.files := by
  obtain ⟨r, h⟩ := h
  cases c with
  | fsOpen name =>
    rcases fsOpen_cases h with ⟨rfl, -⟩ | ⟨k, i, hk, hi, -, -, -, rfl⟩ <;> exact filed
  | fsClose fildes =>
    rcases fsClose_cases h with ⟨rfl, -⟩ | ⟨k, hk, -, -, -, rfl⟩ <;> exact filed
  | fsCreate name => exact filed.create listed h
  | fsDelete name new1 new2 =>
    rcases fsDelete_cases h with ⟨rfl, -⟩ | ⟨i, hi, -, -, h⟩
    · exact filed
    · exact filed.delete listed h
  | fsRead fildes nbyte new =>
    obtain ⟨⟨r, bytes, fs'⟩, h, same⟩ := Option.bind_eq_some_iff.mp h
    cases same
    rcases fsRead_cases h with ⟨rfl, -⟩ | ⟨k, i, hk, -, -, -, -, rfl⟩ <;> exact filed
  | fsWrite fildes data new =>
    rcases fsWrite_cases h with ⟨rfl, -⟩ | ⟨k, i, hk, hi, -, -, -, -, -, -, files⟩
    · exact filed
    · rw [files]
      exact filed.set_size hi _
  | fsGetFilesize fildes =>
    obtain ⟨size, -, same⟩ := Option.map_eq_some_iff.mp h
    cases same
    exact filed
  | fsLseek fildes offset =>
    rcases fsLseek_cases h with ⟨rfl, -⟩ | ⟨k, i, hk, hi, -, -, -, -, rfl⟩ <;> exact filed
  | fsTruncate fildes length new1 new2 => exact filed.truncate listed h

end Filed

theorem filed_zero : Filed (Vector.replicate 64 FsMeta.zero) := by
  have entry (k : Nat) (hk : k < 64) :
    slot (Vector.replicate 64 FsMeta.zero) k = FsMeta.zero := by simp [hk]
  refine ⟨fun k => ?_, fun k => ?_⟩ <;> rcases Nat.lt_or_ge k 64 with inside | beyond
  · rw [entry k inside]
    decide
  · exact (slot_of_ge beyond).terminated
  · have first : (0 : Int) ≤ dataStart + k * 2 ^ 20 := by positivity
    refine ⟨?_, ?_⟩ <;> rw [entry k inside]
    · exact ⟨Int.le_refl 0, first⟩
    · exact ⟨Int.le_refl 0, Int.natCast_nonneg _⟩
  · exact positioned_of_ge _ beyond

theorem Mounted.filed (h : Mounted fs) : Filed fs.files := by
  have empty := h.tabled.listed
  obtain ⟨closed, make, mount⟩ := h
  obtain ⟨⟨files, fresh⟩, -⟩ := mounted_fresh closed make mount
  refine ⟨fun k => (empty.free k (Nat.zero_le k)).terminated, fun k => ?_⟩
  rcases Nat.lt_or_ge k 64 with inside | beyond
  · have entry : slot fs.files k = files[k].fresh := by simp [fresh, inside]
    have first : (0 : Int) ≤ dataStart + k * 2 ^ 20 := by positivity
    refine ⟨?_, ?_⟩ <;> rw [entry]
    · exact ⟨Int.le_refl 0, first⟩
    · exact ⟨Int.le_refl 0, Int.natCast_nonneg _⟩
  · exact positioned_of_ge _ beyond

theorem session_filed {ops : List Op} (start : Mounted mounted)
    (disk : mounted.disk.handle = some d) (run : Run (OpStep d) mounted ops fs) :
    ∃ n, Tabled fs n ∧ Filed fs.files := by
  let Good (files : Files) : Prop := (∃ n, Listed files n) ∧ Filed files
  let Live (s : FileSys) : Prop := ∃ n, Tabled s n ∧ Filed s.files
  have kept := run.invariant (fun s => KeepsDisk d Good s ∧ Live s)
    ⟨start.keepsDisk disk, 0, start.tabled, start.filed⟩
    fun s op t ⟨disk, n, tabled, filed⟩ step => by
      refine ⟨disk.step (fun _ => ⟨⟨n, tabled.listed⟩, filed⟩) step,
        disk.live Live ⟨n, tabled, filed⟩ ?_ ?_ ?_ ?_ step⟩
      · rintro openFiles files disk ⟨⟨n, listed⟩, filed⟩
        exact ⟨n, ⟨listed, fun k hk => .inl (by simp [closeAll])⟩, filed⟩
      · exact fun openFiles disk _ =>
          ⟨64, ⟨listed_zero, fun k hk => .inl (by simp [closeAll])⟩, filed_zero⟩
      · intro c _ step
        obtain ⟨m, tabled'⟩ := tabled.step step
        exact ⟨m, tabled', filed.step tabled.listed step⟩
      · exact fun _ _ => ⟨n, ⟨tabled.listed, tabled.opened⟩, filed⟩
  exact kept.2

end LastPicked.FileSystem
