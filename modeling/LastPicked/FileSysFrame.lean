import LastPicked.DiskBytes

/-! What no call touches: the disk keeps everything but the contents of the
file that is open, and the fields of the table stay values of type `int`. -/

namespace LastPicked.FileSystem
open CIntegers CMemory LabelledRuns

variable {fs fs' : FileSys} {files files' : Files} {r : Int}

section
variable {i : Nat} {new1 new2 : Option Block}

theorem deleteFile_disk {hi : i ≤ 63} (h : deleteFile fs i hi new1 new2 = some (r, fs')) :
    shiftBlocks fs.disk (slot fs.files i).block (slot fs.files i).offset
      (slot fs.files i).size new1 new2 = some fs'.disk := by
  obtain ⟨disk, shifted, h⟩ := Option.bind_eq_some_iff.mp h
  obtain ⟨files, -, h⟩ := Option.bind_eq_some_iff.mp h
  cases h
  rw [slot_of_lt (Nat.lt_succ_of_le hi)]
  exact shifted

theorem truncateFile_disk {fildes length : Int} {f : OpenFile} {m : FsMeta}
    (h : truncateFile fs fildes f m length new1 new2 = some (r, fs')) :
    ∃ startBlock startOffset,
      carry blockSize m.block (toInt (m.offset + length)) = some (startBlock, startOffset) ∧
      shiftBlocks fs.disk startBlock startOffset (toInt (length - 1)) new1 new2 =
        some fs'.disk := by
  obtain ⟨⟨startBlock, startOffset⟩, carried, h⟩ := Option.bind_eq_some_iff.mp h
  obtain ⟨disk, shifted, h⟩ := Option.bind_eq_some_iff.mp h
  obtain ⟨files, -, h⟩ := Option.bind_eq_some_iff.mp h
  obtain ⟨files', -, h⟩ := Option.bind_eq_some_iff.mp h
  obtain ⟨openFiles, -, h⟩ := Option.bind_eq_some_iff.mp h
  cases h
  exact ⟨startBlock, startOffset, carried, shifted⟩

end

theorem fsWrite_rewritten {fildes : Int} {data : List UInt8} {new : Option Block}
    (h : fsWrite fs fildes data new = some (r, fs')) : Rewritten fs.disk fs'.disk := by
  obtain ⟨f, -, h⟩ := Option.bind_eq_some_iff.mp h
  obtain ⟨m, -, h⟩ := Option.bind_eq_some_iff.mp h
  obtain ⟨pos, -, h⟩ := Option.bind_eq_some_iff.mp h
  cases new with
  | none =>
    cases h
    exact .same
  | some buffer =>
    obtain ⟨grows, -, h⟩ := Option.bind_eq_some_iff.mp h
    cases grows with
    | true =>
      cases h
      exact .same
    | false =>
      obtain ⟨⟨block, pos'⟩, -, h⟩ := Option.bind_eq_some_iff.mp h
      obtain ⟨⟨disk, count, block', buffer'⟩, loop, h⟩ := Option.bind_eq_some_iff.mp h
      obtain ⟨offset, -, h⟩ := Option.bind_eq_some_iff.mp h
      obtain ⟨openFiles, -, h⟩ := Option.bind_eq_some_iff.mp h
      obtain ⟨files, -, h⟩ := Option.bind_eq_some_iff.mp h
      cases h
      exact (writeLoop_rewritten loop).trans (.blockWrite ..)

theorem Step.rewritten {c : Call} (h : Step fs c fs') : Rewritten fs.disk fs'.disk := by
  obtain ⟨r, h⟩ := h
  cases c with
  | fsOpen name =>
    rcases fsOpen_cases h with ⟨rfl, -⟩ | ⟨k, i, hk, hi, -, -, -, rfl⟩ <;> exact .same
  | fsClose fildes =>
    rcases fsClose_cases h with ⟨rfl, -⟩ | ⟨k, hk, -, -, -, rfl⟩ <;> exact .same
  | fsCreate name =>
    rcases fsCreate_cases h with ⟨rfl, -⟩ | ⟨i, h, -⟩
    · exact .same
    · obtain ⟨files, -, -, -, -, disk, -⟩ := createFile_eq h
      rw [disk]
      exact .same
  | fsDelete name new1 new2 =>
    rcases fsDelete_cases h with ⟨rfl, -⟩ | ⟨i, hi, -, -, h⟩
    · exact .same
    · exact shiftBlocks_rewritten (deleteFile_disk h)
  | fsRead fildes nbyte new =>
    obtain ⟨⟨r, bytes, fs'⟩, h, same⟩ := Option.bind_eq_some_iff.mp h
    cases same
    rcases fsRead_cases h with ⟨rfl, -⟩ | ⟨k, i, hk, -, -, -, -, rfl⟩ <;> exact .same
  | fsWrite fildes data new => exact fsWrite_rewritten h
  | fsGetFilesize fildes =>
    obtain ⟨size, -, same⟩ := Option.map_eq_some_iff.mp h
    cases same
    exact .same
  | fsLseek fildes offset =>
    rcases fsLseek_cases h with ⟨rfl, -⟩ | ⟨k, i, hk, hi, -, -, -, -, rfl⟩ <;> exact .same
  | fsTruncate fildes length new1 new2 =>
    rcases fsTruncate_cases h with ⟨rfl, -⟩ | ⟨k, i, hk, hi, -, -, -, -, h⟩
    · exact .same
    · obtain ⟨startBlock, startOffset, -, shifted⟩ := truncateFile_disk h
      exact shiftBlocks_rewritten shifted

theorem run_rewritten {calls : List Call} (run : Run Step fs calls fs') :
    Rewritten fs.disk fs'.disk :=
  run.invariant (fun t => Rewritten fs.disk t.disk) .same
    fun _ _ _ before step => before.trans step.rewritten

def Ranged (files : Files) : Prop := ∀ k, (slot files k).Ranged

theorem toInt_range (x : Int) : intMin ≤ toInt x ∧ toInt x ≤ intMax := by
  unfold toInt intMin intMax
  exact ⟨Int.le_bmod (by decide), Int.le_of_lt_add_one (Int.bmod_lt (by decide))⟩

theorem ofBytes_range (b₀ b₁ b₂ b₃ : UInt8) :
    intMin ≤ CIntegers.ofBytes b₀ b₁ b₂ b₃ ∧ CIntegers.ofBytes b₀ b₁ b₂ b₃ ≤ intMax :=
  toInt_range _

theorem FsMeta.ofBytes_ranged (b : Fin 28 → UInt8) : (FsMeta.ofBytes b).Ranged := by
  constructor <;> simp only [FsMeta.ofBytes] <;> exact ofBytes_range _ _ _ _

theorem bufferToFiles_ranged (buffer : Block) : Ranged (bufferToFiles buffer) := by
  intro k
  by_cases hk : k < 64
  · rw [slot_of_lt hk, bufferToFiles, Vector.getElem_ofFn]
    exact FsMeta.ofBytes_ranged _
  · simpa [slot, hk] using FsMeta.fresh_ranged _

theorem carryFor_block {last k : Nat} {block pos block' pos' : Int}
    (h : carryFor last k block pos = some (block', pos')) :
    block' = block ∨ intMin ≤ block' ∧ block' ≤ intMax := by
  induction k generalizing block pos with
  | zero =>
    cases h
    exact .inl rfl
  | succ k ih =>
    unfold carryFor at h
    split at h
    case isTrue =>
      obtain ⟨next, more, h⟩ := Option.bind_eq_some_iff.mp h
      rcases ih h with rfl | range
      · exact .inr (addInt_eq_some.mp more).2
      · exact .inr range
    case isFalse =>
      cases h
      exact .inl rfl

theorem fillBlockAndOffset_ranged {i : Int} (ranged : Ranged files)
    (h : fillBlockAndOffset files i = some files') : Ranged files' := by
  have stored (j : Nat) (hj : j < 64) {block offset : Int} (first : intMin ≤ block ∧ block ≤ intMax)
      (second : intMin ≤ offset ∧ offset ≤ intMax) :
      Ranged (files.set j { files[j] with block, offset }) := by
    intro k
    rw [slot_set]
    split
    case isTrue =>
      have size := (ranged j).size
      rw [slot_of_lt hj] at size
      exact ⟨first, second, size⟩
    case isFalse => exact ranged k
  unfold fillBlockAndOffset at h
  split at h
  case isTrue =>
    obtain ⟨j, hj, -, rfl⟩ := modify_eq_some.mp h
    exact stored j hj (by decide) (by decide)
  case isFalse =>
    obtain ⟨before, found, h⟩ := Option.bind_eq_some_iff.mp h
    obtain ⟨behind, added, h⟩ := Option.bind_eq_some_iff.mp h
    obtain ⟨⟨block, offset⟩, carried, h⟩ := Option.bind_eq_some_iff.mp h
    obtain ⟨j, hj, -, rfl⟩ := modify_eq_some.mp h
    obtain ⟨p, hp, -, rfl⟩ := load_eq_some.mp found
    have range := ranged p
    rw [slot_of_lt hp] at range
    have sum : intMin ≤ behind ∧ behind ≤ intMax := by
      unfold offsetBehind at added
      split at added
      case isTrue =>
        cases added
        exact range.offset
      case isFalse => exact (addInt_eq_some.mp added).2
    refine stored j hj ?_ ?_
    · rcases carryFor_block carried with rfl | inside
      · exact range.block
      · exact inside
    · obtain ⟨-, high, turned⟩ := carry_spec carried
      unfold intMin intMax blockSize at *
      omega

theorem fillFrom_ranged {k : Nat} {i : Int} (ranged : Ranged files)
    (h : fillFrom files k i = some files') : Ranged files' := by
  induction k generalizing files i with
  | zero =>
    cases h
    exact ranged
  | succ k ih =>
    obtain ⟨between, fill, h⟩ := Option.bind_eq_some_iff.mp h
    exact ih (fillBlockAndOffset_ranged ranged fill) h

theorem Ranged.set_size (ranged : Ranged files) {i : Nat} (hi : i < 64) {size : Int}
    (range : intMin ≤ size ∧ size ≤ intMax) : Ranged (files.set i { files[i] with size }) := by
  intro k
  rw [slot_set]
  split
  case isTrue =>
    have before := ranged i
    rw [slot_of_lt hi] at before
    exact ⟨before.block, before.offset, range⟩
  case isFalse => exact ranged k

theorem Ranged.step (ranged : Ranged fs.files) {c : Call} (h : Step fs c fs') :
    Ranged fs'.files := by
  obtain ⟨r, h⟩ := h
  have minusOne : intMin ≤ -1 ∧ -1 ≤ intMax := by decide
  cases c with
  | fsOpen name =>
    rcases fsOpen_cases h with ⟨rfl, -⟩ | ⟨k, i, hk, hi, -, -, -, rfl⟩ <;> exact ranged
  | fsClose fildes =>
    rcases fsClose_cases h with ⟨rfl, -⟩ | ⟨k, hk, -, -, -, rfl⟩ <;> exact ranged
  | fsCreate name =>
    rcases fsCreate_cases h with ⟨rfl, -⟩ | ⟨i, h, -⟩
    · exact ranged
    · obtain ⟨files, -, -, fill, -, -, entries⟩ := createFile_eq h
      have filled := fillBlockAndOffset_ranged ranged fill
      intro k
      rw [entries]
      split
      case isTrue =>
        exact ⟨(filled i).block, (filled i).offset, (by decide : intMin ≤ 0 ∧ 0 ≤ intMax)⟩
      case isFalse =>
        split
        case isTrue => exact ⟨(filled (i + 1)).block, (filled (i + 1)).offset, minusOne⟩
        case isFalse => exact filled k
  | fsDelete name new1 new2 =>
    rcases fsDelete_cases h with ⟨rfl, -⟩ | ⟨i, hi, -, -, h⟩
    · exact ranged
    · obtain ⟨files, -, moved, filled, -⟩ := deleteFile_eq h
      refine fillFrom_ranged (fun k => ?_) filled
      rw [moved, closeGap]
      split
      case isTrue => exact ranged k
      case isFalse =>
        split
        case isTrue => exact ⟨(ranged 63).block, (ranged 63).offset, minusOne⟩
        case isFalse => exact ranged (k + 1)
  | fsRead fildes nbyte new =>
    obtain ⟨⟨r, bytes, fs'⟩, h, same⟩ := Option.bind_eq_some_iff.mp h
    cases same
    rcases fsRead_cases h with ⟨rfl, -⟩ | ⟨k, i, hk, -, -, -, -, rfl⟩ <;> exact ranged
  | fsWrite fildes data new =>
    rcases fsWrite_cases h with ⟨rfl, -⟩ | ⟨k, i, hk, hi, -, -, -, -, high, -, files⟩
    · exact ranged
    · have range := (ranged i).size
      rw [slot_of_lt hi] at range
      rw [files]
      exact ranged.set_size hi (by omega)
  | fsGetFilesize fildes =>
    obtain ⟨size, -, same⟩ := Option.map_eq_some_iff.mp h
    cases same
    exact ranged
  | fsLseek fildes offset =>
    rcases fsLseek_cases h with ⟨rfl, -⟩ | ⟨k, i, hk, hi, -, -, -, -, rfl⟩ <;> exact ranged
  | fsTruncate fildes length new1 new2 =>
    rcases fsTruncate_cases h with ⟨rfl, -⟩ | ⟨k, i, hk, hi, -, number, -, -, h⟩
    · exact ranged
    · obtain ⟨-, filled, -⟩ := truncateFile_eq number h
      exact fillFrom_ranged (ranged.set_size hi (toInt_range _)) filled

theorem Ranged.run (ranged : Ranged fs.files) {calls : List Call} (run : Run Step fs calls fs') :
    Ranged fs'.files :=
  run.invariant (fun t => Ranged t.files) ranged fun _ _ _ before step => before.step step

end LastPicked.FileSystem
