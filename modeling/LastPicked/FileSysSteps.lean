import LastPicked.FileSysSlots

/-! What each operation of myfilesys.c can do to the two tables, one lemma
for each: it leaves the state as it is, or it found what it needs and changed
just this. -/

namespace LastPicked.FileSystem
open CIntegers CMemory

variable {fs fs' : FileSys} {r : Int}

theorem fsOpen_found {name : CString} (h : fsOpen fs name = some (r, fs')) :
    fs' = fs ∧ r = -1 ∨
      ∃ (k i : Nat) (hk : k < 32), i < 64 ∧ r = k ∧ fs.openFiles[k].fileNum = -1 ∧
        firstIndex (FsMeta.named name) fs.files.toList = some i ∧
        fs' = { fs with openFiles := fs.openFiles.set k ⟨i, 0⟩ } := by
  unfold fsOpen at h
  split at h
  case isTrue => grind
  dsimp only at h
  split at h
  case isTrue => grind
  obtain ⟨i, found, h⟩ := Option.bind_eq_some_iff.mp h
  split at h
  case isTrue => grind
  rename_i free there
  obtain ⟨openFiles, stored, h⟩ := Option.bind_eq_some_iff.mp h
  cases h
  obtain ⟨k, hk, same, rfl⟩ := store_eq_some.mp stored
  have some_free : fs.openFiles.toList.findIdx (fun f => f.fileNum = -1) <
      fs.openFiles.toList.length := by simpa [Int.ofNat_inj.mp same] using hk
  have unused := List.findIdx_getElem (w := some_free)
  have inside : i < 64 := by
    have bound := firstIndex_le found
    simp at bound
    omega
  refine .inr ⟨k, i, hk, inside, same, ?_, found, rfl⟩
  simpa [Int.ofNat_inj.mp same] using unused

theorem fsOpen_cases {name : CString} (h : fsOpen fs name = some (r, fs')) :
    fs' = fs ∧ r = -1 ∨
      ∃ (k i : Nat) (hk : k < 32) (hi : i < 64), r = k ∧ fs.openFiles[k].fileNum = -1 ∧
        fs.files[i].named name = some true ∧
        fs' = { fs with openFiles := fs.openFiles.set k ⟨i, 0⟩ } := by
  rcases fsOpen_found h with same | ⟨k, i, hk, hi, same, closed, found, rfl⟩
  · exact .inl same
  · have named := firstIndex_holds found (by simpa using hi)
    exact .inr ⟨k, i, hk, hi, same, closed, by simpa using named, rfl⟩

theorem fsClose_cases {fildes : Int} (h : fsClose fs fildes = some (r, fs')) :
    fs' = fs ∧ r = -1 ∨
      ∃ (k : Nat) (hk : k < 32), fildes = k ∧ r = 0 ∧ fs.openFiles[k].fileNum ≠ -1 ∧
        fs' =
          { fs with openFiles := fs.openFiles.set k { fs.openFiles[k] with fileNum := -1 } } := by
  obtain ⟨f, found, h⟩ := Option.bind_eq_some_iff.mp h
  obtain ⟨k, hk, rfl, rfl⟩ := load_eq_some.mp found
  split at h
  case isTrue => grind
  case isFalse opened =>
    obtain ⟨openFiles, stored, h⟩ := Option.bind_eq_some_iff.mp h
    cases h
    obtain ⟨k', hk', same, rfl⟩ := store_eq_some.mp stored
    obtain rfl : k = k' := Int.ofNat_inj.mp same
    exact .inr ⟨k, hk, rfl, rfl, opened, rfl⟩

theorem fsLseek_cases {fildes offset : Int} (h : fsLseek fs fildes offset = some (r, fs')) :
    fs' = fs ∧ r = -1 ∨
      ∃ (k i : Nat) (hk : k < 32) (hi : i < 64), fildes = k ∧ r = 0 ∧
        fs.openFiles[k].fileNum = i ∧ offset ≤ fs.files[i].size ∧
        fs' = { fs with
          openFiles := fs.openFiles.set k { fs.openFiles[k] with offset := toInt offset } } := by
  obtain ⟨f, found, h⟩ := Option.bind_eq_some_iff.mp h
  obtain ⟨k, hk, rfl, rfl⟩ := load_eq_some.mp found
  split at h
  case isTrue => grind
  obtain ⟨m, file, h⟩ := Option.bind_eq_some_iff.mp h
  obtain ⟨i, hi, number, rfl⟩ := load_eq_some.mp file
  split at h
  case isTrue => grind
  case isFalse small =>
    obtain ⟨openFiles, stored, h⟩ := Option.bind_eq_some_iff.mp h
    cases h
    obtain ⟨k', hk', same, rfl⟩ := store_eq_some.mp stored
    obtain rfl : k = k' := Int.ofNat_inj.mp same
    exact .inr ⟨k, i, hk, hi, rfl, rfl, number, Int.not_lt.mp small, rfl⟩

theorem fsRead_cases {fildes : Int} {nbyte : Nat} {new : Option Block} {bytes : List UInt8}
    (h : fsRead fs fildes nbyte new = some (r, bytes, fs')) :
    fs' = fs ∧ r = -1 ∧ bytes = [] ∨
      ∃ (k i : Nat) (hk : k < 32), fildes = k ∧ r = bytes.length ∧
        fs.openFiles[k].fileNum = i ∧ i < 64 ∧
        fs' = { fs with
          openFiles := fs.openFiles.set k
            { fs.openFiles[k] with offset := fs.openFiles[k].offset + bytes.length } } := by
  obtain ⟨f, found, h⟩ := Option.bind_eq_some_iff.mp h
  obtain ⟨k, hk, rfl, rfl⟩ := load_eq_some.mp found
  obtain ⟨m, file, h⟩ := Option.bind_eq_some_iff.mp h
  obtain ⟨i, hi, number, rfl⟩ := load_eq_some.mp file
  obtain ⟨left, -, h⟩ := Option.bind_eq_some_iff.mp h
  obtain ⟨pos, -, h⟩ := Option.bind_eq_some_iff.mp h
  obtain ⟨⟨block, pos'⟩, -, h⟩ := Option.bind_eq_some_iff.mp h
  cases new with
  | none => grind
  | some buffer =>
    obtain ⟨bytes', -, h⟩ := Option.bind_eq_some_iff.mp h
    obtain ⟨offset, moved, h⟩ := Option.bind_eq_some_iff.mp h
    obtain ⟨openFiles, stored, h⟩ := Option.bind_eq_some_iff.mp h
    cases h
    obtain ⟨rfl, -⟩ := addInt_eq_some.mp moved
    obtain ⟨k', hk', same, rfl⟩ := store_eq_some.mp stored
    obtain rfl : k = k' := Int.ofNat_inj.mp same
    exact .inr ⟨k, i, hk, rfl, rfl, number, hi, rfl⟩

theorem writeLoop_count {data : List UInt8} {d d' : Disk} {count block pos count' block' : Int}
    {buffer buffer' : Block}
    (h : writeLoop data d count block pos buffer = some (d', count', block', buffer'))
    (range : count ≤ intMax) : count' = count + data.length ∧ count' ≤ intMax := by
  induction data generalizing d count block pos buffer with
  | nil =>
    cases h
    simp [range]
  | cons b rest ih =>
    obtain ⟨⟨d, block, pos, buffer⟩, -, h⟩ := Option.bind_eq_some_iff.mp h
    obtain ⟨buffer, -, h⟩ := Option.bind_eq_some_iff.mp h
    obtain ⟨next, counted, h⟩ := Option.bind_eq_some_iff.mp h
    obtain ⟨rfl, -, small⟩ := addInt_eq_some.mp counted
    obtain ⟨total, bound⟩ := ih h small
    refine ⟨?_, bound⟩
    rw [total, List.length_cons]
    omega

theorem growsInto_false {f : OpenFile} {m : FsMeta} {len : Nat}
    (h : growsInto fs f m len = some false) (used : 0 ≤ m.size) (count : len ≤ intMax)
    (low : intMin ≤ f.offset + len) (high : f.offset + len ≤ intMax)
    (grows : m.size < f.offset + len) :
    ∃ (k : Nat) (hk : k < 64), f.fileNum + 1 = k ∧ fs.files[k].size = -1 := by
  unfold growsInto at h
  split at h
  case isTrue =>
    obtain ⟨next, found, h⟩ := Option.bind_eq_some_iff.mp h
    obtain ⟨k, hk, same, rfl⟩ := load_eq_some.mp found
    exact ⟨k, hk, same, by simpa using h⟩
  case isFalse within =>
    -- nothing wraps here, so the comparison is the one of the numbers themselves
    simp only [intMin, intMax, toSize] at *
    omega

theorem fsWrite_cases {fildes : Int} {data : List UInt8} {new : Option Block}
    (h : fsWrite fs fildes data new = some (r, fs')) :
    fs' = fs ∧ r = -1 ∨
      ∃ (k i : Nat) (hk : k < 32) (hi : i < 64), fildes = k ∧ r = data.length ∧
        fs.openFiles[k].fileNum = i ∧
        (0 ≤ fs.files[i].size → fs.files[i].size < fs.openFiles[k].offset + data.length →
          i + 1 < 64 ∧ (slot fs.files (i + 1)).size = -1) ∧
        fs.openFiles[k].offset + data.length ≤ intMax ∧
        fs'.openFiles = fs.openFiles.set k
          { fs.openFiles[k] with offset := fs.openFiles[k].offset + data.length } ∧
        fs'.files = fs.files.set i { fs.files[i] with
          size := max fs.files[i].size (fs.openFiles[k].offset + data.length) } := by
  obtain ⟨f, found, h⟩ := Option.bind_eq_some_iff.mp h
  obtain ⟨k, hk, rfl, rfl⟩ := load_eq_some.mp found
  obtain ⟨m, file, h⟩ := Option.bind_eq_some_iff.mp h
  obtain ⟨i, hi, number, rfl⟩ := load_eq_some.mp file
  obtain ⟨pos, -, h⟩ := Option.bind_eq_some_iff.mp h
  cases new with
  | none => grind
  | some buffer =>
    obtain ⟨grows, checked, h⟩ := Option.bind_eq_some_iff.mp h
    cases grows with
    | true => grind
    | false =>
      obtain ⟨⟨block, pos'⟩, -, h⟩ := Option.bind_eq_some_iff.mp h
      obtain ⟨⟨disk, written, block', buffer'⟩, loop, h⟩ := Option.bind_eq_some_iff.mp h
      obtain ⟨offset, moved, h⟩ := Option.bind_eq_some_iff.mp h
      obtain ⟨openFiles, stored, h⟩ := Option.bind_eq_some_iff.mp h
      obtain ⟨files, sized, h⟩ := Option.bind_eq_some_iff.mp h
      cases h
      obtain ⟨count, small⟩ := writeLoop_count loop (by decide)
      obtain ⟨rfl, low, high⟩ := addInt_eq_some.mp moved
      obtain ⟨k', hk', same, rfl⟩ := store_eq_some.mp stored
      obtain rfl : k = k' := Int.ofNat_inj.mp same
      obtain ⟨i', hi', same', rfl⟩ := store_eq_some.mp sized
      obtain rfl : i = i' := Int.ofNat_inj.mp (number.symm.trans same')
      rw [Int.zero_add] at count
      subst count
      refine .inr ⟨k, i, hk, hi, rfl, rfl, number, fun used beyond => ?_, high, rfl, ?_⟩
      · obtain ⟨next, hn, follows, free⟩ := growsInto_false checked used small low high beyond
        obtain rfl : next = i + 1 := by omega
        exact ⟨hn, by rwa [slot_of_lt hn]⟩
      · grind

theorem findIdx_free (files : Files) :
    let i := files.toList.findIdx fun m => m.size = -1
    (i ≠ 64 → i < 64) ∧ (slot files i).size = -1 ∧ ∀ j < i, (slot files j).size ≠ -1 := by
  intro i
  have bound : i ≤ files.toList.length := List.findIdx_le_length
  rw [Vector.length_toList] at bound
  refine ⟨by omega, ?_, fun j hj => ?_⟩
  · by_cases inside : i < 64
    · have found := List.findIdx_getElem (w := show i < files.toList.length by simpa using inside)
      simpa [slot_of_lt inside] using found
    · exact (slot_of_ge (by omega)).size
  · have before := List.not_of_lt_findIdx hj
    simpa [slot_of_lt (show j < 64 by omega)] using before

theorem createFile_eq {i : Nat} {name : CString} (h : createFile fs i name = some (r, fs')) :
    ∃ files, i + 1 < 64 ∧ r = 0 ∧ fillBlockAndOffset fs.files i = some files ∧
      fs'.openFiles = fs.openFiles ∧ fs'.disk = fs.disk ∧
      ∀ k, slot fs'.files k =
        if k = i then { slot files i with size := 0 }.setName name
        else if k = i + 1 then { slot files (i + 1) with size := -1 }
        else slot files k := by
  obtain ⟨files, filled, h⟩ := Option.bind_eq_some_iff.mp h
  obtain ⟨files₁, sized, h⟩ := Option.bind_eq_some_iff.mp h
  obtain ⟨files₂, marked, h⟩ := Option.bind_eq_some_iff.mp h
  obtain ⟨files₃, named, h⟩ := Option.bind_eq_some_iff.mp h
  cases h
  obtain ⟨j, hj, same, rfl⟩ := modify_eq_some.mp sized
  obtain rfl : i = j := Int.ofNat_inj.mp same
  obtain ⟨j, hj', same, rfl⟩ := modify_eq_some.mp marked
  obtain rfl : i + 1 = j := by omega
  obtain ⟨j, hj'', same, rfl⟩ := modify_eq_some.mp named
  obtain rfl : i = j := Int.ofNat_inj.mp same
  refine ⟨files, hj', rfl, filled, rfl, rfl, fun k => ?_⟩
  simp only [slot_set]
  split
  case isTrue => simp [hj]
  case isFalse => simp [hj']

theorem fsCreate_cases {name : CString} (h : fsCreate fs name = some (r, fs')) :
    fs' = fs ∧ r = -1 ∨
      ∃ i, createFile fs i name = some (r, fs') ∧ (slot fs.files i).size = -1 ∧
        ∀ j < i, (slot fs.files j).size ≠ -1 := by
  unfold fsCreate at h
  split at h
  case isTrue => grind
  obtain ⟨same, -, h⟩ := Option.bind_eq_some_iff.mp h
  split at h
  case isTrue => grind
  obtain ⟨-, free, before⟩ := findIdx_free fs.files
  dsimp only at h
  split at h
  case isTrue => grind
  case isFalse => exact .inr ⟨_, h, free, before⟩

def closeGap (files : Files) (i k : Nat) : FsMeta :=
  if k < i then slot files k
  else if k = 63 then { (slot files 63).clearName with size := -1 }
  else slot files (k + 1)

theorem slot_gapClosed (files : Files) {i : Nat} (turns : i + (63 - i) = 63) (room : 63 < 64)
    (k : Nat) :
    let shifted := shiftFiles files (63 - i) i turns
    slot (shifted.set 63 { shifted[63].clearName with size := -1 }) k = closeGap files i k := by
  have last : (shiftFiles files (63 - i) i turns)[63] = slot files 63 := by
    rw [← slot_of_lt room, slot_shiftFiles, if_neg (by omega)]
  have outside (j : Nat) (hj : 64 ≤ j) : slot files j = FsMeta.zero.fresh := by
    simp [slot, Nat.not_lt.mpr hj]
  dsimp only
  rw [slot_set, slot_shiftFiles, last, closeGap]
  grind

theorem deleteFile_eq {i : Nat} {hi : i ≤ 63} {new1 new2 : Option Block}
    (h : deleteFile fs i hi new1 new2 = some (r, fs')) :
    ∃ files, r = 0 ∧ (∀ k, slot files k = closeGap fs.files i k) ∧
      fillFrom files (64 - i) i = some fs'.files ∧
      fs'.openFiles = fs.openFiles.map fun f =>
        if (i : Int) < f.fileNum then { f with fileNum := f.fileNum - 1 } else f := by
  obtain ⟨disk, -, h⟩ := Option.bind_eq_some_iff.mp h
  obtain ⟨files, filled, h⟩ := Option.bind_eq_some_iff.mp h
  cases h
  exact ⟨_, rfl, slot_gapClosed fs.files _ _, filled, rfl⟩

theorem fsDelete_cases {name : CString} {new1 new2 : Option Block}
    (h : fsDelete fs name new1 new2 = some (r, fs')) :
    fs' = fs ∧ r = -1 ∨
      ∃ (i : Nat) (hi : i < 64), fs.files[i].named name = some true ∧
        (∀ k : Fin 32, fs.openFiles[k].fileNum ≠ i) ∧
        deleteFile fs i (Nat.le_of_lt_succ hi) new1 new2 = some (r, fs') := by
  obtain ⟨i, found, h⟩ := Option.bind_eq_some_iff.mp h
  split at h
  case isFalse => grind
  case isTrue hi =>
    split at h
    case isTrue => grind
    case isFalse closed =>
      have named := firstIndex_holds found (by simp; omega)
      refine .inr ⟨i, Nat.lt_succ_of_le hi, by simpa using named, fun k same => closed ?_, h⟩
      exact Vector.any_eq_true.mpr ⟨k, k.isLt, by simpa using same⟩

theorem truncateFile_eq {k i : Nat} {hk : k < 32} {hi : i < 64} {length : Int}
    {new1 new2 : Option Block} (number : fs.openFiles[k].fileNum = i)
    (h : truncateFile fs k fs.openFiles[k] fs.files[i] length new1 new2 = some (r, fs')) :
    r = 0 ∧ fillFrom (fs.files.set i { fs.files[i] with size := toInt length }) (63 - k) k =
        some fs'.files ∧
      ∃ offset, fs'.openFiles = fs.openFiles.set k { fs.openFiles[k] with offset } := by
  obtain ⟨⟨startBlock, startOffset⟩, -, h⟩ := Option.bind_eq_some_iff.mp h
  obtain ⟨disk, -, h⟩ := Option.bind_eq_some_iff.mp h
  obtain ⟨files, sized, h⟩ := Option.bind_eq_some_iff.mp h
  obtain ⟨files', filled, h⟩ := Option.bind_eq_some_iff.mp h
  obtain ⟨openFiles, stored, h⟩ := Option.bind_eq_some_iff.mp h
  cases h
  obtain ⟨k', hk', same, rfl⟩ := store_eq_some.mp stored
  obtain rfl : k = k' := Int.ofNat_inj.mp same
  obtain ⟨i', hi', same', rfl⟩ := store_eq_some.mp sized
  obtain rfl : i = i' := Int.ofNat_inj.mp (number.symm.trans same')
  refine ⟨rfl, ?_, _, rfl⟩
  have turns : (63 - (k : Int)).toNat = 63 - k := by omega
  rwa [turns] at filled

theorem fsTruncate_cases {fildes length : Int} {new1 new2 : Option Block}
    (h : fsTruncate fs fildes length new1 new2 = some (r, fs')) :
    fs' = fs ∧ r = -1 ∨
      ∃ (k i : Nat) (hk : k < 32) (hi : i < 64), fildes = k ∧ fs.openFiles[k].fileNum = i ∧
        0 ≤ length ∧ length ≤ fs.files[i].size ∧
        truncateFile fs k fs.openFiles[k] fs.files[i] length new1 new2 = some (r, fs') := by
  obtain ⟨f, found, h⟩ := Option.bind_eq_some_iff.mp h
  obtain ⟨k, hk, rfl, rfl⟩ := load_eq_some.mp found
  split at h
  case isTrue => grind
  obtain ⟨m, file, h⟩ := Option.bind_eq_some_iff.mp h
  obtain ⟨i, hi, number, rfl⟩ := load_eq_some.mp file
  split at h
  case isTrue => grind
  split at h
  case isTrue => grind
  case isFalse small nonneg =>
    exact .inr ⟨k, i, hk, hi, rfl, number, Int.not_lt.mp nonneg, Int.not_lt.mp small, h⟩

theorem fsTruncate_one (fs : FileSys) {k i : Nat} (hk : k < 32) (hi : i < 64)
    (number : fs.openFiles[k].fileNum = i) (size : 1 ≤ fs.files[i].size)
    (low : 0 ≤ fs.files[i].offset) (high : fs.files[i].offset < blockSize) {files : Files}
    (filled : fillFrom (fs.files.set i { fs.files[i] with size := 1 }) (63 - k) k = some files)
    (new1 new2 : Option Block) :
    ∃ openFiles, fsTruncate fs k 1 new1 new2 = some (0, ⟨openFiles, files, fs.disk⟩) := by
  unfold blockSize at high
  have opened : (i : Int) ≠ -1 := by omega
  have position : toInt (fs.files[i].offset + 1) = fs.files[i].offset + 1 :=
    toInt_of_range (by unfold intMin; omega) (by unfold intMax; omega)
  have located : carry blockSize fs.files[i].block (fs.files[i].offset + 1) =
      some (fs.files[i].block, fs.files[i].offset + 1) :=
    carry_of_le (by unfold blockSize; omega)
  have turns : (63 - (k : Int)).toNat = 63 - k := by omega
  have one : toInt 1 = 1 := by decide
  have none_dropped : toInt (1 - 1) = 0 := by decide
  refine ⟨fs.openFiles.set k { fs.openFiles[k] with
    offset := if 1 < fs.openFiles[k].offset then 1 else fs.openFiles[k].offset }, ?_⟩
  simp only [fsTruncate, truncateFile, load_of_lt, store_of_lt, hk, hi, number, opened,
    Int.not_lt.mpr size, position, located, none_dropped, shiftBlocks, one, turns, filled,
    Option.bind_eq_bind, Option.bind_some, if_false, if_true, Int.reduceLT]

end LastPicked.FileSystem
