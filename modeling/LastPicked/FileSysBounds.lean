import LastPicked.FileSysAccess
import LastPicked.FileSysNames

/-! Which calls stay inside the two tables. Only the slot behind the last one is
ever touched outside of them, by a file that is created in the last slot and by
one that grows there. -/

namespace LastPicked.FileSystem
open CIntegers CMemory AccessTraces AccessTraces.Traced LabelledRuns

variable {fs mounted : FileSys} {files : Files} {d : CString}

namespace Accesses

@[simp] theorem inBounds_file (i : Int) : Access.InBounds (.file i) ↔ 0 ≤ i ∧ i < 64 := Iff.rfl

@[simp] theorem inBounds_openFile (i : Int) :
    Access.InBounds (.openFile i) ↔ 0 ≤ i ∧ i < 32 := Iff.rfl

theorem searchOpen_within (fs : FileSys) (q : OpenFile → Bool) :
    (searchOpen fs q).Within Access.InBounds := by
  refine search_within _ _ _ _ fun j _ hj => ?_
  rw [Vector.length_toList] at hj
  rw [inBounds_openFile]
  omega

theorem searchFiles_within (q : FsMeta → Option Bool) {files : List FsMeta}
    (few : files.length ≤ 64) :
    (searchFiles q files).Within Access.InBounds := by
  refine search_within _ _ _ _ fun j _ hj => ?_
  rw [inBounds_file]
  omega

theorem fillBlockAndOffset_within (files : Files) {i : Nat} (hi : i < 64) :
    (fillBlockAndOffset files i).Within Access.InBounds := by
  unfold fillBlockAndOffset
  split
  case isTrue => exact (within_access _ _).mpr ⟨by omega, by omega⟩
  case isFalse later =>
    simp only [within_bind, within_lift, loadFile, touchFile, modifyFile, within_access,
      inBounds_file]
    exact ⟨by omega, fun _ _ => ⟨by omega, fun _ _ => ⟨trivial, fun _ _ => by omega⟩⟩⟩

theorem fillFrom_within (files : Files) {k i : Nat} (fits : i + k ≤ 64) :
    (fillFrom files k i).Within Access.InBounds := by
  induction k generalizing files i with
  | zero => exact within_pure files
  | succ k ih =>
    rw [fillFrom, within_bind]
    exact ⟨fillBlockAndOffset_within files (by omega), fun between _ =>
      @ih between (i + 1) (by omega)⟩

theorem touchOpen_within {k i : Nat} (fits : i + k ≤ 32) :
    (touchOpen k i).Within Access.InBounds := by
  induction k generalizing i with
  | zero => exact within_pure ()
  | succ k ih =>
    rw [touchOpen, within_bind, within_access]
    exact ⟨⟨by omega, by omega⟩, fun _ _ => @ih (i + 1) (by omega)⟩

theorem shiftFiles_within (files : Files) {k i : Nat} (h : i + k = 63) :
    (shiftFiles files k i).Within Access.InBounds := by
  induction k generalizing files i with
  | zero => exact within_pure files
  | succ k ih =>
    simp only [shiftFiles, within_bind, loadFile, storeFile, within_access, inBounds_file]
    exact ⟨by omega, fun _ _ => ⟨by omega, fun between _ => @ih between (i + 1) (by omega)⟩⟩

theorem fsOpen_within (fs : FileSys) (name : CString) :
    (fsOpen fs name).Within Access.InBounds := by
  unfold fsOpen
  split
  case isTrue => exact within_pure _
  case isFalse =>
    rw [within_bind]
    refine ⟨searchOpen_within fs _, fun filedesc found => ?_⟩
    split
    case isTrue => exact within_pure _
    case isFalse free =>
      rw [within_bind]
      refine ⟨searchFiles_within _ (by simp), fun filenum _ => ?_⟩
      split
      case isTrue => exact within_pure _
      case isFalse =>
        rw [searchOpen_result] at found
        obtain rfl := Option.some.inj found
        have bound :
            fs.openFiles.toList.findIdx (fun f => f.fileNum = -1) ≤ fs.openFiles.toList.length :=
          List.findIdx_le_length
        rw [Vector.length_toList] at bound
        simp only [within_bind, storeOpen, within_access, inBounds_openFile, within_pure]
        exact ⟨by omega, fun _ _ => trivial⟩

/-- A file can be created inside the table in every slot but the last. -/
theorem createFile_within_iff (fs : FileSys) {i : Nat} (hi : i < 64) (name : CString) :
    (createFile fs i name).Within Access.InBounds ↔
      i < 63 ∨ FileSystem.fillBlockAndOffset fs.files i = none := by
  simp only [createFile, within_bind, fillBlockAndOffset_within fs.files hi,
    fillBlockAndOffset_result, modifyFile, within_access, inBounds_file, access_result, within_pure,
    true_and]
  constructor
  · intro within
    cases filled : FileSystem.fillBlockAndOffset fs.files i with
    | none => exact .inr rfl
    | some files =>
      obtain ⟨-, behind⟩ := within files filled
      have last := (behind _ (modify_of_lt files hi _)).1.2
      exact .inl (by omega)
  · rintro (before | none) files filled
    · exact ⟨by omega, fun _ _ => ⟨by omega, fun _ _ => ⟨by omega, fun _ _ => trivial⟩⟩⟩
    · rw [none] at filled
      cases filled

theorem fsCreate_within_iff (fs : FileSys) (name : CString) :
    (fsCreate fs name).Within Access.InBounds ↔
      ¬(name.bytes.length ≤ 15 ∧
        firstIndex (FsMeta.named name) (fs.files.toList.take 32) = some 32 ∧
        fs.files.toList.findIdx (fun m => m.size = -1) = 63 ∧
        (FileSystem.fillBlockAndOffset fs.files 63).isSome) := by
  have bound : fs.files.toList.findIdx (fun m => m.size = -1) ≤ fs.files.toList.length :=
    List.findIdx_le_length
  rw [Vector.length_toList] at bound
  unfold fsCreate
  split
  case isTrue long => exact iff_of_true (within_pure _) fun ⟨short, _⟩ => by omega
  case isFalse short =>
    rw [within_bind, searchFiles_result]
    have first :
        (searchFiles (FsMeta.named name) (fs.files.toList.take 32)).Within Access.InBounds :=
      searchFiles_within _ (by simp)
    cases found : firstIndex (FsMeta.named name) (fs.files.toList.take 32) with
    | none => exact iff_of_true ⟨first, nofun⟩ fun ⟨_, other, _⟩ => nomatch other
    | some same =>
      have upto := firstIndex_le found
      rw [List.length_take, Vector.length_toList] at upto
      simp only [first, true_and, Option.some.injEq, forall_eq']
      split
      case isTrue early => exact iff_of_true (within_pure _) fun ⟨_, other, _⟩ => by omega
      case isFalse passed =>
        rw [within_bind, searchFiles_result, firstIndex_free]
        simp only [searchFiles_within _ (show fs.files.toList.length ≤ 64 by simp), true_and,
          Option.some.injEq, forall_eq']
        split
        case isTrue full => exact iff_of_true (within_pure _) fun ⟨_, _, last, _⟩ => by omega
        case isFalse room =>
          rw [createFile_within_iff fs (by omega)]
          generalize fs.files.toList.findIdx (fun m => m.size = -1) = i at *
          obtain rfl : same = 32 := by omega
          constructor
          · rintro (before | none) ⟨-, -, last, filled⟩
            · omega
            · subst last
              exact absurd none (Option.isSome_iff_ne_none.mp filled)
          · intro fine
            by_contra outside
            rw [not_or] at outside
            obtain rfl : i = 63 := by omega
            exact fine ⟨by omega, rfl, rfl, Option.isSome_iff_ne_none.mpr outside.2⟩

theorem deleteFile_within (fs : FileSys) {i : Nat} (h : i ≤ 63) (new1 new2 : Option Block) :
    (deleteFile fs i new1 new2).Within Access.InBounds := by
  have opened : (touchOpen 32 0).Within Access.InBounds := @touchOpen_within 32 0 (by decide)
  have shifted := shiftFiles_within fs.files (show i + (63 - i) = 63 by omega)
  have filled (files : Files) : (fillFrom files (64 - i) i).Within Access.InBounds :=
    fillFrom_within files (by omega)
  simp only [deleteFile, within_bind, loadFile, modifyFile, within_access, inBounds_file,
    within_lift, within_pure, opened, shifted, filled, true_and]
  exact ⟨by omega, fun _ _ _ _ _ _ _ _ => ⟨by omega, fun _ _ _ _ => trivial⟩⟩

theorem fsDelete_within (fs : FileSys) (name : CString) (new1 new2 : Option Block) :
    (fsDelete fs name new1 new2).Within Access.InBounds := by
  unfold fsDelete
  rw [within_bind]
  refine ⟨searchFiles_within _ (by simp), fun i _ => ?_⟩
  split
  case isTrue h =>
    rw [within_bind]
    refine ⟨searchOpen_within fs _, fun j _ => ?_⟩
    split
    case isTrue => exact within_pure _
    case isFalse => exact deleteFile_within fs h new1 new2
  case isFalse => exact within_pure _

section
variable {α : Type} (openFiles : OpenFiles) (k : Fin 32) (files : Files)

theorem loadOpen_bind (rest : OpenFile → Traced Access α) :
    (loadOpen openFiles k.val >>= rest).Within Access.InBounds ↔
      (rest (openFiles.get k)).Within Access.InBounds := by
  rw [loadOpen, load_of_lt _ k.isLt]
  exact within_access_bind ⟨by omega, by omega⟩ rest

theorem storeOpen_bind {j : Nat} (hj : j < 32) (f : OpenFile) (rest : OpenFiles → Traced Access α) :
    (storeOpen openFiles j f >>= rest).Within Access.InBounds ↔
      (rest (openFiles.set j f)).Within Access.InBounds := by
  rw [storeOpen, store_of_lt _ hj]
  exact within_access_bind ⟨by omega, by omega⟩ rest

theorem loadFile_bind {i : Nat} (hi : i < 64) (rest : FsMeta → Traced Access α) :
    (loadFile files i >>= rest).Within Access.InBounds ↔
      (rest files[i]).Within Access.InBounds := by
  rw [loadFile, load_of_lt _ hi]
  exact within_access_bind ⟨by omega, by omega⟩ rest

theorem storeFile_bind {i : Nat} (hi : i < 64) (m : FsMeta) (rest : Files → Traced Access α) :
    (storeFile files i m >>= rest).Within Access.InBounds ↔
      (rest (files.set i m)).Within Access.InBounds := by
  rw [storeFile, store_of_lt _ hi]
  exact within_access_bind ⟨by omega, by omega⟩ rest

end

theorem fsClose_within (fs : FileSys) (k : Fin 32) : (fsClose fs k.val).Within Access.InBounds := by
  rw [fsClose, loadOpen_bind]
  split
  case isTrue => exact within_pure _
  case isFalse =>
    rw [storeOpen_bind _ k.isLt]
    exact within_pure _

theorem growsInto_within_iff {i : Nat} (hi : i < 64) (f : OpenFile) (m : FsMeta) (nbyte : Nat)
    (same : f.fileNum = i) :
    (growsInto fs f m nbyte).Within Access.InBounds ↔
      ¬(i = 63 ∧ m.size ≠ -1 ∧ toSize m.size < (toSize f.offset + nbyte) % 2 ^ 64) := by
  unfold growsInto
  split
  case isTrue grows =>
    simp only [within_bind, loadFile, within_access, inBounds_file, within_pure, same]
    constructor
    · rintro ⟨behind, -⟩ ⟨last, -⟩
      omega
    · intro fine
      have before : i ≠ 63 := fun last => fine ⟨last, grows⟩
      exact ⟨by omega, fun _ _ => trivial⟩
  case isFalse within => exact iff_of_true (within_pure _) fun grows => within grows.2

section
variable {k : Fin 32} {i : Nat} (number : (fs.openFiles.get k).fileNum = i) (hi : i < 64)
include number hi

theorem fsRead_within (nbyte : Nat) (new : Option Block) :
    (fsRead fs k.val nbyte new).Within Access.InBounds := by
  rw [fsRead, loadOpen_bind, number, loadFile_bind _ hi]
  simp only [within_lift_bind]
  intro left _ pos _ place _
  cases new with
  | none => exact within_pure _
  | some buffer =>
    simp only [within_lift_bind]
    intro bytes _ offset _
    rw [storeOpen_bind _ k.isLt]
    exact within_pure _

theorem fsGetFilesize_within : (fsGetFilesize fs k.val).Within Access.InBounds := by
  have opened : (i : Int) ≠ -1 := by omega
  rw [fsGetFilesize, loadOpen_bind, number, if_neg opened, loadFile_bind _ hi]
  exact within_pure _

theorem fsLseek_within (offset : Int) : (fsLseek fs k.val offset).Within Access.InBounds := by
  have opened : (i : Int) ≠ -1 := by omega
  rw [fsLseek, loadOpen_bind, number, if_neg opened, loadFile_bind _ hi]
  split
  case isTrue => exact within_pure _
  case isFalse =>
    rw [storeOpen_bind _ k.isLt]
    exact within_pure _

theorem fsTruncate_within (length : Int) (new1 new2 : Option Block) :
    (fsTruncate fs k.val length new1 new2).Within Access.InBounds := by
  have opened : (i : Int) ≠ -1 := by omega
  rw [fsTruncate, loadOpen_bind, number, if_neg opened, loadFile_bind _ hi]
  split
  case isTrue => exact within_pure _
  case isFalse =>
    split
    case isTrue => exact within_pure _
    case isFalse =>
      rw [truncateFile, within_lift_bind]
      intro place _
      rw [within_lift_bind]
      intro disk _
      rw [number, storeFile_bind _ hi, within_bind]
      have turns : (63 - (k.val : Int)).toNat = 63 - k.val := by omega
      rw [turns]
      refine ⟨fillFrom_within _ (by omega), fun files _ => ?_⟩
      rw [storeOpen_bind _ k.isLt]
      exact within_pure _

theorem fsWrite_within_iff (data : List UInt8) (new : Option Block) :
    (fsWrite fs k.val data new).Within Access.InBounds ↔
      ¬(new.isSome ∧ i = 63 ∧ (addInt fs.files[i].offset (fs.openFiles.get k).offset).isSome ∧
        fs.files[i].size ≠ -1 ∧
        toSize fs.files[i].size < (toSize (fs.openFiles.get k).offset + data.length) % 2 ^ 64) := by
  rw [fsWrite, loadOpen_bind, number, loadFile_bind _ hi, within_lift_bind]
  cases addInt fs.files[i].offset (fs.openFiles.get k).offset with
  | none => exact iff_of_true nofun fun ⟨_, _, added, _⟩ => nomatch added
  | some pos =>
    simp only [Option.some.injEq, forall_eq', Option.isSome_some, true_and]
    cases new with
    | none => exact iff_of_true (within_pure _) fun ⟨given, _⟩ => nomatch given
    | some buffer =>
      rw [within_bind, growsInto_within_iff hi (fs.openFiles.get k) fs.files[i] data.length number]
      simp only [Option.isSome_some, true_and]
      refine and_iff_left fun grows _ => ?_
      split
      case isTrue => exact within_pure _
      case isFalse =>
        simp only [within_lift_bind]
        intro place _ written _ offset _
        rw [storeOpen_bind _ k.isLt, storeFile_bind _ hi]
        exact within_pure _

end

end Accesses

def Call.OnUsed (fs : FileSys) : Call → Prop
  | .fsOpen _ | .fsCreate _ | .fsDelete _ _ _ => True
  | .fsClose fildes | .fsRead fildes _ _ | .fsWrite fildes _ _ | .fsGetFilesize fildes
  | .fsLseek fildes _ | .fsTruncate fildes _ _ _ => ∃ (k : Fin 32) (i : Nat), fildes = k.val ∧
      (fs.openFiles.get k).fileNum = i ∧ i < 64 ∧ (slot fs.files i).size ≠ -1

/-- With `n` files: a call of `fs_create` that takes the last slot, or one of
`fs_write` that lets the file there grow. -/
def Call.Overruns (fs : FileSys) (n : Nat) : Call → Prop
  | .fsCreate name => n = 63 ∧ name.bytes.length ≤ 15 ∧
      firstIndex (FsMeta.named name) (fs.files.toList.take 32) = some 32 ∧
      (fillBlockAndOffset fs.files 63).isSome
  | .fsWrite fildes data new => n = 64 ∧ new.isSome ∧ ∃ k : Fin 32, fildes = k.val ∧
      (fs.openFiles.get k).fileNum = 63 ∧
      (addInt (slot fs.files 63).offset (fs.openFiles.get k).offset).isSome ∧
      toSize (slot fs.files 63).size < (toSize (fs.openFiles.get k).offset + data.length) % 2 ^ 64
  | _ => False

theorem Listed.findIdx_eq {n : Nat} (listed : Listed files n) :
    files.toList.findIdx (fun m => m.size = -1) = n := by
  obtain ⟨-, free, before⟩ := findIdx_free files
  generalize files.toList.findIdx (fun m => m.size = -1) = i at free before
  have above : ¬i < n := fun inside => by have := listed.used i inside; omega
  by_contra other
  exact before n (by omega) (listed.free n (Nat.le_refl n)).size

theorem Listed.inBounds_iff {n : Nat} (listed : Listed fs.files n) {c : Call} (used : c.OnUsed fs) :
    (Accesses.perform fs c).Within Access.InBounds ↔ ¬c.Overruns fs n := by
  cases c with
  | fsOpen name => exact iff_of_true (Accesses.fsOpen_within fs name) id
  | fsCreate name =>
    refine (Accesses.fsCreate_within_iff fs name).trans (not_congr ?_)
    rw [listed.findIdx_eq, Call.Overruns]
    tauto
  | fsDelete name new1 new2 => exact iff_of_true (Accesses.fsDelete_within fs name new1 new2) id
  | fsClose fildes =>
    obtain ⟨k, i, rfl, -⟩ := used
    exact iff_of_true (Accesses.fsClose_within fs k) id
  | fsRead fildes nbyte new =>
    obtain ⟨k, i, rfl, number, hi, -⟩ := used
    refine iff_of_true ?_ id
    rw [Accesses.perform, within_bind]
    exact ⟨Accesses.fsRead_within number hi nbyte new, fun _ _ => within_pure _⟩
  | fsWrite fildes data new =>
    obtain ⟨k, i, rfl, number, hi, size⟩ := used
    refine (Accesses.fsWrite_within_iff number hi data new).trans (not_congr ?_)
    have inside := listed.lt_of_size size
    have room := listed.room
    constructor
    · rintro ⟨given, rfl, added, -, longer⟩
      refine ⟨by omega, given, k, rfl, number, ?_, ?_⟩ <;> rwa [slot_of_lt hi]
    · rintro ⟨-, given, k', same, number', added, longer⟩
      obtain rfl : k = k' := Fin.ext (Int.ofNat_inj.mp same)
      obtain rfl : i = 63 := by omega
      rw [slot_of_lt hi] at size added longer
      exact ⟨given, rfl, added, size, longer⟩
  | fsGetFilesize fildes =>
    obtain ⟨k, i, rfl, number, hi, -⟩ := used
    refine iff_of_true ?_ id
    rw [Accesses.perform, within_bind]
    exact ⟨Accesses.fsGetFilesize_within number hi, fun _ _ => within_pure _⟩
  | fsLseek fildes offset =>
    obtain ⟨k, i, rfl, number, hi, -⟩ := used
    exact iff_of_true (Accesses.fsLseek_within number hi offset) id
  | fsTruncate fildes length new1 new2 =>
    obtain ⟨k, i, rfl, number, hi, -⟩ := used
    exact iff_of_true (Accesses.fsTruncate_within number hi length new1 new2) id

theorem session_inBounds {ops : List Op} (start : Mounted mounted)
    (disk : mounted.disk.handle = some d) (run : Run (OpStep d) mounted ops fs) :
    ∃ n, Listed fs.files n ∧ ∀ c : Call, c.OnUsed fs →
      ((Accesses.perform fs c).Within Access.InBounds ↔ ¬c.Overruns fs n) := by
  obtain ⟨n, tabled⟩ := session_tabled start disk run
  exact ⟨n, tabled.listed, fun c used => tabled.listed.inBounds_iff used⟩

section

theorem session_inBounds_oneFile : ∃ disk,
    (Accesses.perform (oneFile disk) (.fsCreate nameB)).Within Access.InBounds := by
  obtain ⟨disk, start⟩ := mounted_start
  obtain ⟨d, -, opened, -⟩ := start.opened
  have first :
    OpStep d ⟨threeOpen (-1) (-1) (-1) 0, twoEntries FsMeta.zero.fresh FsMeta.zero.fresh, disk⟩
    (.call (.fsCreate nameA)) (oneFile disk) := ⟨0, rfl⟩
  obtain ⟨n, listed, bounds⟩ := session_inBounds start opened (.single first)
  refine ⟨disk, (bounds (.fsCreate nameB) trivial).mpr ?_⟩
  rintro ⟨rfl, -⟩
  have used := listed.used 1 (by decide)
  exact absurd used (show ¬(0 : Int) ≤ -1 by decide)

/-- The file for the last slot marks the slot behind it as free. -/
theorem bounds_exceeded :
    ¬∀ mounted d ops fs (c : Call), Mounted mounted → mounted.disk.handle = some d →
      Run (OpStep d) mounted ops fs → c.OnUsed fs →
      (Accesses.perform fs c).Within Access.InBounds := by
  intro inBounds
  obtain ⟨disk, start⟩ := mounted_start
  obtain ⟨d, -, opened, -⟩ := start.opened
  obtain ⟨ops, fs, run, numbered, -⟩ := run_numbered start d 63 (Nat.le_refl 63)
  have used : (Call.fsCreate (nameAt 63)).OnUsed fs := trivial
  have within := inBounds _ d ops fs _ start opened (run.mono fun _ _ _ h => h.2) used
  refine (numbered.named.tabled.listed.inBounds_iff used).mp within ⟨rfl, by decide, ?_, ?_⟩
  · exact numbered.named.distinct.search_absent fun k hk =>
      numbered.absent (Nat.le_refl 63) k (by omega)
  · have size := (numbered.named.tabled.listed.free 63 (Nat.le_refl 63)).size
    obtain ⟨files, filled, -⟩ := fillBlockAndOffset_some (show 63 < 64 by decide)
      (fun j next => numbered.bounded j (by omega)) (by rw [size]; decide)
    exact Option.isSome_iff_exists.mpr ⟨files, filled⟩

end

end LastPicked.FileSystem
