import LastPicked.FileSysFrame
import LastPicked.FileSysPositions
import LastPicked.WriteBytes

/-! Descriptors and the files they are open on. Reading and writing keep the
offset of a descriptor inside its file, but `fs_lseek` does not refuse a
negative offset as `fs_truncate` does, `fs_truncate` moves no descriptor back
but its own, and `fs_open` finds the empty name in an unused slot. The block
that `fs_write` begins in is not read before it is written back, so the bytes
in front of a file are only kept by a buffer that happens to hold them. -/

namespace LastPicked.FileSystem
open CIntegers CMemory FlatBlocks LabelledRuns

variable {fs fs' mounted : FileSys} {n : Nat} {r : Int}

def OpenFile.Within (files : Files) (f : OpenFile) : Prop :=
  f.fileNum = -1 ∨ ∃ i < 64, f.fileNum = (i : Nat) ∧ 0 ≤ (slot files i).size ∧
    0 ≤ f.offset ∧ f.offset ≤ (slot files i).size

structure Sound (fs : FileSys) (n : Nat) : Prop where
  listed : Listed fs.files n
  within : ∀ k (hk : k < 32), fs.openFiles[k].Within fs.files

/-- The buffer of a write through `f` holds what the disk does in front of the
file, in the block that the write begins in. -/
def HoldsFront (fs : FileSys) (f : OpenFile) (m : FsMeta) (buffer : Block) : Prop :=
  ∀ d blocks, fs.disk.handle = some d → fs.disk.host d = some blocks → ∀ p < diskBytes,
    (p : Int) < m.start → p / blockSize = (m.start + f.offset).toNat / blockSize →
      byteAt blocks p = (buffer[p % blockSize]?).getD 0

def FrontKept (fs fs' : FileSys) (m : FsMeta) : Prop :=
  ∃ d blocks blocks', fs.disk.handle = some d ∧ fs.disk.host d = some blocks ∧
    fs'.disk.host d = some blocks' ∧
    ∀ p < diskBytes, (p : Int) < m.start → byteAt blocks' p = byteAt blocks p

/-- What a call has to avoid: `fs_open` of the empty name while no file has it,
`fs_lseek` to a negative offset, `fs_truncate` in front of another descriptor on
the same file, and `fs_write` with a buffer of other bytes than those in front of
the file. -/
def Call.KeepsWithin (fs : FileSys) : Call → Prop
  | .fsOpen name => name.bytes ≠ [] ∨
      (∃ i < 64, 0 ≤ (slot fs.files i).size ∧ (slot fs.files i).named name = some true) ∨
      ∀ k (hk : k < 32), fs.openFiles[k].fileNum ≠ -1
  | .fsLseek fildes offset => ∀ f m, load fs.openFiles fildes = some f →
      load fs.files f.fileNum = some m → m.size < offset ∨ 0 ≤ toInt offset ∧ toInt offset ≤ m.size
  | .fsTruncate fildes length _ _ => ∀ f m, load fs.openFiles fildes = some f →
      load fs.files f.fileNum = some m → 0 ≤ length → length ≤ m.size →
      ∀ (k : Nat) (hk : k < 32), k ≠ fildes → fs.openFiles[k].fileNum = f.fileNum →
        fs.openFiles[k].offset ≤ length
  | .fsWrite fildes data new => ∀ f m buffer, load fs.openFiles fildes = some f →
      load fs.files f.fileNum = some m → new = some buffer →
      growsInto fs f m data.length = some false → HoldsFront fs f m buffer
  | _ => True

theorem holdsFront_iff {f : OpenFile} {m : FsMeta} {buffer : Block} {d : CString} {blocks : Image}
    (handle : fs.disk.handle = some d) (image : fs.disk.host d = some blocks) :
    HoldsFront fs f m buffer ↔ ∀ p < diskBytes, (p : Int) < m.start →
      p / blockSize = (m.start + f.offset).toNat / blockSize →
        byteAt blocks p = (buffer[p % blockSize]?).getD 0 := by
  refine ⟨fun holds => holds d blocks handle image, fun holds d' blocks' handle' image' => ?_⟩
  obtain rfl := Option.some.inj (handle.symm.trans handle')
  obtain rfl := Option.some.inj (image.symm.trans image')
  exact holds

theorem frontKept_iff {m : FsMeta} {d : CString} {blocks blocks' : Image}
    (handle : fs.disk.handle = some d) (image : fs.disk.host d = some blocks)
    (image' : fs'.disk.host d = some blocks') :
    FrontKept fs fs' m ↔
      ∀ p < diskBytes, (p : Int) < m.start → byteAt blocks' p = byteAt blocks p := by
  refine ⟨?_, fun kept => ⟨d, blocks, blocks', handle, image, image', kept⟩⟩
  rintro ⟨d₁, blocks₁, blocks₂, handle₁, image₁, image₂, kept⟩
  obtain rfl := Option.some.inj (handle.symm.trans handle₁)
  obtain rfl := Option.some.inj (image.symm.trans image₁)
  obtain rfl := Option.some.inj (image'.symm.trans image₂)
  exact kept

theorem readLoop_length {d : Disk} {k : Nat} {numRead block pos : Int} {buffer : Block}
    {bytes : List UInt8} (h : readLoop d k numRead block pos buffer = some bytes) :
    bytes.length = k := by
  induction k generalizing numRead block pos buffer bytes with
  | zero =>
    cases h
    rfl
  | succ k ih =>
    obtain ⟨⟨block, pos, buffer⟩, -, h⟩ := Option.bind_eq_some_iff.mp h
    obtain ⟨b, -, h⟩ := Option.bind_eq_some_iff.mp h
    obtain ⟨numRead, -, h⟩ := Option.bind_eq_some_iff.mp h
    obtain ⟨rest, more, h⟩ := Option.bind_eq_some_iff.mp h
    cases h
    rw [List.length_cons, ih more]

/-- No more is read than the file has left, as the unsigned comparison sees it. -/
theorem fsRead_length {fildes : Int} {nbyte : Nat} {new : Option Block} {bytes : List UInt8}
    (h : fsRead fs fildes nbyte new = some (r, bytes, fs')) {f : OpenFile} {m : FsMeta}
    (found : load fs.openFiles fildes = some f) (file : load fs.files f.fileNum = some m) :
    bytes.length ≤ toSize (m.size - f.offset) := by
  rw [fsRead, found, Option.bind_eq_bind, Option.bind_some, file, Option.bind_eq_bind,
    Option.bind_some] at h
  obtain ⟨left, rest, h⟩ := Option.bind_eq_some_iff.mp h
  obtain ⟨pos, -, h⟩ := Option.bind_eq_some_iff.mp h
  obtain ⟨⟨block, pos'⟩, -, h⟩ := Option.bind_eq_some_iff.mp h
  obtain ⟨rfl, -⟩ := addInt_eq_some.mp rest
  cases new with
  | none =>
    cases h
    exact Nat.zero_le _
  | some buffer =>
    obtain ⟨bytes', loop, h⟩ := Option.bind_eq_some_iff.mp h
    obtain ⟨offset, -, h⟩ := Option.bind_eq_some_iff.mp h
    obtain ⟨openFiles, -, h⟩ := Option.bind_eq_some_iff.mp h
    cases h
    have length := readLoop_length loop
    rw [← Int.sub_eq_add_neg] at length
    grind

theorem OpenFile.Within.grow {files files' : Files} {f : OpenFile} (within : f.Within files)
    (more : ∀ i < 64, (slot files i).size ≤ (slot files' i).size) : f.Within files' :=
  within.imp_right fun ⟨i, hi, number, used, low, high⟩ =>
    ⟨i, hi, number, used.trans (more i hi), low, high.trans (more i hi)⟩

namespace Sound

theorem file (sound : Sound fs n) {k i : Nat} {hk : k < 32} (number : fs.openFiles[k].fileNum = i) :
    i < 64 ∧ 0 ≤ (slot fs.files i).size ∧ 0 ≤ fs.openFiles[k].offset ∧
      fs.openFiles[k].offset ≤ (slot fs.files i).size := by
  rcases sound.within k hk with closed | ⟨j, hj, same, inside⟩
  · omega
  · obtain rfl : i = j := by omega
    exact ⟨hj, inside⟩

theorem set_opened (sound : Sound fs n) {j : Nat} (hj : j < 32) {f : OpenFile}
    (within : f.Within fs.files) : Sound { fs with openFiles := fs.openFiles.set j f } n :=
  ⟨sound.listed, opened_set (·.Within fs.files) sound.within hj within⟩

theorem named_used (sound : Sound fs n) {name : CString} {i : Nat} (hi : i < 64)
    (found : firstIndex (FsMeta.named name) fs.files.toList = some i)
    (given : name.bytes ≠ [] ∨
      ∃ j < 64, 0 ≤ (slot fs.files j).size ∧ (slot fs.files j).named name = some true) : i < n := by
  have named := firstIndex_holds found (by simpa using hi)
  rcases given with given | ⟨j, hj, used, named'⟩
  · exact sound.listed.named_used hi given (by simpa using named)
  · by_contra beyond
    have before := (sound.listed.inUse j).mp used
    have other := firstIndex_before found (show j < i by omega) (by simpa using hj)
    rw [slot_of_lt hj] at named'
    simp [named'] at other

theorem opened (sound : Sound fs n) (k : Nat) (hk : k < 32) : fs.openFiles[k].Below (n + 1) :=
  (sound.within k hk).imp_right fun ⟨i, _, number, used, _⟩ =>
    ⟨i, Nat.lt_succ_of_lt ((sound.listed.inUse i).mp used), number⟩

theorem read_inside (sound : Sound fs n) {k i : Nat} {hk : k < 32}
    (number : fs.openFiles[k].fileNum = i) {nbyte : Nat} {new : Option Block} {bytes : List UInt8}
    (h : fsRead fs k nbyte new = some (r, bytes, fs')) :
    fs.openFiles[k].offset + bytes.length ≤ (slot fs.files i).size := by
  obtain ⟨hi, used, low, high⟩ := sound.file number
  have sized := sound.listed.sized i ((sound.listed.inUse i).mp used)
  have length := fsRead_length h (load_of_lt _ hk) (by rw [number]; exact load_of_lt _ hi)
  rw [slot_of_lt hi] at *
  have left := toSize_of_nonneg (show 0 ≤ fs.files[i].size - fs.openFiles[k].offset by omega)
    (by unfold intMax at sized; omega)
  omega

theorem create (sound : Sound fs n) {name : CString} (h : fsCreate fs name = some (r, fs')) :
    ∃ n', Sound fs' n' := by
  rcases sound.listed.create h with ⟨rfl, -⟩ | ⟨files, -, -, -, -, openFiles, -, entries, listed⟩
  · exact ⟨n, sound⟩
  · refine ⟨n + 1, listed, fun k hk => ?_⟩
    simp only [openFiles]
    refine (sound.within k hk).imp_right fun ⟨i, hi, number, used, inside⟩ => ⟨i, hi, number, ?_⟩
    have other := (sound.listed.inUse i).mp used
    rw [entries, if_neg (by omega)]
    exact ⟨used, inside⟩

theorem delete (sound : Sound fs n) {name : CString} {new1 new2 : Option Block}
    (h : fsDelete fs name new1 new2 = some (r, fs')) : ∃ n', Sound fs' n' := by
  rcases fsDelete_cases h with ⟨rfl, -⟩ | ⟨i, hi, -, closed, h⟩
  · exact ⟨n, sound⟩
  · obtain ⟨-, -, -, -, openFiles⟩ := deleteFile_eq h
    obtain ⟨kept, listed⟩ := sound.listed.deleteFile h
    refine ⟨_, listed, fun k hk => ?_⟩
    have other : fs.openFiles[k].fileNum ≠ i := closed ⟨k, hk⟩
    simp only [openFiles, Vector.getElem_map]
    rcases sound.within k hk with shut | ⟨j, hj, number, used, inside⟩
    · rw [if_neg (by omega)]
      exact .inl shut
    · -- the slot of the descriptor moves down together with its number
      split
      case isTrue behind =>
        have moved := (kept (j - 1)).1
        rw [closeGap, if_neg (by omega), if_neg (by omega), Nat.sub_add_cancel (by omega)] at moved
        refine .inr ⟨j - 1, by omega, by dsimp only; omega, ?_⟩
        rw [moved]
        exact ⟨used, inside⟩
      case isFalse before =>
        have same := (kept j).1
        rw [closeGap, if_pos (by omega)] at same
        refine .inr ⟨j, hj, number, ?_⟩
        rw [same]
        exact ⟨used, inside⟩

theorem write (sound : Sound fs n) {fildes : Int} {data : List UInt8} {new : Option Block}
    (h : fsWrite fs fildes data new = some (r, fs')) : Sound fs' n := by
  rcases sound.listed.write sound.opened h with ⟨rfl, -⟩ |
    ⟨k, i, hk, hi, size, -, -, number, -, grown, -, openFiles, files, listed⟩
  · exact sound
  · obtain ⟨-, used, low, high⟩ := sound.file number
    have inside := (sound.listed.inUse i).mp used
    rw [slot_of_lt hi] at used high
    have entry (j : Nat) := slot_set fs.files i hi { fs.files[i] with size } j
    rw [← files] at entry
    have more (j : Nat) (hj : j < 64) : (slot fs.files j).size ≤ (slot fs'.files j).size := by
      rw [entry]
      split
      case isTrue here =>
        subst here
        rw [slot_of_lt hi, grown]
        exact Int.le_max_left _ _
      case isFalse => exact Int.le_refl _
    rw [if_pos (.inl inside)] at listed
    refine ⟨listed, fun j hj => ?_⟩
    simp only [openFiles]
    refine opened_set (·.Within fs'.files) (fun k hk => (sound.within k hk).grow more) hk ?_ j hj
    refine .inr ⟨i, hi, number, ?_⟩
    rw [entry, if_pos rfl]
    dsimp only
    omega

theorem truncate (sound : Sound fs n) {fildes length : Int} {new1 new2 : Option Block}
    (keeps : (Call.fsTruncate fildes length new1 new2).KeepsWithin fs)
    (h : fsTruncate fs fildes length new1 new2 = some (r, fs')) : Sound fs' n := by
  rcases sound.listed.truncate h with ⟨rfl, -⟩ |
    ⟨k, i, hk, rfl, -, number, inside, low, high, openFiles, entries, listed⟩
  · exact sound
  · obtain ⟨hi, used, nonneg, below⟩ := sound.file number
    refine ⟨listed, fun j hj => ?_⟩
    have size (i' : Nat) := (entries i').1
    simp only [openFiles]
    rcases eq_or_ne j k with rfl | other
    · have here := size i
      rw [if_pos rfl] at here
      rw [Vector.getElem_set_self]
      refine .inr ⟨i, hi, number, ?_⟩
      rw [here]
      dsimp only
      omega
    · rw [Vector.getElem_set_ne _ _ other.symm]
      refine (sound.within j hj).imp_right fun ⟨i', hi', number', used', low', high'⟩ =>
        ⟨i', hi', number', ?_⟩
      rw [size]
      split
      case isTrue same =>
        subst same
        have file := load_of_lt fs.files hi
        rw [← number] at file
        rw [slot_of_lt hi] at high
        exact ⟨low, low', keeps _ _ (load_of_lt _ hk) file low high j hj
          (fun same => other (Int.ofNat_inj.mp same)) (number'.trans number.symm)⟩
      case isFalse => exact ⟨used', low', high'⟩

theorem step (sound : Sound fs n) {c : Call} (keeps : c.KeepsWithin fs) (h : Step fs c fs') :
    ∃ n', Sound fs' n' := by
  obtain ⟨r, h⟩ := h
  cases c with
  | fsOpen name =>
    rcases fsOpen_found h with ⟨rfl, -⟩ | ⟨k, i, hk, hi, -, free, found, rfl⟩
    · exact ⟨n, sound⟩
    · have given : name.bytes ≠ [] ∨
          ∃ j < 64, 0 ≤ (slot fs.files j).size ∧ (slot fs.files j).named name = some true := by
        rcases keeps with given | used | taken
        · exact .inl given
        · exact .inr used
        · exact absurd free (taken k hk)
      have used := sound.listed.used i (sound.named_used hi found given)
      exact ⟨n, sound.set_opened hk (.inr ⟨i, hi, rfl, used, Int.le_refl 0, used⟩)⟩
  | fsClose fildes =>
    rcases fsClose_cases h with ⟨rfl, -⟩ | ⟨k, hk, -, -, -, rfl⟩
    · exact ⟨n, sound⟩
    · exact ⟨n, sound.set_opened hk (.inl rfl)⟩
  | fsCreate name => exact sound.create h
  | fsDelete name new1 new2 => exact sound.delete h
  | fsRead fildes nbyte new =>
    obtain ⟨⟨r, bytes, fs'⟩, h, same⟩ := Option.bind_eq_some_iff.mp h
    cases same
    rcases fsRead_cases h with ⟨rfl, -⟩ | ⟨k, i, hk, rfl, -, number, hi, rfl⟩
    · exact ⟨n, sound⟩
    · have length := sound.read_inside number h
      obtain ⟨-, used, low, -⟩ := sound.file number
      refine ⟨n, sound.set_opened hk (.inr ⟨i, hi, number, used, ?_⟩)⟩
      dsimp only at length low ⊢
      omega
  | fsWrite fildes data new => exact ⟨n, sound.write h⟩
  | fsGetFilesize fildes =>
    obtain ⟨size, -, same⟩ := Option.map_eq_some_iff.mp h
    cases same
    exact ⟨n, sound⟩
  | fsLseek fildes offset =>
    rcases fsLseek_cases h with ⟨rfl, -⟩ | ⟨k, i, hk, hi, rfl, -, number, small, rfl⟩
    · exact ⟨n, sound⟩
    · have file := load_of_lt fs.files hi
      rw [← number] at file
      have inside := (keeps _ _ (load_of_lt _ hk) file).resolve_left (by omega)
      obtain ⟨-, used, -⟩ := sound.file number
      refine ⟨n, sound.set_opened hk (.inr ⟨i, hi, number, used, ?_⟩)⟩
      rwa [slot_of_lt hi]
  | fsTruncate fildes length new1 new2 => exact ⟨n, sound.truncate keeps h⟩

end Sound

def ReadsWithin (fs : FileSys) : Prop :=
  ∀ (k i nbyte : Nat) new r bytes fs' (hk : k < 32), fs.openFiles[k].fileNum = i →
    fsRead fs k nbyte new = some (r, bytes, fs') →
    fs.openFiles[k].offset + bytes.length ≤ (slot fs.files i).size

/-- `fs_write` changes no byte in front of the file, exactly if its buffer holds
what is there. -/
def WritesWithin (fs : FileSys) : Prop :=
  ∀ (k i : Nat) data new r fs' (hk : k < 32), fs.openFiles[k].fileNum = i →
    fsWrite fs k data new = some (r, fs') →
    (FrontKept fs fs' (slot fs.files i) ↔ (Call.fsWrite k data new).KeepsWithin fs)

theorem FrontKept.refl (opened : ∃ d blocks, fs.disk.handle = some d ∧ fs.disk.host d = some blocks)
    (m : FsMeta) : FrontKept fs fs m := by
  obtain ⟨d, blocks, handle, image⟩ := opened
  exact ⟨d, blocks, blocks, handle, image, image, fun _ _ _ => rfl⟩

theorem Sound.writes (sound : Sound fs n) (filed : Filed fs.files)
    (opened : ∃ d blocks, fs.disk.handle = some d ∧ fs.disk.host d = some blocks) :
    WritesWithin fs := by
  intro k i data new r fs' hk number h
  obtain ⟨hi, used, low, -⟩ := sound.file number
  have found := load_of_lt fs.openFiles hk
  have file := load_of_lt fs.files hi
  rw [← number] at file
  have done := fsWrite_done_iff h found file
  by_cases refused : r = -1
  · -- the disk is as it was, and nothing is asked of the buffer
    have same : fs' = fs := by
      rcases fsWrite_cases h with ⟨same, -⟩ | ⟨-, -, -, -, -, accepted, -⟩
      · exact same
      · omega
    refine iff_of_true (same ▸ .refl opened _) fun f m buffer found' file' given grows => ?_
    obtain rfl := Option.some.inj (found.symm.trans found')
    obtain rfl := Option.some.inj (file.symm.trans file')
    exact absurd refused (done.mpr ⟨by rw [given]; exact Option.some_ne_none _, grows⟩)
  · obtain ⟨given, grows⟩ := done.mp refused
    obtain ⟨buffer, rfl⟩ := Option.ne_none_iff_exists'.mp given
    obtain ⟨d, blocks, handle, image⟩ := opened
    obtain ⟨⟨block, -⟩, ⟨offset, -⟩⟩ := filed.positioned i
    rw [slot_of_lt hi] at block offset ⊢
    have start : 0 ≤ fs.files[i].start :=
      Int.add_nonneg (Int.mul_nonneg block (Int.natCast_nonneg _)) offset
    obtain ⟨s, place⟩ := Int.eq_ofNat_of_zero_le (Int.add_nonneg start low)
    obtain ⟨blocks', disk, bytes⟩ := @fsWrite_front fs fs' r d blocks k i hk hi data s buffer
      handle image number (Int.add_nonneg offset low) place h refused
    have image' : fs'.disk.host d = some blocks' := by rw [disk, Disk.showing_host]
    rw [frontKept_iff handle image image']
    constructor
    · intro kept f m buffer₁ found' file' given' _
      obtain rfl := Option.some.inj (found.symm.trans found')
      obtain rfl := Option.some.inj (file.symm.trans file')
      obtain rfl := Option.some.inj given'
      refine (holdsFront_iff handle image).mpr fun p inside front here => ?_
      rw [place, Int.toNat_natCast] at here
      rw [← kept p inside front, bytes p inside (by omega), taken, if_pos here]
    · intro keeps p inside front
      have holds := (holdsFront_iff handle image).mp (keeps _ _ buffer found file rfl grows)
      rw [bytes p inside (by omega), taken]
      split
      case isTrue here =>
        refine (holds p inside front ?_).symm
        rw [place, Int.toNat_natCast]
        exact here
      case isFalse => rfl

theorem Mounted.sound (h : Mounted fs) : Sound fs 0 where
  listed := h.packed.listed
  within k hk := by
    rcases h.packed.opened k hk with closed | ⟨i, hi, -⟩
    · exact .inl closed
    · omega

theorem run_opened {calls : List Call} (start : Mounted mounted) (run : Run Step mounted calls fs) :
    ∃ d blocks, fs.disk.handle = some d ∧ fs.disk.host d = some blocks := by
  obtain ⟨d, blocks, handle, image⟩ := start.opened
  obtain ⟨blocks', disk⟩ := (run_rewritten run).opened handle image
  exact ⟨d, blocks', by rw [disk, Disk.showing_handle], by rw [disk, Disk.showing_host]⟩

theorem run_descriptors {calls : List Call} (start : Mounted mounted)
    (run : Run (fun s c t => c.KeepsWithin s ∧ Step s c t) mounted calls fs) :
    (∀ k (hk : k < 32), fs.openFiles[k].Within fs.files) ∧ ReadsWithin fs ∧ WritesWithin fs := by
  obtain ⟨⟨n, sound⟩, filed⟩ : (∃ n, Sound fs n) ∧ Filed fs.files :=
    run.invariant (fun s => (∃ n, Sound s n) ∧ Filed s.files) ⟨⟨0, start.sound⟩, start.filed⟩
      fun _ _ _ ⟨⟨_, sound⟩, filed⟩ ⟨keeps, step⟩ =>
        ⟨sound.step keeps step, filed.step sound.listed step⟩
  have opened := run_opened start (run.mono fun _ _ _ h => h.2)
  exact ⟨sound.within, fun _ _ _ _ _ _ _ _ number h => sound.read_inside number h,
    sound.writes filed opened⟩

section

def Call.OnOpen (fs : FileSys) : Call → Prop
  | .fsOpen _ | .fsCreate _ | .fsDelete _ _ _ => True
  | .fsClose fildes | .fsRead fildes _ _ | .fsWrite fildes _ _ | .fsGetFilesize fildes
  | .fsLseek fildes _ | .fsTruncate fildes _ _ _ => IsOpen fs fildes

def openedAt (offset : Int) (disk : Disk) : FileSys :=
  ⟨threeOpen 0 (-1) (-1) offset, twoEntries (entry nameA 0 0) FsMeta.zero.fresh, disk⟩

theorem run_openedAt : ∃ mounted disk, Mounted mounted ∧ ∀ P : FileSys → Call → Prop,
    (∀ s, P s (.fsCreate nameA)) → (∀ s, P s (.fsOpen nameA)) →
    Run (fun s c t => P s c ∧ Step s c t) mounted [.fsCreate nameA,
      .fsOpen nameA] (openedAt 0 disk) := by
  obtain ⟨disk, mounted⟩ := mounted_start
  refine ⟨_, disk, mounted, fun P create opens => ?_⟩
  refine .cons (t := ⟨threeOpen (-1) (-1) (-1) 0,
    twoEntries (entry nameA 0 0) FsMeta.zero.fresh, disk⟩)
    ⟨create _, 0, rfl⟩ ?_
  exact .single ⟨opens _, 0, rfl⟩

def beside (disk : Disk) : FileSys :=
  ⟨threeOpen 0 1 (-1) 3, twoEntries (entry nameA 0 3) (entry nameB 3 0), disk⟩

def besideCalls : List Call :=
  [.fsCreate nameA, .fsOpen nameA, .fsWrite 0 [1, 2, 3] (some zeroBlock), .fsCreate nameB,
    .fsOpen nameB]

def sharedBlock : Block := ((zeroBlock.set 0 1).set 1 2).set 2 3

theorem holdsFront_first (fs : FileSys) (buffer : Block) :
    HoldsFront fs ⟨0, 0⟩ (entry nameA 0 0) buffer := by
  intro d blocks _ _ p _ front here
  have start : (entry nameA 0 0).start = dataStart * blockSize := by decide +kernel
  rw [start, show (OpenFile.mk 0 0).offset = 0 from rfl, Int.add_zero] at here
  rw [start] at front
  unfold dataStart diskBlocks blockSize at *
  omega

theorem run_beside : ∃ mounted disk, Mounted mounted ∧
    Run (fun s c t => c.KeepsWithin s ∧ Step s c t) mounted besideCalls (beside disk) ∧
    HoldsFront (beside disk) ⟨1, 0⟩ (entry nameB 3 0) sharedBlock := by
  obtain ⟨mounted, disk, start, run⟩ := run_openedAt
  obtain ⟨disk', write⟩ : ∃ disk', fsWrite (openedAt 0 disk) 0 [1, 2, 3] (some zeroBlock) =
      some (3, ⟨threeOpen 0 (-1) (-1) 3, twoEntries (entry nameA 0 3) FsMeta.zero.fresh, disk'⟩) :=
    ⟨_, rfl⟩
  have before :=
    run (fun s c => c.KeepsWithin s) (fun _ => trivial) fun _ => .inl (List.cons_ne_nil _ _)
  have keeps : Call.KeepsWithin (openedAt 0 disk) (.fsWrite 0 [1, 2, 3] (some zeroBlock)) := by
    intro f m buffer found file _ _
    obtain rfl := Option.some.inj found
    obtain rfl := Option.some.inj file
    exact holdsFront_first _ buffer
  have create : Step
      ⟨threeOpen 0 (-1) (-1) 3, twoEntries (entry nameA 0 3) FsMeta.zero.fresh, disk'⟩
        (.fsCreate nameB)
      ⟨threeOpen 0 (-1) (-1) 3, twoEntries (entry nameA 0 3) (entry nameB 3 0), disk'⟩ := ⟨0, rfl⟩
  have opens : Step ⟨threeOpen 0 (-1) (-1) 3, twoEntries (entry nameA 0 3) (entry nameB 3 0), disk'⟩
      (.fsOpen nameB) (beside disk') := ⟨1, rfl⟩
  have fresh (fs : FileSys) : Call.KeepsWithin fs (.fsCreate nameB) := trivial
  have named (fs : FileSys) : Call.KeepsWithin fs (.fsOpen nameB) := .inl (List.cons_ne_nil _ _)
  have wrote : Step (openedAt 0 disk) (.fsWrite 0 [1, 2, 3] (some zeroBlock)) _ := ⟨3, write⟩
  have all := ((before.snoc ⟨keeps, wrote⟩).snoc ⟨fresh _, create⟩).snoc ⟨named _, opens⟩
  refine ⟨mounted, disk', start, all, ?_⟩
  obtain ⟨d, blocks, handle, image⟩ := run_opened start (before.mono fun _ _ _ h => h.2)
  have place : (entry nameA 0 0).start + 0 = (dataStart * blockSize : Nat) := by decide +kernel
  obtain ⟨blocks', showing, bytes⟩ :=
    @fsWrite_bytes (openedAt 0 disk) _ 3 d blocks 0 0 (by decide) (by decide)
    _ _ _ handle image rfl (show (0 : Int) ≤ 0 by decide) place (by decide) write (by decide)
  have disk_eq : disk' = disk.showing d blocks' := showing
  intro d₁ blocks₁ handle₁ image₁ p inside front here
  have handle' : disk'.handle = some d := by rw [disk_eq, Disk.showing_handle]
  have image' : disk'.host d = some blocks' := by rw [disk_eq, Disk.showing_host]
  obtain rfl := Option.some.inj (handle'.symm.trans handle₁)
  obtain rfl := Option.some.inj (image'.symm.trans image₁)
  have behind : (entry nameB 3 0).start = (dataStart * blockSize + 3 : Nat) := by decide +kernel
  rw [behind] at front
  rw [behind, show (OpenFile.mk 1 0).offset = 0 from rfl, Int.add_zero, Int.toNat_natCast] at here
  obtain ⟨t, rfl⟩ : ∃ t, p = dataStart * blockSize + t :=
    ⟨p - dataStart * blockSize, by unfold dataStart diskBlocks blockSize at *; omega⟩
  have short : t < [(1 : UInt8), 2, 3].length := show t < 3 by omega
  have small : t < blockSize := lt_trans short (by decide)
  rw [bytes _ inside, written_inside short, Nat.mul_add_mod_self_right, Nat.mod_eq_of_lt small]
  have shared :
    ∀ t (ht : t < 3), [(1 : UInt8), 2, 3][t] = (sharedBlock[t]?).getD 0 := by decide +kernel
  exact shared t short

def bothWritten (offset : Int) (disk : Disk) : FileSys :=
  ⟨(threeOpen 0 1 (-1) offset).set 1 ⟨1, 1⟩ (Nat.le_of_ble_eq_true rfl),
    twoEntries (entry nameA 0 3) (entry nameB 3 1), disk⟩

theorem onlyFirst : ∀ (k : Nat) (hk : k < 32), (k : Int) ≠ 0 →
    ((threeOpen 0 1 (-1) 1).set 1 ⟨1, 1⟩)[k].fileNum ≠ 0 := by decide +kernel

/-- Both files are written, one after the other in the block they share, and the
first one is cut to the byte that its descriptor has been moved to. -/
theorem run_descriptors_opened : ∃ disk written fs,
    fsWrite (beside disk) 1 [9] (some sharedBlock) = some (1, written) ∧
    FrontKept (beside disk) written (entry nameB 3 0) ∧
    (∀ k (hk : k < 32), fs.openFiles[k].Within fs.files) ∧ ReadsWithin fs := by
  obtain ⟨mounted, disk, start, run, holds⟩ := run_beside
  obtain ⟨disk', write⟩ : ∃ disk', fsWrite (beside disk) 1 [9] (some sharedBlock) =
      some (1, bothWritten 3 disk') := ⟨_, rfl⟩
  have keeps : Call.KeepsWithin (beside disk) (.fsWrite 1 [9] (some sharedBlock)) := by
    intro f m buffer found file given _
    obtain rfl := Option.some.inj found
    obtain rfl := Option.some.inj file
    obtain rfl := Option.some.inj given
    exact holds
  have kept :=
    ((run_descriptors start run).2.2 1 1 [9] (some sharedBlock) 1 _ (by decide) rfl write).mpr keeps
  have wrote : Step (beside disk) (.fsWrite 1 [9] (some sharedBlock)) (bothWritten 3 disk') :=
    ⟨1, write⟩
  have moves : Step (bothWritten 3 disk') (.fsLseek 0 1) (bothWritten 1 disk') := ⟨0, rfl⟩
  have inside : Call.KeepsWithin (bothWritten 3 disk') (.fsLseek 0 1) := by
    intro f m found file
    obtain rfl := Option.some.inj found
    obtain rfl := Option.some.inj file
    exact .inr (show 0 ≤ toInt 1 ∧ toInt 1 ≤ 3 by decide)
  obtain ⟨files, filled⟩ := Option.isSome_iff_exists.mp (show (fillFrom
    (twoEntries (entry nameA 0 1) (entry nameB 3 1)) (63 - 0) (0 : Nat)).isSome by decide +kernel)
  obtain ⟨openFiles, truncated⟩ :=
    fsTruncate_one (bothWritten 1 disk') (show 0 < 32 by decide) (show 0 < 64 by decide) rfl
    (show (1 : Int) ≤ 3 by decide) (Int.le_refl 0) (show (0 : Int) < blockSize by decide) filled
      none none
  have cut : Step (bothWritten 1 disk') (.fsTruncate 0 1 none none) _ := ⟨0, truncated⟩
  have others : Call.KeepsWithin (bothWritten 1 disk') (.fsTruncate 0 1 none none) := by
    intro f m found file _ _ k hk other number
    obtain rfl := Option.some.inj found
    exact absurd number (onlyFirst k hk other)
  have last := run_descriptors start
    (((run.snoc ⟨keeps, wrote⟩).snoc ⟨inside, moves⟩).snoc ⟨others, cut⟩)
  exact ⟨disk, _, _, write, kept, last.1, last.2.1⟩

/-- Moved to offset -1, the descriptor is in front of its file. -/
theorem descriptors_lost : ¬∀ mounted calls fs, Mounted mounted →
    Run (fun s c t => c.OnOpen s ∧ Step s c t) mounted calls fs →
    ∀ k (hk : k < 32), fs.openFiles[k].Within fs.files := by
  intro kept
  obtain ⟨mounted, disk, start, run⟩ := run_openedAt
  have opened := run (fun s c => c.OnOpen s) (fun _ => trivial) fun _ => trivial
  have moved : Step (openedAt 0 disk) (.fsLseek 0 (-1)) (openedAt (-1) disk) := ⟨0, rfl⟩
  have onOpen : Call.OnOpen (openedAt 0 disk) (.fsLseek 0 (-1)) := ⟨⟨0, 0⟩, rfl, by decide⟩
  rcases kept mounted _ _ start (opened.snoc ⟨onOpen, moved⟩) 0 (by decide) with
    closed | ⟨i, -, -, -, low, -⟩
  · exact absurd closed (show (0 : Int) ≠ -1 by decide)
  · exact absurd low (show ¬(0 : Int) ≤ -1 by decide)

end

end LastPicked.FileSystem
