import LastPicked.FileSysFrame
import LastPicked.FileSysRuns
import LastPicked.WriteBytes

/-! Unmounting a file system and mounting it again gives it back. Making
another one while it is mounted clears it: `make_fs` goes on when its own
`mount_fs` fails, and works on the table and the disk that are still open. -/

namespace LastPicked.FileSystem
open CIntegers CMemory FlatBlocks LabelledRuns

variable {made mounted fs fs' : FileSys} {d : CString} {blocks : Image} {calls : List Call}
  {r : Int}

theorem mounted_run {new : Option Block} (mount : mountFs made (some d) new = (0, mounted))
    (run : Run Step mounted calls fs) :
    ∃ blocks, fs.disk.handle = some d ∧ fs.disk.host d = some blocks ∧ fs.disk.permits d ∧
      Ranged fs.files := by
  obtain ⟨name, old, same, -, image, permitted, rest⟩ := mountFs_eq mount
  obtain rfl := Option.some.inj same
  have files : Ranged mounted.files := by
    rw [rest]
    exact bufferToFiles_ranged old[0]
  have disk : mounted.disk = { made.disk with handle := some d } := by rw [rest]
  obtain ⟨blocks, after⟩ := (run_rewritten run).opened (by rw [disk]) (by rw [disk]; exact image)
  refine ⟨blocks, by rw [after]; rfl, by rw [after]; exact Disk.showing_host, ?_, files.run run⟩
  rw [after, disk]
  exact permitted

theorem byteAt_set_table (buffer : Block) {p : Nat} (h : blockSize ≤ p) :
    byteAt (blocks.set 0 buffer) p = byteAt blocks p := by
  have later : p / blockSize ≠ 0 := (Nat.div_pos h (by decide)).ne'
  rw [byteAt, flat_set (by decide), if_neg later, byteAt]

theorem remount {new : Option Block} (mount : mountFs made (some d) new = (0, mounted))
    (run : Run Step mounted calls fs) (buffer buffer' : Block) :
    ∃ blocks unmounted remounted blocks', fs.disk.host d = some blocks ∧
      unmountFs fs (some buffer) = (0, unmounted) ∧
      mountFs unmounted (some d) (some buffer') = (0, remounted) ∧
      remounted.files = fs.files ∧ (∀ k : Fin 32, (remounted.openFiles.get k).fileNum = -1) ∧
      remounted.disk.handle = some d ∧ remounted.disk.host d = some blocks' ∧
      ∀ k < 64, dataStart * blockSize ≤ (slot fs.files k).start →
        (slot remounted.files k).contents blocks' = (slot fs.files k).contents blocks := by
  obtain ⟨blocks, opened, image, permitted, ranged⟩ := mounted_run mount run
  obtain ⟨disk, unmount, closed, permits, image'⟩ := unmountFs_open fs opened image buffer
  obtain ⟨disk', mount', opened', image'', -⟩ := mountFs_open
    ⟨closeAll fs.openFiles, Vector.replicate 64 FsMeta.zero, disk⟩ closed image'
    (by rw [permits]; exact permitted) buffer'
  have table : bufferToFiles (filesToBuffer fs.files buffer) = fs.files :=
    bufferToFiles_filesToBuffer buffer fun i => by simpa using ranged i
  rw [Vector.getElem_set_self, table] at mount'
  refine ⟨blocks, _, _, _, image, unmount, mount', rfl, fun k => by simp [closeAll], opened',
    image'', fun k _ data => FsMeta.contents_congr rfl fun t _ => byteAt_set_table _ ?_⟩
  have first : (blockSize : Int) ≤ dataStart * blockSize := by decide
  have start : blockSize ≤ (slot fs.files k).start.toNat := by omega
  exact start.trans (Nat.le_add_right _ t)

section

/-- What a disk shows of its files, now or when it is mounted next: the names,
the sizes and the contents of those in use. -/
def shownFiles (fs : FileSys) (d : CString) :
    Option (List (Vector UInt8 16 × Int × List UInt8)) := do
  let blocks ← fs.disk.host d
  let files := if fs.disk.handle = some d then fs.files else bufferToFiles blocks[0]
  some ((files.toList.filter fun m => m.size ≠ -1).map fun m =>
    (m.fileName, m.size, m.contents blocks))

def SparesDisk (fs : FileSys) (d : CString) (r : Int) (fs' : FileSys) : Prop :=
  r = -1 ∧ fs'.files = fs.files ∧ fs'.openFiles = fs.openFiles ∧
      fs'.disk.handle = fs.disk.handle ∧ fs'.disk.host d = fs.disk.host d ∨
    r = 0 ∧ shownFiles fs' d = shownFiles fs d

theorem fresh_filter (files : Files) :
    (files.map FsMeta.fresh).toList.filter (fun m => m.size ≠ -1) = [] := by
  rw [List.filter_eq_nil_iff]
  intro m there
  rw [Vector.toList_map] at there
  obtain ⟨old, -, rfl⟩ := List.mem_map.mp there
  simp [FsMeta.fresh]

theorem makeFs_open (diskName : DiskName) (opened : fs.disk.handle = some d)
    (new new' : Option Block) :
    (makeDisk fs.disk diskName = (-1, fs.disk) ∧ makeFs fs diskName new new' = (-1, fs)) ∨
      ∃ name disk, diskName = some name ∧ makeDisk fs.disk diskName = (0, disk) ∧
        disk.handle = some d ∧ (∀ other, other ≠ name → disk.host other = fs.disk.host other) ∧
        makeFs fs diskName new new' =
          (0, (unmountFs { fs with files := fs.files.map FsMeta.fresh, disk } new').2) := by
  rcases makeDisk_cases fs.disk diskName with failed | ⟨name, rfl, permitted, created⟩
  · exact .inl ⟨failed, by simp [makeFs, failed]⟩
  · refine .inr ⟨name, _, rfl, created, opened, fun other ne => Function.update_of_ne ne _ _, ?_⟩
    simp [makeFs, created, mountFs, openDisk, opened]

/-- Clearing the table and unmounting leaves no file on the disk that was open. -/
theorem unmountFs_clears {new' : Option Block} (opened : fs.disk.handle = some d)
    (image : fs.disk.host d = some blocks) :
    shownFiles (unmountFs { fs with files := fs.files.map FsMeta.fresh } new').2 d = some [] := by
  cases new' with
  | none =>
    simp only [unmountFs, shownFiles, image, opened, if_true, fresh_filter, List.map_nil,
      Option.bind_eq_bind, Option.bind_some]
  | some buffer =>
    have table : bufferToFiles (filesToBuffer (fs.files.map FsMeta.fresh) buffer) =
        fs.files.map FsMeta.fresh :=
      bufferToFiles_filesToBuffer buffer fun i => by simpa using FsMeta.fresh_ranged _
    have written := blockWrite_open opened image (Int.le_refl 0) (by decide)
      (filesToBuffer (fs.files.map FsMeta.fresh) buffer)
    have closed : (none : Option CString) ≠ some d := (Option.some_ne_none d).symm
    simp only [unmountFs, written, closeDisk, opened, Option.isSome_some, if_true, shownFiles,
      Function.update_self, closed, if_false, Vector.getElem_set_self, Int.toNat_zero, table,
      fresh_filter, List.map_nil, Option.bind_eq_bind, Option.bind_some]

theorem shownFiles_open (opened : fs.disk.handle = some d) (image : fs.disk.host d = some blocks) :
    shownFiles fs d = some [] ↔ ∀ k : Fin 64, (fs.files.get k).size = -1 := by
  simp only [shownFiles, image, opened, if_true, Option.bind_eq_bind, Option.bind_some,
    Option.some.injEq, List.map_eq_nil_iff, List.filter_eq_nil_iff, decide_not, Bool.not_eq_true',
    decide_eq_false_iff_not,
    not_not]
  constructor
  · exact fun unused k => unused _ (Vector.mem_toList_iff.mpr (Vector.getElem_mem k.isLt))
  · intro unused m there
    obtain ⟨k, hk, rfl⟩ := Vector.getElem_of_mem (Vector.mem_toList_iff.mp there)
    exact unused ⟨k, hk⟩

theorem makeFs_cleared {diskName : DiskName} {new new' : Option Block}
    (opened : fs.disk.handle = some d) (image : fs.disk.host d = some blocks)
    (other : diskName ≠ some d) (created : (makeDisk fs.disk diskName).1 ≠ -1)
    (make : makeFs fs diskName new new' = (r, fs')) : r = 0 ∧ shownFiles fs' d = some [] := by
  rcases makeFs_open diskName opened new new' with ⟨failed, -⟩ |
    ⟨name, disk, rfl, -, opened', kept, same⟩
  · exact absurd (by rw [failed]) created
  · rw [make] at same
    obtain ⟨rfl, rfl⟩ := Prod.mk.inj same
    have image' : disk.host d = some blocks := (kept d fun same => other (by rw [same])).trans image
    exact ⟨rfl, @unmountFs_clears { fs with disk } d blocks new' opened' image'⟩

/-- Making a file system spares the disk that is mounted exactly when it fails
at once or there is nothing to lose. -/
theorem makeFs_spares_iff {diskName : DiskName} {new new' : Option Block}
    (opened : fs.disk.handle = some d) (image : fs.disk.host d = some blocks)
    (other : diskName ≠ some d) (make : makeFs fs diskName new new' = (r, fs')) :
    SparesDisk fs d r fs' ↔
      (makeDisk fs.disk diskName).1 = -1 ∨ ∀ k : Fin 64, (fs.files.get k).size = -1 := by
  by_cases failed : (makeDisk fs.disk diskName).1 = -1
  · refine ⟨fun _ => .inl failed, fun _ => .inl ?_⟩
    rcases makeFs_open diskName opened new new' with ⟨-, same⟩ | ⟨-, disk, -, created, -⟩
    · rw [make] at same
      cases same
      exact ⟨rfl, rfl, rfl, rfl, rfl⟩
    · rw [created] at failed
      exact absurd failed (show (0 : Int) ≠ -1 by decide)
  · obtain ⟨rfl, cleared⟩ := makeFs_cleared opened image other failed make
    rw [← shownFiles_open opened image, or_iff_right failed, SparesDisk, cleared]
    constructor
    · rintro (⟨other, -⟩ | ⟨-, same⟩)
      · cases other
      · exact same.symm
    · exact fun empty => .inr ⟨rfl, empty.symm⟩

def oneFile (disk : Disk) : FileSys :=
  ⟨threeOpen (-1) (-1) (-1) 0, twoEntries (entry nameA 0 0) FsMeta.zero.fresh, disk⟩

theorem run_oneFile :
    ∃ made mounted disk, mountFs made (some nameA) (some zeroBlock) = (0, mounted) ∧
    Run Step mounted [.fsCreate nameA] (oneFile disk) ∧ disk.permits = start.disk.permits := by
  obtain ⟨made, disk, -, mount, permits⟩ := mount_start
  exact ⟨made, _, disk, mount, .single ⟨0, rfl⟩, permits⟩

def threeBytes (disk : Disk) : FileSys :=
  ⟨threeOpen 0 (-1) (-1) 3, twoEntries (entry nameA 0 3) FsMeta.zero.fresh, disk⟩

theorem run_threeBytes :
    ∃ made mounted disk blocks, mountFs made (some nameA) (some zeroBlock) = (0, mounted) ∧
    Run Step mounted [.fsCreate nameA, .fsOpen nameA,
      .fsWrite 0 [1, 2, 3] (some zeroBlock)] (threeBytes disk) ∧
    disk.host nameA = some blocks ∧ (entry nameA 0 3).contents blocks = [1, 2, 3] := by
  obtain ⟨made, mounted, disk, mount, run, -⟩ := run_oneFile
  have opens : Step (oneFile disk) (.fsOpen nameA)
      ⟨threeOpen 0 (-1) (-1) 0, twoEntries (entry nameA 0 0) FsMeta.zero.fresh, disk⟩ := ⟨0, rfl⟩
  obtain ⟨disk', write⟩ : ∃ disk',
      fsWrite ⟨threeOpen 0 (-1) (-1) 0, twoEntries (entry nameA 0 0) FsMeta.zero.fresh, disk⟩ 0
        [1, 2, 3] (some zeroBlock) = some (3, threeBytes disk') := ⟨_, rfl⟩
  have writes : Step _ (.fsWrite 0 [1, 2, 3] (some zeroBlock)) (threeBytes disk') := ⟨3, write⟩
  obtain ⟨blocks, opened, image, -⟩ := mounted_run mount (run.snoc opens)
  have place : (entry nameA 0 0).start + 0 = (dataStart * blockSize : Nat) := by decide +kernel
  obtain ⟨blocks', showing, bytes⟩ := @fsWrite_bytes _ _ 3 nameA blocks 0 0 (by decide) (by decide)
    _ _ _ opened image rfl (show (0 : Int) ≤ 0 by decide) place (by decide) write (by decide)
  have disk_eq : disk' = disk.showing nameA blocks' := showing
  refine ⟨made, mounted, disk', blocks', mount, (run.snoc opens).snoc writes, ?_, ?_⟩
  · rw [disk_eq, Disk.showing_host]
  · refine FsMeta.contents_of_bytes (show (entry nameA 0 3).start =
      (dataStart * blockSize : Nat) by decide +kernel)
      rfl fun t ht => ?_
    have short : t < 3 := ht
    rw [bytes _ (by unfold diskBytes dataStart diskBlocks blockSize; omega), written_inside ht]

theorem remount_threeBytes : ∃ disk unmounted remounted blocks',
    unmountFs (threeBytes disk) (some zeroBlock) = (0, unmounted) ∧
    mountFs unmounted (some nameA) (some zeroBlock) = (0, remounted) ∧
    remounted.files = twoEntries (entry nameA 0 3) FsMeta.zero.fresh ∧
    (∀ k : Fin 32, (remounted.openFiles.get k).fileNum = -1) ∧
    remounted.disk.host nameA = some blocks' ∧
    (slot remounted.files 0).contents blocks' = [1, 2, 3] := by
  obtain ⟨made, mounted, disk, blocks, mount, run, image, contents⟩ := run_threeBytes
  obtain ⟨_, unmounted, remounted, blocks', image', unmount, again, files, closed, -, host, kept⟩ :=
    remount mount run zeroBlock zeroBlock
  obtain rfl := Option.some.inj (image.symm.trans image')
  have behind : dataStart * blockSize ≤ (entry nameA 0 3).start := by decide +kernel
  exact ⟨disk, unmounted, remounted, blocks', unmount, again, files, closed, host,
    (kept 0 (by decide) behind).trans contents⟩

theorem makeFs_spares_iff_oneFile : ∃ disk, ¬SparesDisk (oneFile disk) nameA
    (makeFs (oneFile disk) (some nameB) none none).1
    (makeFs (oneFile disk) (some nameB) none none).2 := by
  obtain ⟨made, mounted, disk, mount, run, permits⟩ := run_oneFile
  obtain ⟨blocks, opened, image, -⟩ := mounted_run mount run
  refine ⟨disk, (makeFs_spares_iff opened image (show some nameB ≠ some nameA by decide)
    (show makeFs (oneFile disk) (some nameB) none none = _ from rfl)).not.mpr ?_⟩
  rintro (failed | unused)
  · simp [oneFile, makeDisk, permits, start] at failed
  · exact absurd (unused 0) (show (0 : Int) ≠ -1 by decide)

theorem makeFs_destroys : ¬∀ made mounted fs fs' d blank calls diskName new new' r,
    mountFs made (some d) (some blank) = (0, mounted) → Run Step mounted calls fs →
      diskName ≠ some d → makeFs fs diskName new new' = (r, fs') → SparesDisk fs d r fs' := by
  intro spares
  obtain ⟨made, mounted, disk, mount, run, permits⟩ := run_oneFile
  obtain ⟨blocks, opened, image, -⟩ := mounted_run mount run
  have done : (makeDisk (oneFile disk).disk (some nameB)).1 ≠ -1 := by
    simp [oneFile, makeDisk, permits, start]
  have other : some nameB ≠ some nameA := by decide
  obtain ⟨r, cleared⟩ := makeFs_cleared opened image other done
    (show makeFs (oneFile disk) (some nameB) none none = _ from rfl)
  rcases spares _ _ _ _ _ _ _ _ none none _ mount run other rfl with ⟨failed, -⟩ | ⟨-, same⟩
  · rw [r] at failed
    cases failed
  · have unused := (shownFiles_open opened image).mp (same.symm.trans cleared)
    exact absurd (unused 0) (show (0 : Int) ≠ -1 by decide)

end

end LastPicked.FileSystem
