import LastPicked.FileSysLayout

/-! Whole sessions, from `make_fs` and `mount_fs` on. In every session whose
truncations reach the slot behind the file they cut, the files lie end to end;
a truncation that does not reach it loses the layout. -/

namespace LastPicked.FileSystem
open CIntegers CMemory EndToEnd LabelledRuns

variable {fs fs' mounted : FileSys} {files : Files} {n : Nat} {r : Int} {calls : List Call}

def FsMeta.extent (m : FsMeta) : Set Int := Set.Ico m.start (m.start + m.size)

/-- The slots in use are the first `n`, and their files fill the disk from
`DATA_START` on without overlaps and without gaps. -/
structure Layout (files : Files) (n : Nat) : Prop where
  inUse : ∀ k, 0 ≤ (slot files k).size ↔ k < n
  start : ∀ k < n, (slot files k).block * blockSize + (slot files k).offset =
    dataStart * blockSize + ∑ j ∈ Finset.range k, (slot files j).size
  offset : ∀ k < n, 0 ≤ (slot files k).offset ∧ (slot files k).offset ≤ blockSize
  apart : ∀ j < n, ∀ k < n, j ≠ k → Disjoint (slot files j).extent (slot files k).extent
  gapless : ⋃ k < n, (slot files k).extent = Set.Ico (dataStart * blockSize : Int)
    (dataStart * blockSize + ∑ k ∈ Finset.range n, (slot files k).size)

theorem Packed.layout (packed : Packed fs n) : Layout fs.files n where
  inUse k := by
    refine ⟨fun size => packed.lt_of_size (by omega), packed.used k⟩
  start k hk := start_eq_sum (fun j hj => (packed.placed j hj).abut) hk
  offset k hk := (packed.placed k hk).offset
  apart j hj k hk := EndToEnd.disjoint (fun j hj => (packed.placed j hj).abut) packed.used hj hk
  gapless := EndToEnd.cover (fun j hj => (packed.placed j hj).abut) packed.used

inductive Mounted : FileSys → Prop
  | intro {fs made mounted : FileSys} {diskName : DiskName} {new new' new'' : Option Block} :
      fs.disk.handle = none → makeFs fs diskName new new' = (0, made) →
      mountFs made diskName new'' = (0, mounted) → Mounted mounted

theorem Mounted.packed (h : Mounted fs) : Packed fs 0 := by
  obtain ⟨closed, make, mount⟩ := h
  obtain ⟨files, openFiles⟩ := mounted_empty closed make mount
  refine ⟨by decide, nofun, nofun, fun k _ => ?_, nofun, fun k hk => .inl (openFiles ⟨k, hk⟩)⟩
  by_cases hk : k < 64
  · rw [slot_of_lt hk]
    exact files ⟨k, hk⟩
  · exact slot_of_ge (by omega)

def IsOpen (fs : FileSys) (fildes : Int) : Prop :=
  ∃ f, load fs.openFiles fildes = some f ∧ f.fileNum ≠ -1

def Call.Proper (fs : FileSys) : Call → Prop
  | .fsOpen name | .fsCreate name | .fsDelete name _ _ => name.bytes ≠ []
  | .fsClose fildes | .fsRead fildes _ _ | .fsWrite fildes _ _ | .fsGetFilesize fildes
  | .fsTruncate fildes _ _ _ => IsOpen fs fildes
  | .fsLseek fildes offset => IsOpen fs fildes ∧ 0 ≤ offset

/-- No truncation stops short of the slot behind its file. -/
def Call.Reaches (fs : FileSys) : Call → Prop
  | .fsTruncate fildes length _ _ => ReachesNext fs fildes length
  | _ => True

theorem Packed.step (packed : Packed fs n) {c : Call} (proper : c.Proper fs)
    (reaches : c.Reaches fs) (h : Step fs c fs') : ∃ n', Packed fs' n' := by
  obtain ⟨r, h⟩ := h
  cases c with
  | fsOpen name =>
    rcases fsOpen_cases h with ⟨rfl, -⟩ | ⟨k, i, hk, hi, -, -, named, rfl⟩
    · exact ⟨n, packed⟩
    · exact ⟨n, packed.set_opened hk (.inr ⟨i, packed.named_used hi proper named, rfl⟩)⟩
  | fsClose fildes =>
    rcases fsClose_cases h with ⟨rfl, -⟩ | ⟨k, hk, -, -, -, rfl⟩
    · exact ⟨n, packed⟩
    · exact ⟨n, packed.set_opened hk (.inl rfl)⟩
  | fsCreate name => exact packed.create h
  | fsDelete name new1 new2 => exact packed.delete proper h
  | fsRead fildes nbyte new =>
    obtain ⟨⟨r, bytes, fs'⟩, h, same⟩ := Option.bind_eq_some_iff.mp h
    cases same
    rcases fsRead_cases h with ⟨rfl, -⟩ | ⟨k, i, hk, -, -, -, -, rfl⟩
    · exact ⟨n, packed⟩
    · exact ⟨n, packed.set_opened hk (packed.opened k hk)⟩
  | fsWrite fildes data new => exact ⟨n, packed.write h⟩
  | fsGetFilesize fildes =>
    obtain ⟨size, -, same⟩ := Option.map_eq_some_iff.mp h
    cases same
    exact ⟨n, packed⟩
  | fsLseek fildes offset =>
    rcases fsLseek_cases h with ⟨rfl, -⟩ | ⟨k, i, hk, hi, -, -, -, -, rfl⟩
    · exact ⟨n, packed⟩
    · exact ⟨n, packed.set_opened hk (packed.opened k hk)⟩
  | fsTruncate fildes length new1 new2 => exact ⟨n, packed.truncate reaches h⟩

/-- In every session whose truncations reach far enough, the files are packed. -/
theorem run_packed (start : Mounted mounted)
    (run : Run (fun s c t => c.Proper s ∧ c.Reaches s ∧ Step s c t) mounted calls fs) :
    ∃ n, Packed fs n :=
  run.invariant (fun s => ∃ n, Packed s n) ⟨0, start.packed⟩
    fun _ _ _ ⟨_, packed⟩ ⟨proper, reaches, step⟩ => packed.step proper reaches step

theorem run_layout (start : Mounted mounted)
    (run : Run (fun s c t => c.Proper s ∧ c.Reaches s ∧ Step s c t) mounted calls fs) :
    ∃ n, Layout fs.files n := by
  obtain ⟨n, packed⟩ := run_packed start run
  exact ⟨n, packed.layout⟩

theorem Layout.next (layout : Layout files n) {k : Nat} (hk : k + 1 < n) :
    (slot files (k + 1)).start = (slot files k).start + (slot files k).size := by
  have here := layout.start k (by omega)
  have next := layout.start (k + 1) hk
  rw [Finset.sum_range_succ] at next
  unfold FsMeta.start
  omega

/-- A successful truncation keeps the layout exactly when it reaches the slot
behind the file. -/
theorem truncate_layout_iff (packed : Packed fs n) {fildes length : Int} {new1 new2 : Option Block}
    (h : fsTruncate fs fildes length new1 new2 = some (0, fs')) :
    (∃ n', Layout fs'.files n') ↔ ReachesNext fs fildes length := by
  refine ⟨fun ⟨n', layout⟩ f m next found file follows nonneg shorter used => ?_,
    fun reaches => ⟨n, (packed.truncate reaches h).layout⟩⟩
  rcases fsTruncate_cases h with ⟨-, failed⟩ | ⟨k, i, hk, hi, rfl, number, -, -, h⟩
  · cases failed
  · obtain ⟨k', _, same, rfl⟩ := load_eq_some.mp found
    obtain rfl : k = k' := Int.ofNat_inj.mp same
    obtain ⟨i', _, same, rfl⟩ := load_eq_some.mp file
    obtain rfl : i = i' := by omega
    obtain ⟨j, hj, same, rfl⟩ := load_eq_some.mp follows
    obtain rfl : j = i + 1 := by omega
    by_contra far
    have bound := packed.sized i (packed.opened_lt hk number)
    rw [slot_of_lt hi] at bound
    obtain ⟨-, filled, -⟩ := truncateFile_eq number h
    rw [toInt_of_range (by unfold intMin; omega) (by omega)] at filled
    -- neither the file nor the slot behind it is filled anew
    have here := fillFrom_outside filled (.inl (show i < k by omega))
    have behind := fillFrom_outside filled (.inl (show i + 1 < k by omega))
    rw [slot_set, if_pos rfl] at here
    rw [slot_set, if_neg (by omega)] at behind
    have used' : i + 1 < n' := (layout.inUse (i + 1)).mp (by rwa [behind, slot_of_lt hj])
    have after := layout.next used'
    have before :
        (slot fs.files (i + 1)).start = (slot fs.files i).start + (slot fs.files i).size :=
      (packed.placed (i + 1) (packed.lt_of_size (by rw [slot_of_lt hj]; omega))).abut
    rw [here, behind, before, slot_of_lt hi] at after
    simp only [FsMeta.start] at after
    omega

section

def start : FileSys where
  openFiles := Vector.replicate 32 ⟨0, 0⟩
  files := Vector.replicate 64 FsMeta.zero
  disk := ⟨fun _ => none, fun _ => true, none⟩

def nameA : CString := ⟨[97], by decide⟩

def nameB : CString := ⟨[98], by decide⟩

def entry (name : CString) (offset size : Int) : FsMeta :=
  (FsMeta.mk FsMeta.zero.fileName dataStart offset size).setName name

def twoEntries (a b : FsMeta) : Files := ((Vector.replicate 64 FsMeta.zero.fresh).set 0 a).set 1 b

def threeOpen (a b c offset : Int) : OpenFiles :=
  (((Vector.replicate 32 (OpenFile.mk (-1) 0)).set 0 ⟨a, offset⟩).set 1 ⟨b, 0⟩).set 2 ⟨c, 0⟩

/-- A file of three bytes, open three times, and an empty one behind it. -/
def pair (disk : Disk) : FileSys :=
  ⟨threeOpen 0 0 0 3, twoEntries (entry nameA 0 3) (entry nameB 3 0), disk⟩

def pairCalls : List Call :=
  [.fsCreate nameA, .fsOpen nameA, .fsOpen nameA, .fsOpen nameA,
    .fsWrite 0 [1, 2, 3] (some zeroBlock), .fsCreate nameB]

theorem mount_start :
    ∃ made disk, makeFs start (some nameA) (some zeroBlock) (some zeroBlock) = (0, made) ∧
    mountFs made (some nameA) (some zeroBlock) =
      (0, ⟨threeOpen (-1) (-1) (-1) 0, twoEntries FsMeta.zero.fresh FsMeta.zero.fresh, disk⟩) ∧
    disk.permits = start.disk.permits := by
  obtain ⟨made, disk, make, mount, permits⟩ := makeFs_mountFs start
    (show start.disk.handle = none from rfl) (show start.disk.permits nameA from
      rfl) zeroBlock zeroBlock
    zeroBlock
  have openFiles : threeOpen (-1) (-1) (-1) 0 = closeAll start.openFiles := by decide +kernel
  have files : twoEntries FsMeta.zero.fresh FsMeta.zero.fresh =
      Vector.replicate 64 FsMeta.zero.fresh := by decide +kernel
  rw [openFiles, files]
  exact ⟨made, disk, make, mount, permits⟩

theorem mounted_start : ∃ disk,
    Mounted ⟨threeOpen (-1) (-1) (-1) 0, twoEntries FsMeta.zero.fresh FsMeta.zero.fresh, disk⟩ := by
  obtain ⟨made, disk, make, mount, -⟩ := mount_start
  exact ⟨disk, .intro rfl make mount⟩

theorem run_pair : ∃ mounted disk, Mounted mounted ∧
    Run (fun s c t => c.Proper s ∧ c.Reaches s ∧ Step s c t) mounted pairCalls (pair disk) := by
  obtain ⟨disk, mounted⟩ := mounted_start
  obtain ⟨disk', write⟩ : ∃ disk',
      fsWrite ⟨threeOpen 0 0 0 0, twoEntries (entry nameA 0 0) FsMeta.zero.fresh, disk⟩ 0 [1, 2, 3]
        (some zeroBlock) =
      some (3, ⟨threeOpen 0 0 0 3, twoEntries (entry nameA 0 3) FsMeta.zero.fresh, disk'⟩) :=
    ⟨_, rfl⟩
  refine ⟨_, disk', mounted, ?_⟩
  refine .cons (t := ⟨threeOpen (-1) (-1) (-1) 0,
    twoEntries (entry nameA 0 0) FsMeta.zero.fresh, disk⟩)
    ⟨List.cons_ne_nil _ _, trivial, 0, rfl⟩ ?_
  refine .cons (t := ⟨threeOpen 0 (-1) (-1) 0,
    twoEntries (entry nameA 0 0) FsMeta.zero.fresh, disk⟩)
    ⟨List.cons_ne_nil _ _, trivial, 0, rfl⟩ ?_
  refine .cons (t := ⟨threeOpen 0 0 (-1) 0, twoEntries (entry nameA 0 0) FsMeta.zero.fresh, disk⟩)
    ⟨List.cons_ne_nil _ _, trivial, 1, rfl⟩ ?_
  refine .cons (t := ⟨threeOpen 0 0 0 0, twoEntries (entry nameA 0 0) FsMeta.zero.fresh, disk⟩)
    ⟨List.cons_ne_nil _ _, trivial, 2, rfl⟩ ?_
  refine .cons ⟨⟨⟨0, 0⟩, rfl, by decide⟩, trivial, 3, write⟩ ?_
  exact .single ⟨List.cons_ne_nil _ _, trivial, 0, rfl⟩

theorem pair_truncates (disk : Disk) {k : Nat} (hk : k < 32)
    (opened : (pair disk).openFiles[k].fileNum = 0)
    (filled : (fillFrom (twoEntries (entry nameA 0 1) (entry nameB 3 0)) (63 - k) k).isSome) :
    ∃ fs, fsTruncate (pair disk) k 1 none none = some (0, fs) := by
  obtain ⟨files, filled⟩ := Option.isSome_iff_exists.mp filled
  obtain ⟨openFiles, truncated⟩ := fsTruncate_one (pair disk) hk (show 0 < 64 by decide) opened
    (show (1 : Int) ≤ 3 by decide) (Int.le_refl 0) (show (0 : Int) < blockSize by decide) filled
    none none
  exact ⟨_, truncated⟩

theorem run_layout_pair : ∃ disk fs n,
    fsTruncate (pair disk) 0 1 none none = some (0, fs) ∧ Layout fs.files n := by
  obtain ⟨mounted, disk, start, run⟩ := run_pair
  obtain ⟨fs, truncated⟩ := pair_truncates disk (k := 0) (by decide) rfl (by decide +kernel)
  have reaches : ReachesNext (pair disk) 0 1 := by
    intro f m next found _ _ _ _ _
    cases found
    exact show (0 : Int) ≤ 0 + 1 by decide
  have proper : Call.Proper (pair disk) (.fsTruncate 0 1 none none) := ⟨⟨0, 3⟩, rfl, by decide⟩
  have last : Step (pair disk) (.fsTruncate 0 1 none none) fs := ⟨0, truncated⟩
  obtain ⟨n, layout⟩ := run_layout start (run.snoc ⟨proper, reaches, last⟩)
  exact ⟨disk, fs, n, truncated, layout⟩

/-- Cut through descriptor 2, the first file of the pair leaves a gap. -/
theorem layout_lost : ¬∀ mounted fs, Mounted mounted →
    Run (fun s c t => c.Proper s ∧ Step s c t) mounted
      (pairCalls ++ [.fsTruncate 2 1 none none]) fs → ∃ n, Layout fs.files n := by
  intro kept
  obtain ⟨mounted, disk, start, run⟩ := run_pair
  obtain ⟨fs, truncated⟩ := pair_truncates disk (k := 2) (by decide) rfl (by decide +kernel)
  obtain ⟨n, packed⟩ := run_packed start run
  have proper : Run (fun s c t => c.Proper s ∧ Step s c t) mounted pairCalls (pair disk) :=
    run.mono fun _ _ _ h => ⟨h.1, h.2.2⟩
  have layout := kept mounted fs start (proper.snoc ⟨⟨⟨0, 0⟩, rfl, by decide⟩, 0, truncated⟩)
  have reaches := (truncate_layout_iff packed truncated).mp layout
  have short : (2 : Int) ≤ 0 + 1 :=
    reaches ⟨0, 0⟩ (entry nameA 0 3) (entry nameB 3 0) rfl rfl rfl (by decide) (by decide)
      (by decide)
  exact absurd short (by decide)

end

end LastPicked.FileSystem
