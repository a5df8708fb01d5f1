import LastPicked.FileSysRemount
import LastPicked.FileSysTable

/-! Sessions that unmount their disk and mount it again. While the disk is
closed, its first block keeps the table that was written there last, whatever
is called. -/

namespace LastPicked.FileSystem
open CIntegers CMemory LabelledRuns

variable {fs fs' mounted : FileSys} {d : CString}

/-- What a program calls that keeps its files on one disk. -/
inductive Op
  | call (c : Call)
  | mountFs (new : Option Block)
  | unmountFs (new : Option Block)

def OpStep (d : CString) (fs : FileSys) : Op → FileSys → Prop
  | .call c, fs' => Step fs c fs'
  | .mountFs new, fs' => fs' = (mountFs fs (some d) new).2
  | .unmountFs new, fs' => fs' = (unmountFs fs new).2

/-- No other disk is open, and the table on the disk is `Good` while the disk is
closed. -/
structure KeepsDisk (d : CString) (Good : Files → Prop) (fs : FileSys) : Prop where
  handle : fs.disk.handle = none ∨ fs.disk.handle = some d
  ranged : Ranged fs.files
  image : ∃ blocks, fs.disk.host d = some blocks ∧
    (fs.disk.handle = none → Good (bufferToFiles blocks[0]))

theorem mountFs_cases (fs : FileSys) (d : CString) (new : Option Block) :
    (mountFs fs (some d) new).2 = fs ∨
      ∃ blocks, (openDisk fs.disk (some d)).1 = 0 ∧ fs.disk.handle = none ∧
      fs.disk.host d = some blocks ∧
        (new = none ∧
          (mountFs fs (some d) new).2 = { fs with disk := { fs.disk with handle := some d } } ∨
          (mountFs fs (some d) new).2 = ⟨closeAll fs.openFiles, bufferToFiles blocks[0],
            { fs.disk with handle := some d }⟩) := by
  unfold mountFs
  rcases openDisk_cases fs.disk (some d) with
    failed | ⟨name, blocks, same, closed, image, -, opened⟩
  · rw [failed]
    exact .inl rfl
  · obtain rfl := Option.some.inj same
    refine .inr ⟨blocks, by rw [opened], closed, image, ?_⟩
    cases new with
    | none => exact .inl ⟨rfl, by simp [opened]⟩
    | some buffer =>
      have read := blockRead_open (d := { fs.disk with handle := some d }) rfl image
        (Int.le_refl 0) (by decide) buffer
      exact .inr (by simp [opened, read])

theorem unmountFs_closed (closed : fs.disk.handle = none) (buffer : Block) :
    (unmountFs fs (some buffer)).2 =
      ⟨closeAll fs.openFiles, Vector.replicate 64 FsMeta.zero, fs.disk⟩ := by
  have same := (Rewritten.blockWrite fs.disk 0 (filesToBuffer fs.files buffer)).closed closed
  simp [unmountFs, closeDisk, same, closed]

theorem FsMeta.zero_ranged : FsMeta.zero.Ranged := by
  constructor <;> decide

theorem ranged_zero : Ranged (Vector.replicate 64 FsMeta.zero) := by
  intro k
  by_cases hk : k < 64
  · simpa [hk] using FsMeta.zero_ranged
  · simpa [slot, hk] using FsMeta.fresh_ranged _

theorem listed_zero : Listed (Vector.replicate 64 FsMeta.zero) 64 := by
  have entry (k : Nat) (hk : k < 64) : slot (Vector.replicate 64 FsMeta.zero) k = FsMeta.zero := by
    simp [hk]
  refine ⟨Nat.le_refl _, fun k hk => ?_, fun k hk => ?_, fun k hk => slot_of_ge hk⟩
  · rw [entry k hk]
    exact Int.le_refl 0
  · rw [entry k hk]
    exact (by decide : (0 : Int) ≤ intMax)

/-- `unmount_fs` writes the table to the disk, and nothing else is written
there while the disk is closed. -/
theorem KeepsDisk.step {Good : Files → Prop} {op : Op} (h : KeepsDisk d Good fs)
    (good : fs.disk.handle = some d → Good fs.files) (step : OpStep d fs op fs') :
    KeepsDisk d Good fs' := by
  obtain ⟨handle, ranged, blocks, image, table⟩ := h
  cases op with
  | call c =>
    have disk := step.rewritten
    have ranged' := ranged.step step
    rcases handle with closed | opened
    · have same := disk.closed closed
      exact ⟨by rw [same]; exact .inl closed, ranged', blocks, by rw [same]; exact image,
        fun _ => table closed⟩
    · obtain ⟨blocks', same⟩ := disk.opened opened image
      have still : fs'.disk.handle = some d := by rw [same, Disk.showing_handle]
      exact ⟨.inr still, ranged', blocks', by rw [same, Disk.showing_host], by simp [still]⟩
  | mountFs new =>
    subst step
    rcases mountFs_cases fs d new with same | ⟨blocks', -, -, image', ⟨-, same⟩ | same⟩
    · rw [same]
      exact ⟨handle, ranged, blocks, image, table⟩
    · rw [same]
      exact ⟨.inr rfl, ranged, blocks, image, nofun⟩
    · rw [same]
      exact ⟨.inr rfl, bufferToFiles_ranged _, blocks', image', nofun⟩
  | unmountFs new =>
    subst step
    cases new with
    | none => exact ⟨handle, ranged, blocks, image, table⟩
    | some buffer =>
      rcases handle with closed | opened
      · rw [unmountFs_closed closed]
        exact ⟨.inl closed, ranged_zero, blocks, image, table⟩
      · obtain ⟨disk, unmount, closed, -, image'⟩ := unmountFs_open fs opened image buffer
        have written : bufferToFiles (filesToBuffer fs.files buffer) = fs.files :=
          bufferToFiles_filesToBuffer buffer fun i => by simpa using ranged i
        rw [unmount]
        refine ⟨.inl closed, ranged_zero, _, image', fun _ => ?_⟩
        rw [Vector.getElem_set_self, written]
        exact good opened

/-- What holds of the file system in a session: `mount_fs` starts it anew from
the table on the disk, unless it gets no buffer for it. -/
theorem KeepsDisk.live {Good : Files → Prop} {op : Op} (Live : FileSys → Prop)
    (h : KeepsDisk d Good fs) (live : Live fs)
    (mounted : ∀ openFiles files disk, Good files → Live ⟨closeAll openFiles, files, disk⟩)
    (unmounted : ∀ openFiles disk, disk.handle = none →
      Live ⟨closeAll openFiles, Vector.replicate 64 FsMeta.zero, disk⟩)
    (call : ∀ c, op = .call c → Step fs c fs' → Live fs')
    (unread : op = .mountFs none → (openDisk fs.disk (some d)).1 = 0 →
      Live { fs with disk := { fs.disk with handle := some d } })
    (step : OpStep d fs op fs') : Live fs' := by
  obtain ⟨handle, -, blocks, image, table⟩ := h
  cases op with
  | call c => exact call c rfl step
  | mountFs new =>
    subst step
    rcases mountFs_cases fs d new with same | ⟨blocks', done, closed, image', ⟨rfl, same⟩ | same⟩
    · rwa [same]
    · rw [same]
      exact unread rfl done
    · obtain rfl := Option.some.inj (image.symm.trans image')
      rw [same]
      exact mounted _ _ _ (table closed)
  | unmountFs new =>
    subst step
    cases new with
    | none => exact live
    | some buffer =>
      rcases handle with closed | opened
      · rw [unmountFs_closed closed]
        exact unmounted _ _ closed
      · obtain ⟨disk, unmount, closed, -⟩ := unmountFs_open fs opened image buffer
        rw [unmount]
        exact unmounted _ _ closed

theorem Mounted.keepsDisk {Good : Files → Prop} (h : Mounted fs) (disk : fs.disk.handle = some d) :
    KeepsDisk d Good fs := by
  obtain ⟨-, -, mount⟩ := h
  obtain ⟨name, blocks, -, -, image, -, rfl⟩ := mountFs_eq mount
  obtain rfl := Option.some.inj disk
  exact ⟨.inr rfl, bufferToFiles_ranged _, blocks, image, nofun⟩

theorem session_tabled {ops : List Op} (start : Mounted mounted)
    (disk : mounted.disk.handle = some d) (run : Run (OpStep d) mounted ops fs) :
    ∃ n, Tabled fs n := by
  have kept :=
    run.invariant (fun s => KeepsDisk d (fun files => ∃ n, Listed files n) s ∧ ∃ n, Tabled s n)
    ⟨start.keepsDisk disk, 0, start.tabled⟩ fun s op t ⟨disk, n, tabled⟩ step => by
      refine ⟨disk.step (fun _ => ⟨n, tabled.listed⟩) step,
        disk.live (fun s => ∃ n, Tabled s n) ⟨n, tabled⟩ ?_ ?_ ?_ ?_ step⟩
      · exact fun openFiles files disk ⟨n, listed⟩ =>
          ⟨n, listed, fun k hk => .inl (by simp [closeAll])⟩
      · exact fun openFiles disk _ => ⟨64, listed_zero, fun k hk => .inl (by simp [closeAll])⟩
      · exact fun c _ step => tabled.step step
      · exact fun _ _ => ⟨n, tabled.listed, tabled.opened⟩
  exact kept.2

end LastPicked.FileSystem
