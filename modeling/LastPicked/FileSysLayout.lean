import LastPicked.FileSysSteps

/-! The files of a mounted file system lie end to end from `DATA_START` on, in
the order of their slots. Every call keeps them so, except a truncation that
skips the slot behind the file it cuts. -/

namespace LastPicked.FileSystem
open CIntegers CMemory EndToEnd LabelledRuns

variable {fs fs' : FileSys} {files : Files} {n : Nat} {r : Int}

def OpenFile.Below (f : OpenFile) (n : Nat) : Prop :=
  f.fileNum = -1 ∨ ∃ i < n, f.fileNum = (i : Nat)

theorem OpenFile.Below.mono {f : OpenFile} {n' : Nat} (below : f.Below n) (more : n ≤ n') :
    f.Below n' :=
  below.imp_right fun ⟨i, hi, same⟩ => ⟨i, by omega, same⟩

/-- The first `n` slots hold files, each in its place. The last slot stays
free: to take it, `fs_create` would have to mark a slot behind the table. -/
structure Packed (fs : FileSys) (n : Nat) : Prop where
  room : n ≤ 63
  used : ∀ k < n, 0 ≤ (slot fs.files k).size
  sized : ∀ k < n, (slot fs.files k).size ≤ intMax
  free : ∀ k, n ≤ k → (slot fs.files k).Unused
  placed : ∀ k < n, Placed fs.files k
  opened : ∀ k (hk : k < 32), fs.openFiles[k].Below n

theorem Packed.named_used (packed : Packed fs n) {i : Nat} (hi : i < 64) {name : CString}
    (given : name.bytes ≠ []) (named : fs.files[i].named name = some true) : i < n := by
  by_contra beyond
  have unused := packed.free i (by omega)
  rw [slot_of_lt hi] at unused
  exact sameString_head name.noNul given named unused.name

theorem Packed.lt_of_size (packed : Packed fs n) {k : Nat} (size : (slot fs.files k).size ≠ -1) :
    k < n := by
  by_contra beyond
  exact size (packed.free k (by omega)).size

theorem Packed.le_of_size (packed : Packed fs n) {k : Nat} (size : (slot fs.files k).size = -1) :
    n ≤ k := by
  by_contra inside
  have used := packed.used k (by omega)
  omega

theorem Packed.opened_lt (packed : Packed fs n) {k i : Nat} (hk : k < 32)
    (number : fs.openFiles[k].fileNum = i) : i < n := by
  rcases packed.opened k hk with closed | ⟨j, hj, same⟩ <;> omega

theorem Packed.opened_set (packed : Packed fs n) {j : Nat} (hj : j < 32) {f : OpenFile}
    (below : f.Below n) (k : Nat) (hk : k < 32) : (fs.openFiles.set j f)[k].Below n := by
  by_cases here : j = k
  · subst here
    simpa using below
  · simpa [here] using packed.opened k hk

theorem Packed.set_opened (packed : Packed fs n) {j : Nat} (hj : j < 32) {f : OpenFile}
    (below : f.Below n) : Packed { fs with openFiles := fs.openFiles.set j f } n :=
  { packed with opened := packed.opened_set hj below }

theorem Packed.create (packed : Packed fs n) {name : CString}
    (h : fsCreate fs name = some (r, fs')) :
    ∃ n', Packed fs' n' := by
  rcases fsCreate_cases h with ⟨rfl, -⟩ | ⟨i, h, free, before⟩
  · exact ⟨n, packed⟩
  · obtain ⟨files, room, -, fill, openFiles, -, entries⟩ := createFile_eq h
    obtain rfl : i = n := by
      have above := packed.le_of_size free
      by_contra other
      exact before n (by omega) (packed.free n (Nat.le_refl n)).size
    obtain ⟨same, kept⟩ := fillBlockAndOffset_frame fill
    have last := fillBlockAndOffset_placed fill fun j next =>
      ⟨packed.used j (by omega), (packed.placed j (by omega)).offset.1⟩
    have placed : ∀ k < i + 1, Placed files k := by
      intro k hk
      rcases Nat.lt_succ_iff_lt_or_eq.mp hk with earlier | rfl
      · exact (packed.placed k earlier).same fun j hj _ => same j (by omega)
      · exact last
    have size (k : Nat) (hk : k < i + 1) :
        (slot fs'.files k).size = if k = i then 0 else (slot fs.files k).size := by
      rw [entries, if_neg (show k ≠ i + 1 by omega)]
      split
      case isTrue => simp
      case isFalse => exact (kept k).1
    refine ⟨i + 1, by omega, fun k hk => ?_, fun k hk => ?_, fun k hk => ?_, fun k hk => ?_,
      fun k hk => ?_⟩
    · rw [size k hk]
      split
      case isTrue => exact Int.le_refl 0
      case isFalse => exact packed.used k (by omega)
    · rw [size k hk]
      split
      case isTrue => decide
      case isFalse => exact packed.sized k (by omega)
    · have unused := packed.free k (by omega)
      rw [← same k (by omega)] at unused
      rw [entries, if_neg (by omega)]
      split
      case isTrue next =>
        subst next
        exact ⟨unused.name, rfl⟩
      case isFalse => exact unused
    · have entry (j : Nat) (hj : j < i) : slot fs'.files j = slot files j := by
        rw [entries, if_neg (by omega), if_neg (by omega)]
      rcases Nat.lt_succ_iff_lt_or_eq.mp hk with earlier | rfl
      · exact (placed k hk).same fun j hj _ => entry j (by omega)
      · refine (placed k hk).congr (by simp [entries]) (by simp [entries]) fun j next => ?_
        rw [entry j (by omega)]
        exact ⟨rfl, rfl⟩
    · simpa [openFiles] using (packed.opened k hk).mono (Nat.le_succ i)

/-- A file that is deleted leaves no gap: every slot behind it is filled anew. -/
theorem Packed.delete (packed : Packed fs n) {name : CString} (given : name.bytes ≠ [])
    {new1 new2 : Option Block} (h : fsDelete fs name new1 new2 = some (r, fs')) :
    ∃ n', Packed fs' n' := by
  rcases fsDelete_cases h with ⟨rfl, -⟩ | ⟨i, hi, named, closed, h⟩
  · exact ⟨n, packed⟩
  · have here := packed.named_used hi given named
    have room := packed.room
    obtain ⟨files, -, moved, filled, openFiles⟩ := deleteFile_eq h
    have kept := fillFrom_frame filled
    have sizes (k : Nat) (hk : k < n - 1) :
        0 ≤ (slot files k).size ∧ (slot files k).size ≤ intMax := by
      have below := And.intro (packed.used k (by omega)) (packed.sized k (by omega))
      have behind := And.intro (packed.used (k + 1) (by omega)) (packed.sized (k + 1) (by omega))
      grind [closeGap]
    have placed := fillFrom_placed filled (fun k hk => (sizes k hk).1) fun k hk before =>
      (packed.placed k (by omega)).same fun j hj _ => by rw [moved, closeGap, if_pos (by omega)]
    refine ⟨n - 1, by omega, fun k hk => ?_, fun k hk => ?_, fun k hk => ?_,
      fun k hk => placed k hk (by omega), fun k hk => ?_⟩
    · exact (sizes k hk).1.trans_eq (kept k).1.symm
    · exact (kept k).1.trans_le (sizes k hk).2
    · have unused : (slot files k).Unused := by
        rw [moved, closeGap, if_neg (by omega)]
        split
        case isTrue => exact ⟨FsMeta.clearName_head _, rfl⟩
        case isFalse => exact packed.free (k + 1) (by omega)
      exact ⟨by rw [(kept k).2]; exact unused.name, (kept k).1.trans unused.size⟩
    · have other := closed ⟨k, hk⟩
      simp only [Fin.getElem_fin] at other
      simp only [openFiles, Vector.getElem_map]
      rcases packed.opened k hk with shut | ⟨j, hj, number⟩
      · rw [if_neg (by omega)]
        exact .inl shut
      · split
        case isTrue => exact .inr ⟨j - 1, by omega, by dsimp only; omega⟩
        case isFalse => exact .inr ⟨j, by omega, number⟩

section
variable {i : Nat} (hi : i < 64) (size : Int)

theorem Packed.placed_setSize (packed : Packed fs n) {k : Nat} (hk : k < n)
    (before : k ≤ i ∨ size = fs.files[i].size) :
    Placed (fs.files.set i { fs.files[i] with size }) k := by
  have entry := slot_set fs.files i hi { fs.files[i] with size }
  refine (packed.placed k hk).congr ?_ ?_ fun j next => ?_
  all_goals grind [slot_of_lt, FsMeta.start]

theorem Packed.sizes_setSize (packed : Packed fs n) (nonneg : 0 ≤ size) (bound : size ≤ intMax)
    {k : Nat} (hk : k < n) :
    0 ≤ (slot (fs.files.set i { fs.files[i] with size }) k).size ∧
      (slot (fs.files.set i { fs.files[i] with size }) k).size ≤ intMax := by
  rw [slot_set]
  split
  case isTrue => exact ⟨nonneg, bound⟩
  case isFalse => exact ⟨packed.used k hk, packed.sized k hk⟩

theorem Packed.free_setSize (packed : Packed fs n) (here : i < n) {k : Nat} (hk : n ≤ k) :
    (slot (fs.files.set i { fs.files[i] with size }) k).Unused := by
  rw [slot_set, if_neg (by omega)]
  exact packed.free k hk

end

/-- A file only grows when no other file is behind it. -/
theorem Packed.write (packed : Packed fs n) {fildes : Int} {data : List UInt8} {new : Option Block}
    (h : fsWrite fs fildes data new = some (r, fs')) : Packed fs' n := by
  rcases fsWrite_cases h with ⟨rfl, -⟩ |
    ⟨k, i, hk, hi, -, -, number, grows, high, openFiles, files⟩
  · exact packed
  · have here := packed.opened_lt hk number
    have nonneg := packed.used i here
    have bound := packed.sized i here
    rw [slot_of_lt hi] at nonneg bound
    have sizes (j : Nat) (hj : j < n) := packed.sizes_setSize hi
      (max fs.files[i].size (fs.openFiles[k].offset + data.length)) (by omega) (by omega) hj
    rw [← files] at sizes
    refine ⟨packed.room, fun j hj => (sizes j hj).1, fun j hj => (sizes j hj).2, fun j hj => ?_,
      fun j hj => ?_, fun j hj => ?_⟩
    · rw [files]
      exact packed.free_setSize hi _ here hj
    · rw [files]
      refine packed.placed_setSize hi _ hj ?_
      by_cases larger : fs.files[i].size < fs.openFiles[k].offset + data.length
      · have last := packed.le_of_size (grows nonneg larger).2
        exact .inl (by omega)
      · exact .inr (max_eq_left (Int.not_lt.mp larger))
    · rw [openFiles]
      refine packed.opened_set hk ?_ j hj
      exact packed.opened k hk

/-- Filling the slots from number `fildes` on reaches the slot behind the file
that a truncation through this descriptor makes shorter. -/
def ReachesNext (fs : FileSys) (fildes length : Int) : Prop :=
  ∀ f m next, load fs.openFiles fildes = some f → load fs.files f.fileNum = some m →
    load fs.files (f.fileNum + 1) = some next → 0 ≤ length → length < m.size → 0 ≤ next.size →
    fildes ≤ f.fileNum + 1

theorem Packed.truncate (packed : Packed fs n) {fildes length : Int} {new1 new2 : Option Block}
    (reaches : ReachesNext fs fildes length)
    (h : fsTruncate fs fildes length new1 new2 = some (r, fs')) : Packed fs' n := by
  rcases fsTruncate_cases h with ⟨rfl, -⟩ | ⟨k, i, hk, hi, rfl, number, nonneg, small, h⟩
  · exact packed
  · have here := packed.opened_lt hk number
    have room := packed.room
    have bound := packed.sized i here
    rw [slot_of_lt hi] at bound
    obtain ⟨-, filled, offset, openFiles⟩ := truncateFile_eq number h
    rw [toInt_of_range (by unfold intMin; omega) (by omega)] at filled
    have sizes (j : Nat) (hj : j < n) := packed.sizes_setSize hi length nonneg (by omega) hj
    have kept := fillFrom_frame filled
    have placed := fillFrom_placed filled (fun j hj => (sizes j hj).1) fun j hj before => by
      refine packed.placed_setSize hi length hj ?_
      by_contra behind
      -- slot `j` would be behind the file and before the loop
      have used := packed.used (i + 1) (by omega)
      rw [slot_of_lt (by omega)] at used
      have reached := reaches _ _ _ (load_eq_some.mpr ⟨k, hk, rfl, rfl⟩)
        (load_eq_some.mpr ⟨i, hi, number, rfl⟩)
        (load_eq_some.mpr ⟨i + 1, by omega, by omega, rfl⟩) nonneg (by omega) used
      omega
    refine ⟨room, fun j hj => ?_, fun j hj => ?_, fun j hj => ?_, fun j hj =>
      placed j hj (by omega), fun j hj => ?_⟩
    · exact (sizes j hj).1.trans_eq (kept j).1.symm
    · exact (kept j).1.trans_le (sizes j hj).2
    · have unused := packed.free_setSize hi length here hj
      exact ⟨by rw [(kept j).2]; exact unused.name, (kept j).1.trans unused.size⟩
    · rw [openFiles]
      refine packed.opened_set hk ?_ j hj
      exact packed.opened k hk

end LastPicked.FileSystem
