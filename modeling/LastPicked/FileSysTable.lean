import LastPicked.FileSysRuns

/-! The slots in use as a prefix of the table, whatever the names and the
positions of the files are: what each call makes of the prefix. -/

namespace LastPicked.FileSystem
open CIntegers CMemory LabelledRuns

variable {fs fs' : FileSys} {files files' : Files} {n : Nat} {r : Int} {name : CString}

theorem truncateFile_openFiles {k : Nat} (hk : k < 32) {f : OpenFile} {m : FsMeta} {length : Int}
    {new1 new2 : Option Block} (h : truncateFile fs k f m length new1 new2 = some (r, fs')) :
    fs'.openFiles = fs.openFiles.set k
      { f with offset := if length < f.offset then toInt length else f.offset } := by
  obtain ⟨⟨startBlock, startOffset⟩, -, h⟩ := Option.bind_eq_some_iff.mp h
  obtain ⟨disk, -, h⟩ := Option.bind_eq_some_iff.mp h
  obtain ⟨files, -, h⟩ := Option.bind_eq_some_iff.mp h
  obtain ⟨files', -, h⟩ := Option.bind_eq_some_iff.mp h
  obtain ⟨openFiles, stored, h⟩ := Option.bind_eq_some_iff.mp h
  cases h
  rw [store_of_lt _ hk] at stored
  exact (Option.some.inj stored).symm

theorem inUse_unique {files : Files} {n m : Nat} (here : ∀ k, 0 ≤ (slot files k).size ↔ k < n)
    (there : ∀ k, 0 ≤ (slot files k).size ↔ k < m) : n = m := by
  rcases Nat.lt_trichotomy n m with less | same | more
  · exact absurd ((here n).mp ((there n).mpr less)) (Nat.lt_irrefl n)
  · exact same
  · exact absurd ((there m).mp ((here m).mpr more)) (Nat.lt_irrefl m)

/-- The first `n` slots are in use, and the others are marked as unused. -/
structure Listed (files : Files) (n : Nat) : Prop where
  room : n ≤ 64
  used : ∀ k < n, 0 ≤ (slot files k).size
  sized : ∀ k < n, (slot files k).size ≤ intMax
  free : ∀ k, n ≤ k → (slot files k).Unused

theorem Packed.listed (packed : Packed fs n) : Listed fs.files n where
  room := packed.room.trans (by decide)
  used := packed.used
  sized := packed.sized
  free := packed.free

namespace Listed

theorem lt_of_size (listed : Listed files n) {k : Nat} (size : (slot files k).size ≠ -1) :
    k < n := by
  by_contra beyond
  exact size (listed.free k (by omega)).size

theorem inUse (listed : Listed files n) (k : Nat) : 0 ≤ (slot files k).size ↔ k < n :=
  ⟨fun size => listed.lt_of_size (by omega), listed.used k⟩

theorem eq {m : Nat} (listed : Listed files n) (listed' : Listed files m) : n = m :=
  inUse_unique listed.inUse listed'.inUse

theorem congr (listed : Listed files n) (same : ∀ k, (slot files' k).size = (slot files k).size ∧
    (slot files' k).fileName = (slot files k).fileName) : Listed files' n where
  room := listed.room
  used k hk := (listed.used k hk).trans_eq (same k).1.symm
  sized k hk := (same k).1.trans_le (listed.sized k hk)
  free k hk :=
    ⟨by rw [(same k).2]; exact (listed.free k hk).name, (same k).1.trans (listed.free k hk).size⟩

theorem set_size (listed : Listed files n) {i : Nat} (hi : i < 64) (upto : i ≤ n) {size : Int}
    (low : i < n → 0 ≤ size) (high : size ≤ intMax) (unset : -1 ≤ size) :
    Listed (files.set i { files[i] with size }) (if i < n ∨ size = -1 then n else n + 1) := by
  have room := listed.room
  have entry := slot_set files i hi { files[i] with size }
  refine ⟨by grind, fun k hk => ?_, fun k hk => ?_, fun k hk => ?_⟩
  · rw [entry]
    split
    case isTrue here => grind
    case isFalse other => exact listed.used k (by grind)
  · rw [entry]
    split
    case isTrue => exact high
    case isFalse other => exact listed.sized k (by grind)
  · rw [entry]
    split
    case isTrue here =>
      have unused := listed.free i (by grind)
      rw [slot_of_lt hi] at unused
      exact ⟨unused.name, by dsimp only; grind⟩
    case isFalse other => exact listed.free k (by grind)

theorem named_used (listed : Listed files n) {i : Nat} (hi : i < 64) (given : name.bytes ≠ [])
    (named : files[i].named name = some true) : i < n := by
  by_contra beyond
  have unused := listed.free i (by omega)
  rw [slot_of_lt hi] at unused
  exact sameString_head name.noNul given named unused.name

theorem create (listed : Listed fs.files n) (h : fsCreate fs name = some (r, fs')) :
    fs' = fs ∧ r = -1 ∨ ∃ files, r = 0 ∧ n < 63 ∧ fillBlockAndOffset fs.files n = some files ∧
      createFile fs n name = some (r, fs') ∧ fs'.openFiles = fs.openFiles ∧ fs'.disk = fs.disk ∧
      (∀ k, slot fs'.files k =
        if k = n then { slot files n with size := 0 }.setName name else slot fs.files k) ∧
      Listed fs'.files (n + 1) := by
  rcases fsCreate_cases h with same | ⟨i, h, free, before⟩
  · exact .inl same
  · obtain ⟨files, room, done, fill, openFiles, disk, entries⟩ := createFile_eq h
    obtain rfl : i = n := by
      have above : ¬i < n := fun inside => by have := listed.used i inside; omega
      by_contra other
      exact before n (by omega) (listed.free n (Nat.le_refl n)).size
    have same := (fillBlockAndOffset_frame fill).1
    have next := listed.free (i + 1) (by omega)
    have entries' (k : Nat) : slot fs'.files k =
        if k = i then { slot files i with size := 0 }.setName name else slot fs.files k := by
      rw [entries]
      split
      case isTrue => rfl
      case isFalse other =>
        split
        case isTrue behind =>
          subst behind
          have size := next.size
          rw [← same (i + 1) other] at size ⊢
          generalize slot files (i + 1) = m at size
          cases m
          subst size
          rfl
        case isFalse => exact same k other
    refine .inr ⟨files, done, by omega, fill, h, openFiles, disk, entries', by omega,
      fun k hk => ?_, fun k hk => ?_, fun k hk => ?_⟩
    · rw [entries']
      split
      case isTrue =>
        rw [FsMeta.setName_size]
      case isFalse => exact listed.used k (by omega)
    · rw [entries']
      split
      case isTrue =>
        rw [FsMeta.setName_size]
        exact (by decide : (0 : Int) ≤ intMax)
      case isFalse => exact listed.sized k (by omega)
    · rw [entries', if_neg (by omega)]
      exact listed.free k (by omega)

theorem deleteFile (listed : Listed fs.files n) {i : Nat} {hi : i ≤ 63} {new1 new2 : Option Block}
    (h : deleteFile fs i hi new1 new2 = some (r, fs')) :
    (∀ k, (slot fs'.files k).size = (closeGap fs.files i k).size ∧
      (slot fs'.files k).fileName = (closeGap fs.files i k).fileName) ∧
      Listed fs'.files (if i < n then n - 1 else n) := by
  have room := listed.room
  obtain ⟨files, -, moved, filled, -⟩ := deleteFile_eq h
  have kept (k : Nat) : (slot fs'.files k).size = (closeGap fs.files i k).size ∧
      (slot fs'.files k).fileName = (closeGap fs.files i k).fileName := by
    rw [← moved]
    exact fillFrom_frame filled k
  have entries (k : Nat) (hk : k < if i < n then n - 1 else n) :
      0 ≤ (closeGap fs.files i k).size ∧ (closeGap fs.files i k).size ≤ intMax := by
    have here := And.intro (listed.used k) (listed.sized k)
    have behind := And.intro (listed.used (k + 1)) (listed.sized (k + 1))
    unfold closeGap
    grind
  have unused (k : Nat) (hk : (if i < n then n - 1 else n) ≤ k) :
      (closeGap fs.files i k).Unused := by
    unfold closeGap
    split
    case isTrue before => exact listed.free k (by grind)
    case isFalse =>
      split
      case isTrue => exact ⟨FsMeta.clearName_head _, rfl⟩
      case isFalse => exact listed.free (k + 1) (by grind)
  refine ⟨kept, by grind, fun k hk => ?_, fun k hk => ?_, fun k hk => ?_⟩
  · exact (entries k hk).1.trans_eq (kept k).1.symm
  · exact (kept k).1.trans_le (entries k hk).2
  · exact ⟨by rw [(kept k).2]; exact (unused k hk).name, (kept k).1.trans (unused k hk).size⟩

/-- A write sets the size of its file, and through a descriptor on the first
unused slot it makes a file of it. -/
theorem write (listed : Listed fs.files n)
    (opened : ∀ k (hk : k < 32), fs.openFiles[k].Below (n + 1)) {fildes : Int} {data : List UInt8}
    {new : Option Block} (h : fsWrite fs fildes data new = some (r, fs')) :
    fs' = fs ∧ r = -1 ∨ ∃ (k i : Nat) (hk : k < 32) (hi : i < 64) (size : Int), fildes = k ∧
      r = data.length ∧ fs.openFiles[k].fileNum = i ∧ i ≤ n ∧
      size = max fs.files[i].size (fs.openFiles[k].offset + data.length) ∧
      (i < n → fs.files[i].size < size → n = i + 1) ∧
      fs'.openFiles = fs.openFiles.set k
        { fs.openFiles[k] with offset := fs.openFiles[k].offset + data.length } ∧
      fs'.files = fs.files.set i { fs.files[i] with size } ∧
      Listed fs'.files (if i < n ∨ size = -1 then n else n + 1) := by
  rcases fsWrite_cases h with
    same | ⟨k, i, hk, hi, rfl, done, number, grows, high, openFiles, files⟩
  · exact .inl same
  · have upto : i ≤ n := by
      rcases opened k hk with closed | ⟨j, hj, same⟩ <;> omega
    have used := listed.used i
    have free := fun beyond => (listed.free i beyond).size
    have sized := listed.sized i
    rw [slot_of_lt hi] at used free sized
    refine .inr ⟨k, i, hk, hi, _, rfl, done, number, upto, rfl, fun inside larger => ?_, openFiles,
      files, ?_⟩
    · have beyond := (grows (used inside) (by simpa using larger)).2
      by_contra more
      have next := listed.used (i + 1) (by omega)
      omega
    rw [files]
    refine listed.set_size hi upto (fun inside => ?_) (max_le ?_ high) ?_
    · exact (used inside).trans (Int.le_max_left _ _)
    · rcases Nat.lt_or_ge i n with inside | beyond
      · exact sized inside
      · rw [free beyond]
        decide
    · refine le_trans ?_ (Int.le_max_left _ _)
      rcases Nat.lt_or_ge i n with inside | beyond
      · have := used inside
        omega
      · rw [free beyond]

theorem truncate (listed : Listed fs.files n) {fildes length : Int} {new1 new2 : Option Block}
    (h : fsTruncate fs fildes length new1 new2 = some (r, fs')) :
    fs' = fs ∧ r = -1 ∨ ∃ (k i : Nat) (hk : k < 32), fildes = k ∧ r = 0 ∧
      fs.openFiles[k].fileNum = i ∧ i < n ∧ 0 ≤ length ∧ length ≤ (slot fs.files i).size ∧
      fs'.openFiles = fs.openFiles.set k { fs.openFiles[k] with
        offset := min length fs.openFiles[k].offset } ∧
      (∀ j, (slot fs'.files j).size = (if j = i then length else (slot fs.files j).size) ∧
        (slot fs'.files j).fileName = (slot fs.files j).fileName) ∧
      Listed fs'.files n := by
  rcases fsTruncate_cases h with same | ⟨k, i, hk, hi, rfl, number, low, high, h⟩
  · exact .inl same
  · rw [← slot_of_lt hi] at high
    have inside : i < n := listed.lt_of_size (by omega)
    have sized := listed.sized i inside
    have range : intMin ≤ length := Int.le_trans (by decide) low
    obtain ⟨done, filled, -⟩ := truncateFile_eq number h
    have moved := truncateFile_openFiles hk h
    rw [toInt_of_range range (high.trans sized)] at filled moved
    have kept := fillFrom_frame filled
    have entry := slot_set fs.files i hi { fs.files[i] with size := length }
    have set := listed.set_size hi inside.le (fun _ => low) (high.trans sized) (by omega)
    rw [if_pos (.inl inside)] at set
    refine .inr ⟨k, i, hk, rfl, done, number, inside, low, high, ?_, fun j => ?_, set.congr kept⟩
    · have clamp : (if length < fs.openFiles[k].offset then length else fs.openFiles[k].offset) =
          min length fs.openFiles[k].offset := by grind
      rw [moved, clamp]
    · obtain ⟨size, name⟩ := kept j
      rw [size, name, entry]
      by_cases here : j = i
      · subst here
        simp [hi]
      · simp [here]

end Listed

/-- The slots in use are the first `n`, and a descriptor is closed or open on
one of them or on the slot behind. -/
structure Tabled (fs : FileSys) (n : Nat) : Prop where
  listed : Listed fs.files n
  opened : ∀ k (hk : k < 32), fs.openFiles[k].Below (n + 1)

theorem opened_set (P : OpenFile → Prop) {openFiles : OpenFiles}
    (all : ∀ k (hk : k < 32), P openFiles[k]) {j : Nat} (hj : j < 32) {f : OpenFile} (here : P f)
    (k : Nat) (hk : k < 32) :
    P (openFiles.set j f)[k] := by
  rw [Vector.getElem_set]
  split
  case isTrue => exact here
  case isFalse => exact all k hk

theorem OpenFile.Below.moveDown {f : OpenFile} {m i : Nat} (below : f.Below m)
    (other : f.fileNum ≠ i) :
    (if (i : Int) < f.fileNum then { f with fileNum := f.fileNum - 1 } else f).Below
      (if i + 1 < m then m - 1 else m) := by
  rcases below with closed | ⟨j, hj, number⟩
  · rw [if_neg (by omega)]
    exact .inl closed
  · split
    case isTrue => exact .inr ⟨j - 1, by grind, by dsimp only; omega⟩
    case isFalse => exact .inr ⟨j, by grind, number⟩

namespace Tabled

theorem set_opened (tabled : Tabled fs n) {j : Nat} (hj : j < 32) {f : OpenFile}
    (below : f.Below (n + 1)) : Tabled { fs with openFiles := fs.openFiles.set j f } n :=
  ⟨tabled.listed, opened_set (·.Below (n + 1)) tabled.opened hj below⟩

theorem named_le (tabled : Tabled fs n) {name : CString} {i : Nat} (hi : i < 64)
    (found : firstIndex (FsMeta.named name) fs.files.toList = some i) : i ≤ n := by
  by_contra beyond
  have room : n < 64 := by omega
  have unused := (tabled.listed.free n (Nat.le_refl n)).name
  have other := firstIndex_before found (Nat.not_le.mp beyond) (by simpa using room)
  have named := firstIndex_holds found (by simpa using hi)
  have empty : name.bytes = [] := by
    by_contra given
    have inside := tabled.listed.named_used hi given (by simpa using named)
    omega
  -- an unused slot has the empty name, so the search would have stopped there
  rw [slot_of_lt room] at unused
  rw [Vector.getElem_toList, FsMeta.named, empty] at other
  cases same : fs.files[n].fileName.toList with
  | nil => rw [same] at unused; cases unused
  | cons b bytes =>
    rw [same] at unused other
    obtain rfl := Option.some.inj unused
    cases other

theorem step (tabled : Tabled fs n) {c : Call} (h : Step fs c fs') : ∃ n', Tabled fs' n' := by
  obtain ⟨r, h⟩ := h
  cases c with
  | fsOpen name =>
    rcases fsOpen_found h with ⟨rfl, -⟩ | ⟨k, i, hk, hi, -, -, found, rfl⟩
    · exact ⟨n, tabled⟩
    · exact ⟨n, tabled.set_opened hk (.inr ⟨i, Nat.lt_succ_of_le (tabled.named_le hi found), rfl⟩)⟩
  | fsClose fildes =>
    rcases fsClose_cases h with ⟨rfl, -⟩ | ⟨k, hk, -, -, -, rfl⟩
    · exact ⟨n, tabled⟩
    · exact ⟨n, tabled.set_opened hk (.inl rfl)⟩
  | fsCreate name =>
    rcases tabled.listed.create h with ⟨rfl, -⟩ | ⟨files, -, -, -, -, openFiles, -, -, listed⟩
    · exact ⟨n, tabled⟩
    · refine ⟨n + 1, listed, fun k hk => ?_⟩
      simp only [openFiles]
      exact (tabled.opened k hk).mono (Nat.le_succ _)
  | fsDelete name new1 new2 =>
    rcases fsDelete_cases h with ⟨rfl, -⟩ | ⟨i, hi, -, closed, h⟩
    · exact ⟨n, tabled⟩
    · obtain ⟨-, -, -, -, openFiles⟩ := deleteFile_eq h
      refine ⟨_, (tabled.listed.deleteFile h).2, fun k hk => ?_⟩
      have below := (tabled.opened k hk).moveDown (closed ⟨k, hk⟩)
      simp only [openFiles, Vector.getElem_map]
      exact below.mono (by grind)
  | fsRead fildes nbyte new =>
    obtain ⟨⟨r, bytes, fs'⟩, h, same⟩ := Option.bind_eq_some_iff.mp h
    cases same
    rcases fsRead_cases h with ⟨rfl, -⟩ | ⟨k, i, hk, -, -, -, -, rfl⟩
    · exact ⟨n, tabled⟩
    · exact ⟨n, tabled.set_opened hk (tabled.opened k hk)⟩
  | fsWrite fildes data new =>
    rcases tabled.listed.write tabled.opened h with ⟨rfl, -⟩ |
      ⟨k, i, hk, hi, size, -, -, -, -, -, -, openFiles, -, listed⟩
    · exact ⟨n, tabled⟩
    · refine ⟨_, listed, fun j hj => ?_⟩
      simp only [openFiles]
      have below : OpenFile.Below { fs.openFiles[k] with
        offset := fs.openFiles[k].offset + data.length } (n + 1) := tabled.opened k hk
      exact (opened_set (·.Below (n + 1)) tabled.opened hk below j hj).mono (by grind)
  | fsGetFilesize fildes =>
    obtain ⟨size, -, same⟩ := Option.map_eq_some_iff.mp h
    cases same
    exact ⟨n, tabled⟩
  | fsLseek fildes offset =>
    rcases fsLseek_cases h with ⟨rfl, -⟩ | ⟨k, i, hk, hi, -, -, -, -, rfl⟩
    · exact ⟨n, tabled⟩
    · exact ⟨n, tabled.set_opened hk (tabled.opened k hk)⟩
  | fsTruncate fildes length new1 new2 =>
    rcases tabled.listed.truncate h with
      ⟨rfl, -⟩ | ⟨k, i, hk, -, -, -, -, -, -, openFiles, -, listed⟩
    · exact ⟨n, tabled⟩
    · refine ⟨n, listed, fun j hj => ?_⟩
      simp only [openFiles]
      refine opened_set (·.Below (n + 1)) tabled.opened hk ?_ j hj
      exact tabled.opened k hk

end Tabled

theorem Mounted.tabled (h : Mounted fs) : Tabled fs 0 where
  listed := h.packed.listed
  opened k hk := (h.packed.opened k hk).mono (Nat.le_succ 0)

theorem Mounted.opened (h : Mounted fs) :
    ∃ d blocks, fs.disk.handle = some d ∧ fs.disk.host d = some blocks := by
  obtain ⟨-, -, mount⟩ := h
  obtain ⟨d, blocks, -, -, image, -, rfl⟩ := mountFs_eq mount
  exact ⟨d, blocks, rfl, image⟩

/-- However a session goes, the slots in use stay a prefix of the table. -/
theorem run_tabled {calls : List Call} {mounted : FileSys} (start : Mounted mounted)
    (run : Run Step mounted calls fs) : ∃ n, Tabled fs n :=
  run.invariant (fun s => ∃ n, Tabled s n) ⟨0, start.tabled⟩ fun _ _ _ ⟨_, tabled⟩ step =>
    tabled.step step

end LastPicked.FileSystem
