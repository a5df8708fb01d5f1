import LastPicked.FileSysInside
import LastPicked.FileSysSessions

/-! The names of the files. `fs_create` looks for its name in the first 32 slots
only, so a file behind them can get a namesake. -/

namespace LastPicked.FileSystem
open CIntegers CMemory LabelledRuns

variable {fs fs' mounted : FileSys} {files files' : Files} {d : CString} {n : Nat} {r : Int}
  {name : CString}

def FsMeta.string (m : FsMeta) : List UInt8 := stringOf m.fileName.toList

theorem FsMeta.named_eq {m : FsMeta} (terminated : 0 ∈ m.fileName.toList) :
    m.named name = some (decide (m.string = name.bytes)) :=
  sameString_eq terminated name.noNul

theorem FsMeta.Unused.terminated {m : FsMeta} (unused : m.Unused) : 0 ∈ m.fileName.toList :=
  List.mem_of_mem_head? unused.name

theorem FsMeta.Unused.string {m : FsMeta} (unused : m.Unused) : m.string = [] := by
  have head := unused.name
  rw [FsMeta.string, stringOf]
  cases bytes : m.fileName.toList with
  | nil => rfl
  | cons b rest =>
    rw [bytes] at head
    obtain rfl := Option.some.inj head
    rfl

theorem FsMeta.setName_bytes (m : FsMeta) (short : name.bytes.length ≤ 15) :
    ∃ rest, (m.setName name).fileName.toList = name.bytes ++ 0 :: rest := by
  refine ⟨m.fileName.toList.drop (name.bytes.length + 1), List.ext_getElem ?_ fun j hj hj' => ?_⟩
  · simp
    omega
  · have inside : j < 16 := by simpa using hj
    simp only [FsMeta.setName, Vector.getElem_toList, Vector.getElem_ofFn, Fin.getElem_fin,
      List.getElem_append, List.getElem_cons, List.getElem_drop]
    rcases Nat.lt_trichotomy j name.bytes.length with before | rfl | behind
    · simp [before, List.getElem?_append]
    · simp
    · have none : (name.bytes ++ [0])[j]? = none := List.getElem?_eq_none (by simp; omega)
      have place : name.bytes.length + 1 + (j - name.bytes.length - 1) = j := by omega
      have later : ¬j < name.bytes.length := by omega
      have last : j - name.bytes.length ≠ 0 := by omega
      simp [none, later, last, place]

theorem FsMeta.setName_string (m : FsMeta) (short : name.bytes.length ≤ 15) :
    (m.setName name).string = name.bytes ∧ 0 ∈ (m.setName name).fileName.toList := by
  obtain ⟨rest, bytes⟩ := m.setName_bytes short
  rw [FsMeta.string, bytes]
  exact ⟨stringOf_terminated name.noNul rest, by simp⟩

structure Distinct (files : Files) (n : Nat) : Prop where
  terminated : ∀ k, 0 ∈ (slot files k).fileName.toList
  unique : ∀ j < n, ∀ k < n, (slot files j).string = (slot files k).string → j = k

/-- No two files have one name, and a descriptor on the first unused slot, which
has the empty name, is only there while no file has it. -/
structure Named (fs : FileSys) (n : Nat) : Prop where
  tabled : Tabled fs n
  distinct : Distinct fs.files n
  behind : ∀ (k : Nat) (hk : k < 32), fs.openFiles[k].fileNum = n →
    ∀ j < n, (slot fs.files j).string ≠ []

theorem Distinct.congr (distinct : Distinct files n)
    (same : ∀ k, (slot files' k).fileName = (slot files k).fileName) : Distinct files' n where
  terminated k := by
    rw [same]
    exact distinct.terminated k
  unique j hj k hk equal := by
    unfold FsMeta.string at equal
    rw [same, same] at equal
    exact distinct.unique j hj k hk equal

theorem fsCreate_absent (h : fsCreate fs name = some (r, fs')) (done : r ≠ -1) :
    name.bytes.length ≤ 15 ∧ ∀ j < 32, (slot fs.files j).named name = some false := by
  unfold fsCreate at h
  split at h
  case isTrue => grind
  case isFalse short =>
    obtain ⟨same, found, h⟩ := Option.bind_eq_some_iff.mp h
    split at h
    case isTrue => grind
    case isFalse none =>
      refine ⟨by omega, fun j hj => ?_⟩
      have other := firstIndex_before found (show j < same by omega) (by simp; omega)
      rw [slot_of_lt (by omega)]
      simpa using other

theorem fileNum_set (openFiles : OpenFiles) {k : Nat} (hk : k < 32) (offset : Int) (j : Nat)
    (hj : j < 32) :
    (openFiles.set k { openFiles[k] with offset })[j].fileNum = openFiles[j].fileNum := by
  rw [Vector.getElem_set]
  split
  case isTrue here => simp only [here]
  case isFalse => rfl

/-- A call of `fs_create` has to avoid the name of a file that is not one of the
first 32, unless there is no slot for it. -/
def Call.KeepsNames (fs : FileSys) : Call → Prop
  | .fsCreate name => ∀ k < 64, 32 ≤ k → (slot fs.files k).size ≠ -1 →
      (slot fs.files k).named name = some true → ∀ j < 64, (slot fs.files j).size ≠ -1
  | _ => True

/-- A call of `mount_fs` that opens the disk gets its buffer. -/
def Op.KeepsNames (d : CString) (fs : FileSys) : Op → Prop
  | .call c => c.KeepsNames fs
  | .mountFs none => (openDisk fs.disk (some d)).1 ≠ 0
  | _ => True

namespace Named

theorem of_same (named : Named fs n) {m : Nat} (tabled : Tabled fs' m)
    (same : ∀ k, (slot fs'.files k).fileName = (slot fs.files k).fileName)
    (number : ∀ (k : Nat) (hk : k < 32), fs'.openFiles[k].fileNum = fs.openFiles[k].fileNum)
    (listed : Listed fs'.files n) : Named fs' m := by
  obtain rfl := listed.eq tabled.listed
  refine ⟨tabled, named.distinct.congr same, fun k hk here j hj => ?_⟩
  rw [FsMeta.string, same]
  exact named.behind k hk ((number k hk).symm.trans here) j hj

theorem create (named : Named fs n) {m : Nat} (tabled : Tabled fs' m)
    (keeps : (Call.fsCreate name).KeepsNames fs) (h : fsCreate fs name = some (r, fs')) :
    Named fs' m := by
  rcases named.tabled.listed.create h with ⟨rfl, -⟩ |
    ⟨files, rfl, room, -, -, openFiles, -, entries, listed⟩
  · exact named.of_same tabled (fun _ => rfl) (fun _ _ => rfl) named.tabled.listed
  · obtain rfl := listed.eq tabled.listed
    obtain ⟨short, absent⟩ := fsCreate_absent h (by decide)
    have last (k : Nat) (hk : k = n) : (slot fs'.files k).string = name.bytes := by
      rw [entries, if_pos hk]
      exact (FsMeta.setName_string _ short).1
    have first (k : Nat) (hk : k < n) : slot fs'.files k = slot fs.files k := by
      rw [entries, if_neg (by omega)]
    -- no file before had the name: the search saw the first 32, the condition is about the rest
    have other (k : Nat) (hk : k < n) : (slot fs.files k).string ≠ name.bytes := by
      intro same
      have found : (slot fs.files k).named name = _ := FsMeta.named_eq (named.distinct.terminated k)
      rw [same, decide_eq_true rfl] at found
      rcases Nat.lt_or_ge k 32 with early | late
      · have missed := absent k early
        rw [found] at missed
        cases missed
      · have used := named.tabled.listed.used k hk
        exact keeps k (by omega) late (by omega) found n (by omega)
          (named.tabled.listed.free n (Nat.le_refl n)).size
    refine ⟨tabled, ⟨fun k => ?_, fun j hj k hk equal => ?_⟩, fun k hk here => ?_⟩
    · rw [entries]
      split
      case isTrue => exact (FsMeta.setName_string _ short).2
      case isFalse => exact named.distinct.terminated k
    · rcases Nat.lt_succ_iff_lt_or_eq.mp hj with before | lastj <;>
        rcases Nat.lt_succ_iff_lt_or_eq.mp hk with before' | lastk
      · rw [first j before, first k before'] at equal
        exact named.distinct.unique j before k before' equal
      · rw [first j before, last k lastk] at equal
        exact absurd equal (other j before)
      · rw [last j lastj, first k before'] at equal
        exact absurd equal.symm (other k before')
      · rw [lastj, lastk]
    · have below := named.tabled.opened k hk
      simp only [openFiles] at here
      rcases below with closed | ⟨i, hi, number⟩ <;> omega

theorem delete (named : Named fs n) {m : Nat} (tabled : Tabled fs' m) {new1 new2 : Option Block}
    (h : fsDelete fs name new1 new2 = some (r, fs')) : Named fs' m := by
  rcases fsDelete_cases h with ⟨rfl, -⟩ | ⟨i, hi, -, closed, h⟩
  · exact named.of_same tabled (fun _ => rfl) (fun _ _ => rfl) named.tabled.listed
  · obtain ⟨-, -, -, -, openFiles⟩ := deleteFile_eq h
    obtain ⟨kept, listed⟩ := named.tabled.listed.deleteFile h
    have room := named.tabled.listed.room
    obtain rfl := listed.eq tabled.listed
    -- each file that is left was in slot `from k`
    let origin (k : Nat) : Nat := if k < i then k else k + 1
    have entry (k : Nat) (hk : k < if i < n then n - 1 else n) :
        origin k < n ∧ (slot fs'.files k).string = (slot fs.files (origin k)).string := by
      refine ⟨by grind, ?_⟩
      rw [FsMeta.string, FsMeta.string, (kept k).2]
      congr 3
      unfold closeGap
      grind
    refine ⟨tabled, ⟨fun k => ?_, fun j hj k hk equal => ?_⟩, fun k hk here j hj => ?_⟩
    · rw [(kept k).2]
      unfold closeGap
      split
      case isTrue => exact named.distinct.terminated k
      case isFalse =>
        split
        case isTrue => exact List.mem_of_mem_head? (FsMeta.clearName_head _)
        case isFalse => exact named.distinct.terminated (k + 1)
    · obtain ⟨fromj, samej⟩ := entry j hj
      obtain ⟨fromk, samek⟩ := entry k hk
      have same := named.distinct.unique _ fromj _ fromk (samej.symm.trans (equal.trans samek))
      grind
    · obtain ⟨fromj, samej⟩ := entry j hj
      rw [samej]
      refine named.behind k hk ?_ _ fromj
      have below := named.tabled.opened k hk
      have other : fs.openFiles[k].fileNum ≠ i := closed ⟨k, hk⟩
      simp only [openFiles, Vector.getElem_map] at here
      rcases below with shut | ⟨i', hi', number⟩ <;> grind

/-- A write through a descriptor on the first unused slot makes a file with the
empty name, which no other file has then. -/
theorem write (named : Named fs n) {m : Nat} (tabled : Tabled fs' m) {fildes : Int}
    {data : List UInt8} {new : Option Block} (h : fsWrite fs fildes data new = some (r, fs')) :
    Named fs' m := by
  rcases named.tabled.listed.write named.tabled.opened h with ⟨rfl, -⟩ |
    ⟨k, i, hk, hi, size, -, -, number, upto, -, -, openFiles, files, listed⟩
  · exact named.of_same tabled (fun _ => rfl) (fun _ _ => rfl) named.tabled.listed
  · have entry := slot_set fs.files i hi { fs.files[i] with size }
    rw [← files] at entry
    have same (j : Nat) : (slot fs'.files j).fileName = (slot fs.files j).fileName := by
      rw [entry]
      split
      case isTrue here =>
        subst here
        rw [slot_of_lt hi]
      case isFalse => rfl
    have numbers (j : Nat) (hj : j < 32) : fs'.openFiles[j].fileNum = fs.openFiles[j].fileNum := by
      simp only [openFiles]
      exact fileNum_set _ hk _ j hj
    by_cases stays : i < n ∨ size = -1
    · rw [if_pos stays] at listed
      exact named.of_same tabled same numbers listed
    · rw [if_neg stays] at listed
      obtain rfl : i = n := by omega
      obtain rfl := listed.eq tabled.listed
      have distinct := named.distinct.congr same
      have empty (j : Nat) (hj : j = i) : (slot fs'.files j).string = [] := by
        rw [hj, FsMeta.string, same]
        exact (named.tabled.listed.free i (Nat.le_refl i)).string
      have given (j : Nat) (hj : j < i) : (slot fs'.files j).string ≠ [] := by
        rw [FsMeta.string, same]
        exact named.behind k hk number j hj
      refine ⟨tabled, ⟨distinct.terminated, fun j hj j' hj' equal => ?_⟩, fun j hj here => ?_⟩
      · rcases Nat.lt_succ_iff_lt_or_eq.mp hj with before | last <;>
          rcases Nat.lt_succ_iff_lt_or_eq.mp hj' with before' | last'
        · exact distinct.unique j before j' before' equal
        · exact absurd (equal.trans (empty j' last')) (given j before)
        · exact absurd (equal.symm.trans (empty j last)) (given j' before')
        · rw [last, last']
      · have below := named.tabled.opened j hj
        rw [numbers j hj] at here
        rcases below with closed | ⟨i', hi', number'⟩ <;> omega

theorem opened (named : Named fs n) {m : Nat} (tabled : Tabled fs' m)
    (h : fsOpen fs name = some (r, fs')) : Named fs' m := by
  rcases fsOpen_found h with ⟨rfl, -⟩ | ⟨k, i, hk, hi, -, -, found, rfl⟩
  · exact named.of_same tabled (fun _ => rfl) (fun _ _ => rfl) named.tabled.listed
  · obtain rfl := named.tabled.listed.eq tabled.listed
    refine ⟨tabled, named.distinct, fun j hj here => ?_⟩
    dsimp only at here
    by_cases same : k = j
    · rw [Vector.getElem_set, if_pos same] at here
      obtain rfl : i = n := Int.ofNat_inj.mp here
      intro j' hj' empty
      have unused := named.tabled.listed.free i (Nat.le_refl i)
      have missed := firstIndex_before found hj' (by simp; omega)
      have holds := firstIndex_holds found (by simpa using hi)
      rw [Vector.getElem_toList, ← slot_of_lt hi, FsMeta.named_eq unused.terminated,
        unused.string] at holds
      rw [Vector.getElem_toList, ← slot_of_lt (by omega),
        FsMeta.named_eq (named.distinct.terminated j'), empty] at missed
      exact absurd (holds.symm.trans missed) (by decide)
    · rw [Vector.getElem_set, if_neg same] at here
      exact named.behind j hj here

theorem step (named : Named fs n) {c : Call} (keeps : c.KeepsNames fs) (h : Step fs c fs') :
    ∃ m, Named fs' m := by
  obtain ⟨m, tabled⟩ := named.tabled.step h
  refine ⟨m, ?_⟩
  have listed := named.tabled.listed
  obtain ⟨r, h⟩ := h
  cases c with
  | fsOpen name => exact named.opened tabled h
  | fsClose fildes =>
    rcases fsClose_cases h with ⟨rfl, -⟩ | ⟨k, hk, -, -, -, rfl⟩
    · exact named.of_same tabled (fun _ => rfl) (fun _ _ => rfl) listed
    · obtain rfl := listed.eq tabled.listed
      refine ⟨tabled, named.distinct, fun j hj here => ?_⟩
      dsimp only at here
      by_cases same : k = j
      · rw [Vector.getElem_set, if_pos same] at here
        exact absurd here (show (-1 : Int) ≠ n by omega)
      · rw [Vector.getElem_set, if_neg same] at here
        exact named.behind j hj here
  | fsCreate name => exact named.create tabled keeps h
  | fsDelete name new1 new2 => exact named.delete tabled h
  | fsRead fildes nbyte new =>
    obtain ⟨⟨r, bytes, fs'⟩, h, same⟩ := Option.bind_eq_some_iff.mp h
    cases same
    rcases fsRead_cases h with ⟨rfl, -⟩ | ⟨k, i, hk, -, -, -, -, rfl⟩
    · exact named.of_same tabled (fun _ => rfl) (fun _ _ => rfl) listed
    · exact named.of_same tabled (fun _ => rfl) (fileNum_set _ hk _) listed
  | fsWrite fildes data new => exact named.write tabled h
  | fsGetFilesize fildes =>
    obtain ⟨size, -, same⟩ := Option.map_eq_some_iff.mp h
    cases same
    exact named.of_same tabled (fun _ => rfl) (fun _ _ => rfl) listed
  | fsLseek fildes offset =>
    rcases fsLseek_cases h with ⟨rfl, -⟩ | ⟨k, i, hk, hi, -, -, -, -, rfl⟩
    · exact named.of_same tabled (fun _ => rfl) (fun _ _ => rfl) listed
    · exact named.of_same tabled (fun _ => rfl) (fileNum_set _ hk _) listed
  | fsTruncate fildes length new1 new2 =>
    rcases listed.truncate h with
      ⟨rfl, -⟩ | ⟨k, i, hk, -, -, -, -, -, -, openFiles, entries, listed'⟩
    · exact named.of_same tabled (fun _ => rfl) (fun _ _ => rfl) listed
    · refine named.of_same tabled (fun j => (entries j).2) (fun j hj => ?_) listed'
      simp only [openFiles]
      exact fileNum_set _ hk _ j hj

end Named

theorem FsMeta.string_short {m : FsMeta} (terminated : 0 ∈ m.fileName.toList) :
    m.string.length ≤ 15 := by
  have prefix_le := (List.takeWhile_prefix (· ≠ (0 : UInt8)) (l := m.fileName.toList)).length_le
  rw [Vector.length_toList] at prefix_le
  by_contra long
  have whole : m.string = m.fileName.toList :=
    List.IsPrefix.eq_of_length (List.takeWhile_prefix _) (by
      rw [Vector.length_toList]
      unfold FsMeta.string at *
      unfold stringOf at *
      omega)
  have nonzero := List.takeWhile_eq_self_iff.mp whole 0 terminated
  simp at nonzero

/-- A name that is taken is refused exactly when the search comes to its file, or
when there is no slot anyway. -/
theorem Distinct.create_iff (distinct : Distinct fs.files n) (listed : Listed fs.files n) {k : Nat}
    (hk : k < 64) (used : (slot fs.files k).size ≠ -1)
    (same : (slot fs.files k).string = name.bytes) :
    fsCreate fs name = some (-1, fs) ↔ k < 32 ∨ ∀ j < 64, (slot fs.files j).size ≠ -1 := by
  have short : ¬15 < name.bytes.length := by
    rw [← same]
    exact Nat.not_lt.mpr (FsMeta.string_short (distinct.terminated k))
  have search : firstIndex (FsMeta.named name) (fs.files.toList.take 32) =
      some ((fs.files.toList.take 32).findIdx fun m => m.string = name.bytes) :=
    firstIndex_eq fun m there => by
      obtain ⟨j, hj, rfl⟩ := List.getElem_of_mem (List.mem_of_mem_take there)
      rw [Vector.length_toList] at hj
      rw [Vector.getElem_toList, ← slot_of_lt hj]
      exact FsMeta.named_eq (distinct.terminated j)
  obtain ⟨inside, free, before⟩ := findIdx_free fs.files
  rw [fsCreate, if_neg short, search, Option.bind_eq_bind, Option.bind_some]
  by_cases early : k < 32
  · have found : (fs.files.toList.take 32).findIdx (fun m => m.string = name.bytes) < 32 := by
      have there : fs.files[k] ∈ fs.files.toList.take 32 :=
        List.mem_take_iff_getElem.mpr ⟨k, by simp; omega, by simp⟩
      have below := List.findIdx_lt_length_of_exists (p := fun m => m.string = name.bytes)
        ⟨_, there, by simpa [← slot_of_lt hk] using same⟩
      simpa using below
    rw [if_pos found]
    exact iff_of_true rfl (.inl early)
  · have missed : ¬(fs.files.toList.take 32).findIdx (fun m => m.string = name.bytes) < 32 := by
      intro found
      -- the file it finds would be another one of the same name
      have within : (fs.files.toList.take 32).findIdx (fun m => m.string = name.bytes) <
          (fs.files.toList.take 32).length := by simpa using found
      have holds := List.findIdx_getElem (w := within)
      rw [List.getElem_take, Vector.getElem_toList, ← slot_of_lt (by omega),
        decide_eq_true_eq] at holds
      have inUse := listed.lt_of_size used
      have twice := distinct.unique _ (by omega) k inUse (holds.trans same.symm)
      omega
    rw [if_neg missed]
    dsimp only at inside free before ⊢
    split
    case isTrue full =>
      rw [full] at before
      exact iff_of_true rfl (.inr before)
    case isFalse room =>
      refine iff_of_false (fun h => ?_) ?_
      · obtain ⟨files, -, done, -⟩ := createFile_eq h
        cases done
      · rintro (first | full)
        · exact early first
        · exact full _ (inside room) free

theorem Mounted.named (h : Mounted fs) : Named fs 0 where
  tabled := h.tabled
  distinct := ⟨fun k => (h.tabled.listed.free k (Nat.zero_le k)).terminated, nofun⟩
  behind _ _ _ := nofun

theorem session_names {ops : List Op} (start : Mounted mounted)
    (disk : mounted.disk.handle = some d)
    (run : Run (fun s o t => o.KeepsNames d s ∧ OpStep d s o t) mounted ops fs)
    (opened : fs.disk.handle = some d) :
    (∀ j < 64, ∀ k < 64, (slot fs.files j).size ≠ -1 → (slot fs.files k).size ≠ -1 →
      (slot fs.files j).string = (slot fs.files k).string → j = k) ∧
    ∀ k < 64, ∀ name : CString, (slot fs.files k).size ≠ -1 →
    (slot fs.files k).string = name.bytes →
      (fsCreate fs name = some (-1, fs) ↔ k < 32 ∨ ∀ j < 64, (slot fs.files j).size ≠ -1) := by
  let Good (files : Files) : Prop := ∃ n, Listed files n ∧ Distinct files n
  let Live (s : FileSys) : Prop := s.disk.handle = none ∨ ∃ n, Named s n
  have kept := run.invariant (fun s => KeepsDisk d Good s ∧ Live s)
    ⟨start.keepsDisk disk, .inr ⟨0, start.named⟩⟩ fun s op t ⟨disk, live⟩ ⟨keeps, step⟩ => by
      refine ⟨disk.step (fun still => ?_) step, disk.live Live live ?_ ?_ ?_ ?_ step⟩
      · rcases live with closed | ⟨n, named⟩
        · simp [closed] at still
        · exact ⟨n, named.tabled.listed, named.distinct⟩
      · rintro openFiles files disk ⟨n, listed, distinct⟩
        refine .inr ⟨n, ⟨listed, fun k hk => .inl (by simp [closeAll])⟩, distinct,
          fun k hk here => ?_⟩
        simp [closeAll] at here
      · exact fun openFiles disk closed => .inl closed
      · rintro c rfl step
        rcases live with closed | ⟨n, named⟩
        · exact .inl (by rw [step.rewritten.closed closed]; exact closed)
        · exact .inr (named.step keeps step)
      · rintro rfl done
        exact absurd done keeps
  obtain ⟨n, named⟩ : ∃ n, Named fs n := kept.2.resolve_left (by simp [opened])
  have listed := named.tabled.listed
  exact ⟨fun j _ k _ used used' =>
      named.distinct.unique j (listed.lt_of_size used) k (listed.lt_of_size used'),
    fun k hk name used same => named.distinct.create_iff listed hk used same⟩

theorem createFile_some {i : Nat} (room : i < 63)
    (fill : fillBlockAndOffset fs.files i = some files) (name : CString) :
    ∃ fs', createFile fs i name = some (0, fs') := by
  have behind : ((i : Int) + 1) = ((i + 1 : Nat) : Int) := rfl
  simp only [createFile, fill, behind, modify_of_lt _ (show i < 64 by omega),
    modify_of_lt _ (show i + 1 < 64 by omega), Option.bind_eq_bind, Option.bind_some]
  exact ⟨_, rfl⟩

theorem Distinct.search_absent (distinct : Distinct files n)
    (absent : ∀ k < 32, (slot files k).string ≠ name.bytes) :
    firstIndex (FsMeta.named name) (files.toList.take 32) = some 32 := by
  have other : firstIndex (FsMeta.named name) (files.toList.take 32) =
      some ((files.toList.take 32).findIdx fun _ => false) := firstIndex_eq fun m there => by
      obtain ⟨j, hj, rfl⟩ := List.getElem_of_mem there
      rw [List.length_take] at hj
      rw [List.getElem_take, Vector.getElem_toList, ← slot_of_lt (by omega),
        FsMeta.named_eq (distinct.terminated j)]
      simpa using absent j (by omega)
  rwa [List.findIdx_eq_length.mpr (by simp), List.length_take, Vector.length_toList] at other

theorem fsCreate_done (listed : Listed fs.files n) (distinct : Distinct fs.files n) (room : n < 63)
    (short : name.bytes.length ≤ 15) (absent : ∀ k < 32, (slot fs.files k).string ≠ name.bytes)
    (bounded : ∀ j, n = j + 1 → Bounded fs.files j) :
    ∃ fs', fsCreate fs name = some (0, fs') ∧ Bounded fs'.files n := by
  have search := distinct.search_absent absent
  obtain ⟨inside, free, before⟩ := findIdx_free fs.files
  generalize place : fs.files.toList.findIdx (fun m => m.size = -1) = i at *
  obtain rfl : i = n := by
    have above : ¬i < n := fun inside => by have := listed.used i inside; omega
    by_contra other
    exact before n (by omega) (listed.free n (Nat.le_refl n)).size
  obtain ⟨files, fill, last⟩ := fillBlockAndOffset_some (by omega) bounded
    (by rw [free]; decide)
  obtain ⟨fs', done⟩ := createFile_some room fill name
  obtain ⟨_, -, -, fill', -, -, entries⟩ := createFile_eq done
  obtain rfl := Option.some.inj (fill.symm.trans fill')
  refine ⟨fs', ?_, ?_⟩
  · simp only [fsCreate, search, place, Option.bind_eq_bind, Option.bind_some]
    rw [if_neg (by omega), if_neg (by omega), if_neg (by omega), done]
  · have here := entries i
    rw [if_pos rfl] at here
    refine ⟨?_, ?_, ?_⟩
    · rw [here, FsMeta.setName_block]
      exact last.block
    · rw [here, FsMeta.setName_offset]
      exact last.offset
    · rw [here, FsMeta.setName_size]
      exact (by decide : (-1 : Int) ≤ 0 ∧ (0 : Int) ≤ diskBytes)

section

def nameAt (k : Fin 64) : CString := ⟨[UInt8.ofNat (k + 1)], by revert k; decide⟩

theorem nameAt_bytes : ∀ j k : Fin 64, (nameAt j).bytes = (nameAt k).bytes → j = k := by decide

structure Numbered (fs : FileSys) (n : Nat) : Prop where
  named : Named fs n
  bounded : ∀ k < n, Bounded fs.files k
  names : ∀ k : Fin 64, k < n → (slot fs.files k).string = (nameAt k).bytes

theorem Numbered.absent (numbered : Numbered fs n) {m : Fin 64} (behind : n ≤ m) (k : Nat)
    (hk : k < 64) :
    (slot fs.files k).string ≠ (nameAt m).bytes := by
  rcases Nat.lt_or_ge k n with before | free
  · rw [numbered.names ⟨k, hk⟩ before]
    intro same
    have equal := Fin.ext_iff.mp (nameAt_bytes _ _ same)
    dsimp only at equal
    omega
  · rw [(numbered.named.tabled.listed.free k free).string]
    exact (List.cons_ne_nil _ _).symm

theorem Numbered.create {m : Fin 64} (numbered : Numbered fs m) (room : m.val < 63) :
    ∃ fs', fsCreate fs (nameAt m) = some (0, fs') ∧ Numbered fs' (m + 1) ∧ fs'.disk = fs.disk ∧
      (Call.fsCreate (nameAt m)).KeepsNames fs := by
  have listed := numbered.named.tabled.listed
  have absent := numbered.absent (Nat.le_refl m.val)
  have short : (nameAt m).bytes.length ≤ 15 := by simp [nameAt]
  obtain ⟨fs', done, last⟩ :=
    fsCreate_done listed numbered.named.distinct room short (fun k hk => absent k (by omega))
    fun j next => numbered.bounded j (by omega)
  have keeps : (Call.fsCreate (nameAt m)).KeepsNames fs := by
    intro k hk _ _ found
    rw [FsMeta.named_eq (numbered.named.distinct.terminated k)] at found
    exact absurd (by simpa using found) (absent k hk)
  obtain ⟨n', tabled⟩ := numbered.named.tabled.step (c := .fsCreate (nameAt m)) ⟨0, done⟩
  have named := numbered.named.create tabled keeps done
  rcases listed.create done with ⟨-, other⟩ | ⟨files, -, -, -, -, -, disk, entries, listed'⟩
  · cases other
  · obtain rfl := listed'.eq tabled.listed
    have kept (k : Nat) (hk : k < m) : slot fs'.files k = slot fs.files k := by
      rw [entries, if_neg (by omega)]
    refine ⟨fs', done, ⟨named, fun k hk => ?_, fun k hk => ?_⟩, disk, keeps⟩
    · rcases Nat.lt_succ_iff_lt_or_eq.mp hk with before | rfl
      · obtain ⟨block, offset, size⟩ := numbered.bounded k before
        rw [← kept k before] at block offset size
        exact ⟨block, offset, size⟩
      · exact last
    · rcases Nat.lt_succ_iff_lt_or_eq.mp hk with before | here
      · rw [kept k before]
        exact numbered.names k before
      · obtain rfl : k = m := Fin.ext here
        rw [entries, if_pos rfl]
        exact (FsMeta.setName_string _ short).1

theorem run_numbered (start : Mounted mounted) (d : CString) (m : Nat) (hm : m ≤ 63) : ∃ ops fs,
    Run (fun s o t => o.KeepsNames d s ∧ OpStep d s o t) mounted ops fs ∧ Numbered fs m ∧
      fs.disk = mounted.disk := by
  induction m with
  | zero => exact ⟨[], mounted, .nil, ⟨start.named, nofun, nofun⟩, rfl⟩
  | succ m ih =>
    obtain ⟨ops, fs, run, numbered, disk⟩ := ih (by omega)
    obtain ⟨fs', done, numbered', disk', keeps⟩ :=
      @Numbered.create fs ⟨m, by omega⟩ numbered (Nat.lt_of_succ_le hm)
    have last : OpStep d fs (.call (.fsCreate (nameAt ⟨m, by omega⟩))) fs' := ⟨0, done⟩
    have names : Op.KeepsNames d fs (.call (.fsCreate (nameAt ⟨m, by omega⟩))) := keeps
    exact ⟨_, fs', run.snoc ⟨names, last⟩, numbered', disk'.trans disk⟩

theorem session_names_oneFile :
    ∃ disk, fsCreate (oneFile disk) nameA = some (-1, oneFile disk) := by
  obtain ⟨disk, start⟩ := mounted_start
  obtain ⟨d, -, opened, -⟩ := start.opened
  have keeps : Op.KeepsNames d _ (.call (.fsCreate nameA)) := fun k _ _ used _ =>
    absurd (start.tabled.listed.free k (Nat.zero_le k)).size used
  have last : OpStep d ⟨threeOpen (-1) (-1) (-1) 0,
    twoEntries FsMeta.zero.fresh FsMeta.zero.fresh, disk⟩
    (.call (.fsCreate nameA)) (oneFile disk) := ⟨0, rfl⟩
  have names := (session_names start opened (.single ⟨keeps, last⟩) opened).2
  exact ⟨disk, (names 0 (by decide) nameA (show (0 : Int) ≠ -1 by decide)
    (show (entry nameA 0 0).string = nameA.bytes by decide)).mpr (.inl (by decide))⟩

/-- The file in slot 32 gets a namesake. -/
theorem names_repeat : ¬∀ mounted d ops fs, Mounted mounted → mounted.disk.handle = some d →
    Run (OpStep d) mounted ops fs → fs.disk.handle = some d →
    ∀ j < 64, ∀ k < 64, (slot fs.files j).size ≠ -1 → (slot fs.files k).size ≠ -1 →
      (slot fs.files j).string = (slot fs.files k).string → j = k := by
  intro unique
  obtain ⟨disk, start⟩ := mounted_start
  obtain ⟨d, -, opened, -⟩ := start.opened
  obtain ⟨ops, fs, run, numbered, same⟩ := run_numbered start d 33 (by decide)
  have listed := numbered.named.tabled.listed
  have short : (nameAt 32).bytes.length ≤ 15 := by decide
  obtain ⟨fs', done, -⟩ := fsCreate_done listed numbered.named.distinct (by decide) short
    (fun k hk => by
      rw [numbered.names ⟨k, by omega⟩ (by dsimp only; omega)]
      exact fun same => absurd (Fin.ext_iff.mp (nameAt_bytes _ _ same)) (by dsimp only; omega))
    fun j next => numbered.bounded j (by omega)
  rcases listed.create done with ⟨-, other⟩ | ⟨files, -, -, -, -, -, disk', entries, listed'⟩
  · cases other
  · have last : OpStep d fs (.call (.fsCreate (nameAt 32))) fs' := ⟨0, done⟩
    have first : (slot fs'.files 32).string = (nameAt 32).bytes := by
      rw [entries, if_neg (by decide)]
      exact numbered.names 32 (by decide)
    have second : (slot fs'.files 33).string = (nameAt 32).bytes := by
      rw [entries, if_pos rfl]
      exact (FsMeta.setName_string _ short).1
    have used (k : Nat) (hk : k < 34) : (slot fs'.files k).size ≠ -1 := by
      have size := listed'.used k hk
      omega
    have plain : Run (OpStep d) _ ops fs := run.mono fun _ _ _ h => h.2
    have twice :=
      unique _ d _ fs' start opened (plain.snoc last) (by rw [disk', same]; exact opened)
      32 (by decide) 33 (by decide) (used 32 (by decide)) (used 33 (by decide))
        (first.trans second.symm)
    exact absurd twice (by decide)

end

end LastPicked.FileSystem
