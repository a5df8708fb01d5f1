import LastPicked.FileSysDelete
import LastPicked.FileSysPositions

/-! Which file a name stands for. The searches of `fs_open` and `fs_delete` compare
names only, and a slot that is not in use has the empty one. -/

namespace LastPicked.FileSystem
open CIntegers CMemory LabelledRuns

variable {fs fs' mounted : FileSys} {files : Files} {d : CString} {n : Nat} {name : CString}

structure HasName (files : Files) (name : CString) (k : Nat) : Prop where
  inside : k < 64
  used : 0 ≤ (slot files k).size
  name : (slot files k).string = name.bytes

def OpenOn (fs : FileSys) (k : Nat) : Prop := ∃ j : Fin 32, (fs.openFiles.get j).fileNum = k

def openCount (fs : FileSys) : Nat := fs.openFiles.toList.countP fun f => f.fileNum ≠ -1

/-- `fs_open` gives a descriptor exactly for the name of a file in use, on that file,
while there is one left. -/
def OpensExisting (fs : FileSys) (name : CString) : Prop :=
  ∃ r fs', fsOpen fs name = some (r, fs') ∧
    (r ≠ -1 ↔ (∃ k, HasName fs.files name k) ∧ openCount fs < 32) ∧
    (r ≠ -1 → ∃ (j : Fin 32) (k : Nat), r = j.val ∧ HasName fs.files name k ∧
      fs'.openFiles.get j = ⟨k, 0⟩) ∧
    (r = -1 → fs' = fs)

/-- `fs_delete` succeeds exactly for the name of a file in use that is not open. -/
def DeletesExisting (fs : FileSys) (name : CString) (new1 new2 : Option Block) : Prop :=
  ∃ r fs', fsDelete fs name new1 new2 = some (r, fs') ∧
    (r = 0 ↔ ∃ k, HasName fs.files name k ∧ ¬OpenOn fs k) ∧ (r = -1 → fs' = fs)

theorem Filed.search (filed : Filed files) (name : CString) :
    firstIndex (FsMeta.named name) files.toList = some 64 ∧
    (∀ k < 64, (slot files k).string ≠ name.bytes) ∨
      ∃ i < 64, firstIndex (FsMeta.named name) files.toList = some i ∧
        (slot files i).string = name.bytes ∧ ∀ j < i, (slot files j).string ≠ name.bytes := by
  have search : firstIndex (FsMeta.named name) files.toList =
      some (files.toList.findIdx fun m => m.string = name.bytes) :=
    firstIndex_eq fun m there => by
      obtain ⟨j, hj, rfl⟩ := List.getElem_of_mem there
      rw [Vector.length_toList] at hj
      rw [Vector.getElem_toList, ← slot_of_lt hj]
      exact FsMeta.named_eq (filed.terminated j)
  have bound : files.toList.findIdx (fun m => m.string = name.bytes) ≤ files.toList.length :=
    List.findIdx_le_length
  rw [Vector.length_toList] at bound
  have other (j : Nat) (hj : j < 64)
      (before : j < files.toList.findIdx fun m => m.string = name.bytes) :
      (slot files j).string ≠ name.bytes := by
    simpa [slot_of_lt hj] using List.not_of_lt_findIdx before
  rcases Nat.lt_or_ge (files.toList.findIdx fun m => m.string = name.bytes) 64 with inside | all
  · have found :=
      List.findIdx_getElem (w := show files.toList.findIdx (fun m => m.string = name.bytes) <
      files.toList.length by simpa using inside)
    refine .inr ⟨_, inside, search, ?_, fun j hj => other j (by omega) hj⟩
    simpa [slot_of_lt inside] using found
  · refine .inl ⟨?_, fun k hk => other k hk (by omega)⟩
    rw [search]
    congr 1
    omega

theorem free_descriptor (fs : FileSys) :
    fs.openFiles.toList.findIdx (fun f => f.fileNum = -1) = 32 ∧ ¬openCount fs < 32 ∨
      ∃ j : Fin 32, fs.openFiles.toList.findIdx (fun f => f.fileNum = -1) = j.val ∧
      openCount fs < 32 := by
  have bound : fs.openFiles.toList.findIdx (fun f => f.fileNum = -1) ≤ fs.openFiles.toList.length :=
    List.findIdx_le_length
  have most : openCount fs ≤ fs.openFiles.toList.length := List.countP_le_length
  have all : openCount fs = fs.openFiles.toList.length ↔ ∀ f ∈ fs.openFiles.toList, _ = true :=
    List.countP_eq_length
  have found :
      fs.openFiles.toList.findIdx (fun f => f.fileNum = -1) < fs.openFiles.toList.length ↔ _ :=
    List.findIdx_lt_length
  rw [Vector.length_toList] at bound most all found
  by_cases free : ∃ f ∈ fs.openFiles.toList, f.fileNum = -1
  · have inside := found.mpr (by simpa using free)
    refine .inr ⟨⟨_, inside⟩, rfl, lt_of_le_of_ne most fun full => ?_⟩
    obtain ⟨f, there, closed⟩ := free
    simpa [closed] using all.mp full f there
  · have none : ¬fs.openFiles.toList.findIdx (fun f => f.fileNum = -1) < 32 := fun inside =>
      free (by simpa using found.mp inside)
    refine .inl ⟨by omega, fun less => ?_⟩
    have full := all.mpr fun f there => by
      have opened : f.fileNum ≠ -1 := fun closed => free ⟨f, there, closed⟩
      simpa using opened
    omega

theorem HasName.absent (none : ∀ k < 64, (slot files k).string ≠ name.bytes) :
    ¬∃ k, HasName files name k :=
  fun ⟨k, inside, _, same⟩ => none k inside same

/-- When the first slot with the name is not in use, no other slot with it is. -/
theorem HasName.behind (listed : Listed files n) {i : Nat} (unused : n ≤ i)
    (before : ∀ j < i, (slot files j).string ≠ name.bytes) : ¬∃ k, HasName files name k := by
  rintro ⟨k, inside, used, same⟩
  have first := (listed.inUse k).mp used
  exact before k (by omega) same

theorem Listed.string_unused (listed : Listed files n) {k : Nat} (size : (slot files k).size = -1) :
    (slot files k).string = [] := by
  have beyond : n ≤ k := by
    by_contra used
    have low := listed.used k (by omega)
    omega
  exact (listed.free k beyond).string

/-- When `fs_open` does what it should: the empty name does not stand for an unused
slot. -/
def OpensWell (fs : FileSys) (name : CString) : Prop :=
  name.bytes = [] →
    (∃ k, HasName fs.files name k) ∨ ¬openCount fs < 32 ∨ ∀ k < 64, (slot fs.files k).size ≠ -1

theorem Filed.opens_iff (filed : Filed fs.files) (listed : Listed fs.files n) (name : CString) :
    OpensExisting fs name ↔ OpensWell fs name := by
  by_cases long : 15 < name.bytes.length
  · have absent : ¬∃ k, HasName fs.files name k := by
      rintro ⟨k, -, -, same⟩
      have short := FsMeta.string_short (filed.terminated k)
      rw [same] at short
      omega
    refine iff_of_true ⟨-1, fs, if_pos long, ?_, by simp, fun _ => rfl⟩ fun empty => ?_
    · exact iff_of_false (by simp) fun both => absent both.1
    · simp [empty] at long
  rcases free_descriptor fs with ⟨full, none⟩ | ⟨j, place, free⟩
  · refine iff_of_true ⟨-1, fs, ?_, ?_, by simp, fun _ => rfl⟩ fun _ => .inr (.inl none)
    · rw [fsOpen, if_neg long, full]
      rfl
    · exact iff_of_false (by simp) fun both => none both.2
  have some_left : j.val ≠ 32 := by omega
  rcases filed.search name with ⟨found, none⟩ | ⟨i, hi, found, same, before⟩
  · have absent := HasName.absent none
    refine iff_of_true ⟨-1, fs, ?_, ?_, by simp, fun _ => rfl⟩ fun empty =>
      .inr (.inr fun k hk => ?_)
    · simp only [fsOpen, long, if_false, place, some_left, found, Option.bind_eq_bind,
        Option.bind_some, if_true]
    · exact iff_of_false (by simp) fun both => absent both.1
    · exact fun unused => none k hk ((listed.string_unused unused).trans empty.symm)
  · have inside : i ≠ 64 := by omega
    have stored : store fs.openFiles j.val ⟨i, 0⟩ = some (fs.openFiles.set j ⟨i, 0⟩) :=
      store_of_lt _ j.isLt _
    have opened : fsOpen fs name =
        some ((j.val : Int), { fs with openFiles := fs.openFiles.set j ⟨i, 0⟩ }) := by
      simp only [fsOpen, long, if_false, place, some_left, found, inside, stored,
        Option.bind_eq_bind, Option.bind_some]
    rcases Nat.lt_or_ge i n with used | unused
    · have named : HasName fs.files name i := ⟨hi, listed.used i used, same⟩
      refine iff_of_true
        ⟨_, _, opened, iff_of_true (by omega) ⟨⟨i, named⟩, free⟩, fun _ => ?_, by omega⟩
        fun _ => .inl ⟨i, named⟩
      exact ⟨j, i, rfl, named, by simp [Vector.get_eq_getElem]⟩
    · have absent := HasName.behind listed unused before
      have free' := listed.free i unused
      refine iff_of_false ?_ fun condition => ?_
      · rintro ⟨r, fs', done, exact, -⟩
        cases opened.symm.trans done
        exact absent (exact.mp (by omega)).1
      · rcases condition (same.symm.trans free'.string) with there | none | all
        · exact absent there
        · exact none free
        · exact all i hi free'.size

def FirstNamed (files : Files) (name : CString) (k : Nat) : Prop :=
  HasName files name k ∧ ∀ j < k, ¬HasName files name j

def FirstUnused (files : Files) (k : Nat) : Prop :=
  k < 64 ∧ (slot files k).size = -1 ∧ ∀ j < k, (slot files j).size ≠ -1

def Deletable (files : Files) (k : Nat) : Prop :=
  ((slot files k).size = 0 ∨ (slot files k).offset + (slot files k).size ≤ intMax) ∧ MovesUp files k

/-- When `fs_delete` does what it should: the empty name does not stand for an
unused slot that is closed, and the first file with the name is open together
with all of its namesakes or can be deleted. -/
structure DeletesWell (fs : FileSys) (name : CString) : Prop where
  empty : name.bytes = [] →
    (∃ k, HasName fs.files name k) ∨ ∀ k, FirstUnused fs.files k → OpenOn fs k
  opened : ∀ k, FirstNamed fs.files name k → OpenOn fs k →
    ∀ j, HasName fs.files name j → OpenOn fs j
  closed : ∀ k, FirstNamed fs.files name k → ¬OpenOn fs k → Deletable fs.files k

theorem FirstNamed.eq {j k : Nat} (first : FirstNamed files name j)
    (first' : FirstNamed files name k) : j = k := by
  rcases Nat.lt_trichotomy j k with less | same | more
  · exact absurd first.1 (first'.2 j less)
  · exact same
  · exact absurd first'.1 (first.2 k more)

theorem Filed.deletes_iff (filed : Filed fs.files) (listed : Listed fs.files n) (name : CString)
    (new1 new2 : Option Block) : DeletesExisting fs name new1 new2 ↔ DeletesWell fs name := by
  rcases filed.search name with ⟨found, none⟩ | ⟨i, hi, found, same, before⟩
  · have absent := HasName.absent none
    have refused : fsDelete fs name new1 new2 = some (-1, fs) := by
      rw [fsDelete, found]
      rfl
    refine iff_of_true ⟨-1, fs, refused, iff_of_false (by decide) ?_, fun _ => rfl⟩
      ⟨fun empty => ?_, ?_, ?_⟩
    · rintro ⟨k, named, -⟩
      exact absent ⟨k, named⟩
    · refine .inr fun k first => ?_
      obtain ⟨hk, unused, -⟩ := first
      exact absurd ((listed.string_unused unused).trans empty.symm) (none k hk)
    · exact fun k first => absurd ⟨k, first.1⟩ absent
    · exact fun k first => absurd ⟨k, first.1⟩ absent
  · have eq := fsDelete_eq found hi new1 new2
    by_cases opened : OpenOn fs i
    · rw [if_pos (any_open.mpr opened)] at eq
      rcases Nat.lt_or_ge i n with used | unused
      · have first : FirstNamed fs.files name i :=
          ⟨⟨hi, listed.used i used, same⟩, fun j hj named => before j hj named.name⟩
        constructor
        · rintro ⟨r, fs', done, exact, -⟩
          cases eq.symm.trans done
          refine ⟨fun _ => .inl ⟨i, first.1⟩, fun k _ _ j named => ?_, fun k other closed => ?_⟩
          · by_contra closed
            exact absurd (exact.mpr ⟨j, named, closed⟩) (by decide)
          · rw [other.eq first] at closed
            exact absurd opened closed
        · intro well
          refine ⟨-1, fs, eq, iff_of_false (by decide) ?_, fun _ => rfl⟩
          rintro ⟨k, named, closed⟩
          exact closed (well.opened i first opened k named)
      · have absent := HasName.behind listed unused before
        have free := listed.free i unused
        refine iff_of_true ⟨-1, fs, eq, iff_of_false (by decide) ?_, fun _ => rfl⟩
          ⟨fun _ => .inr ?_, ?_, ?_⟩
        · rintro ⟨k, named, -⟩
          exact absent ⟨k, named⟩
        · rintro k ⟨hk, size, others⟩
          -- an unused slot in front would have been found first
          have empty := same.symm.trans free.string
          obtain rfl : k = i := by
            rcases Nat.lt_trichotomy k i with less | here | more
            · exact absurd ((listed.string_unused size).trans empty.symm) (before k less)
            · exact here
            · exact absurd free.size (others i more)
          exact opened
        · exact fun k first => absurd ⟨k, first.1⟩ absent
        · exact fun k first => absurd ⟨k, first.1⟩ absent
    · rw [if_neg fun any => opened (any_open.mp any)] at eq
      rcases Nat.lt_or_ge i n with used | unused
      · have named : HasName fs.files name i := ⟨hi, listed.used i used, same⟩
        have first : FirstNamed fs.files name i := ⟨named, fun j hj named => before j hj named.name⟩
        have able := filed.deleteFile_isSome_iff listed used (Nat.le_of_lt_succ hi) new1 new2
        constructor
        · rintro ⟨r, fs', done, -⟩
          rw [eq] at done
          obtain ⟨-, rfl, -⟩ := deleteFile_eq done
          refine ⟨fun _ => .inl ⟨i, named⟩, fun k other opened' => ?_, fun k other _ => ?_⟩
          · rw [other.eq first] at opened'
            exact absurd opened' opened
          · rw [other.eq first]
            exact able.mp ⟨fs', done⟩
        · intro well
          obtain ⟨fs', done⟩ := able.mpr (well.closed i first opened)
          exact ⟨0, fs', eq.trans done, iff_of_true rfl ⟨i, named, opened⟩,
            fun failed => absurd failed (by decide)⟩
      · have absent := HasName.behind listed unused before
        have free := listed.free i unused
        refine iff_of_false ?_ fun well => ?_
        · rintro ⟨r, fs', done, exact, -⟩
          rw [eq] at done
          obtain ⟨-, rfl, -⟩ := deleteFile_eq done
          obtain ⟨k, named, -⟩ := exact.mp rfl
          exact absent ⟨k, named⟩
        · have empty := same.symm.trans free.string
          rcases well.empty empty with there | all
          · exact absent there
          · exact opened (all i ⟨hi, free.size, fun j hj unused =>
              before j hj ((listed.string_unused unused).trans empty.symm)⟩)

theorem session_lookups {ops : List Op} (start : Mounted mounted)
    (disk : mounted.disk.handle = some d) (run : Run (OpStep d) mounted ops fs) (name : CString) :
    (OpensExisting fs name ↔ OpensWell fs name) ∧
      ∀ new1 new2, DeletesExisting fs name new1 new2 ↔ DeletesWell fs name := by
  obtain ⟨n, tabled, filed⟩ := session_filed start disk run
  exact ⟨filed.opens_iff tabled.listed name, filed.deletes_iff tabled.listed name⟩

section

def noName : CString := ⟨[], by decide⟩

theorem session_lookups_oneFile : ∃ disk, OpensExisting (oneFile disk) nameA ∧
    DeletesExisting (oneFile disk) nameA none none := by
  obtain ⟨disk, start⟩ := mounted_start
  obtain ⟨d, -, opened, -⟩ := start.opened
  have first :
    OpStep d ⟨threeOpen (-1) (-1) (-1) 0, twoEntries FsMeta.zero.fresh FsMeta.zero.fresh, disk⟩
    (.call (.fsCreate nameA)) (oneFile disk) := ⟨0, rfl⟩
  obtain ⟨opens, deletes⟩ := session_lookups start opened (.single first) nameA
  have given : nameA.bytes ≠ [] := List.cons_ne_nil _ _
  have openFiles : ∀ j : Fin 32, ((threeOpen (-1) (-1) (-1) 0).get j).fileNum = -1 := by decide
  have closed (k : Nat) : ¬OpenOn (oneFile disk) k := fun ⟨j, number⟩ => by
    have none := openFiles j
    exact absurd (number.symm.trans none) (by omega)
  refine ⟨disk, opens.mpr fun empty => absurd empty given, (deletes none none).mpr
    ⟨fun empty => absurd empty given, fun k _ opened => absurd opened (closed k),
      fun k named _ => ?_⟩⟩
  have entry (k : Nat) : slot (oneFile disk).files k = _ :=
    slot_twoEntries (entry nameA 0 0) FsMeta.zero.fresh k
  obtain rfl : k = 0 := by
    by_contra other
    have used := named.1.used
    rw [entry, if_neg other, ite_self] at used
    exact absurd used (by decide)
  refine ⟨.inl (by rw [entry]; rfl), EndsInRange.zeros (Int.natCast_nonneg _) fun length there =>
    ?_⟩
  obtain ⟨k, inside, rfl⟩ := List.mem_map.mp there
  have behind : k ≠ 0 := by
    have low := (List.mem_range'_1.mp inside).1
    omega
  rw [entry, if_neg behind, ite_self]
  rfl

theorem lookups_missed : ¬∀ mounted d ops fs, Mounted mounted → mounted.disk.handle = some d →
    Run (OpStep d) mounted ops fs → ∀ name : CString, OpensExisting fs name ∧
      ∀ new1 new2, DeletesExisting fs name new1 new2 := by
  intro lookups
  obtain ⟨disk, start⟩ := mounted_start
  obtain ⟨d, -, opened, -⟩ := start.opened
  have listed := start.tabled.listed
  obtain ⟨opens, -⟩ := lookups _ d [] _ start opened .nil noName
  rcases (start.filed.opens_iff listed noName).mp opens rfl with ⟨k, named⟩ | full | used
  · exact absurd ((listed.inUse k).mp named.used) (Nat.not_lt_zero k)
  · exact full
      (show (threeOpen (-1) (-1) (-1) 0).toList.countP (fun f => f.fileNum ≠ -1) < 32 by decide)
  · exact used 0 (by decide) (listed.free 0 (Nat.le_refl 0)).size

end

end LastPicked.FileSystem
