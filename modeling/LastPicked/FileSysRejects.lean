import LastPicked.FileSysBounds

/-! Descriptors that are not open. Four of the six operations on a descriptor look
at its file number before they go on, and none of them looks at the descriptor
itself. -/

namespace LastPicked.FileSystem
open CIntegers CMemory AccessTraces AccessTraces.Traced LabelledRuns

variable {α : Type} {fs mounted : FileSys} {d : CString}

def Call.fildes : Call → Option Int
  | .fsOpen _ | .fsCreate _ | .fsDelete _ _ _ => none
  | .fsClose fildes | .fsRead fildes _ _ | .fsWrite fildes _ _ | .fsGetFilesize fildes
  | .fsLseek fildes _ | .fsTruncate fildes _ _ _ => some fildes

def HasFile (fs : FileSys) (fildes : Int) : Prop :=
  ∃ (k : Fin 32) (i : Nat), fildes = k.val ∧ (fs.openFiles.get k).fileNum = i

/-- A call that returns -1, stays inside the two tables and changes nothing. -/
def Call.Rejected (fs : FileSys) (c : Call) : Prop :=
  (Accesses.perform fs c).result = some (-1, fs) ∧ (Accesses.perform fs c).Within Access.InBounds

def Call.Checks : Call → Prop
  | .fsRead _ _ _ | .fsWrite _ _ _ => False
  | _ => True

namespace Accesses

theorem loadOpen_outside {fildes : Int} (outside : ¬(0 ≤ fildes ∧ fildes < 32))
    (rest : OpenFile → Traced Access α) :
    ¬(loadOpen fs.openFiles fildes >>= rest).Within Access.InBounds := by
  rw [loadOpen, within_bind, within_access, inBounds_openFile]
  exact fun within => outside within.1

section
variable {k : Fin 32} (closed : (fs.openFiles.get k).fileNum = -1)
include closed

theorem checked_result (a : α) (rest : OpenFile → Traced Access α) :
    (loadOpen fs.openFiles k.val >>= fun f => if f.fileNum = -1 then pure a else rest f).result =
      some a := by
  have there : load fs.openFiles k.val = some (fs.openFiles.get k) := load_of_lt _ k.isLt
  rw [bind_result, loadOpen_result, there, Option.bind_some, if_pos closed, pure_result]

theorem checked_within (a : α) (rest : OpenFile → Traced Access α) :
    (loadOpen fs.openFiles k.val >>= fun f => if f.fileNum = -1 then pure a else rest f).Within
      Access.InBounds := by
  rw [loadOpen_bind, if_pos closed]
  exact within_pure a

/-- Without it, -1 is taken for the number of a slot. -/
theorem unchecked_within (rest : OpenFile → FsMeta → Traced Access α) :
    ¬(loadOpen fs.openFiles k.val >>= fun f => loadFile fs.files f.fileNum >>= rest f).Within
      Access.InBounds := by
  rw [loadOpen_bind, closed, loadFile, within_bind, within_access, inBounds_file]
  exact fun within => absurd within.1.1 (by decide)

end

end Accesses

theorem Call.rejected_closed {c : Call} {k : Fin 32} (given : c.fildes = some (k.val : Int))
    (closed : (fs.openFiles.get k).fileNum = -1) : c.Rejected fs ↔ c.Checks := by
  cases c with
  | fsOpen name => cases given
  | fsCreate name => cases given
  | fsDelete name new1 new2 => cases given
  | fsClose fildes =>
    cases given
    exact iff_of_true ⟨Accesses.checked_result closed _ _,
      Accesses.checked_within closed _ _⟩ trivial
  | fsRead fildes nbyte new =>
    cases given
    refine iff_of_false (fun rejected => ?_) id
    have within := rejected.2
    rw [Accesses.perform, within_bind] at within
    exact Accesses.unchecked_within closed _ within.1
  | fsWrite fildes data new =>
    cases given
    exact iff_of_false (fun rejected => Accesses.unchecked_within closed _ rejected.2) id
  | fsGetFilesize fildes =>
    cases given
    refine iff_of_true ⟨?_, ?_⟩ trivial
    · rw [Accesses.perform, bind_result, Accesses.fsGetFilesize, Accesses.checked_result closed]
      rfl
    · rw [Accesses.perform, within_bind]
      exact ⟨Accesses.checked_within closed _ _, fun _ _ => within_pure _⟩
  | fsLseek fildes offset =>
    cases given
    exact iff_of_true ⟨Accesses.checked_result closed _ _,
      Accesses.checked_within closed _ _⟩ trivial
  | fsTruncate fildes length new1 new2 =>
    cases given
    exact iff_of_true ⟨Accesses.checked_result closed _ _,
      Accesses.checked_within closed _ _⟩ trivial

theorem Call.not_rejected {c : Call} {fildes : Int} (given : c.fildes = some fildes)
    (outside : ¬(0 ≤ fildes ∧ fildes < 32)) : ¬c.Rejected fs := by
  rintro ⟨-, within⟩
  cases c with
  | fsOpen name => cases given
  | fsCreate name => cases given
  | fsDelete name new1 new2 => cases given
  | fsClose fildes =>
    cases given
    exact Accesses.loadOpen_outside outside _ within
  | fsRead fildes nbyte new =>
    cases given
    rw [Accesses.perform, within_bind] at within
    exact Accesses.loadOpen_outside outside _ within.1
  | fsWrite fildes data new =>
    cases given
    exact Accesses.loadOpen_outside outside _ within
  | fsGetFilesize fildes =>
    cases given
    rw [Accesses.perform, within_bind] at within
    exact Accesses.loadOpen_outside outside _ within.1
  | fsLseek fildes offset =>
    cases given
    exact Accesses.loadOpen_outside outside _ within
  | fsTruncate fildes length new1 new2 =>
    cases given
    exact Accesses.loadOpen_outside outside _ within

theorem session_rejects {ops : List Op} (start : Mounted mounted)
    (disk : mounted.disk.handle = some d) (run : Run (OpStep d) mounted ops fs) (c : Call)
    (fildes : Int) (given : c.fildes = some fildes) (bad : ¬HasFile fs fildes) :
    c.Rejected fs ↔ (0 ≤ fildes ∧ fildes < 32) ∧ c.Checks := by
  by_cases inside : 0 ≤ fildes ∧ fildes < 32
  · obtain ⟨k, rfl⟩ : ∃ k : Fin 32, fildes = k.val := ⟨⟨fildes.toNat, by omega⟩, by simp; omega⟩
    -- in a session an entry without the number of a file holds -1
    obtain ⟨n, tabled⟩ := session_tabled start disk run
    have closed : (fs.openFiles.get k).fileNum = -1 := by
      rcases tabled.opened k.val k.isLt with closed | ⟨i, -, number⟩
      · exact closed
      · exact absurd ⟨k, i, rfl, number⟩ bad
    rw [Call.rejected_closed given closed]
    exact (and_iff_right inside).symm
  · exact iff_of_false (Call.not_rejected given inside) fun both => inside both.1

section

theorem session_rejects_justMounted :
    ∃ fs, Mounted fs ∧ (Call.fsTruncate 31 5 none none).Rejected fs := by
  obtain ⟨disk, start⟩ := mounted_start
  obtain ⟨d, -, opened, -⟩ := start.opened
  refine ⟨_, start, (session_rejects start opened .nil (.fsTruncate 31 5 none none) 31 rfl ?_).mpr
    ⟨by decide, trivial⟩⟩
  rintro ⟨k, i, same, number⟩
  obtain rfl : k = 31 := Fin.ext (Int.ofNat_inj.mp same).symm
  exact absurd number (show ¬(-1 : Int) = i by omega)

theorem rejects_missed : ¬∀ mounted d ops fs, Mounted mounted → mounted.disk.handle = some d →
    Run (OpStep d) mounted ops fs → ∀ (c : Call) (fildes : Int), c.fildes = some fildes →
      ¬HasFile fs fildes → c.Rejected fs := by
  intro rejects
  obtain ⟨disk, start⟩ := mounted_start
  obtain ⟨d, -, opened, -⟩ := start.opened
  have bad : ¬HasFile ⟨threeOpen (-1) (-1) (-1) 0,
      twoEntries FsMeta.zero.fresh FsMeta.zero.fresh, disk⟩ 0 := by
    rintro ⟨k, i, same, number⟩
    obtain rfl : k = 0 := Fin.ext (Int.ofNat_inj.mp same).symm
    exact absurd number (show ¬(-1 : Int) = i by omega)
  have rejected := rejects _ d [] _ start opened .nil (.fsRead 0 1 none) 0 rfl bad
  exact ((Call.rejected_closed (k := 0) rfl rfl).mp rejected)

end

end LastPicked.FileSystem
