import LastPicked.FileSysRefines

/-! Sessions as a program sees them: which calls it may make at a store, and that a file
system that was just made answers every sequence of them as the store of no files does. -/

namespace LastPicked.FileSystem
open CIntegers CMemory LabelledRuns NamedFiles FlatBlocks

variable {fs fs' mounted : FileSys} {d : CString} {blocks : Image} {s : FileStore} {c : Fin 32}

/-- What the calls need: names that are not empty, for a new file a slot with another one behind
it and no namesake behind slot 31, an open descriptor to read and write, and for a write room on
the disk and a buffer that happens to hold the rest of its first block. -/
def Request.Fair (s : FileStore) : Request → Prop
  | .fsOpen name | .fsDelete name _ _ => name.bytes ≠ []
  | .fsCreate name => name.bytes ≠ [] ∧ s.files.length < 63 ∧
      ∀ k f, s.files[k]? = some f → f.1 = name → k < 32
  | .fsRead c _ _ => s.cursors c ≠ none
  | .fsWrite c data new => ∃ p, s.cursors c = some p ∧ placeOf s p + data.length ≤ diskBytes ∧
      (Fits s p data.length → ∀ buffer ∈ new, Buffered s p data.length buffer)
  | _ => True

namespace Represents

theorem answers_write (h : Represents fs d blocks s) {p : CString × Nat}
    (opened : s.cursors c = some p) {data : List UInt8}
    (inside : placeOf s p + data.length ≤ diskBytes) {new : Option Block}
    (holds : Fits s p data.length → ∀ buffer ∈ new, Buffered s p data.length buffer) :
    Answers fs d s (.fsWrite c data new) := by
  obtain ⟨k, f, hk, named, descriptor, upto, -⟩ := h.tracked opened
  have file := h.onFile hk descriptor upto
  have readable := h.readable file
  have small := h.packed.sized k file.used
  have room := h.length_le
  have slots : k < 63 := lt_of_lt_of_le file.used room
  have place := h.writeStart_eq hk named descriptor
  have means : Request.means s (.fsWrite c data new) =
      if new.isSome ∧ Fits s p data.length then (((data.length : Int), []), s.write c p data opened)
      else refused s := by
    simp only [Request.means]
    split
    case h_1 none => simp [none] at opened
    case h_2 q here =>
      obtain rfl := Option.some.inj (here.symm.trans opened)
      rfl
  by_cases fits : Fits s p data.length
  · have roomFor := (h.roomFor_iff hk named descriptor data.length).mpr fits
    cases new with
    | none =>
      obtain ⟨found, entry⟩ := readable.loads
      obtain ⟨-, -, -, added, -⟩ := readable.position small (by omega)
      refine h.refuses (means.trans (if_neg fun both => by simp at both)) ?_
      simp only [Request.answer, fsWrite, found, entry, added, Option.bind_eq_bind,
        Option.bind_some, Option.map_some, plain]
    | some buffer =>
      obtain ⟨fs', done⟩ := readable.write_some small slots data buffer (by omega) roomFor
      obtain ⟨blocks', after⟩ :=
        h.written opened hk named descriptor upto inside (holds fits buffer rfl) done
      rw [if_pos ⟨rfl, fits⟩] at means
      refine ⟨fs', blocks', ?_, ?_⟩
      · rw [means]
        simp only [Request.answer, done, Option.map_some, plain]
      · rw [means]
        exact after
  · have full := mt (h.roomFor_iff hk named descriptor data.length).mp fits
    refine h.refuses (means.trans (if_neg fun both => fits both.2)) ?_
    exact congrArg (Option.map plain) (readable.write_refused small slots data new (by omega) full)

theorem answers_remount (h : Represents fs d blocks s) (buffer buffer' : Block) :
    Answers fs d s (.remount buffer buffer') := by
  obtain ⟨disk, unmount, closed, permits, image⟩ :=
    unmountFs_open fs h.inside.opened h.inside.image buffer
  obtain ⟨disk', mount, opened, image', permits'⟩ := mountFs_open
    ⟨closeAll fs.openFiles, Vector.replicate 64 FsMeta.zero, disk⟩ closed image
    (by rw [permits]; exact h.permitted) buffer'
  have table : bufferToFiles (filesToBuffer fs.files buffer) = fs.files :=
    bufferToFiles_filesToBuffer buffer fun i => by simpa using h.ranged i
  rw [Vector.getElem_set_self, table] at mount
  have shut (c : Fin 32) : ((closeAll (closeAll fs.openFiles)).get c).fileNum = -1 := by
    simp [closeAll, Vector.get_eq_getElem]
  refine ⟨⟨closeAll (closeAll fs.openFiles), fs.files, disk'⟩,
    blocks.set 0 (filesToBuffer fs.files buffer), ?_, ?_⟩
  · simp only [Request.answer, Request.means, remountFs, unmount, mount, if_true]
  · refine ⟨⟨opened, image', h.inside.layout, h.inside.free, h.inside.inside⟩, ?_, h.filed,
      h.ranged, ?_, fun k f hk => ?_, fun c => .closed rfl (shut c)⟩
    · exact { h.packed with opened := fun k hk => .inl (shut ⟨k, hk⟩) }
    · rw [permits', permits]
      exact h.permitted
    · obtain ⟨string, contents⟩ := h.entries k f hk
      refine ⟨string,
        Eq.trans (FsMeta.contents_congr rfl fun t _ => byteAt_set_table _ ?_) contents⟩
      have first := (h.inside.extent (lt_length hk)).1
      have behind : (blockSize : Int) ≤ dataStart * blockSize := by decide
      have start : blockSize ≤ (slot fs.files k).start.toNat := by omega
      exact start.trans (Nat.le_add_right _ t)

/-- Every call that is fair to the store is answered as the store says. -/
theorem answers (h : Represents fs d blocks s) {q : Request} (fair : q.Fair s) :
    Answers fs d s q := by
  cases q with
  | fsOpen name => exact h.answers_open fair
  | fsClose c => exact h.answers_close c
  | fsCreate name => exact h.answers_create fair.1 fair.2.1 fair.2.2
  | fsDelete name buffer1 buffer2 => exact h.answers_delete fair buffer1 buffer2
  | fsRead c nbyte new => exact h.answers_read fair nbyte new
  | fsWrite c data new =>
    obtain ⟨p, opened, inside, holds⟩ := fair
    exact h.answers_write opened inside holds
  | fsGetFilesize c => exact h.answers_size c
  | fsLseek c offset => exact h.answers_seek c offset
  | remount buffer buffer' => exact h.answers_remount buffer buffer'

end Represents

def answerAll (d : CString) (fs : FileSys) : List Request → Option (List Answer × FileSys)
  | [] => some ([], fs)
  | q :: qs => do
      let (a, fs) ← q.answer d fs
      let (as, fs) ← answerAll d fs qs
      some (a :: as, fs)

def meansAll (s : FileStore) : List Request → List Answer × FileStore
  | [] => ([], s)
  | q :: qs => ((q.means s).1 :: (meansAll (q.means s).2 qs).1, (meansAll (q.means s).2 qs).2)

def FairAll (s : FileStore) : List Request → Prop
  | [] => True
  | q :: qs => q.Fair s ∧ FairAll (q.means s).2 qs

theorem Represents.answers_all (h : Represents fs d blocks s) {qs : List Request}
    (fair : FairAll s qs) :
    ∃ fs' blocks', answerAll d fs qs = some ((meansAll s qs).1, fs') ∧
    Represents fs' d blocks' (meansAll s qs).2 := by
  induction qs generalizing fs blocks s with
  | nil => exact ⟨fs, blocks, rfl, h⟩
  | cons q qs ih =>
    obtain ⟨first, rest⟩ := fair
    obtain ⟨fs₁, blocks₁, answer, h₁⟩ := h.answers first
    obtain ⟨fs', blocks', answers, after⟩ := ih h₁ rest
    refine ⟨fs', blocks', ?_, after⟩
    rw [answerAll, answer, Option.bind_eq_bind, Option.bind_some]
    dsimp only
    rw [answers, Option.bind_eq_bind, Option.bind_some]
    rfl

theorem Mounted.represents (start : Mounted mounted) (opened : mounted.disk.handle = some d) :
    ∃ blocks, Represents mounted d blocks Store.empty := by
  have packed := start.packed
  have filed := start.filed
  obtain ⟨-, -, mount⟩ := start
  obtain ⟨name, blocks, -, -, image, permitted, rfl⟩ := mountFs_eq mount
  obtain rfl := Option.some.inj opened
  refine ⟨blocks, packed.insideDisk rfl image nofun, packed, filed, bufferToFiles_ranged _,
    permitted, ?_, fun c => ?_⟩
  · intro k f hk
    simp [Store.empty] at hk
  · refine .closed rfl ?_
    simp [closeAll, Vector.get_eq_getElem]

/-- In every session the file system is the store: each call returns what it means there. -/
theorem session_refines (start : Mounted mounted) (opened : mounted.disk.handle = some d)
    {qs : List Request} (fair : FairAll Store.empty qs) :
    ∃ fs blocks, answerAll d mounted qs = some ((meansAll Store.empty qs).1, fs) ∧
      Represents fs d blocks (meansAll Store.empty qs).2 := by
  obtain ⟨blocks, empty⟩ := start.represents opened
  exact empty.answers_all fair

section

def diary : List Request :=
  [.fsCreate nameA, .fsOpen nameA, .fsWrite 0 [1, 2, 3] (some zeroBlock), .fsLseek 0 4,
    .remount zeroBlock zeroBlock, .fsGetFilesize 0, .fsOpen nameA, .fsLseek 0 1,
    .fsRead 0 5 (some zeroBlock)]

theorem diary_fair : FairAll Store.empty diary := by
  refine ⟨⟨List.cons_ne_nil _ _, by decide, fun k f hk => ?_⟩, List.cons_ne_nil _ _,
    ⟨(nameA, 0), rfl, ?_, ?_⟩, trivial, trivial, trivial, List.cons_ne_nil _ _, trivial,
    Option.some_ne_none _, trivial⟩
  · simp [Store.empty] at hk
  · decide +kernel
  · rintro - buffer - f there t b found
    obtain rfl : f = (nameA, []) := List.mem_singleton.mp there
    cases found

theorem session_refines_diary : ∃ mounted d fs, Mounted mounted ∧
    answerAll d mounted diary =
      some ([(0, []), (0, []), (3, []), (-1, []), (0, []), (-1, []), (0, []), (0, []),
        (2, [2, 3])], fs) := by
  obtain ⟨disk, start⟩ := mounted_start
  obtain ⟨d, -, opened, -⟩ := start.opened
  obtain ⟨fs, -, answers, -⟩ := session_refines start opened diary_fair
  have means : (meansAll Store.empty diary).1 =
      [(0, []), (0, []), (3, []), (-1, []), (0, []), (-1, []), (0, []), (0, []), (2, [2, 3])] := by
        decide +kernel
  exact ⟨_, d, fs, start, answers.trans (by rw [means])⟩

end

end LastPicked.FileSystem
