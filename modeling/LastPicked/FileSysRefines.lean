import LastPicked.FileSysStore

/-! The file system is a store of named files. Making, deleting and writing files and
unmounting the disk keep the slots, the disk and the descriptors the picture of such a
store, so that in every session every call returns what it means for the store. -/

namespace LastPicked.FileSystem
open CIntegers CMemory LabelledRuns NamedFiles FlatBlocks Finset

variable {fs fs' mounted : FileSys} {d : CString} {blocks : Image} {s : FileStore} {n : Nat}
  {name : CString} {c : Fin 32}

theorem Packed.insideDisk (packed : Packed fs n) (opened : fs.disk.handle = some d)
    (image : fs.disk.host d = some blocks)
    (ends : ∀ k < n, (slot fs.files k).start + (slot fs.files k).size ≤ diskBytes) :
    InsideDisk fs d blocks n :=
  ⟨opened, image, packed.layout, fun k hk => (packed.free k hk).size, packed.layout.inside ends⟩

namespace Represents

theorem distinct (h : Represents fs d blocks s) : Distinct fs.files s.files.length where
  terminated := h.filed.terminated
  unique j hj k hk same := by
    obtain ⟨f, hf, string⟩ := h.file_at hj
    obtain ⟨g, hg, string'⟩ := h.file_at hk
    exact Store.index_unique hf hg (CString.ext (string.symm.trans (same.trans string')))

theorem absent (h : Represents fs d blocks s) (given : name.bytes ≠ []) (fresh : name ∉ s.names)
    (k : Nat) :
    (slot fs.files k).string ≠ name.bytes := by
  intro same
  rcases Nat.lt_or_ge k s.files.length with used | unused
  · obtain ⟨f, hf, string⟩ := h.file_at used
    have named : f.1 = name := CString.ext (string.symm.trans same)
    exact fresh (named ▸ List.mem_map_of_mem (List.mem_of_getElem? hf))
  · rw [(h.packed.free k unused).string] at same
    exact given same.symm

theorem created (h : Represents fs d blocks s) (short : name.bytes.length ≤ 15)
    (fresh : name ∉ s.names) (done : fsCreate fs name = some (0, fs')) :
    Represents fs' d blocks (s.create name fresh) := by
  rcases h.packed.listed.create done with ⟨-, failed⟩ |
    ⟨files, -, room, -, -, openFiles, disk, entries, listed⟩
  · cases failed
  have length : (s.create name fresh).files.length = s.files.length + 1 := by simp [Store.create]
  have old (k : Nat) (hk : k ≠ s.files.length) : slot fs'.files k = slot fs.files k := by
    rw [entries, if_neg hk]
  have new : slot fs'.files s.files.length =
      { slot files s.files.length with size := 0 }.setName name := by
    rw [entries, if_pos rfl]
  have empty : (slot fs'.files s.files.length).size = 0 := by rw [new, FsMeta.setName_size]
  obtain ⟨m, packed⟩ := h.packed.create done
  obtain rfl := packed.listed.eq listed
  have ends (k : Nat) (hk : k < s.files.length + 1) :
      (slot fs'.files k).start + (slot fs'.files k).size ≤ diskBytes := by
    rcases Nat.lt_succ_iff_lt_or_eq.mp hk with before | rfl
    · rw [old k (by omega)]
      exact (h.inside.extent before).2
    · have start : (slot fs'.files s.files.length).start = _ := packed.layout.start _ hk
      have same : ∑ j ∈ range s.files.length, (slot fs'.files j).size =
          ∑ j ∈ range s.files.length, (slot fs.files j).size :=
        sum_congr rfl fun j hj => by rw [old j (mem_range.mp hj).ne]
      have inside := h.inside.inside
      rw [start, same, empty]
      omega
  refine ⟨?_, ?_, h.filed.create h.packed.listed done,
    h.ranged.step (c := .fsCreate name) ⟨0, done⟩, ?_, fun k f hk => ?_, fun c => ?_⟩
  · rw [length]
    exact packed.insideDisk (by rw [disk]; exact h.inside.opened)
      (by rw [disk]; exact h.inside.image) ends
  · rw [length]
    exact packed
  · rw [disk]
    exact h.permitted
  · rcases Nat.lt_or_ge k s.files.length with before | behind
    · rw [old k (by omega)]
      exact h.entries k f ((List.getElem?_append_left before).symm.trans hk)
    · have last : k = s.files.length := by
        have below := lt_length hk
        omega
      subst last
      have same : f = (name, []) := by
        have found := (List.getElem?_concat_length (l := s.files) (a := (name, []))).symm.trans hk
        exact (Option.some.inj found).symm
      subst same
      refine ⟨?_, ?_⟩
      · rw [new]
        exact (FsMeta.setName_string _ short).1
      · rw [FsMeta.contents, empty]
        rfl
  · cases h.cursors c with
    | closed none shut => exact .closed none (by rw [openFiles]; exact shut)
    | opened opened hk descriptor =>
      refine .opened opened ?_ (by rw [openFiles]; exact descriptor)
      exact (List.getElem?_append_left (lt_length hk)).trans hk

theorem answers_create (h : Represents fs d blocks s) (given : name.bytes ≠ [])
    (room : s.files.length < 63) (seen : ∀ k f, s.files[k]? = some f → f.1 = name → k < 32) :
    Answers fs d s (.fsCreate name) := by
  have refusal (none : ¬(name.bytes.length ≤ 15 ∧ name ∉ s.names))
      (refused : fsCreate fs name = some (-1, fs)) :
      Answers fs d s (.fsCreate name) :=
    h.refuses (dif_neg none) (congrArg (Option.map plain) refused)
  by_cases long : 15 < name.bytes.length
  · exact refusal (fun both => by omega) (if_pos long)
  by_cases there : name ∈ s.names
  · obtain ⟨f, hf, rfl⟩ := List.mem_map.mp there
    obtain ⟨k, hk⟩ := List.mem_iff_getElem?.mp hf
    have early := seen k f hk rfl
    refine refusal (fun both => both.2 there) ?_
    refine (h.distinct.create_iff h.packed.listed (by omega) ?_ (h.entries k f hk).1).mpr
      (.inl early)
    rw [h.size_eq hk]
    omega
  · have both : name.bytes.length ≤ 15 ∧ name ∉ s.names := ⟨by omega, there⟩
    obtain ⟨fs', done, -⟩ :=
      fsCreate_done h.packed.listed h.distinct room both.1 (fun k _ => h.absent given there k)
      fun j next => h.inside.bounded (by omega)
    refine ⟨fs', blocks, ?_, ?_⟩
    · simp only [Request.answer, Request.means, dif_pos both, done, Option.map_some, plain]
    · simp only [Request.means, dif_pos both]
      exact h.created both.1 there done

theorem opened_iff (h : Represents fs d blocks s) {k : Nat} {f : CString × List UInt8}
    (hk : s.files[k]? = some f) :
    (∃ c, (fs.openFiles.get c).fileNum = k) ↔ ∃ c, (s.cursors c).map Prod.fst = some f.1 := by
  refine exists_congr fun c => ?_
  constructor
  · intro number
    cases h.cursors c with
    | closed none shut =>
      rw [shut] at number
      omega
    | @opened j pos g opened hj descriptor =>
      rw [descriptor] at number
      obtain rfl : j = k := Int.ofNat_inj.mp number
      obtain rfl := Option.some.inj (hj.symm.trans hk)
      rw [opened]
      rfl
  · intro on
    obtain ⟨p, opened, same⟩ := Option.map_eq_some_iff.mp on
    obtain ⟨j, g, hj, named, descriptor, -⟩ := h.tracked opened
    obtain rfl := Store.index_unique hj hk (named.trans same)
    rw [descriptor]

theorem permits_step (h : Represents fs d blocks s) {call : Call} (step : Step fs call fs') :
    fs'.disk.permits d := by
  obtain ⟨_, disk⟩ := step.rewritten.opened h.inside.opened h.inside.image
  rw [disk]
  exact h.permitted

theorem slot_of_eraseIdx {files : List (CString × List UInt8)} {k j : Nat}
    {g : CString × List UInt8} (hj : (files.eraseIdx k)[j]? = some g) :
    ∃ i, files[i]? = some g ∧ movedSlot k i = j ∧ i ≠ k := by
  rw [List.getElem?_eraseIdx] at hj
  unfold movedSlot
  split at hj
  case isTrue before => exact ⟨j, hj, if_pos before, by omega⟩
  case isFalse behind => exact ⟨j + 1, hj, by rw [if_neg (by omega), Nat.add_sub_cancel], by omega⟩

theorem eraseIdx_movedSlot {files : List (CString × List UInt8)} {k j : Nat}
    {g : CString × List UInt8} (hj : files[j]? = some g) (other : j ≠ k) :
    (files.eraseIdx k)[movedSlot k j]? = some g := by
  rw [List.getElem?_eraseIdx]
  rcases Nat.lt_or_gt_of_ne other with before | behind
  · have unmoved : movedSlot k j = j := if_pos before
    rw [unmoved, if_pos before]
    exact hj
  · have down : movedSlot k j = j - 1 := if_neg (by omega)
    rw [down, if_neg (by omega), Nat.sub_add_cancel (by omega)]
    exact hj

theorem closed_deleted {buffer1 buffer2 : Option Block}
    (done : fsDelete fs name buffer1 buffer2 = some (0, fs'))
    (shut : (fs.openFiles.get c).fileNum = -1) : (fs'.openFiles.get c).fileNum = -1 := by
  rcases fsDelete_cases done with ⟨-, failed⟩ | ⟨i, hi, -, -, deleted⟩
  · cases failed
  · obtain ⟨-, -, -, -, openFiles⟩ := deleteFile_eq deleted
    have stays : ¬(i : Int) < (fs.openFiles.get c).fileNum := by omega
    rw [openFiles, Vector.get_map, if_neg stays]
    exact shut

/-- The files behind a deleted one, their data and their descriptors all move down by one slot. -/
theorem deleted (h : Represents fs d blocks s) {k : Nat} {f : CString × List UInt8}
    (hk : s.files[k]? = some f) (named : f.1 = name) (given : name.bytes ≠ [])
    (unused : ∀ c, (s.cursors c).map Prod.fst ≠ some name) {blocks' : Image}
    {buffer1 buffer2 : Block}
    (done : fsDelete fs name (some buffer1) (some buffer2) = some (0, fs'))
    (inside : InsideDisk fs' d blocks' (s.files.length - 1))
    (entries : ∀ j < s.files.length, j ≠ k →
      (slot fs'.files (movedSlot k j)).fileName = (slot fs.files j).fileName ∧
      (slot fs'.files (movedSlot k j)).contents blocks' = (slot fs.files j).contents blocks)
    (descriptors : ∀ (c : Fin 32) (j : Nat), (fs.openFiles.get c).fileNum = j →
      j < s.files.length → j ≠ k ∧
      (fs'.openFiles.get c).fileNum = movedSlot k j ∧
      (fs'.openFiles.get c).offset = (fs.openFiles.get c).offset) :
    Represents fs' d blocks' (s.delete name unused) := by
  have files := Store.delete_files hk named unused
  have length : (s.delete name unused).files.length = s.files.length - 1 := by
    rw [files, List.length_eraseIdx_of_lt (lt_length hk)]
  obtain ⟨m, packed⟩ := h.packed.delete given done
  obtain rfl : m = s.files.length - 1 := inUse_unique packed.listed.inUse inside.layout.inUse
  have step : Step fs (.fsDelete name (some buffer1) (some buffer2)) fs' := ⟨0, done⟩
  refine ⟨?_, ?_, h.filed.step h.packed.listed step, h.ranged.step step, h.permits_step step,
    fun j g hj => ?_, fun c => ?_⟩
  · rw [length]
    exact inside
  · rw [length]
    exact packed
  · obtain ⟨i, from_i, here, other⟩ := slot_of_eraseIdx ((congrArg (·[j]?) files).symm.trans hj)
    obtain ⟨string, contents⟩ := h.entries i g from_i
    obtain ⟨name', contents'⟩ := entries i (lt_length from_i) other
    rw [here] at name' contents'
    refine ⟨?_, contents'.trans contents⟩
    rw [← string, FsMeta.string, FsMeta.string, name']
  · cases h.cursors c with
    | closed none shut => exact .closed none (closed_deleted done shut)
    | @opened j pos g opened hj descriptor =>
      have number : (fs.openFiles.get c).fileNum = j := congrArg OpenFile.fileNum descriptor
      have position : (fs.openFiles.get c).offset = pos := congrArg OpenFile.offset descriptor
      obtain ⟨other, number', offset⟩ := descriptors c j number (lt_length hj)
      refine .opened opened
        ((congrArg (·[movedSlot k j]?) files).trans (eraseIdx_movedSlot hj other)) ?_
      have whole :
        fs'.openFiles.get c = ⟨(fs'.openFiles.get c).fileNum, (fs'.openFiles.get c).offset⟩ := rfl
      rw [whole, number', offset, position]

theorem answers_delete (h : Represents fs d blocks s) (given : name.bytes ≠ [])
    (buffer1 buffer2 : Block) :
    Answers fs d s (.fsDelete name buffer1 buffer2) := by
  rcases h.search given with ⟨k, f, hk, named, found⟩ | ⟨absent, found⟩
  · have removes := fsDelete_removes h.inside found (lt_length hk)
    by_cases on : ∃ c, (s.cursors c).map Prod.fst = some name
    · have opened := (h.opened_iff hk).mpr (named ▸ on)
      obtain ⟨c, hc⟩ := on
      exact h.refuses (dif_neg fun both => both.2 c hc)
        (congrArg (Option.map plain) (removes.1 opened _ _))
    · have unused : ∀ c, (s.cursors c).map Prod.fst ≠ some name := not_exists.mp on
      have shut : ∀ c : Fin 32, fs.openFiles[c].fileNum ≠ k := fun c number =>
        on (named ▸ (h.opened_iff hk).mp ⟨c, number⟩)
      have both : name ∈ s.names ∧ ∀ c, (s.cursors c).map Prod.fst ≠ some name :=
        ⟨named ▸ List.mem_map_of_mem (List.mem_of_getElem? hk), unused⟩
      obtain ⟨fs', blocks', done, inside, -, entries, descriptors⟩ := removes.2 shut buffer1 buffer2
      refine ⟨fs', blocks', ?_, ?_⟩
      · simp only [Request.answer, Request.means, dif_pos both, done, Option.map_some, plain]
      · simp only [Request.means, dif_pos both]
        exact h.deleted hk named given unused done inside entries descriptors
  · have refused : fsDelete fs name (some buffer1) (some buffer2) = some (-1, fs) := by
      rw [fsDelete, found]
      rfl
    exact h.refuses (dif_neg fun both => absent both.1) (congrArg (Option.map plain) refused)

end Represents

def bytesBefore (s : FileStore) (name : CString) : Nat :=
  ((s.files.takeWhile fun f => f.1 ≠ name).map fun f => f.2.length).sum

/-- The byte of the disk that a position of a file is at: the files lie end to end. -/
def placeOf (s : FileStore) (p : CString × Nat) : Nat :=
  dataStart * blockSize + bytesBefore s p.1 + p.2

/-- `fs_write` does not read the block it starts in, so what the buffer it gets for `len` bytes at
position `p` happens to hold has to be what the files have there. -/
def Buffered (s : FileStore) (p : CString × Nat) (len : Nat) (buffer : Block) : Prop :=
  ∀ f ∈ s.files, ∀ t b, f.2[t]? = some b →
    placeOf s (f.1, t) / blockSize = placeOf s p / blockSize →
    placeOf s (f.1, t) < placeOf s p ∨ placeOf s p + len ≤ placeOf s (f.1, t) →
    (buffer[placeOf s (f.1, t) % blockSize]?).getD 0 = b

namespace Represents

theorem sum_sizes (h : Represents fs d blocks s) {k : Nat} (hk : k ≤ s.files.length) :
    ∑ j ∈ range k,
      (slot fs.files j).size = (((s.files.take k).map fun f => f.2.length).sum : Nat) := by
  induction k with
  | zero => rfl
  | succ k ih =>
    have found : s.files[k]? = some s.files[k] := List.getElem?_eq_getElem hk
    rw [sum_range_succ, ih (by omega), h.size_eq found, List.take_add_one, found,
      Option.toList_some, List.map_append, List.sum_append, List.map_singleton, List.sum_singleton,
      Nat.cast_add]

theorem place_eq (h : Represents fs d blocks s) {k : Nat} {f : CString × List UInt8}
    (hk : s.files[k]? = some f) (t : Nat) :
    (slot fs.files k).start + t = (placeOf s (f.1, t) : Int) := by
  have start : (slot fs.files k).start = _ := h.inside.layout.start k (lt_length hk)
  rw [start, h.sum_sizes (lt_length hk).le, placeOf, bytesBefore, Store.takeWhile_files hk]
  push_cast
  ring

theorem place_at (h : Represents fs d blocks s) {p : CString × Nat} {k : Nat}
    {f : CString × List UInt8} (hk : s.files[k]? = some f) (named : f.1 = p.1) :
    (slot fs.files k).start + p.2 = (placeOf s p : Int) := by
  have place := h.place_eq hk p.2
  rw [named] at place
  exact place

theorem byte_at (h : Represents fs d blocks s) {k : Nat} {f : CString × List UInt8}
    (hk : s.files[k]? = some f) {t : Nat} (ht : t < f.2.length) :
    f.2[t]? = some (byteAt blocks (placeOf s (f.1, t))) := by
  have size := h.size_eq hk
  have place := h.place_eq hk t
  have start := (h.inside.extent (lt_length hk)).1
  have first : (slot fs.files k).start.toNat + t = placeOf s (f.1, t) := by
    have nonneg : (0 : Int) ≤ dataStart * blockSize := by decide
    omega
  rw [← (h.entries k f hk).2, FsMeta.contents, List.getElem?_map, List.getElem?_range (by omega),
    Option.map_some, first]

theorem roomFor_iff (h : Represents fs d blocks s) {k : Nat} {f : CString × List UInt8}
    (hk : s.files[k]? = some f) {p : CString × Nat} (named : f.1 = p.1)
    (descriptor : fs.openFiles.get c = ⟨k, p.2⟩) (len : Nat) :
    RoomFor fs c k len ↔ Fits s p len := by
  have contents : s.contentsOf p.1 = f.2 :=
    named ▸ Store.contentsOf_of_mem (List.mem_of_getElem? hk)
  have below := lt_length hk
  have last : (slot fs.files (k + 1)).size = -1 ↔ s.names.getLast? = some p.1 := by
    rw [List.getLast?_eq_getElem?, Store.names, List.length_map, List.getElem?_map]
    constructor
    · intro free
      have beyond := h.packed.le_of_size free
      obtain rfl : k = s.files.length - 1 := by omega
      rw [hk, Option.map_some, named]
    · intro same
      obtain ⟨g, hg, same⟩ := Option.map_eq_some_iff.mp same
      have here := Store.index_unique hg hk (same.trans named.symm)
      exact (h.packed.free (k + 1) (by omega)).size
  rw [RoomFor, Fits, last, descriptor, h.size_eq hk, contents]
  refine or_congr_left ?_
  dsimp only
  omega

theorem byte_kept (h : Represents fs d blocks s) {p : CString × Nat} {data : List UInt8}
    {buffer : Block} {blocks' : Image} (holds : Buffered s p data.length buffer)
    (bytes : ∀ q < diskBytes, byteAt blocks' q =
      FlatBlocks.written (taken blocks buffer (placeOf s p)) (placeOf s p) data q)
    {j t : Nat} {g : CString × List UInt8} (hj : s.files[j]? = some g) (ht : t < g.2.length)
    (out : placeOf s (g.1, t) < placeOf s p ∨ placeOf s p + data.length ≤ placeOf s (g.1, t)) :
    byteAt blocks' (placeOf s (g.1, t)) = byteAt blocks (placeOf s (g.1, t)) := by
  have place := h.place_eq hj t
  have last := (h.inside.extent (lt_length hj)).2
  have size := h.size_eq hj
  rw [bytes _ (by omega), written_outside out, taken]
  split
  case isTrue here => exact holds g (List.mem_of_getElem? hj) t _ (h.byte_at hj ht) here out
  case isFalse => rfl

theorem writeStart_eq (h : Represents fs d blocks s) {p : CString × Nat} {k : Nat}
    {f : CString × List UInt8} (hk : s.files[k]? = some f) (named : f.1 = p.1)
    (descriptor : fs.openFiles.get c = ⟨k, p.2⟩) :
    writeStart fs c k = placeOf s p := by
  rw [writeStart, descriptor, h.place_at hk named]
  rfl

theorem contents_written (h : Represents fs d blocks s) {p : CString × Nat} {k : Nat}
    {f : CString × List UInt8} (hk : s.files[k]? = some f) (named : f.1 = p.1)
    (upto : p.2 ≤ f.2.length) {data : List UInt8} {buffer : Block} {blocks' : Image} {m : FsMeta}
    (inside : placeOf s p + data.length ≤ diskBytes) (holds : Buffered s p data.length buffer)
    (bytes : ∀ q < diskBytes, byteAt blocks' q =
      FlatBlocks.written (taken blocks buffer (placeOf s p)) (placeOf s p) data q)
    (start : m.start = (slot fs.files k).start)
    (size : m.size = max (f.2.length : Int) (p.2 + data.length)) :
    m.contents blocks' = overwrite f.2 p.2 data := by
  have length : m.size.toNat = (overwrite f.2 p.2 data).length := by
    rw [overwrite_length upto]
    omega
  have place (t : Nat) : m.start.toNat + t = placeOf s (f.1, t) := by
    have here := h.place_eq hk t
    have first := (h.inside.extent (lt_length hk)).1
    have zero : (0 : Int) ≤ dataStart * blockSize := by decide
    rw [start]
    omega
  refine List.ext_getElem? fun t => ?_
  rcases Nat.lt_or_ge t m.size.toNat with within | beyond
  · rw [FsMeta.contents, List.getElem?_map, List.getElem?_range within, Option.map_some, place]
    have position : placeOf s (f.1, t) + p.2 = placeOf s p + t := by
      rw [placeOf, placeOf, named]
      omega
    by_cases out : t < p.2 ∨ p.2 + data.length ≤ t
    · have old : t < f.2.length := by omega
      rw [overwrite_outside upto out, h.byte_at hk old, h.byte_kept holds bytes hk old (by omega)]
    · obtain ⟨e, rfl⟩ : ∃ e, t = p.2 + e := ⟨t - p.2, by omega⟩
      have there : placeOf s (f.1, p.2 + e) = placeOf s p + e := by omega
      rw [overwrite_inside upto (by omega), there, bytes _ (by omega), written_inside (by omega),
        List.getElem?_eq_getElem (by omega)]
  · have none : (m.contents blocks').length ≤ t := by
      rw [FsMeta.contents, List.length_map, List.length_range]
      exact beyond
    rw [List.getElem?_eq_none none, List.getElem?_eq_none (by omega)]

end Represents

structure Wrote (fs fs' : FileSys) (c : Fin 32) (k pos length len : Nat) : Prop where
  entry : ∀ j, slot fs'.files j =
    if j = k then { slot fs.files k with size := max (length : Int) (pos + len) }
    else slot fs.files j
  descriptor :
    ∀ e, fs'.openFiles.get e = if e = c then ⟨k, (pos + len : Nat)⟩ else fs.openFiles.get e

namespace Wrote

variable {k pos length len : Nat}

theorem size (w : Wrote fs fs' c k pos length len) :
    (slot fs'.files k).size = max (length : Int) (pos + len) := by
  rw [w.entry, if_pos rfl]

theorem start (w : Wrote fs fs' c k pos length len) (j : Nat) :
    (slot fs'.files j).start = (slot fs.files j).start := by
  rw [w.entry]
  split
  case isTrue here =>
    rw [here]
    rfl
  case isFalse => rfl

theorem string (w : Wrote fs fs' c k pos length len) (j : Nat) :
    (slot fs'.files j).string = (slot fs.files j).string := by
  rw [w.entry]
  split
  case isTrue here =>
    rw [here]
    rfl
  case isFalse => rfl

end Wrote

namespace Represents

theorem wrote (h : Represents fs d blocks s) {k pos : Nat} {f : CString × List UInt8}
    (hk : s.files[k]? = some f) (descriptor : fs.openFiles.get c = ⟨k, pos⟩) {data : List UInt8}
    {new : Option Block} (done : fsWrite fs c.val data new = some ((data.length : Int), fs')) :
    Wrote fs fs' c k pos f.2.length data.length := by
  rcases fsWrite_cases done with
    ⟨-, failed⟩ | ⟨c', k', hc, hk', same, -, number, -, -, openFiles, files⟩
  · omega
  obtain rfl : c.val = c' := Int.ofNat_inj.mp same
  have onSlot : fs.openFiles[c.val].fileNum = k := congrArg OpenFile.fileNum descriptor
  have position : fs.openFiles[c.val].offset = pos := congrArg OpenFile.offset descriptor
  obtain rfl : k = k' := Int.ofNat_inj.mp (onSlot.symm.trans number)
  have size := h.size_eq hk
  rw [slot_of_lt hk'] at size
  rw [position, size] at files
  rw [position] at openFiles
  refine ⟨fun j => ?_, fun e => ?_⟩
  · rw [files, slot_set, slot_of_lt hk']
  · rw [openFiles]
    split
    case isTrue here =>
      subst here
      refine (Vector.getElem_set_self e.isLt).trans ?_
      exact congrArg (OpenFile.mk · _) onSlot
    case isFalse here =>
      exact Vector.getElem_set_ne c.isLt e.isLt fun equal => here (Fin.ext equal.symm)

theorem ends_written (h : Represents fs d blocks s) {p : CString × Nat} {k len : Nat}
    {f : CString × List UInt8} (hk : s.files[k]? = some f) (named : f.1 = p.1)
    (w : Wrote fs fs' c k p.2 f.2.length len) (inside : placeOf s p + len ≤ diskBytes) {j : Nat}
    (hj : j < s.files.length) :
    (slot fs'.files j).start + (slot fs'.files j).size ≤ diskBytes := by
  have old := (h.inside.extent hj).2
  rw [w.start]
  by_cases here : j = k
  · subst here
    have start := h.place_at hk named
    rw [h.size_eq hk] at old
    rw [w.size]
    omega
  · rw [w.entry, if_neg here]
    exact old

theorem contents_kept (h : Represents fs d blocks s) {p : CString × Nat} {k : Nat}
    {f : CString × List UInt8} (hk : s.files[k]? = some f) (named : f.1 = p.1) {data : List UInt8}
    {buffer : Block} {blocks' : Image} (w : Wrote fs fs' c k p.2 f.2.length data.length)
    (after : InsideDisk fs' d blocks' s.files.length) (holds : Buffered s p data.length buffer)
    (bytes : ∀ q < diskBytes, byteAt blocks' q =
      FlatBlocks.written (taken blocks buffer (placeOf s p)) (placeOf s p) data q)
    {j : Nat} {g : CString × List UInt8} (hj : s.files[j]? = some g) (other : j ≠ k) :
    (slot fs'.files j).contents blocks' = g.2 := by
  have kept : slot fs'.files j = slot fs.files j := by rw [w.entry, if_neg other]
  rw [kept]
  refine Eq.trans (FsMeta.contents_congr rfl fun t ht => ?_) (h.entries j g hj).2
  have size := h.size_eq hj
  have place := h.place_eq hj t
  have start := h.place_at hk named
  have first := (h.inside.extent (lt_length hj)).1
  have zero : (0 : Int) ≤ dataStart * blockSize := by decide
  have same : (slot fs.files j).start.toNat + t = placeOf s (g.1, t) := by omega
  rw [same]
  refine h.byte_kept holds bytes hj (by omega) ?_
  rcases Nat.lt_or_gt_of_ne other with before | behind
  · have order := after.ordered before (lt_length hk)
    rw [w.start, w.start, kept] at order
    omega
  · have order := after.ordered behind (lt_length hj)
    rw [w.start, w.start, w.size] at order
    omega

theorem tracks_written (h : Represents fs d blocks s) {p : CString × Nat}
    (opened : s.cursors c = some p) {k : Nat} {f : CString × List UInt8} (hk : s.files[k]? = some f)
    (named : f.1 = p.1) {data : List UInt8} (w : Wrote fs fs' c k p.2 f.2.length data.length)
    (e : Fin 32) :
    Tracks fs' (s.write c p data opened) e := by
  have edited {j : Nat} {g : CString × List UInt8} (hj : s.files[j]? = some g) :
      (s.write c p data opened).files[j]? = some (Store.edit p.1 p.2 data g) :=
    (List.getElem?_map ..).trans (by rw [hj, Option.map_some])
  by_cases here : e = c
  · subst here
    refine .opened ?_ (edited hk) ((w.descriptor e).trans (if_pos rfl))
    rw [Store.edit_name, named]
    exact Function.update_self _ _ _
  · have kept := (w.descriptor e).trans (if_neg here)
    cases h.cursors e with
    | closed none shut =>
        exact .closed ((Function.update_of_ne here _ _).trans none) (by rw [kept]; exact shut)
    | opened opened' hj descriptor' =>
      refine .opened ?_ (edited hj) (kept.trans descriptor')
      rw [Store.edit_name]
      exact (Function.update_of_ne here _ _).trans opened'

/-- A write that is accepted leaves the picture of the store it means. -/
theorem written (h : Represents fs d blocks s) {p : CString × Nat} (opened : s.cursors c = some p)
    {k : Nat} {f : CString × List UInt8} (hk : s.files[k]? = some f) (named : f.1 = p.1)
    (descriptor : fs.openFiles.get c = ⟨k, p.2⟩) (upto : p.2 ≤ f.2.length) {data : List UInt8}
    {buffer : Block} (inside : placeOf s p + data.length ≤ diskBytes)
    (holds : Buffered s p data.length buffer)
    (done : fsWrite fs c.val data (some buffer) = some ((data.length : Int), fs')) :
    ∃ blocks', Represents fs' d blocks' (s.write c p data opened) := by
  have file := h.onFile hk descriptor upto
  have step : Step fs (.fsWrite c.val data (some buffer)) fs' := ⟨_, done⟩
  have start := h.writeStart_eq hk named descriptor
  obtain ⟨blocks', writable, -, -, -, -, bytes⟩ := (file.writable h.inside).write done (by omega)
  rw [start] at bytes
  have w := h.wrote hk descriptor done
  have packed := h.packed.write done
  have after :=
    packed.insideDisk writable.opened writable.image fun _ => h.ends_written hk named w inside
  have length : (s.write c p data opened).files.length = s.files.length := List.length_map _
  refine ⟨blocks', ?_, ?_, h.filed.step h.packed.listed step, h.ranged.step step,
    h.permits_step step, fun j g hj => ?_, h.tracks_written opened hk named w⟩
  · rw [length]
    exact after
  · rw [length]
    exact packed
  · obtain ⟨g, hg, rfl⟩ := Option.map_eq_some_iff.mp ((List.getElem?_map ..).symm.trans hj)
    refine ⟨?_, ?_⟩
    · rw [w.string, Store.edit_name]
      exact (h.entries j g hg).1
    · by_cases here : j = k
      · subst here
        obtain rfl := Option.some.inj (hg.symm.trans hk)
        rw [Store.edit, if_pos named]
        exact h.contents_written hk named upto inside holds bytes (w.start j) w.size
      · have other : g.1 ≠ p.1 :=
          fun same => here (Store.index_unique hg hk (same.trans named.symm))
        rw [Store.edit, if_neg other]
        exact h.contents_kept hk named w after holds bytes hg here

end Represents

end LastPicked.FileSystem
