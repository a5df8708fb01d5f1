import LastPicked.FileSysLookup
import LastPicked.FileSysRemount
import LastPicked.FileSysRoundTrip
import LastPicked.NamedFiles

/-! What the file system is for: files that are found by their names and read and
written through descriptors. In this view there are no slots, no blocks and no
positions on a disk, and unmounting the disk and mounting it again only closes the
descriptors. -/

namespace LastPicked.FileSystem
open CIntegers CMemory LabelledRuns NamedFiles

abbrev FileStore := Store CString UInt8 (Fin 32)

/-- A call with arguments that its description allows: a descriptor of the table, an offset that
is not negative, and buffers for what cannot be undone half way. -/
inductive Request
  | fsOpen (name : CString)
  | fsClose (c : Fin 32)
  | fsCreate (name : CString)
  | fsDelete (name : CString) (buffer1 buffer2 : Block)
  | fsRead (c : Fin 32) (nbyte : Nat) (new : Option Block)
  | fsWrite (c : Fin 32) (data : List UInt8) (new : Option Block)
  | fsGetFilesize (c : Fin 32)
  | fsLseek (c : Fin 32) (offset : Nat)
  | remount (buffer buffer' : Block)

abbrev Answer := Int × List UInt8

def plain (x : Int × FileSys) : Answer × FileSys := ((x.1, []), x.2)

def remountFs (fs : FileSys) (d : CString) (buffer buffer' : Block) : Answer × FileSys :=
  let (unmounted, fs) := unmountFs fs (some buffer)
  let (mounted, fs) := mountFs fs (some d) (some buffer')
  ((if unmounted = 0 then mounted else unmounted, []), fs)

def Request.answer (d : CString) (fs : FileSys) : Request → Option (Answer × FileSys)
  | .fsOpen name => (FileSystem.fsOpen fs name).map plain
  | .fsClose c => (FileSystem.fsClose fs c.val).map plain
  | .fsCreate name => (FileSystem.fsCreate fs name).map plain
  | .fsDelete name buffer1 buffer2 =>
      (FileSystem.fsDelete fs name (some buffer1) (some buffer2)).map plain
  | .fsRead c nbyte new => (FileSystem.fsRead fs c.val nbyte new).map fun x => ((x.1, x.2.1), x.2.2)
  | .fsWrite c data new => (FileSystem.fsWrite fs c.val data new).map plain
  | .fsGetFilesize c => (FileSystem.fsGetFilesize fs c.val).map fun size => ((size, []), fs)
  | .fsLseek c offset => (FileSystem.fsLseek fs c.val offset).map plain
  | .remount buffer buffer' => some (remountFs fs d buffer buffer')

def freeCursor (s : FileStore) : Nat := (List.finRange 32).findIdx fun c => (s.cursors c).isNone

def refused (s : FileStore) : Answer × FileStore := ((-1, []), s)

def readFrom (s : FileStore) (c : Fin 32) (nbyte : Nat) (p : CString × Nat)
    (opened : s.cursors c = some p) : Answer × FileStore :=
  (((s.slice p.1 p.2 nbyte).length, s.slice p.1 p.2 nbyte),
    s.move c p.1 (p.2 + (s.slice p.1 p.2 nbyte).length) (Store.holds_slice opened nbyte))

/-- Only the file that was made last can grow. -/
def Fits (s : FileStore) (p : CString × Nat) (len : Nat) : Prop :=
  p.2 + len ≤ (s.contentsOf p.1).length ∨ s.names.getLast? = some p.1

instance (s : FileStore) (p : CString × Nat) (len : Nat) : Decidable (Fits s p len) :=
  inferInstanceAs (Decidable (_ ∨ _))

def Request.means (s : FileStore) : Request → Answer × FileStore
  | .fsOpen name =>
      if h : freeCursor s < 32 ∧ s.Holds name 0 then
        ((freeCursor s, []), s.move ⟨freeCursor s, h.1⟩ name 0 h.2)
      else refused s
  | .fsClose c => if (s.cursors c).isSome then ((0, []), s.close c) else refused s
  | .fsCreate name =>
      if h : name.bytes.length ≤ 15 ∧ name ∉ s.names then ((0, []), s.create name h.2)
      else refused s
  | .fsDelete name _ _ =>
      if h : name ∈ s.names ∧ ∀ c, (s.cursors c).map Prod.fst ≠ some name then
        ((0, []), s.delete name h.2)
      else refused s
  | .fsRead c nbyte new =>
      match h : s.cursors c with
      | none => refused s
      | some p => if new.isSome then readFrom s c nbyte p h else refused s
  | .fsWrite c data new =>
      match h : s.cursors c with
      | none => refused s
      | some p =>
          if new.isSome ∧ Fits s p data.length then ((data.length, []), s.write c p data h)
          else refused s
  | .fsGetFilesize c =>
      match s.cursors c with
      | none => refused s
      | some p => (((s.contentsOf p.1).length, []), s)
  | .fsLseek c offset =>
      match s.cursors c with
      | none => refused s
      | some p => if h : s.Holds p.1 offset then ((0, []), s.move c p.1 offset h) else refused s
  | .remount _ _ => ((0, []), s.closeAll)

/-- What descriptor `c` holds is what cursor `c` of the store says. -/
inductive Tracks (fs : FileSys) (s : FileStore) (c : Fin 32) : Prop
  | closed : s.cursors c = none → (fs.openFiles.get c).fileNum = -1 → Tracks fs s c
  | opened {k pos : Nat} {f : CString × List UInt8} :
      s.cursors c = some (f.1, pos) → s.files[k]? = some f →
      fs.openFiles.get c = ⟨k, pos⟩ → Tracks fs s c

/-- The slots in use hold the files of the store in their order, packed and inside the disk. -/
structure Represents (fs : FileSys) (d : CString) (blocks : Image) (s : FileStore) : Prop where
  inside : InsideDisk fs d blocks s.files.length
  packed : Packed fs s.files.length
  filed : Filed fs.files
  ranged : Ranged fs.files
  permitted : fs.disk.permits d
  entries : ∀ k f, s.files[k]? = some f →
    (slot fs.files k).string = f.1.bytes ∧ (slot fs.files k).contents blocks = f.2
  cursors : ∀ c, Tracks fs s c

variable {fs fs' mounted : FileSys} {d : CString} {blocks : Image} {s : FileStore} {n : Nat}
  {name : CString} {c : Fin 32}

theorem CString.ext {a b : CString} (same : a.bytes = b.bytes) : a = b := by
  cases a
  cases b
  cases same
  rfl

theorem Advanced.eq {len : Nat} (h : Advanced fs fs' c len) : fs' = { fs with
    openFiles := fs.openFiles.set c.val
      { fs.openFiles.get c with offset := (fs.openFiles.get c).offset + len } c.isLt } := by
  have descriptors : fs'.openFiles = fs.openFiles.set c.val
      { fs.openFiles.get c with offset := (fs.openFiles.get c).offset + len } c.isLt := by
    refine Vector.ext fun j hj => ?_
    rw [Vector.getElem_set]
    split
    case isTrue same =>
      subst same
      exact h.descriptor
    case isFalse other => exact h.others ⟨j, hj⟩ fun same => other (congrArg Fin.val same).symm
  obtain ⟨openFiles, files, disk⟩ := fs'
  obtain rfl : disk = fs.disk := h.disk
  obtain rfl : files = fs.files := h.files
  exact congrArg (FileSys.mk · _ _) descriptors

namespace Represents

theorem lt_length {k : Nat} {f : CString × List UInt8} (hk : s.files[k]? = some f) :
    k < s.files.length :=
  (List.getElem?_eq_some_iff.mp hk).1

theorem size_eq (h : Represents fs d blocks s) {k : Nat} {f : CString × List UInt8}
    (hk : s.files[k]? = some f) :
    (slot fs.files k).size = f.2.length := by
  have used := (h.inside.layout.inUse k).mpr (lt_length hk)
  rw [← (h.entries k f hk).2, FsMeta.contents, List.length_map, List.length_range]
  omega

theorem length_le (h : Represents fs d blocks s) : s.files.length ≤ 63 := h.packed.room

theorem file_at (h : Represents fs d blocks s) {k : Nat} (hk : k < s.files.length) :
    ∃ f, s.files[k]? = some f ∧ (slot fs.files k).string = f.1.bytes := by
  have found : s.files[k]? = some s.files[k] := List.getElem?_eq_getElem hk
  exact ⟨_, found, (h.entries k _ found).1⟩

theorem search (h : Represents fs d blocks s) (given : name.bytes ≠ []) :
    (∃ k f, s.files[k]? = some f ∧ f.1 = name ∧
      firstIndex (FsMeta.named name) fs.files.toList = some k) ∨
      name ∉ s.names ∧ firstIndex (FsMeta.named name) fs.files.toList = some 64 := by
  have room := h.length_le
  rcases h.filed.search name with ⟨found, absent⟩ | ⟨i, hi, found, same, -⟩
  · refine .inr ⟨fun there => ?_, found⟩
    obtain ⟨f, hf, rfl⟩ := List.mem_map.mp there
    obtain ⟨k, hk⟩ := List.mem_iff_getElem?.mp hf
    have below := lt_length hk
    exact absent k (by omega) (h.entries k f hk).1
  · have used : i < s.files.length := by
      by_contra beyond
      rw [(h.packed.free i (by omega)).string] at same
      exact given same.symm
    obtain ⟨f, hf, string⟩ := h.file_at used
    exact .inl ⟨i, f, hf, CString.ext (string.symm.trans same), found⟩

theorem short (h : Represents fs d blocks s) (there : name ∈ s.names) : name.bytes.length ≤ 15 := by
  obtain ⟨f, hf, rfl⟩ := List.mem_map.mp there
  obtain ⟨k, hk⟩ := List.mem_iff_getElem?.mp hf
  rw [← (h.entries k f hk).1]
  exact FsMeta.string_short (h.filed.terminated k)

theorem tracked (h : Represents fs d blocks s) {p : CString × Nat} (opened : s.cursors c = some p) :
    ∃ (k : Nat) (f : CString × List UInt8), s.files[k]? = some f ∧ f.1 = p.1 ∧
      fs.openFiles.get c = ⟨k, p.2⟩ ∧ p.2 ≤ f.2.length ∧ s.contentsOf p.1 = f.2 := by
  cases h.cursors c with
  | closed none => simp [none] at opened
  | @opened k pos f here hk descriptor =>
    obtain rfl := Option.some.inj (here.symm.trans opened)
    obtain ⟨g, hg, same, upto⟩ := s.within c _ here
    obtain rfl := Store.eq_of_mem (List.mem_of_getElem? hk) hg same.symm
    exact ⟨k, f, hk, rfl, descriptor, upto, Store.contentsOf_of_mem hg⟩

theorem closed (h : Represents fs d blocks s) (none : s.cursors c = none) :
    (fs.openFiles.get c).fileNum = -1 := by
  cases h.cursors c with
  | closed _ shut => exact shut
  | opened here => simp [none] at here

theorem closed_iff (h : Represents fs d blocks s) (c : Fin 32) :
    (fs.openFiles.get c).fileNum = -1 ↔ s.cursors c = none := by
  refine ⟨fun shut => ?_, h.closed⟩
  cases h.cursors c with
  | closed none => exact none
  | @opened k pos f _ _ descriptor =>
    rw [descriptor] at shut
    exact absurd shut (by dsimp only; omega)

theorem setDescriptor (h : Represents fs d blocks s) {t : FileStore} {f : OpenFile}
    (files : t.files = s.files) (others : ∀ e, e ≠ c → t.cursors e = s.cursors e)
    (here : Tracks { fs with openFiles := fs.openFiles.set c.val f c.isLt } t c) :
    Represents { fs with openFiles := fs.openFiles.set c.val f c.isLt } d blocks t := by
  have tracks (e : Fin 32) :
      Tracks { fs with openFiles := fs.openFiles.set c.val f c.isLt } t e := by
    by_cases same : e = c
    · rw [same]
      exact here
    · have kept : (fs.openFiles.set c.val f).get e = fs.openFiles.get e :=
        Vector.getElem_set_ne c.isLt e.isLt fun equal => same (Fin.ext equal.symm)
      cases h.cursors e with
      | closed none shut => exact .closed ((others e same).trans none) (by rw [← shut, ← kept])
      | opened opened hk descriptor =>
        exact .opened ((others e same).trans opened) (by rw [files]; exact hk)
          (kept.trans descriptor)
  have below : f.Below s.files.length := by
    have stored : ((fs.openFiles.set c.val f).get c).fileNum = f.fileNum :=
      congrArg OpenFile.fileNum (Vector.getElem_set_self c.isLt)
    cases here with
    | closed none shut => exact .inl (stored.symm.trans shut)
    | opened opened hk descriptor =>
      exact .inr ⟨_, lt_length (files ▸ hk),
        stored.symm.trans (congrArg OpenFile.fileNum descriptor)⟩
  refine ⟨?_, ?_, h.filed, h.ranged, h.permitted, ?_, tracks⟩
  · rw [files]
    exact ⟨h.inside.opened, h.inside.image, h.inside.layout, h.inside.free, h.inside.inside⟩
  · rw [files]
    exact h.packed.set_opened c.isLt below
  · rw [files]
    exact h.entries

theorem moved (h : Represents fs d blocks s) {k pos : Nat} {f : CString × List UInt8}
    (hk : s.files[k]? = some f) (named : f.1 = name) (there : s.Holds name pos) :
    Represents { fs with openFiles := fs.openFiles.set c.val ⟨k, pos⟩ c.isLt } d blocks
      (s.move c name pos there) := by
  subst named
  refine h.setDescriptor rfl (fun e other => Function.update_of_ne other _ _)
    (.opened (?_ : _ = some (f.1, pos)) hk ?_)
  · exact Function.update_self _ _ _
  · exact Vector.getElem_set_self c.isLt

theorem freeCursor_eq (h : Represents fs d blocks s) :
    fs.openFiles.toList.findIdx (fun f => f.fileNum = -1) = freeCursor s := by
  have table : fs.openFiles.toList = (List.finRange 32).map fs.openFiles.get := by
    refine List.ext_getElem (by simp) fun k hk _ => ?_
    simp [Vector.get_eq_getElem]
  rw [table, List.findIdx_map, freeCursor]
  congr 1
  funext c
  have same := h.closed_iff c
  cases opened : s.cursors c <;> simp_all

theorem freeCursor_le (h : Represents fs d blocks s) : freeCursor s ≤ 32 := by
  have bound : fs.openFiles.toList.findIdx (fun f => f.fileNum = -1) ≤ fs.openFiles.toList.length :=
    List.findIdx_le_length
  rwa [h.freeCursor_eq, Vector.length_toList] at bound

end Represents

/-- The call returns what it means for the store, and the state it leaves stands for the store
that it leaves. -/
def Answers (fs : FileSys) (d : CString) (s : FileStore) (q : Request) : Prop :=
  ∃ fs' blocks', q.answer d fs = some ((q.means s).1, fs') ∧ Represents fs' d blocks' (q.means s).2

namespace Represents

theorem refuses (h : Represents fs d blocks s) {q : Request} (means : q.means s = refused s)
    (answer : q.answer d fs = some ((-1, []), fs)) : Answers fs d s q := by
  refine ⟨fs, blocks, ?_, ?_⟩
  · rw [means]
    exact answer
  · rw [means]
    exact h

theorem answers_open (h : Represents fs d blocks s) (given : name.bytes ≠ []) :
    Answers fs d s (.fsOpen name) := by
  have refusal (none : ¬(freeCursor s < 32 ∧ s.Holds name 0))
      (refused : fsOpen fs name = some (-1, fs)) :
      Answers fs d s (.fsOpen name) :=
    h.refuses (dif_neg none) (congrArg (Option.map plain) refused)
  by_cases long : 15 < name.bytes.length
  · refine refusal (fun both => ?_) (if_pos long)
    exact absurd (h.short (Store.holds_zero.mp both.2)) (by omega)
  by_cases full : freeCursor s = 32
  · refine refusal (fun both => by omega) ?_
    simp only [fsOpen, long, if_false, h.freeCursor_eq, full, if_true]
  have free : freeCursor s < 32 := lt_of_le_of_ne h.freeCursor_le full
  rcases h.search given with ⟨k, f, hk, named, found⟩ | ⟨absent, found⟩
  · have there : s.Holds name 0 :=
      Store.holds_zero.mpr (named ▸ List.mem_map_of_mem (List.mem_of_getElem? hk))
    have below := lt_length hk
    have room := h.length_le
    have used : k ≠ 64 := by omega
    have both : freeCursor s < 32 ∧ s.Holds name 0 := ⟨free, there⟩
    have stored : store fs.openFiles (freeCursor s) ⟨k, 0⟩ =
        some (fs.openFiles.set (freeCursor s) ⟨k, 0⟩ free) :=
      store_of_lt _ free _
    refine ⟨{ fs with openFiles := fs.openFiles.set (freeCursor s) ⟨k, 0⟩ free }, blocks, ?_, ?_⟩
    · simp only [Request.answer, Request.means, fsOpen, long, if_false, h.freeCursor_eq, full,
        found, used, stored, dif_pos both, Option.bind_eq_bind, Option.bind_some,
        Option.map_some, plain]
    · simp only [Request.means, dif_pos both]
      exact h.moved (c := ⟨freeCursor s, free⟩) hk named there
  · refine refusal (fun both => absent (Store.holds_zero.mp both.2)) ?_
    simp only [fsOpen, long, if_false, h.freeCursor_eq, full, found, if_true, Option.bind_eq_bind,
      Option.bind_some]

theorem answers_close (h : Represents fs d blocks s) (c : Fin 32) :
    Answers fs d s (.fsClose c) := by
  have found : load fs.openFiles c.val = some (fs.openFiles.get c) := load_of_lt fs.openFiles c.isLt
  cases opened : s.cursors c with
  | none =>
    refine h.refuses (by simp [Request.means, opened]) ?_
    simp only [Request.answer, fsClose, found, h.closed opened, if_true, Option.bind_eq_bind,
      Option.bind_some, Option.map_some, plain]
  | some p =>
    have shut : ¬(fs.openFiles.get c).fileNum = -1 := fun shut => by
      simp [(h.closed_iff c).mp shut] at opened
    refine ⟨{ fs with
        openFiles := fs.openFiles.set c.val { fs.openFiles.get c with fileNum := -1 } },
      blocks, ?_, ?_⟩
    · simp only [Request.answer, Request.means, opened, Option.isSome_some, if_true, fsClose, found,
        shut, if_false, store_of_lt fs.openFiles c.isLt, Option.bind_eq_bind, Option.bind_some,
        Option.map_some, plain]
    · simp only [Request.means, opened, Option.isSome_some, if_true]
      refine h.setDescriptor rfl (fun e other => Function.update_of_ne other _ _) (.closed ?_ ?_)
      · exact Function.update_self _ _ _
      · exact congrArg OpenFile.fileNum (Vector.getElem_set_self c.isLt)

theorem answers_size (h : Represents fs d blocks s) (c : Fin 32) :
    Answers fs d s (.fsGetFilesize c) := by
  have found : load fs.openFiles c.val = some (fs.openFiles.get c) := load_of_lt fs.openFiles c.isLt
  cases opened : s.cursors c with
  | none =>
    refine h.refuses (by simp [Request.means, opened]) ?_
    simp only [Request.answer, fsGetFilesize, found, h.closed opened, if_true, Option.bind_eq_bind,
      Option.bind_some, Option.map_some]
  | some p =>
    obtain ⟨k, f, hk, -, descriptor, -, contents⟩ := h.tracked opened
    have below := lt_length hk
    have room := h.length_le
    have file : load fs.files (k : Nat) = some fs.files[k] := load_of_lt fs.files (by omega)
    have used : ¬(k : Int) = -1 := by omega
    have size := h.size_eq hk
    rw [slot_of_lt (by omega)] at size
    refine ⟨fs, blocks, ?_, ?_⟩
    · simp only [Request.answer, Request.means, opened, fsGetFilesize, found, descriptor, used,
        if_false, file, size, contents, Option.bind_eq_bind, Option.bind_some, Option.map_some]
    · simp only [Request.means, opened]
      exact h

theorem answers_seek (h : Represents fs d blocks s) (c : Fin 32) (offset : Nat) :
    Answers fs d s (.fsLseek c offset) := by
  have found : load fs.openFiles c.val = some (fs.openFiles.get c) := load_of_lt fs.openFiles c.isLt
  cases opened : s.cursors c with
  | none =>
    refine h.refuses (by simp [Request.means, opened]) ?_
    simp only [Request.answer, fsLseek, found, h.closed opened, if_true, Option.bind_eq_bind,
      Option.bind_some, Option.map_some, plain]
  | some p =>
    obtain ⟨k, f, hk, named, descriptor, -, contents⟩ := h.tracked opened
    have below := lt_length hk
    have room := h.length_le
    have file : load fs.files (k : Nat) = some fs.files[k] := load_of_lt fs.files (by omega)
    have used : ¬(k : Int) = -1 := by omega
    have size := h.size_eq hk
    have sized := h.packed.sized k below
    rw [slot_of_lt (by omega)] at size sized
    have holds : s.Holds p.1 offset ↔ offset ≤ f.2.length := by
      rw [Store.holds_iff, contents]
      exact and_iff_right (named ▸ List.mem_map_of_mem (List.mem_of_getElem? hk))
    by_cases there : s.Holds p.1 offset
    · have within : ¬(f.2.length : Int) < offset := by
        have upto := holds.mp there
        omega
      have kept : toInt (offset : Int) = offset :=
        toInt_of_range (intMin_nonpos.trans (Int.natCast_nonneg _)) (by omega)
      refine ⟨{ fs with openFiles := fs.openFiles.set c.val ⟨k, offset⟩ }, blocks, ?_, ?_⟩
      · simp only [Request.answer, Request.means, opened, there, dif_pos, fsLseek, found,
          descriptor, used, if_false, file, size, within, kept, store_of_lt fs.openFiles c.isLt,
          Option.bind_eq_bind, Option.bind_some, Option.map_some,
          plain]
      · simp only [Request.means, opened, there, dif_pos]
        exact h.moved hk named there
    · have beyond : (f.2.length : Int) < offset := by
        have out := mt holds.mpr there
        omega
      refine h.refuses (by simp only [Request.means, opened, there, dif_neg, not_false_eq_true]) ?_
      simp only [Request.answer, fsLseek, found, descriptor, used, if_false, file, size, beyond,
        if_true, Option.bind_eq_bind, Option.bind_some, Option.map_some, plain]

theorem onFile (h : Represents fs d blocks s) {k pos : Nat} {f : CString × List UInt8}
    (hk : s.files[k]? = some f) (descriptor : fs.openFiles.get c = ⟨k, pos⟩)
    (within : pos ≤ f.2.length) :
    OnFile fs s.files.length c k where
  number := congrArg OpenFile.fileNum descriptor
  used := lt_length hk
  low := by
    rw [descriptor]
    exact Int.natCast_nonneg _
  high := by
    rw [descriptor, h.size_eq hk]
    exact Int.ofNat_le.mpr within

theorem readable (h : Represents fs d blocks s) {k : Nat} (file : OnFile fs s.files.length c k) :
    Readable fs d blocks c k where
  toWritable := file.writable h.inside
  fileOffset_le := (h.inside.layout.offset k file.used).2
  offset_le := file.high

theorem bytesFrom_contents {m : FsMeta} {p len : Nat} (inside : p + len ≤ m.size.toNat) :
    bytesFrom blocks (m.start.toNat + p) len = ((m.contents blocks).drop p).take len := by
  refine List.ext_getElem ?_ fun t ht _ => ?_
  · simp only [bytesFrom_length, FsMeta.contents, List.length_take, List.length_drop,
      List.length_map, List.length_range]
    omega
  · simp [bytesFrom, FsMeta.contents, Nat.add_assoc]

theorem answers_read (h : Represents fs d blocks s) (opened : s.cursors c ≠ none) (nbyte : Nat)
    (new : Option Block) :
    Answers fs d s (.fsRead c nbyte new) := by
  obtain ⟨p, opened⟩ := Option.ne_none_iff_exists'.mp opened
  obtain ⟨k, f, hk, named, descriptor, upto, contents⟩ := h.tracked opened
  have file := h.onFile hk descriptor upto
  have readable := h.readable file
  have small := h.packed.sized k file.used
  have size := h.size_eq hk
  have position : (fs.openFiles.get c).offset = p.2 := congrArg OpenFile.offset descriptor
  have start := readable.start
  have last := (h.inside.extent file.used).2
  have place : writeStart fs c k = (slot fs.files k).start.toNat + p.2 := by
    rw [writeStart, position]
    omega
  have left : bytesLeft fs c k = f.2.length - p.2 := by
    rw [bytesLeft, size, position]
    omega
  cases new with
  | none =>
    refine h.refuses ?_ (congrArg (Option.map _) (readable.read_none small nbyte (by omega)))
    simp only [Request.means]
    split
    case h_1 => rfl
    case h_2 => rfl
  | some buffer =>
    obtain ⟨fs', read, advanced⟩ := readable.read small nbyte buffer (by omega)
    have slice : s.slice p.1 p.2 nbyte = (f.2.drop p.2).take nbyte := by rw [Store.slice, contents]
    have bytes : bytesFrom blocks (writeStart fs c k) (min nbyte (bytesLeft fs c k)) =
        s.slice p.1 p.2 nbyte := by
      rw [place, bytesFrom_contents (by omega), (h.entries k f hk).2, slice, left,
        ← List.length_drop]
      exact List.take_eq_take_min.symm
    have count : min nbyte (bytesLeft fs c k) = (s.slice p.1 p.2 nbyte).length := by
      rw [slice, List.length_take, List.length_drop, left]
    rw [bytes, count] at read
    rw [count] at advanced
    have means : Request.means s (.fsRead c nbyte (some buffer)) = readFrom s c nbyte p opened := by
      simp only [Request.means]
      split
      case h_1 none => simp [none] at opened
      case h_2 q here =>
        obtain rfl := Option.some.inj (here.symm.trans opened)
        rfl
    refine ⟨fs', blocks, ?_, ?_⟩
    · rw [means]
      simp only [Request.answer, read, Option.map_some, readFrom]
    · rw [means, advanced.eq, descriptor]
      exact h.moved hk named (Store.holds_slice opened nbyte)

end Represents

end LastPicked.FileSystem
