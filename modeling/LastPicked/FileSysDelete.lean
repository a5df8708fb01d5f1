import LastPicked.FileSysInside
import LastPicked.ShiftBytes

/-! `fs_delete` on a mounted file system: the data behind the file, the entries
behind its slot and the descriptors open on them all move down together, so
that exactly one file is gone. -/

namespace LastPicked.FileSystem
open CIntegers CMemory FlatBlocks Finset

variable {fs fs' : FileSys} {files between files' : Files} {d : CString} {blocks blocks' : Image}
  {n i : Nat} {name : CString}

def listing (files : Files) : List (Vector UInt8 16 × Int) :=
  (files.toList.filter fun m => m.size ≠ -1).map fun m => (m.fileName, m.size)

def movedSlot (i j : Nat) : Nat := if j < i then j else j - 1

theorem closeGap_movedSlot (files : Files) (room : n ≤ 64) {j : Nat} (hj : j < n) (other : j ≠ i) :
    closeGap files i (movedSlot i j) = slot files j := by
  unfold closeGap movedSlot
  grind

theorem closeGap_placed (hi : i < n) (room : n ≤ 64) (used : ∀ k < n, 0 ≤ (slot files k).size)
    (placed : ∀ k < n, Placed files k) (moved : ∀ k, slot between k = closeGap files i k)
    (filled : fillFrom between (64 - i) i = some files') : ∀ k < n - 1, Placed files' k := by
  intro k hk
  refine fillFrom_placed (n := n - 1) filled (fun j hj => ?_) (fun j hj before => ?_)
    k hk (by omega)
  · have below := used j (by omega)
    have behind := used (j + 1) (by omega)
    rw [moved, closeGap]
    grind
  · exact (placed j (by omega)).same fun j' hj' _ => by rw [moved, closeGap, if_pos (by omega)]

theorem closeGap_start (hi : i < n) (room : n ≤ 64) (placed : ∀ k < n, Placed files k)
    (placed' : ∀ k < n - 1, Placed files' k)
    (sizes : ∀ k, (slot files' k).size = (closeGap files i k).size) {k : Nat} (hk : k < n - 1) :
    (slot files' k).start =
      if k < i then (slot files k).start else (slot files (k + 1)).start - (slot files i).size := by
  have abut (j : Nat) (hj : j + 1 < n) :
      (slot files (j + 1)).start = (slot files j).start + (slot files j).size := (placed _ hj).abut
  induction k with
  | zero =>
    have first : (slot files 0).start = dataStart * blockSize := (placed 0 (by omega)).abut
    have first' : (slot files' 0).start = dataStart * blockSize := (placed' 0 hk).abut
    rw [first', ← first]
    split
    case isTrue => rfl
    case isFalse zero =>
      obtain rfl : i = 0 := by omega
      have next := abut 0 (by omega)
      omega
  | succ k ih =>
    have before := ih (by omega)
    have here : (slot files' (k + 1)).start = (slot files' k).start + (slot files' k).size :=
      (placed' _ hk).abut
    have size := sizes k
    have next := abut k (by omega)
    have second := abut (k + 1) (by omega)
    rw [here, before]
    unfold closeGap at size
    rcases Nat.lt_trichotomy (k + 1) i with earlier | rfl | later
    · rw [if_pos (by omega)] at size ⊢
      rw [if_pos earlier]
      omega
    · rw [if_pos (by omega)] at size ⊢
      rw [if_neg (by omega)]
      omega
    · rw [if_neg (by omega), if_neg (by omega)] at size
      rw [if_neg (by omega), if_neg (by omega)]
      omega

theorem closeGap_moved (hi : i < n) (room : n ≤ 64) (placed : ∀ k < n, Placed files k)
    (placed' : ∀ k < n - 1, Placed files' k)
    (kept : ∀ k, (slot files' k).size = (closeGap files i k).size ∧
      (slot files' k).fileName = (closeGap files i k).fileName) {j : Nat} (hj : j < n)
      (other : j ≠ i) :
    (slot files' (movedSlot i j)).size = (slot files j).size ∧
      (slot files' (movedSlot i j)).fileName = (slot files j).fileName ∧
      (slot files' (movedSlot i j)).start =
        if j < i then (slot files j).start else (slot files j).start - (slot files i).size := by
  have same := closeGap_movedSlot files room hj other
  refine ⟨by rw [(kept _).1, same], by rw [(kept _).2, same], ?_⟩
  have below : movedSlot i j < n - 1 := by
    unfold movedSlot
    grind
  rw [closeGap_start hi room placed placed' (fun k => (kept k).1) below]
  rcases Nat.lt_or_gt_of_ne other with earlier | later
  · have unmoved : movedSlot i j = j := if_pos earlier
    rw [unmoved, if_pos earlier, if_pos earlier]
  · have down : movedSlot i j = j - 1 := if_neg (by omega)
    rw [down, if_neg (by omega), if_neg (by omega), Nat.sub_add_cancel (by omega)]

/-- The data behind a deleted file has moved down by its size. -/
theorem InsideDisk.contents_moved (h : InsideDisk fs d blocks n) (hi : i < n)
    (bytes : byteAt blocks' =
      moved (byteAt blocks) (slot fs.files i).start.toNat (slot fs.files i).size.toNat)
    {j : Nat} (hj : j < n) (other : j ≠ i) {m : FsMeta} (size : m.size = (slot fs.files j).size)
    (start : m.start =
      if j < i then (slot fs.files j).start else (slot fs.files j).start - (slot fs.files i).size) :
    m.contents blocks' = (slot fs.files j).contents blocks := by
  have zero : (0 : Int) ≤ dataStart * blockSize := by decide
  have here := (h.extent hi).1
  have there := (h.extent hj).1
  have used := (h.layout.inUse i).mpr hi
  refine FsMeta.contents_congr size fun t ht => ?_
  rw [bytes, start, moved]
  rcases Nat.lt_or_gt_of_ne other with earlier | later
  · have before := h.ordered earlier hi
    rw [if_pos earlier, if_pos (by omega)]
  · have behind := h.ordered later hj
    rw [if_neg (by omega), if_neg (by omega)]
    exact congrArg (byteAt blocks) (by omega)

theorem filter_range (n m : Nat) : (List.range (n + m)).filter (fun k => k < n) = List.range n := by
  induction m with
  | zero => exact List.filter_eq_self.mpr fun k hk => by simpa using hk
  | succ m ih =>
    rw [← Nat.add_assoc, List.range_succ, List.filter_append, ih]
    simp

theorem listing_eq (room : n ≤ 64) (used : ∀ k < n, 0 ≤ (slot files k).size)
    (free : ∀ k, n ≤ k → (slot files k).size = -1) :
    listing files = (List.range n).map fun k => ((slot files k).fileName, (slot files k).size) := by
  have table : files.toList = (List.range 64).map (slot files) := by
    refine List.ext_getElem (by simp) fun k hk _ => ?_
    have inside : k < 64 := by simpa using hk
    simp [inside]
  have inUse :
      ((fun m : FsMeta => decide (m.size ≠ -1)) ∘ slot files) = fun k => decide (k < n) := by
    funext k
    have used := used k
    have free := free k
    simp only [Function.comp_apply, decide_eq_decide]
    omega
  obtain ⟨m, rest⟩ := Nat.exists_eq_add_of_le room
  rw [listing, table, List.filter_map, inUse, rest, filter_range, List.map_map]
  rfl

theorem listing_closeGap (hi : i < n) (room : n ≤ 64) (used : ∀ k < n, 0 ≤ (slot files k).size)
    (free : ∀ k, n ≤ k → (slot files k).size = -1) (used' : ∀ k < n - 1, 0 ≤ (slot files' k).size)
    (free' : ∀ k, n - 1 ≤ k → (slot files' k).size = -1)
    (kept : ∀ k, (slot files' k).size = (closeGap files i k).size ∧
      (slot files' k).fileName = (closeGap files i k).fileName) :
    listing files' = (listing files).eraseIdx i := by
  rw [listing_eq room used free, listing_eq (by omega) used' free']
  have length :
      ((List.range n).map fun k => ((slot files k).fileName, (slot files k).size)).length = n := by
    simp
  refine List.ext_getElem ?_ fun k hk _ => ?_
  · rw [List.length_eraseIdx_of_lt (by rw [length]; exact hi), length, List.length_map,
      List.length_range]
  · have inside : k < n - 1 := by simpa using hk
    rw [List.getElem_eraseIdx]
    simp only [List.getElem_map, List.getElem_range, (kept k).1, (kept k).2, closeGap]
    grind

theorem InsideDisk.deleteFile (h : InsideDisk fs d blocks n) (hi : i < n) (room : i ≤ 63)
    (buffer1 buffer2 : Block) :
    ∃ fs' blocks', deleteFile fs i room (some buffer1) (some buffer2) = some (0, fs') ∧
      fs'.disk = fs.disk.showing d blocks' ∧
      byteAt blocks' =
        moved (byteAt blocks) (slot fs.files i).start.toNat (slot fs.files i).size.toNat := by
  obtain ⟨block, offset, size, blockEq, offsetEq, sizeEq, start, few, within, inside⟩ :=
    h.position hi
  obtain ⟨blocks', shifted, bytes⟩ := shiftBlocks_drop fs.disk d blocks size within
    (show block * blockSize + offset ≤ diskBytes by omega)
    (sum_small few within inside) buffer1 buffer2
  rw [Disk.showing_self h.opened h.image, ← blockEq, ← offsetEq, ← sizeEq,
    slot_of_lt (by omega)] at shifted
  have entries := slot_gapClosed fs.files (show i + (63 - i) = 63 by omega) (by decide)
  dsimp only at entries
  obtain ⟨files', filled⟩ := fillFrom_some (show i + (64 - i) ≤ 64 by omega)
    (fun j next => by
      have same := entries j
      rw [closeGap, if_pos (by omega)] at same
      obtain ⟨first, second, third⟩ := h.bounded (show j < n by omega)
      rw [← same] at first second third
      exact ⟨first, second, third⟩)
    (fun k => by
      rw [entries, closeGap]
      split
      case isTrue => exact h.size_le k
      case isFalse =>
        split
        case isTrue => exact ⟨Int.le_refl _, (by decide : (-1 : Int) ≤ diskBytes)⟩
        case isFalse => exact h.size_le (k + 1))
  let openFiles := fs.openFiles.map fun f =>
    if (i : Int) < f.fileNum then { f with fileNum := f.fileNum - 1 } else f
  refine ⟨⟨openFiles, files', fs.disk.showing d blocks'⟩, blocks', ?_, rfl, ?_⟩
  · simp only [FileSystem.deleteFile, shifted, filled, Option.bind_eq_bind,
      Option.bind_some, openFiles]
  · rw [bytes, start, sizeEq]
    rfl

theorem fsDelete_eq (found : firstIndex (FsMeta.named name) fs.files.toList = some i) (hi : i < 64)
    (new1 new2 : Option Block) :
    fsDelete fs name new1 new2 =
      if fs.openFiles.any fun f => f.fileNum = i then some (-1, fs)
      else FileSystem.deleteFile fs i (Nat.le_of_lt_succ hi) new1 new2 := by
  rw [fsDelete, found, Option.bind_eq_bind, Option.bind_some, dif_pos (Nat.le_of_lt_succ hi)]

theorem any_open {openFiles : OpenFiles} :
    (openFiles.any fun f => f.fileNum = i) = true ↔
      ∃ k : Fin 32, (openFiles.get k).fileNum = i := by
  rw [Vector.any_eq_true]
  exact ⟨fun ⟨k, hk, same⟩ => ⟨⟨k, hk⟩, of_decide_eq_true same⟩,
    fun ⟨k, same⟩ => ⟨k, k.isLt, decide_eq_true same⟩⟩

theorem InsideDisk.deleted (h : InsideDisk fs d blocks n) (hi : i < n)
    (disk : fs'.disk = fs.disk.showing d blocks')
    (moved : ∀ k, slot between k = closeGap fs.files i k)
    (filled : fillFrom between (64 - i) i = some fs'.files) :
    InsideDisk fs' d blocks' (n - 1) ∧ (∀ k < n - 1, Placed fs'.files k) ∧
      ∀ k, (slot fs'.files k).size = (closeGap fs.files i k).size ∧
        (slot fs'.files k).fileName = (closeGap fs.files i k).fileName := by
  have room := h.layout.room
  have used (k : Nat) (hk : k < n) := (h.layout.inUse k).mpr hk
  have old (k : Nat) (hk : k < n) := h.layout.placed hk
  have placed := closeGap_placed hi room used old moved filled
  have kept (k : Nat) : (slot fs'.files k).size = (closeGap fs.files i k).size ∧
      (slot fs'.files k).fileName = (closeGap fs.files i k).fileName := by
    rw [← moved]
    exact fillFrom_frame filled k
  have sizes (k : Nat) := (kept k).1
  have free (k : Nat) (hk : n - 1 ≤ k) : (slot fs'.files k).size = -1 := by
    rw [sizes, closeGap, if_neg (by omega)]
    split
    case isTrue => rfl
    case isFalse => exact h.free (k + 1) (by omega)
  have used' (k : Nat) (hk : k < n - 1) : 0 ≤ (slot fs'.files k).size := by
    have below := used k (by omega)
    have behind := used (k + 1) (by omega)
    rw [sizes, closeGap]
    grind
  have inUse (k : Nat) : 0 ≤ (slot fs'.files k).size ↔ k < n - 1 := by
    refine ⟨fun size => ?_, used' k⟩
    by_contra beyond
    rw [free k (by omega)] at size
    exact absurd size (by decide)
  have layout := Layout.of_placed inUse placed
  have inside (k : Nat) (hk : k < n - 1) :
      (slot fs'.files k).start + (slot fs'.files k).size ≤ diskBytes := by
    rw [closeGap_start hi room old placed sizes hk, sizes, closeGap]
    have gone := used i hi
    split
    case isTrue => exact (h.extent (by omega)).2
    case isFalse =>
      rw [if_neg (by omega)]
      have behind := (h.extent (show k + 1 < n by omega)).2
      omega
  exact ⟨⟨by rw [disk]; rfl, by rw [disk]; exact Disk.showing_host, layout, free,
    layout.inside inside⟩, placed, kept⟩

/-- `fs_delete` removes exactly the file it finds, unless a descriptor has it open. -/
theorem fsDelete_removes (h : InsideDisk fs d blocks n)
    (found : firstIndex (FsMeta.named name) fs.files.toList = some i) (used : i < n) :
    ((∃ k : Fin 32, fs.openFiles[k].fileNum = i) →
      ∀ new1 new2, fsDelete fs name new1 new2 = some (-1, fs)) ∧
    ((∀ k : Fin 32, fs.openFiles[k].fileNum ≠ i) → ∀ buffer1 buffer2, ∃ fs' blocks',
      fsDelete fs name (some buffer1) (some buffer2) = some (0, fs') ∧
      InsideDisk fs' d blocks' (n - 1) ∧
      listing fs'.files = (listing fs.files).eraseIdx i ∧
      (∀ j < n, j ≠ i →
        (slot fs'.files (movedSlot i j)).fileName = (slot fs.files j).fileName ∧
        (slot fs'.files (movedSlot i j)).contents blocks' = (slot fs.files j).contents blocks) ∧
      ∀ (k : Fin 32) (j : Nat), fs.openFiles[k].fileNum = j → j < n → j ≠ i ∧
        fs'.openFiles[k].fileNum = movedSlot i j ∧
        fs'.openFiles[k].offset = fs.openFiles[k].offset) := by
  have room := h.layout.room
  have below : i < 64 := used.trans_le room
  constructor
  · intro opened new1 new2
    rw [fsDelete_eq found below, if_pos (any_open.mpr opened)]
  · intro closed buffer1 buffer2
    obtain ⟨fs', blocks', deleted, disk, bytes⟩ :=
      h.deleteFile used (Nat.le_of_lt_succ below) buffer1 buffer2
    obtain ⟨between, -, moved, filled, openFiles⟩ := deleteFile_eq deleted
    obtain ⟨inside, placed, kept⟩ := h.deleted used disk moved filled
    have shut : ¬(fs.openFiles.any fun f => f.fileNum = i) = true :=
      fun opened => (any_open.mp opened).elim fun k same => closed k same
    refine ⟨fs', blocks', ?_, inside, ?_, fun j hj other => ?_, fun k j number hj => ?_⟩
    · rw [fsDelete_eq found below, if_neg shut, deleted]
    · exact listing_closeGap used room (fun k => (h.layout.inUse k).mpr) h.free
        (fun k => (inside.layout.inUse k).mpr) inside.free kept
    · obtain ⟨size, name, start⟩ :=
        closeGap_moved used room (fun k => h.layout.placed) placed kept hj other
      exact ⟨name, h.contents_moved used bytes hj other size start⟩
    · have other : j ≠ i := fun same => closed k (number.trans (by rw [same]))
      refine ⟨other, ?_⟩
      have here : fs'.openFiles[k] = if (i : Int) < fs.openFiles[k].fileNum then
          { fs.openFiles[k] with fileNum := fs.openFiles[k].fileNum - 1 } else fs.openFiles[k] := by
        simp [openFiles]
      rw [here, number, movedSlot]
      split
      case isTrue later =>
        rw [if_neg (by omega)]
        exact ⟨by dsimp only; omega, rfl⟩
      case isFalse =>
        rw [if_pos (by omega)]
        exact ⟨number, rfl⟩

theorem fsDelete_removes_twoFiles : ∃ fs' blocks',
    fsDelete (twoFiles (threeOpen 1 (-1) (-1) 0)) nameA (some zeroBlock) (some zeroBlock) =
      some (0, fs') ∧
    InsideDisk fs' nameA blocks' 1 ∧ ∃ f, load fs'.openFiles 0 = some f ∧ f.fileNum = 0 := by
  have found : firstIndex (FsMeta.named nameA) (twoFiles (threeOpen 1 (-1) (-1) 0)).files.toList =
      some 0 := by
    decide +kernel
  have closed :
      ∀ k : Fin 32, (twoFiles (threeOpen 1 (-1) (-1) 0)).openFiles[k].fileNum ≠ (0 : Nat) := by
    decide +kernel
  obtain ⟨fs', blocks', deleted, inside, -, -, descriptors⟩ :=
    (fsDelete_removes (twoFiles_inside _) found (by decide)).2 closed zeroBlock zeroBlock
  exact ⟨fs', blocks', deleted, inside, _, load_of_lt _ (show 0 < 32 by decide),
    (descriptors 0 1 rfl (by decide)).2.1⟩

end LastPicked.FileSystem
