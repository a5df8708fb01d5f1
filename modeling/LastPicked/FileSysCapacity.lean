import LastPicked.FileSysDescriptors

/-! How much the files take. `fs_write` lets the last file grow without a look
at the end of the disk, and does not notice that `block_write` fails there. -/

namespace LastPicked.FileSystem
open CIntegers CMemory EndToEnd Finset FlatBlocks LabelledRuns

variable {fs fs' mounted : FileSys} {files files' : Files} {n : Nat} {r : Int}

/-- The files in the first `n` slots follow each other, up to gaps, and lie
inside the disk. -/
structure Apart (files : Files) (n : Nat) : Prop where
  used : ∀ k < n, 0 ≤ (slot files k).size
  follow : ∀ k < n, Follows (dataStart * blockSize) (fun k => (slot files k).start)
    (fun k => (slot files k).size) k
  offset : ∀ k < n, 0 ≤ (slot files k).offset ∧ (slot files k).offset ≤ blockSize
  inside : ∀ k < n, (slot files k).start + (slot files k).size ≤ diskBytes

namespace Apart

theorem fill (apart : Apart files n) {c i : Nat} (h : fillFrom files c i = some files')
    (covers : n ≤ i + c) : Apart files' n := by
  have sizes (k : Nat) := (fillFrom_frame h k).1
  have size : (fun k => (slot files' k).size) = fun k => (slot files k).size := funext sizes
  have same (k : Nat) (before : k < i) : slot files' k = slot files k :=
    fillFrom_outside h (.inl before)
  have placed := fillFrom_inside h apart.used fun j _ hj => (apart.offset j hj).1
  have starts (k : Nat) (before : k < i) : (slot files' k).start = (slot files k).start := by
    rw [same k before]
  have abut (k : Nat) (hk : k < n) (behind : i ≤ k) : Abuts (dataStart * blockSize)
      (fun k => (slot files' k).start) (fun k => (slot files k).size) k := by
    rw [← size]
    exact (placed k hk behind (by omega)).abut
  refine ⟨fun k hk => ?_, fun k hk => ?_, fun k hk => ?_, fun k hk => ?_⟩
  · exact (apart.used k hk).trans_eq (sizes k).symm
  · rw [size]
    exact Follows.push apart.follow starts abut hk
  · rcases Nat.lt_or_ge k i with before | behind
    · rw [same k before]
      exact apart.offset k hk
    · exact (placed k hk behind (by omega)).offset
  · have back := start_mono apart.follow starts abut hk
    have old := apart.inside k hk
    rw [sizes]
    omega

theorem set_size (apart : Apart files n) {i : Nat} (hi : i < 64) {size : Int} (low : 0 ≤ size)
    (next : size ≤ files[i].size ∨ n = i + 1) (inside : files[i].start + size ≤ diskBytes) :
    Apart (files.set i { files[i] with size }) n := by
  have entry := slot_set files i hi { files[i] with size }
  have start (k : Nat) :
      (slot (files.set i { files[i] with size }) k).start = (slot files k).start := by
    rw [entry]
    split
    case isTrue here =>
      subst here
      rw [slot_of_lt hi]
      rfl
    case isFalse => rfl
  have position (k : Nat) :
      (slot (files.set i { files[i] with size }) k).offset = (slot files k).offset := by
    rw [entry]
    split
    case isTrue here =>
      subst here
      rw [slot_of_lt hi]
    case isFalse => rfl
  refine ⟨fun k hk => ?_, fun k hk => ?_, fun k hk => ?_, fun k hk => ?_⟩
  · rw [entry]
    split
    case isTrue => exact low
    case isFalse => exact apart.used k hk
  · have old := apart.follow k hk
    cases k with
    | zero => exact old.trans_eq (start 0).symm
    | succ k =>
      simp only [Follows, start] at old ⊢
      rw [entry]
      split
      case isTrue here =>
        subst here
        rw [slot_of_lt hi] at old ⊢
        dsimp only
        omega
      case isFalse => exact old
  · rw [position]
    exact apart.offset k hk
  · rw [start, entry]
    split
    case isTrue here =>
      subst here
      rwa [slot_of_lt hi]
    case isFalse => exact apart.inside k hk

theorem remove (apart : Apart files n) {i : Nat} (room : n ≤ 63) {between : Files}
    (moved : ∀ k, slot between k = closeGap files i k) :
    Apart between (if i < n then n - 1 else n) := by
  have entry (k : Nat) (hk : k < if i < n then n - 1 else n) :
      slot between k = if k < i then slot files k else slot files (k + 1) := by
    rw [moved, closeGap]
    grind
  have within (k : Nat) (hk : k < if i < n then n - 1 else n) :
      0 ≤ (slot between k).size ∧ 0 ≤ (slot between k).offset ∧
        (slot between k).offset ≤ blockSize ∧
        (slot between k).start + (slot between k).size ≤ diskBytes := by
    rw [entry k hk]
    split
    case isTrue => exact ⟨apart.used k (by grind), (apart.offset k (by grind)).1,
      (apart.offset k (by grind)).2, apart.inside k (by grind)⟩
    case isFalse => exact ⟨apart.used _ (by grind), (apart.offset _ (by grind)).1,
      (apart.offset _ (by grind)).2, apart.inside _ (by grind)⟩
  refine ⟨fun k hk => (within k hk).1, fun k hk => ?_, fun k hk =>
    ⟨(within k hk).2.1, (within k hk).2.2.1⟩, fun k hk => (within k hk).2.2.2⟩
  have follow (j : Nat) (hj : j + 1 < n) :
      (slot files j).start + (slot files j).size ≤ (slot files (j + 1)).start := apart.follow _ hj
  cases k with
  | zero =>
    simp only [Follows, entry 0 hk]
    have first : (dataStart : Int) * blockSize ≤ (slot files 0).start := apart.follow 0 (by grind)
    split
    case isTrue => exact first
    case isFalse =>
      have next := follow 0 (by grind)
      have size := apart.used 0 (by grind)
      omega
  | succ k =>
    simp only [Follows, entry (k + 1) hk, entry k (by omega)]
    have here := follow k (by grind)
    rcases Nat.lt_trichotomy (k + 1) i with before | last | behind
    · rw [if_pos (by omega), if_pos before]
      exact here
    · rw [if_pos (by omega), if_neg (by omega)]
      have next := follow (k + 1) (by grind)
      have size := apart.used (k + 1) (by grind)
      omega
    · rw [if_neg (by omega), if_neg (by omega)]
      exact follow (k + 1) (by grind)

theorem append (apart : Apart files n) {between : Files}
    (fill : fillBlockAndOffset files n = some between)
    (same : ∀ k < n, slot files' k = slot files k)
    (block : (slot files' n).block = (slot between n).block)
    (offset : (slot files' n).offset = (slot between n).offset) (size : (slot files' n).size = 0) :
    Apart files' (n + 1) := by
  have kept := (fillBlockAndOffset_frame fill).1
  have placed := fillBlockAndOffset_placed fill fun j next =>
    ⟨apart.used j (by omega), (apart.offset j (by omega)).1⟩
  have start : (slot files' n).start = (slot between n).start := by
    rw [FsMeta.start, FsMeta.start, block, offset]
  have follow : Follows (dataStart * blockSize) (fun k => (slot files' k).start)
      (fun k => (slot files' k).size) n := by
    have abut := placed.abut.follows
    cases n with
    | zero => exact abut.trans_eq start.symm
    | succ j =>
      simp only [Follows] at abut ⊢
      rw [start, same j (Nat.lt_succ_self j), ← kept j (by omega)]
      exact abut
  have last : (slot files' n).start + (slot files' n).size ≤ diskBytes := by
    have abut := placed.abut
    rw [size, start]
    cases n with
    | zero =>
      have first : (slot between 0).start = dataStart * blockSize := abut
      rw [first]
      decide
    | succ j =>
      have before := apart.inside j (Nat.lt_succ_self j)
      have here : (slot between (j + 1)).start = (slot between j).start + (slot between j).size :=
        abut
      rw [kept j (by omega)] at here
      omega
  refine ⟨fun k hk => ?_, fun k hk => ?_, fun k hk => ?_, fun k hk => ?_⟩ <;>
    rcases Nat.lt_succ_iff_lt_or_eq.mp hk with before | rfl
  · rw [same k before]
    exact apart.used k before
  · exact ge_of_eq size
  · have old := apart.follow k before
    cases k with
    | zero =>
      simp only [Follows] at old ⊢
      rwa [same 0 before]
    | succ k =>
      simp only [Follows] at old ⊢
      rwa [same (k + 1) before, same k (by omega)]
  · exact follow
  · rw [same k before]
    exact apart.offset k before
  · rw [offset]
    exact placed.offset
  · rw [same k before]
    exact apart.inside k before
  · exact last

end Apart

structure Fitting (fs : FileSys) (n : Nat) : Prop where
  tabled : Tabled fs n
  room : n ≤ 63
  apart : Apart fs.files n

/-- A call of `fs_write` that is not refused goes to a file, and ends on the disk. -/
def Call.Fits (fs : FileSys) : Call → Prop
  | .fsWrite fildes data new => ∀ f m, load fs.openFiles fildes = some f →
      load fs.files f.fileNum = some m → new ≠ none → growsInto fs f m data.length = some false →
      m.size ≠ -1 ∧ m.start + f.offset + data.length ≤ diskBytes
  | _ => True

namespace Fitting

theorem of_same (fitting : Fitting fs n) {m : Nat} (tabled : Tabled fs' m)
    (same : fs'.files = fs.files) : Fitting fs' m := by
  have listed := tabled.listed
  rw [same] at listed
  obtain rfl := fitting.tabled.listed.eq listed
  exact ⟨tabled, fitting.room, by rw [same]; exact fitting.apart⟩

theorem create (fitting : Fitting fs n) {m : Nat} (tabled : Tabled fs' m) {name : CString}
    (h : fsCreate fs name = some (r, fs')) : Fitting fs' m := by
  rcases fitting.tabled.listed.create h with ⟨rfl, -⟩ |
    ⟨files, -, room, fill, -, -, -, entries, listed⟩
  · exact fitting.of_same tabled rfl
  · obtain rfl := listed.eq tabled.listed
    have here := entries n
    rw [if_pos rfl] at here
    refine ⟨tabled, room, fitting.apart.append fill (fun k hk => ?_) ?_ ?_ ?_⟩
    · rw [entries, if_neg (by omega)]
    · rw [here, FsMeta.setName_block]
    · rw [here, FsMeta.setName_offset]
    · rw [here, FsMeta.setName_size]

theorem delete (fitting : Fitting fs n) {m : Nat} (tabled : Tabled fs' m) {name : CString}
    {new1 new2 : Option Block} (h : fsDelete fs name new1 new2 = some (r, fs')) :
    Fitting fs' m := by
  rcases fsDelete_cases h with ⟨rfl, -⟩ | ⟨i, hi, -, -, h⟩
  · exact fitting.of_same tabled rfl
  · have room := fitting.room
    obtain ⟨files, -, moved, filled, -⟩ := deleteFile_eq h
    obtain rfl := (fitting.tabled.listed.deleteFile h).2.eq tabled.listed
    exact ⟨tabled, by grind, (fitting.apart.remove room moved).fill filled (by grind)⟩

theorem write (fitting : Fitting fs n) {m : Nat} (tabled : Tabled fs' m) {fildes : Int}
    {data : List UInt8} {new : Option Block} (fits : (Call.fsWrite fildes data new).Fits fs)
    (h : fsWrite fs fildes data new = some (r, fs')) : Fitting fs' m := by
  rcases fitting.tabled.listed.write fitting.tabled.opened h with ⟨rfl, -⟩ |
    ⟨k, i, hk, hi, size, rfl, rfl, number, -, grown, last, -, files, listed⟩
  · exact fitting.of_same tabled rfl
  · have found := load_of_lt fs.openFiles hk
    have file := load_of_lt fs.files hi
    rw [← number] at file
    obtain ⟨given, checked⟩ :=
      (fsWrite_done_iff h found file).mp (show (data.length : Int) ≠ -1 by omega)
    obtain ⟨used, inside⟩ := fits _ _ found file given checked
    rw [← slot_of_lt hi] at used
    have here := fitting.tabled.listed.lt_of_size used
    have low := fitting.tabled.listed.used i here
    have old := fitting.apart.inside i here
    rw [slot_of_lt hi] at low old
    rw [if_pos (.inl here)] at listed
    obtain rfl := listed.eq tabled.listed
    refine ⟨tabled, fitting.room, ?_⟩
    rw [files]
    refine fitting.apart.set_size hi (by omega) ?_ (by omega)
    rcases Int.lt_or_le fs.files[i].size size with larger | same
    · exact .inr (last here larger)
    · exact .inl same

theorem truncate (fitting : Fitting fs n) {m : Nat} (tabled : Tabled fs' m) {fildes length : Int}
    {new1 new2 : Option Block} (h : fsTruncate fs fildes length new1 new2 = some (r, fs')) :
    Fitting fs' m := by
  rcases fsTruncate_cases h with ⟨rfl, -⟩ | ⟨k, i, hk, hi, rfl, number, low, high, cut⟩
  · exact fitting.of_same tabled rfl
  · have room := fitting.room
    have listed := fitting.tabled.listed
    rw [← slot_of_lt hi] at high
    have here := listed.lt_of_size (show (slot fs.files i).size ≠ -1 by omega)
    have sized := listed.sized i here
    have old := fitting.apart.inside i here
    rw [slot_of_lt hi] at high sized old
    obtain ⟨-, filled, -⟩ := truncateFile_eq number cut
    rw [toInt_of_range (show intMin ≤ length by unfold intMin; omega) (by omega)] at filled
    rcases listed.truncate h with ⟨rfl, -⟩ | ⟨-, -, -, -, -, -, -, -, -, -, -, listed'⟩
    · exact fitting.of_same tabled rfl
    · obtain rfl := listed'.eq tabled.listed
      have set := fitting.apart.set_size hi low (.inl high) (by omega)
      exact ⟨tabled, room, set.fill filled (by omega)⟩

theorem step (fitting : Fitting fs n) {c : Call} (fits : c.Fits fs) (h : Step fs c fs') :
    ∃ m, Fitting fs' m := by
  obtain ⟨m, tabled⟩ := fitting.tabled.step h
  refine ⟨m, ?_⟩
  obtain ⟨r, h⟩ := h
  cases c with
  | fsOpen name =>
    rcases fsOpen_cases h with ⟨rfl, -⟩ | ⟨k, i, hk, hi, -, -, -, rfl⟩ <;>
      exact fitting.of_same tabled rfl
  | fsClose fildes =>
    rcases fsClose_cases h with
      ⟨rfl, -⟩ | ⟨k, hk, -, -, -, rfl⟩ <;> exact fitting.of_same tabled rfl
  | fsCreate name => exact fitting.create tabled h
  | fsDelete name new1 new2 => exact fitting.delete tabled h
  | fsRead fildes nbyte new =>
    obtain ⟨⟨r, bytes, fs'⟩, h, same⟩ := Option.bind_eq_some_iff.mp h
    cases same
    rcases fsRead_cases h with ⟨rfl, -⟩ | ⟨k, i, hk, -, -, -, -, rfl⟩ <;>
      exact fitting.of_same tabled rfl
  | fsWrite fildes data new => exact fitting.write tabled fits h
  | fsGetFilesize fildes =>
    obtain ⟨size, -, same⟩ := Option.map_eq_some_iff.mp h
    cases same
    exact fitting.of_same tabled rfl
  | fsLseek fildes offset =>
    rcases fsLseek_cases h with ⟨rfl, -⟩ | ⟨k, i, hk, hi, -, -, -, -, rfl⟩ <;>
      exact fitting.of_same tabled rfl
  | fsTruncate fildes length new1 new2 => exact fitting.truncate tabled h

end Fitting

def usedBytes (files : Files) : Int :=
  ∑ k ∈ (range 64).filter fun k => (slot files k).size ≠ -1, (slot files k).size

theorem Listed.usedBytes_eq (listed : Listed files n) :
    usedBytes files = ∑ k ∈ range n, (slot files k).size := by
  have inUse : (range 64).filter (fun k => (slot files k).size ≠ -1) = range n := by
    ext k
    have room := listed.room
    rw [mem_filter, mem_range, mem_range]
    constructor
    · exact fun ⟨_, used⟩ => listed.lt_of_size used
    · intro hk
      have used := listed.used k hk
      exact ⟨by omega, by omega⟩
  rw [usedBytes, inUse]

/-- Behind `DATA_START` there is room for all the files. -/
theorem Fitting.usedBytes_le (fitting : Fitting fs n) :
    usedBytes fs.files ≤ (diskBlocks - dataStart : Nat) * blockSize := by
  have data : (dataStart * blockSize : Int) + (diskBlocks - dataStart : Nat) * blockSize =
      diskBytes := by
    decide
  rw [fitting.tabled.listed.usedBytes_eq]
  cases n with
  | zero =>
    rw [range_zero, sum_empty]
    decide
  | succ m =>
    have start := sum_le_start fitting.apart.follow (Nat.lt_succ_self m)
    have last := fitting.apart.inside m (Nat.lt_succ_self m)
    rw [sum_range_succ]
    omega

/-- The bytes of a write are on the disk, at their positions in the file. -/
def Stored (fs fs' : FileSys) (f : OpenFile) (i : Nat) (data : List UInt8) : Prop :=
  ∃ d blocks', fs'.disk.handle = some d ∧ fs'.disk.host d = some blocks' ∧
    ∀ t (ht : t < data.length),
      byteAt blocks' ((slot fs.files i).start + f.offset + t).toNat = data[t]

theorem writeLoop_nonneg {b : UInt8} {rest : List UInt8} {d : Disk} {count block pos : Int}
    {buffer : Block} {result : Disk × Int × Int × Block}
    (h : writeLoop (b :: rest) d count block pos buffer = some result) : 0 ≤ pos := by
  obtain ⟨⟨d', block', pos', buffer'⟩, turn, h⟩ := Option.bind_eq_some_iff.mp h
  obtain ⟨buffer'', stored, -⟩ := Option.bind_eq_some_iff.mp h
  obtain ⟨j, -, same, -⟩ := store_eq_some.mp stored
  unfold writeTurn at turn
  split at turn
  case isTrue full => omega
  case isFalse =>
    cases turn
    omega

theorem Fitting.stored (fitting : Fitting fs n) {d : CString} {blocks : Image}
    (opened : fs.disk.handle = some d) (image : fs.disk.host d = some blocks) {k i : Nat}
    {hk : k < 32} {data : List UInt8} {new : Option Block} (number : fs.openFiles[k].fileNum = i)
    (fits : (Call.fsWrite k data new).Fits fs) (h : fsWrite fs k data new = some (r, fs'))
    (done : 0 ≤ r) : Stored fs fs' fs.openFiles[k] i data := by
  obtain ⟨blocks', disk⟩ := (fsWrite_rewritten h).opened opened image
  cases data with
  | nil =>
      exact ⟨d, blocks', by rw [disk, Disk.showing_handle], by rw [disk, Disk.showing_host], nofun⟩
  | cons b rest =>
    have found := load_of_lt fs.openFiles hk
    have hi : i < 64 := by
      rcases fsWrite_cases h with ⟨-, failed⟩ | ⟨k', i', hk', hi', same, -, number', -⟩
      · omega
      · obtain rfl : k = k' := Int.ofNat_inj.mp same
        omega
    have file := load_of_lt fs.files hi
    rw [← number] at file
    obtain ⟨given, checked⟩ := (fsWrite_done_iff h found file).mp (by omega)
    obtain ⟨used, inside⟩ := fits _ _ found file given checked
    rw [← slot_of_lt hi] at used
    have here := fitting.tabled.listed.lt_of_size used
    obtain ⟨low, high⟩ := fitting.apart.offset i here
    have first : dataStart * blockSize ≤ (slot fs.files i).start := by
      have start := sum_le_start fitting.apart.follow here
      have before := sum_nonneg fun j (hj : j ∈ range i) =>
        fitting.apart.used j ((mem_range.mp hj).trans here)
      omega
    obtain ⟨buffer, block, pos, d', block', buffer', rfl, carried, loop, -⟩ :=
      @fsWrite_disk fs fs' r k i hk hi _ _ number h (by omega)
    have nonneg := writeLoop_nonneg loop
    obtain ⟨kept, -⟩ := carry_spec carried
    have forth := carry_block carried
    rw [slot_of_lt hi] at low high first
    have position : 0 ≤ fs.files[i].offset + fs.openFiles[k].offset := by
      unfold blockSize at kept
      omega
    obtain ⟨s, place⟩ :=
        Int.eq_ofNat_of_zero_le (show 0 ≤ fs.files[i].start + fs.openFiles[k].offset by
      unfold dataStart diskBlocks blockSize at *
      omega)
    obtain ⟨blocks'', disk', bytes⟩ :=
      @fsWrite_bytes fs fs' r d blocks k i hk hi _ s buffer opened image
      number position place (by omega) h (by omega)
    refine ⟨d, blocks'', by rw [disk', Disk.showing_handle], by rw [disk', Disk.showing_host],
      fun t ht => ?_⟩
    rw [slot_of_lt hi, place]
    have at_s : ((s : Int) + t).toNat = s + t := by omega
    rw [at_s, bytes _ (by omega), written_inside ht]

theorem run_capacity {calls : List Call} (start : Mounted mounted)
    (run : Run (fun s c t => c.Fits s ∧ Step s c t) mounted calls fs) :
    usedBytes fs.files ≤ (diskBlocks - dataStart : Nat) * blockSize ∧
      ∀ (k i : Nat) data new r fs' (hk : k < 32), fs.openFiles[k].fileNum = i →
        (Call.fsWrite k data new).Fits fs → fsWrite fs k data new = some (r, fs') → 0 ≤ r →
        Stored fs fs' fs.openFiles[k] i data := by
  obtain ⟨n, fitting⟩ : ∃ n, Fitting fs n := run.invariant (fun s => ∃ n, Fitting s n)
    ⟨0, start.tabled, by decide, nofun, nofun, nofun, nofun⟩
    fun _ _ _ ⟨_, fitting⟩ ⟨fits, step⟩ => fitting.step fits step
  obtain ⟨d, blocks, opened, image⟩ := run_opened start (run.mono fun _ _ _ h => h.2)
  exact ⟨fitting.usedBytes_le, fun k i data new r fs' hk number fits h done =>
    fitting.stored opened image number fits h done⟩

section

theorem writeTurn_some (d : Disk) {block : Int} {pos : Nat} (buffer : Block) (first : 0 ≤ block)
    (within : pos ≤ blockSize) (small : block + 1 ≤ intMax) :
    ∃ (d' : Disk) (block' : Int) (pos' : Nat) (buffer' : Block),
      writeTurn d block pos buffer = some (d', block', (pos' : Int), buffer') ∧ 0 ≤ block' ∧
        pos' < blockSize ∧ block' ≤ block + 1 := by
  by_cases full : pos = blockSize
  · have next : addInt block 1 = some (block + 1) :=
      addInt_eq_some.mpr ⟨rfl, by unfold intMin; omega, small⟩
    have turn : writeTurn d block pos buffer = some ((blockWrite d block buffer).2, block + 1,
        ((0 : Nat) : Int), (blockRead (blockWrite d block buffer).2 (block + 1) buffer).2) := by
      rw [full, writeTurn, if_pos rfl, next]
      rfl
    exact ⟨_, _, _, _, turn, by omega, by decide, Int.le_refl _⟩
  · have inside : (pos : Int) ≠ blockSize := by omega
    exact ⟨d, block, pos, buffer, if_neg inside, first, by omega, by omega⟩

theorem writeLoop_some (data : List UInt8) {d : Disk} {count block : Int} {pos : Nat}
    {buffer : Block} (first : 0 ≤ block) (within : pos ≤ blockSize)
    (blocks : block + data.length ≤ intMax) (low : 0 ≤ count)
    (counts : count + data.length ≤ intMax) :
    ∃ result, writeLoop data d count block pos buffer = some result := by
  induction data generalizing d count block pos buffer with
  | nil => exact ⟨_, rfl⟩
  | cons b rest ih =>
    rw [List.length_cons] at blocks counts
    obtain ⟨d', block', pos', buffer', turn, first', within', upto⟩ :=
      writeTurn_some d buffer first within (show block + 1 ≤ intMax by omega)
    have counted : addInt count 1 = some (count + 1) :=
      addInt_eq_some.mpr ⟨rfl, by unfold intMin; omega, by omega⟩
    obtain ⟨result, loop⟩ :=
      @ih d' (count + 1) block' (pos' + 1) (buffer'.set pos' b) first' (by omega)
      (by omega) (by omega) (by omega)
    refine ⟨result, ?_⟩
    simp only [writeLoop, turn, store_of_lt _ within', counted, Option.bind_eq_bind,
      Option.bind_some]
    exact loop

theorem fsWrite_opened (disk : Disk) {data : List UInt8} (given : 0 < data.length)
    (small : dataStart + data.length ≤ intMax) :
    ∃ fs', fsWrite (openedAt 0 disk) 0 data (some zeroBlock) = some ((data.length : Int), fs') ∧
      (slot fs'.files 0).size = data.length := by
  have zero : (0 : Int) ≤ dataStart := Int.natCast_nonneg _
  obtain ⟨⟨disk', count, block', buffer'⟩, loop⟩ :=
    @writeLoop_some data disk 0 dataStart 0 zeroBlock
    zero (Nat.zero_le _) small (Int.le_refl 0) (by omega)
  obtain ⟨total, -⟩ := writeLoop_count loop (by decide)
  rw [Int.zero_add] at total
  subst total
  have found : load (openedAt 0 disk).openFiles 0 = some ⟨0, 0⟩ := rfl
  have file : load (openedAt 0 disk).files 0 = some (entry nameA 0 0) := rfl
  have grows : growsInto (openedAt 0 disk) ⟨0, 0⟩ (entry nameA 0 0) data.length = some false := by
    have next : load (openedAt 0 disk).files 1 = some FsMeta.zero.fresh := rfl
    have size : (entry nameA 0 0).size = 0 := rfl
    have zero : toSize 0 = 0 := rfl
    have longer : 0 < (0 + data.length) % 2 ^ 64 := by
      unfold intMax at small
      omega
    rw [growsInto, size, zero, if_pos ⟨by decide, longer⟩, Int.zero_add, next]
    rfl
  have carried : carry (blockSize - 1) (entry nameA 0 0).block 0 = some ((dataStart : Int), 0) :=
    carry_of_le (Int.natCast_nonneg _)
  have moved : addInt 0 data.length = some (data.length : Int) :=
    addInt_eq_some.mpr ⟨(Int.zero_add _).symm, by unfold intMin; omega, by omega⟩
  have stored (f : OpenFile) : store (openedAt 0 disk).openFiles 0 f =
      some ((openedAt 0 disk).openFiles.set 0 f) := store_of_lt _ (show 0 < 32 by decide) f
  have sized (m : FsMeta) :
      store (openedAt 0 disk).files 0 m = some ((openedAt 0 disk).files.set 0 m) :=
    store_of_lt _ (show 0 < 64 by decide) m
  have start : addInt (entry nameA 0 0).offset 0 = some 0 := rfl
  rw [fsWrite, found]
  simp only [Option.bind_eq_bind, Option.bind_some, file, start, grows, carried, stored, sized]
  have looped : writeLoop data (openedAt 0 disk).disk 0 dataStart 0 zeroBlock =
      some (disk', (data.length : Int), block', buffer') := loop
  rw [if_neg Bool.false_ne_true, looped, Option.bind_some, moved]
  refine ⟨_, rfl, ?_⟩
  rw [slot_set, if_pos rfl]
  exact if_pos (show (0 : Int) < data.length by omega)

theorem run_capacity_opened :
    ∃ disk fs', fsWrite (openedAt 0 disk) 0 [7] (some zeroBlock) = some (1, fs') ∧
    usedBytes fs'.files ≤ (diskBlocks - dataStart : Nat) * blockSize ∧
    Stored (openedAt 0 disk) fs' ⟨0, 0⟩ 0 [7] := by
  obtain ⟨mounted, disk, start, run⟩ := run_openedAt
  obtain ⟨fs', written, -⟩ :=
    fsWrite_opened disk (show 0 < [(7 : UInt8)].length by decide) (by decide)
  have fits : (Call.fsWrite 0 [7] (some zeroBlock)).Fits (openedAt 0 disk) := by
    intro f m found file _ _
    obtain rfl := Option.some.inj found
    obtain rfl := Option.some.inj file
    exact ⟨show (0 : Int) ≠ -1 by decide,
      show (entry nameA 0 0).start + 0 + ([(7 : UInt8)].length : Int) ≤ diskBytes by decide⟩
  have before := run (fun s c => c.Fits s) (fun _ => trivial) fun _ => trivial
  have after := run_capacity start (before.snoc ⟨fits, 1, written⟩)
  exact ⟨disk, fs', written, after.1,
    (run_capacity start before).2 0 0 [7] (some zeroBlock) 1 fs' (by decide) rfl
    fits written (by decide)⟩

/-- A file of one byte more than there is room for. -/
theorem capacity_exceeded : ¬∀ mounted calls fs, Mounted mounted →
    Run (fun s c t => c.OnOpen s ∧ Step s c t) mounted calls fs →
    usedBytes fs.files ≤ (diskBlocks - dataStart : Nat) * blockSize := by
  intro bounded
  obtain ⟨mounted, disk, start, run⟩ := run_openedAt
  obtain ⟨data, length⟩ : ∃ data : List UInt8, data.length = 2 ^ 24 + 1 :=
    ⟨List.replicate (2 ^ 24 + 1) 0, List.length_replicate⟩
  obtain ⟨fs', written, size⟩ := fsWrite_opened disk (show 0 < data.length by omega) (by
    rw [length]
    decide)
  have opened := run (fun s c => c.OnOpen s) (fun _ => trivial) fun _ => trivial
  have onOpen : Call.OnOpen (openedAt 0 disk) (.fsWrite 0 data (some zeroBlock)) :=
    ⟨⟨0, 0⟩, rfl, by decide⟩
  have last : Step (openedAt 0 disk) (.fsWrite 0 data (some zeroBlock)) fs' := ⟨_, written⟩
  have total := bounded mounted _ fs' start (opened.snoc ⟨onOpen, last⟩)
  obtain ⟨n, tabled⟩ := run_tabled start ((opened.mono fun _ _ _ h => h.2).snoc last)
  have here := (tabled.listed.inUse 0).mp (by omega)
  have first :=
    single_le_sum (fun j hj => tabled.listed.used j (mem_range.mp hj)) (mem_range.mpr here)
  rw [tabled.listed.usedBytes_eq] at total
  have room : ((diskBlocks - dataStart : Nat) : Int) * blockSize = 2 ^ 24 := by decide
  omega

end

end LastPicked.FileSystem
