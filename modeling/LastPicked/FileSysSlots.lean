import LastPicked.EndToEnd
import LastPicked.FileSysMount

/-! Where the files lie. A slot is in its place when it starts where the slot
before it ends, and `fillBlockAndOffset` puts one slot into its place, given
that the slot before it is in its own. -/

namespace LastPicked.FileSystem
open CIntegers CMemory EndToEnd

def FsMeta.start (m : FsMeta) : Int := m.block * blockSize + m.offset

def slot (files : Files) (k : Nat) : FsMeta := files[k]?.getD FsMeta.zero.fresh

variable {files files' : Files} {k n : Nat}

@[simp] theorem slot_of_lt (h : k < 64) : slot files k = files[k] := by simp [slot, h]

theorem slot_of_ge (h : 64 ≤ k) : (slot files k).Unused := by
  simpa [slot, Nat.not_lt.mpr h] using FsMeta.fresh_unused _

theorem slot_set (files : Files) (i : Nat) (h : i < 64) (m : FsMeta) (k : Nat) :
    slot (files.set i m) k = if k = i then m else slot files k := by
  by_cases hk : k < 64
  · simp [hk, Vector.getElem_set, eq_comm]
  · have other : k ≠ i := by omega
    simp [slot, hk, other]

structure Placed (files : Files) (k : Nat) : Prop where
  abut : Abuts (dataStart * blockSize) (fun k => (slot files k).start)
    (fun k => (slot files k).size) k
  offset : 0 ≤ (slot files k).offset ∧ (slot files k).offset ≤ blockSize

theorem Placed.congr (placed : Placed files k)
    (block : (slot files' k).block = (slot files k).block)
    (offset : (slot files' k).offset = (slot files k).offset)
    (before : ∀ j, k = j + 1 → (slot files' j).start = (slot files j).start ∧
      (slot files' j).size = (slot files j).size) : Placed files' k := by
  have start : (slot files' k).start = (slot files k).start := by
    rw [FsMeta.start, FsMeta.start, block, offset]
  refine ⟨?_, by rw [offset]; exact placed.offset⟩
  have abut := placed.abut
  cases k with
  | zero => exact start.trans abut
  | succ j =>
    obtain ⟨first, length⟩ := before j rfl
    simp only [Abuts] at abut ⊢
    rw [start, first, length, abut]

theorem Placed.same (placed : Placed files k)
    (same : ∀ j, j ≤ k → k ≤ j + 1 → slot files' j = slot files j) : Placed files' k := by
  have here := same k (Nat.le_refl k) (Nat.le_succ k)
  refine placed.congr (by rw [here]) (by rw [here]) fun j next => ?_
  rw [same j (by omega) (by omega)]
  exact ⟨rfl, rfl⟩

def FollowsOn (p : FsMeta) (block offset : Int) : Prop :=
  let size := if p.size = -1 then 0 else p.size
  block * blockSize + offset = p.start + size ∧ offset ≤ blockSize ∧
    (0 ≤ p.offset + size → 0 ≤ offset)

/-- What `fillBlockAndOffset` writes to slot `i`. -/
def Filled (files : Files) (block offset : Int) : Nat → Prop
  | 0 => block = dataStart ∧ offset = 0
  | j + 1 => FollowsOn (slot files j) block offset

theorem offsetBehind_eq {m : FsMeta} {sum : Int} (h : offsetBehind m = some sum) :
    sum = m.offset + if m.size = -1 then 0 else m.size := by
  unfold offsetBehind at h
  grind [addInt_eq_some]

theorem fillBlockAndOffset_eq {i : Nat} (h : fillBlockAndOffset files i = some files') :
    ∃ block offset, ∃ hi : i < 64, Filled files block offset i ∧
      files' = files.set i { files[i] with block, offset } := by
  unfold fillBlockAndOffset at h
  cases i with
  | zero =>
    obtain ⟨k, hk, same, rfl⟩ := modify_eq_some.mp h
    obtain rfl : 0 = k := Int.ofNat_inj.mp same
    exact ⟨_, _, hk, ⟨rfl, rfl⟩, rfl⟩
  | succ j =>
    have later : ((j + 1 : Nat) : Int) ≠ 0 := by omega
    rw [if_neg later] at h
    obtain ⟨p, found, h⟩ := Option.bind_eq_some_iff.mp h
    obtain ⟨sum, added, h⟩ := Option.bind_eq_some_iff.mp h
    obtain ⟨⟨block, offset⟩, carried, h⟩ := Option.bind_eq_some_iff.mp h
    obtain ⟨k, hk, same, rfl⟩ := modify_eq_some.mp h
    obtain rfl : j + 1 = k := Int.ofNat_inj.mp same
    obtain ⟨j', hj, same, rfl⟩ := load_eq_some.mp found
    obtain rfl : j = j' := by omega
    refine ⟨block, offset, hk, ?_, rfl⟩
    obtain ⟨kept, high, low⟩ := carry_spec carried
    rw [offsetBehind_eq added] at kept low
    rw [Filled, FollowsOn, slot_of_lt hj, FsMeta.start]
    refine ⟨by omega, high, fun nonneg => ?_⟩
    unfold blockSize at low
    omega

theorem fillBlockAndOffset_frame {i : Nat} (h : fillBlockAndOffset files i = some files') :
    (∀ k, k ≠ i → slot files' k = slot files k) ∧
      ∀ k, (slot files' k).size = (slot files k).size ∧
        (slot files' k).fileName = (slot files k).fileName := by
  obtain ⟨block, offset, hi, -, rfl⟩ := fillBlockAndOffset_eq h
  refine ⟨fun k other => by rw [slot_set, if_neg other], fun k => ?_⟩
  by_cases here : k = i
  · subst here
    simp [hi]
  · simp [slot_set, here]

/-- A slot is put in its place behind a file that is in its own. -/
theorem fillBlockAndOffset_placed {i : Nat} (h : fillBlockAndOffset files i = some files')
    (before : ∀ j, i = j + 1 → 0 ≤ (slot files j).size ∧ 0 ≤ (slot files j).offset) :
    Placed files' i := by
  obtain ⟨block, offset, hi, filled, rfl⟩ := fillBlockAndOffset_eq h
  have here := slot_set files i hi { files[i] with block, offset }
  cases i with
  | zero =>
    obtain ⟨rfl, rfl⟩ := filled
    refine ⟨?_, by simp⟩
    simp [Abuts, FsMeta.start]
  | succ j =>
    obtain ⟨size, offset⟩ := before j rfl
    obtain ⟨start, high, low⟩ := filled
    have used : (slot files j).size ≠ -1 := by omega
    rw [if_neg used] at start low
    refine ⟨?_, ?_⟩
    · simpa [Abuts, here, FsMeta.start] using start
    · simpa [here] using ⟨low (by omega), high⟩

theorem fillFrom_frame {c i : Nat} (h : fillFrom files c i = some files') (k : Nat) :
    (slot files' k).size = (slot files k).size ∧
      (slot files' k).fileName = (slot files k).fileName := by
  induction c generalizing files i with
  | zero =>
    cases h
    exact ⟨rfl, rfl⟩
  | succ c ih =>
    obtain ⟨between, fill, h⟩ := Option.bind_eq_some_iff.mp h
    obtain ⟨size, name⟩ := (fillBlockAndOffset_frame fill).2 k
    obtain ⟨size', name'⟩ := ih (i := i + 1) h
    exact ⟨size'.trans size, name'.trans name⟩

theorem fillFrom_outside {c i : Nat} (h : fillFrom files c i = some files')
    (outside : k < i ∨ i + c ≤ k) :
    slot files' k = slot files k := by
  induction c generalizing files i with
  | zero =>
    cases h
    rfl
  | succ c ih =>
    obtain ⟨between, fill, h⟩ := Option.bind_eq_some_iff.mp h
    have rest := ih (i := i + 1) h (by omega)
    exact rest.trans ((fillBlockAndOffset_frame fill).1 k (by omega))

theorem fillFrom_inside {c i : Nat} (h : fillFrom files c i = some files')
    (used : ∀ k < n, 0 ≤ (slot files k).size)
    (before : ∀ j, i = j + 1 → j < n → 0 ≤ (slot files j).offset) :
    ∀ k < n, i ≤ k → k < i + c → Placed files' k := by
  induction c generalizing files i with
  | zero => intro k _ _ _; omega
  | succ c ih =>
    obtain ⟨between, fill, h⟩ := Option.bind_eq_some_iff.mp h
    have sizes := (fillBlockAndOffset_frame fill).2
    have first (hi : i < n) : Placed between i :=
      fillBlockAndOffset_placed fill fun j next => ⟨used j (by omega), before j next (by omega)⟩
    have rest := ih (i := i + 1) h (fun k hk => by rw [(sizes k).1]; exact used k hk)
      fun j next hj => by
        obtain rfl : i = j := by omega
        exact (first hj).offset.1
    intro k hk from_i upto
    rcases Nat.eq_or_lt_of_le from_i with rfl | later
    · exact (first hk).same fun j hj _ => fillFrom_outside (i := i + 1) h (.inl (by omega))
    · exact rest k hk later (by omega)

theorem fillFrom_placed {c i : Nat} (h : fillFrom files c i = some files')
    (used : ∀ k < n, 0 ≤ (slot files k).size) (before : ∀ k < n, k < i → Placed files k) :
    ∀ k < n, k < i + c → Placed files' k := by
  intro k hk within
  rcases Nat.lt_or_ge k i with earlier | later
  · exact (before k hk earlier).same fun j hj _ => fillFrom_outside h (.inl (by omega))
  · exact fillFrom_inside h used (fun j next hj => (before j hj (by omega)).offset.1)
      k hk later within

theorem slot_shiftFiles (files : Files) (c i : Nat) (h : i + c = 63) (k : Nat) :
    slot (shiftFiles files c i h) k = if i ≤ k ∧ k < 63 then slot files (k + 1)
      else slot files k := by
  induction c generalizing files i with
  | zero => rw [shiftFiles, if_neg (by omega)]
  | succ c ih =>
    rw [shiftFiles, ih (files.set i files[i + 1]) (i + 1) (by omega)]
    simp only [slot_set]
    grind [slot_of_lt]

end LastPicked.FileSystem
