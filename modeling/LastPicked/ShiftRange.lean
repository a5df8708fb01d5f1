import LastPicked.ShiftBytes

/-! When `shiftBlocks` has a result, on any disk and for any bytes. Its copying
loop stays inside both buffers wherever it starts. -/

namespace LastPicked.FileSystem
open CIntegers CMemory

/-- The cursors of `shiftBlocks`, each in its buffer and the first one not ahead of
the second. -/
structure Paced (t : Shift) : Prop where
  offset1 : 0 ≤ t.offset1 ∧ t.offset1 ≤ blockSize
  offset2 : 0 ≤ t.offset2 ∧ t.offset2 ≤ blockSize
  block1 : 0 ≤ t.block1 ∧ t.block1 < intMax
  behind : t.block1 * blockSize + t.offset1 ≤ t.block2 * blockSize + t.offset2

variable {t : Shift}

theorem Paced.advance1 (paced : Paced t) (more : t.block2 < diskBlocks) (d : Disk) :
    ∃ d' t', advance1 d t = some (d', t') ∧ Paced t' ∧ t'.block2 = t.block2 := by
  obtain ⟨offset1, offset2, block1, behind⟩ := paced
  unfold FileSystem.advance1
  split
  case isTrue full =>
    have close : t.block1 + 1 < intMax := by
      unfold intMax diskBlocks blockSize at *
      omega
    have counted : addInt t.block1 1 = some (t.block1 + 1) :=
      addInt_eq_some.mpr ⟨rfl, by unfold intMin; omega, by omega⟩
    rw [counted]
    refine ⟨_, _, rfl,
      ⟨⟨Int.le_refl 0, Int.natCast_nonneg _⟩, offset2, ⟨by dsimp only; omega, close⟩, ?_⟩, rfl⟩
    dsimp only
    unfold blockSize at *
    omega
  case isFalse => exact ⟨d, t, rfl, ⟨offset1, offset2, block1, behind⟩, rfl⟩

theorem Paced.advance2 (paced : Paced t) (more : t.block2 < diskBlocks) (d : Disk) :
    ∃ d' t', advance2 d t = some (d', t') ∧ Paced t' := by
  obtain ⟨offset1, offset2, block1, behind⟩ := paced
  unfold FileSystem.advance2
  split
  case isTrue full =>
    have close : t.block2 + 1 ≤ intMax := by
      unfold intMax diskBlocks at *
      omega
    have low : intMin ≤ t.block2 + 1 := by
      unfold intMin blockSize at *
      omega
    have counted : addInt t.block2 1 = some (t.block2 + 1) := addInt_eq_some.mpr ⟨rfl, low, close⟩
    rw [counted]
    refine ⟨_, _, rfl, offset1, ⟨Int.le_refl 0, Int.natCast_nonneg _⟩, block1, ?_⟩
    dsimp only
    unfold blockSize at *
    omega
  case isFalse => exact ⟨d, t, rfl, offset1, offset2, block1, behind⟩

theorem Paced.turn (paced : Paced t) (more : t.block2 < diskBlocks) (d : Disk) :
    ∃ d' t', shiftTurn d t = some (d', t') ∧ Paced t' := by
  obtain ⟨count, number, low, fits1, fits2⟩ : ∃ count : Int,
      (if t.offset2 < t.offset1 then (blockSize : Int) - t.offset1 else blockSize - t.offset2) =
        count ∧
        0 ≤ count ∧ t.offset1 + count ≤ blockSize ∧ t.offset2 + count ≤ blockSize := by
    have high1 := paced.offset1.2
    have high2 := paced.offset2.2
    refine ⟨_, rfl, ?_⟩
    split <;> omega
  have bounds : 0 ≤ count ∧ 0 ≤ t.offset1 ∧ t.offset1 + count ≤ blockSize ∧ 0 ≤ t.offset2 ∧
      t.offset2 + count ≤ blockSize := ⟨low, paced.offset1.1, fits1, paced.offset2.1, fits2⟩
  obtain ⟨buffer1, copied⟩ :
      ∃ buffer1, copy t.buffer1 t.offset1 t.buffer2 t.offset2 count = some buffer1 :=
    ⟨_, dif_pos bounds⟩
  have moved :
      Paced { t with buffer1, offset1 := t.offset1 + count, offset2 := t.offset2 + count } := by
    obtain ⟨offset1, offset2, block1, behind⟩ := paced
    exact ⟨⟨by dsimp only; omega, fits1⟩, ⟨by dsimp only; omega, fits2⟩, block1,
      by dsimp only; omega⟩
  obtain ⟨d₁, t₁, first, paced₁, same⟩ := moved.advance1 more d
  obtain ⟨d₂, t₂, second, paced₂⟩ := paced₁.advance2 (same.trans_lt more) d₁
  refine ⟨d₂, t₂, ?_, paced₂⟩
  simp only [shiftTurn, number, copied, Option.bind_eq_bind, Option.bind_some, first, second]

theorem Paced.loop (paced : Paced t) (d : Disk) :
    ∃ d' t', shiftLoop d t = some (d', t') ∧ Paced t' := by
  induction measure : t.ahead using Nat.strongRecOn generalizing d t with
  | ind k ih =>
    subst measure
    by_cases more : t.block2 < diskBlocks
    · obtain ⟨d₁, t₁, turn, paced₁⟩ := paced.turn more d
      obtain ⟨d', t', loop, ended⟩ := ih _ (shiftTurn_ahead more turn) paced₁ d₁ rfl
      exact ⟨d', t', (shiftLoop_turn more turn).trans loop, ended⟩
    · exact ⟨d, t, shiftLoop_done more, paced⟩

theorem Paced.zeroRest (paced : Paced t) (d : Disk) : ∃ d', zeroRest d t = some d' := by
  obtain ⟨⟨low, high⟩, -, block1, -⟩ := paced
  have bounds : 0 ≤ blockSize - t.offset1 ∧ 0 ≤ t.offset1 ∧
      t.offset1 + (blockSize - t.offset1) ≤ blockSize := by omega
  have counted : addInt t.block1 1 = some (t.block1 + 1) :=
    addInt_eq_some.mpr ⟨rfl, by unfold intMin; omega, by omega⟩
  simp only [FileSystem.zeroRest, fill, bounds, and_self, if_true, counted, Option.bind_eq_bind,
    Option.bind_some]
  exact ⟨_, rfl⟩

theorem shiftBlocks_isSome_iff (d : Disk) {block offset size : Int}
    (block1 : 0 ≤ block ∧ block ≤ 2 ^ 30) (within : 0 ≤ offset ∧ offset ≤ blockSize)
    (low : 0 ≤ size) (new1 new2 : Option Block) :
    (∃ d', shiftBlocks d block offset size new1 new2 = some d') ↔
      size = 0 ∨ offset + size ≤ intMax := by
  unfold shiftBlocks
  by_cases nothing : size = 0
  · rw [if_pos nothing]
    exact iff_of_true ⟨d, rfl⟩ (.inl nothing)
  rw [if_neg nothing]
  by_cases small : offset + size ≤ intMax
  · refine iff_of_true ?_ (.inr small)
    have added : addInt offset size = some (offset + size) :=
      addInt_eq_some.mpr ⟨rfl, by unfold intMin; omega, small⟩
    obtain ⟨block2, offset2, carried⟩ := @carry_within (blockSize - 1) (Nat.le_refl _) block
      (offset + size) (by unfold intMin; omega) (by unfold intMax blockSize at *; omega)
    obtain ⟨kept, high, turned⟩ := carry_spec carried
    have paced (u v : Block) : Paced ⟨block, offset, u, block2, offset2, v⟩ := by
      refine ⟨within, ?_, ⟨block1.1, ?_⟩, ?_⟩ <;> dsimp only
      · unfold blockSize at *
        omega
      · exact lt_of_le_of_lt block1.2 (by decide)
      · omega
    rw [added]
    match new1, new2 with
    | some buffer1, some buffer2 =>
      simp only [Option.bind_eq_bind, Option.bind_some, carried]
      obtain ⟨d', t', loop, ended⟩ :=
        (paced (blockRead d block buffer1).2 (blockRead d block2 buffer2).2).loop d
      rw [loop]
      exact ended.zeroRest d'
    | none, _ => exact ⟨d, rfl⟩
    | some _, none => exact ⟨d, rfl⟩
  · refine iff_of_false ?_ (by tauto)
    rintro ⟨d', shifted⟩
    obtain ⟨sum, added, -⟩ := Option.bind_eq_some_iff.mp shifted
    obtain ⟨rfl, -, high⟩ := addInt_eq_some.mp added
    exact small high

end LastPicked.FileSystem
