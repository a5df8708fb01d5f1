import LastPicked.WriteBytes

/-! `shiftBlocks` on the bytes of the disk. What lies behind the dropped bytes
moves down by their number, and zeros come up from the end. A shift by -1,
which a truncation to nothing asks for, leaves the disk as it was. -/

namespace LastPicked.FileSystem
open CIntegers CMemory FlatBlocks

/-- Both cursors of `shiftBlocks` on the disk `blocks`, `gap` bytes apart. What
lies between `s` and the first one is moved down, seen through its buffer, and
from its block on the disk still holds the bytes `c` it held at first. -/
structure Moving (c : Nat → UInt8) (s gap : Nat) (blocks : Image) (t : Shift) (b1 o1 b2 o2 : Nat) :
    Prop where
  block1 : t.block1 = b1
  offset1 : t.offset1 = o1
  block2 : t.block2 = b2
  offset2 : t.offset2 = o2
  apart : b2 * blockSize + o2 = b1 * blockSize + o1 + gap
  inside : b2 * blockSize + o2 ≤ diskBytes
  reached : s ≤ b1 * blockSize + o1
  within1 : o1 ≤ blockSize
  within2 : o2 ≤ blockSize
  room : b1 < diskBlocks
  ahead : ∀ p, b1 * blockSize ≤ p → byteAt blocks p = c p
  seen : ∀ p, byteAt (blocks.set b1 t.buffer1) p =
    if p < b1 * blockSize + o1 then moved c s gap p else c p
  held : b2 < diskBlocks → ∀ q (hq : q < blockSize), t.buffer2[q] = c (b2 * blockSize + q)

variable {blocks : Image} {c : Nat → UInt8} {s gap : Nat} {t : Shift}
  {b1 o1 b2 o2 : Nat}

theorem Moving.advance1 (h : Moving c s gap blocks t b1 o1 b2 o2) (pos : 0 < gap) (d : Disk)
    (name : CString) :
    ∃ blocks' t' b1' o1', advance1 (d.showing name blocks) t = some (d.showing name blocks', t') ∧
      Moving c s gap blocks' t' b1' o1' b2 o2 := by
  obtain ⟨block1, offset1, block2, offset2, apart, inside, reached, within1, within2, room,
    ahead, seen, held⟩ := h
  by_cases full : o1 = blockSize
  · subst full
    have next : b1 + 1 < diskBlocks := by
      unfold diskBytes diskBlocks blockSize at *
      omega
    refine ⟨blocks.set b1 t.buffer1, { t with
      block1 := (b1 + 1 : Nat), offset1 := (0 : Nat), buffer1 :=
        (blocks.set b1 t.buffer1)[b1 + 1] },
      b1 + 1, 0, ?_, rfl, rfl, block2, offset2, ?_, inside, ?_, by decide, within2, next, ?_,
      ?_, held⟩
    · simp only [FileSystem.advance1, offset1, if_true, block1, blockWrite_showing room,
        addInt_block room, blockRead_showing next, Option.bind_eq_bind, Option.bind_some,
        Int.natCast_zero]
    · rw [apart, Nat.succ_mul, Nat.add_zero]
    · rwa [Nat.succ_mul, Nat.add_zero]
    · intro p hp
      rw [seen, if_neg (by rw [Nat.succ_mul] at hp; omega)]
    · intro p
      rw [Vector.set_getElem_self, seen, Nat.succ_mul, Nat.add_zero]
  · refine ⟨blocks, t, b1, o1, ?_, block1, offset1, block2, offset2, apart, inside, reached,
      within1, within2, room, ahead, seen, held⟩
    have more : t.offset1 ≠ blockSize := by omega
    rw [FileSystem.advance1, if_neg more]

/-- The block the second cursor leaves is written back as it was read. -/
theorem Moving.advance2 (h : Moving c s gap blocks t b1 o1 b2 o2) (pos : 0 < gap)
    (more : b2 < diskBlocks) (d : Disk) (name : CString) :
    ∃ t' b2' o2', advance2 (d.showing name blocks) t = some (d.showing name blocks, t') ∧
      Moving c s gap blocks t' b1 o1 b2' o2' ∧ o2' < blockSize := by
  obtain ⟨block1, offset1, block2, offset2, apart, inside, reached, within1, within2, room,
    ahead, seen, held⟩ := h
  by_cases full : o2 = blockSize
  · subst full
    have behind : b1 ≤ b2 := by
      unfold blockSize at *
      omega
    have same : blocks.set b2 t.buffer2 = blocks := by
      refine set_of_flat (z := 0) more fun q hq => ?_
      have there : b1 * blockSize ≤ b2 * blockSize := Nat.mul_le_mul_right _ behind
      rw [held more q hq]
      exact (ahead _ (by omega)).symm
    refine ⟨{ t with
      block2 := (b2 + 1 : Nat), offset2 := (0 : Nat)
      buffer2 := if ((b2 + 1 : Nat) : Int) < diskBlocks then
        (blockRead (d.showing name blocks) (b2 + 1 : Nat) t.buffer2).2 else t.buffer2 },
      b2 + 1, 0, ?_, ⟨block1, offset1, rfl, rfl, ?_, ?_, reached, within1, by decide, room,
        ahead, seen, ?_⟩, by decide⟩
    · simp only [FileSystem.advance2, offset2, if_true, block2, blockWrite_showing more, same,
        addInt_block more, Option.bind_eq_bind, Option.bind_some, Int.natCast_zero]
    · rw [← apart, Nat.succ_mul, Nat.add_zero]
    · rwa [Nat.succ_mul, Nat.add_zero]
    · intro next q hq
      have there : b1 * blockSize ≤ (b2 + 1) * blockSize := Nat.mul_le_mul_right _ (by omega)
      have within : ((b2 + 1 : Nat) : Int) < diskBlocks := Int.ofNat_lt.mpr next
      rw [← ahead _ (by omega)]
      simp only [if_pos within, blockRead_showing next]
      exact (flat_block next hq).symm
  · refine ⟨t, b2, o2, ?_, ⟨block1, offset1, block2, offset2, apart, inside, reached, within1,
      within2, room, ahead, seen, held⟩, by omega⟩
    have inside : t.offset2 ≠ blockSize := by omega
    rw [FileSystem.advance2, if_neg inside]

theorem Moving.copied (h : Moving c s gap blocks t b1 o1 b2 o2) (more : b2 < diskBlocks)
    {count : Nat} (fits1 : o1 + count ≤ blockSize) (fits2 : o2 + count ≤ blockSize) :
    ∃ buffer1, copy t.buffer1 t.offset1 t.buffer2 t.offset2 count = some buffer1 ∧
      Moving c s gap blocks
        { t with buffer1, offset1 := t.offset1 + count, offset2 := t.offset2 + count }
        b1 (o1 + count) b2 (o2 + count) := by
  obtain ⟨block1, offset1, block2, offset2, apart, inside, reached, within1, within2, room,
    ahead, seen, held⟩ := h
  obtain ⟨buffer1, copied, entries⟩ := copy_of_le t.buffer1 t.buffer2 fits1 fits2
  rw [← offset1, ← offset2] at copied
  refine ⟨buffer1, copied, block1, by simp [offset1], block2, by simp [offset2], by omega, ?_,
    by omega, fits1, fits2, room, ahead, fun p => ?_, held⟩
  · unfold diskBytes diskBlocks blockSize at *
    omega
  · have before := seen p
    unfold byteAt at before ⊢
    rw [flat_set room] at before ⊢
    by_cases here : p / blockSize = b1
    · rw [if_pos here] at before ⊢
      have inside : p % blockSize < blockSize := Nat.mod_lt _ (by decide)
      have place : p = b1 * blockSize + p % blockSize := by
        rw [← here, Nat.div_add_mod']
      rw [Vector.getElem?_eq_getElem inside, Option.getD_some] at before ⊢
      rw [entries _ inside]
      by_cases now : o1 ≤ p % blockSize ∧ p % blockSize < o1 + count
      · -- a byte copied now comes from `gap` behind its place
        rw [dif_pos now, if_pos (by omega), moved, if_neg (by omega), held more _ (by omega)]
        exact congrArg c (by omega)
      · rw [dif_neg now, before]
        simp only [show p < b1 * blockSize + o1 ↔ p < b1 * blockSize + (o1 + count) by omega]
    · rw [if_neg here] at before ⊢
      rw [before]
      have away : p < b1 * blockSize ∨ (b1 + 1) * blockSize ≤ p := by
        unfold blockSize at *
        omega
      rw [Nat.succ_mul] at away
      simp only [show p < b1 * blockSize + o1 ↔ p < b1 * blockSize + (o1 + count) by omega]

theorem Moving.turn (h : Moving c s gap blocks t b1 o1 b2 o2) (pos : 0 < gap)
    (more : b2 < diskBlocks) (within : o2 < blockSize) (d : Disk) (name : CString) :
    ∃ blocks' t' b1' o1' b2' o2', shiftTurn (d.showing name blocks) t =
      some (d.showing name blocks', t') ∧
      Moving c s gap blocks' t' b1' o1' b2' o2' ∧ o2' < blockSize := by
  obtain ⟨count, number, fits1, fits2⟩ : ∃ count : Nat,
      (if t.offset2 < t.offset1 then (blockSize : Int) - t.offset1 else blockSize - t.offset2) =
        count ∧
        o1 + count ≤ blockSize ∧ o2 + count ≤ blockSize := by
    have within1 := h.within1
    rw [h.offset1, h.offset2]
    by_cases further : o2 < o1
    · exact ⟨blockSize - o1, by rw [if_pos (by omega)]; omega, by omega, by omega⟩
    · exact ⟨blockSize - o2, by rw [if_neg (by omega)]; omega, by omega, by omega⟩
  obtain ⟨buffer1, copied, moving⟩ := h.copied more fits1 fits2
  obtain ⟨blocks₁, t₁, b1₁, o1₁, first, moving⟩ := moving.advance1 pos d name
  obtain ⟨t₂, b2₂, o2₂, second, moving, within⟩ := moving.advance2 pos more d name
  refine ⟨blocks₁, t₂, b1₁, o1₁, b2₂, o2₂, ?_, moving, within⟩
  simp only [shiftTurn, number, copied, Option.bind_eq_bind, Option.bind_some, first, second]

theorem shiftLoop_turn {d d' : Disk} {t t' : Shift} (more : t.block2 < diskBlocks)
    (turn : shiftTurn d t = some (d', t')) : shiftLoop d t = shiftLoop d' t' := by
  rw [shiftLoop, dif_pos more]
  split
  case h_1 stuck => simp [turn] at stuck
  case h_2 again =>
    rw [turn] at again
    cases again
    rfl

theorem shiftLoop_done {d : Disk} {t : Shift} (finished : ¬t.block2 < diskBlocks) :
    shiftLoop d t = some (d, t) := by
  rw [shiftLoop, dif_neg finished]

theorem shiftLoop_stuck {d : Disk} {t : Shift} (more : t.block2 < diskBlocks)
    (turn : shiftTurn d t = none) : shiftLoop d t = none := by
  rw [shiftLoop, dif_pos more]
  split
  case h_1 => rfl
  case h_2 again => simp [turn] at again

/-- The copying loop ends with the second cursor at the end of the disk. -/
theorem Moving.loop (h : Moving c s gap blocks t b1 o1 b2 o2) (pos : 0 < gap)
    (within : o2 < blockSize) (d : Disk) (name : CString) :
    ∃ blocks' t' b1' o1', shiftLoop (d.showing name blocks) t = some (d.showing name blocks', t') ∧
      Moving c s gap blocks' t' b1' o1' diskBlocks 0 := by
  induction measure : t.ahead using Nat.strongRecOn generalizing blocks t b1 o1 b2 o2 with
  | ind k ih =>
    subst measure
    by_cases more : b2 < diskBlocks
    · obtain ⟨blocks₁, t₁, b1₁, o1₁, b2₁, o2₁, turn, moving, within'⟩ :=
        h.turn pos more within d name
      have before : t.block2 < diskBlocks := by
        rw [h.block2]
        exact Int.ofNat_lt.mpr more
      obtain ⟨blocks', t', b1', o1', loop, ended⟩ :=
        ih _ (shiftTurn_ahead before turn) moving within' rfl
      exact ⟨blocks', t', b1', o1', (shiftLoop_turn before turn).trans loop, ended⟩
    · have inside := h.inside
      have last : b2 = diskBlocks ∧ o2 = 0 := by
        unfold diskBytes diskBlocks blockSize at *
        omega
      obtain ⟨rfl, rfl⟩ := last
      refine ⟨blocks, t, b1, o1, shiftLoop_done ?_, h⟩
      rw [h.block2]
      exact Int.lt_irrefl _

theorem zeroFrom_bytes (d : Disk) (name : CString) (blocks : Image) {b k : Nat}
    (all : b + k = diskBlocks) :
    ∃ blocks', zeroFrom (d.showing name blocks) b k = d.showing name blocks' ∧
      ∀ p, byteAt blocks' p = if p < b * blockSize then byteAt blocks p else 0 := by
  induction k generalizing b blocks with
  | zero =>
    refine ⟨blocks, rfl, fun p => ?_⟩
    split
    case isTrue => rfl
    case isFalse beyond =>
      obtain rfl : b = diskBlocks := all
      exact flat_of_ge (by omega)
  | succ k ih =>
    have room : b < diskBlocks := by omega
    obtain ⟨blocks', zeros, bytes⟩ := ih (blocks.set b zeroBlock) (b := b + 1) (by omega)
    refine ⟨blocks', ?_, fun p => ?_⟩
    · rw [zeroFrom, blockWrite_showing room]
      exact zeros
    · rw [bytes, byteAt, flat_set room]
      have zero : (zeroBlock[p % blockSize]?).getD 0 = 0 := by
        rw [Vector.getElem?_eq_getElem (Nat.mod_lt _ (by decide)), Option.getD_some]
        exact Vector.getElem_replicate _
      rw [zero]
      unfold byteAt
      have here : p / blockSize = b ↔ b * blockSize ≤ p ∧ p < b * blockSize + blockSize := by
        unfold blockSize
        omega
      rw [Nat.succ_mul]
      simp only [here]
      grind

theorem Moving.zeroRest (h : Moving c s gap blocks t b1 o1 diskBlocks 0)
    (ends : ∀ p, diskBytes ≤ p → c p = 0) (d : Disk) (name : CString) :
    ∃ blocks', zeroRest (d.showing name blocks) t = some (d.showing name blocks') ∧
      byteAt blocks' = moved c s gap := by
  obtain ⟨block1, offset1, -, -, apart, -, reached, within1, -, room, ahead, seen, -⟩ := h
  obtain ⟨buffer1, filled, entries⟩ :=
    fill_of_le t.buffer1 (show o1 + (blockSize - o1) ≤ blockSize by omega) 0
  obtain ⟨blocks', zeros, bytes⟩ := zeroFrom_bytes d name (blocks.set b1 buffer1)
    (show b1 + 1 + (diskBlocks - (b1 + 1)) = diskBlocks by omega)
  have rest : ((blockSize : Int) - o1) = (blockSize - o1 : Nat) := by omega
  have turns : ((diskBlocks : Int) - (b1 + 1 : Nat)).toNat = diskBlocks - (b1 + 1) :=
    Int.toNat_sub _ _
  refine ⟨blocks', ?_, ?_⟩
  · simp only [FileSystem.zeroRest, offset1, block1, rest, filled, blockWrite_showing room,
      addInt_block room, turns, zeros, Option.bind_eq_bind, Option.bind_some]
  · funext p
    have before := seen p
    unfold byteAt at before bytes ⊢
    rw [flat_set room] at before
    rw [bytes, flat_set room]
    have gone (far : b1 * blockSize + o1 ≤ p) : moved c s gap p = 0 := by
      rw [moved, if_neg (by omega)]
      exact ends _ (by unfold diskBytes; omega)
    by_cases here : p / blockSize = b1
    · have inside : p % blockSize < blockSize := Nat.mod_lt _ (by decide)
      have place : p = b1 * blockSize + p % blockSize := by rw [← here, Nat.div_add_mod']
      rw [if_pos here] at before ⊢
      rw [Vector.getElem?_eq_getElem inside, Option.getD_some] at before ⊢
      rw [if_pos (by rw [Nat.succ_mul]; omega), entries _ inside]
      by_cases far : o1 ≤ p % blockSize
      · rw [if_pos (by omega), gone (by omega)]
      · rw [if_neg (by omega), before, if_pos (by omega)]
    · rw [if_neg here] at before ⊢
      have away : p < b1 * blockSize ∨ (b1 + 1) * blockSize ≤ p := by
        unfold blockSize at *
        omega
      rcases away with low | high
      · rw [if_pos (by rw [Nat.succ_mul]; omega), before, if_pos (by omega)]
      · rw [if_neg (by omega), gone (by rw [Nat.succ_mul] at high; omega)]

theorem zeroRest_beyond {t : Shift} {o : Nat} (d : Disk) (block1 : t.block1 = diskBlocks)
    (offset1 : t.offset1 = o) (within : o ≤ blockSize) : zeroRest d t = some d := by
  obtain ⟨buffer1, filled, -⟩ :=
    fill_of_le t.buffer1 (show o + (blockSize - o) ≤ blockSize by omega) 0
  have rest : ((blockSize : Int) - o) = (blockSize - o : Nat) := by omega
  have counted : addInt (diskBlocks : Int) 1 = some ((diskBlocks + 1 : Nat) : Int) := by decide
  have turns : ((diskBlocks : Int) - (diskBlocks + 1 : Nat)).toNat = 0 := by decide
  simp only [zeroRest, offset1, block1, rest, filled, counted, turns, zeroFrom,
    blockWrite_beyond (Int.le_refl _), Option.bind_eq_bind, Option.bind_some]

section
variable {sb so : Nat}

theorem Moving.begin (blocks : Image) (buffer2 : Block) (room : sb < diskBlocks)
    (within : so ≤ blockSize) (within2 : o2 ≤ blockSize)
    (apart : b2 * blockSize + o2 = sb * blockSize + so + gap)
    (inside : b2 * blockSize + o2 ≤ diskBytes)
    (held : ∀ hb : b2 < diskBlocks, buffer2 = blocks[b2]) :
    Moving (byteAt blocks) (sb * blockSize + so) gap blocks ⟨sb, so, blocks[sb], b2, o2, buffer2⟩
      sb so b2 o2 := by
  refine ⟨rfl, rfl, rfl, rfl, apart, inside, Nat.le_refl _, within, within2, room, fun _ _ => rfl,
    fun p => ?_, fun more q hq => ?_⟩
  · rw [Vector.set_getElem_self]
    split
    case isTrue before => rw [moved, if_pos before]
    case isFalse => rfl
  · simp only [held more]
    exact (flat_block more hq).symm

theorem shiftBlocks_second (gap : Nat) (within : so ≤ blockSize)
    (small : (sb : Int) + (so + gap) ≤ intMax) :
    ∃ b2 o2 : Nat, carry (blockSize - 1) (sb : Int) (so + gap) = some ((b2 : Int), (o2 : Int)) ∧
      b2 * blockSize + o2 = sb * blockSize + so + gap ∧ o2 < blockSize := by
  obtain ⟨block2, offset2, carried⟩ :=
    carry_total (blockSize - 1) (intMin_nonpos.trans (Int.natCast_nonneg sb)) small
  obtain ⟨kept, high, turned⟩ := carry_spec carried
  have nonneg : 0 ≤ block2 ∧ 0 ≤ offset2 := by
    unfold blockSize at *
    omega
  obtain ⟨low2, lowOffset2⟩ := nonneg
  lift block2 to Nat using low2
  lift offset2 to Nat using lowOffset2
  exact ⟨block2, offset2, carried, by omega, by unfold blockSize at *; omega⟩

theorem shiftBlocks_moved (d : Disk) (name : CString) (blocks : Image) (pos : 0 < gap)
    (within : so ≤ blockSize) (inside : sb * blockSize + so ≤ diskBytes)
    (small : (sb : Int) + (so + gap) ≤ intMax) (buffer1 buffer2 : Block) :
    ∃ blocks', shiftBlocks (d.showing name blocks) sb so gap (some buffer1) (some buffer2) =
        some (d.showing name blocks') ∧
      byteAt blocks' = moved (byteAt blocks) (sb * blockSize + so) gap := by
  have some_gap : (gap : Int) ≠ 0 := by omega
  have added : addInt (so : Int) gap = some ((so : Int) + gap) :=
    addInt_eq_some.mpr ⟨rfl, by unfold intMin; omega, by omega⟩
  obtain ⟨b2, o2, carried, apart, within2⟩ := shiftBlocks_second gap within small
  by_cases room : sb < diskBlocks
  · by_cases far : b2 * blockSize + o2 ≤ diskBytes
    · have moving :=
        Moving.begin blocks (blockRead (d.showing name blocks) b2 buffer2).2 room within
        within2.le apart far fun more => by rw [blockRead_showing more]
      obtain ⟨blocks₁, t, b1, o1, loop, ended⟩ := moving.loop pos within2 d name
      obtain ⟨blocks', zeros, bytes⟩ := ended.zeroRest (fun p hp => flat_of_ge hp) d name
      refine ⟨blocks', ?_, bytes⟩
      simp only [shiftBlocks, some_gap, if_false, added, carried, blockRead_showing room,
        loop, zeros, Option.bind_eq_bind, Option.bind_some]
    · -- the second cursor starts behind the disk, as far as it would get
      have beyond : ¬(b2 : Int) < diskBlocks := by
        unfold diskBytes diskBlocks blockSize at *
        omega
      have apart : diskBlocks * blockSize + 0 =
          sb * blockSize + so + (diskBytes - (sb * blockSize + so)) := by
        unfold diskBytes at *
        omega
      have moving :=
        Moving.begin blocks (blockRead (d.showing name blocks) b2 buffer2).2 room within
        (Nat.zero_le _) apart (Nat.le_refl _) fun more => absurd more (Nat.lt_irrefl _)
      obtain ⟨blocks', zeros, bytes⟩ := moving.zeroRest (fun p hp => flat_of_ge hp) d name
      refine ⟨blocks', ?_, bytes.trans (moved_to_end (e := diskBytes) ?_ ?_ fun p hp =>
        flat_of_ge hp)⟩
      · have done (u v : Block) : shiftLoop (d.showing name blocks) ⟨sb, so, u, b2, o2, v⟩ =
            some (d.showing name blocks, ⟨sb, so, u, b2, o2, v⟩) := shiftLoop_done beyond
        simp only [shiftBlocks, some_gap, if_false, added, carried, blockRead_showing room, done,
          Option.bind_eq_bind, Option.bind_some]
        exact zeros
      · omega
      · omega
  · obtain ⟨rfl, rfl⟩ : sb = diskBlocks ∧ so = 0 := by
      unfold diskBytes diskBlocks blockSize at *
      omega
    refine ⟨blocks, ?_, ?_⟩
    · have beyond : ¬(b2 : Int) < diskBlocks := by
        unfold diskBytes diskBlocks blockSize at *
        omega
      have done (u v : Block) :
          shiftLoop (d.showing name blocks) ⟨diskBlocks, (0 : Nat), u, b2, o2, v⟩ =
            some (d.showing name blocks, ⟨diskBlocks, (0 : Nat), u, b2, o2, v⟩) :=
        shiftLoop_done beyond
      simp only [shiftBlocks, some_gap, if_false, added, carried, done, Option.bind_eq_bind,
        Option.bind_some]
      exact zeroRest_beyond _ rfl rfl (Nat.zero_le _)
    · have ends : ∀ p, diskBytes ≤ p → byteAt blocks p = 0 := fun p hp => flat_of_ge hp
      have whole : diskBytes ≤ diskBlocks * blockSize + 0 := Nat.le_refl _
      have nothing : moved (byteAt blocks) (diskBlocks * blockSize + 0) gap =
          moved (byteAt blocks) (diskBlocks * blockSize + 0) 0 :=
        moved_to_end (by omega) (by omega) ends
      rw [nothing, moved_zero]

end

theorem shiftBlocks_drop (d : Disk) (name : CString) (blocks : Image) (gap : Nat) {sb so : Nat}
    (within : so ≤ blockSize) (inside : sb * blockSize + so ≤ diskBytes)
    (small : (sb : Int) + (so + gap) ≤ intMax) (buffer1 buffer2 : Block) :
    ∃ blocks', shiftBlocks (d.showing name blocks) sb so gap (some buffer1) (some buffer2) =
        some (d.showing name blocks') ∧
      byteAt blocks' = moved (byteAt blocks) (sb * blockSize + so) gap := by
  cases gap with
  | zero => exact ⟨blocks, if_pos rfl, moved_zero.symm⟩
  | succ k =>
      exact shiftBlocks_moved d name blocks (Nat.succ_pos k) within inside small buffer1 buffer2

/-- The cursors of a shift by -1. The second one is a byte behind the first,
so each block the first one has changed is written back as it was read. -/
inductive Trailing (blocks : Image) : Image → Shift → Prop
  | within {t : Shift} {b o : Nat} (room : b < diskBlocks) : o < blockSize → t.block1 = b →
      t.offset1 = (o + 1 : Nat) → t.block2 = b → t.offset2 = o → t.buffer2 = blocks[b] →
      Trailing blocks blocks t
  | across {t : Shift} {b : Nat} {changed : Block} (room : b < diskBlocks) :
      t.block1 = (b + 1 : Nat) → t.offset1 = (0 : Nat) → t.block2 = b →
      t.offset2 = (blockSize - 1 : Nat) → t.buffer2 = blocks[b] →
      Trailing blocks (blocks.set b changed) t
  | ended {t : Shift} : t.block1 = diskBlocks → t.offset1 = (1 : Nat) → t.block2 = diskBlocks →
      Trailing blocks blocks t

theorem trailing_within {b o : Nat} (room : b < diskBlocks) (inside : o < blockSize)
    (block1 : t.block1 = b) (offset1 : t.offset1 = (o + 1 : Nat)) (block2 : t.block2 = b)
    (offset2 : t.offset2 = o) (held : t.buffer2 = blocks[b]) (d : Disk) (name : CString) :
    ∃ blocks' t', shiftTurn (d.showing name blocks) t = some (d.showing name blocks', t') ∧
      Trailing blocks blocks' t' := by
  obtain ⟨buffer1, copied, -⟩ := copy_of_le t.buffer1 t.buffer2
    (show o + 1 + (blockSize - (o + 1)) ≤ blockSize by omega)
    (show o + (blockSize - (o + 1)) ≤ blockSize by omega)
  have number : (if (o : Int) < (o + 1 : Nat) then (blockSize : Int) - (o + 1 : Nat)
      else blockSize - o) = (blockSize - (o + 1) : Nat) := by
    rw [if_pos (by omega)]
    omega
  have full : ((o + 1 : Nat) : Int) + (blockSize - (o + 1) : Nat) = blockSize := by omega
  have near : (o : Int) + (blockSize - (o + 1) : Nat) = (blockSize - 1 : Nat) := by omega
  have short : ((blockSize - 1 : Nat) : Int) ≠ blockSize := by decide
  refine ⟨blocks.set b buffer1, { t with
    block1 := (b + 1 : Nat), offset1 := (0 : Nat), offset2 := (blockSize - 1 : Nat)
    buffer1 := (blockRead (d.showing name (blocks.set b buffer1)) (b + 1 : Nat) buffer1).2 }, ?_,
    .across room rfl rfl block2 rfl held⟩
  simp only [shiftTurn, offset1, offset2] at copied ⊢
  simp only [number, copied, Option.bind_eq_bind, Option.bind_some, advance1, full, near,
    if_true, block1, blockWrite_showing room, addInt_block room, advance2, short, if_false,
    Int.natCast_zero]

theorem trailing_across {b : Nat} {changed : Block} (room : b < diskBlocks)
    (block1 : t.block1 = (b + 1 : Nat)) (offset1 : t.offset1 = (0 : Nat)) (block2 : t.block2 = b)
    (offset2 : t.offset2 = (blockSize - 1 : Nat)) (held : t.buffer2 = blocks[b]) (d : Disk)
    (name : CString) :
    ∃ t', shiftTurn (d.showing name (blocks.set b changed)) t = some (d.showing name blocks, t') ∧
      Trailing blocks blocks t' := by
  obtain ⟨buffer1, copied, -⟩ := copy_of_le t.buffer1 t.buffer2
    (show 0 + 1 ≤ blockSize by decide) (show blockSize - 1 + 1 ≤ blockSize by decide)
  have number : (if ((blockSize - 1 : Nat) : Int) < 0 then (blockSize : Int) - 0
      else blockSize - (blockSize - 1 : Nat)) = (1 : Nat) := by decide
  have first : (0 : Int) + (1 : Nat) = (1 : Nat) := by decide
  have short : ((1 : Nat) : Int) ≠ blockSize := by decide
  have full : ((blockSize - 1 : Nat) : Int) + (1 : Nat) = blockSize := by decide
  have stay : advance1 (d.showing name (blocks.set b changed))
      { t with buffer1, offset1 := (1 : Nat), offset2 := blockSize } =
      some (d.showing name (blocks.set b changed),
        { t with buffer1, offset1 := (1 : Nat), offset2 := blockSize }) := if_neg short
  have next : advance2 (d.showing name (blocks.set b changed))
      { t with buffer1, offset1 := (1 : Nat), offset2 := blockSize } =
      some (d.showing name blocks, { t with
        buffer1, offset1 := (1 : Nat), block2 := (b + 1 : Nat), offset2 := (0 : Nat)
        buffer2 := if ((b + 1 : Nat) : Int) < diskBlocks then
          (blockRead (d.showing name blocks) (b + 1 : Nat) t.buffer2).2 else t.buffer2 }) := by
    simp only [advance2, if_true, block2, held, blockWrite_showing room, addInt_block room,
      Vector.set_set, Vector.set_getElem_self, Int.natCast_zero, Option.bind_eq_bind,
      Option.bind_some]
  have turned : shiftTurn (d.showing name (blocks.set b changed)) t =
      (advance1 (d.showing name (blocks.set b changed))
        { t with buffer1, offset1 := (1 : Nat), offset2 := blockSize }).bind
        fun between => advance2 between.1 between.2 := by
    rw [Int.natCast_zero] at offset1 copied
    simp only [shiftTurn, offset1, offset2, number]
    rw [copied, first, full]
    rfl
  rw [turned, stay, Option.bind_some, next]
  refine ⟨_, rfl, ?_⟩
  by_cases last : b + 1 < diskBlocks
  · refine .within last (by decide) block1 rfl rfl rfl ?_
    simp only [if_pos (Int.ofNat_lt.mpr last), blockRead_showing last]
  · have ended : ((b + 1 : Nat) : Int) = diskBlocks := by omega
    exact .ended (block1.trans ended) rfl ended

/-- The copying loop of a shift by -1 leaves the disk as it was. -/
theorem Trailing.loop {blocks' : Image} (h : Trailing blocks blocks' t) (d : Disk)
    (name : CString) :
    ∃ t', shiftLoop (d.showing name blocks') t = some (d.showing name blocks, t') ∧
      t'.block1 = diskBlocks ∧ t'.offset1 = (1 : Nat) := by
  induction measure : t.ahead using Nat.strongRecOn generalizing blocks' t with
  | ind k ih =>
    subst measure
    have again {blocks'' : Image} {t' : Shift} (more : t.block2 < diskBlocks)
        (turn : shiftTurn (d.showing name blocks') t = some (d.showing name blocks'', t'))
        (h' : Trailing blocks blocks'' t') : ∃ t', shiftLoop (d.showing name blocks') t =
          some (d.showing name blocks, t') ∧ t'.block1 = diskBlocks ∧ t'.offset1 = (1 : Nat) := by
      rw [shiftLoop_turn more turn]
      exact ih _ (shiftTurn_ahead more turn) h' rfl
    cases h with
    | within room inside block1 offset1 block2 offset2 held =>
      obtain ⟨blocks'', t', turn, h'⟩ :=
        trailing_within room inside block1 offset1 block2 offset2 held d name
      exact again (block2 ▸ Int.ofNat_lt.mpr room) turn h'
    | across room block1 offset1 block2 offset2 held =>
      obtain ⟨t', turn, h'⟩ := trailing_across room block1 offset1 block2 offset2 held d name
      exact again (block2 ▸ Int.ofNat_lt.mpr room) turn h'
    | ended block1 offset1 block2 =>
      refine ⟨t, shiftLoop_done ?_, block1, offset1⟩
      rw [block2]
      exact Int.lt_irrefl _

theorem shiftBlocks_back (d : Disk) (name : CString) (blocks : Image) {sb o : Nat}
    (room : sb < diskBlocks) (inside : o < blockSize) (buffer1 buffer2 : Block) :
    shiftBlocks (d.showing name blocks) sb (o + 1 : Nat) (-1) (some buffer1) (some buffer2) =
      some (d.showing name blocks) := by
  have added : addInt ((o + 1 : Nat) : Int) (-1) = some (o : Int) := by
    rw [addInt_eq_some]
    unfold blockSize at inside
    unfold intMin intMax
    omega
  have carried : carry (blockSize - 1) (sb : Int) (o : Int) = some ((sb : Int), (o : Int)) :=
    carry_of_le (Int.ofNat_le.mpr (Nat.le_sub_one_of_lt inside))
  have trailing : Trailing blocks blocks ⟨sb, (o + 1 : Nat), blocks[sb], sb, o, blocks[sb]⟩ :=
    .within room inside rfl rfl rfl rfl rfl
  obtain ⟨t, loop, block1, offset1⟩ := trailing.loop d name
  have some_gap : (-1 : Int) ≠ 0 := by decide
  simp only [shiftBlocks, some_gap, if_false, added, carried, blockRead_showing room, loop,
    zeroRest_beyond _ block1 offset1 (by decide : 1 ≤ blockSize), Option.bind_eq_bind,
    Option.bind_some]

theorem shiftBlocks_back_end (d : Disk) (buffer1 buffer2 : Block) :
    shiftBlocks d diskBlocks 0 (-1) (some buffer1) (some buffer2) = some d := by
  have added : addInt (0 : Int) (-1) = some (-1) := by decide
  have carried :
      carry (blockSize - 1) (diskBlocks : Int) (-1) = some ((diskBlocks : Int), (-1 : Int)) :=
    carry_of_le (by omega)
  have some_gap : (-1 : Int) ≠ 0 := by decide
  have done (u v : Block) : shiftLoop d ⟨diskBlocks, 0, u, diskBlocks, -1, v⟩ =
      some (d, ⟨diskBlocks, 0, u, diskBlocks, -1, v⟩) := shiftLoop_done (Int.lt_irrefl _)
  simp only [shiftBlocks, some_gap, if_false, added, carried, done, Option.bind_eq_bind,
    Option.bind_some]
  exact zeroRest_beyond d rfl Int.natCast_zero.symm (Nat.zero_le _)

theorem shiftBlocks_denied (d : Disk) {startBlock startOffset numShift sum : Int}
    {new1 new2 : Option Block} (added : addInt startOffset numShift = some sum)
    (denied : new1 = none ∨ new2 = none) :
    shiftBlocks d startBlock startOffset numShift new1 new2 = some d := by
  unfold shiftBlocks
  split
  case isTrue => rfl
  case isFalse =>
    rw [added, Option.bind_eq_bind, Option.bind_some]
    rcases denied with rfl | rfl
    · rfl
    · cases new1 <;> rfl

/-- At the first byte of a block a shift by -1 would read before the block. -/
theorem shiftBlocks_underflow (d : Disk) {sb : Nat} (room : sb < diskBlocks)
    (buffer1 buffer2 : Block) :
    shiftBlocks d sb 0 (-1) (some buffer1) (some buffer2) = none := by
  have added : addInt (0 : Int) (-1) = some (-1) := by decide
  have carried : carry (blockSize - 1) (sb : Int) (-1) = some ((sb : Int), (-1 : Int)) :=
    carry_of_le (by omega)
  have some_gap : (-1 : Int) ≠ 0 := by decide
  have more : (sb : Int) < diskBlocks := Int.ofNat_lt.mpr room
  have stuck (u v : Block) : shiftLoop d ⟨sb, 0, u, sb, -1, v⟩ = none := by
    refine shiftLoop_stuck more ?_
    have number :
      (if (-1 : Int) < 0 then (blockSize : Int) - 0 else blockSize - -1) = blockSize := by decide
    have outside : copy u 0 v (-1) blockSize = none := dif_neg (by omega)
    simp only [shiftTurn, number, outside, Option.bind_eq_bind, Option.bind_none]
  simp only [shiftBlocks, some_gap, if_false, added, carried, Option.bind_eq_bind, Option.bind_some,
    stuck, Option.bind_none]

end LastPicked.FileSystem
