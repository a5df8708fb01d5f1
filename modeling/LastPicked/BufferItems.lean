import LastPicked.BufferModel
import Mathlib

/-! The buffer holds a list of items, packed at its front, and each operation
is described by what it does to that list. -/

namespace LastPicked.SharedBuffer

variable {b b' : Buffer} {items : List Int}

theorem clearFrom_get (b : Buffer) {k i : Nat} (h : i + k = 10) {j : Nat} (hj : j < 10) :
    (clearFrom b k i h)[j] = if i ≤ j then -1 else b[j] := by
  induction k generalizing b i with
  | zero => rw [clearFrom, if_neg (by omega)]
  | succ k ih =>
    rw [clearFrom, ih]
    grind

theorem shiftRight_get (b : Buffer) {i : Nat} (h : i < 10) {j : Nat} (hj : j < 10) :
    (shiftRight b i h)[j] = if 0 < j ∧ j ≤ i then b[j - 1] else b[j] := by
  induction i generalizing b with
  | zero => rw [shiftRight, if_neg (by omega)]
  | succ i ih =>
    rw [shiftRight, ih]
    grind

theorem shiftLeft_get (b : Buffer) {k i : Nat} (h : i + k = 9) {j : Nat} (hj : j < 10) :
    (shiftLeft b k i h)[j] = if h : i ≤ j ∧ j < 9 then b[j + 1] else b[j] := by
  induction k generalizing b i with
  | zero => rw [shiftLeft, dif_neg (by omega)]
  | succ k ih =>
    rw [shiftLeft, ih]
    grind

/-- The buffer holds exactly these items: they stand packed at its front. -/
structure Holds (b : Buffer) (items : List Int) : Prop where
  fits : items.length ≤ 10
  nonneg : ∀ x ∈ items, 0 ≤ x
  packed : b.toList = items ++ List.replicate (10 - items.length) (-1)

theorem push_toList (b : Buffer) (x : Int) : (push b x).2.toList = x :: b.toList.take 9 := by
  refine List.ext_getElem (by simp) fun j hj _ => ?_
  have bound : j < 10 := by simpa using hj
  cases j with
  | zero => simp [push]
  | succ j => simp [push, shiftRight_get b _ bound, show j + 1 ≤ 9 by omega]

theorem pop_toList (b : Buffer) : (pop b).2.toList = b.toList.drop 1 ++ [-1] := by
  refine List.ext_getElem (by simp) fun j hj _ => ?_
  have bound : j < 10 := by simpa using hj
  by_cases last : j = 9
  · subst last
    simp [pop]
  · have inside : j < 9 := by omega
    simp [pop, shiftLeft_get b _ bound, inside, Ne.symm last]

namespace Holds

theorem initializeBuffer (b : Buffer) : Holds (initializeBuffer b) [] := by
  refine ⟨by simp, by simp, List.ext_getElem (by simp) fun j hj _ => ?_⟩
  simp only [List.nil_append, List.getElem_replicate, Vector.getElem_toList,
    SharedBuffer.initializeBuffer, clearFrom_get, Nat.zero_le, if_true]

theorem empty_iff (h : Holds b items) {j : Nat} (hj : j < 10) :
    b[j] = -1 ↔ items.length ≤ j := by
  have len := h.fits
  have bound : j < (items ++ List.replicate (10 - items.length) (-1 : Int)).length := by simp; omega
  have cell : b[j] = (items ++ List.replicate (10 - items.length) (-1))[j] := by simp [← h.packed]
  rw [cell]
  by_cases inside : j < items.length
  · have pos := h.nonneg items[j] (List.getElem_mem inside)
    rw [List.getElem_append_left inside]
    omega
  · simp [List.getElem_append_right (Nat.le_of_not_lt inside), Nat.le_of_not_lt inside]

theorem firstEmpty (h : Holds b items) {k i : Nat} (bound : i + k ≤ 10) (le : i ≤ items.length) :
    firstEmpty b k i bound = min (i + k) items.length := by
  induction k generalizing i with
  | zero => simp [SharedBuffer.firstEmpty, le]
  | succ k ih =>
    have empty := h.empty_iff (show i < 10 by omega)
    unfold SharedBuffer.firstEmpty
    split
    · omega
    · rw [ih (by omega) (by omega)]
      omega

theorem countItems (h : Holds b items) : countItems b = items.length := by
  have len := h.fits
  rw [SharedBuffer.countItems, h.firstEmpty _ (Nat.zero_le _)]
  omega

theorem push (h : Holds b items) (room : items.length < 10) {x : Int} (nonneg : 0 ≤ x) :
    (push b x).1 = false ∧ Holds (push b x).2 (x :: items) := by
  refine ⟨by simp [SharedBuffer.push, h.empty_iff, Nat.le_of_lt_succ room], room,
    by simpa [nonneg] using h.nonneg, ?_⟩
  rw [push_toList, h.packed, List.take_append, List.take_of_length_le (by omega),
    List.take_replicate]
  simp only [List.length_cons, List.cons_append]
  rw [show min (9 - items.length) (10 - items.length) = 10 - (items.length + 1) by omega]

theorem enqueue (h : Holds b items) (room : items.length < 10) {x : Int} (nonneg : 0 ≤ x) :
    (enqueue b x).1 = false ∧ Holds (enqueue b x).2 (items ++ [x]) := by
  have here : SharedBuffer.firstEmpty b 9 0 (by decide) = items.length := by
    rw [h.firstEmpty _ (Nat.zero_le _)]
    omega
  refine ⟨?_, by simp; omega, ?_, ?_⟩
  · simp [SharedBuffer.enqueue, here, h.empty_iff room]
  · intro y hy
    rcases List.mem_append.mp hy with old | new
    · exact h.nonneg y old
    · simpa [List.mem_singleton.mp new] using nonneg
  · have room' : 10 - items.length = (10 - (items ++ [x]).length) + 1 := by simp; omega
    simp only [SharedBuffer.enqueue, here, Vector.toList_set, h.packed]
    rw [List.set_append_right _ _ (Nat.le_refl _), room', Nat.sub_self, List.replicate_succ,
      List.set_cons_zero, List.append_cons]

theorem pop {x : Int} (h : Holds b (x :: items)) :
    (pop b).1 = x ∧ Holds (pop b).2 items := by
  have len := h.fits
  simp only [List.length_cons] at len
  have packed := h.packed
  refine ⟨?_, by omega, fun y hy => h.nonneg y (List.mem_cons_of_mem _ hy), ?_⟩
  · have first : b.toList[0]? = some x := by simp [packed]
    simpa [SharedBuffer.pop] using first
  · rw [pop_toList, packed]
    simp only [List.length_cons, List.cons_append, List.drop_succ_cons, List.drop_zero,
      List.append_assoc]
    rw [← List.replicate_succ', show 10 - (items.length + 1) + 1 = 10 - items.length by omega]

end Holds

def put : BufferType → Int → List Int → List Int
  | .fifo, x, items => items ++ [x]
  | .filo, x, items => x :: items

/-- What a turn does, from the items alone. -/
inductive Turn (infos : List ThreadInfo) (items : List Int) : Event → List Int → Prop
  | adds {info : ThreadInfo} {x : Int} : info ∈ infos → info.type = .producer → items.length < 10 →
      Turn infos items ⟨info, .added x, false⟩ (put info.bufferType x items)
  | full {info : ThreadInfo} : info ∈ infos → info.type = .producer → items.length = 10 →
      Turn infos items ⟨info, .nothing, false⟩ items
  | takes {info : ThreadInfo} {x : Int} {rest : List Int} : info ∈ infos → info.type = .consumer →
      items = x :: rest → Turn infos items ⟨info, .taken x, false⟩ rest
  | empty {info : ThreadInfo} : info ∈ infos → info.type = .consumer → items = [] →
      Turn infos items ⟨info, .nothing, false⟩ items

/-- The array refines the list of items: each turn on it is a turn on the list. -/
theorem Holds.turn {infos : List ThreadInfo} {e : Event} (h : Holds b items)
    (s : Step infos b e b') : ∃ items', Turn infos items e items' ∧ Holds b' items' := by
  obtain ⟨⟨num, type, bufferType⟩, listed, x, nonneg, run⟩ := s
  have len := h.fits
  cases type with
  | producer =>
    simp only [threadRun, h.countItems] at run
    split at run
    · rename_i room
      have room' : items.length < 10 := by omega
      cases bufferType
      · obtain ⟨quiet, held⟩ := h.enqueue room' nonneg
        obtain ⟨rfl, rfl⟩ := Prod.mk.inj run
        rw [quiet]
        exact ⟨_, .adds listed rfl room', held⟩
      · obtain ⟨quiet, held⟩ := h.push room' nonneg
        obtain ⟨rfl, rfl⟩ := Prod.mk.inj run
        rw [quiet]
        exact ⟨_, .adds listed rfl room', held⟩
    · obtain ⟨rfl, rfl⟩ := Prod.mk.inj run
      exact ⟨items, .full listed rfl (by omega), h⟩
  | consumer =>
    simp only [threadRun, h.countItems] at run
    cases items with
    | nil =>
      obtain ⟨rfl, rfl⟩ := Prod.mk.inj run
      exact ⟨[], .empty listed rfl rfl, h⟩
    | cons y rest =>
      obtain ⟨item, held⟩ := h.pop
      cases bufferType <;>
      · obtain ⟨rfl, rfl⟩ := Prod.mk.inj run
        simp only [dequeue, item]
        exact ⟨rest, .takes listed rfl rfl, held⟩

end LastPicked.SharedBuffer
