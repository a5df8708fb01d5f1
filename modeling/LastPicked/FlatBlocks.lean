import Mathlib

/-! A store of blocks of one size, seen as one sequence of entries. A block in
hand stands for its block of the store, so that writing through a buffer, block
after block, writes to the sequence, and what a mover has done so far is a
sequence too. -/

namespace LastPicked.FlatBlocks

variable {α : Type*} {B N : Nat}

/-- The entry at a position, with `z` behind the last block. -/
def flat (z : α) (blocks : Vector (Vector α B) N) (p : Nat) : α :=
  ((blocks[p / B]?).bind fun block => block[p % B]?).getD z

def written (c : Nat → α) (s : Nat) (xs : List α) (p : Nat) : α :=
  (if s ≤ p then xs[p - s]? else none).getD (c p)

def moved (c : Nat → α) (s gap p : Nat) : α := if p < s then c p else c (p + gap)

variable {z : α} {blocks : Vector (Vector α B) N}

theorem div_block {b q : Nat} (hq : q < B) : (b * B + q) / B = b := by
  rw [Nat.mul_comm, Nat.mul_add_div (by omega), Nat.div_eq_of_lt hq, Nat.add_zero]

theorem mod_block {b q : Nat} (hq : q < B) : (b * B + q) % B = q := by
  rw [Nat.mul_comm, Nat.mul_add_mod, Nat.mod_eq_of_lt hq]

theorem flat_block {b q : Nat} (hb : b < N) (hq : q < B) :
    flat z blocks (b * B + q) = blocks[b][q] := by
  simp [flat, div_block hq, mod_block hq, hb, hq]

theorem flat_of_ge {p : Nat} (h : N * B ≤ p) : flat z blocks p = z := by
  unfold flat
  rcases Nat.eq_zero_or_pos B with rfl | pos
  · cases blocks[p / 0]? <;> simp
  · have beyond : N ≤ p / B := (Nat.le_div_iff_mul_le pos).mpr h
    simp [Nat.not_lt.mpr beyond]

theorem flat_set {b : Nat} (hb : b < N) (block : Vector α B) (p : Nat) :
    flat z (blocks.set b block) p =
      if p / B = b then (block[p % B]?).getD z else flat z blocks p := by
  unfold flat
  split
  case isTrue here => simp [here, hb]
  case isFalse other => rw [Vector.getElem?_set_ne hb fun same => other same.symm]

theorem set_of_flat {b : Nat} (hb : b < N) {block : Vector α B}
    (same : ∀ (q : Nat) (hq : q < B), block[q] = flat z blocks (b * B + q)) :
    blocks.set b block = blocks := by
  have equal : block = blocks[b] := by
    ext1 q hq
    rw [same q hq, flat_block hb hq]
  rw [equal, Vector.set_getElem_self]

theorem flat_set_set {b q : Nat} (hb : b < N) (hq : q < B) (block : Vector α B) (x : α) :
    flat z (blocks.set b (block.set q x)) =
      Function.update (flat z (blocks.set b block)) (b * B + q) x := by
  funext p
  by_cases here : p = b * B + q
  · subst here
    rw [Function.update_self, flat_set hb, if_pos (div_block hq), mod_block hq]
    simp [hq]
  · rw [Function.update_of_ne here, flat_set hb, flat_set hb]
    split
    case isTrue inside =>
      have other : q ≠ p % B := by
        rintro rfl
        have whole := Nat.div_add_mod p B
        rw [inside, Nat.mul_comm] at whole
        exact here whole.symm
      rw [Vector.getElem?_set_ne hq other]
    case isFalse => rfl

section
variable {c : Nat → α} {s gap gap' : Nat} {e : Nat}

theorem moved_zero : moved c s 0 = c := by
  funext p
  exact ite_self _

theorem moved_to_end (first : e ≤ s + gap) (second : e ≤ s + gap') (ends : ∀ p, e ≤ p → c p = z) :
    moved c s gap = moved c s gap' := by
  funext p
  unfold moved
  split
  case isTrue => rfl
  case isFalse behind => rw [ends _ (by omega), ends _ (by omega)]

end

def entries (blocks : Vector (Vector α B) N) : List α := blocks.flatten.toList

theorem entries_getElem? (p : Nat) :
    (entries blocks)[p]? = if p < N * B then some (flat z blocks p) else none := by
  rw [entries, Vector.getElem?_toList, Vector.getElem?_flatten]
  split
  case isTrue inside =>
    have pos : 0 < B := Nat.pos_of_lt_mul_left inside
    have row : p / B < N := (Nat.div_lt_iff_lt_mul pos).mpr inside
    have column : p % B < B := Nat.mod_lt _ pos
    rw [flat, Vector.getElem?_eq_getElem row, Option.bind_some, Vector.getElem?_eq_getElem column,
      Option.getD_some]
  case isFalse => rfl

theorem entries_length : (entries blocks).length = N * B := by
  rw [entries, Vector.length_toList]

theorem entries_moved {blocks' : Vector (Vector α B) N} {s gap : Nat}
    (all : flat z blocks' = moved (flat z blocks) s gap) (inside : s + gap ≤ N * B) :
    entries blocks' =
      (entries blocks).take s ++ ((entries blocks).drop (s + gap) ++ List.replicate gap z) := by
  have first :
    ((entries blocks).take s).length = s := by rw [List.length_take, entries_length]; omega
  have second : ((entries blocks).drop (s + gap)).length = N * B - (s + gap) := by
    rw [List.length_drop, entries_length]
  apply List.ext_getElem?
  intro p
  rw [entries_getElem? (z := z), all, moved]
  rcases Nat.lt_or_ge p s with before | behind
  · rw [List.getElem?_append_left (by omega), List.getElem?_take_of_lt before,
      entries_getElem? (z := z), if_pos before]
  · rw [List.getElem?_append_right (by omega), first, if_neg (show ¬p < s by omega)]
    rcases Nat.lt_or_ge (p + gap) (N * B) with there | beyond
    · have place : s + gap + (p - s) = p + gap := by omega
      rw [List.getElem?_append_left (by omega), List.getElem?_drop, entries_getElem? (z := z),
        place, if_pos there, if_pos (by omega)]
    · rw [List.getElem?_append_right (by omega), second, List.getElem?_replicate, flat_of_ge beyond]
      simp only [show p - s - (N * B - (s + gap)) < gap ↔ p < N * B by omega]

section
variable {c : Nat → α} {s : Nat} {xs ys : List α}

theorem written_nil : written c s [] = c := by
  funext p
  simp [written]

theorem written_cons (x : α) :
    written c s (x :: xs) = written (Function.update c s x) (s + 1) xs := by
  funext p
  unfold written
  rcases Nat.lt_trichotomy p s with before | rfl | after
  · rw [if_neg (by omega), if_neg (by omega), Function.update_of_ne (by omega)]
  · simp
  · obtain ⟨k, rfl⟩ : ∃ k, p = s + 1 + k := ⟨p - (s + 1), by omega⟩
    rw [if_pos (by omega), if_pos (by omega), Function.update_of_ne (by omega),
      show s + 1 + k - s = k + 1 by omega, Nat.add_sub_cancel_left, List.getElem?_cons_succ]

theorem written_append : written c s (xs ++ ys) = written (written c s xs) (s + xs.length) ys := by
  induction xs generalizing c s with
  | nil => simp [written_nil]
  | cons x xs ih =>
    rw [List.cons_append, written_cons, written_cons, ih, List.length_cons, Nat.add_right_comm,
      Nat.add_assoc]

theorem written_outside {p : Nat} (h : p < s ∨ s + xs.length ≤ p) : written c s xs p = c p := by
  unfold written
  split
  · rw [List.getElem?_eq_none (by omega), Option.getD_none]
  · rfl

theorem written_inside {k : Nat} (h : k < xs.length) : written c s xs (s + k) = xs[k] := by
  simp [written, h]

end

end LastPicked.FlatBlocks
