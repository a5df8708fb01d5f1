import Mathlib.Data.List.Basic
import Mathlib.Data.List.Nodup

/-! Sequences made of blocks: each member of a list, repeated as often as a
count says, one member after the other. -/

namespace LastPicked.BlockSequences

variable {α : Type*} {k k' : α → Nat} {xs ys : List α}

def blocks (k : α → Nat) (xs : List α) : List α := xs.flatMap fun x => List.replicate (k x) x

@[simp] theorem blocks_nil (k : α → Nat) : blocks k [] = [] := rfl

@[simp] theorem blocks_cons (k : α → Nat) (x : α) (xs : List α) :
    blocks k (x :: xs) = List.replicate (k x) x ++ blocks k xs := List.flatMap_cons

@[simp] theorem blocks_append (k : α → Nat) (xs ys : List α) :
    blocks k (xs ++ ys) = blocks k xs ++ blocks k ys := List.flatMap_append

theorem mem_of_mem_blocks {x : α} (h : x ∈ blocks k xs) : x ∈ xs := by
  obtain ⟨y, hy, hx⟩ := List.mem_flatMap.mp h
  rwa [(List.mem_replicate.mp hx).2]

theorem blocks_eq_nil (none : ∀ x ∈ xs, k x = 0) : blocks k xs = [] := by
  rw [blocks, List.flatMap_eq_nil_iff]
  intro x hx
  rw [none x hx]
  rfl

theorem blocks_cut (le : ∀ x ∈ xs, k x ≤ k' x) (none : ∀ x ∈ xs.tail, k x = 0) :
    blocks k xs <+: blocks k' xs := by
  cases xs with
  | nil => exact List.prefix_rfl
  | cons x xs =>
    have nothing : blocks k xs = [] := blocks_eq_nil none
    rw [blocks_cons, blocks_cons, nothing, List.append_nil]
    have shorter : List.replicate (k x) x <+: List.replicate (k' x) x := by
      refine ⟨List.replicate (k' x - k x) x, ?_⟩
      rw [List.replicate_append_replicate, Nat.add_sub_cancel' (le x (by simp))]
    exact shorter.trans (List.prefix_append _ _)

theorem eq_of_between (distinct : xs.Nodup) {v w : α} (between : [w, v, w].Sublist (blocks k xs)) :
    v = w := by
  induction xs with
  | nil => simp at between
  | cons x xs ih =>
    obtain ⟨away, distinct⟩ := List.nodup_cons.mp distinct
    rw [blocks_cons] at between
    obtain ⟨front, back, split, inside, later⟩ := List.sublist_append_iff.mp between
    have same : ∀ y ∈ front, y = x := fun y hy => List.eq_of_mem_replicate (inside.subset hy)
    have other : ∀ y ∈ back, y ∈ xs := fun y hy => mem_of_mem_blocks (later.subset hy)
    match front, split with
    | [], split =>
      obtain rfl : back = [w, v, w] := by simpa using split.symm
      exact ih distinct later
    | [a], split | [a, b], split =>
      -- here `w` is both `x` and a member of the rest
      simp only [List.cons_append, List.nil_append, List.cons.injEq] at split
      grind
    | a :: b :: c :: rest, split =>
      simp only [List.cons_append, List.cons.injEq] at split
      rw [split.1, split.2.1, same a (by simp), same b (by simp)]

end LastPicked.BlockSequences
