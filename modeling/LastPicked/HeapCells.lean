import Mathlib.Data.List.Basic

/-! Blocks of memory from an allocator that always has some left. A cell that
nothing was stored to yet holds no value, and a store behind the end of its block
has no result. -/

namespace LastPicked.HeapCells

universe u

abbrev Cells (α : Type u) := List (Option α)

variable {α : Type u} {xs : List α} {c : Nat}

def malloc (α : Type u) (n : Nat) : Cells α := List.replicate n none

def realloc (cells : Cells α) (n : Nat) : Cells α :=
  cells.take n ++ List.replicate (n - cells.length) none

def put (cells : Cells α) (i : Nat) (x : α) : Option (Cells α) :=
  if i < cells.length then some (cells.set i (some x)) else none

def upTo [DecidableEq α] (z : α) : Cells α → Option (List α)
  | [] => none
  | none :: _ => none
  | some x :: cells => if x = z then some [] else (upTo z cells).map (x :: ·)

def filled (xs : List α) (c : Nat) : Cells α := xs.map some ++ List.replicate c none

@[simp] theorem filled_length (xs : List α) (c : Nat) : (filled xs c).length = xs.length + c := by
  simp [filled]

theorem malloc_eq (n : Nat) : malloc α n = filled [] n := rfl

theorem put_append (xs : List α) (stale : Option α) (cells : Cells α) (x : α) :
    put (xs.map some ++ stale :: cells) xs.length x = some ((xs ++ [x]).map some ++ cells) := by
  rw [put, if_pos (by rw [List.length_append, List.length_map, List.length_cons]; omega)]
  simp

theorem put_filled (xs : List α) (c : Nat) (x : α) :
    put (filled xs (c + 1)) xs.length x = some (filled (xs ++ [x]) c) := put_append xs none _ x

theorem put_full (xs : List α) (x : α) : put (filled xs 0) xs.length x = none :=
  if_neg (by rw [filled_length]; omega)

theorem realloc_filled {n : Nat} (fits : xs.length ≤ n) :
    realloc (filled xs c) n = filled xs (n - xs.length) := by
  have cells : min (n - xs.length) c + (n - (xs.length + c)) = n - xs.length := by omega
  rw [realloc, filled_length, filled, List.take_append, List.length_map,
    List.take_of_length_le (by simpa using fits), List.take_replicate, List.append_assoc,
    List.replicate_append_replicate, cells, filled]

theorem upTo_filled [DecidableEq α] {z : α} (absent : z ∉ xs) :
    upTo z (filled (xs ++ [z]) c) = some xs := by
  induction xs with
  | nil => simp [filled, upTo]
  | cons x xs ih =>
    obtain ⟨other, absent⟩ := not_or.mp (List.mem_cons.not.mp absent)
    have rest := ih absent
    simp only [filled, List.cons_append, List.map_cons, upTo] at rest ⊢
    rw [if_neg (Ne.symm other), rest]
    rfl

end LastPicked.HeapCells
